import CPreprocessor.Proofs.Source.Append

/-!
# Line splices are transparent

A splice may be put anywhere into a source but inside a trigraph or another splice: the text stays
the same, and what is behind the splice keeps its place in the source (`normalize_insert`). Both
phases work on two sides of a source on their own if nothing that they replace or delete reaches
over the boundary (`replaced_append_of_isBoundary`, `spliceLines_append_of_isSeam`), and nothing
reaches into a splice, whatever is in front of it.
-/

namespace CPreprocessor.Source

open Ascii
open scoped Computability

/-! ## What reaches over a boundary -/

/-- A word begins at the end of one text and ends at the beginning of another. -/
def Straddles (word left right : Bytes) : Prop :=
  ∃ front back, front ≠ [] ∧ back ≠ [] ∧ word = front ++ back ∧ front <:+ left ∧ back <+: right

theorem Straddles.of_suffix {word left left' right : Bytes} (h : Straddles word left right)
    (hleft : left <:+ left') : Straddles word left' right := by
  obtain ⟨front, back, hfront, hback, hword, hsuffix, hbegins⟩ := h
  exact ⟨front, back, hfront, hback, hword, hsuffix.trans hleft, hbegins⟩

/-- No trigraph reaches from one text into another. -/
def NoTrigraphOver (left right : Bytes) : Prop :=
  ∀ c b, trigraph c = some b → ¬ Straddles [question, question, c] left right

/-- No trigraph and no splice of a source begins in its left part and ends in the right one. -/
structure IsBoundary (trigraphs : Bool) (left right : Bytes) : Prop where
  noTrigraph : trigraphs = true → NoTrigraphOver left right
  noSplice : ∀ splice ∈ splices trigraphs, ¬ Straddles splice left right

/-! ## Phase 1 -/

theorem NoTrigraphOver.of_suffix {left left' right : Bytes} (h : NoTrigraphOver left' right)
    (hleft : left <:+ left') : NoTrigraphOver left right :=
  fun c b hc hover => h c b hc (hover.of_suffix hleft)

/-- Where fewer than three bytes are left, no trigraph begins. -/
theorem replaceTrigraphs_cons_append {a : Cell} {rest right : List Cell} (hshort : rest.length < 2)
    (h : NoTrigraphOver ((a :: rest).map Cell.byte) (right.map Cell.byte)) :
    replaceTrigraphs (a :: (rest ++ right)) = a :: replaceTrigraphs (rest ++ right) := by
  refine replaceTrigraphs_cons fun b c rest' hcells ha hb => ?_
  by_contra hsome
  obtain ⟨byte, hbyte⟩ := Option.ne_none_iff_exists'.1 hsome
  refine h c.byte byte hbyte ?_
  match rest, hshort with
  | [], _ =>
    obtain rfl : right = b :: c :: rest' := hcells
    exact ⟨[question], [question, c.byte], List.cons_ne_nil _ _, List.cons_ne_nil _ _, rfl,
      ⟨[], by simp [ha]⟩, ⟨rest'.map Cell.byte, by simp [hb]⟩⟩
  | [d], _ =>
    obtain ⟨rfl, rfl⟩ := List.cons.inj hcells
    exact ⟨[question, question], [c.byte], List.cons_ne_nil _ _, List.cons_ne_nil _ _, rfl,
      ⟨[], by simp [ha, hb]⟩, ⟨rest'.map Cell.byte, rfl⟩⟩

/-- Trigraphs are replaced on both sides of a place that none reaches over. -/
theorem replaceTrigraphs_append_of_noTrigraphOver {left right : List Cell}
    (h : NoTrigraphOver (left.map Cell.byte) (right.map Cell.byte)) :
    replaceTrigraphs (left ++ right) = replaceTrigraphs left ++ replaceTrigraphs right := by
  fun_induction replaceTrigraphs left with
  | case1 a b c rest byte hbyte ha hb ih =>
    have hrest := ih (h.of_suffix ⟨[a.byte, b.byte, c.byte], rfl⟩)
    simp only [List.cons_append, replaceTrigraphs, ha, hb, hbyte, hrest]
  | case2 a b c rest hnone ih =>
    rw [List.cons_append, replaceTrigraphs_cons, ih (h.of_suffix ⟨[a.byte], rfl⟩), List.cons_append]
    intro _ _ _ hcells ha hb
    obtain ⟨rfl, hrest⟩ := List.cons.inj hcells
    obtain ⟨rfl, -⟩ := List.cons.inj hrest
    exact Option.eq_none_iff_forall_ne_some.2 fun byte hbyte => hnone byte ha hb hbyte
  | case3 left hshort =>
    rcases left with _ | ⟨a, _ | ⟨b, _ | ⟨c, rest⟩⟩⟩
    · rfl
    · exact @replaceTrigraphs_cons_append a [] right Nat.two_pos h
    · have hlast : replaceTrigraphs (b :: right) = b :: replaceTrigraphs right :=
        @replaceTrigraphs_cons_append b [] right Nat.two_pos (h.of_suffix ⟨[a.byte], rfl⟩)
      exact (@replaceTrigraphs_cons_append a [b] right Nat.one_lt_two h).trans
        (congrArg (a :: ·) hlast)
    · exact (hshort a b c rest rfl).elim

theorem bytes_ofSource_shift (n : Nat) (source : Bytes) :
    ((Text.ofSource source).cells.map (Cell.shift n)).map Cell.byte = source :=
  (map_byte_shift n _).trans (Token.bytes_ofSource source)

/-- **Phase 1 works on both sides of a place that no trigraph reaches over.** -/
theorem replaced_append_of_isBoundary {trigraphs : Bool} {left right : Bytes}
    (h : trigraphs = true → NoTrigraphOver left right) :
    replaced (left ++ right) trigraphs =
      replaced left trigraphs ++ (replaced right trigraphs).map (Cell.shift left.length) := by
  rw [replaced, replaced, replaced, ofSource_append]
  cases trigraphs with
  | false => rfl
  | true =>
    have hover : NoTrigraphOver ((Text.ofSource left).cells.map Cell.byte)
        (((Text.ofSource right).cells.map (Cell.shift left.length)).map Cell.byte) := by
      rw [bytes_ofSource_shift, show (Text.ofSource left).cells.map Cell.byte = left from
        Token.bytes_ofSource left]
      exact h rfl
    simp only [if_true]
    rw [replaceTrigraphs_append_of_noTrigraphOver hover, replaceTrigraphs_map_shift]

/-- A word with no question mark is no part of a trigraph. -/
theorem replaced_append_of_notMem {word : Bytes} (hword : question ∉ word) (right : Bytes)
    (trigraphs : Bool) :
    replaced (word ++ right) trigraphs =
      (Text.ofSource word).cells ++ (replaced right trigraphs).map (Cell.shift word.length) := by
  have hover : NoTrigraphOver word right := by
    rintro c - - ⟨front, back, hfront, -, heq, hsuffix, -⟩
    obtain ⟨b, front, rfl⟩ := List.exists_cons_of_ne_nil hfront
    obtain ⟨rfl, -⟩ := List.cons.inj heq
    exact hword (hsuffix.subset List.mem_cons_self)
  have hself : replaced word trigraphs = (Text.ofSource word).cells := by
    rw [replaced, replaceTrigraphs_eq_self, ite_self]
    intro c hc hbyte
    rw [← Token.bytes_ofSource word] at hword
    exact hword (hbyte ▸ List.mem_map_of_mem hc)
  rw [replaced_append_of_isBoundary fun _ => hover, hself]

/-! ## Phase 2 -/

/-- No backslash at the end of one text is spliced with a new-line at the beginning of another. -/
def IsSeam (left right : Bytes) : Prop := ∀ splice ∈ splices false, ¬ Straddles splice left right

theorem IsSeam.of_suffix {left left' right : Bytes} (h : IsSeam left' right)
    (hleft : left <:+ left') : IsSeam left right :=
  fun splice hsplice hover => h splice hsplice (hover.of_suffix hleft)

/-- Line splicing works on both sides of a seam. -/
theorem spliceLines_append_of_isSeam {left right : List Cell}
    (h : IsSeam (left.map Cell.byte) (right.map Cell.byte)) :
    spliceLines (left ++ right) = spliceLines left ++ spliceLines right := by
  have hbackslash := mem_spellings_self false backslash
  fun_induction spliceLines left with
  | case1 o o' rest ih =>
    rw [List.cons_append, List.cons_append, spliceLines]
    exact ih (h.of_suffix ⟨[backslash, newline], rfl⟩)
  | case2 o o' o'' rest ih =>
    rw [List.cons_append, List.cons_append, List.cons_append, spliceLines]
    exact ih (h.of_suffix ⟨[backslash, carriageReturn, newline], rfl⟩)
  | case3 a rest hline hreturn ih =>
    rw [List.cons_append, spliceLines_cons, ih (h.of_suffix ⟨[a.byte], rfl⟩), List.cons_append]
    · intro c rest' hcells ha hc
      cases rest with
      | nil =>
        obtain rfl : right = c :: rest' := hcells
        refine h [backslash, newline] ⟨_, hbackslash, .inl rfl⟩ ?_
        exact ⟨[backslash], [newline], List.cons_ne_nil _ _, List.cons_ne_nil _ _, rfl,
          ⟨[], by simp [ha]⟩, ⟨rest'.map Cell.byte, by simp [hc]⟩⟩
      | cons d rest =>
        obtain ⟨rfl, -⟩ := List.cons.inj hcells
        exact hline a.origin d.origin rest (Cell.eq_mk ha) (congrArg (· :: rest) (Cell.eq_mk hc))
    · intro c d rest' hcells ha hc hd
      rcases rest with _ | ⟨e, _ | ⟨f, rest⟩⟩
      · obtain rfl : right = c :: d :: rest' := hcells
        refine h [backslash, carriageReturn, newline] ⟨_, hbackslash, .inr rfl⟩ ?_
        exact ⟨[backslash], [carriageReturn, newline], List.cons_ne_nil _ _, List.cons_ne_nil _ _,
          rfl, ⟨[], by simp [ha]⟩, ⟨rest'.map Cell.byte, by simp [hc, hd]⟩⟩
      · obtain ⟨rfl, rfl⟩ := List.cons.inj hcells
        refine h [backslash, carriageReturn, newline] ⟨_, hbackslash, .inr rfl⟩ ?_
        exact ⟨[backslash, carriageReturn], [newline], List.cons_ne_nil _ _, List.cons_ne_nil _ _,
          rfl, ⟨[], by simp [ha, hc]⟩, ⟨rest'.map Cell.byte, by simp [hd]⟩⟩
      · obtain ⟨rfl, hbehind⟩ := List.cons.inj hcells
        obtain ⟨rfl, -⟩ := List.cons.inj hbehind
        exact hreturn a.origin e.origin f.origin rest (Cell.eq_mk ha)
          (congrArg₂ (· :: · :: rest) (Cell.eq_mk hc) (Cell.eq_mk hd))
  | case4 => rfl

/-! ## From a source to its text -/

section

variable {trigraphs : Bool} {offset : Nat} {cells : List Cell} {source : Bytes}

/-- What spells some bytes and others is what spells the first and what spells the others. -/
theorem SpellsWhole.exists_append {cells' : List Cell}
    (h : SpellsWhole trigraphs offset (cells ++ cells') source) :
    ∃ front back, source = front ++ back ∧ SpellsWhole trigraphs offset cells front ∧
      SpellsWhole trigraphs (offset + front.length) cells' back := by
  induction cells generalizing offset source with
  | nil => exact ⟨[], source, rfl, .nil offset, h⟩
  | cons c cells ih =>
    obtain ⟨spelling, rest, rfl, hspelling, rfl, hreplaced, hrest⟩ := h.exists_of_cons
    obtain ⟨front, back, rfl, hfront, hback⟩ := ih hrest
    refine ⟨spelling ++ front, back, (List.append_assoc ..).symm,
      .cons hspelling (fun ht d b hd hbegins => ?_) hfront, ?_⟩
    · rw [← List.append_assoc] at hreplaced
      exact hreplaced ht d b hd (hbegins.trans (List.prefix_append _ back))
    · rw [List.length_append, ← Nat.add_assoc]
      exact hback

/-- White-space is what it is spelled with. -/
theorem SpellsWhole.eq_map_of_isBlank (h : SpellsWhole trigraphs offset cells source)
    (hblank : ∀ c ∈ cells, isBlank c.byte = true) : source = cells.map Cell.byte := by
  induction cells generalizing offset source with
  | nil =>
    cases h
    rfl
  | cons c cells ih =>
    obtain ⟨hc, hcells⟩ := List.forall_mem_cons.1 hblank
    obtain ⟨rest, rfl, hrest⟩ := h.exists_of_isBlank hc
    rw [ih hrest hcells, List.map_cons]

end

theorem spellsWhole_replaced (source : Bytes) (trigraphs : Bool) :
    SpellsWhole trigraphs 0 (replaced source trigraphs) source := by
  cases trigraphs with
  | false => exact spellsWhole_ofSource source
  | true => exact (spellsWhole_ofSource source).replaceTrigraphs

/-- White-space at the beginning of a text is at the beginning of its source. -/
theorem prefix_of_prefix_replaced {source word : Bytes} {trigraphs : Bool}
    (hword : ∀ b ∈ word, isBlank b = true)
    (h : word <+: (replaced source trigraphs).map Cell.byte) : word <+: source := by
  obtain ⟨rest, hrest⟩ := h
  obtain ⟨cells, cells', hcells, rfl, -⟩ := List.map_eq_append_iff.1 hrest.symm
  have hspells := spellsWhole_replaced source trigraphs
  rw [hcells] at hspells
  obtain ⟨front, back, rfl, hfront, -⟩ := hspells.exists_append
  rw [hfront.eq_map_of_isBlank fun c hc => hword c.byte (List.mem_map_of_mem hc)]
  exact List.prefix_append _ back

/-- A byte and white-space behind it at the end of a text are a spelling of the byte and the
white-space at the end of its source. -/
theorem exists_spelling_suffix {source word : Bytes} {b : UInt8} {trigraphs : Bool}
    (hword : ∀ b ∈ word, isBlank b = true)
    (h : b :: word <:+ (replaced source trigraphs).map Cell.byte) :
    ∃ spelling ∈ spellings trigraphs b, spelling ++ word <:+ source := by
  obtain ⟨front, hfront⟩ := h
  obtain ⟨cells, cells', hcells, -, hbyte⟩ := List.map_eq_append_iff.1 hfront.symm
  obtain ⟨c, cells', rfl, rfl, rfl⟩ := List.map_eq_cons_iff.1 hbyte
  have hspells := spellsWhole_replaced source trigraphs
  rw [hcells] at hspells
  obtain ⟨front, back, rfl, -, hback⟩ := hspells.exists_append
  obtain ⟨spelling, rest, rfl, hspelling, -, -, hrest⟩ := hback.exists_of_cons
  rw [hrest.eq_map_of_isBlank fun c hc => hword c.byte (List.mem_map_of_mem hc)]
  exact ⟨spelling, hspelling, List.suffix_append front _⟩

/-- A splice is a backslash, however it is spelled, and white-space. -/
theorem exists_ending_of_mem_splices {trigraphs : Bool} {splice : Bytes}
    (h : splice ∈ splices trigraphs) :
    ∃ spelling ∈ spellings trigraphs backslash, ∃ ending, splice = spelling ++ ending ∧
      (∀ b ∈ ending, isBlank b = true) ∧
      ∀ trigraphs', ∀ spelling' ∈ spellings trigraphs' backslash,
        spelling' ++ ending ∈ splices trigraphs' := by
  obtain ⟨spelling, hspelling, rfl | rfl⟩ := h
  · exact ⟨spelling, hspelling, [newline], rfl, List.forall_mem_singleton.2 rfl,
      fun _ _ h => ⟨_, h, .inl rfl⟩⟩
  · exact ⟨spelling, hspelling, [carriageReturn, newline], rfl,
      List.forall_mem_cons.2 ⟨rfl, List.forall_mem_singleton.2 rfl⟩,
      fun _ _ h => ⟨_, h, .inr rfl⟩⟩

/-- Without trigraphs a splice begins with the backslash itself. -/
theorem eq_backslash_of_mem_spellings {spelling : Bytes}
    (h : spelling ∈ spellings false backslash) : spelling = [backslash] := by
  rcases h with rfl | ⟨hfalse, -⟩
  · rfl
  · cases hfalse

/-- Where no splice of the source reaches over a place, there is a seam in the text. -/
theorem isSeam_replaced {trigraphs : Bool} {left right : Bytes}
    (h : ∀ splice ∈ splices trigraphs, ¬ Straddles splice left right) :
    IsSeam ((replaced left trigraphs).map Cell.byte)
      ((replaced right trigraphs).map Cell.byte) := by
  rintro splice hsplice ⟨front, back, hfront, hback, heq, hsuffix, hbegins⟩
  obtain ⟨spelling, hspelling, ending, rfl, hblank, hmem⟩ := exists_ending_of_mem_splices hsplice
  rw [eq_backslash_of_mem_spellings hspelling] at heq
  obtain ⟨b, front, rfl⟩ := List.exists_cons_of_ne_nil hfront
  obtain ⟨rfl, hending⟩ := List.cons.inj heq
  obtain rfl : ending = front ++ back := hending
  obtain ⟨hfrontBlank, hbackBlank⟩ := List.forall_mem_append.1 hblank
  obtain ⟨spelling, hspelling, hsource⟩ := exists_spelling_suffix hfrontBlank hsuffix
  refine h _ (hmem trigraphs spelling hspelling) ⟨spelling ++ front, back, ?_, hback,
    (List.append_assoc ..).symm, hsource, prefix_of_prefix_replaced hbackBlank hbegins⟩
  exact List.append_ne_nil_of_left_ne_nil (ne_nil_of_mem_spellings hspelling) front

/-! ## Both phases -/

/-- **Both phases work on the two sides of a boundary on their own.** -/
theorem cells_normalize_append {trigraphs : Bool} {left right : Bytes}
    (h : IsBoundary trigraphs left right) :
    (normalize (left ++ right) trigraphs).cells = (normalize left trigraphs).cells ++
      (normalize right trigraphs).cells.map (Cell.shift left.length) := by
  have hseam := isSeam_replaced h.noSplice
  rw [← map_byte_shift left.length (replaced right trigraphs)] at hseam
  rw [cells_normalize, cells_normalize, cells_normalize, replaced_append_of_isBoundary h.noTrigraph,
    spliceLines_append_of_isSeam hseam, spliceLines_map_shift]

section

variable {splice : Bytes} (hsplice : splice ∈ splices false)
include hsplice

theorem question_notMem_splice : question ∉ splice := by
  obtain ⟨spelling, hspelling, ending, rfl, hblank, -⟩ := exists_ending_of_mem_splices hsplice
  rw [eq_backslash_of_mem_spellings hspelling]
  intro hmem
  rcases List.mem_append.1 hmem with hmem | hmem
  · exact absurd hmem (by decide)
  · exact absurd (hblank question hmem) (by decide)

/-- No trigraph ends in a backslash. -/
theorem noTrigraphOver_splice (left right : Bytes) : NoTrigraphOver left (splice ++ right) := by
  obtain ⟨spelling, hspelling, ending, rfl, -⟩ := exists_ending_of_mem_splices hsplice
  rw [eq_backslash_of_mem_spellings hspelling]
  rintro c b hc ⟨front, back, -, hback, heq, -, hbegins⟩
  obtain ⟨d, back, rfl⟩ := List.exists_cons_of_ne_nil hback
  obtain ⟨rfl, -⟩ := List.cons_prefix_cons.1 hbegins
  have hmem : backslash ∈ [question, question, c] := by simp [heq]
  obtain rfl : backslash = c := by
    simpa only [List.mem_cons, List.not_mem_nil, or_false, show backslash ≠ question by decide,
      false_or] using hmem
  cases hc

/-- No splice goes on with a backslash. -/
theorem isSeam_splice (left right : Bytes) : IsSeam left (splice ++ right) := by
  obtain ⟨spelling, hspelling, ending, rfl, -⟩ := exists_ending_of_mem_splices hsplice
  rw [eq_backslash_of_mem_spellings hspelling]
  rintro splice hsplice ⟨front, back, hfront, hback, heq, -, hbegins⟩
  obtain ⟨spelling', hspelling', ending', rfl, hblank, -⟩ := exists_ending_of_mem_splices hsplice
  rw [eq_backslash_of_mem_spellings hspelling'] at heq
  obtain ⟨b, front, rfl⟩ := List.exists_cons_of_ne_nil hfront
  obtain ⟨c, back, rfl⟩ := List.exists_cons_of_ne_nil hback
  obtain ⟨rfl, -⟩ := List.cons_prefix_cons.1 hbegins
  obtain ⟨-, rfl⟩ := List.cons.inj heq
  exact absurd (hblank backslash (by simp)) (by decide)

/-- A splice in front is deleted. -/
theorem spliceLines_splice_append (n : Nat) (cells : List Cell) :
    spliceLines ((Text.ofSource splice).cells.map (Cell.shift n) ++ cells) = spliceLines cells := by
  obtain ⟨spelling, hspelling, rfl | rfl⟩ := hsplice
  all_goals
    rw [eq_backslash_of_mem_spellings hspelling]
    exact spliceLines.eq_def _

/-- **A splice is deleted wherever it is**, and what is behind it goes on as at its beginning. -/
theorem cells_normalize_splice (left right : Bytes) (trigraphs : Bool) :
    (normalize (left ++ (splice ++ right)) trigraphs).cells = (normalize left trigraphs).cells ++
      (normalize right trigraphs).cells.map (Cell.shift (left.length + splice.length)) := by
  have hshift (cells : List Cell) : (cells.map (Cell.shift splice.length)).map
      (Cell.shift left.length) = cells.map (Cell.shift (left.length + splice.length)) := by
    rw [List.map_map]
    exact List.map_congr_left fun c _ => congrArg (Cell.mk c.byte) (Nat.add_assoc ..).symm
  have hseam : IsSeam ((replaced left trigraphs).map Cell.byte)
      (((Text.ofSource splice).cells.map (Cell.shift left.length) ++ (replaced right trigraphs).map
        (Cell.shift (left.length + splice.length))).map Cell.byte) := by
    rw [List.map_append, bytes_ofSource_shift]
    exact isSeam_splice hsplice _ _
  rw [cells_normalize, cells_normalize, cells_normalize,
    replaced_append_of_isBoundary fun _ => noTrigraphOver_splice hsplice left right,
    replaced_append_of_notMem (question_notMem_splice hsplice), List.map_append, hshift,
    spliceLines_append_of_isSeam hseam, spliceLines_splice_append hsplice, spliceLines_map_shift]

end

/-- The bytes of a text are made from bytes of its source. -/
theorem origin_lt_of_mem_normalize {source : Bytes} {trigraphs : Bool} {c : Cell}
    (hc : c ∈ (normalize source trigraphs).cells) : c.origin < source.length := by
  have hincreasing := (Text.MapsBack.of_normalize source trigraphs).increasing
  rw [Text.positions, stop_normalize, List.pairwise_append] at hincreasing
  exact hincreasing.2.2 c.origin (List.mem_map_of_mem hc) source.length List.mem_cons_self

/-- **Line splices are transparent.** A splice put into a source at a boundary changes nothing but
the places of what is behind it. -/
theorem normalize_insert {trigraphs : Bool} {left right : Bytes}
    (h : IsBoundary trigraphs left right) {splice : Bytes}
    (hsplice : splice = [backslash, newline] ∨ splice = [backslash, carriageReturn, newline]) :
    (normalize (left ++ splice ++ right) trigraphs).bytes =
        (normalize (left ++ right) trigraphs).bytes ∧
      (normalize (left ++ splice ++ right) trigraphs).positions =
        (normalize (left ++ right) trigraphs).positions.map fun position =>
          if position < left.length then position else position + splice.length := by
  have hmem : splice ∈ splices false := ⟨[backslash], mem_spellings_self false backslash, hsplice⟩
  rw [List.append_assoc]
  constructor
  · simp only [Text.bytes, cells_normalize_splice hmem, cells_normalize_append h, List.map_append,
      map_byte_shift]
  · simp only [Text.positions, cells_normalize_splice hmem, cells_normalize_append h,
      stop_normalize, List.map_append, List.map_map]
    refine congrArg₂ (· ++ ·) (congrArg₂ (· ++ ·) ?_ ?_) ?_
    · refine List.map_congr_left fun c hc => ?_
      exact (if_pos (origin_lt_of_mem_normalize hc)).symm
    · refine List.map_congr_left fun c _ => ?_
      show left.length + splice.length + c.origin =
        if left.length + c.origin < left.length then _ else left.length + c.origin + splice.length
      rw [if_neg (Nat.not_lt.2 (Nat.le_add_right _ _)), Nat.add_right_comm]
    · simp only [List.map_cons, List.map_nil, List.length_append]
      rw [if_neg (Nat.not_lt.2 (Nat.le_add_right _ _)), Nat.add_left_comm, Nat.add_comm]

/-- In front of a byte that is in no trigraph and no splice there is a boundary. -/
theorem isBoundary_cons {b : UInt8} (hb : b ∉ [question, backslash]) (hblank : isBlank b = false)
    (htrigraph : trigraph b = none) (trigraphs : Bool) (left right : Bytes) :
    IsBoundary trigraphs left (b :: right) := by
  have hnot {word : Bytes} (hword : b ∉ word) : ¬ Straddles word left (b :: right) := by
    rintro ⟨front, back, -, hback, rfl, -, hbegins⟩
    obtain ⟨c, back, rfl⟩ := List.exists_cons_of_ne_nil hback
    obtain ⟨rfl, -⟩ := List.cons_prefix_cons.1 hbegins
    exact hword (by simp)
  have hquestion : b ≠ question := fun h => hb (by simp [h])
  have hmarks {c d : UInt8} (hc : trigraph c = some d) : b ∉ [question, question, c] := by
    have hne : b ≠ c := by
      rintro rfl
      rw [htrigraph] at hc
      cases hc
    simp [hquestion, hne]
  refine ⟨fun _ c d hc => hnot (hmarks hc), fun splice hsplice => hnot fun hmem => ?_⟩
  obtain ⟨spelling, hspelling, ending, rfl, hending, -⟩ := exists_ending_of_mem_splices hsplice
  rcases List.mem_append.1 hmem with hmem | hmem
  · rcases hspelling with rfl | ⟨-, c, hc, rfl⟩
    · exact hb (List.mem_cons_of_mem question hmem)
    · exact hmarks hc hmem
  · rw [hending b hmem] at hblank
    cases hblank

/-- Behind a trigraph that stands for a backslash, a splice is one all the same. -/
theorem normalize_insert_trigraph :
    IsBoundary true (Bytes.ofString "a??/") (Bytes.ofString "bc") ∧
      (normalize (Bytes.ofString "a??/" ++ [backslash, carriageReturn, newline] ++
        Bytes.ofString "bc") true).bytes = Bytes.ofString "a\\bc" ∧
      (normalize (Bytes.ofString "a??/" ++ [backslash, carriageReturn, newline] ++
        Bytes.ofString "bc") true).positions = [0, 1, 7, 8, 9] := by
  have h : IsBoundary true (Bytes.ofString "a??/") (Bytes.ofString "bc") :=
    isBoundary_cons (by decide) (by decide) (by decide) true _ _
  obtain ⟨hbytes, hpositions⟩ := normalize_insert h (.inr rfl)
  exact ⟨h, hbytes.trans (by decide), hpositions.trans (by decide)⟩

end CPreprocessor.Source
