import CPreprocessor.Proofs.Source.Lines
import CPreprocessor.Proofs.Token

/-!
# Texts in two parts

No trigraph and no splice reaches over a new-line, or over a space, so both phases work on the two
sides on their own (`normalize_append`). A splice alone takes a new-line away: a source that ends
in one and in no splice is a text that ends in a new-line (`exists_normalize_eq_concat`).
-/

namespace CPreprocessor.Source

open Ascii
open scoped Computability

/-! ## Phase 1 -/

/-- A byte with which no trigraph begins is kept. -/
theorem replaceTrigraphs_cons {a : Cell} {rest : List Cell}
    (h : ∀ b c rest', rest = b :: c :: rest' → a.byte = question → b.byte = question →
      trigraph c.byte = none) :
    replaceTrigraphs (a :: rest) = a :: replaceTrigraphs rest := by
  rcases rest with _ | ⟨b, _ | ⟨c, rest⟩⟩
  · rfl
  · rfl
  · rw [replaceTrigraphs]
    split
    · next byte ha hb hc =>
      rw [h b c rest rfl ha hb] at hc
      cases hc
    · rfl

/-- A byte in no trigraph parts a text. -/
theorem replaceTrigraphs_append {b : UInt8} (hb : b ≠ question) (htrigraph : trigraph b = none)
    (o : Nat) (front back : List Cell) :
    replaceTrigraphs (front ++ ⟨b, o⟩ :: back) =
      replaceTrigraphs front ++ ⟨b, o⟩ :: replaceTrigraphs back := by
  have hback : replaceTrigraphs (⟨b, o⟩ :: back) = ⟨b, o⟩ :: replaceTrigraphs back :=
    replaceTrigraphs_cons fun _ _ _ _ hquestion => absurd hquestion hb
  have hbefore (a : Cell) :
      replaceTrigraphs (a :: ⟨b, o⟩ :: back) = a :: ⟨b, o⟩ :: replaceTrigraphs back := by
    rw [replaceTrigraphs_cons, hback]
    rintro _ _ _ h - hquestion
    obtain ⟨rfl, -⟩ := List.cons.inj h
    exact absurd hquestion hb
  fun_induction replaceTrigraphs front with
  | case1 x y z rest byte hbyte hx hy ih =>
    simp only [List.cons_append, replaceTrigraphs, hx, hy, hbyte, ih]
  | case2 x y z rest hnone ih =>
    rw [List.cons_append, replaceTrigraphs_cons, ih, List.cons_append]
    intro _ _ _ hcells hx hy
    obtain ⟨rfl, hrest⟩ := List.cons.inj hcells
    obtain ⟨rfl, -⟩ := List.cons.inj hrest
    exact Option.eq_none_iff_forall_ne_some.2 fun byte hbyte => hnone byte hx hy hbyte
  | case3 front hshort =>
    rcases front with _ | ⟨x, _ | ⟨y, _ | ⟨z, rest⟩⟩⟩
    · exact hback
    · exact hbefore x
    · rw [List.cons_append, replaceTrigraphs_cons]
      · exact congrArg (x :: ·) (hbefore y)
      · rintro _ _ _ h - -
        obtain ⟨-, h⟩ := List.cons.inj h
        obtain ⟨rfl, -⟩ := List.cons.inj h
        exact htrigraph
    · exact (hshort x y z rest rfl).elim

/-! ## Phase 2 -/

theorem Cell.eq_mk {c : Cell} {b : UInt8} (h : c.byte = b) : c = ⟨b, c.origin⟩ := by
  rw [← h]

/-- A byte with which no splice begins is kept. -/
theorem spliceLines_cons {a : Cell} {rest : List Cell}
    (hline : ∀ c rest', rest = c :: rest' → a.byte = backslash → c.byte ≠ newline)
    (hreturn : ∀ c d rest', rest = c :: d :: rest' → a.byte = backslash →
      c.byte = carriageReturn → d.byte ≠ newline) :
    spliceLines (a :: rest) = a :: spliceLines rest := by
  rw [spliceLines]
  · rintro o o' rest' rfl rfl
    exact hline _ _ rfl rfl rfl
  · rintro o o' o'' rest' rfl rfl
    exact hreturn _ _ _ rfl rfl rfl rfl

/-- Line splicing goes on behind a new-line as at the start of a text. -/
theorem spliceLines_append {front : List Cell} (h : ∀ c ∈ front.getLast?, c.byte = newline)
    (back : List Cell) : spliceLines (front ++ back) = spliceLines front ++ spliceLines back := by
  have htail {c : Cell} {cells : List Cell} (h : ∀ d ∈ (c :: cells).getLast?, d.byte = newline) :
      ∀ d ∈ cells.getLast?, d.byte = newline := fun d hd => h d (List.mem_getLast?_cons hd)
  fun_induction spliceLines front with
  | case1 o o' rest ih =>
    rw [List.cons_append, List.cons_append, spliceLines]
    exact ih (htail (htail h))
  | case2 o o' o'' rest ih =>
    rw [List.cons_append, List.cons_append, List.cons_append, spliceLines]
    exact ih (htail (htail (htail h)))
  | case3 a rest hline hreturn ih =>
    have hne : a.byte = backslash → rest ≠ [] := by
      rintro ha rfl
      exact absurd (ha.symm.trans (h a rfl)) (by decide)
    rw [List.cons_append, spliceLines_cons, ih (htail h), List.cons_append]
    · intro c rest' hrest ha hc
      obtain ⟨d, more, rfl⟩ := List.exists_cons_of_ne_nil (hne ha)
      obtain ⟨rfl, -⟩ := List.cons.inj hrest
      exact hline a.origin d.origin more (Cell.eq_mk ha) (congrArg (· :: more) (Cell.eq_mk hc))
    · intro c d rest' hrest ha hc hd
      obtain ⟨e, more, rfl⟩ := List.exists_cons_of_ne_nil (hne ha)
      obtain ⟨rfl, hmore⟩ := List.cons.inj hrest
      cases more with
      | nil => exact absurd (hc.symm.trans (htail h e rfl)) (by decide)
      | cons f more =>
        obtain ⟨rfl, -⟩ := List.cons.inj hmore
        exact hreturn a.origin e.origin f.origin more (Cell.eq_mk ha)
          (congrArg₂ (· :: · :: more) (Cell.eq_mk hc) (Cell.eq_mk hd))
  | case4 => rfl

/-! ## The place of a text -/

/-- The byte, so much later in the source. -/
def Cell.shift (n : Nat) (c : Cell) : Cell := { c with origin := n + c.origin }

theorem map_byte_shift (n : Nat) (cells : List Cell) :
    (cells.map (Cell.shift n)).map Cell.byte = cells.map Cell.byte := by
  rw [List.map_map]
  rfl

theorem replaceTrigraphs_map_shift (n : Nat) (cells : List Cell) :
    replaceTrigraphs (cells.map (Cell.shift n)) = (replaceTrigraphs cells).map (Cell.shift n) := by
  fun_induction replaceTrigraphs cells with
  | case1 a b c rest byte hbyte ha hb ih =>
    simp only [List.map_cons, replaceTrigraphs, Cell.shift, ha, hb, hbyte]
    exact congrArg _ ih
  | case2 a b c rest hnone ih =>
    rw [List.map_cons, List.map_cons, List.map_cons, replaceTrigraphs_cons, List.map_cons, ← ih]
    · rfl
    · intro _ _ _ hcells ha hb
      obtain ⟨rfl, hrest⟩ := List.cons.inj hcells
      obtain ⟨rfl, -⟩ := List.cons.inj hrest
      exact Option.eq_none_iff_forall_ne_some.2 fun byte hbyte => hnone byte ha hb hbyte
  | case3 cells hshort =>
    rcases cells with _ | ⟨a, _ | ⟨b, _ | ⟨c, rest⟩⟩⟩
    · rfl
    · rfl
    · rfl
    · exact (hshort a b c rest rfl).elim

theorem spliceLines_map_shift (n : Nat) (cells : List Cell) :
    spliceLines (cells.map (Cell.shift n)) = (spliceLines cells).map (Cell.shift n) := by
  fun_induction spliceLines cells with
  | case1 o o' rest ih => exact ih
  | case2 o o' o'' rest ih => exact ih
  | case3 a rest hline hreturn ih =>
    rw [List.map_cons, spliceLines_cons, ih, List.map_cons]
    · intro c rest' hrest ha hc
      obtain ⟨d, more, rfl, rfl, -⟩ := List.map_eq_cons_iff.1 hrest
      exact hline a.origin d.origin more (Cell.eq_mk ha) (congrArg (· :: more) (Cell.eq_mk hc))
    · intro c d rest' hrest ha hc hd
      obtain ⟨e, more, rfl, rfl, hmore⟩ := List.map_eq_cons_iff.1 hrest
      obtain ⟨f, more, rfl, rfl, -⟩ := List.map_eq_cons_iff.1 hmore
      exact hreturn a.origin e.origin f.origin more (Cell.eq_mk ha)
        (congrArg₂ (· :: · :: more) (Cell.eq_mk hc) (Cell.eq_mk hd))
  | case4 => rfl

theorem ofSource_append (source source' : Bytes) :
    (Text.ofSource (source ++ source')).cells = (Text.ofSource source).cells ++
      (Text.ofSource source').cells.map (Cell.shift source.length) := by
  rw [Text.ofSource, List.mapIdx_append]
  refine congrArg (_ ++ ·) (List.ext_getElem (by simp [Text.ofSource]) fun i _ _ => ?_)
  simp [Text.ofSource, Cell.shift, Nat.add_comm]

/-! ## Both phases -/

/-- The bytes of a source after phase 1. -/
def replaced (source : Bytes) (trigraphs : Bool) : List Cell :=
  if trigraphs then replaceTrigraphs (Text.ofSource source).cells else (Text.ofSource source).cells

theorem cells_normalize (source : Bytes) (trigraphs : Bool) :
    (normalize source trigraphs).cells = spliceLines (replaced source trigraphs) := by
  cases trigraphs <;> rfl

theorem replaced_append {b : UInt8} (hb : b ≠ question) (htrigraph : trigraph b = none)
    (source source' : Bytes) (trigraphs : Bool) :
    replaced (source ++ b :: source') trigraphs = replaced source trigraphs ++
      ⟨b, source.length⟩ :: (replaced source' trigraphs).map (Cell.shift (source.length + 1)) := by
  have hcells : (Text.ofSource (source ++ b :: source')).cells = (Text.ofSource source).cells ++
      ⟨b, source.length⟩ ::
        (Text.ofSource source').cells.map (Cell.shift (source.length + 1)) := by
    rw [List.append_cons, ofSource_append, ofSource_append, List.append_assoc,
      List.length_append, List.length_singleton]
    rfl
  rw [replaced, replaced, replaced, hcells]
  cases trigraphs with
  | false => rfl
  | true =>
    simp only [if_true]
    rw [replaceTrigraphs_append hb htrigraph, replaceTrigraphs_map_shift]

/-- **Behind a new-line a text goes on as one of its own.** -/
theorem normalize_append (source source' : Bytes) (trigraphs : Bool) :
    (normalize (source ++ newline :: source') trigraphs).cells =
      (normalize (source ++ [newline]) trigraphs).cells ++
        (normalize source' trigraphs).cells.map (Cell.shift (source.length + 1)) := by
  have hlast (front : List Cell) (o : Nat) :
      ∀ c ∈ (front ++ [(⟨newline, o⟩ : Cell)]).getLast?, c.byte = newline := by
    intro c hc
    rw [List.getLast?_concat, Option.mem_some_iff] at hc
    rw [← hc]
  have hreplaced (source' : Bytes) :=
    replaced_append (b := newline) (by decide) (by decide) source source' trigraphs
  have hnil : replaced [] trigraphs = [] := by cases trigraphs <;> rfl
  rw [cells_normalize, cells_normalize, cells_normalize, hreplaced, hreplaced, hnil, List.map_nil,
    List.append_cons, spliceLines_append (hlast _ _), spliceLines_map_shift]

/-! ## The end of a text -/

theorem exists_splice_suffix {trigraphs : Bool} {gap : Bytes} (hgap : gap ∈ (splices trigraphs)∗)
    (hne : gap ≠ []) : ∃ splice ∈ splices trigraphs, splice <:+ gap := by
  obtain ⟨parts, rfl, hparts⟩ := Language.mem_kstar.1 hgap
  rcases List.eq_nil_or_concat' parts with rfl | ⟨earlier, splice, rfl⟩
  · exact absurd rfl hne
  · refine ⟨splice, hparts splice (by simp), earlier.flatten, ?_⟩
    rw [List.flatten_append, List.flatten_singleton]

theorem eq_slash_of_trigraph {c : UInt8} (h : trigraph c = some backslash) : c = slash := by
  unfold trigraph at h
  split at h <;> first | rfl | cases h

/-- In front of its new-line, a splice ends in one of three bytes. -/
theorem not_splice_suffix {trigraphs : Bool} {b : UInt8}
    (hb : b ∉ [backslash, slash, carriageReturn]) (source : Bytes) :
    ∀ splice ∈ splices trigraphs, ¬ splice <:+ source ++ [b, newline] := by
  rintro splice hsplice ⟨front, hfront⟩
  have hlast {middle : Bytes} (hne : middle ≠ [])
      (h : front ++ (middle ++ [newline]) = source ++ [b, newline]) : middle.getLast? = some b := by
    rw [← List.append_assoc, List.append_cons source] at h
    rw [← List.getLast?_append_of_ne_nil front hne, (List.append_inj' h rfl).1, List.getLast?_concat]
  obtain ⟨spelling, hspelling, rfl | rfl⟩ := hsplice
  · have hend := hlast (ne_nil_of_mem_spellings hspelling) hfront
    rcases hspelling with rfl | ⟨-, c, hc, rfl⟩
    · obtain rfl := Option.some.inj hend
      exact hb (by decide)
    · obtain rfl := eq_slash_of_trigraph hc
      obtain rfl := Option.some.inj hend
      exact hb (by decide)
  · rw [List.append_cons] at hfront
    have hend := hlast (by simp) hfront
    rw [List.getLast?_concat] at hend
    obtain rfl := Option.some.inj hend
    exact hb (by decide)

theorem eq_newline_of_getLast? {trigraphs : Bool} {b : UInt8} {spelling : Bytes}
    (h : spelling ∈ spellings trigraphs b) (hlast : spelling.getLast? = some newline) :
    b = newline := by
  rcases h with rfl | ⟨-, d, hd, rfl⟩
  · exact Option.some.inj hlast
  · obtain rfl : d = newline := Option.some.inj hlast
    cases hd

/-- **The new-line that ends a source is kept if it is in no splice.** -/
theorem exists_normalize_eq_concat {source : Bytes} {trigraphs : Bool}
    (hsplice : ∀ splice ∈ splices trigraphs, ¬ splice <:+ source ++ [newline]) :
    ∃ cells o, (normalize (source ++ [newline]) trigraphs).cells = cells ++ [⟨newline, o⟩] := by
  obtain ⟨gap, hgap, rest, hsource, hspells⟩ :=
    exists_spells_normalize (source ++ [newline]) trigraphs
  have hnoGap (front : Bytes) {gap : Bytes} (hgap : gap ∈ (splices trigraphs)∗)
      (hsource : source ++ [newline] = front ++ gap) : gap = [] := by
    by_contra hne
    obtain ⟨splice, hmem, hsuffix⟩ := exists_splice_suffix hgap hne
    exact hsplice splice hmem (hsuffix.trans ⟨front, hsource.symm⟩)
  rcases List.eq_nil_or_concat' (normalize (source ++ [newline]) trigraphs).cells with
    hcells | ⟨cells, c, hcells⟩
  · -- a source of splices alone ends in one
    rw [hcells] at hspells
    obtain rfl : rest = [] := by cases hspells; rfl
    obtain rfl := hnoGap [] hgap (by rw [hsource, List.append_nil, List.nil_append])
    exact absurd hsource (by simp)
  · rw [hcells] at hspells
    obtain ⟨front, segment, back, rfl, horigin, hnext, hsegment, -⟩ :=
      hspells.exists_segment (i := cells.length) List.getElem?_concat_length
    -- the source ends where the last byte and the splices behind it do
    obtain rfl : back = [] := by
      rw [List.getElem?_append_right (by simp)] at hnext
      simp only [List.length_map, List.length_append, List.length_singleton, Nat.sub_self,
        List.getElem?_cons_zero, Option.some.injEq, horigin] at hnext
      exact List.length_eq_zero_iff.1 (by omega)
    obtain ⟨spelling, hspelling, gap', hgap', rfl⟩ := hsegment
    obtain rfl : gap' = [] := by
      refine hnoGap (gap ++ front ++ spelling) hgap' (hsource.trans ?_)
      simp only [List.append_assoc, List.append_nil]
    have hlast : spelling.getLast? = some newline := by
      have hend := congrArg List.getLast? hsource
      rw [List.getLast?_concat] at hend
      rw [← List.getLast?_append_of_ne_nil (gap ++ front) (ne_nil_of_mem_spellings hspelling), hend]
      simp only [List.append_assoc, List.append_nil]
    have hbyte := eq_newline_of_getLast? hspelling hlast
    exact ⟨cells, c.origin, by rw [hcells, ← Cell.eq_mk hbyte]⟩

/-! ## One line -/

theorem replaceTrigraphs_eq_self {cells : List Cell} (h : ∀ c ∈ cells, c.byte ≠ question) :
    replaceTrigraphs cells = cells := by
  induction cells with
  | nil => rfl
  | cons a rest ih =>
    obtain ⟨ha, hrest⟩ := List.forall_mem_cons.1 h
    rw [replaceTrigraphs_cons fun _ _ _ _ hquestion => absurd hquestion ha, ih hrest]

theorem spliceLines_eq_self {cells : List Cell} (h : ∀ c ∈ cells, c.byte ≠ newline) :
    spliceLines cells = cells := by
  induction cells with
  | nil => rfl
  | cons a rest ih =>
    obtain ⟨-, hrest⟩ := List.forall_mem_cons.1 h
    rw [spliceLines_cons, ih hrest]
    · rintro c rest' rfl -
      exact hrest c List.mem_cons_self
    · rintro c d rest' rfl - -
      exact hrest d (by simp)

/-- The first new-line of a line is the last of its bytes. -/
theorem eq_nil_of_concat_eq_cons {cells rest : List Cell} {c d : Cell}
    (h : ∀ c ∈ cells, c.byte ≠ newline) (hc : c.byte = newline)
    (hcells : cells ++ [d] = c :: rest) : rest = [] := by
  cases cells with
  | nil => exact (List.cons.inj hcells).2.symm
  | cons a cells =>
    obtain ⟨rfl, -⟩ := List.cons.inj hcells
    exact absurd hc (h a List.mem_cons_self)

/-- The new-line at the end of a line is kept or spliced away. -/
theorem spliceLines_concat {cells : List Cell} (h : ∀ c ∈ cells, c.byte ≠ newline) (o : Nat) :
    spliceLines (cells ++ [⟨newline, o⟩]) = cells ++ [⟨newline, o⟩] ∨
      ∀ c ∈ spliceLines (cells ++ [⟨newline, o⟩]), c.byte ≠ newline := by
  induction cells with
  | nil => exact .inl rfl
  | cons a rest ih =>
    obtain ⟨ha, hrest⟩ := List.forall_mem_cons.1 h
    rw [List.cons_append, spliceLines.eq_def]
    split
    · next hcells =>
      obtain rfl := eq_nil_of_concat_eq_cons hrest rfl (List.cons.inj hcells).2
      exact .inr (List.forall_mem_nil _)
    · next hcells =>
      obtain ⟨-, hbehind⟩ := List.cons.inj hcells
      cases rest with
      | nil => cases hbehind
      | cons b rest =>
        obtain rfl := eq_nil_of_concat_eq_cons (List.forall_mem_cons.1 hrest).2 rfl
          (List.cons.inj hbehind).2
        exact .inr (List.forall_mem_nil _)
    · next hcells =>
      obtain ⟨rfl, rfl⟩ := List.cons.inj hcells
      refine (ih hrest).imp (congrArg (a :: ·)) fun hnone => ?_
      exact List.forall_mem_cons.2 ⟨ha, hnone⟩
    · next hcells => cases hcells

theorem newline_of_mem_replaced {source : Bytes} {trigraphs : Bool} {c : Cell}
    (hc : c ∈ replaced source trigraphs) (hbyte : c.byte = newline) : newline ∈ source := by
  have hmem : c ∈ (Text.ofSource source).cells := by
    cases trigraphs with
    | false => exact hc
    | true => exact mem_of_mem_replaceTrigraphs hc hbyte
  rw [← Token.bytes_ofSource source, ← hbyte]
  exact List.mem_map_of_mem hmem

theorem cells_normalize_of_notMem {source : Bytes} (h : newline ∉ source) (trigraphs : Bool) :
    (normalize source trigraphs).cells = replaced source trigraphs := by
  rw [cells_normalize]
  exact spliceLines_eq_self fun c hc hbyte => h (newline_of_mem_replaced hc hbyte)

/-- A line is normalized alone, with its new-line behind it, unless that is spliced away. -/
theorem bytes_normalize_concat {source : Bytes} {trigraphs : Bool} (h : newline ∉ source)
    (hsplice : ∀ splice ∈ splices trigraphs, ¬ splice <:+ source ++ [newline]) :
    (normalize (source ++ [newline]) trigraphs).bytes =
      (normalize source trigraphs).bytes ++ [newline] := by
  obtain ⟨cells, o, hcells⟩ := exists_normalize_eq_concat hsplice
  have hnone : ∀ c ∈ replaced source trigraphs, c.byte ≠ newline :=
    fun c hc hbyte => h (newline_of_mem_replaced hc hbyte)
  have hnil : replaced [] trigraphs = [] := by cases trigraphs <;> rfl
  have hreplaced := replaced_append (b := newline) (by decide) (by decide) source [] trigraphs
  rw [hnil, List.map_nil] at hreplaced
  rcases spliceLines_concat hnone source.length with hkept | hspliced
  · rw [Text.bytes, cells_normalize, hreplaced, hkept, List.map_append, Text.bytes,
      cells_normalize_of_notMem h]
    rfl
  · rw [← hreplaced, ← cells_normalize, hcells] at hspliced
    exact absurd rfl (hspliced ⟨newline, o⟩ (by simp))

theorem map_byte_replaced {word : Bytes} (hword : question ∉ word) (trigraphs : Bool) :
    (replaced word trigraphs).map Cell.byte = word := by
  have hself : replaceTrigraphs (Text.ofSource word).cells = (Text.ofSource word).cells := by
    refine replaceTrigraphs_eq_self fun c hc hbyte => hword ?_
    rw [← Token.bytes_ofSource word, ← hbyte]
    exact List.mem_map_of_mem hc
  rw [replaced, hself, ite_self]
  exact Token.bytes_ofSource word

/-- A word stays as it is. -/
theorem bytes_normalize_of_notMem {word : Bytes} (hword : question ∉ word)
    (hnewline : newline ∉ word) (trigraphs : Bool) : (normalize word trigraphs).bytes = word := by
  rw [Text.bytes, cells_normalize_of_notMem hnewline, map_byte_replaced hword]

/-- So does a word with a space behind it, in front of a line. -/
theorem bytes_normalize_append_space {word source : Bytes} (hword : question ∉ word)
    (hnewline : newline ∉ word ++ space :: source) (trigraphs : Bool) :
    (normalize (word ++ space :: source) trigraphs).bytes =
      word ++ space :: (normalize source trigraphs).bytes := by
  have hsource : newline ∉ source := fun hmem => hnewline (by simp [hmem])
  rw [Text.bytes, cells_normalize_of_notMem hnewline,
    replaced_append (by decide) (by decide) word source, List.map_append, map_byte_replaced hword,
    List.map_cons, map_byte_shift, Text.bytes, cells_normalize_of_notMem hsource]

end CPreprocessor.Source
