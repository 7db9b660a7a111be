import CPreprocessor.Source.Text
import Mathlib.Computability.Language

/-!
# How a source spells its text

Phases 1 and 2 lose nothing of a source. It is what the bytes that remain are spelled with, in
their order, and the splices deleted behind them (`MapsBack`): the offsets that the text keeps say
where each of these begins. Nothing is left in front of a byte that could be replaced or deleted.

Both phases keep `Spells`, the relation between the bytes of a text and the source from an offset
on. Phase 1 changes the spellings and deletes nothing; phase 2 moves the spelling of a splice into
the gap behind the byte before it.
-/

namespace CPreprocessor.Source

open Ascii
open scoped Computability

/-! ## Spellings and splices -/

/-- What a source can write for a byte: the byte or, where trigraphs are replaced, a trigraph. -/
def spellings (trigraphs : Bool) (b : UInt8) : Language UInt8 :=
  {text | text = [b] ∨
    trigraphs = true ∧ ∃ c, trigraph c = some b ∧ text = [question, question, c]}

/-- A backslash and a new-line. A carriage return may stand between the two. -/
def splices (trigraphs : Bool) : Language UInt8 :=
  {text | ∃ spelling ∈ spellings trigraphs backslash,
    text = spelling ++ [newline] ∨ text = spelling ++ [carriageReturn, newline]}

/-- If trigraphs are replaced, the byte is what the trigraph at the front of a text stands for. -/
def IsReplaced (trigraphs : Bool) (b : UInt8) (text : Bytes) : Prop :=
  trigraphs = true → ∀ c b', trigraph c = some b' → [question, question, c] <+: text → b = b'

/-- A byte can be kept for what a text begins with: it stands for the trigraph there, if there is
one, and begins no splice. -/
structure IsKept (trigraphs : Bool) (b : UInt8) (text : Bytes) : Prop where
  replaced : IsReplaced trigraphs b text
  unspliced : ∀ splice ∈ splices trigraphs, ¬ splice <+: text

theorem mem_spellings_self (trigraphs : Bool) (b : UInt8) : [b] ∈ spellings trigraphs b :=
  .inl rfl

theorem ne_nil_of_mem_spellings {trigraphs : Bool} {b : UInt8} {text : Bytes}
    (h : text ∈ spellings trigraphs b) : text ≠ [] := by
  rcases h with rfl | ⟨-, c, -, rfl⟩
  · exact List.cons_ne_nil b []
  · exact List.cons_ne_nil question _

/-- No trigraph stands for white-space. -/
theorem isBlank_of_trigraph {b c : UInt8} (h : trigraph c = some b) : isBlank b = false := by
  unfold trigraph at h
  split at h <;> cases h <;> decide

/-- White-space is spelled by itself. -/
theorem eq_of_mem_spellings {trigraphs : Bool} {b : UInt8} {text : Bytes} (hb : isBlank b = true)
    (h : text ∈ spellings trigraphs b) : text = [b] := by
  rcases h with rfl | ⟨-, c, hc, rfl⟩
  · rfl
  · rw [isBlank_of_trigraph hc] at hb
    exact absurd hb Bool.false_ne_true

theorem isReplaced_false (b : UInt8) (text : Bytes) : IsReplaced false b text :=
  fun h => Bool.noConfusion h

/-- A text begins with one spelling only, but that a trigraph begins with a question mark. -/
theorem IsReplaced.spelling_unique {trigraphs : Bool} {b b' : UInt8} {spelling spelling' rest : Bytes}
    (h : IsReplaced trigraphs b (spelling ++ rest)) (hspelling : spelling ∈ spellings trigraphs b)
    (hspelling' : spelling' ∈ spellings trigraphs b') (hne : b' ≠ question)
    (hfront : spelling' <+: spelling ++ rest) : b = b' ∧ spelling = spelling' := by
  rcases hspelling' with rfl | ⟨htrigraphs, c, hc, rfl⟩
  · rcases hspelling with rfl | ⟨-, c, -, rfl⟩
    · obtain ⟨rfl, -⟩ := List.cons_prefix_cons.1 hfront
      exact ⟨rfl, rfl⟩
    · exact absurd (List.cons_prefix_cons.1 hfront).1 hne
  · obtain rfl := h htrigraphs c b' hc hfront
    rcases hspelling with rfl | ⟨-, d, -, rfl⟩
    · exact absurd (List.cons_prefix_cons.1 hfront).1.symm hne
    · obtain ⟨-, -, hd⟩ := by simpa only [List.cons_append, List.cons_prefix_cons] using hfront
      exact ⟨rfl, by rw [hd.1]⟩

/-! ## The relation -/

/-- The bytes of a text, each with its offset, are what a source spells from an offset on. Behind
the spelling of each byte there is a gap; the last argument of `kept` is the source from where the
byte is spelled. -/
inductive Spells (trigraphs : Bool) (gaps : Language UInt8) (kept : UInt8 → Bytes → Prop) :
    Nat → List Cell → Bytes → Prop
  | nil (offset : Nat) : Spells trigraphs gaps kept offset [] []
  | cons {offset : Nat} {b : UInt8} {cells : List Cell} {spelling gap rest : Bytes}
      (hspelling : spelling ∈ spellings trigraphs b) (hgap : gap ∈ gaps)
      (hkept : kept b (spelling ++ (gap ++ rest)))
      (hrest : Spells trigraphs gaps kept (offset + (spelling.length + gap.length)) cells rest) :
      Spells trigraphs gaps kept offset (⟨b, offset⟩ :: cells) (spelling ++ (gap ++ rest))

/-- The text before line splicing: nothing is deleted. -/
abbrev SpellsWhole (trigraphs : Bool) : Nat → List Cell → Bytes → Prop :=
  Spells trigraphs 1 (IsReplaced trigraphs)

/-- The text after line splicing: splices are deleted behind each byte. -/
abbrev SpellsSpliced (trigraphs : Bool) : Nat → List Cell → Bytes → Prop :=
  Spells trigraphs (splices trigraphs)∗ (IsKept trigraphs)

section

variable {trigraphs : Bool} {offset : Nat} {c : Cell} {cells : List Cell} {source : Bytes}

theorem SpellsWhole.cons {b : UInt8} {spelling rest : Bytes}
    (hspelling : spelling ∈ spellings trigraphs b)
    (hreplaced : IsReplaced trigraphs b (spelling ++ rest))
    (hrest : SpellsWhole trigraphs (offset + spelling.length) cells rest) :
    SpellsWhole trigraphs offset (⟨b, offset⟩ :: cells) (spelling ++ rest) := by
  have hgap : ([] : Bytes) ∈ (1 : Language UInt8) := rfl
  exact Spells.cons hspelling hgap hreplaced hrest

/-- What is spelled in front is the spelling of the first byte. -/
theorem SpellsWhole.exists_of_cons (h : SpellsWhole trigraphs offset (c :: cells) source) :
    ∃ spelling rest, source = spelling ++ rest ∧ spelling ∈ spellings trigraphs c.byte ∧
      c.origin = offset ∧ IsReplaced trigraphs c.byte source ∧
        SpellsWhole trigraphs (offset + spelling.length) cells rest := by
  cases h with
  | @cons _ _ _ spelling gap rest hspelling hgap hkept hrest =>
    obtain rfl : gap = [] := hgap
    exact ⟨spelling, rest, rfl, hspelling, rfl, hkept, hrest⟩

/-- The first byte is the one that is spelled in front. -/
theorem SpellsWhole.exists_of_append {b : UInt8} {spelling rest : Bytes}
    (h : SpellsWhole trigraphs offset cells (spelling ++ rest))
    (hspelling : spelling ∈ spellings trigraphs b) (hne : b ≠ question) :
    ∃ cells', cells = ⟨b, offset⟩ :: cells' ∧
      SpellsWhole trigraphs (offset + spelling.length) cells' rest := by
  cases cells with
  | nil =>
    obtain ⟨hnil, -⟩ : spelling = [] ∧ rest = [] := by
      generalize hsource : spelling ++ rest = source at h
      cases h
      exact List.append_eq_nil_iff.1 hsource
    exact absurd hnil (ne_nil_of_mem_spellings hspelling)
  | cons c cells =>
    obtain ⟨spelling', rest', hsplit, hspelling', rfl, hreplaced, hrest⟩ := h.exists_of_cons
    rw [hsplit] at hreplaced
    obtain ⟨rfl, rfl⟩ :=
      hreplaced.spelling_unique hspelling' hspelling hne (hsplit ▸ List.prefix_append spelling rest)
    obtain rfl := List.append_cancel_left hsplit
    exact ⟨cells, rfl, hrest⟩

theorem SpellsWhole.exists_of_byte {b : UInt8} {rest : Bytes}
    (h : SpellsWhole trigraphs offset cells (b :: rest)) (hne : b ≠ question) :
    ∃ cells', cells = ⟨b, offset⟩ :: cells' ∧ SpellsWhole trigraphs (offset + 1) cells' rest := by
  have hspelling := mem_spellings_self trigraphs b
  rw [← List.singleton_append] at h
  exact h.exists_of_append hspelling hne

/-- White-space is the first byte of what it is spelled in. -/
theorem SpellsWhole.exists_of_isBlank (h : SpellsWhole trigraphs offset (c :: cells) source)
    (hc : isBlank c.byte = true) :
    ∃ rest, source = c.byte :: rest ∧ SpellsWhole trigraphs (offset + 1) cells rest := by
  obtain ⟨spelling, rest, rfl, hspelling, -, -, hrest⟩ := h.exists_of_cons
  obtain rfl := eq_of_mem_spellings hc hspelling
  exact ⟨rest, rfl, hrest⟩

end

/-! ## Phase 1 -/

theorem spellsWhole_mapIdx (offset : Nat) (source : Bytes) :
    SpellsWhole false offset (source.mapIdx fun i b => ⟨b, offset + i⟩) source := by
  induction source generalizing offset with
  | nil => exact Spells.nil offset
  | cons b rest ih =>
    have hcells : ((b :: rest).mapIdx fun i b => (⟨b, offset + i⟩ : Cell)) =
        ⟨b, offset⟩ :: rest.mapIdx fun i b => ⟨b, offset + 1 + i⟩ := by
      simp only [List.mapIdx_cons, Nat.add_zero, Nat.add_assoc, Nat.add_comm 1]
    rw [hcells]
    exact SpellsWhole.cons (mem_spellings_self false b) (isReplaced_false _ _) (ih (offset + 1))

theorem spellsWhole_ofSource (source : Bytes) :
    SpellsWhole false 0 (Text.ofSource source).cells source := by
  have h := spellsWhole_mapIdx 0 source
  simp only [Nat.zero_add] at h
  exact h

/-- Where no trigraphs are replaced, every byte spells itself. -/
theorem SpellsWhole.exists_rest {offset : Nat} {c : Cell} {cells : List Cell} {source : Bytes}
    (h : SpellsWhole false offset (c :: cells) source) :
    ∃ rest, source = c.byte :: rest ∧ c.origin = offset ∧
      SpellsWhole false (offset + 1) cells rest := by
  obtain ⟨spelling, rest, rfl, hspelling, horigin, -, hrest⟩ := h.exists_of_cons
  rcases hspelling with rfl | ⟨htrigraphs, -⟩
  · exact ⟨rest, rfl, horigin, hrest⟩
  · exact absurd htrigraphs Bool.false_ne_true

/-- There is no trigraph in fewer than three bytes. -/
theorem SpellsWhole.replaced_of_length_lt {offset : Nat} {cells : List Cell} {source : Bytes}
    (h : SpellsWhole false offset cells source) (hlength : cells.length < 3) :
    SpellsWhole true offset cells source ∧ source.length = cells.length := by
  induction cells generalizing offset source with
  | nil =>
    cases h
    exact ⟨Spells.nil offset, rfl⟩
  | cons c cells ih =>
    obtain ⟨source, rfl, rfl, h⟩ := h.exists_rest
    obtain ⟨hrest, hsource⟩ := ih h ((Nat.lt_succ_self _).trans hlength)
    rw [List.length_cons] at hlength ⊢
    refine ⟨SpellsWhole.cons (mem_spellings_self true c.byte) ?_ hrest, by
      rw [List.length_cons, hsource]⟩
    intro _ d b' _ hfront
    have hle := hfront.length_le
    simp only [List.length_append, List.length_cons, List.length_nil] at hle
    omega

theorem SpellsWhole.replaceTrigraphs {offset : Nat} {cells : List Cell} {source : Bytes}
    (h : SpellsWhole false offset cells source) :
    SpellsWhole true offset (replaceTrigraphs cells) source := by
  fun_induction Source.replaceTrigraphs cells generalizing offset source with
  | case1 a b c rest byte hbyte ha hb ih =>
    obtain ⟨_, rfl, rfl, h⟩ := h.exists_rest
    obtain ⟨_, rfl, -, h⟩ := h.exists_rest
    obtain ⟨source, rfl, -, h⟩ := h.exists_rest
    rw [ha, hb]
    have hspelling : [question, question, c.byte] ∈ spellings true byte :=
      .inr ⟨rfl, c.byte, hbyte, rfl⟩
    refine SpellsWhole.cons hspelling (fun _ d b' hd hfront => ?_) (ih h)
    obtain ⟨-, -, rfl, -⟩ := by
      simpa only [List.cons_append, List.cons_prefix_cons] using hfront
    exact Option.some.inj (hbyte.symm.trans hd)
  | case2 a b c rest hnone ih =>
    obtain ⟨source, rfl, rfl, h⟩ := h.exists_rest
    refine SpellsWhole.cons (mem_spellings_self true a.byte) (fun _ d b' hd hfront => ?_) (ih h)
    obtain ⟨source, rfl, -, h⟩ := h.exists_rest
    obtain ⟨source, rfl, -, h⟩ := h.exists_rest
    obtain ⟨ha, hb, hc, -⟩ := by
      simpa only [List.cons_append, List.nil_append, List.cons_prefix_cons] using hfront
    exact (hnone b' ha.symm hb.symm (hc ▸ hd)).elim
  | case3 cells hshort =>
    refine (h.replaced_of_length_lt ?_).1
    rcases cells with _ | ⟨a, _ | ⟨b, _ | ⟨c, rest⟩⟩⟩
    · exact Nat.zero_lt_succ 2
    · exact Nat.one_lt_succ_succ 1
    · exact Nat.lt_succ_self 2
    · exact (hshort a b c rest rfl).elim

/-! ## Phase 2 -/

section

variable {trigraphs : Bool} {offset : Nat} {cells : List Cell} {source : Bytes}

/-- Where the source has a splice, the text has the two or three bytes of it. -/
theorem SpellsWhole.exists_of_splice {splice : Bytes}
    (h : SpellsWhole trigraphs offset cells source) (hsplice : splice ∈ splices trigraphs)
    (hfront : splice <+: source) :
    (∃ o o' rest, cells = ⟨backslash, o⟩ :: ⟨newline, o'⟩ :: rest) ∨
      ∃ o o' o'' rest,
        cells = ⟨backslash, o⟩ :: ⟨carriageReturn, o'⟩ :: ⟨newline, o''⟩ :: rest := by
  obtain ⟨rest, rfl⟩ := hfront
  obtain ⟨spelling, hspelling, rfl | rfl⟩ := hsplice
  · rw [List.append_assoc, List.singleton_append] at h
    obtain ⟨cells, rfl, hnewline⟩ := h.exists_of_append hspelling (by decide)
    obtain ⟨cells, rfl, -⟩ := hnewline.exists_of_byte (by decide)
    exact .inl ⟨_, _, cells, rfl⟩
  · rw [List.append_assoc, List.cons_append, List.singleton_append] at h
    obtain ⟨cells, rfl, hreturn⟩ := h.exists_of_append hspelling (by decide)
    obtain ⟨cells, rfl, hnewline⟩ := hreturn.exists_of_byte (by decide)
    obtain ⟨cells, rfl, -⟩ := hnewline.exists_of_byte (by decide)
    exact .inr ⟨_, _, _, cells, rfl⟩

/-- The first splice of a source is deleted together with those behind it. -/
theorem exists_gap_of_splice {splice rest : Bytes} (hsplice : splice ∈ splices trigraphs)
    (hsource : source = splice ++ rest)
    (h : ∃ gap ∈ (splices trigraphs)∗, ∃ rest', rest = gap ++ rest' ∧
      SpellsSpliced trigraphs (offset + splice.length + gap.length) cells rest') :
    ∃ gap ∈ (splices trigraphs)∗, ∃ rest', source = gap ++ rest' ∧
      SpellsSpliced trigraphs (offset + gap.length) cells rest' := by
  obtain ⟨gap, hgap, rest', rfl, hrest⟩ := h
  rw [Nat.add_assoc, ← List.length_append] at hrest
  have hmul : splices trigraphs * (splices trigraphs)∗ ≤ (splices trigraphs)∗ := mul_kstar_le_kstar
  have hmem : splice ++ gap ∈ (splices trigraphs)∗ := hmul ⟨splice, hsplice, gap, hgap, rfl⟩
  exact ⟨splice ++ gap, hmem, rest', hsource.trans (List.append_assoc splice gap rest').symm, hrest⟩

/-- **Line splicing deletes splices and nothing else.** Those in front of the first byte that is
kept are a gap before it. -/
theorem SpellsWhole.spliced (h : SpellsWhole trigraphs offset cells source) :
    ∃ gap ∈ (splices trigraphs)∗, ∃ rest, source = gap ++ rest ∧
      SpellsSpliced trigraphs (offset + gap.length) (spliceLines cells) rest := by
  have hnil : [] ∈ (splices trigraphs)∗ := Language.nil_mem_kstar _
  fun_induction spliceLines cells generalizing offset source with
  | case1 o o' rest ih =>
    obtain ⟨spelling, _, rfl, hspelling, -, -, hnewline⟩ := h.exists_of_cons
    obtain ⟨source, rfl, hrest⟩ := hnewline.exists_of_isBlank rfl
    have hsplice : spelling ++ [newline] ∈ splices trigraphs := ⟨spelling, hspelling, .inl rfl⟩
    refine exists_gap_of_splice hsplice (List.append_cons spelling newline source) ?_
    rw [List.length_append, ← Nat.add_assoc]
    exact ih hrest
  | case2 o o' o'' rest ih =>
    obtain ⟨spelling, _, rfl, hspelling, -, -, hreturn⟩ := h.exists_of_cons
    obtain ⟨_, rfl, hnewline⟩ := hreturn.exists_of_isBlank rfl
    obtain ⟨source, rfl, hrest⟩ := hnewline.exists_of_isBlank rfl
    have hsplice : spelling ++ [carriageReturn, newline] ∈ splices trigraphs :=
      ⟨spelling, hspelling, .inr rfl⟩
    refine exists_gap_of_splice hsplice
      (List.append_assoc spelling [carriageReturn, newline] source).symm ?_
    rw [List.length_append, ← Nat.add_assoc]
    exact ih hrest
  | case3 a rest hline hreturn ih =>
    -- no splice begins here, since its bytes would be the first of the text
    have hunspliced : ∀ splice ∈ splices trigraphs, ¬ splice <+: source := by
      intro splice hsplice hfront
      rcases h.exists_of_splice hsplice hfront with ⟨o, o', more, hcells⟩ | ⟨o, o', o'', more, hcells⟩
      · obtain ⟨rfl, rfl⟩ := List.cons.inj hcells
        exact hline _ _ _ rfl rfl
      · obtain ⟨rfl, rfl⟩ := List.cons.inj hcells
        exact hreturn _ _ _ _ rfl rfl
    obtain ⟨spelling, source, rfl, hspelling, rfl, hreplaced, hrest⟩ := h.exists_of_cons
    obtain ⟨gap, hgap, rest, rfl, hspells⟩ := ih hrest
    rw [Nat.add_assoc] at hspells
    exact ⟨[], hnil, _, rfl, Spells.cons hspelling hgap ⟨hreplaced, hunspliced⟩ hspells⟩
  | case4 =>
    cases h
    exact ⟨[], hnil, [], rfl, Spells.nil offset⟩

end

/-- Both phases: the bytes of the normalized text are spelled in order, with splices between. -/
theorem exists_spells_normalize (source : Bytes) (trigraphs : Bool) :
    ∃ gap ∈ (splices trigraphs)∗, ∃ rest, source = gap ++ rest ∧
      SpellsSpliced trigraphs gap.length (normalize source trigraphs).cells rest := by
  have h := spellsWhole_ofSource source
  cases trigraphs with
  | false =>
    have hspliced := h.spliced
    simp only [Nat.zero_add] at hspliced
    exact hspliced
  | true =>
    have hspliced := h.replaceTrigraphs.spliced
    simp only [Nat.zero_add] at hspliced
    exact hspliced

/-! ## Mapping back -/

/-- A text with the offsets that map it back to its source. -/
structure Text.MapsBack (source : Bytes) (trigraphs : Bool) (text : Text) : Prop where
  length : text.positions.length = text.bytes.length + 1
  increasing : text.positions.Pairwise (· < ·)
  last : text.positions.getLast? = some source.length
  /-- Only splices stand before the first byte. -/
  before : ∀ start : Nat, text.positions[0]? = some start → source.take start ∈ (splices trigraphs)∗
  /-- From each position to the next the source has a spelling of the byte, and splices. -/
  spelled : ∀ (i : Nat) (b : UInt8) (start stop : Nat), text.bytes[i]? = some b → text.positions[i]? = some start →
    text.positions[i + 1]? = some stop →
      source.extract start stop ∈ spellings trigraphs b * (splices trigraphs)∗
  /-- No trigraph that begins at a position is left, and no splice. -/
  kept : ∀ (i : Nat) (b : UInt8) (start : Nat), text.bytes[i]? = some b → text.positions[i]? = some start →
    IsKept trigraphs b (source.drop start)

section

variable {trigraphs : Bool} {gaps : Language UInt8} {kept : UInt8 → Bytes → Prop} {offset : Nat}
  {cells : List Cell} {source : Bytes}

/-- The offsets at which the bytes are spelled increase up to the end of the source. -/
theorem Spells.increasing (h : Spells trigraphs gaps kept offset cells source) :
    (∀ position ∈ cells.map Cell.origin ++ [offset + source.length], offset ≤ position) ∧
      (cells.map Cell.origin ++ [offset + source.length]).Pairwise (· < ·) := by
  induction h with
  | nil offset => simp
  | @cons offset b cells spelling gap rest hspelling hgap hkept hrest ih =>
    obtain ⟨hle, hpairwise⟩ := ih
    have hpos := List.length_pos_of_ne_nil (ne_nil_of_mem_spellings hspelling)
    have hstop : offset + (spelling ++ (gap ++ rest)).length =
        offset + (spelling.length + gap.length) + rest.length := by
      simp only [List.length_append]
      omega
    rw [hstop, List.map_cons, List.cons_append]
    refine ⟨List.forall_mem_cons.2 ⟨le_rfl, fun position h => ?_⟩,
      List.pairwise_cons.2 ⟨fun position h => ?_, hpairwise⟩⟩
    · have := hle position h
      omega
    · have := hle position h
      change offset < position
      omega

/-- The first byte is spelled where the source begins. -/
theorem Spells.head?_positions (h : Spells trigraphs gaps kept offset cells source) :
    (cells.map Cell.origin ++ [offset + source.length])[0]? = some offset := by
  cases h with
  | nil => rfl
  | cons => rfl

/-- What the source has from the place of a byte to that of the next one. -/
theorem Spells.exists_segment (h : Spells trigraphs gaps kept offset cells source) {i : Nat}
    {c : Cell} (hc : cells[i]? = some c) :
    ∃ front segment back, source = front ++ (segment ++ back) ∧ c.origin = offset + front.length ∧
      (cells.map Cell.origin ++ [offset + source.length])[i + 1]? =
        some (c.origin + segment.length) ∧
      segment ∈ spellings trigraphs c.byte * gaps ∧ kept c.byte (segment ++ back) := by
  induction h generalizing i with
  | nil offset => cases hc
  | @cons offset b cells spelling gap rest hspelling hgap hkept hrest ih =>
    have hstop : offset + (spelling ++ (gap ++ rest)).length =
        offset + (spelling.length + gap.length) + rest.length := by
      simp only [List.length_append]
      omega
    rw [hstop, List.map_cons, List.cons_append, List.getElem?_cons_succ]
    cases i with
    | zero =>
      obtain rfl := Option.some.inj hc
      have hsegment : spelling ++ gap ∈ spellings trigraphs b * gaps :=
        ⟨spelling, hspelling, gap, hgap, rfl⟩
      refine ⟨[], spelling ++ gap, rest, (List.append_assoc spelling gap rest).symm, rfl, ?_,
        hsegment, ?_⟩
      · rw [List.length_append]
        exact hrest.head?_positions
      · rw [List.append_assoc]
        exact hkept
    | succ i =>
      obtain ⟨front, segment, back, rfl, horigin, hnext, hsegment, hkept'⟩ := ih hc
      refine ⟨spelling ++ gap ++ front, segment, back, ?_, ?_, hnext, hsegment, hkept'⟩
      · simp only [List.append_assoc]
      · simp only [List.length_append, horigin]
        omega

end

theorem stop_normalize (source : Bytes) (trigraphs : Bool) :
    (normalize source trigraphs).stop = source.length := by
  cases trigraphs <;> rfl

section

variable {source gap rest : Bytes} {trigraphs : Bool} {text : Text} (hsource : source = gap ++ rest)
  (hstop : text.stop = source.length) (hspells : SpellsSpliced trigraphs gap.length text.cells rest)
include hsource hstop

theorem positions_eq_of_append :
    text.positions = text.cells.map Cell.origin ++ [gap.length + rest.length] := by
  rw [Text.positions, hstop, hsource, List.length_append]

include hspells

/-- A byte has its place in the source, and so has the next one. -/
theorem Spells.exists_segment_at {i : Nat} {b : UInt8} {start : Nat}
    (hb : text.bytes[i]? = some b) (hstart : text.positions[i]? = some start) :
    ∃ segment back, source.drop start = segment ++ back ∧
      text.positions[i + 1]? = some (start + segment.length) ∧
      segment ∈ spellings trigraphs b * (splices trigraphs)∗ ∧
      IsKept trigraphs b (segment ++ back) := by
  obtain ⟨c, hc, rfl⟩ := Option.map_eq_some_iff.1 (List.getElem?_map.symm.trans hb)
  obtain ⟨hi, -⟩ := List.getElem?_eq_some_iff.1 hc
  rw [positions_eq_of_append hsource hstop] at hstart ⊢
  rw [List.getElem?_append_left (by simpa using hi), List.getElem?_map, hc] at hstart
  obtain rfl := Option.some.inj hstart
  obtain ⟨front, segment, back, rfl, horigin, hnext, hsegment, hkept⟩ := hspells.exists_segment hc
  refine ⟨segment, back, ?_, hnext, hsegment, hkept⟩
  rw [hsource, horigin, ← List.append_assoc gap, ← List.length_append, List.drop_left]

/-- What is spelled behind splices maps back. -/
theorem Spells.mapsBack (hgap : gap ∈ (splices trigraphs)∗) : text.MapsBack source trigraphs where
  length := by simp [Text.positions, Text.bytes]
  increasing := by
    rw [positions_eq_of_append hsource hstop]
    exact hspells.increasing.2
  last := by
    rw [positions_eq_of_append hsource hstop, List.getLast?_concat, hsource, List.length_append]
  before := by
    intro start hstart
    rw [positions_eq_of_append hsource hstop, hspells.head?_positions] at hstart
    obtain rfl := Option.some.inj hstart
    rw [hsource, List.take_left]
    exact hgap
  spelled := by
    intro i b start stop hb hstart hnext
    obtain ⟨segment, back, hdrop, hnext', hsegment, -⟩ :=
      hspells.exists_segment_at hsource hstop hb hstart
    obtain rfl := Option.some.inj (hnext'.symm.trans hnext)
    rw [List.extract_eq_take_drop, hdrop, Nat.add_sub_cancel_left, List.take_left]
    exact hsegment
  kept := by
    intro i b start hb hstart
    obtain ⟨segment, back, hdrop, -, -, hkept⟩ :=
      hspells.exists_segment_at hsource hstop hb hstart
    rw [hdrop]
    exact hkept

end

theorem Text.MapsBack.of_normalize (source : Bytes) (trigraphs : Bool) :
    (normalize source trigraphs).MapsBack source trigraphs := by
  obtain ⟨gap, hgap, rest, hsource, hspells⟩ := exists_spells_normalize source trigraphs
  exact hspells.mapsBack hsource (stop_normalize source trigraphs) hgap

/-- **Phases 1 and 2 lose nothing and map back exactly.** -/
theorem mapsBack_normalize (source : Bytes) (trigraphs : Bool) :
    (normalize source trigraphs).MapsBack source trigraphs :=
  .of_normalize source trigraphs

end CPreprocessor.Source
