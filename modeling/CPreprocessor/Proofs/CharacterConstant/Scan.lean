import CPreprocessor.CharacterConstant.Grammar
import CPreprocessor.Proofs.Lexeme.Quoted

/-!
# Scanning character constants

A character constant can be read from left to right without a grammar: behind the opening quote
every character is taken as long as it can be. An octal escape sequence takes up to three digits, a
hexadecimal one all that follow, and a universal character name four or eight.

`character?` is the first character of a text, which is complete before what stands behind it
(`character?_eq_some_iff`); so no other character that the text begins with is longer
(`length_le_of_character?`). `scan?` gives all characters of a constant.
-/

namespace CPreprocessor.CharacterConstant

open Ascii
open Lexeme (isPlain)
open Lexeme.Quoted (isSimpleEscape)

/-- The kinds of characters. -/
inductive CharacterKind
  /-- A byte that stands for itself. -/
  | plain
  | simple
  | octal
  | hex
  /-- A universal character name. -/
  | universal
  deriving DecidableEq

/-- A character as it is written. -/
structure Character where
  kind : CharacterKind
  spelling : Bytes
  deriving DecidableEq

/-! ## Scanning -/

/-- The universal character name with the given mark and number of digits. -/
def universalName? (mark : UInt8) (count : Nat) (rest : Bytes) : Option Character :=
  let digits := rest.take count
  if digits.length = count ∧ digits.all isHexDigit then
    some ⟨.universal, backslash :: mark :: digits⟩
  else none

/-- The longest escape sequence with what stands behind a backslash. -/
def escapeSequence? : Bytes → Option Character
  | [] => none
  | b :: rest =>
    if isSimpleEscape b then some ⟨.simple, [backslash, b]⟩
    else if isOctalDigit b then
      some ⟨.octal, backslash :: ((b :: rest).take 3).takeWhile isOctalDigit⟩
    else if b = lowerX then
      let digits := rest.takeWhile isHexDigit
      if digits = [] then none else some ⟨.hex, backslash :: lowerX :: digits⟩
    else if b = lowerU then universalName? lowerU 4 rest
    else if b = upperU then universalName? upperU 8 rest
    else none

/-- The first character of a text. -/
def character? : Bytes → Option Character
  | [] => none
  | b :: rest =>
    if b = backslash then escapeSequence? rest
    else if isPlain singleQuote b then some ⟨.plain, [b]⟩
    else none

/-! ## What a character is made of -/

/-- The bytes of the characters of each kind. -/
inductive Character.IsWritten : Character → Prop
  | plain {b : UInt8} (h : isPlain singleQuote b = true) : IsWritten ⟨.plain, [b]⟩
  | simple {b : UInt8} (h : isSimpleEscape b = true) : IsWritten ⟨.simple, [backslash, b]⟩
  | octal {digits : Bytes} (hne : digits ≠ []) (hlength : digits.length ≤ 3)
      (hdigits : ∀ d ∈ digits, isOctalDigit d = true) : IsWritten ⟨.octal, backslash :: digits⟩
  | hex {digits : Bytes} (hne : digits ≠ []) (hdigits : ∀ d ∈ digits, isHexDigit d = true) :
      IsWritten ⟨.hex, backslash :: lowerX :: digits⟩
  | universal {mark : UInt8} {digits : Bytes}
      (hmark : mark = lowerU ∧ digits.length = 4 ∨ mark = upperU ∧ digits.length = 8)
      (hdigits : ∀ d ∈ digits, isHexDigit d = true) :
      IsWritten ⟨.universal, backslash :: mark :: digits⟩

/-- Whether a character has all the digits that it can have if a text stands behind it. -/
def Character.IsCompleteBefore (c : Character) (text : Bytes) : Prop :=
  match c.kind with
  | .octal => c.spelling.length = 4 ∨ ∀ b ∈ text.head?, isOctalDigit b = false
  | .hex => ∀ b ∈ text.head?, isHexDigit b = false
  | _ => True

variable {c : Character} {b mark : UInt8} {text rest digits v : Bytes} {count : Nat}

theorem Character.IsWritten.ne_nil (h : c.IsWritten) : c.spelling ≠ [] := by
  cases h <;> exact List.cons_ne_nil _ _

/-! ## Digits -/

theorem takeWhile_append_of_head {p : UInt8 → Bool} (hdigits : ∀ d ∈ digits, p d = true)
    (hv : ∀ b ∈ v.head?, p b = false) : (digits ++ v).takeWhile p = digits := by
  rw [List.takeWhile_append_of_pos hdigits]
  cases v with
  | nil => exact List.append_nil digits
  | cons b v => rw [List.takeWhile_cons_of_neg (by simpa using hv b rfl), List.append_nil]

theorem exists_eq_takeWhile_append (p : UInt8 → Bool) (text : Bytes) :
    ∃ v, text = text.takeWhile p ++ v ∧ ∀ b ∈ v.head?, p b = false := by
  refine ⟨text.dropWhile p, List.takeWhile_append_dropWhile.symm, fun b hb => ?_⟩
  have := List.head?_dropWhile_not p text
  rw [Option.mem_def.1 hb] at this
  simpa using this

/-- Up to three digits are taken, and fewer only if none follows. -/
theorem takeWhile_take_three (hlength : digits.length ≤ 3)
    (hdigits : ∀ d ∈ digits, isOctalDigit d = true)
    (hv : digits.length = 3 ∨ ∀ b ∈ v.head?, isOctalDigit b = false) :
    ((digits ++ v).take 3).takeWhile isOctalDigit = digits := by
  rw [List.take_append, List.take_of_length_le hlength]
  refine takeWhile_append_of_head hdigits fun b hb => ?_
  obtain hthree | hv := hv
  · simp [hthree] at hb
  · cases v with
    | nil => simp at hb
    | cons b' v =>
      obtain ⟨n, hn⟩ : ∃ n, 3 - digits.length = n := ⟨_, rfl⟩
      cases n with
      | zero => simp [hn] at hb
      | succ n =>
        simp only [hn, List.take_succ_cons, List.head?_cons, Option.mem_def] at hb
        exact hv b hb

theorem exists_eq_takeWhile_take_append (text : Bytes) :
    ∃ digits v, text = digits ++ v ∧ (text.take 3).takeWhile isOctalDigit = digits ∧
      digits.length ≤ 3 ∧ (digits.length = 3 ∨ ∀ b ∈ v.head?, isOctalDigit b = false) := by
  obtain ⟨v, htake, hv⟩ := exists_eq_takeWhile_append isOctalDigit (text.take 3)
  have hlength : (text.take 3).length ≤ 3 := List.length_take_le 3 text
  rw [htake, List.length_append] at hlength
  refine ⟨_, v ++ text.drop 3, ?_, rfl, by omega, ?_⟩
  · rw [← List.append_assoc, ← htake, List.take_append_drop]
  · cases v with
    | cons b v => exact .inr hv
    | nil =>
      -- all that was taken are digits: there are three, or the text ends behind them
      rw [List.append_nil] at htake
      rw [← htake, List.length_take]
      by_cases hthree : 3 ≤ text.length
      · exact .inl (Nat.min_eq_left hthree)
      · refine .inr ?_
        simp [List.drop_eq_nil_of_le (Nat.le_of_not_ge hthree)]

/-! ## The first character -/

theorem universalName?_eq_some_iff :
    universalName? mark count rest = some c ↔ ∃ digits v, rest = digits ++ v ∧
      digits.length = count ∧ (∀ d ∈ digits, isHexDigit d = true) ∧
        c = ⟨.universal, backslash :: mark :: digits⟩ := by
  simp only [universalName?, Option.ite_none_right_eq_some, Option.some.injEq, List.all_eq_true]
  constructor
  · rintro ⟨⟨hlength, hdigits⟩, rfl⟩
    exact ⟨_, _, (List.take_append_drop count rest).symm, hlength, hdigits, rfl⟩
  · rintro ⟨digits, v, rfl, rfl, hdigits, rfl⟩
    rw [List.take_left]
    exact ⟨⟨rfl, hdigits⟩, rfl⟩

/-- What a scanned escape sequence is. -/
theorem isWritten_of_escapeSequence? (h : escapeSequence? rest = some c) :
    ∃ v, backslash :: rest = c.spelling ++ v ∧ c.IsWritten ∧ c.IsCompleteBefore v := by
  cases rest with
  | nil => cases h
  | cons b rest =>
    simp only [escapeSequence?] at h
    split at h
    · next hsimple =>
      obtain rfl := Option.some.inj h
      exact ⟨rest, rfl, .simple hsimple, trivial⟩
    split at h
    · next hoctal =>
      obtain rfl := Option.some.inj h
      obtain ⟨digits, v, htext, hdigits, hlength, hv⟩ := exists_eq_takeWhile_take_append (b :: rest)
      rw [hdigits]
      refine ⟨v, congrArg (backslash :: ·) htext, .octal ?_ hlength ?_, ?_⟩
      · rintro rfl
        rw [List.take_succ_cons, List.takeWhile_cons_of_pos hoctal] at hdigits
        contradiction
      · exact hdigits ▸ List.all_eq_true.1 List.all_takeWhile
      · exact hv.imp_left (congrArg (· + 1))
    split at h
    · next hx =>
      subst hx
      split at h
      · cases h
      · next hne =>
        obtain rfl := Option.some.inj h
        obtain ⟨v, htext, hv⟩ := exists_eq_takeWhile_append isHexDigit rest
        exact ⟨v, congrArg (backslash :: lowerX :: ·) htext,
          .hex hne (List.all_eq_true.1 List.all_takeWhile), hv⟩
    split at h
    · next hu =>
      obtain ⟨digits, v, rfl, hlength, hdigits, rfl⟩ := universalName?_eq_some_iff.1 h
      exact ⟨v, by rw [hu]; rfl, .universal (.inl ⟨rfl, hlength⟩) hdigits, trivial⟩
    split at h
    · next hu =>
      obtain ⟨digits, v, rfl, hlength, hdigits, rfl⟩ := universalName?_eq_some_iff.1 h
      exact ⟨v, by rw [hu]; rfl, .universal (.inr ⟨rfl, hlength⟩) hdigits, trivial⟩
    · cases h

theorem character?_append (hc : c.IsWritten) (hv : c.IsCompleteBefore v) :
    character? (c.spelling ++ v) = some c := by
  cases hc with
  | @plain b hb =>
    have hne : b ≠ backslash := by
      rintro rfl
      exact absurd hb (by decide)
    simp [character?, hne, hb]
  | simple hb => simp [character?, escapeSequence?, hb]
  | @octal digits hne hlength hdigits =>
    obtain ⟨d, digits, rfl⟩ := List.exists_cons_of_ne_nil hne
    have hd := hdigits d (.head _)
    have hsimple : ¬ isSimpleEscape d = true := fun hsimple => by
      rw [(Lexeme.Quoted.step_universalName_of_isSimpleEscape hsimple).1] at hd
      contradiction
    have htake := takeWhile_take_three hlength hdigits (hv.imp_left Nat.succ.inj)
    rw [List.cons_append] at htake
    simp only [character?, List.cons_append, escapeSequence?, hsimple, hd, if_true, htake]
    rfl
  | @hex digits hne hdigits =>
    have htake := takeWhile_append_of_head hdigits hv
    have hlowerX : isSimpleEscape lowerX = false ∧ isOctalDigit lowerX = false := by decide
    simp [character?, escapeSequence?, hlowerX, htake, hne]
  | @universal mark digits hmark hdigits =>
    obtain ⟨rfl, hlength⟩ | ⟨rfl, hlength⟩ := hmark
    · exact universalName?_eq_some_iff.2 ⟨digits, v, rfl, hlength, hdigits, rfl⟩
    · exact universalName?_eq_some_iff.2 ⟨digits, v, rfl, hlength, hdigits, rfl⟩

/-- **The first character of a text is complete before what stands behind it.** -/
theorem character?_eq_some_iff :
    character? text = some c ↔
      ∃ v, text = c.spelling ++ v ∧ c.IsWritten ∧ c.IsCompleteBefore v := by
  constructor
  · intro h
    cases text with
    | nil => cases h
    | cons b rest =>
      simp only [character?] at h
      split at h
      · next hb => exact hb ▸ isWritten_of_escapeSequence? h
      · next hb =>
        obtain ⟨hplain, rfl⟩ := by simpa only [Option.ite_none_right_eq_some, Option.some.injEq] using h
        exact ⟨rest, rfl, .plain hplain, trivial⟩
  · rintro ⟨v, rfl, hc, hv⟩
    exact character?_append hc hv

/-- Nothing is missing in a character behind which the text ends. -/
theorem character?_spelling (hc : c.IsWritten) : character? c.spelling = some c := by
  have hcomplete : c.IsCompleteBefore [] := by
    unfold Character.IsCompleteBefore
    split <;> simp
  simpa using character?_append hc hcomplete

theorem length_drop_of_character? (h : character? text = some c) :
    (text.drop c.spelling.length).length < text.length := by
  obtain ⟨v, rfl, hc, -⟩ := character?_eq_some_iff.1 h
  have := List.length_pos_iff.2 hc.ne_nil
  rw [List.drop_left, List.length_append]
  omega

/-- A character that is not complete before a text can take in its first byte. -/
theorem exists_of_not_isCompleteBefore (hc : c.IsWritten) (hv : ¬ c.IsCompleteBefore v) :
    ∃ b v', v = b :: v' ∧ Character.IsWritten ⟨c.kind, c.spelling ++ [b]⟩ := by
  cases hc with
  | plain | simple | universal => exact absurd trivial hv
  | @octal digits hne hlength hdigits =>
    simp only [Character.IsCompleteBefore, not_or, not_forall, Bool.not_eq_false] at hv
    obtain ⟨hfour, b, hb, hoctal⟩ := hv
    obtain ⟨v', rfl⟩ := List.head?_eq_some_iff.1 hb
    have hlonger : (digits ++ [b]).length ≤ 3 := by
      simp only [List.length_append, List.length_cons, List.length_nil] at hfour ⊢
      omega
    exact ⟨b, v', rfl, .octal (by simp) hlonger (List.forall_mem_append.2 ⟨hdigits, by simpa⟩)⟩
  | @hex digits hne hdigits =>
    simp only [Character.IsCompleteBefore, not_forall, Bool.not_eq_false] at hv
    obtain ⟨b, hb, hhex⟩ := hv
    obtain ⟨v', rfl⟩ := List.head?_eq_some_iff.1 hb
    exact ⟨b, v', rfl, .hex (by simp) (List.forall_mem_append.2 ⟨hdigits, by simpa⟩)⟩

/-- **The first character of a text is the longest.** -/
theorem length_le_of_character? (h : character? (c.spelling ++ v) = some c) {c' : Character}
    {v' : Bytes} (hc' : c'.IsWritten) (htext : c'.spelling ++ v' = c.spelling ++ v) :
    c'.spelling.length ≤ c.spelling.length := by
  by_cases hcomplete : c'.IsCompleteBefore v'
  · rw [← htext, character?_append hc' hcomplete] at h
    rw [Option.some.inj h]
  · obtain ⟨b, v'', rfl, hlonger⟩ := exists_of_not_isCompleteBefore hc' hcomplete
    have htext' : (c'.spelling ++ [b]) ++ v'' = c.spelling ++ v := by
      rw [← htext, List.append_assoc, List.singleton_append]
    have hle := length_le_of_character? h hlonger htext'
    rw [List.length_append] at hle
    exact Nat.le_of_add_right_le hle
termination_by v'.length

/-! ## All characters -/

/-- The characters of a text up to the quote that ends it. -/
def characters? (text : Bytes) : Option (List Character) :=
  if text = [singleQuote] then some []
  else match _h : character? text with
    | none => none
    | some c => (c :: ·) <$> characters? (text.drop c.spelling.length)
termination_by text.length
decreasing_by exact length_drop_of_character? _h

/-- The prefix and the opening quote of a constant. -/
def opening? : Bytes → Option (Encoding × Bytes)
  | singleQuote :: rest => some (.plain, rest)
  | upperL :: singleQuote :: rest => some (.wide, rest)
  | lowerU :: eight :: singleQuote :: rest => some (.utf8, rest)
  | lowerU :: singleQuote :: rest => some (.utf16, rest)
  | upperU :: singleQuote :: rest => some (.utf32, rest)
  | _ => none

/-- The encoding and the characters of a constant, of which there is one at least. -/
def scan? (text : Bytes) : Option (Encoding × List Character) := do
  let (encoding, rest) ← opening? text
  let characters ← characters? rest
  if characters = [] then none else some (encoding, characters)

theorem exists_of_scan? {encoding : Encoding} {cs : List Character}
    (h : scan? text = some (encoding, cs)) :
    ∃ rest, opening? text = some (encoding, rest) ∧ characters? rest = some cs ∧ cs ≠ [] := by
  simp only [scan?, Option.bind_eq_bind, Option.bind_eq_some_iff, Option.ite_none_left_eq_some,
    Option.some.injEq, Prod.mk.injEq] at h
  obtain ⟨⟨_, rest⟩, hopening, _, hcs, hne, rfl, rfl⟩ := h
  exact ⟨rest, hopening, hcs, hne⟩

theorem characters?_quote : characters? [singleQuote] = some [] := by
  rw [characters?, if_pos rfl]

theorem characters?_append (h : character? (c.spelling ++ v) = some c) :
    characters? (c.spelling ++ v) = (c :: ·) <$> characters? v := by
  have hne : c.spelling ++ v ≠ [singleQuote] := by
    intro heq
    rw [heq] at h
    cases h
  rw [characters?, if_neg hne]
  split
  · next hnone => simp [h] at hnone
  · next c' hsome =>
    obtain rfl := Option.some.inj (h.symm.trans hsome)
    rw [List.drop_left]

theorem eq_of_characters? {cs : List Character} (h : characters? text = some cs) :
    text = cs.flatMap Character.spelling ++ [singleQuote] ∧ ∀ c ∈ cs, c.IsWritten := by
  fun_induction characters? text generalizing cs with
  | case1 =>
    obtain rfl := Option.some.inj h
    exact ⟨rfl, nofun⟩
  | case2 => cases h
  | case3 text _ c hc ih =>
    obtain ⟨cs, hcs, rfl⟩ := Option.map_eq_some_iff.1 h
    obtain ⟨htext, hwritten⟩ := ih hcs
    obtain ⟨v, rfl, hc, -⟩ := character?_eq_some_iff.1 hc
    rw [List.drop_left] at htext
    rw [List.flatMap_cons, List.append_assoc, ← htext]
    exact ⟨rfl, List.forall_mem_cons.2 ⟨hc, hwritten⟩⟩

end CPreprocessor.CharacterConstant
