import CPreprocessor.Proofs.Lexeme.Words

/-!
# Character constants and string literals are recognized

The automaton of literals tells apart what the grammar does not: after a digit of an escape sequence
it is in a state of its own, although another digit may as well be a character that stands for
itself. Both readings leave the same texts to follow (`hexDigits_kstar_mul_rest`, `octal_mul_rest`),
so such a state has the language of the state after a whole character.
-/

namespace CPreprocessor.Lexeme

open Ascii Automaton
open scoped Computability

namespace Quoted

/-- What may follow inside quotes of the given kind. -/
def rest (quote : UInt8) : Language UInt8 := (quotedCharacters quote)∗ * char quote

/-- What may follow the opening quote. -/
def inside (quote : UInt8) : Language UInt8 :=
  if quote = singleQuote then quotedCharacters quote * rest quote else rest quote

/-- What may follow the backslash of an escape sequence. -/
def escapeRest : Language UInt8 :=
  oneOf isSimpleEscape + octalNumbers + char lowerX * (hexDigits * hexDigits∗) +
    universalRest .backslash

/-- What may follow in each state of the automaton of literals. -/
def State.language (quote : UInt8) : State → Language UInt8
  | .start => encodingPrefixes * (char quote * inside quote)
  | .letterU => (1 + char eight) * (char quote * inside quote)
  | .prefixed => char quote * inside quote
  | .opened => inside quote
  | .body | .octal _ | .hex => rest quote
  | .escape => escapeRest * rest quote
  | .hexMark => hexDigits * hexDigits∗ * rest quote
  | .universal progress => universalRest progress * rest quote
  | .closed => 1

@[simp] theorem nil_notMem_octalNumbers : [] ∉ octalNumbers := by
  rw [octalNumbers, octalDigits, Language.nil_mem_add, Language.nil_mem_add]
  simp [Language.nil_mem_mul]

@[simp] theorem nil_notMem_escapeRest : [] ∉ escapeRest := by
  rw [escapeRest, Language.nil_mem_add, Language.nil_mem_add, Language.nil_mem_add]
  simp [Language.nil_mem_mul]

@[simp] theorem nil_notMem_escapeSequences : [] ∉ escapeSequences := by
  rw [escapeSequences, Language.nil_mem_add, Language.nil_mem_add, Language.nil_mem_add]
  simp [Language.nil_mem_mul]

@[simp] theorem nil_notMem_quotedCharacters (quote : UInt8) : [] ∉ quotedCharacters quote := by
  rw [quotedCharacters, Language.nil_mem_add]
  simp

theorem leftQuotient_escapeSequences (b : UInt8) :
    escapeSequences.leftQuotient [b] = if b = backslash then escapeRest else 0 := by
  simp only [escapeSequences, mul_assoc, Language.leftQuotient_add,
    Language.leftQuotient_mul_of_nil_notMem (nil_notMem_char _), leftQuotient_char,
    leftQuotient_universalNames]
  split
  · rw [one_mul, one_mul, one_mul, escapeRest]
  · rw [zero_mul, zero_mul, zero_mul, add_zero, add_zero, add_zero]

theorem leftQuotient_quotedCharacters (quote b : UInt8) :
    (quotedCharacters quote).leftQuotient [b] =
      if b = backslash then escapeRest else if isPlain quote b then 1 else 0 := by
  rw [quotedCharacters, Language.leftQuotient_add, leftQuotient_oneOf,
    leftQuotient_escapeSequences]
  by_cases hb : b = backslash
  · rw [if_pos hb, if_pos hb, if_neg (by simp [isPlain, hb]), zero_add]
  · rw [if_neg hb, if_neg hb, add_zero]

variable {quote : UInt8}

/-- A character between quotes, or the closing quote. -/
theorem leftQuotient_rest (hq : quote ≠ backslash) (b : UInt8) :
    (rest quote).leftQuotient [b] = (character quote b).elim 0 (State.language quote) := by
  rw [rest, Language.leftQuotient_kstar_mul, ← rest, leftQuotient_quotedCharacters,
    leftQuotient_char]
  simp only [character, beq_iff_eq]
  by_cases hb : b = quote
  · subst hb
    rw [if_neg hq, if_neg (by simp [isPlain]), if_pos rfl, if_pos rfl, zero_mul, zero_add]
    rfl
  · rw [if_neg hb, if_neg hb, add_zero]
    by_cases hs : b = backslash
    · rw [if_pos hs, if_pos hs]
      rfl
    · rw [if_neg hs, if_neg hs]
      by_cases hn : b = newline
      · rw [if_pos hn, if_neg (by simp [isPlain, hn]), zero_mul]
        rfl
      · rw [if_neg hn, if_pos (by simp [isPlain, hb, hs, hn]), one_mul]
        rfl

theorem leftQuotient_inside (hq : quote ≠ backslash) (b : UInt8) :
    (inside quote).leftQuotient [b] =
      (step quote .opened b).elim 0 (State.language quote) := by
  simp only [inside, step, Bool.and_eq_true, beq_iff_eq]
  split
  · next hsingle =>
    rw [Language.leftQuotient_mul_of_nil_notMem (nil_notMem_quotedCharacters quote)]
    by_cases hb : b = quote
    · -- a character constant is not empty
      subst hb
      rw [if_pos ⟨rfl, hsingle⟩, leftQuotient_quotedCharacters, if_neg hq,
        if_neg (by simp [isPlain]), zero_mul]
      rfl
    · rw [if_neg (fun h => hb h.1), ← leftQuotient_rest hq, rest, Language.leftQuotient_kstar_mul,
        leftQuotient_char, if_neg hb, add_zero]
  · next hsingle =>
    rw [if_neg (fun h => hsingle h.2), leftQuotient_rest hq]

/-! ### Escape sequences -/

theorem isHexDigit_of_isOctalDigit {b : UInt8} (h : isOctalDigit b = true) :
    isHexDigit b = true := by
  simp only [isOctalDigit, isHexDigit, isDigit, Bool.and_eq_true, Bool.or_eq_true,
    decide_eq_true_eq] at h ⊢
  exact .inl (.inl ⟨h.1, UInt8.le_trans h.2 (by decide)⟩)

section

variable (hq : quote = singleQuote ∨ quote = doubleQuote)
include hq

theorem ne_backslash : quote ≠ backslash := by
  obtain rfl | rfl := hq <;> decide

theorem isPlain_of_isHexDigit {b : UInt8} (h : isHexDigit b = true) : isPlain quote b = true := by
  simp only [isPlain, Bool.and_eq_true, bne_iff_ne]
  refine ⟨⟨?_, ?_⟩, ?_⟩
  · rintro rfl
    obtain rfl | rfl := hq <;> exact absurd h (by decide)
  · rintro rfl
    exact absurd h (by decide)
  · rintro rfl
    exact absurd h (by decide)

theorem character_of_isHexDigit {b : UInt8} (h : isHexDigit b = true) :
    character quote b = some .body := by
  have hplain := isPlain_of_isHexDigit hq h
  simp only [isPlain, Bool.and_eq_true, bne_iff_ne] at hplain
  simp [character, hplain]

/-- Digits after an escape sequence count among the characters that follow it. -/
theorem hexDigits_mul_rest_le : hexDigits * rest quote ≤ rest quote := by
  have hle : hexDigits ≤ quotedCharacters quote := by
    rintro w ⟨b, hb, rfl⟩
    exact .inl ⟨b, isPlain_of_isHexDigit hq hb, rfl⟩
  rw [rest, ← mul_assoc]
  exact mul_le_mul_left (Language.mul_kstar_le hle) _

theorem hexDigits_kstar_mul_rest : hexDigits∗ * rest quote = rest quote :=
  le_antisymm (kstar_mul_le_self (hexDigits_mul_rest_le hq))
    (le_mul_of_one_le_left' one_le_kstar)

theorem octalDigits_mul_rest_le : octalDigits * rest quote ≤ rest quote := by
  have hle : octalDigits ≤ hexDigits := by
    rintro w ⟨b, hb, rfl⟩
    exact ⟨b, isHexDigit_of_isOctalDigit hb, rfl⟩
  exact le_trans (mul_le_mul_left hle _) (hexDigits_mul_rest_le hq)

/-- After one octal digit there may be up to two more. -/
theorem octal_mul_rest :
    (1 + octalDigits + octalDigits * octalDigits) * rest quote = rest quote := by
  have hone := octalDigits_mul_rest_le hq
  have htwo : octalDigits * (octalDigits * rest quote) ≤ rest quote :=
    le_trans (mul_le_mul_right hone _) hone
  rw [add_mul, add_mul, one_mul, mul_assoc]
  exact le_antisymm (add_le (add_le le_rfl hone) htwo)
    (le_trans le_self_add le_self_add)

end

theorem step_universalName_of_isSimpleEscape {b : UInt8} (h : isSimpleEscape b = true) :
    isOctalDigit b = false ∧ b ≠ lowerX ∧ UniversalName.step .backslash b = none := by
  simp only [isSimpleEscape, List.mem_cons, List.not_mem_nil, or_false, decide_eq_true_eq] at h
  obtain rfl | rfl | rfl | rfl | rfl | rfl | rfl | rfl | rfl | rfl | rfl := h <;> decide

theorem step_universalName_of_isOctalDigit {b : UInt8} (h : isOctalDigit b = true) :
    b ≠ lowerX ∧ UniversalName.step .backslash b = none := by
  refine ⟨?_, UniversalName.step_backslash_eq_none ?_ ?_⟩
  all_goals
    rintro rfl
    exact absurd h (by decide)

theorem leftQuotient_octalNumbers (b : UInt8) :
    octalNumbers.leftQuotient [b] =
      if isOctalDigit b then 1 + octalDigits + octalDigits * octalDigits else 0 := by
  simp only [octalNumbers, mul_assoc, octalDigits, Language.leftQuotient_add,
    Language.leftQuotient_mul_of_nil_notMem (nil_notMem_oneOf _), leftQuotient_oneOf]
  split
  · rw [one_mul, one_mul]
  · rw [zero_mul, zero_mul, add_zero, add_zero]

/-- What follows a backslash. -/
theorem leftQuotient_escapeRest (hq : quote = singleQuote ∨ quote = doubleQuote) (b : UInt8) :
    escapeRest.leftQuotient [b] * rest quote =
      (step quote .escape b).elim 0 (State.language quote) := by
  have hfeed := leftQuotient_universalRest_mul (State.language quote) .universal .body
    (fun _ => rfl) .backslash b
  simp only [escapeRest, Language.leftQuotient_add, leftQuotient_oneOf, leftQuotient_octalNumbers,
    Language.leftQuotient_mul_of_nil_notMem (nil_notMem_char _), leftQuotient_char]
  by_cases hs : isSimpleEscape b = true
  · obtain ⟨ho, hx, hu⟩ := step_universalName_of_isSimpleEscape hs
    simp only [leftQuotient_universalRest, hu, hs, ho, hx, step, if_true, if_false,
      Bool.false_eq_true, zero_mul, add_zero, Option.elim_none, Option.elim_some]
    exact one_mul _
  · by_cases ho : isOctalDigit b = true
    · obtain ⟨hx, hu⟩ := step_universalName_of_isOctalDigit ho
      simp only [leftQuotient_universalRest, hu, hs, ho, hx, step, if_true, if_false,
        Bool.false_eq_true, zero_mul, add_zero, zero_add, Option.elim_none, Option.elim_some]
      exact octal_mul_rest hq
    · by_cases hx : b = lowerX
      · subst hx
        have hu : UniversalName.step .backslash lowerX = none := rfl
        simp only [leftQuotient_universalRest, hu, hs, ho, step, if_true, if_false,
          Bool.false_eq_true, one_mul, add_zero, zero_add, beq_self_eq_true, Option.elim_none,
          Option.elim_some]
        rfl
      · simp only [hs, ho, hx, step, if_false, Bool.false_eq_true, zero_mul, zero_add, beq_iff_eq]
        exact hfeed

theorem leftQuotient_hexMark (hq : quote = singleQuote ∨ quote = doubleQuote) (b : UInt8) :
    (hexDigits * hexDigits∗ * rest quote).leftQuotient [b] =
      (step quote .hexMark b).elim 0 (State.language quote) := by
  rw [mul_assoc, hexDigits_kstar_mul_rest hq, hexDigits,
    Language.leftQuotient_mul_of_nil_notMem (nil_notMem_oneOf _), leftQuotient_oneOf]
  simp only [step]
  split
  · exact one_mul _
  · exact zero_mul _

/-! ### Prefixes -/

theorem leftQuotient_prefixed (b : UInt8) :
    (char quote * inside quote).leftQuotient [b] =
      (step quote .prefixed b).elim 0 (State.language quote) := by
  rw [Language.leftQuotient_mul_of_nil_notMem (nil_notMem_char _), leftQuotient_char]
  simp only [step, beq_iff_eq]
  split
  · exact one_mul _
  · exact zero_mul _

theorem leftQuotient_letterU (hq : quote = singleQuote ∨ quote = doubleQuote) (b : UInt8) :
    ((1 + char eight) * (char quote * inside quote)).leftQuotient [b] =
      (step quote .letterU b).elim 0 (State.language quote) := by
  rw [Language.leftQuotient_one_add_mul (nil_notMem_char _), leftQuotient_prefixed,
    leftQuotient_char]
  simp only [step, beq_iff_eq]
  by_cases hb : b = eight
  · have hquote : b ≠ quote := by
      subst hb
      obtain rfl | rfl := hq <;> decide
    rw [if_pos hb, if_pos hb, if_neg hquote, one_mul]
    exact zero_add _
  · rw [if_neg hb, if_neg hb, zero_mul, add_zero]

theorem leftQuotient_encodingPrefixes_mul (hq : quote = singleQuote ∨ quote = doubleQuote)
    (b : UInt8) :
    (encodingPrefixes * (char quote * inside quote)).leftQuotient [b] =
      (step quote .start b).elim 0 (State.language quote) := by
  have h : encodingPrefixes =
      1 + (char upperL + char lowerU * (1 + char eight) + char upperU) := by
    rw [encodingPrefixes, mul_add, mul_one]
    ac_rfl
  have hnil : [] ∉ char upperL + char lowerU * (1 + char eight) + char upperU := by
    rw [Language.nil_mem_add, Language.nil_mem_add]
    simp [Language.nil_mem_mul]
  rw [h, Language.leftQuotient_one_add_mul hnil]
  simp only [Language.leftQuotient_add, leftQuotient_char,
    Language.leftQuotient_mul_of_nil_notMem (nil_notMem_char _)]
  by_cases hu : b = lowerU
  · subst hu
    have hquote : lowerU ≠ quote := by
      obtain rfl | rfl := hq <;> decide
    simp +decide only [hquote, step, if_true, if_false, one_mul, zero_mul, add_zero, zero_add,
      Option.elim_some, State.language]
  · by_cases hl : b = upperL ∨ b = upperU
    · have hquote : b ≠ quote := by
        obtain rfl | rfl := hq <;> obtain rfl | rfl := hl <;> decide
      obtain rfl | rfl := hl
      all_goals
        simp +decide only [hquote, step, if_true, if_false, one_mul, zero_mul, add_zero, zero_add,
          Option.elim_some, State.language]
    · obtain ⟨hl, hU⟩ := not_or.1 hl
      simp only [hu, hl, hU, step, if_false, beq_iff_eq, Bool.or_eq_true, or_self, zero_mul,
        add_zero]
      split
      · exact one_mul _
      · exact zero_mul _

end Quoted

/-- Either kind of literal. -/
theorem recognizes_quoted {quote : UInt8} (hq : quote = singleQuote ∨ quote = doubleQuote) :
    (quoted quote).Recognizes (Quoted.State.language quote) where
  accepting_iff s := by
    have hrest : [] ∉ Quoted.rest quote := by simp [Quoted.rest, Language.nil_mem_mul]
    cases s with
    | start | letterU | prefixed | escape | hexMark | universal _ =>
      simp [quoted, Quoted.State.language, Language.nil_mem_mul, hrest]
    | opened =>
      simp only [quoted, Quoted.State.language, Quoted.inside]
      split <;> simp [Language.nil_mem_mul, hrest]
    | body | octal _ | hex => simp [quoted, Quoted.State.language, hrest]
    | closed => simp [quoted, Quoted.State.language]
  leftQuotient_eq s b := by
    have hslash := Quoted.ne_backslash hq
    have hfeed := leftQuotient_universalRest_mul (Quoted.State.language quote) .universal .body
      (fun _ => rfl)
    cases s with
    | start => exact Quoted.leftQuotient_encodingPrefixes_mul hq b
    | letterU => exact Quoted.leftQuotient_letterU hq b
    | prefixed => exact Quoted.leftQuotient_prefixed b
    | opened => exact Quoted.leftQuotient_inside hslash b
    | body => exact Quoted.leftQuotient_rest hslash b
    | escape =>
      show (Quoted.escapeRest * Quoted.rest quote).leftQuotient [b] = _
      rw [Language.leftQuotient_mul_of_nil_notMem Quoted.nil_notMem_escapeRest]
      exact Quoted.leftQuotient_escapeRest hq b
    | octal more =>
      show (Quoted.rest quote).leftQuotient [b] = _
      rw [Quoted.leftQuotient_rest hslash]
      cases more with
      | zero => rfl
      | succ more =>
        show _ = (if isOctalDigit b then _ else _ : Option Quoted.State).elim 0 _
        split
        · next ho =>
          rw [Quoted.character_of_isHexDigit hq (Quoted.isHexDigit_of_isOctalDigit ho)]
          rfl
        · rfl
    | hexMark => exact Quoted.leftQuotient_hexMark hq b
    | hex =>
      show (Quoted.rest quote).leftQuotient [b] =
        (if isHexDigit b then _ else _ : Option Quoted.State).elim 0 _
      rw [Quoted.leftQuotient_rest hslash]
      split
      · next hx =>
        rw [Quoted.character_of_isHexDigit hq hx]
        rfl
      · rfl
    | universal progress =>
      show (universalRest progress * Quoted.rest quote).leftQuotient [b] = _
      rw [Language.leftQuotient_mul_of_nil_notMem (nil_notMem_universalRest progress)]
      exact hfeed progress b
    | closed => exact Language.leftQuotient_one b

theorem Quoted.language_start_singleQuote :
    Quoted.State.language singleQuote .start = characterConstants := by
  rw [Quoted.State.language, Quoted.inside, if_pos rfl]
  rfl

theorem Quoted.language_start_doubleQuote :
    Quoted.State.language doubleQuote .start = stringLiterals := by
  rw [Quoted.State.language, Quoted.inside, if_neg (by decide)]
  rfl

end CPreprocessor.Lexeme
