import CPreprocessor.Proofs.Lexeme.Language
import CPreprocessor.Proofs.Lexeme.Quotient

/-!
# Identifiers and numbers are recognized

For every state of an automaton, its language is what may follow once the state is reached. That the
languages step as the states do is checked state by state, with the left quotients of the languages
that the lexical grammar is built from. Universal character names occur in all tokens that are made
of letters; `leftQuotient_universalRest_mul` is about them inside any of these.
-/

namespace CPreprocessor.Lexeme

open Ascii Automaton
open scoped Computability

/-! ## Characters -/

theorem mem_oneOf {p : UInt8 → Bool} {text : Bytes} :
    text ∈ oneOf p ↔ ∃ b, p b = true ∧ text = [b] := Iff.rfl

theorem mem_char {b : UInt8} {text : Bytes} : text ∈ char b ↔ text = [b] := Iff.rfl

@[simp] theorem nil_notMem_oneOf (p : UInt8 → Bool) : [] ∉ oneOf p := by
  rintro ⟨b, -, h⟩
  cases h

@[simp] theorem nil_notMem_char (b : UInt8) : [] ∉ char b := by
  rw [mem_char]
  exact (List.cons_ne_nil b []).symm

@[simp] theorem leftQuotient_oneOf (p : UInt8 → Bool) (b : UInt8) :
    (oneOf p).leftQuotient [b] = if p b then 1 else 0 := by
  ext w
  rw [Language.mem_leftQuotient, mem_oneOf]
  split
  · next h =>
    rw [Language.mem_one]
    exact ⟨fun ⟨c, _, hc⟩ => (List.cons.inj hc).2, fun hw => ⟨b, h, by rw [hw]; rfl⟩⟩
  · next h =>
    refine iff_of_false ?_ (Language.notMem_zero w)
    rintro ⟨c, hp, hc⟩
    obtain ⟨rfl, -⟩ := List.cons.inj hc
    exact h hp

@[simp] theorem leftQuotient_char (c b : UInt8) :
    (char c).leftQuotient [b] = if b = c then 1 else 0 := by
  have h : char c = oneOf (· == c) := by
    ext w
    rw [mem_char, mem_oneOf]
    simp
  rw [h, leftQuotient_oneOf]
  simp

/-- Either of two conditions lets the token end. -/
theorem ite_add_ite (p q : Bool) :
    ((if p then 1 else 0) + (if q then 1 else 0) : Language UInt8) = if p || q then 1 else 0 := by
  cases p with
  | false => exact zero_add _
  | true =>
    cases q with
    | false => exact add_zero _
    | true => exact Language.add_self 1

/-! ## Universal character names -/

/-- What may follow a part of a universal character name. -/
def universalRest : UniversalName.Progress → Language UInt8
  | .backslash => universalNames.leftQuotient [backslash]
  | .digits later value =>
    {text | text.length = later + 1 ∧ (∀ d ∈ text, isHexDigit d = true) ∧
      UniversalName.isAcceptable (text.foldl (fun v d => v * 16 + digitValue d) value) = true}

@[simp] theorem nil_notMem_universalNames : [] ∉ universalNames := by
  rintro ⟨mark, digits, h, -⟩
  cases h

@[simp] theorem leftQuotient_universalNames (b : UInt8) :
    universalNames.leftQuotient [b] = if b = backslash then universalRest .backslash else 0 := by
  split
  · next h => rw [h, universalRest]
  · next h =>
    ext w
    refine iff_of_false ?_ (Language.notMem_zero w)
    rintro ⟨mark, digits, hw, -⟩
    exact h (List.cons.inj hw).1

@[simp] theorem nil_notMem_universalRest (name : UniversalName.Progress) :
    [] ∉ universalRest name := by
  cases name with
  | backslash =>
    rintro ⟨mark, digits, h, -⟩
    cases h
  | digits later value =>
    rintro ⟨h, -⟩
    cases h

/-- What may follow once a byte of a name has been read. -/
def universalNext : UniversalName.Progress ⊕ Nat → Language UInt8
  | .inl name => universalRest name
  | .inr codePoint => if UniversalName.isAcceptable codePoint then 1 else 0

theorem cons_mem_universalRest_backslash {b : UInt8} {w : Bytes} :
    b :: w ∈ universalRest .backslash ↔
      (b = lowerU ∧ w.length = 4 ∨ b = upperU ∧ w.length = 8) ∧
        (∀ d ∈ w, isHexDigit d = true) ∧
          UniversalName.isAcceptable (Ascii.number 16 w) = true := by
  constructor
  · rintro ⟨mark, digits, hw, rest⟩
    obtain ⟨rfl, rfl⟩ := List.cons.inj (List.cons.inj hw).2
    exact rest
  · exact fun rest => ⟨b, w, rfl, rest⟩

theorem cons_mem_universalRest_digits {later value : Nat} {b : UInt8} {w : Bytes} :
    b :: w ∈ universalRest (.digits later value) ↔
      w.length = later ∧ (isHexDigit b = true ∧ ∀ d ∈ w, isHexDigit d = true) ∧
        UniversalName.isAcceptable
          (w.foldl (fun v d => v * 16 + digitValue d) (value * 16 + digitValue b)) = true := by
  rw [← List.forall_mem_cons (p := fun d => isHexDigit d = true)]
  exact and_congr_left' Nat.succ_inj

theorem UniversalName.step_backslash_eq_none {b : UInt8} (hl : b ≠ lowerU) (hu : b ≠ upperU) :
    UniversalName.step .backslash b = none := by
  unfold UniversalName.step
  split <;> simp_all

theorem leftQuotient_universalRest (name : UniversalName.Progress) (b : UInt8) :
    (universalRest name).leftQuotient [b] =
      (UniversalName.step name b).elim 0 universalNext := by
  ext w
  cases name with
  | backslash =>
    rw [Language.mem_leftQuotient, List.singleton_append, cons_mem_universalRest_backslash]
    by_cases hl : b = lowerU
    · subst hl
      rw [show (lowerU = upperU) = False by decide, eq_self, true_and, false_and, or_false]
      exact Iff.rfl
    · by_cases hu : b = upperU
      · subst hu
        rw [show (upperU = lowerU) = False by decide, eq_self, true_and, false_and, false_or]
        exact Iff.rfl
      · rw [UniversalName.step_backslash_eq_none hl hu]
        refine iff_of_false ?_ (Language.notMem_zero w)
        rintro ⟨⟨h, -⟩ | ⟨h, -⟩, -⟩
        · exact hl h
        · exact hu h
  | digits later value =>
    rw [Language.mem_leftQuotient, List.singleton_append, cons_mem_universalRest_digits]
    by_cases hb : isHexDigit b = true
    · simp only [UniversalName.step, hb, if_true, true_and]
      cases later with
      | succ later => exact Iff.rfl
      | zero =>
        simp only [Option.elim_some, universalNext, List.length_eq_zero_iff]
        split
        · next hacc =>
          rw [Language.mem_one]
          refine ⟨And.left, ?_⟩
          rintro rfl
          exact ⟨rfl, List.forall_mem_nil _, hacc⟩
        · next hacc =>
          refine iff_of_false ?_ (Language.notMem_zero w)
          rintro ⟨rfl, -, h⟩
          exact hacc h
    · simp only [UniversalName.step, if_neg hb]
      refine iff_of_false ?_ (Language.notMem_zero w)
      rintro ⟨-, ⟨h, -⟩, -⟩
      exact hb h

/-- A universal character name inside a larger token: the states of the token step through the name
and then go on after it. -/
theorem leftQuotient_universalRest_mul {σ : Type} (language : σ → Language UInt8)
    (inside : UniversalName.Progress → σ) (after : σ)
    (hinside : ∀ name, language (inside name) = universalRest name * language after)
    (name : UniversalName.Progress) (b : UInt8) :
    (universalRest name).leftQuotient [b] * language after =
      (UniversalName.feed inside after name b).elim 0 language := by
  rw [leftQuotient_universalRest]
  unfold UniversalName.feed
  cases UniversalName.step name b with
  | none => exact zero_mul _
  | some next =>
    cases next with
    | inl name' => exact (hinside name').symm
    | inr codePoint =>
      simp only [Option.elim_some, universalNext]
      split
      · exact one_mul _
      · exact zero_mul _

/-! ## Identifiers -/

@[simp] theorem nil_notMem_nondigits : [] ∉ nondigits := by
  rw [nondigits, Language.nil_mem_add]
  simp

theorem leftQuotient_nondigits (b : UInt8) :
    nondigits.leftQuotient [b] =
      if b = backslash then universalRest .backslash else if isNondigit b then 1 else 0 := by
  rw [nondigits, Language.leftQuotient_add, leftQuotient_oneOf, leftQuotient_universalNames]
  by_cases hb : b = backslash
  · subst hb
    rw [if_pos rfl, if_pos rfl, if_neg (by decide), zero_add]
  · rw [if_neg hb, if_neg hb, add_zero]

theorem leftQuotient_identifierTails (b : UInt8) :
    identifierTails.leftQuotient [b] =
      (if b = backslash then universalRest .backslash
        else if isNondigit b || isDigit b then 1 else 0) * identifierTails := by
  rw [identifierTails, Language.leftQuotient_kstar, Language.leftQuotient_add, leftQuotient_oneOf,
    leftQuotient_nondigits]
  congr 1
  by_cases hb : b = backslash
  · subst hb
    rw [if_pos rfl, if_pos rfl, if_neg (by decide), add_zero]
  · rw [if_neg hb, if_neg hb, ite_add_ite]

/-- What may follow in each state of the automaton of identifiers. -/
def Identifier.State.language : Identifier.State → Language UInt8
  | .start => identifiers
  | .name => identifierTails
  | .universal progress => universalRest progress * identifierTails

theorem Identifier.step_start (b : UInt8) :
    Identifier.step .start b =
      if b = backslash then some (.universal .backslash)
      else if isNondigit b then some .name else none := by
  by_cases hb : b = backslash
  · subst hb
    rfl
  · rw [if_neg hb]
    unfold Identifier.step
    split <;> simp_all

theorem Identifier.step_name (b : UInt8) :
    Identifier.step .name b =
      if b = backslash then some (.universal .backslash)
      else if isNondigit b || isDigit b then some .name else none := by
  by_cases hb : b = backslash
  · subst hb
    rfl
  · rw [if_neg hb]
    unfold Identifier.step
    split <;> simp_all

theorem recognizes_identifier : identifier.Recognizes Identifier.State.language where
  accepting_iff s := by
    cases s with
    | start => simp [identifier, Identifier.State.language, identifiers]
    | name =>
      simp [identifier, Identifier.State.language, identifierTails, Language.nil_mem_kstar]
    | universal progress => simp [identifier, Identifier.State.language]
  leftQuotient_eq s b := by
    have hfeed := leftQuotient_universalRest_mul Identifier.State.language .universal .name
      (fun _ => rfl)
    cases s with
    | start =>
      show identifiers.leftQuotient [b] = (Identifier.step .start b).elim 0 _
      rw [identifiers, Language.leftQuotient_mul_of_nil_notMem nil_notMem_nondigits,
        leftQuotient_nondigits, Identifier.step_start]
      split
      · rfl
      · split
        · exact one_mul _
        · exact zero_mul _
    | name =>
      show identifierTails.leftQuotient [b] = (Identifier.step .name b).elim 0 _
      rw [leftQuotient_identifierTails, Identifier.step_name]
      split
      · rfl
      · split
        · exact one_mul _
        · exact zero_mul _
    | universal progress =>
      show (universalRest progress * identifierTails).leftQuotient [b] = _
      rw [Language.leftQuotient_mul_of_nil_notMem (nil_notMem_universalRest progress)]
      exact hfeed progress b

/-! ## Numbers -/

theorem isNondigit_of_isExponentMark {b : UInt8} (h : Number.isExponentMark b = true) :
    isNondigit b = true ∧ isDigit b = false ∧ b ≠ dot ∧ b ≠ backslash := by
  simp only [Number.isExponentMark, Bool.or_eq_true, beq_iff_eq] at h
  obtain ((rfl | rfl) | rfl) | rfl := h <;> decide

/-- What may follow in each state of the automaton of numbers. -/
def Number.State.language : Number.State → Language UInt8
  | .start => numbers
  | .leadingDot => oneOf isDigit * numberTails
  | .body => numberTails
  | .exponent => (1 + signs) * numberTails
  | .universal progress => universalRest progress * numberTails

/-- A character that continues a number. -/
theorem leftQuotient_numberTails (b : UInt8) :
    numberTails.leftQuotient [b] = (Number.extend b).elim 0 Number.State.language := by
  rw [numberTails, Language.leftQuotient_kstar, ← numberTails]
  simp only [Language.leftQuotient_add, leftQuotient_oneOf, leftQuotient_nondigits,
    leftQuotient_char, exponentMarks, Language.leftQuotient_mul_of_nil_notMem (nil_notMem_oneOf _)]
  unfold Number.extend
  by_cases he : Number.isExponentMark b = true
  · obtain ⟨hn, hd, hdot, hb⟩ := isNondigit_of_isExponentMark he
    simp only [he, hn, hd, hdot, hb, if_true, if_false, Bool.false_eq_true, zero_add, add_zero,
      one_mul]
    rfl
  · simp only [if_neg he, zero_mul, add_zero]
    by_cases hb : b = backslash
    · subst hb
      rw [if_pos rfl, if_neg (by decide), if_neg (by decide), if_neg (by decide),
        if_pos (by decide), zero_add, add_zero]
      rfl
    · have hdot : (if b = dot then 1 else 0 : Language UInt8) = if b == dot then 1 else 0 := by
        simp only [beq_iff_eq]
      rw [if_neg hb, hdot, ite_add_ite, ite_add_ite]
      have hor : (isDigit b || isNondigit b || b == dot) =
          (b == dot || isDigit b || isNondigit b) := by
        rw [Bool.or_comm, Bool.or_assoc]
      rw [hor]
      cases b == dot || isDigit b || isNondigit b with
      | true => exact one_mul _
      | false =>
        rw [if_neg Bool.false_ne_true, if_neg Bool.false_ne_true, if_neg (by simpa using hb)]
        exact zero_mul _

theorem leftQuotient_dot_digit (b : UInt8) :
    ((1 + char dot) * oneOf isDigit).leftQuotient [b] =
      if b = dot then oneOf isDigit else if isDigit b then 1 else 0 := by
  rw [Language.leftQuotient_one_add_mul (nil_notMem_char _), leftQuotient_char, leftQuotient_oneOf]
  by_cases hb : b = dot
  · subst hb
    rw [if_neg (by decide), if_pos rfl, if_pos rfl, one_mul, zero_add]
  · rw [if_neg hb, if_neg hb, zero_mul, add_zero]

theorem recognizes_number : number.Recognizes Number.State.language where
  accepting_iff s := by
    cases s with
    | start => simp [number, Number.State.language, numbers]
    | leadingDot => simp [number, Number.State.language]
    | body => simp [number, Number.State.language, numberTails, Language.nil_mem_kstar]
    | exponent =>
      simp only [number, Number.State.language, numberTails, Language.nil_mem_mul,
        Language.nil_mem_add, Language.nil_mem_kstar, Language.mem_one, true_or, and_true]
      decide
    | universal progress => simp [number, Number.State.language]
  leftQuotient_eq s b := by
    have hfeed := leftQuotient_universalRest_mul Number.State.language .universal .body
      (fun _ => rfl)
    cases s with
    | start =>
      show numbers.leftQuotient [b] = (Number.step .start b).elim 0 _
      rw [numbers, Language.leftQuotient_mul_of_nil_notMem (by simp [Language.nil_mem_mul]),
        leftQuotient_dot_digit]
      by_cases hb : b = dot
      · subst hb
        rfl
      · simp only [Number.step, beq_iff_eq, if_neg hb]
        split
        · exact one_mul _
        · exact zero_mul _
    | leadingDot =>
      show (oneOf isDigit * numberTails).leftQuotient [b] = (Number.step .leadingDot b).elim 0 _
      rw [Language.leftQuotient_mul_of_nil_notMem (nil_notMem_oneOf _), leftQuotient_oneOf,
        Number.step]
      split
      · exact one_mul _
      · exact zero_mul _
    | body => exact leftQuotient_numberTails b
    | exponent =>
      show ((1 + signs) * numberTails).leftQuotient [b] = (Number.step .exponent b).elim 0 _
      rw [signs, Language.leftQuotient_one_add_mul (nil_notMem_oneOf _), leftQuotient_oneOf,
        leftQuotient_numberTails, Number.step]
      split
      · next h =>
        have hnone : Number.extend b = none := by
          simp only [Bool.or_eq_true, beq_iff_eq] at h
          obtain rfl | rfl := h <;> decide
        rw [hnone, one_mul]
        exact zero_add _
      · rw [zero_mul, add_zero]
    | universal progress =>
      show (universalRest progress * numberTails).leftQuotient [b] = _
      rw [Language.leftQuotient_mul_of_nil_notMem (nil_notMem_universalRest progress)]
      exact hfeed progress b

end CPreprocessor.Lexeme
