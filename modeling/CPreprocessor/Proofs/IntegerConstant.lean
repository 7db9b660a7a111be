import CPreprocessor.IntegerConstant
import CPreprocessor.Proofs.CharacterConstant.Decoder
import CPreprocessor.Proofs.Expression.Arithmetic
import CPreprocessor.Proofs.Lexeme.Growth

/-!
# Integer constants

The integer constants as the standard has them: digits of one of three radices (`Spells`) with a
suffix (`suffixes`) or without one. A preprocessing number has a value exactly if it is one of them
and the number that its digits spell has at most 64 bits; what else it is tells the error
(`evaluate_exact`).
-/

namespace CPreprocessor.IntegerConstant

open Ascii
open CharacterConstant (spelledNumber number_eq_spelledNumber takeWhile_append_of_head)
open Lexeme (char)
open scoped Computability

/-! ## The form of integer constants -/

def unsignedMarks : Language UInt8 := char lowerU + char upperU

def longMarks : Language UInt8 := char lowerL + char upperL

/-- Two letters of the same case. -/
def longLongMarks : Language UInt8 := char lowerL * char lowerL + char upperL * char upperL

/-- The suffixes that an integer constant may have. -/
def suffixes : Language UInt8 :=
  unsignedMarks * (1 + longMarks) + unsignedMarks * longLongMarks +
    longMarks * (1 + unsignedMarks) + longLongMarks * (1 + unsignedMarks)

/-- A text is a constant without a suffix, of the given radix and with the given digits. -/
inductive Spells : Bytes → Nat → Bytes → Prop
  | decimal {first : UInt8} {rest : Bytes} (hfirst : isDigit first = true) (hne : first ≠ zero)
      (hrest : ∀ b ∈ rest, isDigit b = true) : Spells (first :: rest) 10 (first :: rest)
  | octal {rest : Bytes} (h : ∀ b ∈ rest, isOctalDigit b = true) :
      Spells (zero :: rest) 8 (zero :: rest)
  | hexadecimal {x : UInt8} {digits : Bytes} (hx : x = lowerX ∨ x = upperX) (hne : digits ≠ [])
      (h : ∀ b ∈ digits, isHexDigit b = true) : Spells (zero :: x :: digits) 16 digits

/-- A text is an integer constant. -/
def IsConstant (text : Bytes) (radix : Nat) (digits suffix : Bytes) : Prop :=
  ∃ body, text = body ++ suffix ∧ Spells body radix digits ∧ suffix ∈ 1 + suffixes

/-- A number begins as a hexadecimal one. -/
def IsHexadecimal (text : Bytes) : Prop := [zero, lowerX] <+: text ∨ [zero, upperX] <+: text

instance (text : Bytes) : Decidable (IsHexadecimal text) :=
  inferInstanceAs (Decidable (_ ∨ _))

/-- A number has a mark of floating constants: a dot or the letter of an exponent, which is another
one after `0x`. -/
def IsFloating (text : Bytes) : Prop :=
  dot ∈ text ∨ if IsHexadecimal text then lowerP ∈ text ∨ upperP ∈ text
    else lowerE ∈ text ∨ upperE ∈ text

instance (text : Bytes) : Decidable (IsFloating text) :=
  inferInstanceAs (Decidable (_ ∨ ite _ _ _))

/-- What follows the digits of a number, whether its radix has these digits or not. -/
def suffixOf (text : Bytes) : Bytes :=
  if IsHexadecimal text then (text.drop 2).dropWhile isHexDigit else text.dropWhile isDigit

/-! ## Suffixes -/

variable {suffix : Bytes}

theorem mem_unsignedMarks : suffix ∈ unsignedMarks ↔ suffix ∈ unsignedSuffixes := by
  rw [unsignedMarks, Language.mem_add, Lexeme.mem_char, Lexeme.mem_char,
    show unsignedSuffixes = [[lowerU], [upperU]] from rfl, List.mem_pair]

theorem mem_longMarks : suffix ∈ longMarks + longLongMarks ↔ suffix ∈ longSuffixes := by
  have hpair (b : UInt8) : suffix ∈ char b * char b ↔ suffix = [b, b] := by
    rw [Language.mem_mul]
    constructor
    · rintro ⟨_, rfl, _, rfl, rfl⟩
      rfl
    · rintro rfl
      exact ⟨[b], rfl, [b], rfl, rfl⟩
  rw [longMarks, longLongMarks, Language.mem_add, Language.mem_add, Language.mem_add,
    Lexeme.mem_char, Lexeme.mem_char, hpair, hpair,
    show longSuffixes = [[lowerL], [upperL], [lowerL, lowerL], [upperL, upperL]] from rfl]
  simp only [List.mem_cons, List.not_mem_nil, or_false, or_assoc]

/-- The two marks of a suffix may come in either order, and either may be missing. -/
theorem mem_suffixes : suffix ∈ 1 + suffixes ↔
    (suffix = [] ∨ suffix ∈ longSuffixes) ∨ suffix ∈ unsignedSuffixes ∨
      ∃ u ∈ unsignedSuffixes, ∃ l ∈ longSuffixes, suffix = u ++ l ∨ suffix = l ++ u := by
  have hsum : 1 + suffixes =
      1 + (longMarks + longLongMarks) + unsignedMarks +
        unsignedMarks * (longMarks + longLongMarks) +
          (longMarks + longLongMarks) * unsignedMarks := by
    rw [suffixes]
    simp only [mul_add, add_mul, mul_one]
    ac_rfl
  rw [hsum, Language.mem_add, Language.mem_add, Language.mem_add, Language.mem_add,
    Language.mem_one, mem_longMarks, mem_unsignedMarks, Language.mem_mul, Language.mem_mul]
  simp only [mem_longMarks, mem_unsignedMarks]
  constructor
  · rintro (((h | h) | ⟨u, hu, l, hl, rfl⟩) | ⟨l, hl, u, hu, rfl⟩)
    · exact .inl h
    · exact .inr (.inl h)
    · exact .inr (.inr ⟨u, hu, l, hl, .inl rfl⟩)
    · exact .inr (.inr ⟨u, hu, l, hl, .inr rfl⟩)
  · rintro (h | h | ⟨u, hu, l, hl, rfl | rfl⟩)
    · exact .inl (.inl (.inl h))
    · exact .inl (.inl (.inr h))
    · exact .inl (.inr ⟨u, hu, l, hl, rfl⟩)
    · exact .inr ⟨l, hl, u, hu, rfl⟩

/-- The `u` of a suffix is what makes a constant unsigned. -/
theorem isUnsigned?_eq_some_iff {unsigned : Bool} : isUnsigned? suffix = some unsigned ↔
    suffix ∈ 1 + suffixes ∧ (unsigned = true ↔ lowerU ∈ suffix ∨ upperU ∈ suffix) := by
  have hlong : ∀ l ∈ longSuffixes, lowerU ∉ l ∧ upperU ∉ l := by decide
  have hunsigned : ∀ u ∈ unsignedSuffixes, lowerU ∈ u ∨ upperU ∈ u := by decide
  rw [isUnsigned?, mem_suffixes]
  simp only [List.contains_iff_mem, List.any_eq_true, Bool.or_eq_true, decide_eq_true_eq]
  by_cases hnone : suffix = [] ∨ suffix ∈ longSuffixes
  · rw [if_pos hnone, Option.some_inj]
    have hmark : ¬ (lowerU ∈ suffix ∨ upperU ∈ suffix) := by
      rcases hnone with rfl | hmem
      · simp
      · exact not_or.2 (hlong suffix hmem)
    cases unsigned <;> simp [hnone, hmark]
  rw [if_neg hnone]
  by_cases hsome : suffix ∈ unsignedSuffixes ∨
      ∃ u ∈ unsignedSuffixes, ∃ l ∈ longSuffixes, suffix = u ++ l ∨ suffix = l ++ u
  · rw [if_pos hsome, Option.some_inj]
    have hmark : lowerU ∈ suffix ∨ upperU ∈ suffix := by
      rcases hsome with hmem | ⟨u, hu, l, -, rfl | rfl⟩
      · exact hunsigned suffix hmem
      · exact (hunsigned u hu).imp (List.mem_append_left l) (List.mem_append_left l)
      · exact (hunsigned u hu).imp (List.mem_append_right l) (List.mem_append_right l)
    cases unsigned <;> simp [hsome, hmark]
  · rw [if_neg hsome]
    exact iff_of_false nofun fun h => h.1.elim hnone hsome

/-! ## Digits -/

theorem digitValue_lt_of_isHexDigit :
    ∀ b : UInt8, isHexDigit b = true → digitValue b < 16 :=
  Lexeme.forall_byte (by decide +kernel)

theorem digitValue_lt_of_isDigit : ∀ b : UInt8, isDigit b = true → digitValue b < 10 :=
  Lexeme.forall_byte (by decide +kernel)

theorem isHexDigit_of_isDigit {b : UInt8} (h : isDigit b = true) : isHexDigit b = true := by
  rw [isHexDigit, h, Bool.true_or, Bool.true_or]

/-- The octal digits are the decimal ones that are less than eight. -/
theorem isOctalDigit_iff : ∀ b : UInt8,
    isOctalDigit b = true ↔ isDigit b = true ∧ digitValue b < 8 :=
  Lexeme.forall_byte (by decide +kernel)

section

variable {radix value : Nat} {invalid tooLarge : Cause} {digits : Bytes}

theorem le_foldl (hradix : 0 < radix) (value : Nat) (digits : Bytes) :
    value ≤ digits.foldl (fun n b => n * radix + digitValue b) value := by
  induction digits generalizing value with
  | nil => exact Nat.le_refl value
  | cons b rest ih =>
    calc value ≤ value * radix := Nat.le_mul_of_pos_right value hradix
      _ ≤ value * radix + digitValue b := Nat.le_add_right _ _
      _ ≤ _ := ih _

/-- Digits of the radix spell a number, unless it is too large. As it only grows with more digits,
it does not matter when this is noticed. -/
theorem valueFrom_of_forall (hradix : 0 < radix) (hdigits : ∀ b ∈ digits, digitValue b < radix)
    (hvalue : value < limit) : valueFrom radix invalid tooLarge value digits =
      if digits.foldl (fun n b => n * radix + digitValue b) value < limit then
        .ok (digits.foldl (fun n b => n * radix + digitValue b) value)
      else .error tooLarge := by
  induction digits generalizing value with
  | nil => rw [valueFrom, List.foldl_nil, if_pos hvalue]
  | cons b rest ih =>
    obtain ⟨hb, hrest⟩ := List.forall_mem_cons.1 hdigits
    rw [valueFrom, if_neg (Nat.not_le.2 hb), List.foldl_cons]
    dsimp only
    by_cases hlarge : limit ≤ value * radix + digitValue b
    · rw [if_pos hlarge, if_neg (Nat.not_lt.2 (hlarge.trans (le_foldl hradix _ rest)))]
    · rw [if_neg hlarge, ih hrest (Nat.lt_of_not_le hlarge)]

/-- Only digits of the radix spell a number. -/
theorem digitValue_lt_of_valueFrom {n : Nat}
    (h : valueFrom radix invalid tooLarge value digits = .ok n) :
    ∀ b ∈ digits, digitValue b < radix := by
  induction digits generalizing value with
  | nil => exact List.forall_mem_nil _
  | cons b rest ih =>
    rw [valueFrom] at h
    dsimp only at h
    split at h
    · cases h
    · next hb =>
      split at h
      · cases h
      · exact List.forall_mem_cons.2 ⟨Nat.lt_of_not_le hb, ih h⟩

theorem cause_of_valueFrom {cause : Cause}
    (h : valueFrom radix invalid tooLarge value digits = .error cause) :
    cause = invalid ∨ cause = tooLarge := by
  induction digits generalizing value with
  | nil => cases h
  | cons b rest ih =>
    rw [valueFrom] at h
    dsimp only at h
    split at h
    · exact .inl (Except.error.inj h).symm
    · split at h
      · exact .inr (Except.error.inj h).symm
      · exact ih h

end

/-! ## Reading a number -/

/-- The radix of a number, what are its digits behind the prefix of this radix, and what is left. -/
def reading (text : Bytes) : Nat × Bytes × Bytes :=
  ((radix text).1, (radix text).2.takeWhile (isDigitIn (radix text).1),
    (radix text).2.dropWhile (isDigitIn (radix text).1))

variable {text digits taken suffix : Bytes} {r : Nat}

theorem evaluate_of_reading (h : reading text = (r, taken, suffix)) :
    evaluate text =
      if text.any (floatingMarks r).contains then .error (.disallowed "floating constant")
      else if r = 16 ∧ taken = [] then .error (.invalidInteger text.toText)
      else match isUnsigned? suffix with
        | none => .error (.invalidInteger text.toText)
        | some unsigned =>
          (valueFrom r (.invalidInteger text.toText) (.integerTooLarge text.toText) 0 taken).map
            fun n => ⟨BitVec.ofNat 64 n, unsigned || signedLimit ≤ n⟩ := by
  cases h
  rw [evaluate]
  dsimp only
  split
  · rfl
  split
  · rfl
  cases isUnsigned? ((radix text).2.dropWhile (isDigitIn (radix text).1)) with
  | none => rfl
  | some unsigned =>
    cases valueFrom (radix text).1 (.invalidInteger text.toText) (.integerTooLarge text.toText) 0
      ((radix text).2.takeWhile (isDigitIn (radix text).1)) <;> rfl

/-- A number that has no value is a floating constant, or no integer constant, or too large. -/
theorem cause_of_evaluate {cause : Cause} (h : evaluate text = .error cause) :
    text.any (floatingMarks (reading text).1).contains = true ∧
        cause = .disallowed "floating constant" ∨
      cause = .invalidInteger text.toText ∨ cause = .integerTooLarge text.toText := by
  rcases hreading : reading text with ⟨r, taken, suffix⟩
  rw [evaluate_of_reading hreading] at h
  split at h
  · next hfloat => exact .inl ⟨hfloat, (Except.error.inj h).symm⟩
  split at h
  · exact .inr (.inl (Except.error.inj h).symm)
  split at h
  · exact .inr (.inl (Except.error.inj h).symm)
  · cases hvalue : valueFrom r (.invalidInteger text.toText) (.integerTooLarge text.toText) 0
      taken with
    | ok n =>
      rw [hvalue] at h
      cases h
    | error c =>
      rw [hvalue] at h
      cases h
      exact .inr (cause_of_valueFrom hvalue)

/-! ## The shape of a number -/

theorem radix_hexadecimal {x : UInt8} (hx : x = lowerX ∨ x = upperX) (body : Bytes) :
    radix (zero :: x :: body) = (16, body) := by
  rcases hx with rfl | rfl <;> rfl

theorem radix_octal {body : Bytes} (h : ∀ b ∈ body.head?, b ≠ lowerX ∧ b ≠ upperX) :
    radix (zero :: body) = (8, body) := by
  cases body with
  | nil => rfl
  | cons x rest =>
    obtain ⟨hlower, hupper⟩ := h x rfl
    unfold radix
    split
    · next heq =>
      cases heq
      split
      · next heq => exact absurd (List.cons.inj heq).1 hlower
      · next heq => exact absurd (List.cons.inj heq).1 hupper
      · rfl
    · next hne => exact absurd rfl (hne _)

theorem radix_decimal {b : UInt8} (h : b ≠ zero) (rest : Bytes) :
    radix (b :: rest) = (10, b :: rest) := by
  rw [radix]
  rintro rest' ⟨⟩
  exact h rfl

/-- The three shapes of a number. -/
theorem radix_cases {b : UInt8} {rest : Bytes} (htext : text = b :: rest) :
    (∃ x body, text = zero :: x :: body ∧ (x = lowerX ∨ x = upperX)) ∨
      (∃ body, text = zero :: body ∧ ∀ x ∈ body.head?, x ≠ lowerX ∧ x ≠ upperX) ∨ b ≠ zero := by
  by_cases hzero : b = zero
  · subst htext hzero
    by_cases hx : ∃ x ∈ rest.head?, x = lowerX ∨ x = upperX
    · obtain ⟨x, hmem, hx⟩ := hx
      obtain ⟨body, rfl⟩ := List.head?_eq_some_iff.1 hmem
      exact .inl ⟨x, body, rfl, hx⟩
    · exact .inr (.inl ⟨rest, rfl, fun x hmem =>
        not_or.1 fun h => hx ⟨x, hmem, h⟩⟩)
  · exact .inr (.inr hzero)

theorem reading_hexadecimal {x : UInt8} (hx : x = lowerX ∨ x = upperX) (body : Bytes) :
    reading (zero :: x :: body) = (16, body.takeWhile isHexDigit, body.dropWhile isHexDigit) := by
  rw [reading, radix_hexadecimal hx]
  rfl

theorem reading_octal {body : Bytes} (h : ∀ b ∈ body.head?, b ≠ lowerX ∧ b ≠ upperX) :
    reading (zero :: body) = (8, body.takeWhile isDigit, body.dropWhile isDigit) := by
  rw [reading, radix_octal h]
  rfl

theorem reading_decimal {b : UInt8} (h : b ≠ zero) (rest : Bytes) :
    reading (b :: rest) = (10, (b :: rest).takeWhile isDigit, (b :: rest).dropWhile isDigit) := by
  rw [reading, radix_decimal h]
  rfl

theorem isHexadecimal_hexadecimal {x : UInt8} (hx : x = lowerX ∨ x = upperX) (body : Bytes) :
    IsHexadecimal (zero :: x :: body) := by
  rcases hx with rfl | rfl
  · exact .inl ⟨body, rfl⟩
  · exact .inr ⟨body, rfl⟩

theorem not_isHexadecimal_octal {body : Bytes} (h : ∀ b ∈ body.head?, b ≠ lowerX ∧ b ≠ upperX) :
    ¬ IsHexadecimal (zero :: body) := by
  rintro (⟨rest, ⟨⟩⟩ | ⟨rest, ⟨⟩⟩)
  · exact (h lowerX rfl).1 rfl
  · exact (h upperX rfl).2 rfl

theorem not_isHexadecimal_decimal {b : UInt8} (h : b ≠ zero) (rest : Bytes) :
    ¬ IsHexadecimal (b :: rest) := by
  rintro (⟨rest, ⟨⟩⟩ | ⟨rest, ⟨⟩⟩) <;> exact h rfl

/-- The first bytes of a number tell its radix, and with it what makes it a floating constant and
where its suffix begins. -/
theorem reading_spec {b : UInt8} {rest : Bytes} (htext : text = b :: rest) :
    ((reading text).1 = 16 ↔ IsHexadecimal text) ∧ (reading text).2.2 = suffixOf text := by
  rcases radix_cases htext with ⟨x, body, rfl, hx⟩ | ⟨body, rfl, h⟩ | h
  · rw [reading_hexadecimal hx, suffixOf, if_pos (isHexadecimal_hexadecimal hx body)]
    exact ⟨iff_of_true rfl (isHexadecimal_hexadecimal hx body), rfl⟩
  · rw [reading_octal h, suffixOf, if_neg (not_isHexadecimal_octal h)]
    exact ⟨iff_of_false (by simp) (not_isHexadecimal_octal h), rfl⟩
  · subst htext
    rw [reading_decimal h, suffixOf, if_neg (not_isHexadecimal_decimal h rest)]
    exact ⟨iff_of_false (by simp) (not_isHexadecimal_decimal h rest), rfl⟩

theorem any_floatingMarks {b : UInt8} {rest : Bytes} (htext : text = b :: rest) :
    text.any (floatingMarks (reading text).1).contains = true ↔ IsFloating text := by
  have hmark : text.any (floatingMarks (reading text).1).contains = true ↔
      ∃ mark ∈ floatingMarks (reading text).1, mark ∈ text := by
    simp only [List.any_eq_true, List.contains_iff_mem, and_comm]
  rw [hmark, floatingMarks, IsFloating]
  by_cases hhex : IsHexadecimal text
  · rw [if_pos ((reading_spec htext).1.2 hhex), if_pos hhex]
    simp
  · rw [if_neg (mt (reading_spec htext).1.1 hhex), if_neg hhex]
    simp

/-! ## Reading a constant -/

/-- A zero in front of the other digits does not change a number. -/
theorem spelledNumber_zero_cons (r : Nat) (digits : Bytes) :
    spelledNumber r (zero :: digits) = spelledNumber r digits := by
  have hzero : CharacterConstant.digit zero = 0 := by decide
  rw [spelledNumber, List.reverse_cons, List.map_append, List.map_singleton, hzero,
    Nat.ofDigits_append, Nat.ofDigits_singleton, Nat.mul_zero, Nat.add_zero]
  rfl

/-- No suffix begins with a digit or the mark of a prefix. -/
theorem head_of_mem_suffixes (h : suffix ∈ 1 + suffixes) : ∀ b ∈ suffix.head?,
    isHexDigit b = false ∧ isDigit b = false ∧ b ≠ lowerX ∧ b ≠ upperX := by
  have hlong : ∀ l ∈ longSuffixes, ∀ b ∈ l.head?,
      isHexDigit b = false ∧ isDigit b = false ∧ b ≠ lowerX ∧ b ≠ upperX := by
    decide +kernel
  have hunsigned : ∀ u ∈ unsignedSuffixes, ∀ b ∈ u.head?,
      isHexDigit b = false ∧ isDigit b = false ∧ b ≠ lowerX ∧ b ≠ upperX := by
    decide +kernel
  have hboth : ∀ u ∈ unsignedSuffixes, ∀ l ∈ longSuffixes,
      (u ++ l).head? = u.head? ∧ (l ++ u).head? = l.head? := by decide
  rcases mem_suffixes.1 h with (rfl | hmem) | hmem | ⟨u, hu, l, hl, rfl | rfl⟩
  · exact nofun
  · exact hlong suffix hmem
  · exact hunsigned suffix hmem
  · rw [(hboth u hu l hl).1]
    exact hunsigned u hu
  · rw [(hboth u hu l hl).2]
    exact hlong l hl

theorem dropWhile_append_of_head {p : UInt8 → Bool} (hdigits : ∀ d ∈ digits, p d = true)
    (hsuffix : ∀ b ∈ suffix.head?, p b = false) : (digits ++ suffix).dropWhile p = suffix := by
  rw [List.dropWhile_append_of_pos hdigits]
  cases suffix with
  | nil => rfl
  | cons b suffix => rw [List.dropWhile_cons_of_neg (by simpa using hsuffix b rfl)]

/-- A constant is read as what it is. -/
theorem reading_of_isConstant (h : IsConstant text r digits suffix) :
    ∃ taken, reading text = (r, taken, suffix) ∧ ¬ (r = 16 ∧ taken = []) ∧
      (∀ b ∈ taken, isHexDigit b = true ∧ digitValue b < r) ∧
        spelledNumber r digits = spelledNumber r taken := by
  obtain ⟨body, rfl, hspells, hsuffix⟩ := h
  have hhead := head_of_mem_suffixes hsuffix
  have hdecimal : ∀ b ∈ suffix.head?, isDigit b = false := fun b hb => (hhead b hb).2.1
  cases hspells with
  | @decimal first rest hfirst hne hrest =>
    have hall : ∀ b ∈ first :: rest, isDigit b = true := List.forall_mem_cons.2 ⟨hfirst, hrest⟩
    refine ⟨first :: rest, ?_, by simp, fun b hb =>
      ⟨isHexDigit_of_isDigit (hall b hb), digitValue_lt_of_isDigit b (hall b hb)⟩, rfl⟩
    rw [List.cons_append, reading_decimal hne, ← List.cons_append,
      takeWhile_append_of_head hall hdecimal, dropWhile_append_of_head hall hdecimal]
  | @octal rest hrest =>
    have hall : ∀ b ∈ rest, isDigit b = true := fun b hb => ((isOctalDigit_iff b).1 (hrest b hb)).1
    have hmark : ∀ b ∈ (rest ++ suffix).head?, b ≠ lowerX ∧ b ≠ upperX := by
      cases rest with
      | nil => exact fun b hb => (hhead b hb).2.2
      | cons d rest =>
        rintro _ ⟨⟩
        have hd := hall d List.mem_cons_self
        constructor <;> rintro rfl <;> cases hd
    refine ⟨rest, ?_, by simp, fun b hb =>
      ⟨isHexDigit_of_isDigit (hall b hb), ((isOctalDigit_iff b).1 (hrest b hb)).2⟩,
      spelledNumber_zero_cons 8 rest⟩
    rw [List.cons_append, reading_octal hmark, takeWhile_append_of_head hall hdecimal,
      dropWhile_append_of_head hall hdecimal]
  | hexadecimal hx hne hall =>
    have hhex : ∀ b ∈ suffix.head?, isHexDigit b = false := fun b hb => (hhead b hb).1
    refine ⟨digits, ?_, fun h => hne h.2,
      fun b hb => ⟨hall b hb, digitValue_lt_of_isHexDigit b (hall b hb)⟩, rfl⟩
    rw [List.cons_append, List.cons_append, reading_hexadecimal hx,
      takeWhile_append_of_head hall hhex, dropWhile_append_of_head hall hhex]

/-- What is read is a constant, if its digits are ones of the radix and its suffix is one. -/
theorem isConstant_of_reading {b : UInt8} {rest : Bytes} (htext : text = b :: rest)
    (hfirst : isDigit b = true) (hreading : reading text = (r, taken, suffix))
    (hsuffix : suffix ∈ 1 + suffixes) (hne : ¬ (r = 16 ∧ taken = []))
    (hdigits : ∀ b ∈ taken, digitValue b < r) :
    ∃ digits, IsConstant text r digits suffix ∧ spelledNumber r digits = spelledNumber r taken := by
  rcases radix_cases htext with ⟨x, body, rfl, hx⟩ | ⟨body, rfl, h⟩ | h
  · rw [reading_hexadecimal hx] at hreading
    cases hreading
    refine ⟨_, ⟨zero :: x :: body.takeWhile isHexDigit, ?_, ?_, hsuffix⟩, rfl⟩
    · rw [List.cons_append, List.cons_append, List.takeWhile_append_dropWhile]
    · exact .hexadecimal hx (fun h => hne ⟨rfl, h⟩) fun b hb => List.mem_takeWhile_imp hb
  · rw [reading_octal h] at hreading
    cases hreading
    refine ⟨_, ⟨zero :: body.takeWhile isDigit, ?_, ?_, hsuffix⟩, spelledNumber_zero_cons 8 _⟩
    · rw [List.cons_append, List.takeWhile_append_dropWhile]
    · exact .octal fun b hb =>
        (isOctalDigit_iff b).2 ⟨List.mem_takeWhile_imp hb, hdigits b hb⟩
  · subst htext
    rw [reading_decimal h] at hreading
    cases hreading
    refine ⟨_, ⟨(b :: rest).takeWhile isDigit, ?_, ?_, hsuffix⟩, rfl⟩
    · rw [List.takeWhile_append_dropWhile]
    · rw [List.takeWhile_cons_of_pos hfirst]
      exact .decimal hfirst h fun b hb => List.mem_takeWhile_imp hb

/-! ## The value of a number -/

/-- A number that fits is the number of its bits. -/
theorem toInt_ofNat {n : Nat} {unsigned : Bool} (hn : n < 2 ^ 64)
    (hsigned : unsigned = false → n < 2 ^ 63) :
    (Value.mk (BitVec.ofNat 64 n) unsigned).toInt = n := by
  cases unsigned with
  | true => exact congrArg Int.ofNat ((BitVec.toNat_ofNat n 64).trans (Nat.mod_eq_of_lt hn))
  | false =>
    have hlt := hsigned rfl
    change (BitVec.ofNat 64 n).toInt = n
    rw [BitVec.toInt_ofNat', Int.bmod_def]
    omega

/-- The value of a constant, if its number has at most 64 bits. -/
theorem evaluate_of_isConstant {b : UInt8} {rest : Bytes} (htext : text = b :: rest)
    (hfloating : ¬ IsFloating text) (h : IsConstant text r digits suffix) : evaluate text =
      if spelledNumber r digits < 2 ^ 64 then
        .ok ⟨BitVec.ofNat 64 (spelledNumber r digits),
          decide (lowerU ∈ suffix ∨ upperU ∈ suffix ∨ 2 ^ 63 ≤ spelledNumber r digits)⟩
      else .error (.integerTooLarge text.toText) := by
  obtain ⟨taken, hreading, hne, hdigits, hspelled⟩ := reading_of_isConstant h
  obtain ⟨body, -, hspells, hsuffix⟩ := h
  have hmark : isUnsigned? suffix = some (decide (lowerU ∈ suffix ∨ upperU ∈ suffix)) :=
    isUnsigned?_eq_some_iff.2 ⟨hsuffix, decide_eq_true_iff⟩
  have hradix : 0 < r := by
    cases hspells <;> decide
  have hfloat : ¬ text.any (floatingMarks r).contains = true := by
    have := mt (any_floatingMarks htext).1 hfloating
    rwa [hreading] at this
  rw [evaluate_of_reading hreading, if_neg hfloat, if_neg hne, hmark]
  dsimp only
  rw [valueFrom_of_forall hradix (fun b hb => (hdigits b hb).2) (by decide), hspelled,
    ← number_eq_spelledNumber r fun b hb => (hdigits b hb).1]
  change (if number r taken < 2 ^ 64 then _ else _ : Except Cause Nat).map _ = _
  split
  · simp only [Except.map, Bool.decide_or, Bool.or_assoc]
    rfl
  · rfl

/-- A number that has a value is a constant. -/
theorem exists_isConstant_of_evaluate {b : UInt8} {rest : Bytes} (htext : text = b :: rest)
    (hfirst : isDigit b = true) {value : Value} (h : evaluate text = .ok value) :
    ∃ r digits suffix, IsConstant text r digits suffix := by
  rcases hreading : reading text with ⟨r, taken, suffix⟩
  rw [evaluate_of_reading hreading] at h
  split at h
  · cases h
  split at h
  · cases h
  next hne =>
  split at h
  · cases h
  next unsigned hunsigned =>
  cases hvalue : valueFrom r (.invalidInteger text.toText) (.integerTooLarge text.toText) 0
    taken with
  | error c =>
    rw [hvalue] at h
    cases h
  | ok n =>
    obtain ⟨digits, hconstant, -⟩ := isConstant_of_reading htext hfirst hreading
      (isUnsigned?_eq_some_iff.1 hunsigned).1 hne (digitValue_lt_of_valueFrom hvalue)
    exact ⟨r, digits, suffix, hconstant⟩

/-- A number without a suffix where one could be is no constant. -/
theorem evaluate_of_suffixOf {b : UInt8} {rest : Bytes} (htext : text = b :: rest)
    (hfloating : ¬ IsFloating text) (h : suffixOf text ∉ 1 + suffixes) :
    evaluate text = .error (.invalidInteger text.toText) := by
  rcases hreading : reading text with ⟨r, taken, suffix⟩
  have hfloat := mt (any_floatingMarks htext).1 hfloating
  rw [← (reading_spec htext).2] at h
  rw [hreading] at hfloat h
  have hmark : isUnsigned? suffix = none :=
    Option.eq_none_iff_forall_ne_some.2 fun unsigned hsome =>
      h (isUnsigned?_eq_some_iff.1 hsome).1
  rw [evaluate_of_reading hreading, if_neg hfloat, hmark]
  split <;> rfl

/-- A number that is no floating constant begins with a digit. -/
theorem exists_cons_of_accepts (h : Lexeme.number.accepts text = true) :
    ∃ b rest, text = b :: rest ∧ (¬ IsFloating text → isDigit b = true) := by
  have hmem : text ∈ Lexeme.numbers := (Lexeme.Kind.accepts_iff .number text).1 h
  cases text with
  | nil => cases h
  | cons b rest =>
    refine ⟨b, rest, rfl, fun hfloating => ?_⟩
    rcases Lexeme.head_of_mem_numbers hmem with hdigit | rfl
    · exact hdigit
    · exact absurd (.inl List.mem_cons_self) hfloating

/-- **Which numbers are integer constants.** A preprocessing number with a mark of floating
constants is one. Any other has a value if and only if it consists of digits of its radix and a
suffix, or none, and the number that the digits spell has at most 64 bits. This number is the value,
which is unsigned if and only if the suffix says so or the number does not fit the signed type. If
the number is too large or the suffix is none, this is the error. -/
theorem evaluate_exact (h : Lexeme.number.accepts text = true) :
    (IsFloating text → evaluate text = .error (.disallowed "floating constant")) ∧
    (¬ IsFloating text →
      (∀ value, evaluate text = .ok value ↔
        ∃ radix digits suffix, IsConstant text radix digits suffix ∧
          spelledNumber radix digits < 2 ^ 64 ∧ value.toInt = spelledNumber radix digits ∧
          (value.unsigned = true ↔ lowerU ∈ suffix ∨ upperU ∈ suffix ∨
            2 ^ 63 ≤ spelledNumber radix digits)) ∧
      (∀ radix digits suffix, IsConstant text radix digits suffix →
        2 ^ 64 ≤ spelledNumber radix digits →
          evaluate text = .error (.integerTooLarge text.toText)) ∧
      (suffixOf text ∉ 1 + suffixes → evaluate text = .error (.invalidInteger text.toText)) ∧
      ∀ cause, evaluate text = .error cause →
        cause = .invalidInteger text.toText ∨ cause = .integerTooLarge text.toText) := by
  obtain ⟨b, rest, htext, hfirst⟩ := exists_cons_of_accepts h
  refine ⟨fun hfloating => ?_, fun hfloating => ⟨fun value => ⟨fun hvalue => ?_, ?_⟩,
    fun r digits suffix hconstant hlarge => ?_, evaluate_of_suffixOf htext hfloating,
    fun cause hcause => ?_⟩⟩
  · have hevaluate : evaluate text = if text.any (floatingMarks (reading text).1).contains then _
        else _ := evaluate_of_reading rfl
    rw [hevaluate, if_pos ((any_floatingMarks htext).2 hfloating)]
  · obtain ⟨r, digits, suffix, hconstant⟩ :=
      exists_isConstant_of_evaluate htext (hfirst hfloating) hvalue
    rw [evaluate_of_isConstant htext hfloating hconstant] at hvalue
    split at hvalue
    · next hlt =>
      cases hvalue
      refine ⟨r, digits, suffix, hconstant, hlt, toInt_ofNat hlt fun hsigned => ?_,
        decide_eq_true_iff⟩
      exact Nat.lt_of_not_le fun hle => of_decide_eq_false hsigned (.inr (.inr hle))
    · cases hvalue
  · rintro ⟨r, digits, suffix, hconstant, hlt, hnumber, hunsigned⟩
    rw [evaluate_of_isConstant htext hfloating hconstant, if_pos hlt]
    have hbits := value.ofInt_toInt_bits
    rw [hnumber, BitVec.ofInt_natCast] at hbits
    rw [hbits, ← Bool.eq_iff_iff.2 (hunsigned.trans decide_eq_true_iff.symm)]
  · rw [evaluate_of_isConstant htext hfloating hconstant, if_neg (Nat.not_lt.2 hlarge)]
  · refine (cause_of_evaluate hcause).resolve_left fun hfloat => hfloating ?_
    exact (any_floatingMarks htext).1 hfloat.1

/-- An `F` is a digit behind `0x`, where `u` is not. -/
theorem evaluate_hexadecimalUnsigned :
    Lexeme.number.accepts (Bytes.ofString "0x1Full") = true ∧
      evaluate (Bytes.ofString "0x1Full") = .ok (Value.ofNat 31) := by
  have haccepts : Lexeme.number.accepts (Bytes.ofString "0x1Full") = true := by decide
  have hfloating : ¬ IsFloating (Bytes.ofString "0x1Full") := by decide
  have hunsigned : isUnsigned? (Bytes.ofString "ull") = some true := by decide
  have hsuffix : Bytes.ofString "ull" ∈ 1 + suffixes := (isUnsigned?_eq_some_iff.1 hunsigned).1
  have hspells : Spells (Bytes.ofString "0x1F") 16 (Bytes.ofString "1F") :=
    .hexadecimal (.inl rfl) (by decide) (by decide +kernel)
  exact ⟨haccepts, (((evaluate_exact haccepts).2 hfloating).1 _).2
    ⟨16, Bytes.ofString "1F", Bytes.ofString "ull", ⟨_, rfl, hspells, hsuffix⟩, by decide,
      by decide, by decide⟩⟩

end CPreprocessor.IntegerConstant
