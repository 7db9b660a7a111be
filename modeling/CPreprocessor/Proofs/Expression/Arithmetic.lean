import CPreprocessor.Expression.Operator
import Mathlib.Data.Rat.Floor

/-!
# Exact arithmetic

Operators work on 64 bits, but what they give is said in integers: the exact result on the
converted operands, reduced to the type of the result. No operation on bits is left without a
result, whatever the operands are.
-/

namespace CPreprocessor

namespace Value

/-! ## Integers and values -/

/-- The value of one of the two types that an integer is reduced to. -/
def ofInt (unsigned : Bool) (n : Int) : Value := ⟨BitVec.ofInt 64 n, unsigned⟩

/-- A value converted to one of the two types. -/
def convert (unsigned : Bool) (v : Value) : Value := .ofInt unsigned v.toInt

/-- A binary digit of the number that a value is. A negative number has those of its two's
complement. -/
def digit (v : Value) (i : Nat) : Bool := v.toInt / 2 ^ i % 2 = 1

variable {v a b : Value} {unsigned : Bool} {n : Int}

theorem toInt_ofInt (unsigned : Bool) (n : Int) :
    (ofInt unsigned n).toInt = if unsigned then n % 2 ^ 64 else n.bmod (2 ^ 64) := by
  cases unsigned with
  | true =>
    have hnonneg : 0 ≤ n % 2 ^ 64 := Int.emod_nonneg n (by decide)
    simpa [ofInt, toInt, BitVec.toNat_ofInt] using hnonneg
  | false => exact BitVec.toInt_ofInt ..

/-- The number of a value has the bits of the value. -/
theorem ofInt_toInt_bits (v : Value) : BitVec.ofInt 64 v.toInt = v.bits := by
  unfold toInt
  split
  · rw [BitVec.ofInt_natCast, BitVec.ofNat_toNat, BitVec.setWidth_eq]
  · exact BitVec.ofInt_toInt

@[simp] theorem unsigned_convert : (v.convert unsigned).unsigned = unsigned := rfl

/-- Conversion keeps the bits. -/
@[simp] theorem bits_convert : (v.convert unsigned).bits = v.bits := ofInt_toInt_bits v

theorem toInt_convert (unsigned : Bool) (v : Value) :
    (v.convert unsigned).toInt = if unsigned then (v.bits.toNat : Int) else v.bits.toInt := by
  rw [toInt, unsigned_convert, bits_convert]

theorem ofInt_toInt_convert : BitVec.ofInt 64 (v.convert unsigned).toInt = v.bits := by
  rw [ofInt_toInt_bits, bits_convert]

theorem toInt_eq_zero_iff (v : Value) : v.toInt = 0 ↔ v.bits = 0 := by
  constructor
  · intro h
    rw [← ofInt_toInt_bits, h]
    rfl
  · intro h
    unfold toInt
    split <;> rw [h] <;> rfl

theorem ofInt_two_pow (k : Nat) : BitVec.ofInt 64 (2 ^ k) = BitVec.twoPow 64 k := by
  apply BitVec.eq_of_toNat_eq
  rw [BitVec.toNat_twoPow, BitVec.toNat_ofInt]
  norm_cast

theorem getD_shiftLeft? (x : Bits) (k : Nat) : (Bits.shiftLeft? x k).getD 0 = x <<< k := by
  unfold Bits.shiftLeft?
  split
  · rfl
  · next h => exact (BitVec.shiftLeft_eq_zero (Nat.not_lt.1 h)).symm

theorem getD_shiftRight? (x : Bits) (k : Nat) : (Bits.shiftRight? x k).getD 0 = x >>> k := by
  unfold Bits.shiftRight?
  split
  · rfl
  · next h => exact (BitVec.ushiftRight_eq_zero (Nat.not_lt.1 h)).symm

/-- There are never too many places in the shift of a signed value. -/
theorem shiftRightSigned_min (x : Bits) (k : Nat) :
    Bits.shiftRightSigned x (min k 63) = .ok (x.sshiftRight k) := by
  rw [Bits.shiftRightSigned, if_pos (by omega)]
  obtain hk | hk := Nat.le_total k 63
  · rw [Nat.min_eq_left hk]
  · -- only copies of the sign are left
    refine congrArg Except.ok (BitVec.eq_of_getLsbD_eq fun i hi => ?_)
    rw [BitVec.getLsbD_sshiftRight, BitVec.getLsbD_sshiftRight, Nat.min_eq_right hk,
      decide_eq_false (Nat.not_le.2 hi)]
    obtain rfl | hpos := Nat.eq_zero_or_pos i
    · obtain rfl | hlt := Nat.eq_or_lt_of_le hk
      · rfl
      · rw [if_pos (by omega), if_neg (by omega), BitVec.msb_eq_getLsbD_last]
    · rw [if_neg (by omega), if_neg (by omega)]

theorem shiftLeft_eq (v : Value) (k : Nat) :
    v.shiftLeft k = ofInt v.unsigned (v.toInt * 2 ^ k) := by
  rw [shiftLeft, getD_shiftLeft?, ofInt, BitVec.ofInt_mul, ofInt_toInt_bits, ofInt_two_pow,
    BitVec.shiftLeft_eq_mul_twoPow]

theorem ushiftRight_eq (x : Bits) (k : Nat) :
    x >>> k = BitVec.ofInt 64 ((x.toNat : Int) / 2 ^ k) := by
  have hdiv : ((x.toNat : Int) / 2 ^ k) = ((x.toNat / 2 ^ k : Nat) : Int) := by norm_cast
  rw [hdiv, BitVec.ofInt_natCast]
  apply BitVec.eq_of_toNat_eq
  have hlt : x.toNat / 2 ^ k < 2 ^ 64 := (Nat.div_le_self _ _).trans_lt x.isLt
  rw [BitVec.toNat_ushiftRight, BitVec.toNat_ofNat, Nat.mod_eq_of_lt hlt, Nat.shiftRight_eq_div_pow]

theorem sshiftRight_eq (x : Bits) (k : Nat) :
    x.sshiftRight k = BitVec.ofInt 64 (x.toInt / 2 ^ k) := by
  have hdiv : x.toInt / 2 ^ k = (x.sshiftRight k).toInt := by
    rw [BitVec.toInt_sshiftRight, Int.shiftRight_eq_div_pow]
    norm_cast
  rw [hdiv, BitVec.ofInt_toInt]

theorem shiftRight_eq (v : Value) (k : Nat) :
    v.shiftRight k = .ok (ofInt v.unsigned (v.toInt / 2 ^ k)) := by
  unfold shiftRight ofInt toInt
  split
  · rw [getD_shiftRight?, ushiftRight_eq]
  · rw [shiftRightSigned_min, sshiftRight_eq]
    rfl

/-- All bits are gone long before the places do not fit. -/
theorem shiftLeft_min (v : Value) (k : Nat) : v.shiftLeft (min k 0xFFFFFFFF) = v.shiftLeft k := by
  obtain hk | hk := Nat.le_total k 0xFFFFFFFF
  · rw [Nat.min_eq_left hk]
  · rw [Nat.min_eq_right hk, shiftLeft, shiftLeft, getD_shiftLeft?, getD_shiftLeft?,
      BitVec.shiftLeft_eq_zero (by decide), BitVec.shiftLeft_eq_zero (by omega)]

theorem shiftRight_min (v : Value) (k : Nat) :
    v.shiftRight (min k 0xFFFFFFFF) = v.shiftRight k := by
  have hsigned : min (min k 0xFFFFFFFF) 63 = min k 63 := by omega
  rw [shiftRight, shiftRight, getD_shiftRight?, getD_shiftRight?, hsigned]
  obtain hk | hk := Nat.le_total k 0xFFFFFFFF
  · rw [Nat.min_eq_left hk]
  · rw [Nat.min_eq_right hk, BitVec.ushiftRight_eq_zero (by decide),
      BitVec.ushiftRight_eq_zero (by omega)]

theorem floor_mul_two_pow (n : Int) (k : Nat) : ⌊(n : ℚ) * 2 ^ (k : Int)⌋ = n * 2 ^ k := by
  rw [zpow_natCast]
  exact_mod_cast Int.floor_intCast (n * 2 ^ k)

theorem floor_mul_two_pow_neg (n : Int) (k : Nat) : ⌊(n : ℚ) * 2 ^ (-(k : Int))⌋ = n / 2 ^ k := by
  rw [zpow_neg, zpow_natCast, ← div_eq_mul_inv]
  exact_mod_cast Rat.floor_intCast_div_natCast n (2 ^ k)

/-- **A shift multiplies by a power of two**, and what is left of a fraction is cut off. -/
theorem shift_eq (left : Bool) (v amount : Value) :
    v.shift left amount = .ok (ofInt v.unsigned
      ⌊(v.toInt : ℚ) * 2 ^ (if left then amount.toInt else -amount.toInt)⌋) := by
  rw [shift, shiftLeft_min, shiftRight_min]
  obtain hle | hlt := le_or_gt 0 amount.toInt
  · obtain ⟨k, hk⟩ := Int.eq_ofNat_of_zero_le hle
    rw [decide_eq_true hle, hk, Int.natAbs_natCast]
    cases left with
    | true => rw [if_pos rfl, if_pos rfl, shiftLeft_eq, floor_mul_two_pow]
    | false =>
      rw [if_neg Bool.false_ne_true, if_neg Bool.false_ne_true, shiftRight_eq,
        floor_mul_two_pow_neg]
  · obtain ⟨k, hk⟩ := Int.exists_eq_neg_ofNat hlt.le
    rw [decide_eq_false hlt.not_ge, hk, Int.natAbs_neg, Int.natAbs_natCast, neg_neg]
    cases left with
    | true =>
      rw [if_neg Bool.false_ne_true.symm, if_pos rfl, shiftRight_eq, floor_mul_two_pow_neg]
    | false => rw [if_pos rfl, if_neg Bool.false_ne_true, shiftLeft_eq, floor_mul_two_pow]

end Value

namespace BinaryOperator

/-! ## What operators give in integers -/

/-- What an arithmetic operator is on integers. Division truncates. -/
def onIntegers? : BinaryOperator → Option (Int → Int → Int)
  | .multiply => some fun x y => x * y
  | .divide => some Int.tdiv
  | .remainder => some Int.tmod
  | .add => some fun x y => x + y
  | .subtract => some fun x y => x - y
  | _ => none

/-- The power of two that a shift by an integer multiplies by. -/
def exponent? : BinaryOperator → Option (Int → Int)
  | .shiftLeft => some fun k => k
  | .shiftRight => some fun k => -k
  | _ => none

variable {operator : BinaryOperator} {unsigned live : Bool} {a b : Value}

theorem quotient_eq (h : b.bits ≠ 0) :
    Bits.quotient unsigned a.bits b.bits =
      .ok (BitVec.ofInt 64 ((a.convert unsigned).toInt.tdiv (b.convert unsigned).toInt)) := by
  rw [Bits.quotient, if_neg h, Value.toInt_convert, Value.toInt_convert]
  refine congrArg Except.ok ?_
  split
  · rw [← Int.ofNat_tdiv, BitVec.ofInt_natCast, BitVec.udiv_eq, BitVec.udiv_def]
  · apply BitVec.eq_of_toInt_eq
    rw [BitVec.toInt_sdiv, BitVec.toInt_ofInt]

theorem remainder_eq (h : b.bits ≠ 0) :
    Bits.remainder unsigned a.bits b.bits =
      .ok (BitVec.ofInt 64 ((a.convert unsigned).toInt.tmod (b.convert unsigned).toInt)) := by
  rw [Bits.remainder, if_neg h, Value.toInt_convert, Value.toInt_convert]
  refine congrArg Except.ok ?_
  split
  · rw [← Int.ofNat_tmod, BitVec.ofInt_natCast, BitVec.umod_eq, BitVec.umod_def]
  · rw [← BitVec.toInt_srem, BitVec.ofInt_toInt]

theorem bits_of_onIntegers? {f : Int → Int → Int} (h : operator.onIntegers? = some f)
    (hdivisor : operator.divides = true → b.toInt ≠ 0) :
    operator.bits unsigned a.bits b.bits =
      .ok (BitVec.ofInt 64 (f (a.convert unsigned).toInt (b.convert unsigned).toInt)) := by
  rw [Ne, Value.toInt_eq_zero_iff] at hdivisor
  cases operator <;> simp only [onIntegers?, Option.some.injEq, reduceCtorEq] at h <;> subst h
  case multiply =>
    rw [BitVec.ofInt_mul, Value.ofInt_toInt_convert, Value.ofInt_toInt_convert, bits]
  case add =>
    rw [BitVec.ofInt_add, Value.ofInt_toInt_convert, Value.ofInt_toInt_convert, bits]
  case subtract =>
    dsimp only
    rw [sub_eq_add_neg, BitVec.ofInt_add, BitVec.ofInt_neg, Value.ofInt_toInt_convert,
      Value.ofInt_toInt_convert, bits, BitVec.sub_eq_add_neg]
  case divide => exact quotient_eq (hdivisor rfl)
  case remainder => exact remainder_eq (hdivisor rfl)

/-- Whether an operator works on the bits of converted operands. -/
def calculates : BinaryOperator → Bool
  | .multiply | .divide | .remainder | .add | .subtract | .bitAnd | .bitXor | .bitOr => true
  | _ => false

/-- An operator that does not shift compares, or it works on the bits unless it divides by zero. -/
theorem apply_of_exponent?_eq_none (h : operator.exponent? = none) :
    operator.apply live a b =
      match operator.compare? (a.unsigned || b.unsigned) a.bits b.bits with
      | some holds => .ok (.ofBool holds)
      | none =>
        if operator.divides = true ∧ b.toInt = 0 then
          if live then .error .divisionByZero else .ok (.ofInt (a.unsigned || b.unsigned) 0)
        else
          operator.bits (a.unsigned || b.unsigned) a.bits b.bits >>= fun x =>
            .ok ⟨x, a.unsigned || b.unsigned⟩ := by
  have hleft : operator ≠ .shiftLeft := by
    rintro rfl
    cases h
  have hright : operator ≠ .shiftRight := by
    rintro rfl
    cases h
  have hzero : (!b.isTrue) = true ↔ b.toInt = 0 := by
    rw [Value.toInt_eq_zero_iff, Bool.not_eq_true', Value.isTrue, bne_eq_false_iff_eq]
  simp only [apply, if_neg hleft, if_neg hright, hzero]
  rfl

/-- **An operator that calculates works on the bits**, unless it divides by zero. -/
theorem apply_of_calculates (h : operator.calculates = true) :
    operator.apply live a b =
      if operator.divides = true ∧ b.toInt = 0 then
        if live then .error .divisionByZero else .ok (.ofInt (a.unsigned || b.unsigned) 0)
      else
        operator.bits (a.unsigned || b.unsigned) a.bits b.bits >>= fun x =>
          .ok ⟨x, a.unsigned || b.unsigned⟩ := by
  have hshift : operator.exponent? = none := by
    cases operator <;> first | rfl | cases h
  have hcompare : operator.compare? (a.unsigned || b.unsigned) a.bits b.bits = none := by
    cases operator <;> first | rfl | cases h
  rw [apply_of_exponent?_eq_none hshift, hcompare]

theorem apply_of_onIntegers? {f : Int → Int → Int} (h : operator.onIntegers? = some f)
    (hdivisor : operator.divides = true → b.toInt ≠ 0) :
    operator.apply live a b = .ok (.ofInt (a.unsigned || b.unsigned)
      (f (a.convert (a.unsigned || b.unsigned)).toInt
        (b.convert (a.unsigned || b.unsigned)).toInt)) := by
  have hcalculates : operator.calculates = true := by
    cases operator <;> first | rfl | cases h
  rw [apply_of_calculates hcalculates, if_neg fun hzero => hdivisor hzero.1 hzero.2,
    bits_of_onIntegers? h hdivisor]
  rfl

theorem apply_of_exponent? {f : Int → Int} (h : operator.exponent? = some f) :
    operator.apply live a b = .ok (.ofInt a.unsigned ⌊(a.toInt : ℚ) * 2 ^ f b.toInt⌋) := by
  cases operator <;> simp only [exponent?, Option.some.injEq, reduceCtorEq] at h <;> subst h
  case shiftLeft => exact Value.shift_eq true a b
  case shiftRight => exact Value.shift_eq false a b

/-- An operator has a value unless it divides by zero. -/
theorem exists_apply_eq_ok (hdivisor : operator.divides = true → b.toInt ≠ 0) :
    ∃ v, operator.apply live a b = .ok v := by
  cases operator with
  | divide | remainder => exact ⟨_, apply_of_onIntegers? rfl hdivisor⟩
  | shiftLeft | shiftRight => exact ⟨_, apply_of_exponent? rfl⟩
  | _ => exact ⟨_, rfl⟩

/-- **An operator fails only where it divides by zero** in an operand that is used. The operations
on bits that it takes have a result there. -/
theorem apply_eq_error_iff (operator : BinaryOperator) (live : Bool) (a b : Value) (cause : Cause) :
    operator.apply live a b = .error cause ↔
      operator.divides = true ∧ b.toInt = 0 ∧ live = true ∧ cause = .divisionByZero := by
  have hcalculates (h : operator.divides = true) : operator.calculates = true := by
    cases operator <;> first | rfl | cases h
  by_cases hzero : operator.divides = true ∧ b.toInt = 0
  · rw [apply_of_calculates (hcalculates hzero.1), if_pos hzero]
    cases live <;> simp [hzero, eq_comm]
  · have hvalue : ∃ v, operator.apply live a b = .ok v :=
      exists_apply_eq_ok fun hdivides hb => hzero ⟨hdivides, hb⟩
    obtain ⟨v, hv⟩ := hvalue
    rw [hv]
    exact iff_of_false nofun fun h => hzero ⟨h.1, h.2.1⟩

end BinaryOperator

namespace UnaryOperator

variable (v : Value)

end UnaryOperator

/-! ## Exactness -/

/-- The one quotient of signed values that is out of range, and a shift by a huge amount. -/
example : BinaryOperator.divide.apply true (.signed (-2 ^ 63)) (.signed (-1)) =
      .ok (.signed (-2 ^ 63)) ∧
    BinaryOperator.shiftRight.apply true (.signed (-1)) (.ofNat (2 ^ 64 - 1)) =
      .ok (.signed (-1)) := by
  decide +kernel

end CPreprocessor
