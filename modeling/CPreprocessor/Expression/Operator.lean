import CPreprocessor.Diagnostic
import CPreprocessor.Phrase.Basic
import CPreprocessor.Value

/-!
# Operators on values

Binary operators convert their operands to a common type first: if either is unsigned, both are.
As the conversion keeps the bits, only division, comparison and shifts to the right have to know
the type. Results are reduced to 64 bits.

The operations on bits that this takes (`Bits`) do not all have a result: there is none of a
division by zero, nor of a shift by as many places as there are bits.
-/

namespace CPreprocessor

/-! ## Bits -/

/-- The bits of a value. -/
abbrev Bits := BitVec 64

namespace Bits

/-- The quotient of two numbers. -/
def quotient (unsigned : Bool) (a b : Bits) : Except Cause Bits :=
  if b = 0 then .error (.undefined .quotient)
  else .ok (if unsigned then a.udiv b else a.sdiv b)

/-- The remainder of two numbers. -/
def remainder (unsigned : Bool) (a b : Bits) : Except Cause Bits :=
  if b = 0 then .error (.undefined .remainder)
  else .ok (if unsigned then a.umod b else a.srem b)

/-- Bits shifted to the left, unless none of them is left. -/
def shiftLeft? (a : Bits) (places : Nat) : Option Bits :=
  if places < 64 then some (a <<< places) else none

/-- Bits shifted to the right, unless none of them is left. -/
def shiftRight? (a : Bits) (places : Nat) : Option Bits :=
  if places < 64 then some (a >>> places) else none

/-- Bits shifted to the right, with copies of the sign in front of them. -/
def shiftRightSigned (a : Bits) (places : Nat) : Except Cause Bits :=
  if places < 64 then .ok (a.sshiftRight places) else .error (.undefined .shiftRight)

end Bits

/-- What a unary operator does to a value. The operators on objects have none to work on. -/
def UnaryOperator.apply? : UnaryOperator → Option (Value → Value)
  | .plus => some fun v => v
  | .minus => some fun v => { v with bits := -v.bits }
  | .complement => some fun v => { v with bits := ~~~v.bits }
  | .not => some fun v => .ofBool !v.isTrue
  | .addressOf | .dereference => none

namespace BinaryOperator

/-- Whether an operator divides. -/
def divides (operator : BinaryOperator) : Bool := operator = .divide || operator = .remainder

/-- The bits that an arithmetic or bitwise operator gives on operands of one type. -/
def bits (unsigned : Bool) (a b : Bits) : BinaryOperator → Except Cause Bits
  | .multiply => .ok (a * b)
  | .divide => Bits.quotient unsigned a b
  | .remainder => Bits.remainder unsigned a b
  | .add => .ok (a + b)
  | .subtract => .ok (a - b)
  | .bitAnd => .ok (a &&& b)
  | .bitXor => .ok (a ^^^ b)
  | .bitOr => .ok (a ||| b)
  | _ => .ok 0

/-- Whether a comparison holds of two operands of one type; none for other operators. -/
def compare? (unsigned : Bool) (a b : Bits) : BinaryOperator → Option Bool
  | .less => some (lessThan a b)
  | .greater => some (lessThan b a)
  | .lessEqual => some !(lessThan b a)
  | .greaterEqual => some !(lessThan a b)
  | .equal => some (a == b)
  | .notEqual => some (a != b)
  | _ => none
where
  lessThan (a b : Bits) : Bool := if unsigned then a.ult b else a.slt b

end BinaryOperator

namespace Value

/-- A value shifted to the left. -/
def shiftLeft (v : Value) (places : Nat) : Value :=
  { v with bits := (Bits.shiftLeft? v.bits places).getD 0 }

/-- A value shifted to the right. After 63 places, more of them make no difference to a signed
one. -/
def shiftRight (v : Value) (places : Nat) : Except Cause Value :=
  if v.unsigned then .ok { v with bits := (Bits.shiftRight? v.bits places).getD 0 }
  else do return { v with bits := ← Bits.shiftRightSigned v.bits (min places 63) }

/-- A value shifted by the number that another one is, to the left or to the right. A negative
number shifts the other way. The places are counted in 32 bits, and those that do not fit are left
out. The result has the type of the value shifted. -/
def shift (left : Bool) (v amount : Value) : Except Cause Value :=
  let places := min amount.toInt.natAbs 0xFFFFFFFF
  if left = decide (0 ≤ amount.toInt) then .ok (v.shiftLeft places) else v.shiftRight places

end Value

/-- The value of an operator that evaluates both its operands. A division by zero is an error only
in an operand that is used (`live`). -/
def BinaryOperator.apply (operator : BinaryOperator) (live : Bool) (a b : Value) :
    Except Cause Value :=
  let unsigned := a.unsigned || b.unsigned
  if operator = .shiftLeft then a.shift true b
  else if operator = .shiftRight then a.shift false b
  else match operator.compare? unsigned a.bits b.bits with
    | some holds => .ok (.ofBool holds)
    | none =>
      if operator.divides ∧ !b.isTrue then
        if live then .error .divisionByZero else .ok ⟨0, unsigned⟩
      else do return ⟨← operator.bits unsigned a.bits b.bits, unsigned⟩

end CPreprocessor
