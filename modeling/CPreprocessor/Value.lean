/-!
# The values of constant expressions

In a directive every signed integer type is as wide as the widest one, and so is every unsigned
one. A value is therefore one of 64 bits with a signedness; its number is `Value.toInt`. Conversion
between the two types keeps the bits.
-/

namespace CPreprocessor

/-- An integer of 64 bits, signed or unsigned. -/
structure Value where
  bits : BitVec 64
  unsigned : Bool
  deriving DecidableEq

namespace Value

/-- The signed value of an integer, reduced to 64 bits. -/
def signed (n : Int) : Value := ⟨BitVec.ofInt 64 n, false⟩

/-- The unsigned value of a natural number, reduced to 64 bits. -/
def ofNat (n : Nat) : Value := ⟨BitVec.ofNat 64 n, true⟩

/-- The number that a value is. -/
def toInt (v : Value) : Int := if v.unsigned then v.bits.toNat else v.bits.toInt

/-- The value of a comparison. -/
def ofBool (b : Bool) : Value := signed (if b then 1 else 0)

/-- Whether a value counts as true. -/
def isTrue (v : Value) : Bool := v.bits != 0

end Value

end CPreprocessor
