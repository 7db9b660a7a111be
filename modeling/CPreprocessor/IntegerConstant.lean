import CPreprocessor.Diagnostic
import CPreprocessor.Text.Utf8
import CPreprocessor.Value

/-!
# Integer constants

A preprocessing number is an integer constant if it consists of digits of a radix and a suffix. The
constant is unsigned if its suffix says so or if it does not fit the signed type.
-/

namespace CPreprocessor.IntegerConstant

open Ascii

/-- The radix of a constant, and the constant without the prefix that tells it. -/
def radix : Bytes → Nat × Bytes
  | zero :: rest =>
    match rest with
    | lowerX :: digits => (16, digits)
    | upperX :: digits => (16, digits)
    | digits => (8, digits)
  | digits => (10, digits)

/-- The bytes that make a number a floating constant of the given radix. -/
def floatingMarks (radix : Nat) : Bytes :=
  if radix = 16 then [dot, lowerP, upperP] else [dot, lowerE, upperE]

/-- The suffixes that make a constant long. -/
def longSuffixes : List Bytes := ["l", "L", "ll", "LL"].map Bytes.ofString

/-- The suffixes that make a constant unsigned. -/
def unsignedSuffixes : List Bytes := ["u", "U"].map Bytes.ofString

/-- Whether a suffix makes a constant unsigned; none if it is not a suffix. The two parts of a
suffix may come in either order. -/
def isUnsigned? (suffix : Bytes) : Option Bool :=
  if suffix = [] ∨ longSuffixes.contains suffix then some false
  else if unsignedSuffixes.contains suffix ∨
      unsignedSuffixes.any (fun u => longSuffixes.any fun l => suffix = u ++ l || suffix = l ++ u)
    then some true
  else none

/-- Whether a byte is among the digits of a constant, be it valid in the radix or not. -/
def isDigitIn (radix : Nat) (b : UInt8) : Bool := if radix = 16 then isHexDigit b else isDigit b

/-- Values are below this. -/
def limit : Nat := 0x1_0000_0000_0000_0000

/-- Signed values are below this. -/
def signedLimit : Nat := 0x8000_0000_0000_0000

/-- The number that some digits spell after a number that was read before. A digit that is not one
of the radix and a number of more than 64 bits are errors, whichever comes first. -/
def valueFrom (radix : Nat) (invalid tooLarge : Cause) (value : Nat) : Bytes → Except Cause Nat
  | [] => .ok value
  | b :: rest =>
    if radix ≤ digitValue b then .error invalid
    else
      let value := value * radix + digitValue b
      if limit ≤ value then .error tooLarge else valueFrom radix invalid tooLarge value rest

/-- The value of a preprocessing number. -/
def evaluate (text : Bytes) : Except Cause Value := do
  let invalid := Cause.invalidInteger text.toText
  let (radix, body) := radix text
  if text.any (floatingMarks radix).contains then
    throw (.disallowed "floating constant")
  let digits := body.takeWhile (isDigitIn radix)
  if radix = 16 ∧ digits = [] then throw invalid
  match isUnsigned? (body.dropWhile (isDigitIn radix)) with
  | none => throw invalid
  | some unsigned =>
    let value ← valueFrom radix invalid (.integerTooLarge text.toText) 0 digits
    return ⟨BitVec.ofNat 64 value, unsigned || signedLimit ≤ value⟩

end CPreprocessor.IntegerConstant
