import CPreprocessor.Ascii

/-!
# Universal character names

A universal character name is `\u` and four hexadecimal digits or `\U` and eight. It occurs inside
identifiers, numbers and literals only, so it is not an automaton of its own: `step` reads one byte
of a name whose backslash has been read, and `feed` embeds that step into the automaton around it.
-/

namespace CPreprocessor.Lexeme.UniversalName

open Ascii

/-- What has been read of a name, its backslash included. -/
inductive Progress
  | backslash
  /-- So many digits are missing after the next one; the digits so far have this value. -/
  | digits (later value : Nat)
  deriving DecidableEq

/-- The code points that a token may name: `$`, `@`, the grave accent, and those from U+00A0 on. -/
def isAcceptable (codePoint : Nat) : Bool :=
  codePoint == 0x24 || codePoint == 0x40 || codePoint == 0x60 ||
    (0xA0 ≤ codePoint && codePoint ≤ 0x10FFFF)

/-- Reads one byte: the name goes on, or it ends and names a code point. -/
def step : Progress → UInt8 → Option (Progress ⊕ Nat)
  | .backslash, lowerU => some (.inl (.digits 3 0))
  | .backslash, upperU => some (.inl (.digits 7 0))
  | .backslash, _ => none
  | .digits later value, b =>
    if isHexDigit b then
      let value := value * 16 + digitValue b
      match later with
      | 0 => some (.inr value)
      | later + 1 => some (.inl (.digits later value))
    else none

/-- Reads one byte of a name inside a larger token. The state `inside` goes on with the name and
`after` is the state at the end of a name that is acceptable there. -/
def feed {σ : Type} (inside : Progress → σ) (after : σ) (name : Progress) (b : UInt8) : Option σ :=
  match step name b with
  | none => none
  | some (.inl name') => some (inside name')
  | some (.inr codePoint) => if isAcceptable codePoint then some after else none

end CPreprocessor.Lexeme.UniversalName
