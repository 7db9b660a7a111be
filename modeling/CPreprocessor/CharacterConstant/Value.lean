import CPreprocessor.CharacterConstant.Grammar
import CPreprocessor.Diagnostic
import CPreprocessor.Grammar.Chart
import CPreprocessor.Lexeme.UniversalName
import CPreprocessor.Text.Utf8
import CPreprocessor.Value

/-!
# The value of a character constant

A character constant is parsed and read as a list of units: source bytes, numbers that escape
sequences give, and code points that universal character names give. Without a prefix the constant
is a number of up to four bytes, the first one the most significant. With a prefix it is the one
code unit that its units have in the encoding of the prefix.
-/

namespace CPreprocessor.CharacterConstant

open Ascii

/-- A character of a character constant. -/
inductive CharacterUnit
  /-- A byte that stands for itself. -/
  | byte (b : UInt8)
  /-- The number of an octal, hexadecimal or simple escape sequence. -/
  | numeric (value : Nat)
  /-- The code point of a universal character name. -/
  | codePoint (value : Nat)
  deriving DecidableEq

/-! ## Reading the parse tree -/

/-- The number that a letter stands for in a simple escape sequence; quotes, the question mark and
the backslash stand for themselves. -/
def simpleEscape (b : UInt8) : Nat :=
  match b with
  | 0x61 => 0x07
  | 0x62 => 0x08
  | 0x66 => 0x0C
  | 0x6E => 0x0A
  | 0x72 => 0x0D
  | 0x74 => 0x09
  | 0x76 => 0x0B
  | b => b.toNat

/-- The number that digits spell, which has to fit 32 bits. -/
def escapeValue (radix : Nat) (digits : Bytes) : Except Cause Nat :=
  let value := Ascii.number radix digits
  if value < 0x1_0000_0000 then .ok value else .error .escapeOutOfRange

/-- The unit of a character. -/
def unitOf : Tree Part UInt8 Form → Except Cause CharacterUnit
  | .node _ .next _ _ (character :: _) => unitOf character
  | .node _ .plain _ _ (.leaf b :: _) => .ok (.byte b)
  | .node _ .simple _ _ (_ :: .leaf b :: _) => .ok (.numeric (simpleEscape b))
  | .node _ .octal _ _ characters =>
    CharacterUnit.numeric <$> escapeValue 8 ((Tree.leavesOfList characters).drop 1)
  | .node _ .hex _ _ characters =>
    CharacterUnit.numeric <$> escapeValue 16 ((Tree.leavesOfList characters).drop 2)
  | .node _ .universal _ _ characters =>
    CharacterUnit.codePoint <$> escapeValue 16 ((Tree.leavesOfList characters).drop 2)
  | _ => .error (.missingPart "c-char")

/-- The units of a sequence of characters. -/
def unitsOf : Tree Part UInt8 Form → Except Cause (List CharacterUnit)
  | .node _ .next _ _ (sequence :: _) => unitsOf sequence
  | .node _ .first _ _ (character :: _) => do return [← unitOf character]
  | .node _ .more _ _ (sequence :: character :: _) => do
    return (← unitsOf sequence) ++ [← unitOf character]
  | _ => .error (.missingPart "c-char")

/-- Whether a universal character name may name a code point in a constant: it is acceptable in a
token and no surrogate. -/
def isNameable (codePoint : Nat) : Bool :=
  Lexeme.UniversalName.isAcceptable codePoint && !(0xD800 ≤ codePoint && codePoint ≤ 0xDFFF)

/-- Refuses the name of a code point that a constant may not contain. -/
def CharacterUnit.check : CharacterUnit → Except Cause CharacterUnit
  | .codePoint value =>
    if isNameable value then .ok (.codePoint value) else .error .escapeOutOfRange
  | unit => .ok unit

/-- The sequence of characters between the quotes of a constant. -/
def sequence? : List (Tree Part UInt8 Form) → Option (Tree Part UInt8 Form)
  | [] => none
  | .leaf _ :: rest => sequence? rest
  | tree :: _ => some tree

/-- The encoding and the units of a constant. -/
def read (text : Bytes) : Except Cause (Encoding × List CharacterUnit) := do
  match grammar.parse .constant text with
  | some (.node _ (.constant encoding) _ _ children) =>
    match sequence? children with
    | none => throw (.missingPart "c-char-sequence")
    | some sequence => return (encoding, ← (← unitsOf sequence).mapM CharacterUnit.check)
  | _ => throw (.invalidCharacterConstant text.toText)

/-- The value of a text that is one escape sequence, if it fits 32 bits. -/
def decodeEscape (text : Bytes) : Option Nat :=
  match (grammar.parse .escapeSequence text).map unitOf with
  | some (.ok (.byte b)) => some b.toNat
  | some (.ok (.numeric value)) => some value
  | some (.ok (.codePoint value)) => some value
  | _ => none

/-! ## Constants without a prefix -/

/-- The bytes of a unit: a number keeps its last eight bits, and a code point is encoded. -/
def CharacterUnit.bytes : CharacterUnit → Bytes
  | .byte b => [b]
  | .numeric value => [value.toUInt8]
  | .codePoint value => String.utf8EncodeChar (Char.ofNat value)

/-- The warnings that a unit deserves. -/
def CharacterUnit.warnings : CharacterUnit → List WarningCause
  | .numeric value => if 0xFF < value then [.escapeTruncated] else []
  | _ => []

/-- The value of a constant without a prefix, and the warnings that it deserves. -/
def plainValue (units : List CharacterUnit) : List WarningCause × Except Cause Value :=
  let warnings := units.flatMap CharacterUnit.warnings
  match units.flatMap CharacterUnit.bytes with
  | [] => (warnings, .error (.missingPart "c-char"))
  | [b] => (warnings, .ok (.signed (BitVec.ofNat 8 b.toNat).toInt))
  | bytes =>
    if 4 < bytes.length then (warnings, .error .characterConstantTooLong)
    else
      let value := bytes.foldl (fun value b => value * 0x100 + b.toNat) 0
      (warnings ++ [.multipleCharacters], .ok (.signed (BitVec.ofNat 32 value).toInt))

/-! ## Constants with a prefix -/

/-- The greatest code unit of an encoding. -/
def Encoding.maximum : Encoding → Nat
  | .utf8 => 0xFF
  | .utf16 => 0xFFFF
  | .plain | .wide | .utf32 => 0xFFFFFFFF

/-- The code units of a character in an encoding. -/
def Encoding.codeUnits : Encoding → Char → List Nat
  | .utf8, c => (String.utf8EncodeChar c).map UInt8.toNat
  | .utf16, c => Utf8.units16 c
  | .plain, c | .wide, c | .utf32, c => [c.toNat]

/-- The code units of a constant. The source bytes in a row before the current unit are decoded
together when the row ends; a number has to be a code unit of the encoding. -/
def codeUnitsFrom (encoding : Encoding) (row : Bytes) :
    List CharacterUnit → Except Cause (List Nat)
  | [] => .ok ((Utf8.decode row).flatMap encoding.codeUnits)
  | .byte b :: rest => codeUnitsFrom encoding (row ++ [b]) rest
  | .numeric value :: rest =>
    if encoding.maximum < value then .error .escapeOutOfRange
    else do
      return (Utf8.decode row).flatMap encoding.codeUnits ++
        value :: (← codeUnitsFrom encoding [] rest)
  | .codePoint value :: rest => do
    return (Utf8.decode row).flatMap encoding.codeUnits ++
      encoding.codeUnits (Char.ofNat value) ++ (← codeUnitsFrom encoding [] rest)

/-- The value of a constant with a prefix. -/
def prefixedValue (encoding : Encoding) (units : List CharacterUnit) : Except Cause Value := do
  match ← codeUnitsFrom encoding [] units with
  | [unit] =>
    return if encoding = .wide then .signed (BitVec.ofNat 32 unit).toInt else .ofNat unit
  | _ => throw .characterConstantTooLong

/-- The value of a character constant, and the warnings that it deserves. -/
def evaluate (text : Bytes) : List WarningCause × Except Cause Value :=
  match read text with
  | .error cause => ([], .error cause)
  | .ok (.plain, units) => plainValue units
  | .ok (encoding, units) => ([], prefixedValue encoding units)

end CPreprocessor.CharacterConstant
