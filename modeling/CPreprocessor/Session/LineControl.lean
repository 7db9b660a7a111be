import CPreprocessor.Session.State
import CPreprocessor.Text.Quoted

/-!
# Line control

`#line` gives the line after it a number and, with a string literal, the file a name. Numbers are
decimal and below 2^63.
-/

namespace CPreprocessor

/-- The operand of `#line`. -/
structure LineControl where
  number : Nat
  name : Option String
  deriving DecidableEq

namespace LineControl

/-- Numbers of lines are below this. -/
def limit : Nat := 0x8000_0000_0000_0000

/-- Reads the number of a line. -/
def numberOf (text : Bytes) : Option Nat :=
  if text ≠ [] ∧ text.all Ascii.isDigit ∧ Ascii.number 10 text < limit then
    some (Ascii.number 10 text)
  else none

/-- Reads the name of a file out of a string literal without an encoding prefix. -/
def nameOf (t : Token) : Option String :=
  if t.kind = .string ∧ t.text.head? = some Ascii.doubleQuote then
    some (unquote t.text).toText
  else none

/-- Reads the operand of `#line`, after expansion. -/
def ofTokens : List Token → Option LineControl
  | [number] => do return ⟨← numberOf number.text, none⟩
  | [number, name] => do
    let name ← nameOf name
    return ⟨← numberOf number.text, some name⟩
  | _ => none

/-- The file with the numbers of the lines after a directive that ends on the given physical line,
and the name, that were chosen. -/
def apply (control : LineControl) (lastLine : Nat) (file : SourceFile) : SourceFile :=
  { file with
    lineDelta := (control.number : Int) - ((lastLine : Int) + 1)
    name := control.name.getD file.name }

end LineControl

end CPreprocessor
