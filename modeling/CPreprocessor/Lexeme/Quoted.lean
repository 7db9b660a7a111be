import CPreprocessor.Lexeme.Automaton
import CPreprocessor.Lexeme.UniversalName

/-!
# Character constants and string literals

Both are an optional encoding prefix (`L`, `u8`, `u` or `U`), an opening quote, characters and
escape sequences, and a closing quote of the same kind. No new-line may stand inside, and a
character constant may not be empty. Octal escape sequences have up to three digits, hexadecimal
ones have as many as follow.
-/

namespace CPreprocessor.Lexeme.Quoted

open Ascii

inductive State
  | start
  /-- After `u`, which may be the start of `u8`. -/
  | letterU
  /-- After any other whole prefix. -/
  | prefixed
  /-- Directly after the opening quote. -/
  | opened
  /-- After a whole character. -/
  | body
  /-- After the backslash of an escape sequence. -/
  | escape
  /-- After an octal digit that so many more may follow. -/
  | octal (more : Nat)
  /-- After `\x`, before the first digit. -/
  | hexMark
  /-- After a digit of a hexadecimal escape sequence. -/
  | hex
  /-- Inside a universal character name. -/
  | universal (name : UniversalName.Progress)
  /-- After the closing quote. -/
  | closed
  deriving DecidableEq

/-- The characters that make an escape sequence with just a backslash before them. -/
def isSimpleEscape (b : UInt8) : Bool :=
  b ∈ [singleQuote, doubleQuote, question, backslash,
    0x61, 0x62, 0x66, 0x6E, 0x72, 0x74, 0x76]

/-- Reads a byte at the place of a character. -/
def character (quote b : UInt8) : Option State :=
  if b == quote then some .closed
  else if b == backslash then some .escape
  else if b == newline then none
  else some .body

def step (quote : UInt8) : State → UInt8 → Option State
  | .start, b =>
    if b == lowerU then some .letterU
    else if b == upperL || b == upperU then some .prefixed
    else if b == quote then some .opened
    else none
  | .letterU, b =>
    if b == eight then some .prefixed else if b == quote then some .opened else none
  | .prefixed, b => if b == quote then some .opened else none
  | .opened, b =>
    if b == quote && quote == singleQuote then none else character quote b
  | .body, b => character quote b
  | .escape, b =>
    if isSimpleEscape b then some .body
    else if isOctalDigit b then some (.octal 2)
    else if b == lowerX then some .hexMark
    else UniversalName.feed .universal .body .backslash b
  | .octal (more + 1), b =>
    if isOctalDigit b then some (.octal more) else character quote b
  | .octal 0, b => character quote b
  | .hexMark, b => if isHexDigit b then some .hex else none
  | .hex, b => if isHexDigit b then some .hex else character quote b
  | .universal name, b => UniversalName.feed .universal .body name b
  | .closed, _ => none

end Quoted

/-- The automaton of literals between quotes of the given kind. -/
def quoted (quote : UInt8) : Automaton Quoted.State where
  start := .start
  step := Quoted.step quote
  accepting s := s == .closed

/-- The automaton of character constants. -/
def characterConstant : Automaton Quoted.State := quoted Ascii.singleQuote

/-- The automaton of string literals. -/
def stringLiteral : Automaton Quoted.State := quoted Ascii.doubleQuote

end CPreprocessor.Lexeme
