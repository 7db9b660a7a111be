import CPreprocessor.Lexeme.Automaton

/-!
# Header names

A header name is a non-empty sequence of characters between angle brackets or double quotes.
Inside there is no new-line, no closing delimiter, and nothing whose meaning the language leaves
open: no single quote, no backslash, no `//`, no `/*`, and no double quote between brackets.
-/

namespace CPreprocessor.Lexeme.HeaderName

open Ascii

/-- What was read inside the delimiters. -/
inductive Inside
  | nothing
  /-- The last character is a slash. -/
  | slash
  /-- The last character is another one. -/
  | other
  deriving DecidableEq

inductive State
  | start
  | angled (inside : Inside)
  | quoted (inside : Inside)
  | closed
  deriving DecidableEq

/-- Reads a character between the delimiters, of which `close` is the closing one. -/
def character (close : UInt8) (state : Inside → State) (inside : Inside) (b : UInt8) :
    Option State :=
  if b == close then if inside = .nothing then none else some .closed
  else if b ∈ [newline, singleQuote, backslash, doubleQuote] then none
  else if inside = .slash ∧ (b == slash || b == star) then none
  else some (state (if b == slash then .slash else .other))

def step : State → UInt8 → Option State
  | .start, b =>
    if b == less then some (.angled .nothing)
    else if b == doubleQuote then some (.quoted .nothing)
    else none
  | .angled inside, b => character greater .angled inside b
  | .quoted inside, b => character doubleQuote .quoted inside b
  | .closed, _ => none

end HeaderName

/-- The automaton of header names. -/
def headerName : Automaton HeaderName.State where
  start := .start
  step := HeaderName.step
  accepting s := s == .closed

end CPreprocessor.Lexeme
