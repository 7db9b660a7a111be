import CPreprocessor.Lexeme.Automaton
import CPreprocessor.Lexeme.UniversalName

/-!
# Identifiers

An identifier is a sequence of letters, underscores, digits and universal character names that does
not start with a digit.
-/

namespace CPreprocessor.Lexeme.Identifier

open Ascii

inductive State
  | start
  /-- A whole identifier. -/
  | name
  /-- Inside a universal character name. -/
  | universal (name : UniversalName.Progress)
  deriving DecidableEq

def step : State → UInt8 → Option State
  | .universal name, b => UniversalName.feed .universal .name name b
  | _, backslash => some (.universal .backslash)
  | .start, b => if isNondigit b then some .name else none
  | .name, b => if isNondigit b || isDigit b then some .name else none

end Identifier

/-- The automaton of identifiers. -/
def identifier : Automaton Identifier.State where
  start := .start
  step := Identifier.step
  accepting s := s == .name

end CPreprocessor.Lexeme
