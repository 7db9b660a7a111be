import CPreprocessor.Lexeme.Automaton
import CPreprocessor.Lexeme.UniversalName

/-!
# Preprocessing numbers

A preprocessing number is a digit, perhaps after a dot, followed by any letters, underscores,
digits, dots and universal character names, and by signs directly after an `e` or `p` of either
case. It covers all integer and floating constants and much else.
-/

namespace CPreprocessor.Lexeme.Number

open Ascii

inductive State
  | start
  /-- After a leading dot. -/
  | leadingDot
  /-- A whole number. -/
  | body
  /-- A whole number that a sign may continue. -/
  | exponent
  /-- Inside a universal character name. -/
  | universal (name : UniversalName.Progress)
  deriving DecidableEq

/-- The letters after which a sign belongs to the number. -/
def isExponentMark (b : UInt8) : Bool := b == lowerE || b == upperE || b == lowerP || b == upperP

/-- Continues a number that already has its first digit. -/
def extend (b : UInt8) : Option State :=
  if isExponentMark b then some .exponent
  else if b == dot || isDigit b || isNondigit b then some .body
  else if b == backslash then some (.universal .backslash)
  else none

def step : State → UInt8 → Option State
  | .start, b => if b == dot then some .leadingDot else if isDigit b then some .body else none
  | .leadingDot, b => if isDigit b then some .body else none
  | .body, b => extend b
  | .exponent, b => if b == plus || b == minus then some .body else extend b
  | .universal name, b => UniversalName.feed .universal .body name b

end Number

/-- The automaton of preprocessing numbers. -/
def number : Automaton Number.State where
  start := .start
  step := Number.step
  accepting s := s == .body || s == .exponent

end CPreprocessor.Lexeme
