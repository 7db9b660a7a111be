import CPreprocessor.Lexeme.Automaton

/-!
# Comments

A comment is `//` and everything up to the end of the line, or `/*` and everything up to the first
`*/` after it.
-/

namespace CPreprocessor.Lexeme.Comment

open Ascii

inductive State
  | start
  | slash
  /-- Inside a comment that the line ends. -/
  | line
  /-- Inside a comment that `*/` ends. -/
  | block
  /-- Inside such a comment, directly after a star. -/
  | blockStar
  | closed
  deriving DecidableEq

def step : State → UInt8 → Option State
  | .start, b => if b == Ascii.slash then some .slash else none
  | .slash, b =>
    if b == Ascii.slash then some .line else if b == star then some .block else none
  | .line, b => if b == newline then none else some .line
  | .block, b => if b == star then some .blockStar else some .block
  | .blockStar, b =>
    if b == star then some .blockStar
    else if b == Ascii.slash then some .closed
    else some .block
  | .closed, _ => none

end Comment

/-- The automaton of comments. -/
def comment : Automaton Comment.State where
  start := .start
  step := Comment.step
  accepting s := s == .line || s == .closed

end CPreprocessor.Lexeme
