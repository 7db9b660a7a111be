import CPreprocessor.Token

/-!
# Output

The output of preprocessing is lines of tokens. Printed, a line has a space where the source had
white-space, and also between two tokens that would be read as something else without one.
-/

namespace CPreprocessor

/-- The tokens of a line of output. -/
abbrev OutputLine := List Token

namespace Output

/-- Whether two tokens need a space between them to be read as themselves. -/
def needsSpace (left right : Token) : Bool :=
  match Token.lex (left.text ++ right.text) with
  | [a, b] => !(a.text = left.text && b.text = right.text)
  | _ => true

/-- The text of the tokens after a given one. -/
def spellAfter (left : Token) : List Token → String
  | [] => ""
  | t :: rest =>
    (if t.spaced || needsSpace left t then " " else "") ++ t.spelling ++ spellAfter t rest

/-- The text of a line. -/
def spell : OutputLine → String
  | [] => ""
  | t :: rest => t.spelling ++ spellAfter t rest

/-- The text of some lines. -/
def text (lines : List OutputLine) : String :=
  String.join (lines.map fun line => spell line ++ "\n")

/-- The number of lines that begin at or before a token, given the physical lines that they begin
on. -/
def lineIndex (starts : List Nat) (t : Token) : Nat :=
  (starts.takeWhile (· ≤ t.position.line)).length

/-- Groups expanded tokens by the logical lines that they came from, which begin on the given
physical lines. -/
def group (starts : List Nat) (tokens : List Token) : List OutputLine :=
  tokens.splitBy fun a b => lineIndex starts a == lineIndex starts b

end Output

end CPreprocessor
