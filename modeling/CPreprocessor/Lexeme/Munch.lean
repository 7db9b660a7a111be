import CPreprocessor.Lexeme.Comment
import CPreprocessor.Lexeme.HeaderName
import CPreprocessor.Lexeme.Identifier
import CPreprocessor.Lexeme.Number
import CPreprocessor.Lexeme.Punctuator
import CPreprocessor.Lexeme.Quoted

/-!
# The longest token

The next token of a text is the longest prefix that belongs to any class of tokens. Where several
classes share it, the first of `Kind.order` gives the kind. A double quote or an angle bracket opens
a header name instead of a string literal exactly where a header name is expected.
-/

namespace CPreprocessor.Lexeme

/-- The classes of tokens. -/
inductive Kind
  | header
  | identifier
  | number
  | character
  | string
  | punctuator
  /-- A single character that is in no other class. -/
  | other
  | comment
  deriving DecidableEq

namespace Kind

/-- The length of the longest prefix of a text that is of the given kind. -/
def longest : Kind → Bytes → Option Nat
  | .header, text => headerName.longest text
  | .identifier, text => Lexeme.identifier.longest text
  | .number, text => Lexeme.number.longest text
  | .character, text => characterConstant.longest text
  | .string, text => stringLiteral.longest text
  | .punctuator, text => Lexeme.punctuator.longest text
  | .comment, text => Lexeme.comment.longest text
  | .other, [] => none
  | .other, b :: _ => if Ascii.isBlank b then none else some 1

/-- The kinds that compete for the next token, the one that wins a tie first. A single character is
not listed: it is what remains. -/
def order (header : Bool) : List Kind :=
  [if header then .header else .string, .comment, .identifier, .number, .character, .punctuator]

end Kind

/-- Prefers a prefix of the given kind to a candidate that is not longer. -/
def prefer (text : Bytes) (kind : Kind) (candidate : Kind × Nat) : Kind × Nat :=
  match kind.longest text with
  | some length => if candidate.2 ≤ length then (kind, length) else candidate
  | none => candidate

/-- The kind and the length of the next token of a text that starts with no white-space. -/
def munch (header : Bool) (text : Bytes) : Kind × Nat :=
  (Kind.order header).foldr (prefer text) (.other, 1)

end CPreprocessor.Lexeme
