import CPreprocessor.HideSet
import CPreprocessor.Lexeme.Line
import CPreprocessor.Source.Position
import CPreprocessor.Text.Utf8

/-!
# Preprocessing tokens

A token is a lexeme cut loose from its source, so that macro expansion can move it: it knows its
line and column, and the macros that may no longer be expanded in it. Most questions about a token
are asked of its canonical spelling, in which a digraph reads as the punctuator it stands for.
-/

namespace CPreprocessor

open Lexeme (Kind)

/-- A preprocessing token. -/
structure Token where
  kind : Kind
  text : Bytes
  /-- Whether white-space or a comment stands before it. -/
  spaced : Bool := false
  position : Source.Position := ⟨0, 0⟩
  /-- The macros that are not expanded in it. -/
  hidden : HideSet := ∅
  deriving DecidableEq

namespace Token

/-- The punctuator that a digraph stands for. -/
def plainSpelling (text : Bytes) : Bytes :=
  if text = Bytes.ofString "<:" then Bytes.ofString "["
  else if text = Bytes.ofString ":>" then Bytes.ofString "]"
  else if text = Bytes.ofString "<%" then Bytes.ofString "\x7b"
  else if text = Bytes.ofString "%>" then Bytes.ofString "\x7d"
  else if text = Bytes.ofString "%:" then Bytes.ofString "#"
  else if text = Bytes.ofString "%:%:" then Bytes.ofString "##"
  else text

/-- The spelling of a token without digraphs. -/
def canonical (t : Token) : Bytes :=
  if t.kind = .punctuator then plainSpelling t.text else t.text

def isIdentifier (t : Token) : Bool := t.kind = .identifier

/-- Whether a token is the given punctuator, in either spelling. -/
def isPunctuator (t : Token) (spelling : Bytes) : Bool :=
  t.kind = .punctuator && t.canonical = spelling

/-- Whether a token is the identifier or the punctuator with the given canonical spelling. -/
def isSpelled (t : Token) (spelling : Bytes) : Bool :=
  (t.kind = .identifier || t.kind = .punctuator) && t.canonical = spelling

def isHash (t : Token) : Bool := t.isPunctuator (Bytes.ofString "#")

def isPaste (t : Token) : Bool := t.isPunctuator (Bytes.ofString "##")

def isOpen (t : Token) : Bool := t.isPunctuator (Bytes.ofString "(")

def isClose (t : Token) : Bool := t.isPunctuator (Bytes.ofString ")")

def isComma (t : Token) : Bool := t.isPunctuator (Bytes.ofString ",")

/-- The spelling of a token as it is printed. -/
def spelling (t : Token) : String := t.text.toText

/-- The column after the last one that a token covers. -/
def endColumn (t : Token) : Nat := t.position.column + t.text.length

/-- The token that a lexeme of a source is; the physical lines of the source start at the given
offsets. -/
def ofLexeme (starts : List Nat) (lexeme : Lexeme) : Token where
  kind := lexeme.kind
  text := lexeme.text
  spaced := lexeme.spaced
  position := Source.positionOf starts lexeme.origin

/-- The logical lines of a text that was made from the given source. -/
def linesOf (source : Bytes) (text : Source.Text) : List (List Token) :=
  let starts := Source.lineStarts source
  (Lexeme.logicalLines text).map (·.map (ofLexeme starts))

/-- The tokens of a piece of text, of which new-lines are only white-space. -/
def lex (source : Bytes) : List Token := (linesOf source (.ofSource source)).flatten

end Token

end CPreprocessor
