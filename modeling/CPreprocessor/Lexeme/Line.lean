import CPreprocessor.Lexeme.Munch
import CPreprocessor.Source.Text

/-!
# Logical lines

`pieces` cuts a text into tokens, comments and white-space, and loses no byte. `logicalLines` then
drops comments and white-space, keeping of them only what matters later: where a logical line ends,
which tokens have a gap before them, and where a block comment was opened that never ends.
-/

namespace CPreprocessor.Lexeme

/-- A part of a text. -/
inductive Piece
  | blank (b : UInt8)
  | lexeme (kind : Kind) (text : Bytes)
  deriving DecidableEq

namespace Piece

def text : Piece → Bytes
  | blank b => [b]
  | lexeme _ text => text

end Piece

/-- What the tokens of a logical line say about the next one. -/
inductive Expectation
  /-- The line has no token yet. -/
  | hash
  /-- The line is a lone `#`. -/
  | keyword
  /-- The line is `# include`. -/
  | header
  /-- The line is anything else. -/
  | any
  deriving DecidableEq

/-- What to expect after a further token of the line. -/
def Expectation.after (expected : Expectation) (kind : Kind) (text : Bytes) : Expectation :=
  match expected, kind with
  | _, .comment => expected
  | .hash, .punctuator =>
    if text = Bytes.ofString "#" ∨ text = Bytes.ofString "%:" then .keyword else .any
  | .keyword, .identifier => if text = Bytes.ofString "include" then .header else .any
  | _, _ => .any

/-- The pieces of a text, of which a line begun before leads to expect the given token. -/
def piecesFrom (expected : Expectation) : Bytes → List Piece
  | [] => []
  | b :: rest =>
    if Ascii.isBlank b then
      .blank b :: piecesFrom (if b = Ascii.newline then .hash else expected) rest
    else
      let (kind, length) := munch (expected = .header) (b :: rest)
      let text := b :: rest.take (length - 1)
      .lexeme kind text :: piecesFrom (expected.after kind text) (rest.drop (length - 1))
termination_by text => text.length

/-- The pieces of a text. -/
def pieces (text : Bytes) : List Piece := piecesFrom .hash text

end CPreprocessor.Lexeme

namespace CPreprocessor

/-- A token of a text. -/
structure Lexeme where
  kind : Lexeme.Kind
  text : Bytes
  /-- The offset in the source of its first byte. -/
  origin : Nat
  /-- Whether white-space or a comment stands between it and the token before. -/
  spaced : Bool
  deriving DecidableEq

namespace Lexeme

/-- Tokens, with comments among them or without, and where the logical lines of them start. -/
structure TokenBuffer where
  tokens : List Lexeme
  /-- The index of the first token of every line. -/
  starts : List Nat
  deriving DecidableEq

namespace TokenBuffer

/-- The tokens that pieces make, comments among them, and the starts of the lines that begin after
one of the pieces. The positions are those of the bytes; the flag tells whether there is white-space
before the first token, which has the given index. -/
def scan (positions : List Nat) (spaced : Bool) (index : Nat) : List Piece → TokenBuffer
  | [] => ⟨[], []⟩
  | .blank b :: rest =>
    let later := scan positions.tail true index rest
    if b = Ascii.newline then { later with starts := index :: later.starts } else later
  | .lexeme kind text :: rest =>
    let later := scan (positions.drop text.length) false (index + 1) rest
    { later with tokens := ⟨kind, text, positions.headD 0, spaced⟩ :: later.tokens }

/-- The tokens of a text, comments among them. -/
def ofText (text : Source.Text) : TokenBuffer :=
  let scanned := scan text.positions false 0 (pieces text.bytes)
  { scanned with starts := 0 :: scanned.starts }

/-- The tokens from an index on, without the comments among them. So many tokens were kept before,
and the flag tells whether a comment was left out directly before. The starts are those of the lines
that start at the index or later. -/
def withoutComments (index kept : Nat) (afterComment : Bool) :
    List Lexeme → List Nat → TokenBuffer
  | [], starts => ⟨[], starts.map fun _ => kept⟩
  | token :: rest, starts =>
    let here := (starts.takeWhile (· = index)).map fun _ => kept
    let later := starts.dropWhile (· = index)
    if token.kind = .comment then
      let stripped := withoutComments (index + 1) kept true rest later
      { stripped with starts := here ++ stripped.starts }
    else
      let stripped := withoutComments (index + 1) (kept + 1) false rest later
      { tokens := { token with spaced := token.spaced || afterComment } :: stripped.tokens
        starts := here ++ stripped.starts }

/-- The same lines without comments. A token behind a comment has a gap before it. -/
def stripComments (buffer : TokenBuffer) : TokenBuffer :=
  withoutComments 0 0 false buffer.tokens buffer.starts

/-- The lines of the tokens from an index on. The first line starts there, the others at the given
indices. -/
def slices (index : Nat) (tokens : List Lexeme) : List Nat → List (List Lexeme)
  | [] => [tokens]
  | start :: starts =>
    tokens.take (start - index) :: slices start (tokens.drop (start - index)) starts

/-- The lines of a buffer. Each goes on until the next one starts. -/
def lines (buffer : TokenBuffer) : List (List Lexeme) :=
  match buffer.starts with
  | [] => []
  | start :: starts => slices start (buffer.tokens.drop start) starts

end TokenBuffer

/-- The logical lines of a text, as tokens. A line without tokens is among them, and a new-line
inside a comment ends no line. -/
def logicalLines (text : Source.Text) : List (List Lexeme) :=
  (TokenBuffer.ofText text).stripComments.lines

/-- The origin of the first token that is a slash with a star directly after it. A comment that is
closed is a longer token than the slash, so this one is never closed. -/
def openComment (positions : List Nat) : List Piece → Option Nat
  | [] => none
  | piece :: rest =>
    if piece.text = [Ascii.slash] ∧ (rest.head?.bind (·.text.head?)) = some Ascii.star then
      positions.head?
    else openComment (positions.drop piece.text.length) rest

/-- The origin of the first block comment of a text that is never closed. -/
def unterminatedComment (text : Source.Text) : Option Nat :=
  openComment text.positions (pieces text.bytes)

end Lexeme

end CPreprocessor
