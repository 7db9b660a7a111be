import CPreprocessor.Ascii

/-!
# Source text in its first two phases

Phase 1 replaces trigraphs and phase 2 deletes the backslash and new-line pairs that splice
physical lines into logical ones. A diagnostic has to name the place that the user wrote, so every
byte of a text keeps the offset it came from (`Cell.origin`), and so does the end of the text
(`Text.stop`). `normalize` runs both phases.
-/

namespace CPreprocessor.Source

open Ascii

/-- A byte of a text, and the offset in the source of the first byte it was made from. -/
structure Cell where
  byte : UInt8
  origin : Nat
  deriving DecidableEq

/-- A text made from a source. -/
structure Text where
  cells : List Cell
  /-- The offset at which the source ends. -/
  stop : Nat
  deriving DecidableEq

namespace Text

/-- A source that nothing was done to yet. -/
def ofSource (source : Bytes) : Text :=
  ⟨source.mapIdx fun offset byte => ⟨byte, offset⟩, source.length⟩

def bytes (text : Text) : Bytes := text.cells.map Cell.byte

/-- The offset in the source of every byte of the text, and of its end. -/
def positions (text : Text) : List Nat := text.cells.map Cell.origin ++ [text.stop]

/-- The offset in the source of a byte of the text; past its end, of the end. -/
def originOf (text : Text) (offset : Nat) : Nat :=
  (text.cells[offset]?.map Cell.origin).getD text.stop

end Text

/-! ## Phase 1 -/

/-- The byte that two question marks and the given byte stand for. -/
def trigraph : UInt8 → Option UInt8
  | equal => some hash
  | openParen => some openBracket
  | slash => some backslash
  | closeParen => some closeBracket
  | singleQuote => some caret
  | less => some openBrace
  | bang => some bar
  | greater => some closeBrace
  | minus => some tilde
  | _ => none

/-- Every trigraph, from left to right, becomes the byte it stands for. -/
def replaceTrigraphs : List Cell → List Cell
  | a :: b :: c :: rest =>
    match a.byte, b.byte, trigraph c.byte with
    | question, question, some byte => ⟨byte, a.origin⟩ :: replaceTrigraphs rest
    | _, _, _ => a :: replaceTrigraphs (b :: c :: rest)
  | short => short

/-! ## Phase 2 -/

/-- Every backslash directly before a new-line is deleted together with it. A carriage return may
stand between the two. -/
def spliceLines : List Cell → List Cell
  | ⟨backslash, _⟩ :: ⟨newline, _⟩ :: rest => spliceLines rest
  | ⟨backslash, _⟩ :: ⟨carriageReturn, _⟩ :: ⟨newline, _⟩ :: rest => spliceLines rest
  | a :: rest => a :: spliceLines rest
  | [] => []

/-! ## Both -/

namespace Text

/-- The text with its trigraphs replaced. -/
def withoutTrigraphs (text : Text) : Text := { text with cells := replaceTrigraphs text.cells }

/-- The text with its physical lines spliced. -/
def spliced (text : Text) : Text := { text with cells := spliceLines text.cells }

end Text

/-- The text that is cut into tokens. -/
def normalize (source : Bytes) (trigraphs : Bool) : Text :=
  let text := Text.ofSource source
  (if trigraphs then text.withoutTrigraphs else text).spliced

end CPreprocessor.Source
