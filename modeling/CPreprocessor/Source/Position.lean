import CPreprocessor.Ascii

/-!
# Lines and columns

Physical lines are counted in the source as the user wrote it. Lines and columns start at one, and
a column is a number of bytes.
-/

namespace CPreprocessor.Source

/-- A place in a source. -/
structure Position where
  line : Nat
  column : Nat
  deriving DecidableEq

/-- The offsets at which the physical lines start, the first one at the given offset. -/
def lineStartsFrom (offset : Nat) : Bytes → List Nat
  | [] => []
  | b :: rest =>
    if b = Ascii.newline then (offset + 1) :: lineStartsFrom (offset + 1) rest
    else lineStartsFrom (offset + 1) rest

/-- The offsets at which the physical lines of a source start. -/
def lineStarts (source : Bytes) : List Nat := 0 :: lineStartsFrom 0 source

/-- The line that an offset is on is the last one that starts at or before it. -/
def positionOf (starts : List Nat) (offset : Nat) : Position :=
  let before := starts.takeWhile (· ≤ offset)
  ⟨before.length, offset - before.getLast?.getD 0 + 1⟩

end CPreprocessor.Source
