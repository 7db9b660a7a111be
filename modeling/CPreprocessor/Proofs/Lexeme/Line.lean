import CPreprocessor.Lexeme.Line

/-!
# Logical lines in one pass

The lines of a text come from two passes: one that lists its tokens, comments among them, with the
index that each line starts at, and one that leaves out the comments and counts the indices anew.
`linesFrom` reads the pieces of a text once instead and cuts them directly into lines, which is the
form that inductions over the pieces are about. Both have the same lines
(`logicalLines_eq_linesFrom`).

No line starts before the index that a pass has come to. So a token that is read next belongs to the
line that was begun last, in the first pass (`le_of_mem_scan`) as in the second
(`le_of_mem_withoutComments`).
-/

namespace CPreprocessor.Lexeme

open Ascii

/-- The first logical line of a text, and the others. -/
abbrev Lines := List Lexeme × List (List Lexeme)

/-- All lines. -/
def Lines.toList (lines : Lines) : List (List Lexeme) := lines.1 :: lines.2

/-- The logical lines of a sequence of pieces. The positions are those of its bytes; the flag tells
whether there is a gap before its first token. -/
def linesFrom (positions : List Nat) (spaced : Bool) : List Piece → Lines
  | [] => ([], [])
  | .blank b :: rest =>
    let (first, others) := linesFrom positions.tail true rest
    if b = newline then ([], first :: others) else (first, others)
  | .lexeme kind text :: rest =>
    let after := positions.drop text.length
    if kind = .comment then linesFrom after true rest
    else
      let (first, others) := linesFrom after false rest
      (⟨kind, text, positions.headD 0, spaced⟩ :: first, others)

section

variable (positions : List Nat) (spaced : Bool) (rest : List Piece)

theorem linesFrom_blank (b : UInt8) :
    linesFrom positions spaced (.blank b :: rest) =
      if b = newline then ([], (linesFrom (positions.drop 1) true rest).toList)
      else linesFrom (positions.drop 1) true rest := by
  rw [List.drop_one]
  rfl

theorem linesFrom_lexeme (kind : Kind) (text : Bytes) :
    linesFrom positions spaced (.lexeme kind text :: rest) =
      if kind = .comment then linesFrom (positions.drop text.length) true rest
      else (⟨kind, text, positions.headD 0, spaced⟩ ::
          (linesFrom (positions.drop text.length) false rest).1,
        (linesFrom (positions.drop text.length) false rest).2) := rfl

end

namespace TokenBuffer

/-! ## Where lines start -/

theorem le_of_mem_scan {positions : List Nat} {spaced : Bool} {index : Nat} {pieces : List Piece} :
    ∀ start ∈ (scan positions spaced index pieces).starts, index ≤ start := by
  induction pieces generalizing positions spaced index with
  | nil => simp [scan]
  | cons piece pieces ih =>
    cases piece with
    | blank b =>
      rw [scan]
      split
      · exact List.forall_mem_cons.2 ⟨Nat.le_refl index, ih⟩
      · exact ih
    | lexeme kind text => exact fun start hstart => Nat.le_of_succ_le (ih start hstart)

theorem le_of_mem_withoutComments {index kept : Nat} {afterComment : Bool} {tokens : List Lexeme}
    {starts : List Nat} :
    ∀ start ∈ (withoutComments index kept afterComment tokens starts).starts, kept ≤ start := by
  induction tokens generalizing index kept afterComment starts with
  | nil => simp [withoutComments]
  | cons token tokens ih =>
    have hhere : ∀ start ∈ (starts.takeWhile (· = index)).map fun _ => kept, kept ≤ start := by
      intro start hstart
      obtain ⟨_, -, rfl⟩ := List.mem_map.1 hstart
      exact Nat.le_refl kept
    rw [withoutComments]
    split
    · exact List.forall_mem_append.2 ⟨hhere, ih⟩
    · exact List.forall_mem_append.2
        ⟨hhere, fun start hstart => Nat.le_of_succ_le (ih start hstart)⟩

/-! ## Leaving out comments -/

section

variable {index kept : Nat} {afterComment : Bool} {starts : List Nat}

/-- A line that starts at the next token starts at the next token that is kept. -/
theorem withoutComments_start (tokens : List Lexeme) :
    withoutComments index kept afterComment tokens (index :: starts) =
      { withoutComments index kept afterComment tokens starts with
        starts := kept :: (withoutComments index kept afterComment tokens starts).starts } := by
  cases tokens with
  | nil => rfl
  | cons token tokens =>
    rw [withoutComments, withoutComments]
    simp only [List.takeWhile_cons, List.dropWhile_cons, decide_true, if_true, List.map_cons,
      List.cons_append]
    split <;> rfl

variable {kind : Kind} {text : Bytes} {origin : Nat} {spaced : Bool}
  (hstarts : ∀ start ∈ starts, index < start)
include hstarts

theorem takeWhile_starts : starts.takeWhile (· = index) = [] := by
  cases starts with
  | nil => rfl
  | cons start starts =>
    have hlt := hstarts start List.mem_cons_self
    simp [Nat.ne_of_gt hlt]

theorem dropWhile_starts : starts.dropWhile (· = index) = starts := by
  have := List.takeWhile_append_dropWhile (p := (· = index)) (l := starts)
  rwa [takeWhile_starts hstarts, List.nil_append] at this

theorem withoutComments_comment (hkind : kind = .comment) (tokens : List Lexeme) :
    withoutComments index kept afterComment (⟨kind, text, origin, spaced⟩ :: tokens) starts =
      withoutComments (index + 1) kept true tokens starts := by
  rw [withoutComments, takeWhile_starts hstarts, dropWhile_starts hstarts, if_pos hkind]
  rfl

theorem withoutComments_token (hkind : kind ≠ .comment) (tokens : List Lexeme) :
    withoutComments index kept afterComment (⟨kind, text, origin, spaced⟩ :: tokens) starts =
      { tokens := ⟨kind, text, origin, spaced || afterComment⟩ ::
          (withoutComments (index + 1) (kept + 1) false tokens starts).tokens
        starts := (withoutComments (index + 1) (kept + 1) false tokens starts).starts } := by
  rw [withoutComments, takeWhile_starts hstarts, dropWhile_starts hstarts, if_neg hkind]
  rfl

/-- A token before all other lines is in the first one. -/
theorem slices_cons (token : Lexeme) (tokens : List Lexeme) :
    slices index (token :: tokens) starts =
      (slices (index + 1) tokens starts).modifyHead (token :: ·) := by
  cases starts with
  | nil => rfl
  | cons start starts =>
    obtain ⟨more, rfl⟩ := Nat.exists_eq_add_of_lt (hstarts start List.mem_cons_self)
    have hbefore : index + more + 1 - index = more + 1 := by omega
    have hafter : index + more + 1 - (index + 1) = more := by omega
    rw [slices, slices, hbefore, hafter, List.take_succ_cons, List.drop_succ_cons]
    rfl

end

/-! ## Both passes -/

/-- The passes over the pieces behind some tokens, of which the second kept fewer than the first
listed, find the lines that `linesFrom` finds. -/
theorem slices_withoutComments (positions : List Nat) (spaced afterComment : Bool)
    (index kept : Nat) (pieces : List Piece) :
    let scanned := scan positions spaced index pieces
    let stripped := withoutComments index kept afterComment scanned.tokens scanned.starts
    slices kept stripped.tokens stripped.starts =
      (linesFrom positions (spaced || afterComment) pieces).toList := by
  dsimp only
  induction pieces generalizing positions spaced afterComment index kept with
  | nil => rfl
  | cons piece pieces ih =>
    cases piece with
    | blank b =>
      have hrest := ih positions.tail true afterComment index kept
      rw [Bool.true_or] at hrest
      rw [linesFrom_blank, List.drop_one, scan]
      split
      · -- the line that starts here ends the one before
        rw [withoutComments_start]
        simp only [slices, Nat.sub_self, List.take_zero, List.drop_zero]
        exact congrArg ([] :: ·) hrest
      · exact hrest
    | lexeme kind text =>
      have hstarts : ∀ start ∈ (scan (positions.drop text.length) false (index + 1) pieces).starts,
          index < start := le_of_mem_scan
      rw [linesFrom_lexeme, scan]
      split
      · next hkind =>
        have hrest := ih (positions.drop text.length) false true (index + 1) kept
        dsimp only
        rw [withoutComments_comment hstarts hkind]
        exact hrest
      · next hkind =>
        have hrest := ih (positions.drop text.length) false false (index + 1) (kept + 1)
        dsimp only
        rw [withoutComments_token hstarts hkind]
        rw [slices_cons le_of_mem_withoutComments, hrest]
        rfl

end TokenBuffer

/-- **The two passes over a text find its lines.** -/
theorem logicalLines_eq_linesFrom (text : Source.Text) :
    logicalLines text = (linesFrom text.positions false (pieces text.bytes)).toList := by
  have hlines := TokenBuffer.slices_withoutComments text.positions false false 0 0
    (pieces text.bytes)
  rw [Bool.false_or] at hlines
  rw [← hlines, logicalLines, TokenBuffer.lines, TokenBuffer.stripComments, TokenBuffer.ofText,
    TokenBuffer.withoutComments_start]
  rfl

end CPreprocessor.Lexeme
