import CPreprocessor.Proofs.Token.Append

/-!
# Tokens in two parts

A source that ends in a new-line and leaves no block comment open has the same tokens whatever is
behind it, and what is behind it has its own tokens, shifted, the first of them with a gap in front
(`tokens_local`). The lines of pieces at an offset are those at the beginning of the source, shifted
(`toList_linesAt_add`), and a gap in front of them only marks their first token
(`spaceFirst_linesAt`).
-/

namespace CPreprocessor.Lexeme

open Ascii

/-! ## Shifted tokens -/

/-- The token, further behind in the source. -/
def shift (distance : Nat) (t : Lexeme) : Lexeme := { t with origin := distance + t.origin }

/-- The token, with a gap in front. -/
def withGap (t : Lexeme) : Lexeme := { t with spaced := true }

/-- The lines, with a gap in front of their first token. -/
def spaceFirst : List (List Lexeme) → List (List Lexeme)
  | [] => []
  | [] :: lines => [] :: spaceFirst lines
  | (t :: line) :: lines => (t.withGap :: line) :: lines

theorem flatten_spaceFirst (lines : List (List Lexeme)) :
    (spaceFirst lines).flatten = lines.flatten.modifyHead withGap := by
  induction lines with
  | nil => rfl
  | cons line lines ih =>
    cases line with
    | nil => exact ih
    | cons t line => rfl

/-! ## Lines at an offset -/

theorem linesAt_lexeme (offset : Nat) (spaced : Bool) (rest : List Piece) (kind : Kind)
    (text : Bytes) :
    linesAt offset spaced (.lexeme kind text :: rest) =
      if kind = .comment then linesAt (offset + text.length) true rest
      else (⟨kind, text, offset, spaced⟩ :: (linesAt (offset + text.length) false rest).1,
        (linesAt (offset + text.length) false rest).2) := by
  split
  · next hkind => rw [hkind, linesAt_comment]
  · next hkind => exact linesAt_token offset spaced rest hkind text

/-- The lines of pieces that are further behind are shifted. -/
theorem toList_linesAt_add (distance offset : Nat) (spaced : Bool) (pieces : List Piece) :
    (linesAt (distance + offset) spaced pieces).toList =
      (linesAt offset spaced pieces).toList.map (List.map (shift distance)) := by
  induction pieces generalizing offset spaced with
  | nil => rfl
  | cons piece pieces ih =>
    cases piece with
    | blank b =>
      rw [linesAt_blank, linesAt_blank, Nat.add_assoc]
      split
      · exact congrArg ([] :: ·) (ih (offset + 1) true)
      · exact ih (offset + 1) true
    | lexeme kind text =>
      rw [linesAt_lexeme, linesAt_lexeme, Nat.add_assoc]
      split
      · exact ih (offset + text.length) true
      · obtain ⟨hfirst, hothers⟩ := List.cons.inj (ih (offset + text.length) false)
        exact congrArg₂ (fun first others => (_ :: first) :: others) hfirst hothers

/-- A gap in front of some pieces is in front of their first token. -/
theorem spaceFirst_linesAt (offset : Nat) (spaced : Bool) (pieces : List Piece) :
    spaceFirst (linesAt offset spaced pieces).toList = (linesAt offset true pieces).toList := by
  induction pieces generalizing offset spaced with
  | nil => rfl
  | cons piece pieces ih =>
    cases piece with
    | blank b =>
      rw [linesAt_blank, linesAt_blank]
      split
      · exact congrArg ([] :: ·) (ih (offset + 1) true)
      · exact ih (offset + 1) true
    | lexeme kind text =>
      rw [linesAt_lexeme, linesAt_lexeme]
      split
      · exact ih (offset + text.length) true
      · rfl

/-- The lines behind a new-line follow those before it. -/
theorem toList_linesAt_append (offset : Nat) (spaced : Bool) {left : List Piece}
    (h : ∀ piece ∈ left, piece.text ≠ []) (right : List Piece) :
    (linesAt offset spaced (left ++ .blank newline :: right)).toList =
      (linesAt offset spaced left).toList ++
        (linesAt (offset + ((left.flatMap Piece.text).length + 1)) true right).toList := by
  have hsplit (more : Nat) :
      List.range' offset ((left.flatMap Piece.text).length + more) =
        List.range' offset (left.flatMap Piece.text).length ++
          List.range' (offset + (left.flatMap Piece.text).length) more :=
    List.range'_append_1.symm
  have hlength : ((left ++ .blank newline :: right).flatMap Piece.text).length + 1 =
      (left.flatMap Piece.text).length + ((right.flatMap Piece.text).length + 2) := by
    rw [List.flatMap_append, List.length_append, List.flatMap_cons, Piece.text]
    simp only [List.length_append, List.length_singleton]
    omega
  have hfront : (left.flatMap Piece.text).length ≤
      (List.range' offset (left.flatMap Piece.text).length).length := by
    rw [List.length_range']
  have hleft : linesFrom (offsetsFrom offset (left ++ .blank newline :: right)) spaced left =
      linesAt offset spaced left := by
    rw [linesAt, offsetsFrom, hlength, hsplit, offsetsFrom, hsplit]
    exact linesFrom_append_positions hfront h _ _ spaced
  have hright : (offsetsFrom offset (left ++ .blank newline :: right)).drop
      ((left.flatMap Piece.text).length + 1) =
        offsetsFrom (offset + ((left.flatMap Piece.text).length + 1)) right := by
    rw [offsetsFrom, hlength, offsetsFrom, List.drop_range', Nat.mul_one]
    congr 1
    omega
  rw [linesAt, toList_linesFrom_append, hleft, hright, ← linesAt]

/-! ## Comments at an offset -/

/-- A comment that is never closed is further behind as well. -/
theorem openComment_add (distance offset : Nat) (pieces : List Piece) :
    openComment (offsetsFrom (distance + offset) pieces) pieces =
      (openComment (offsetsFrom offset pieces) pieces).map (distance + ·) := by
  induction pieces generalizing offset with
  | nil => rfl
  | cons piece pieces ih =>
    rw [openComment, openComment, drop_offsetsFrom, drop_offsetsFrom, Nat.add_assoc, ih]
    split <;> rfl

theorem openComment_cons {piece : Piece} {pieces : List Piece} (h : ¬ LoneSlash piece pieces)
    (offset : Nat) :
    openComment (offsetsFrom offset (piece :: pieces)) (piece :: pieces) =
      openComment (offsetsFrom (offset + piece.text.length) pieces) pieces := by
  rw [← drop_offsetsFrom]
  exact if_neg h

/-- Of two parts, a comment that is never closed is in the second one if none is in the first. -/
theorem openComment_append {left right : List Piece}
    (h : ¬ HasLoneSlash (left ++ [.blank newline])) (offset : Nat) :
    openComment (offsetsFrom offset (left ++ .blank newline :: right))
        (left ++ .blank newline :: right) =
      openComment (offsetsFrom (offset + ((left.flatMap Piece.text).length + 1)) right) right := by
  induction left generalizing offset with
  | nil =>
    have hnewline : (Piece.blank newline).text ≠ [slash] := by decide
    exact openComment_cons (fun hlone => hnewline hlone.1) offset
  | cons piece left ih =>
    have hhead : (left ++ .blank newline :: right).head? =
        (left ++ [Piece.blank newline]).head? := by
      cases left <;> rfl
    have hlone : ¬ LoneSlash piece (left ++ .blank newline :: right) := by
      rw [LoneSlash, hhead]
      exact fun hlone => h ⟨[], piece, left ++ [Piece.blank newline], rfl, hlone⟩
    rw [List.cons_append, openComment_cons hlone, ih fun hrest => h hrest.cons, List.flatMap_cons,
      List.length_append, Nat.add_assoc, Nat.add_assoc]

/-! ## Tokens of a source -/

theorem unterminatedComment_ofSource (source : Bytes) :
    unterminatedComment (.ofSource source) =
      openComment (offsetsFrom 0 (pieces source)) (pieces source) := by
  rw [unterminatedComment, positions_ofSource, Token.bytes_ofSource]

/-- **Tokens are local to lines.** If a source ends in a new-line and leaves no block comment open,
its tokens are the first ones of any source that begins with it. Behind them are the tokens of the
rest, shifted, and what is before the first of these counts as a gap. The last line of the source,
which is empty, becomes the first one of the rest. A block comment that is left open is left open in
the rest. -/
theorem tokens_local {source rest : Bytes} (hline : source.getLast? = some newline)
    (hclosed : unterminatedComment (.ofSource source) = none) :
    (logicalLines (.ofSource (source ++ rest))).flatten =
        (logicalLines (.ofSource source)).flatten ++
          ((logicalLines (.ofSource rest)).flatten.map (shift source.length)).modifyHead withGap ∧
      (∃ lines, logicalLines (.ofSource source) = lines ++ [[]] ∧
        logicalLines (.ofSource (source ++ rest)) =
          lines ++
            spaceFirst ((logicalLines (.ofSource rest)).map (List.map (shift source.length)))) ∧
      unterminatedComment (.ofSource (source ++ rest)) =
        (unterminatedComment (.ofSource rest)).map (source.length + ·) := by
  obtain ⟨front, rfl⟩ := List.getLast?_eq_some_iff.1 hline
  rw [unterminatedComment_eq_none_iff, Token.bytes_ofSource, pieces_concat_newline] at hclosed
  have hlength : (front ++ [newline]).length = ((pieces front).flatMap Piece.text).length + 1 := by
    rw [flatMap_pieces, List.length_append, List.length_singleton]
  have hpieces : pieces (front ++ [newline] ++ rest) =
      pieces front ++ .blank newline :: pieces rest := by
    rw [List.append_assoc]
    exact pieces_append (.inl fun hlone => hclosed (hlone.append _))
  -- the lines of the rest are at their offset, behind a gap
  have hrest : (linesAt (front ++ [newline]).length true (pieces rest)).toList =
      spaceFirst ((logicalLines (.ofSource rest)).map
        (List.map (shift (front ++ [newline]).length))) := by
    rw [logicalLines_ofSource, ← toList_linesAt_add, spaceFirst_linesAt, Nat.add_zero]
  have hfirst : logicalLines (.ofSource (front ++ [newline])) =
      (linesAt 0 false (pieces front)).toList ++ [[]] := by
    rw [logicalLines_ofSource, pieces_concat_newline,
      toList_linesAt_append 0 false fun _ => ne_nil_of_mem_pieces]
    rfl
  have hwhole : logicalLines (.ofSource (front ++ [newline] ++ rest)) =
      (linesAt 0 false (pieces front)).toList ++
        spaceFirst ((logicalLines (.ofSource rest)).map
          (List.map (shift (front ++ [newline]).length))) := by
    rw [logicalLines_ofSource, hpieces,
      toList_linesAt_append 0 false fun _ => ne_nil_of_mem_pieces, Nat.zero_add, ← hlength, hrest]
  refine ⟨?_, ⟨_, hfirst, hwhole⟩, ?_⟩
  · rw [hwhole, hfirst, List.flatten_append, flatten_spaceFirst, List.flatten_append,
      List.map_flatten]
    simp
  · rw [unterminatedComment_ofSource, unterminatedComment_ofSource, hpieces,
      openComment_append hclosed, ← hlength, Nat.zero_add, ← openComment_add, Nat.add_zero]

/-- A line with a closed comment in front of a line with an open one. -/
theorem tokens_local_comment :
    unterminatedComment (.ofSource (Bytes.ofString "a/*\n*/\n")) = none ∧
      logicalLines (.ofSource (Bytes.ofString "b /*")) =
        [[⟨.identifier, Bytes.ofString "b", 0, false⟩, ⟨.punctuator, Bytes.ofString "/", 2, true⟩,
          ⟨.punctuator, Bytes.ofString "*", 3, false⟩]] ∧
      logicalLines (.ofSource (Bytes.ofString "a/*\n*/\nb /*")) =
        [[⟨.identifier, Bytes.ofString "a", 0, false⟩],
          [⟨.identifier, Bytes.ofString "b", 7, true⟩, ⟨.punctuator, Bytes.ofString "/", 9, true⟩,
            ⟨.punctuator, Bytes.ofString "*", 10, false⟩]] ∧
      unterminatedComment (.ofSource (Bytes.ofString "a/*\n*/\nb /*")) = some 9 := by
  have hclosed : unterminatedComment (.ofSource (Bytes.ofString "a/*\n*/\n")) = none := by
    decide +kernel
  have hsource : logicalLines (.ofSource (Bytes.ofString "a/*\n*/\n")) =
      [[⟨.identifier, Bytes.ofString "a", 0, false⟩]] ++ [[]] := by
    decide +kernel
  have hrest : logicalLines (.ofSource (Bytes.ofString "b /*")) =
      [[⟨.identifier, Bytes.ofString "b", 0, false⟩, ⟨.punctuator, Bytes.ofString "/", 2, true⟩,
        ⟨.punctuator, Bytes.ofString "*", 3, false⟩]] := by
    decide +kernel
  have happend : Bytes.ofString "a/*\n*/\nb /*" =
      Bytes.ofString "a/*\n*/\n" ++ Bytes.ofString "b /*" := by
    decide
  obtain ⟨-, ⟨lines, hlines, hwhole⟩, hopen⟩ := tokens_local (by decide) hclosed
  obtain rfl := List.append_cancel_right (hsource.symm.trans hlines)
  rw [happend, hwhole, hopen, hrest]
  exact ⟨hclosed, rfl, rfl, by decide +kernel⟩

end CPreprocessor.Lexeme
