import CPreprocessor.Proofs.Source.Lines

/-!
# The ends of logical lines

A logical line may end on a later physical line than the one that its last token begins on, since
lines are spliced and a comment can go over new-lines. `Token.endLines` lists the physical lines that
logical lines end on, of all lines but the last. No token of the line begins below
(`Token.line_le_of_getElem?`), and all tokens of later lines do (`Token.lt_line_of_getElem?`).
-/

namespace CPreprocessor

open Ascii

namespace Source

theorem line_positionOf_mono {starts : List Nat} {offset offset' : Nat} (h : offset ≤ offset') :
    (positionOf starts offset).line ≤ (positionOf starts offset').line := by
  simp only [positionOf]
  induction starts with
  | nil => exact Nat.le_refl 0
  | cons start rest ih =>
    rw [List.takeWhile_cons, List.takeWhile_cons]
    split
    · next hstart =>
      rw [if_pos (decide_eq_true ((of_decide_eq_true hstart).trans h))]
      exact Nat.succ_le_succ ih
    · exact Nat.zero_le _

end Source

namespace Lexeme

open Source (Cell Text)

/-- The origins of the new-lines between pieces. -/
def lineEndsFrom (positions : List Nat) : List Piece → List Nat
  | [] => []
  | .blank b :: rest =>
    let ends := lineEndsFrom positions.tail rest
    if b = newline then positions.headD 0 :: ends else ends
  | .lexeme _ text :: rest => lineEndsFrom (positions.drop text.length) rest

/-- The origins of the new-lines that end the logical lines of a text. -/
def lineEnds (text : Text) : List Nat := lineEndsFrom text.positions (pieces text.bytes)

/-- The ends of lines that come from the given bytes. All lines but the last one have an end, which
is a new-line. Their tokens are before it, and those of the lines behind are after it. -/
structure Lines.EndAt (cells : List Cell) (lines : Lines) (ends : List Nat) : Prop where
  mem : ∀ origin ∈ ends, ∃ c ∈ cells, c.byte = newline ∧ c.origin = origin
  length_eq : lines.2.length = ends.length
  lt : ∀ x ∈ lines.toList.zip ends, ∀ t ∈ x.1, t.origin < x.2
  gt : ∀ n origin, ends[n]? = some origin → ∀ line ∈ lines.2.drop n, ∀ t ∈ line, origin < t.origin

section

variable {cells cells' : List Cell} {lines : Lines} {ends : List Nat}

theorem Lines.EndAt.mono (h : lines.EndAt cells ends) (hsub : cells ⊆ cells') :
    lines.EndAt cells' ends where
  mem origin horigin := by
    obtain ⟨c, hc, hend⟩ := h.mem origin horigin
    exact ⟨c, hsub hc, hend⟩
  length_eq := h.length_eq
  lt := h.lt
  gt := h.gt

/-- A new-line in front ends a line. -/
theorem Lines.EndAt.newline {c : Cell} (h : lines.EndAt cells ends) (hc : c.byte = newline)
    (hmem : ∀ line ∈ lines.1 :: lines.2, ∀ t ∈ line, ∃ d ∈ cells, d.origin = t.origin)
    (hfirst : ∀ d ∈ cells, c.origin < d.origin) :
    Lines.EndAt (c :: cells) ([], lines.1 :: lines.2) (c.origin :: ends) where
  mem := List.forall_mem_cons.2
    ⟨⟨c, List.mem_cons_self, hc, rfl⟩, (h.mono (List.subset_cons_self c cells)).mem⟩
  length_eq := congrArg Nat.succ h.length_eq
  lt := List.forall_mem_cons.2 ⟨List.forall_mem_nil _, h.lt⟩
  gt := by
    intro n origin horigin line hline t ht
    cases n with
    | zero =>
      obtain rfl : c.origin = origin := Option.some.inj horigin
      obtain ⟨d, hd, hdt⟩ := hmem line hline t ht
      exact hdt ▸ hfirst d hd
    | succ n => exact h.gt n origin horigin line hline t ht

/-- A token in front is in the first line. -/
theorem Lines.EndAt.token {c : Cell} {t : Lexeme} (h : lines.EndAt cells ends)
    (ht : t.origin = c.origin) (hfirst : ∀ d ∈ cells, c.origin < d.origin) :
    Lines.EndAt (c :: cells) (t :: lines.1, lines.2) ends where
  mem := (h.mono (List.subset_cons_self c cells)).mem
  length_eq := h.length_eq
  lt := by
    cases ends with
    | nil => exact fun x hx => absurd hx List.not_mem_nil
    | cons origin ends =>
      obtain ⟨hline, hothers⟩ := List.forall_mem_cons.1 h.lt
      obtain ⟨d, hd, -, rfl⟩ := h.mem _ List.mem_cons_self
      exact List.forall_mem_cons.2
        ⟨List.forall_mem_cons.2 ⟨ht ▸ hfirst d hd, hline⟩, hothers⟩
  gt := h.gt

end

theorem linesFrom_endAt {cells : List Cell} {pieces : List Piece}
    (hcells : cells.map Cell.byte = pieces.flatMap Piece.text)
    (hincreasing : (cells.map Cell.origin).Pairwise (· < ·)) (hne : ∀ p ∈ pieces, p.text ≠ [])
    (stop : Nat) (spaced : Bool) :
    (linesFrom (cells.map Cell.origin ++ [stop]) spaced pieces).EndAt cells
      (lineEndsFrom (cells.map Cell.origin ++ [stop]) pieces) := by
  induction pieces generalizing cells spaced with
  | nil => exact ⟨by simp [lineEndsFrom], rfl, by simp [lineEndsFrom], by simp [lineEndsFrom]⟩
  | cons piece pieces ih =>
    obtain ⟨hpiece, hpieces⟩ := List.forall_mem_cons.1 hne
    obtain ⟨c, more, rest, rfl, hfront, hrest, hincRest, hfirst, hdrop⟩ :=
      exists_cells_of_cons hcells hincreasing hpiece stop
    have hsub : rest ⊆ c :: (more ++ rest) :=
      List.subset_cons_of_subset c (List.subset_append_right more rest)
    cases piece with
    | blank b =>
      obtain ⟨hbyte, hmore⟩ := List.cons.inj hfront
      obtain rfl : more = [] := List.map_eq_nil_iff.1 hmore
      have hrest' := ih hrest hincRest hpieces true
      have hmem := (linesFrom_inOrder hrest hincRest hpieces stop true).mem
      rw [← hdrop] at hrest' hmem
      simp only [linesFrom, lineEndsFrom]
      split
      · next hb => exact hrest'.newline (hbyte.trans hb) hmem hfirst
      · exact hrest'.mono hsub
    | lexeme kind text =>
      simp only [linesFrom, lineEndsFrom]
      have hdrop' : _ = rest.map Cell.origin ++ [stop] := hdrop
      rw [Piece.text] at hdrop'
      rw [hdrop']
      split
      · exact (ih hrest hincRest hpieces true).mono hsub
      · have hrest' := (ih hrest hincRest hpieces false).mono (List.subset_append_right more rest)
        exact hrest'.token rfl hfirst

theorem logicalLines_endAt {source : Bytes} {text : Text} (h : text.IsFrom source) :
    Lines.EndAt text.cells (linesFrom text.positions false (pieces text.bytes)) (lineEnds text) :=
  linesFrom_endAt (leaves_nil.piecesFrom_spec text.bytes).1.symm h.increasing
    (fun _ => ne_nil_of_mem_pieces) text.stop false

end Lexeme

namespace Token

/-- The physical lines that the logical lines of a text end on, of all lines but the last one. -/
def endLines (source : Bytes) (text : Source.Text) : List Nat :=
  (Lexeme.lineEnds text).map fun origin =>
    (Source.positionOf (Source.lineStarts source) origin).line

/-- The physical line that the last token of a line begins on. -/
def lastLine (line : List Token) : ℕ := (line.getLast?.map (·.position.line)).getD 0

variable {source : Bytes} {text : Source.Text} (h : text.IsFrom source)
include h

theorem length_linesOf : (linesOf source text).length = (endLines source text).length + 1 := by
  rw [linesOf, Lexeme.logicalLines_eq_linesFrom, Lexeme.Lines.toList, endLines, List.length_map,
    List.length_map, List.length_cons, (Lexeme.logicalLines_endAt h).length_eq]

/-- **A logical line ends on or below the physical lines that its tokens begin on.** -/
theorem line_le_of_getElem? {n p : ℕ} {line : List Token}
    (hline : (linesOf source text)[n]? = some line) (hend : (endLines source text)[n]? = some p) :
    ∀ t ∈ line, t.position.line ≤ p := by
  rw [linesOf, Lexeme.logicalLines_eq_linesFrom, List.getElem?_map,
    Option.map_eq_some_iff] at hline
  rw [endLines, List.getElem?_map, Option.map_eq_some_iff] at hend
  obtain ⟨lexemes, hlexemes, rfl⟩ := hline
  obtain ⟨origin, horigin, rfl⟩ := hend
  have hzip : (lexemes, origin) ∈ (Lexeme.linesFrom text.positions false
      (Lexeme.pieces text.bytes)).toList.zip (Lexeme.lineEnds text) :=
    List.mem_of_getElem? (List.getElem?_zip_eq_some.2 ⟨hlexemes, horigin⟩)
  have hbefore := (Lexeme.logicalLines_endAt h).lt _ hzip
  simp only [List.forall_mem_map]
  exact fun t ht => Source.line_positionOf_mono (hbefore t ht).le

/-- **The tokens of later logical lines begin on physical lines below the end.** -/
theorem lt_line_of_getElem? {n m p : ℕ} {line : List Token} (hlt : n < m)
    (hline : (linesOf source text)[m]? = some line) (hend : (endLines source text)[n]? = some p) :
    ∀ t ∈ line, p < t.position.line := by
  rw [linesOf, Lexeme.logicalLines_eq_linesFrom, List.getElem?_map,
    Option.map_eq_some_iff] at hline
  rw [endLines, List.getElem?_map, Option.map_eq_some_iff] at hend
  obtain ⟨lexemes, hlexemes, rfl⟩ := hline
  obtain ⟨origin, horigin, rfl⟩ := hend
  have hends := Lexeme.logicalLines_endAt h
  obtain ⟨c, hc, hbyte, rfl⟩ := hends.mem origin (List.mem_of_getElem? horigin)
  have hlater : lexemes ∈ (Lexeme.linesFrom text.positions false
      (Lexeme.pieces text.bytes)).2.drop n := by
    obtain ⟨k, rfl⟩ := Nat.exists_eq_add_of_lt hlt
    refine List.mem_of_getElem? (i := k) ?_
    rw [List.getElem?_drop]
    exact hlexemes
  have hafter := hends.gt n _ horigin lexemes hlater
  simp only [List.forall_mem_map]
  exact fun t ht => Source.line_positionOf_lt (Source.lineStarts_sorted source)
    (Source.mem_lineStarts (h.newline c hc hbyte)) (Nat.lt_succ_self _) (hafter t ht)

theorem lastLine_le_of_getElem? {n p : ℕ} {line : List Token}
    (hline : (linesOf source text)[n]? = some line) (hend : (endLines source text)[n]? = some p) :
    lastLine line ≤ p := by
  rw [lastLine]
  cases hlast : line.getLast? with
  | none => exact Nat.zero_le p
  | some t => exact line_le_of_getElem? h hline hend t (List.mem_of_getLast? hlast)

end Token

end CPreprocessor
