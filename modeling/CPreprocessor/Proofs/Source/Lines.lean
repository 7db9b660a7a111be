import CPreprocessor.Proofs.Lexeme.Pieces
import CPreprocessor.Proofs.Source.Spelling
import CPreprocessor.Token

/-!
# Physical lines

However trigraphs are replaced and lines spliced, the bytes that remain are in the order of the
source, and every new-line among them is one of the source (`Text.IsFrom`). So between two logical
lines there is the end of a physical one: the tokens of the later line are on later physical lines
(`Token.inOrder_linesOf`).
-/

namespace CPreprocessor

open Ascii

namespace Source

/-! ## Normalized texts -/

/-- A text has its bytes in the order of the source, and no new-line that the source has not. -/
structure Text.IsFrom (source : Bytes) (text : Text) : Prop where
  increasing : (text.cells.map Cell.origin).Pairwise (· < ·)
  newline : ∀ c ∈ text.cells, c.byte = newline → source[c.origin]? = some newline

theorem isFrom_ofSource (source : Bytes) : (Text.ofSource source).IsFrom source where
  increasing := by
    have horigins : (Text.ofSource source).cells.map Cell.origin = List.range source.length := by
      refine List.ext_getElem (by simp [Text.ofSource]) fun n _ _ => ?_
      simp [Text.ofSource]
    rw [horigins]
    exact List.pairwise_lt_range
  newline := by
    intro c hc hbyte
    obtain ⟨n, hn, rfl⟩ := List.mem_iff_getElem.1 hc
    simp only [Text.ofSource, List.getElem_mapIdx, List.length_mapIdx] at hn hbyte ⊢
    rw [List.getElem?_eq_getElem hn, hbyte]

theorem trigraph_ne_newline (b : UInt8) : trigraph b ≠ some newline := by
  intro h
  exact absurd (isBlank_of_trigraph h) (by decide)

theorem origin_replaceTrigraphs_sublist (cells : List Cell) :
    ((replaceTrigraphs cells).map Cell.origin).Sublist (cells.map Cell.origin) := by
  fun_induction replaceTrigraphs cells with
  | case1 a b c rest byte _ _ _ ih => exact ((ih.cons _).cons _).cons_cons a.origin
  | case2 a b c rest h ih => exact ih.cons_cons a.origin
  | case3 cells h => exact List.Sublist.refl _

theorem mem_of_mem_replaceTrigraphs {cells : List Cell} {c : Cell}
    (h : c ∈ replaceTrigraphs cells) (hc : c.byte = newline) : c ∈ cells := by
  fun_induction replaceTrigraphs cells with
  | case1 a b d rest byte hbyte _ _ ih =>
    rcases List.mem_cons.1 h with rfl | h
    · obtain rfl : byte = newline := hc
      exact absurd hbyte (trigraph_ne_newline _)
    · exact List.mem_cons_of_mem _ (List.mem_cons_of_mem _ (List.mem_cons_of_mem _ (ih h)))
  | case2 a b d rest _ ih =>
    rcases List.mem_cons.1 h with rfl | h
    · exact List.mem_cons_self
    · exact List.mem_cons_of_mem _ (ih h)
  | case3 => exact h

theorem spliceLines_sublist (cells : List Cell) : (spliceLines cells).Sublist cells := by
  fun_induction spliceLines cells with
  | case1 _ _ rest ih => exact (ih.cons _).cons _
  | case2 _ _ _ rest ih => exact ((ih.cons _).cons _).cons _
  | case3 a rest _ _ ih => exact ih.cons_cons a
  | case4 => exact List.Sublist.refl _

section

variable {source : Bytes} {text : Text} (h : text.IsFrom source)
include h

theorem Text.IsFrom.withoutTrigraphs : text.withoutTrigraphs.IsFrom source where
  increasing := h.increasing.sublist (origin_replaceTrigraphs_sublist text.cells)
  newline c hc hbyte := h.newline c (mem_of_mem_replaceTrigraphs hc hbyte) hbyte

theorem Text.IsFrom.spliced : text.spliced.IsFrom source where
  increasing := h.increasing.sublist ((spliceLines_sublist text.cells).map Cell.origin)
  newline c hc hbyte := h.newline c ((spliceLines_sublist text.cells).subset hc) hbyte

end

theorem isFrom_normalize (source : Bytes) (trigraphs : Bool) :
    (normalize source trigraphs).IsFrom source := by
  rw [normalize]
  cases trigraphs with
  | true => exact (isFrom_ofSource source).withoutTrigraphs.spliced
  | false => exact (isFrom_ofSource source).spliced

/-! ## Positions -/

theorem lineStartsFrom_sorted (offset : Nat) (source : Bytes) :
    (offset :: lineStartsFrom offset source).Pairwise (· < ·) := by
  induction source generalizing offset with
  | nil => simp [lineStartsFrom]
  | cons b rest ih =>
    have hnext := ih (offset + 1)
    have hlater : ∀ start ∈ lineStartsFrom (offset + 1) rest, offset < start := fun start hstart =>
      Nat.lt_trans (Nat.lt_succ_self offset) ((List.pairwise_cons.1 hnext).1 start hstart)
    rw [lineStartsFrom, List.pairwise_cons]
    split
    · exact ⟨List.forall_mem_cons.2 ⟨Nat.lt_succ_self offset, hlater⟩, hnext⟩
    · exact ⟨hlater, (List.pairwise_cons.1 hnext).2⟩

theorem mem_lineStartsFrom {source : Bytes} {n : Nat} (h : source[n]? = some newline)
    (offset : Nat) : offset + n + 1 ∈ lineStartsFrom offset source := by
  induction source generalizing n offset with
  | nil => cases h
  | cons b rest ih =>
    rw [lineStartsFrom]
    cases n with
    | zero =>
      obtain rfl : b = newline := Option.some.inj h
      rw [if_pos rfl]
      exact List.mem_cons_self
    | succ n =>
      have hrest := ih h (offset + 1)
      rw [Nat.add_assoc offset, Nat.add_comm 1 n] at hrest
      split
      · exact List.mem_cons_of_mem _ hrest
      · exact hrest

theorem lineStarts_sorted (source : Bytes) : (lineStarts source).Pairwise (· < ·) :=
  lineStartsFrom_sorted 0 source

theorem mem_lineStarts {source : Bytes} {n : Nat} (h : source[n]? = some newline) :
    n + 1 ∈ lineStarts source := by
  have hmem := mem_lineStartsFrom h 0
  rw [Nat.zero_add] at hmem
  exact List.mem_cons_of_mem 0 hmem

/-- A line that starts between two offsets keeps them on different lines. -/
theorem line_positionOf_lt {starts : List Nat} (hsorted : starts.Pairwise (· < ·))
    {start offset offset' : Nat} (hstart : start ∈ starts) (hlt : offset < start)
    (hle : start ≤ offset') :
    (positionOf starts offset).line < (positionOf starts offset').line := by
  simp only [positionOf]
  induction starts with
  | nil => cases hstart
  | cons first rest ih =>
    obtain ⟨hfirst, hrest⟩ := List.pairwise_cons.1 hsorted
    have hfirstLe : first ≤ offset' := by
      rcases List.mem_cons.1 hstart with rfl | hmem
      · exact hle
      · exact (hfirst start hmem).le.trans hle
    have htake : (first :: rest).takeWhile (· ≤ offset') = first :: rest.takeWhile (· ≤ offset') :=
      List.takeWhile_cons_of_pos (by simpa using hfirstLe)
    rw [htake]
    by_cases hoffset : first ≤ offset
    · rw [List.takeWhile_cons_of_pos (by simpa using hoffset)]
      have hmem : start ∈ rest := (List.mem_cons.1 hstart).resolve_left (by omega)
      exact Nat.succ_lt_succ (ih hrest hmem)
    · rw [List.takeWhile_cons_of_neg (by simpa using hoffset)]
      exact Nat.succ_pos _

end Source

/-! ## Logical lines -/

namespace Lexeme

open Source (Cell Text)

/-- A new-line stands between two tokens. -/
def IsBetween (cells : List Cell) (t u : Lexeme) : Prop :=
  ∃ c ∈ cells, c.byte = newline ∧ t.origin < c.origin ∧ c.origin < u.origin

/-- The tokens of some lines come from the given bytes, and new-lines stand between the lines. -/
structure Lines.InOrder (cells : List Cell) (lines : Lines) : Prop where
  mem : ∀ line ∈ lines.1 :: lines.2, ∀ t ∈ line, ∃ c ∈ cells, c.origin = t.origin
  others : ∀ line ∈ lines.2, ∀ u ∈ line, ∃ c ∈ cells, c.byte = newline ∧ c.origin < u.origin
  pairwise : (lines.1 :: lines.2).Pairwise fun line line' =>
    ∀ t ∈ line, ∀ u ∈ line', IsBetween cells t u

section

variable {cells cells' : List Cell} {lines : Lines}

theorem Lines.InOrder.mono (h : lines.InOrder cells) (hsub : cells ⊆ cells') :
    lines.InOrder cells' where
  mem line hline t ht := by
    obtain ⟨c, hc, horigin⟩ := h.mem line hline t ht
    exact ⟨c, hsub hc, horigin⟩
  others line hline u hu := by
    obtain ⟨c, hc, hbefore⟩ := h.others line hline u hu
    exact ⟨c, hsub hc, hbefore⟩
  pairwise := by
    refine h.pairwise.imp fun hbetween t ht u hu => ?_
    obtain ⟨c, hc, hinside⟩ := hbetween t ht u hu
    exact ⟨c, hsub hc, hinside⟩

/-- A new-line in front begins a line. -/
theorem Lines.InOrder.newline {c : Cell} (h : lines.InOrder cells) (hc : c.byte = newline)
    (hfirst : ∀ d ∈ cells, c.origin < d.origin) :
    Lines.InOrder (c :: cells) ([], lines.1 :: lines.2) := by
  have hmono := h.mono (List.subset_cons_self c cells)
  exact
    { mem := List.forall_mem_cons.2 ⟨List.forall_mem_nil _, hmono.mem⟩
      others := by
        intro line hline u hu
        obtain ⟨d, hd, horigin⟩ := h.mem line hline u hu
        exact ⟨c, List.mem_cons_self, hc, horigin ▸ hfirst d hd⟩
      pairwise := List.pairwise_cons.2 ⟨fun _ _ => List.forall_mem_nil _, hmono.pairwise⟩ }

/-- A token in front is in the first line. -/
theorem Lines.InOrder.token {c : Cell} {t : Lexeme} (h : lines.InOrder cells)
    (ht : t.origin = c.origin) (hfirst : ∀ d ∈ cells, c.origin < d.origin) :
    Lines.InOrder (c :: cells) (t :: lines.1, lines.2) := by
  have hmono := h.mono (List.subset_cons_self c cells)
  obtain ⟨hmemFirst, hmemOthers⟩ := List.forall_mem_cons.1 hmono.mem
  obtain ⟨hbetween, hpairwise⟩ := List.pairwise_cons.1 hmono.pairwise
  exact
    { mem := List.forall_mem_cons.2
        ⟨List.forall_mem_cons.2 ⟨⟨c, List.mem_cons_self, ht.symm⟩, hmemFirst⟩, hmemOthers⟩
      others := hmono.others
      pairwise := by
        refine List.pairwise_cons.2 ⟨fun line hline => ?_, hpairwise⟩
        refine List.forall_mem_cons.2 ⟨fun u hu => ?_, hbetween line hline⟩
        obtain ⟨d, hd, hbyte, hbefore⟩ := h.others line hline u hu
        exact ⟨d, List.mem_cons_of_mem c hd, hbyte, ht ▸ hfirst d hd, hbefore⟩ }

end

/-- The bytes that begin with a piece are those of the piece and those of the others. -/
theorem exists_cells_of_cons {cells : List Cell} {piece : Piece} {pieces : List Piece}
    (hcells : cells.map Cell.byte = (piece :: pieces).flatMap Piece.text)
    (hincreasing : (cells.map Cell.origin).Pairwise (· < ·)) (hne : piece.text ≠ []) (stop : Nat) :
    ∃ c more rest, cells = c :: (more ++ rest) ∧ (c :: more).map Cell.byte = piece.text ∧
      rest.map Cell.byte = pieces.flatMap Piece.text ∧
      (rest.map Cell.origin).Pairwise (· < ·) ∧ (∀ d ∈ more ++ rest, c.origin < d.origin) ∧
      (cells.map Cell.origin ++ [stop]).drop piece.text.length =
        rest.map Cell.origin ++ [stop] := by
  rw [List.flatMap_cons] at hcells
  obtain ⟨front, rest, rfl, hfront, hrest⟩ := List.map_eq_append_iff.1 hcells
  cases front with
  | nil => exact absurd hfront.symm hne
  | cons c more =>
    rw [List.map_append] at hincreasing
    obtain ⟨hincFront, hincRest, hbefore⟩ := List.pairwise_append.1 hincreasing
    refine ⟨c, more, rest, rfl, hfront, hrest, hincRest, fun d hd => ?_, ?_⟩
    · rcases List.mem_append.1 hd with hd | hd
      · exact (List.pairwise_cons.1 hincFront).1 _ (List.mem_map_of_mem hd)
      · exact hbefore _ (by simp) _ (List.mem_map_of_mem hd)
    · rw [← hfront, List.map_append, List.append_assoc, List.drop_left' (by simp)]

theorem linesFrom_inOrder {cells : List Cell} {pieces : List Piece}
    (hcells : cells.map Cell.byte = pieces.flatMap Piece.text)
    (hincreasing : (cells.map Cell.origin).Pairwise (· < ·)) (hne : ∀ p ∈ pieces, p.text ≠ [])
    (stop : Nat) (spaced : Bool) :
    (linesFrom (cells.map Cell.origin ++ [stop]) spaced pieces).InOrder cells := by
  induction pieces generalizing cells spaced with
  | nil => exact ⟨by simp [linesFrom], by simp [linesFrom], by simp [linesFrom]⟩
  | cons piece pieces ih =>
    obtain ⟨hpiece, hpieces⟩ := List.forall_mem_cons.1 hne
    -- everything after the first byte of the piece is after it in the source
    obtain ⟨c, more, rest, rfl, hfront, hrest, hincRest, hfirst, hdrop⟩ :=
      exists_cells_of_cons hcells hincreasing hpiece stop
    have hsub : rest ⊆ c :: (more ++ rest) :=
      List.subset_cons_of_subset c (List.subset_append_right more rest)
    cases piece with
    | blank b =>
      obtain ⟨hbyte, hmore⟩ := List.cons.inj hfront
      obtain rfl : more = [] := List.map_eq_nil_iff.1 hmore
      have hrest' := ih hrest hincRest hpieces true
      rw [← hdrop] at hrest'
      simp only [linesFrom]
      split
      · next hb => exact hrest'.newline (hbyte.trans hb) hfirst
      · exact hrest'.mono hsub
    | lexeme kind text =>
      simp only [linesFrom]
      have hdrop' : _ = rest.map Cell.origin ++ [stop] := hdrop
      rw [Piece.text] at hdrop'
      rw [hdrop']
      split
      · exact (ih hrest hincRest hpieces true).mono hsub
      · have hrest' := (ih hrest hincRest hpieces false).mono (List.subset_append_right more rest)
        exact hrest'.token rfl hfirst

theorem ne_nil_of_mem_pieces {text : Bytes} {piece : Piece} (h : piece ∈ pieces text) :
    piece.text ≠ [] := by
  obtain ⟨earlier, later, hsplit⟩ := List.append_of_mem h
  have hcut := (leaves_nil.piecesFrom_spec text).2 earlier piece later hsplit
  cases piece with
  | blank b => exact List.cons_ne_nil b []
  | lexeme kind token => exact hcut.2.ne_nil

theorem logicalLines_pairwise {source : Bytes} {text : Text} (h : text.IsFrom source) :
    (logicalLines text).Pairwise fun line line' =>
      ∀ t ∈ line, ∀ u ∈ line', IsBetween text.cells t u := by
  rw [logicalLines_eq_linesFrom]
  refine (linesFrom_inOrder ?_ h.increasing (fun piece => ne_nil_of_mem_pieces) text.stop
    false).pairwise
  exact (leaves_nil.piecesFrom_spec text.bytes).1.symm

end Lexeme

namespace Token

/-- The tokens of later lines are on later physical lines. -/
def InOrder (lines : List (List Token)) : Prop :=
  lines.Pairwise fun line line' => ∀ t ∈ line, ∀ u ∈ line', t.position.line < u.position.line

/-- **The tokens of a later logical line are on later physical lines.** -/
theorem inOrder_linesOf {source : Bytes} {text : Source.Text} (h : text.IsFrom source) :
    InOrder (linesOf source text) := by
  rw [InOrder, linesOf, List.pairwise_map]
  refine (Lexeme.logicalLines_pairwise h).imp fun hbetween => ?_
  simp only [List.forall_mem_map]
  intro t ht u hu
  obtain ⟨c, hc, hbyte, hbefore, hafter⟩ := hbetween t ht u hu
  exact Source.line_positionOf_lt (Source.lineStarts_sorted source)
    (Source.mem_lineStarts (h.newline c hc hbyte)) (Nat.lt_succ_of_lt hbefore) hafter

end Token

end CPreprocessor
