import CPreprocessor.Proofs.Lexeme.Append
import CPreprocessor.Proofs.Source.Append

/-!
# Lines in two parts

A source that ends in a new-line has the same logical lines, at the same places, whatever is behind
it, and what is behind it has the lines that it has as a source of its own, but for their places
(`linesOf_append`). The new-line must not be spliced away, and no block comment may go on over it.
-/

namespace CPreprocessor

open Ascii

namespace Source

/-! ## Physical lines -/

theorem lineStartsFrom_append (offset : Nat) (source source' : Bytes) :
    lineStartsFrom offset (source ++ source') =
      lineStartsFrom offset source ++ lineStartsFrom (offset + source.length) source' := by
  induction source generalizing offset with
  | nil => rfl
  | cons b rest ih =>
    have hlength : offset + (b :: rest).length = offset + 1 + rest.length := by
      rw [List.length_cons]
      omega
    rw [hlength, List.cons_append, lineStartsFrom, lineStartsFrom, ih]
    split <;> rfl

/-- The place of an offset of a source does not change with what is behind the source. -/
theorem positionOf_lineStarts_append {source source' : Bytes} {offset : Nat}
    (h : offset ≤ source.length) :
    positionOf (lineStarts (source ++ source')) offset = positionOf (lineStarts source) offset := by
  have hlater : ∀ start ∈ lineStartsFrom source.length source', ¬ start ≤ offset := by
    intro start hstart
    have hsorted := lineStartsFrom_sorted source.length source'
    have hlt := (List.pairwise_cons.1 hsorted).1 start hstart
    omega
  have hnone : (lineStartsFrom source.length source').takeWhile (· ≤ offset) = [] := by
    cases hstarts : lineStartsFrom source.length source' with
    | nil => rfl
    | cons start starts =>
      refine List.takeWhile_cons_of_neg ?_
      simpa using hlater start (hstarts ▸ List.mem_cons_self)
  have htake : (lineStarts (source ++ source')).takeWhile (· ≤ offset) =
      (lineStarts source).takeWhile (· ≤ offset) := by
    rw [lineStarts, lineStartsFrom_append, Nat.zero_add, ← List.cons_append, ← lineStarts,
      List.takeWhile_append, hnone, List.append_nil]
    split
    · next hall => exact ((List.takeWhile_prefix _).eq_of_length hall).symm
    · rfl
  rw [positionOf, positionOf, htake]

end Source

namespace Lexeme

/-- An unterminated comment is a lone slash among the pieces of a text. -/
theorem unterminatedComment_eq_none_iff (text : Source.Text) :
    unterminatedComment text = none ↔ ¬ HasLoneSlash (pieces text.bytes) := by
  have hleast := @openComment_eq_some_iff 0 (pieces text.bytes)
  rw [unterminatedComment_eq_map, Option.map_eq_none_iff, unterminatedComment, positions_ofSource,
    Token.bytes_ofSource, Option.eq_none_iff_forall_ne_some]
  constructor
  · rintro hnone ⟨earlier, piece, later, hpieces, hlone⟩
    have hmem : (loneSlashes 0 (pieces text.bytes)).Nonempty :=
      ⟨_, earlier, piece, later, hpieces, rfl, hlone⟩
    obtain ⟨o, ho, hmin⟩ := Nat.lt_wfRel.wf.has_min _ hmem
    exact hnone o (hleast.2 ⟨ho, fun o' ho' => Nat.le_of_not_lt (hmin o' ho')⟩)
  · rintro hnone o ho
    obtain ⟨⟨earlier, piece, later, hpieces, -, hlone⟩, -⟩ := hleast.1 ho
    exact hnone ⟨earlier, piece, later, hpieces, hlone⟩

theorem HasLoneSlash.append {pieces : List Piece} (h : HasLoneSlash pieces) (more : List Piece) :
    HasLoneSlash (pieces ++ more) := by
  obtain ⟨earlier, piece, later, rfl, hslash, hstar⟩ := h
  refine ⟨earlier, piece, later ++ more, by rw [List.append_assoc, List.cons_append], hslash, ?_⟩
  cases later with
  | nil => cases hstar
  | cons next later => exact hstar

section

variable {text text' whole : Source.Text} {cells cells' : List Source.Cell} {o : Nat}
  (htext : text.cells = cells ++ [⟨newline, o⟩]) (hwhole : whole.cells = text.cells ++ cells')
  (hcells' : cells'.map Source.Cell.byte = text'.bytes)
include htext hwhole hcells'

/-- **A text in two parts has the logical lines of each.** The first part ends in a new-line, and no
block comment goes on over it. -/
theorem logicalLines_append
    (hopen : unterminatedComment text = none ∨ ¬ [star, slash] <:+: text'.bytes) :
    ∃ lines later, logicalLines text = lines ++ [[]] ∧ logicalLines whole = lines ++ later ∧
      later.map shape = (logicalLines text').map shape := by
  have hbytes : text.bytes = cells.map Source.Cell.byte ++ [newline] := by
    rw [Source.Text.bytes, htext, List.map_append]
    rfl
  have hwholeBytes : whole.bytes = cells.map Source.Cell.byte ++ newline :: text'.bytes := by
    rw [List.append_cons, ← hbytes, ← hcells', Source.Text.bytes, hwhole, List.map_append]
    rfl
  replace hopen : ¬ HasLoneSlash (pieces (cells.map Source.Cell.byte)) ∨
      ¬ [star, slash] <:+: text'.bytes := by
    refine hopen.imp_left fun hnone hlone => ?_
    rw [unterminatedComment_eq_none_iff, hbytes, pieces_concat_newline] at hnone
    exact hnone (hlone.append _)
  -- the lines of the first part, at the same places in both texts
  have hfirst (back back' : List Nat) :
      linesFrom (cells.map Source.Cell.origin ++ back) false (pieces (cells.map Source.Cell.byte)) =
        linesFrom (cells.map Source.Cell.origin ++ back') false
          (pieces (cells.map Source.Cell.byte)) := by
    refine linesFrom_append_positions ?_ (fun _ => ne_nil_of_mem_pieces) back back' false
    rw [flatMap_pieces, List.length_map, List.length_map]
  have hpositions : text.positions = cells.map Source.Cell.origin ++ [o, text.stop] := by
    rw [Source.Text.positions, htext, List.map_append, List.append_assoc]
    rfl
  have hwholePositions : whole.positions =
      cells.map Source.Cell.origin ++ o :: (cells'.map Source.Cell.origin ++ [whole.stop]) := by
    rw [Source.Text.positions, hwhole, htext, List.map_append, List.map_append, List.append_assoc,
      List.append_assoc]
    rfl
  rw [logicalLines_eq_linesFrom, logicalLines_eq_linesFrom, logicalLines_eq_linesFrom]
  refine ⟨(linesFrom text.positions false (pieces (cells.map Source.Cell.byte))).toList,
    (linesFrom (whole.positions.drop (cells.length + 1)) true (pieces text'.bytes)).toList, ?_, ?_, ?_⟩
  · rw [hbytes, pieces_concat_newline]
    exact toList_linesFrom_append text.positions false _ []
  · have happend := toList_linesFrom_append whole.positions false
      (pieces (cells.map Source.Cell.byte)) (pieces text'.bytes)
    rw [flatMap_pieces, List.length_map, hwholePositions, hfirst _ [o, text.stop], ← hpositions,
      ← hwholePositions, ← pieces_append hopen, ← hwholeBytes] at happend
    exact happend
  · exact shape_linesFrom _ _ true false _

end

end Lexeme

namespace Token

/-- A token begins before the end of its source. -/
theorem origin_lt_of_mem_logicalLines {source : Bytes} {trigraphs : Bool} {line : List Lexeme}
    (hline : line ∈ Lexeme.logicalLines (Source.normalize source trigraphs)) {t : Lexeme}
    (ht : t ∈ line) : t.origin < source.length := by
  have hincreasing := (Source.isFrom_normalize source trigraphs).increasing
  have hmem := (Lexeme.linesFrom_inOrder (Lexeme.flatMap_pieces _).symm hincreasing
    (fun _ => Lexeme.ne_nil_of_mem_pieces) (Source.normalize source trigraphs).stop false).mem
  rw [Lexeme.logicalLines_eq_linesFrom] at hline
  obtain ⟨c, hc, horigin⟩ := hmem line hline t ht
  have hmaps := (Source.Text.MapsBack.of_normalize source trigraphs).increasing
  rw [Source.Text.positions, List.pairwise_append, Source.stop_normalize] at hmaps
  rw [← horigin]
  exact hmaps.2.2 _ (List.mem_map_of_mem hc) _ List.mem_cons_self

/-- The kind and the text of a token, which its place in a source does not change. -/
def word (t : Token) : Lexeme.Kind × Bytes := (t.kind, t.text)

/-- What a line says wherever it stands: its tokens, and which of those behind the first have a gap
in front. -/
def shape (line : List Token) : List (Lexeme.Kind × Bytes) × List Bool :=
  (line.map word, line.tail.map spaced)

theorem shape_map_ofLexeme (starts : List Nat) (line : List Lexeme) :
    shape (line.map (ofLexeme starts)) = Lexeme.shape line := by
  rw [shape, ← List.map_tail, List.map_map, List.map_map]
  rfl

theorem map_word_of_shape {lines lines' : List (List Token)}
    (h : lines.map shape = lines'.map shape) :
    lines.map (List.map word) = lines'.map (List.map word) := by
  have hfst := congrArg (List.map Prod.fst) h
  rwa [List.map_map, List.map_map] at hfst

section

open Source

variable {source source' : Bytes} {trigraphs : Bool}

/-- **A source in two parts has the lines of each**, those of the first at the same places. -/
theorem linesOf_append
    (hsplice : ∀ splice ∈ splices trigraphs, ¬ splice <:+ source ++ [newline])
    (hopen : Lexeme.unterminatedComment (normalize (source ++ [newline]) trigraphs) = none ∨
      ¬ [star, slash] <:+: (normalize source' trigraphs).bytes) :
    ∃ lines later,
      linesOf (source ++ [newline]) (normalize (source ++ [newline]) trigraphs) = lines ++ [[]] ∧
      linesOf (source ++ newline :: source') (normalize (source ++ newline :: source') trigraphs) =
        lines ++ later ∧
      later.map shape = (linesOf source' (normalize source' trigraphs)).map shape := by
  obtain ⟨cells, o, hcells⟩ := exists_normalize_eq_concat hsplice
  obtain ⟨lines, later, hlines, hwhole, hlater⟩ := Lexeme.logicalLines_append hcells
    (normalize_append source source' trigraphs) (map_byte_shift _ _) hopen
  have hshapes (starts : List Nat) (lines : List (List Lexeme)) :
      (lines.map (List.map (ofLexeme starts))).map shape = lines.map Lexeme.shape := by
    rw [List.map_map]
    exact List.map_congr_left fun line _ => shape_map_ofLexeme starts line
  -- the tokens of the first part are where they were
  have hplaces : lines.map (List.map (ofLexeme (lineStarts (source ++ newline :: source')))) =
      lines.map (List.map (ofLexeme (lineStarts (source ++ [newline])))) := by
    refine List.map_congr_left fun line hline => List.map_congr_left fun t ht => ?_
    have hlt := origin_lt_of_mem_logicalLines (hlines ▸ List.mem_append_left _ hline) ht
    rw [ofLexeme, ofLexeme, List.append_cons, positionOf_lineStarts_append hlt.le]
  refine ⟨lines.map (List.map (ofLexeme (lineStarts (source ++ [newline])))),
    later.map (List.map (ofLexeme (lineStarts (source ++ newline :: source')))), ?_, ?_, ?_⟩
  · rw [linesOf, hlines, List.map_append]
    rfl
  · rw [linesOf, hwhole, List.map_append, hplaces]
  · rw [linesOf, hshapes, hshapes, hlater]

end

end Token

end CPreprocessor
