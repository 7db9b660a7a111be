import CPreprocessor.Proofs.Token.Append

/-!
# Lines below each other

Lines that are written below each other say what each says alone (`Token.shape_linesOf_unlines`), if
none splices its new-line away and none leaves a block comment open that another one closes
(`StandApart`).
-/

namespace CPreprocessor

open Ascii

/-! ## Characters that keep others apart -/

/-- Behind a character that is not in it, a text is the end of what comes next. -/
theorem suffix_of_suffix_append_cons {c : UInt8} {text left right : Bytes} (hc : c ∉ text)
    (h : text <:+ left ++ c :: right) : text <:+ right := by
  rcases List.suffix_or_suffix_of_suffix h (List.suffix_append left (c :: right)) with h | h
  · rcases List.suffix_cons_iff.1 h with rfl | h
    · exact absurd List.mem_cons_self hc
    · exact h
  · exact absurd (h.subset List.mem_cons_self) hc

/-- Two characters that are next to each other are on one side of a third one. -/
theorem Lexeme.infix_pair_append_cons_iff {a b c : UInt8} (ha : c ≠ a) (hb : c ≠ b)
    (left right : Bytes) :
    [a, b] <:+: left ++ c :: right ↔ [a, b] <:+: left ∨ [a, b] <:+: right := by
  induction left with
  | nil =>
    rw [List.nil_append, infix_pair_cons_iff]
    simp [ha]
  | cons d left ih =>
    have hhead : (left ++ c :: right).head? = some b ↔ left.head? = some b := by
      cases left with
      | nil => simp [hb]
      | cons e left => exact Iff.rfl
    rw [List.cons_append, infix_pair_cons_iff, infix_pair_cons_iff, ih, hhead, or_assoc]

/-! ## Sources of several lines -/

namespace Source

/-- The lines, each with a new-line behind it. -/
def unlines (lines : List Bytes) : Bytes := lines.flatMap (· ++ [newline])

theorem unlines_cons (line : Bytes) (lines : List Bytes) :
    unlines (line :: lines) = line ++ newline :: unlines lines := by
  rw [unlines, List.flatMap_cons, List.append_assoc]
  rfl

/-- No block comment that is opened in the first source is closed in the second one. -/
def CommentsApart (trigraphs : Bool) (source later : Bytes) : Prop :=
  Lexeme.unterminatedComment (normalize source trigraphs) = none ∨
    ¬ [star, slash] <:+: (normalize later trigraphs).bytes

/-- None of the lines goes on over its new-line: it is not spliced away, and no block comment is
opened before it and closed behind it. -/
structure StandApart (trigraphs : Bool) (lines : List Bytes) : Prop where
  newline_notMem : ∀ line ∈ lines, newline ∉ line
  not_splice : ∀ line ∈ lines, ∀ splice ∈ splices trigraphs, ¬ splice <:+ line ++ [newline]
  closed : lines.Pairwise (CommentsApart trigraphs)

theorem StandApart.tail {trigraphs : Bool} {line : Bytes} {lines : List Bytes}
    (h : StandApart trigraphs (line :: lines)) : StandApart trigraphs lines where
  newline_notMem l hl := h.newline_notMem l (List.mem_cons_of_mem line hl)
  not_splice l hl := h.not_splice l (List.mem_cons_of_mem line hl)
  closed := (List.pairwise_cons.1 h.closed).2

/-- Lines are normalized one by one. -/
theorem StandApart.bytes_normalize {trigraphs : Bool} {lines : List Bytes}
    (h : StandApart trigraphs lines) :
    (normalize (unlines lines) trigraphs).bytes =
      unlines (lines.map fun line => (normalize line trigraphs).bytes) := by
  induction lines with
  | nil => cases trigraphs <;> rfl
  | cons line lines ih =>
    have hfirst := bytes_normalize_concat (h.newline_notMem line List.mem_cons_self)
      (h.not_splice line List.mem_cons_self)
    rw [Text.bytes] at hfirst
    rw [unlines_cons, Text.bytes, normalize_append, List.map_append, map_byte_shift, hfirst,
      List.map_cons, unlines_cons, List.append_assoc, ← Text.bytes, ih h.tail]
    rfl

/-- A comment that is closed somewhere in some lines is closed in one of them. -/
theorem infix_unlines {lines : List Bytes} (h : [star, slash] <:+: unlines lines) :
    ∃ line ∈ lines, [star, slash] <:+: line := by
  induction lines with
  | nil => exact absurd h (by simp [unlines])
  | cons line lines ih =>
    rw [unlines_cons, Lexeme.infix_pair_append_cons_iff (by decide) (by decide)] at h
    rcases h with h | h
    · exact ⟨line, List.mem_cons_self, h⟩
    · obtain ⟨later, hlater, h⟩ := ih h
      exact ⟨later, List.mem_cons_of_mem line hlater, h⟩

end Source

/-! ## One line -/

namespace Lexeme

/-- A text without new-lines is one line. -/
theorem others_linesFrom_eq_nil {text : List Piece} (h : ∀ piece ∈ text, piece.endsLine = false)
    (positions : List Nat) (spaced : Bool) : (linesFrom positions spaced text).2 = [] := by
  induction text generalizing positions spaced with
  | nil => rfl
  | cons piece rest ih =>
    obtain ⟨hpiece, hrest⟩ := List.forall_mem_cons.1 h
    cases piece with
    | blank b =>
      have hb : b ≠ newline := by
        rintro rfl
        exact absurd hpiece (by decide)
      rw [linesFrom_blank, if_neg hb]
      exact ih hrest _ _
    | lexeme kind token =>
      rw [linesFrom_lexeme]
      split
      · exact ih hrest _ _
      · exact ih hrest _ _

theorem endsLine_eq_false_of_mem_pieces {text : Bytes} (h : newline ∉ text) :
    ∀ piece ∈ pieces text, piece.endsLine = false := by
  intro piece hpiece
  cases hends : piece.endsLine with
  | false => rfl
  | true =>
    obtain rfl : piece = .blank newline := by simpa [Piece.endsLine] using hends
    refine absurd ?_ h
    rw [← flatMap_pieces text]
    exact List.mem_flatMap_of_mem hpiece List.mem_cons_self

/-- A new-line ends no token and begins none. -/
theorem HasLoneSlash.of_concat_newline {text : List Piece}
    (h : HasLoneSlash (text ++ [.blank newline])) : HasLoneSlash text := by
  obtain ⟨earlier, piece, later, hsplit, hslash, hstar⟩ := h
  rcases List.eq_nil_or_concat' later with rfl | ⟨later, last, rfl⟩
  · cases hstar
  · rw [← List.cons_append, ← List.append_assoc] at hsplit
    obtain ⟨rfl, hlast⟩ := List.append_inj' hsplit rfl
    refine ⟨earlier, piece, later, rfl, hslash, ?_⟩
    cases later with
    | nil =>
      obtain rfl := (List.cons.inj hlast).1
      exact absurd hstar (by decide)
    | cons next later => exact hstar

end Lexeme

namespace Token

open Source

section

variable {source : Bytes} {trigraphs : Bool}

theorem newline_notMem_normalize (h : newline ∉ source) (trigraphs : Bool) :
    newline ∉ (normalize source trigraphs).bytes := by
  intro hmem
  obtain ⟨c, hc, hbyte⟩ := List.mem_map.1 hmem
  rw [cells_normalize_of_notMem h] at hc
  exact h (newline_of_mem_replaced hc hbyte)

theorem map_shape_linesOf (source : Bytes) (text : Text) (positions : List Nat) (spaced : Bool) :
    (linesOf source text).map shape =
      (Lexeme.linesFrom positions spaced (Lexeme.pieces text.bytes)).toList.map Lexeme.shape := by
  rw [Lexeme.shape_linesFrom positions text.positions spaced false,
    ← Lexeme.logicalLines_eq_linesFrom, linesOf, List.map_map]
  exact List.map_congr_left fun line _ => shape_map_ofLexeme _ line

/-- A source without new-lines is one line. -/
theorem linesOf_eq_singleton (h : newline ∉ source) (trigraphs : Bool) :
    linesOf source (normalize source trigraphs) =
      [(linesOf source (normalize source trigraphs)).flatten] := by
  have hnil := Lexeme.others_linesFrom_eq_nil
    (Lexeme.endsLine_eq_false_of_mem_pieces (newline_notMem_normalize h trigraphs))
    (normalize source trigraphs).positions false
  have hlines : Lexeme.logicalLines (normalize source trigraphs) =
      [(Lexeme.linesFrom (normalize source trigraphs).positions false
        (Lexeme.pieces (normalize source trigraphs).bytes)).1] := by
    rw [Lexeme.logicalLines_eq_linesFrom]
    exact congrArg (_ :: ·) hnil
  rw [linesOf, hlines, List.map_singleton, List.flatten_singleton]

/-- A line with its new-line is that line and one without tokens. -/
theorem shape_linesOf_concat (h : newline ∉ source)
    (hsplice : ∀ splice ∈ splices trigraphs, ¬ splice <:+ source ++ [newline]) :
    (linesOf (source ++ [newline]) (normalize (source ++ [newline]) trigraphs)).map shape =
      [shape (linesOf source (normalize source trigraphs)).flatten, shape []] := by
  rw [map_shape_linesOf _ _ [] false, bytes_normalize_concat h hsplice,
    Lexeme.pieces_concat_newline, Lexeme.toList_linesFrom_append, List.map_append,
    ← map_shape_linesOf source, linesOf_eq_singleton h]
  simp only [List.flatten_singleton]
  rfl

end

/-- **Lines below each other say what they say alone.** -/
theorem shape_linesOf_unlines {trigraphs : Bool} {lines : List Bytes}
    (h : StandApart trigraphs lines) :
    (linesOf (unlines lines) (normalize (unlines lines) trigraphs)).map shape =
      lines.map (fun line => shape (linesOf line (normalize line trigraphs)).flatten) ++
        [shape []] := by
  induction lines with
  | nil =>
    have hbytes : (normalize (unlines []) trigraphs).bytes = [] := by cases trigraphs <;> rfl
    rw [map_shape_linesOf _ _ [] false, hbytes, Lexeme.pieces, Lexeme.piecesFrom]
    rfl
  | cons line lines ih =>
    have hinline := h.newline_notMem line List.mem_cons_self
    have hsplice := h.not_splice line List.mem_cons_self
    have hopen : Lexeme.unterminatedComment (normalize (line ++ [newline]) trigraphs) = none ∨
        ¬ [Ascii.star, slash] <:+: (normalize (unlines lines) trigraphs).bytes := by
      rw [Lexeme.unterminatedComment_eq_none_iff, bytes_normalize_concat hinline hsplice,
        Lexeme.pieces_concat_newline, h.tail.bytes_normalize, or_iff_not_imp_right, not_not]
      intro hclosed hlone
      obtain ⟨later, hlater, hclosed⟩ := infix_unlines hclosed
      obtain ⟨other, hother, rfl⟩ := List.mem_map.1 hlater
      rcases (List.pairwise_cons.1 h.closed).1 other hother with hnone | hnone
      · exact (Lexeme.unterminatedComment_eq_none_iff _).1 hnone hlone.of_concat_newline
      · exact hnone hclosed
    obtain ⟨first, later, hfirst, hwhole, hlater⟩ := @linesOf_append line _ _ hsplice hopen
    have hline : first.map shape ++ [shape []] =
        [shape (linesOf line (normalize line trigraphs)).flatten] ++ [shape []] := by
      rw [← List.map_singleton, ← List.map_append, ← hfirst]
      exact shape_linesOf_concat hinline hsplice
    rw [unlines_cons, hwhole, List.map_append, (List.append_inj' hline rfl).1, hlater, ih h.tail]
    rfl

end Token

end CPreprocessor
