import CPreprocessor.Proofs.Lexeme.Partition

/-!
# Pieces in two parts

Behind a new-line a text is cut into pieces as one of its own, since no token but a block comment
has a new-line in it (`piecesFrom_append`). It takes that no block comment goes on over the
new-line: all that are opened before it are closed before it, or none is closed behind it.
-/

namespace CPreprocessor.Lexeme

open Ascii
open scoped Computability

/-! ## The next piece is determined -/

theorem IsNext.mem_kinds {kinds : List Kind} {text token : Bytes} {kind : Kind}
    (h : IsNext kinds text kind token) : kind ∈ kinds := by
  obtain ⟨earlier, later, rfl, -⟩ := h.first
  exact List.mem_append_right earlier List.mem_cons_self

theorem IsNext.unique {kinds : List Kind} {text token token' : Bytes} {kind kind' : Kind}
    (h : IsNext kinds text kind token) (h' : IsNext kinds text kind' token') :
    kind = kind' ∧ token = token' := by
  have hlength : token.length = token'.length :=
    Nat.le_antisymm (h'.length_le kind h.mem_kinds token h.mem h.front)
      (h.length_le kind' h'.mem_kinds token' h'.mem h'.front)
  obtain rfl : token = token' :=
    (List.prefix_of_prefix_length_le h.front h'.front hlength.le).eq_of_length hlength
  exact ⟨Option.some.inj (h.kind_eq.symm.trans h'.kind_eq), rfl⟩

theorem IsCut.unique {before : List Piece} {text : Bytes} {piece piece' : Piece}
    (h : IsCut before text piece) (h' : IsCut before text piece') : piece = piece' := by
  cases piece with
  | blank b =>
    obtain ⟨hb, hhead⟩ := h
    cases piece' with
    | blank b' => exact congrArg Piece.blank (Option.some.inj (hhead.symm.trans h'.2))
    | lexeme kind token =>
      have hnone := h'.1
      rw [hhead, Option.any_some, hb] at hnone
      cases hnone
  | lexeme kind token =>
    obtain ⟨hnone, hnext⟩ := h
    cases piece' with
    | blank b' =>
      rw [h'.2, Option.any_some, h'.1] at hnone
      cases hnone
    | lexeme kind' token' =>
      obtain ⟨rfl, rfl⟩ := hnext.unique h'.2
      rfl

/-! ## Over a new-line -/

/-- A block comment with a new-line in it is closed behind the new-line only. -/
theorem closed_behind {text after : Bytes} (h : text ++ newline :: after ∈ blockCommentTails) :
    ¬ [star, slash] <:+: text ∧ [star, slash] <:+: after := by
  obtain ⟨inside, hinside, htail⟩ := h
  have hlength := congrArg List.length htail
  simp only [List.length_append, List.length_cons, List.length_nil] at hlength
  constructor
  · have hfront : text <+: inside ++ [star] := by
      refine List.prefix_of_prefix_length_le (List.prefix_append text (newline :: after)) ?_ ?_
      · exact ⟨[slash], by rw [htail, List.append_assoc]; rfl⟩
      · rw [List.length_append, List.length_singleton]
        omega
    exact fun hclosed => hinside (hclosed.trans hfront.isInfix)
  · have hend : [star, slash] <:+ text ++ newline :: after := ⟨inside, htail.symm⟩
    rcases List.suffix_or_suffix_of_suffix hend (List.suffix_append text (newline :: after)) with
      hsuffix | hsuffix
    · rcases List.suffix_cons_iff.1 hsuffix with heq | hafter
      · exact absurd (List.cons.inj heq).1 (by decide)
      · exact hafter.isInfix
    · exact absurd (hsuffix.subset List.mem_cons_self) (by decide)

/-- A token of more than what is before a new-line is a block comment. -/
theorem exists_tail_of_mem {kind : Kind} {text after : Bytes}
    (h : text ++ newline :: after ∈ kind.language) (hne : text ≠ []) :
    ∃ rest, text = slash :: star :: rest ∧ rest ++ newline :: after ∈ blockCommentTails := by
  have hnewline : newline ∈ text ++ newline :: after := by simp
  obtain rfl : kind = .comment := by
    by_contra hkind
    exact absurd (Kind.uses_isInline hkind _ h newline hnewline) (by decide)
  rcases h with ⟨_, rfl, _, ⟨_, rfl, line, hline, rfl⟩, htext⟩ |
    ⟨_, rfl, _, ⟨_, rfl, tail, htail, rfl⟩, htext⟩
  · have huses : Uses (oneOf (· != newline))∗ isInline := (uses_oneOf fun _ hb => hb).kstar
    rw [← htext] at hnewline
    have hmem : newline = slash ∨ newline ∈ line := by simpa using hnewline
    exact absurd (huses line hline newline (hmem.resolve_left (by decide))) (by decide)
  · replace htext : slash :: star :: tail = text ++ newline :: after := htext
    match text, hne with
    | [c], _ => exact absurd (List.cons.inj (List.cons.inj htext).2).1 (by decide)
    | c :: d :: rest, _ =>
      obtain ⟨rfl, hbehind⟩ := List.cons.inj htext
      obtain ⟨rfl, rfl⟩ := List.cons.inj hbehind
      exact ⟨rest, rfl, htail⟩

/-- No comment that is opened in the text is closed behind it only. -/
def NotClosedBy (after text : Bytes) : Prop :=
  [slash, star] <+: text → [star, slash] <:+: text.drop 2 ∨ ¬ [star, slash] <:+: after

/-- The next token of a text is the same with a further line behind it. -/
theorem IsNext.append {header : Bool} {text after token : Bytes} {kind : Kind}
    (h : IsNext (Kind.classes header) text kind token) (hopen : NotClosedBy after text) :
    IsNext (Kind.classes header) (text ++ newline :: after) kind token where
  front := h.front.trans (List.prefix_append text _)
  ne_nil := h.ne_nil
  mem := h.mem
  first := h.first
  length_le := by
    intro k hk t ht hfront
    obtain hprefix | ⟨more, rfl⟩ :=
      List.prefix_or_prefix_of_prefix hfront (List.prefix_append text (newline :: after))
    · exact h.length_le k hk t ht hprefix
    · rw [List.prefix_append_right_inj] at hfront
      cases more with
      | nil =>
        rw [List.append_nil] at ht ⊢
        exact h.length_le k hk text ht (List.prefix_refl text)
      | cons b more =>
        obtain ⟨rfl, hmore⟩ := List.cons_prefix_cons.1 hfront
        have hne : text ≠ [] := fun hnil => h.ne_nil (List.prefix_nil.1 (hnil ▸ h.front))
        obtain ⟨rest, rfl, htail⟩ := exists_tail_of_mem ht hne
        obtain ⟨hnot, hclosed⟩ := closed_behind htail
        rcases hopen ⟨rest, rfl⟩ with hinside | hafter
        · exact absurd hinside hnot
        · exact absurd (hclosed.trans hmore.isInfix) hafter

theorem IsCut.append {before : List Piece} {text after : Bytes} {piece : Piece}
    (h : IsCut before text piece) (hne : text ≠ []) (hopen : NotClosedBy after text) :
    IsCut before (text ++ newline :: after) piece := by
  have hhead : (text ++ newline :: after).head? = text.head? := List.head?_append_of_ne_nil text hne
  cases piece with
  | blank b => exact ⟨h.1, hhead.trans h.2⟩
  | lexeme kind token => exact ⟨hhead ▸ h.1, h.2.append hopen⟩

/-! ## All pieces -/

/-- Some pieces have a slash that opens a comment that is never closed. -/
def HasLoneSlash (pieces : List Piece) : Prop :=
  ∃ earlier piece later, pieces = earlier ++ piece :: later ∧ LoneSlash piece later

theorem HasLoneSlash.cons {piece : Piece} {pieces : List Piece} (h : HasLoneSlash pieces) :
    HasLoneSlash (piece :: pieces) := by
  obtain ⟨earlier, p, later, rfl, hp⟩ := h
  exact ⟨piece :: earlier, p, later, rfl, hp⟩

theorem not_hasLoneSlash_nil : ¬ HasLoneSlash [] := by
  rintro ⟨earlier, piece, later, hsplit, -⟩
  exact List.append_ne_nil_of_right_ne_nil earlier (List.cons_ne_nil piece later) hsplit.symm

theorem HasLoneSlash.tail {piece : Piece} {pieces : List Piece}
    (h : HasLoneSlash (piece :: pieces)) (hpiece : piece.text ≠ [slash]) : HasLoneSlash pieces := by
  obtain ⟨earlier, p, later, hsplit, hp⟩ := h
  cases earlier with
  | nil =>
    obtain ⟨rfl, -⟩ := List.cons.inj hsplit
    exact absurd hp.1 hpiece
  | cons first earlier => exact ⟨earlier, p, later, (List.cons.inj hsplit).2, hp⟩

section

variable {before : List Piece} {expected expected' : Expectation}

theorem Leaves.unique (h : Leaves before expected) (h' : Leaves before expected') :
    expected = expected' :=
  h.eq_ofLine.trans h'.eq_ofLine.symm

theorem Leaves.ne_nil_of_mem (h : Leaves before expected) {text : Bytes} {piece : Piece}
    (hpiece : piece ∈ piecesFrom expected text) : piece.text ≠ [] := by
  obtain ⟨earlier, later, hsplit⟩ := List.append_of_mem hpiece
  have hcut := (h.piecesFrom_spec text).2 earlier piece later hsplit
  cases piece with
  | blank b => exact List.cons_ne_nil b []
  | lexeme kind token => exact hcut.2.ne_nil

/-- A comment that is opened and not closed is a lone slash among the pieces. -/
theorem Leaves.hasLoneSlash (h : Leaves before expected) {text : Bytes}
    (hfront : [slash, star] <+: text) (hopen : ¬ [star, slash] <:+: text.drop 2) :
    HasLoneSlash (piecesFrom expected text) := by
  obtain ⟨rest, rfl⟩ := hfront
  obtain ⟨piece, expected', rest', hpieces, -, -, hcut, -⟩ := h.exists_cut slash (star :: rest)
  change piecesFrom expected ([slash, star] ++ rest) = _ at hpieces
  have htext := (h.piecesFrom_spec ([slash, star] ++ rest)).1
  have hlater : ∀ p ∈ piecesFrom expected' rest', p.text ≠ [] := fun p hp =>
    h.ne_nil_of_mem (hpieces ▸ List.mem_cons_of_mem piece hp)
  rw [hpieces] at htext
  have hlexeme : ∃ kind token, piece = .lexeme kind token := by
    cases piece with
    | blank b =>
      obtain ⟨hb, hhead⟩ := hcut
      obtain rfl : slash = b := Option.some.inj hhead
      exact absurd hb (by decide)
    | lexeme kind token => exact ⟨kind, token, rfl⟩
  refine ⟨[], piece, piecesFrom expected' rest', hpieces, ?_⟩
  have hcut' : IsCut before ([slash, star] ++ rest) piece := hcut
  rw [← htext] at hcut'
  refine (loneSlash_iff hcut' hlater).2 ⟨hlexeme, ?_⟩
  rw [htext]
  exact ⟨List.prefix_append _ rest, hopen⟩

/-- **Behind a new-line a text is cut as one of its own**, if no block comment goes on over the
new-line. -/
theorem Leaves.piecesFrom_append (h : Leaves before expected) {text after : Bytes}
    (hopen : ¬ HasLoneSlash (piecesFrom expected text) ∨ ¬ [star, slash] <:+: after) :
    piecesFrom expected (text ++ newline :: after) =
      piecesFrom expected text ++ .blank newline :: piecesFrom .hash after := by
  induction hlength : text.length using Nat.strong_induction_on
    generalizing before expected text with
  | _ n ih =>
    cases text with
    | nil =>
      rw [List.nil_append, piecesFrom, piecesFrom, if_pos (by decide), if_pos rfl]
      rfl
    | cons b rest =>
      obtain ⟨piece, expected₁, rest₁, hpieces₁, htext₁, hlt, hcut₁, hleaves₁⟩ :=
        h.exists_cut b rest
      obtain ⟨piece₂, expected₂, rest₂, hpieces₂, htext₂, -, hcut₂, hleaves₂⟩ :=
        h.exists_cut b (rest ++ newline :: after)
      have hnot : NotClosedBy after (b :: rest) := by
        intro hfront
        by_contra hneither
        obtain ⟨hclosed, hafter⟩ := not_or.1 hneither
        exact hopen.elim (· (h.hasLoneSlash hfront hclosed)) (· (not_not.1 hafter))
      obtain rfl := (hcut₁.append (List.cons_ne_nil b rest) hnot).unique hcut₂
      obtain rfl := hleaves₁.unique hleaves₂
      obtain rfl : rest₂ = rest₁ ++ newline :: after := by
        have hwhole : piece.text ++ rest₂ = piece.text ++ (rest₁ ++ newline :: after) := by
          rw [← htext₂, ← List.append_assoc, ← htext₁]
          rfl
        exact List.append_cancel_left hwhole
      rw [hpieces₁] at hopen ⊢
      have hrest := ih rest₁.length (hlength ▸ hlt) hleaves₁
        (hopen.imp_left fun hlone hrest => hlone hrest.cons) rfl
      rw [List.cons_append, hpieces₂, hrest]
      rfl

end

theorem pieces_append {text after : Bytes}
    (hopen : ¬ HasLoneSlash (pieces text) ∨ ¬ [star, slash] <:+: after) :
    pieces (text ++ newline :: after) = pieces text ++ .blank newline :: pieces after :=
  leaves_nil.piecesFrom_append hopen

/-- A new-line at the end is a piece of its own. -/
theorem pieces_concat_newline (text : Bytes) :
    pieces (text ++ [newline]) = pieces text ++ [.blank newline] := by
  have hpieces : pieces (text ++ [newline]) = pieces text ++ .blank newline :: pieces [] :=
    pieces_append (.inr (by simp))
  rwa [show pieces [] = [] by rw [pieces, piecesFrom]] at hpieces

/-! ## Their lines -/

/-- The lines behind a new-line follow those before it. -/
theorem toList_linesFrom_append (positions : List Nat) (spaced : Bool) (left right : List Piece) :
    (linesFrom positions spaced (left ++ .blank newline :: right)).toList =
      (linesFrom positions spaced left).toList ++
        (linesFrom (positions.drop ((left.flatMap Piece.text).length + 1)) true right).toList := by
  induction left generalizing positions spaced with
  | nil =>
    rw [List.nil_append, linesFrom_blank, if_pos rfl]
    rfl
  | cons piece left ih =>
    rw [List.flatMap_cons, List.length_append, Nat.add_assoc, ← List.drop_drop, List.cons_append]
    have hrest (spaced : Bool) := ih (positions.drop piece.text.length) spaced
    cases piece with
    | blank b =>
      rw [linesFrom_blank, linesFrom_blank]
      split
      · exact congrArg ([] :: ·) (hrest true)
      · exact hrest true
    | lexeme kind text =>
      rw [linesFrom_lexeme, linesFrom_lexeme]
      split
      · exact hrest true
      · obtain ⟨hfirst, hothers⟩ := List.cons.inj (hrest false)
        exact congrArg₂ (fun first others => (_ :: first) :: others) hfirst hothers

/-- The tokens of a line, and which of them have a gap in front. -/
def spacedTokens (line : List Lexeme) : List ((Kind × Bytes) × Bool) :=
  line.map fun t => ((t.kind, t.text), t.spaced)

/-- What a line says wherever it stands: its tokens, and which of those behind the first have a gap
in front. -/
def shape (line : List Lexeme) : List (Kind × Bytes) × List Bool :=
  (line.map fun t => (t.kind, t.text), line.tail.map Lexeme.spaced)

theorem shape_cons_congr {t t' : Lexeme} {line line' : List Lexeme}
    (ht : (t.kind, t.text) = (t'.kind, t'.text)) (hline : spacedTokens line = spacedTokens line') :
    shape (t :: line) = shape (t' :: line') := by
  have hwords := congrArg (List.map Prod.fst) hline
  have hspaced := congrArg (List.map Prod.snd) hline
  simp only [spacedTokens, List.map_map] at hwords hspaced
  exact congrArg₂ Prod.mk (congrArg₂ List.cons ht hwords) hspaced

/-- The positions are only where the tokens are. -/
theorem spacedTokens_linesFrom (positions positions' : List Nat) (spaced : Bool)
    (pieces : List Piece) :
    (linesFrom positions spaced pieces).toList.map spacedTokens =
      (linesFrom positions' spaced pieces).toList.map spacedTokens := by
  induction pieces generalizing positions positions' spaced with
  | nil => rfl
  | cons piece pieces ih =>
    cases piece with
    | blank b =>
      rw [linesFrom_blank, linesFrom_blank]
      split
      · exact congrArg ([] :: ·) (ih _ _ true)
      · exact ih _ _ true
    | lexeme kind text =>
      rw [linesFrom_lexeme, linesFrom_lexeme]
      split
      · exact ih _ _ true
      · obtain ⟨hfirst, hothers⟩ := List.cons.inj
          (ih (positions.drop text.length) (positions'.drop text.length) false)
        exact congrArg₂ (fun first others => (((kind, text), spaced) :: first) :: others)
          hfirst hothers

/-- Where a text stands changes nothing but the places of its tokens, and whether there is a gap in
front of the first one. -/
theorem shape_linesFrom (positions positions' : List Nat) (spaced spaced' : Bool)
    (pieces : List Piece) :
    (linesFrom positions spaced pieces).toList.map shape =
      (linesFrom positions' spaced' pieces).toList.map shape := by
  induction pieces generalizing positions positions' spaced spaced' with
  | nil => rfl
  | cons piece pieces ih =>
    cases piece with
    | blank b =>
      rw [linesFrom_blank, linesFrom_blank]
      split
      · exact congrArg (shape [] :: ·) (ih _ _ true true)
      · exact ih _ _ true true
    | lexeme kind text =>
      rw [linesFrom_lexeme, linesFrom_lexeme]
      split
      · exact ih _ _ true true
      · obtain ⟨hfirst, -⟩ := List.cons.inj (spacedTokens_linesFrom
          (positions.drop text.length) (positions'.drop text.length) false pieces)
        obtain ⟨-, hothers⟩ := List.cons.inj
          (ih (positions.drop text.length) (positions'.drop text.length) false false)
        exact congrArg₂ List.cons (shape_cons_congr rfl hfirst) hothers

/-- The lines of some pieces are at the positions of their bytes, whatever comes behind. -/
theorem linesFrom_append_positions {front : List Nat} {pieces : List Piece}
    (hfront : (pieces.flatMap Piece.text).length ≤ front.length)
    (hne : ∀ piece ∈ pieces, piece.text ≠ []) (back back' : List Nat) (spaced : Bool) :
    linesFrom (front ++ back) spaced pieces = linesFrom (front ++ back') spaced pieces := by
  induction pieces generalizing front spaced with
  | nil => rfl
  | cons piece pieces ih =>
    rw [List.flatMap_cons, List.length_append] at hfront
    obtain ⟨hpiece, hpieces⟩ := List.forall_mem_cons.1 hne
    have hpos := List.length_pos_of_ne_nil hpiece
    have hhead (back : List Nat) : (front ++ back).headD 0 = front.headD 0 := by
      cases front with
      | nil => rw [List.length_nil] at hfront; omega
      | cons position front => rfl
    have hrest (spaced : Bool) :
        linesFrom ((front ++ back).drop piece.text.length) spaced pieces =
          linesFrom ((front ++ back').drop piece.text.length) spaced pieces := by
      rw [List.drop_append_of_le_length (by omega), List.drop_append_of_le_length (by omega)]
      refine ih ?_ hpieces spaced
      rw [List.length_drop]
      omega
    cases piece with
    | blank b =>
      rw [linesFrom_blank, linesFrom_blank]
      exact congrArg (fun lines => if b = newline then ([], Lines.toList lines) else lines)
        (hrest true)
    | lexeme kind text =>
      rw [Piece.text] at hrest
      rw [linesFrom_lexeme, linesFrom_lexeme, hrest, hrest, hhead, hhead]

end CPreprocessor.Lexeme
