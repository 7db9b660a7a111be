import CPreprocessor.Proofs.Lexeme.Line
import CPreprocessor.Proofs.Lexeme.Munch
import Mathlib.Data.List.DropRight

/-!
# Tokenization

A text is cut into its bytes of white-space and its tokens, each of them the next token of what
remains of the text. Where a header name is expected is read off the pieces before: the logical line
so far is `# include`. The automaton that `piecesFrom` remembers the line with agrees with that
(`Expectation.ofLine_eq_header_iff`).
-/

namespace CPreprocessor.Lexeme

open Ascii

/-! ## Logical lines of pieces -/

namespace Piece

/-- The token that a piece is. White-space and comments are none. -/
def token? : Piece → Option (Kind × Bytes)
  | blank _ => none
  | lexeme kind text => if kind = .comment then none else some (kind, text)

/-- Whether a piece is a new-line between tokens. -/
def endsLine (piece : Piece) : Bool := piece = .blank newline

end Piece

/-- The tokens of the logical line that some pieces end in. -/
def lineTokens (before : List Piece) : List (Kind × Bytes) :=
  (before.rtakeWhile (!·.endsLine)).filterMap Piece.token?

/-- Whether the logical line so far makes the next token a header name. -/
def expectsHeader (before : List Piece) : Bool :=
  (lineTokens before).map Prod.snd = [Bytes.ofString "#", Bytes.ofString "include"] ∨
    (lineTokens before).map Prod.snd = [Bytes.ofString "%:", Bytes.ofString "include"]

/-- The place of a piece: what is before it and the text from it on. A byte of white-space is a
piece of its own, and any other byte starts the next token. -/
def IsCut (before : List Piece) (text : Bytes) : Piece → Prop
  | .blank b => isBlank b = true ∧ text.head? = some b
  | .lexeme kind token =>
    text.head?.any isBlank = false ∧ IsNext (Kind.classes (expectsHeader before)) text kind token

/-! ## What the line so far says -/

/-- The tokens of a line are tokens of some text. -/
def IsTokens (line : List (Kind × Bytes)) : Prop :=
  ∀ token ∈ line, token.1 ≠ .comment ∧
    ∃ header text, IsNext (Kind.classes header) text token.1 token.2

/-- The kind of a token, where it would be the same whether or not a header name is expected. -/
theorem kind_eq_of_isNext {kind expected : Kind} {token : Bytes}
    (h : ∃ header text, IsNext (Kind.classes header) text kind token)
    (hkind : ∀ header, (Kind.classes header).find? (·.accepts token) = some expected) :
    kind = expected := by
  obtain ⟨header, text, hnext⟩ := h
  exact Option.some.inj (hnext.kind_eq.symm.trans (hkind header))

namespace Expectation

/-- The expectation at the end of a line of tokens. -/
def ofLine (line : List (Kind × Bytes)) : Expectation :=
  line.foldl (fun expected token => expected.after token.1 token.2) .hash

theorem after_any (kind : Kind) (token : Bytes) : any.after kind token = .any := by
  cases kind <;> rfl

theorem foldl_any (line : List (Kind × Bytes)) :
    line.foldl (fun expected token => expected.after token.1 token.2) any = .any := by
  induction line with
  | nil => rfl
  | cons token line ih => rw [List.foldl_cons, after_any, ih]

section

variable {kind : Kind} {token : Bytes} (hcomment : kind ≠ .comment)
  (h : ∃ header text, IsNext (Kind.classes header) text kind token)
include hcomment

theorem after_header : header.after kind token = .any := by
  cases kind <;> first | rfl | exact absurd rfl hcomment

include h

/-- The first token of a line. -/
theorem after_hash : hash.after kind token =
    if token = Bytes.ofString "#" ∨ token = Bytes.ofString "%:" then .keyword else .any := by
  by_cases hkind : kind = .punctuator
  · subst hkind
    rfl
  · rw [if_neg]
    · cases kind <;> first | rfl | exact absurd rfl hcomment | exact absurd rfl hkind
    · rintro (rfl | rfl) <;> exact hkind (kind_eq_of_isNext h (by decide))

/-- The second token of a line that starts with `#`. -/
theorem after_keyword : keyword.after kind token =
    if token = Bytes.ofString "include" then .header else .any := by
  by_cases hkind : kind = .identifier
  · subst hkind
    rfl
  · rw [if_neg]
    · cases kind <;> first | rfl | exact absurd rfl hcomment | exact absurd rfl hkind
    · rintro rfl
      exact hkind (kind_eq_of_isNext h (by decide))

end

/-- A header name is expected behind `# include` and nowhere else. -/
theorem ofLine_eq_header_iff {line : List (Kind × Bytes)} (h : IsTokens line) :
    ofLine line = .header ↔
      line.map Prod.snd = [Bytes.ofString "#", Bytes.ofString "include"] ∨
        line.map Prod.snd = [Bytes.ofString "%:", Bytes.ofString "include"] := by
  match line with
  | [] => simp [ofLine]
  | [first] =>
    obtain ⟨hfirst, -⟩ := h first (by simp)
    have hne : ofLine [first] ≠ .header := by
      rw [ofLine, List.foldl_cons, List.foldl_nil, after_hash hfirst (h first (by simp)).2]
      split <;> simp
    simp [hne]
  | first :: second :: rest =>
    obtain ⟨⟨hfirst, hnext⟩, ⟨hsecond, hnext'⟩, hrest⟩ := by
      simpa only [IsTokens, List.forall_mem_cons] using h
    rw [ofLine, List.foldl_cons, List.foldl_cons, after_hash hfirst hnext]
    cases rest with
    | nil =>
      by_cases hhash : first.2 = Bytes.ofString "#" ∨ first.2 = Bytes.ofString "%:"
      · rw [if_pos hhash, after_keyword hsecond hnext', List.foldl_nil]
        by_cases hinclude : second.2 = Bytes.ofString "include"
        · simpa [hinclude] using hhash
        · simp [hinclude]
      · rw [if_neg hhash, after_any, List.foldl_nil]
        obtain ⟨hhash, hdigraph⟩ := not_or.1 hhash
        simp [hhash, hdigraph]
    | cons third rest =>
      obtain ⟨⟨hthird, -⟩, -⟩ := List.forall_mem_cons.1 hrest
      have hany : ∀ expected : Expectation, expected = .header ∨ expected = .any →
          (third :: rest).foldl (fun expected token => expected.after token.1 token.2) expected =
            .any := by
        rintro _ (rfl | rfl)
        · rw [List.foldl_cons, after_header hthird, foldl_any]
        · exact foldl_any _
      rw [hany]
      · simp
      · split
        · rw [after_keyword hsecond hnext']
          split
          · exact .inl rfl
          · exact .inr rfl
        · exact .inr (after_any _ _)

end Expectation

/-! ## The pieces of a text -/

/-- The pieces before leave an expectation. -/
structure Leaves (before : List Piece) (expected : Expectation) : Prop where
  isTokens : IsTokens (lineTokens before)
  eq_ofLine : expected = .ofLine (lineTokens before)

theorem Leaves.expectsHeader_eq {before : List Piece} {expected : Expectation}
    (h : Leaves before expected) : expectsHeader before = decide (expected = .header) := by
  rw [expectsHeader, decide_eq_decide, h.eq_ofLine, Expectation.ofLine_eq_header_iff h.isTokens]

theorem leaves_nil : Leaves [] .hash := ⟨List.forall_mem_nil _, rfl⟩

theorem lineTokens_concat_of_endsLine (before : List Piece) :
    lineTokens (before ++ [.blank newline]) = [] := by
  rw [lineTokens, List.rtakeWhile_concat_neg _ _ _ (by decide)]
  rfl

theorem lineTokens_concat (before : List Piece) (piece : Piece) (h : piece.endsLine = false) :
    lineTokens (before ++ [piece]) = lineTokens before ++ piece.token?.toList := by
  rw [lineTokens, List.rtakeWhile_concat_pos _ _ _ (by simp [h]), List.filterMap_append]
  rfl

section

variable {before : List Piece} {expected : Expectation}

theorem Leaves.blank (h : Leaves before expected) (b : UInt8) :
    Leaves (before ++ [.blank b]) (if b = newline then .hash else expected) := by
  by_cases hb : b = newline
  · rw [if_pos hb, hb]
    refine ⟨?_, ?_⟩ <;> rw [lineTokens_concat_of_endsLine]
    · exact List.forall_mem_nil _
    · rfl
  · rw [if_neg hb]
    have hline : lineTokens (before ++ [.blank b]) = lineTokens before := by
      rw [lineTokens_concat before _ (by simp [Piece.endsLine, hb])]
      exact List.append_nil _
    exact ⟨hline ▸ h.isTokens, hline ▸ h.eq_ofLine⟩

theorem Leaves.lexeme (h : Leaves before expected) {header : Bool} {kind : Kind}
    {text token : Bytes} (hnext : IsNext (Kind.classes header) text kind token) :
    Leaves (before ++ [.lexeme kind token]) (expected.after kind token) := by
  have hline := lineTokens_concat before (.lexeme kind token) (by simp [Piece.endsLine])
  by_cases hkind : kind = .comment
  · subst hkind
    replace hline : lineTokens (before ++ [.lexeme .comment token]) = lineTokens before := by
      rw [hline]
      exact List.append_nil _
    refine ⟨hline ▸ h.isTokens, ?_⟩
    rw [hline, ← h.eq_ofLine]
    cases expected <;> rfl
  · replace hline : lineTokens (before ++ [.lexeme kind token]) =
        lineTokens before ++ [(kind, token)] := by
      rw [hline, Piece.token?, if_neg hkind]
      rfl
    refine ⟨?_, ?_⟩ <;> rw [hline]
    · intro t ht
      rcases List.mem_append.1 ht with ht | ht
      · exact h.isTokens t ht
      · rw [List.mem_singleton.1 ht]
        exact ⟨hkind, header, text, hnext⟩
    · rw [h.eq_ofLine, Expectation.ofLine, Expectation.ofLine, List.foldl_append]
      rfl

/-- The first piece of a text is cut off as it should be, and the rest of the text is cut next. -/
theorem Leaves.exists_cut (h : Leaves before expected) (b : UInt8) (rest : Bytes) :
    ∃ piece expected' rest', piecesFrom expected (b :: rest) = piece :: piecesFrom expected' rest' ∧
      b :: rest = piece.text ++ rest' ∧ rest'.length < (b :: rest).length ∧
      IsCut before (b :: rest) piece ∧ Leaves (before ++ [piece]) expected' := by
  rw [piecesFrom]
  by_cases hb : isBlank b = true
  · rw [if_pos hb]
    exact ⟨.blank b, _, rest, rfl, rfl, Nat.lt_succ_self _, ⟨hb, rfl⟩, h.blank b⟩
  · rw [if_neg hb]
    obtain ⟨-, hnext⟩ := munch_isNext (decide (expected = .header)) (Bool.eq_false_iff.2 hb) rest
    cases hmunch : munch (decide (expected = .header)) (b :: rest) with
    | mk kind length =>
      rw [hmunch] at hnext
      obtain ⟨length, rfl⟩ : ∃ n, length = n + 1 :=
        Nat.exists_eq_succ_of_ne_zero fun hzero => hnext.ne_nil (by rw [hzero]; rfl)
      have htoken : (b :: rest).take (length + 1) = b :: rest.take length := rfl
      rw [htoken] at hnext
      refine ⟨.lexeme kind (b :: rest.take length), expected.after kind (b :: rest.take length),
        rest.drop length, rfl, ?_, ?_, ⟨?_, ?_⟩, h.lexeme hnext⟩
      · exact congrArg (b :: ·) (List.take_append_drop length rest).symm
      · simp only [List.length_drop, List.length_cons]
        omega
      · simpa using hb
      · rw [h.expectsHeader_eq]
        exact hnext

theorem Leaves.piecesFrom_spec (h : Leaves before expected) (text : Bytes) :
    (piecesFrom expected text).flatMap Piece.text = text ∧
      ∀ earlier piece later, piecesFrom expected text = earlier ++ piece :: later →
        IsCut (before ++ earlier) ((piece :: later).flatMap Piece.text) piece := by
  induction hlength : text.length using Nat.strong_induction_on
    generalizing before expected text with
  | _ n ih =>
    cases text with
    | nil =>
      rw [piecesFrom]
      exact ⟨rfl, fun earlier piece later hsplit => by simp at hsplit⟩
    | cons b rest =>
      obtain ⟨first, expected', rest', hpieces, htext, hlt, hcut, hleaves⟩ := h.exists_cut b rest
      obtain ⟨hflat, hcuts⟩ := ih rest'.length (hlength ▸ hlt) hleaves rest' rfl
      have hwhole : (first :: piecesFrom expected' rest').flatMap Piece.text = b :: rest := by
        rw [List.flatMap_cons, hflat, htext]
      rw [hpieces]
      refine ⟨hwhole, fun earlier piece later hsplit => ?_⟩
      cases earlier with
      | nil =>
        obtain ⟨rfl, rfl⟩ := List.cons.inj hsplit
        rw [List.append_nil, hwhole]
        exact hcut
      | cons piece' earlier =>
        obtain ⟨rfl, hbehind⟩ := List.cons.inj hsplit
        have := hcuts earlier piece later hbehind
        rwa [List.append_assoc] at this

end

/-! ## The tokens of the logical lines -/

/-- The kinds and texts of the tokens of some logical lines. -/
def Lines.tokens (lines : Lines) : List (List (Kind × Bytes)) :=
  lines.toList.map (List.map fun token => (token.kind, token.text))

theorem linesFrom_tokens (positions : List Nat) (spaced : Bool) (pieces : List Piece) :
    Lines.tokens (linesFrom positions spaced pieces) =
      (pieces.splitOnP Piece.endsLine).map (List.filterMap Piece.token?) := by
  induction pieces generalizing positions spaced with
  | nil => rfl
  | cons piece rest ih =>
    obtain ⟨line, lines, hlines⟩ :=
      List.exists_cons_of_ne_nil (List.splitOnP_ne_nil Piece.endsLine rest)
    rw [List.splitOnP_cons_eq_if_modifyHead, hlines]
    simp only [hlines] at ih
    cases piece with
    | blank b =>
      have hend : (Piece.blank b).endsLine = decide (b = newline) := by simp [Piece.endsLine]
      have hrest := ih positions.tail true
      rcases hfrom : linesFrom positions.tail true rest with ⟨first, others⟩
      rw [hfrom] at hrest
      simp only [linesFrom, hfrom, hend, decide_eq_true_eq]
      by_cases hb : b = newline
      · rw [if_pos hb, if_pos hb, List.map_cons, ← hrest]
        rfl
      · rw [if_neg hb, if_neg hb]
        exact hrest
    | lexeme kind text =>
      have hend : (Piece.lexeme kind text).endsLine = false := by simp [Piece.endsLine]
      rw [if_neg (by simp [hend]), List.modifyHead_cons, List.map_cons]
      by_cases hkind : kind = .comment
      · have hrest := ih (positions.drop text.length) true
        rw [List.filterMap_cons_none (by rw [Piece.token?, if_pos hkind])]
        simp only [linesFrom, if_pos hkind]
        exact hrest
      · have hrest := ih (positions.drop text.length) false
        rcases hfrom : linesFrom (positions.drop text.length) false rest with ⟨first, others⟩
        rw [hfrom] at hrest
        obtain ⟨hfirst, hothers⟩ := List.cons.inj hrest
        rw [List.filterMap_cons_some (by rw [Piece.token?, if_neg hkind]), ← hfirst, ← hothers]
        simp only [linesFrom, if_neg hkind, hfrom]
        rfl

/-- The tokens of the logical lines are the pieces that have tokens. -/
theorem map_logicalLines (text : Source.Text) :
    (logicalLines text).map (List.map fun token => (token.kind, token.text)) =
      ((pieces text.bytes).splitOnP Piece.endsLine).map (List.filterMap Piece.token?) := by
  rw [logicalLines_eq_linesFrom]
  exact linesFrom_tokens text.positions false (pieces text.bytes)

end CPreprocessor.Lexeme
