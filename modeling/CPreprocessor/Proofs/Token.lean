import CPreprocessor.Proofs.Lexeme.Pieces
import CPreprocessor.Token

/-!
# Tokens of a source

The tokens of the logical lines of a text are the pieces of the text that are neither white-space
nor comments (`Token.map_linesOf`). So the text of each of them is of its kind (`Token.IsProper`).
-/

namespace CPreprocessor

open Lexeme

theorem Lexeme.flatten_filterMap_splitOnP (pieces : List Piece) :
    ((pieces.splitOnP Piece.endsLine).map (List.filterMap Piece.token?)).flatten =
      pieces.filterMap Piece.token? := by
  induction pieces with
  | nil => rfl
  | cons piece pieces ih =>
    obtain ⟨line, lines, hlines⟩ :=
      List.exists_cons_of_ne_nil (List.splitOnP_ne_nil Piece.endsLine pieces)
    rw [hlines] at ih
    rw [List.splitOnP_cons_eq_if_modifyHead, hlines]
    cases hends : piece.endsLine with
    | true =>
      obtain rfl : piece = .blank Ascii.newline := by simpa [Piece.endsLine] using hends
      rw [if_pos rfl, List.map_cons, List.flatten_cons, ih]
      rfl
    | false =>
      rw [if_neg Bool.false_ne_true, List.modifyHead_cons, List.map_cons, List.flatten_cons]
      cases htoken : piece.token? with
      | none =>
        rw [List.filterMap_cons_none htoken, List.filterMap_cons_none htoken, ← ih]
        rfl
      | some token =>
        rw [List.filterMap_cons_some htoken, List.filterMap_cons_some htoken, ← ih]
        rfl

namespace Token

theorem map_linesOf (source : Bytes) (text : Source.Text) :
    (linesOf source text).flatten.map (fun t => (t.kind, t.text)) =
      (pieces text.bytes).filterMap Lexeme.Piece.token? := by
  rw [← flatten_filterMap_splitOnP, ← map_logicalLines, linesOf, List.map_flatten, List.map_map]
  refine congrArg List.flatten (List.map_congr_left fun line _ => ?_)
  exact List.map_map

theorem bytes_ofSource (source : Bytes) : (Source.Text.ofSource source).bytes = source := by
  refine List.ext_getElem ?_ fun n _ _ => ?_
  · simp [Source.Text.bytes, Source.Text.ofSource]
  · simp [Source.Text.bytes, Source.Text.ofSource]

/-- The text of a token is of its kind. Of string literals nothing is said, since some are made from
other tokens. -/
structure IsProper (t : Token) : Prop where
  ne_comment : t.kind ≠ .comment
  mem : t.kind ≠ .string → t.text ∈ t.kind.language

theorem isProper_of_mem_linesOf {source : Bytes} {text : Source.Text} {line : List Token}
    (hline : line ∈ linesOf source text) {t : Token} (ht : t ∈ line) : t.IsProper := by
  have hpiece : (t.kind, t.text) ∈ (pieces text.bytes).filterMap Lexeme.Piece.token? := by
    rw [← map_linesOf source text]
    exact List.mem_map_of_mem (List.mem_flatten_of_mem hline ht)
  obtain ⟨piece, hmem, htoken⟩ := List.mem_filterMap.1 hpiece
  obtain ⟨earlier, later, hsplit⟩ := List.append_of_mem hmem
  have hcut := (leaves_nil.piecesFrom_spec text.bytes).2 earlier piece later hsplit
  cases piece with
  | blank b => cases htoken
  | lexeme kind token =>
    rw [Lexeme.Piece.token?] at htoken
    split at htoken
    · cases htoken
    · next hkind =>
      obtain ⟨rfl, rfl⟩ := Prod.mk.inj (Option.some.inj htoken)
      exact ⟨hkind, fun _ => hcut.2.mem⟩

theorem isProper_of_mem_lex {source : Bytes} {t : Token} (h : t ∈ lex source) : t.IsProper := by
  obtain ⟨line, hline, ht⟩ := List.mem_flatten.1 h
  exact isProper_of_mem_linesOf hline ht

end Token

end CPreprocessor
