import CPreprocessor.Proofs.Lexeme.Span

/-!
# The comments of a source

The first pass over a source lists the comments among its tokens (`commentsOf`). They do not
overlap, and each is as long as a comment at its place can be (`IsCommentIn`). A byte of the source
is part of one of them exactly if its piece is a comment (`snd_marked_iff`).
-/

namespace CPreprocessor.Lexeme

open Ascii

/-- A comment stands in a source, and no longer one begins at its place. -/
structure IsCommentIn (source : Bytes) (c : Lexeme) : Prop where
  mem : c.text ∈ Kind.comment.language
  front : c.text <+: source.drop c.origin
  length_le : ∀ text ∈ Kind.comment.language, text <+: source.drop c.origin →
    text.length ≤ c.text.length

/-- The comments of a source, as its first pass lists them. -/
def commentsOf (source : Bytes) : List Lexeme :=
  (TokenBuffer.ofText (.ofSource source)).tokens.filter (·.kind = .comment)

/-- The comments among pieces that begin at an offset of the source. -/
def commentsAt (offset : Nat) (spaced : Bool) (index : Nat) (pieces : List Piece) : List Lexeme :=
  (TokenBuffer.scan (offsetsFrom offset pieces) spaced index pieces).tokens.filter
    (·.kind = .comment)

section

variable (offset : Nat) (spaced : Bool) (index : Nat) (rest : List Piece)

theorem commentsAt_blank (b : UInt8) :
    commentsAt offset spaced index (.blank b :: rest) =
      commentsAt (offset + 1) true index rest := by
  have hdrop := drop_offsetsFrom offset (.blank b) rest
  rw [Piece.text, List.length_singleton, List.drop_one] at hdrop
  rw [commentsAt, TokenBuffer.scan, hdrop]
  split <;> rfl

theorem commentsAt_lexeme (kind : Kind) (text : Bytes) :
    commentsAt offset spaced index (.lexeme kind text :: rest) =
      if kind = .comment then
        ⟨kind, text, offset, spaced⟩ :: commentsAt (offset + text.length) false (index + 1) rest
      else commentsAt (offset + text.length) false (index + 1) rest := by
  have hdrop := drop_offsetsFrom offset (.lexeme kind text) rest
  rw [Piece.text] at hdrop
  rw [commentsAt, TokenBuffer.scan, hdrop, List.filter_cons]
  simp only [decide_eq_true_eq]
  rfl

end

section

variable {offset index : Nat} {spaced : Bool} {pieces : List Piece}

/-- A comment is one of the pieces, at its place. -/
theorem exists_of_mem_commentsAt {c : Lexeme} (hc : c ∈ commentsAt offset spaced index pieces) :
    ∃ earlier later, pieces = earlier ++ .lexeme .comment c.text :: later ∧
      c.origin = offset + (earlier.flatMap Piece.text).length := by
  induction pieces generalizing offset spaced index with
  | nil => exact absurd hc List.not_mem_nil
  | cons piece pieces ih =>
    -- a comment among the other pieces is behind the first one
    have hrest {spaced : Bool} {index : Nat}
        (hc : c ∈ commentsAt (offset + piece.text.length) spaced index pieces) :
        ∃ earlier later, piece :: pieces = earlier ++ .lexeme .comment c.text :: later ∧
          c.origin = offset + (earlier.flatMap Piece.text).length := by
      obtain ⟨earlier, later, hpieces, horigin⟩ := ih hc
      refine ⟨piece :: earlier, later, by rw [hpieces, List.cons_append], ?_⟩
      rw [horigin, List.flatMap_cons, List.length_append, Nat.add_assoc]
    cases piece with
    | blank b =>
      rw [commentsAt_blank] at hc
      exact hrest hc
    | lexeme kind text =>
      rw [commentsAt_lexeme] at hc
      split at hc
      · next hkind =>
        obtain rfl | hc := List.mem_cons.1 hc
        · exact ⟨[], pieces, by rw [hkind, List.nil_append], rfl⟩
        · exact hrest hc
      · exact hrest hc

theorem le_of_mem_commentsAt : ∀ c ∈ commentsAt offset spaced index pieces, offset ≤ c.origin := by
  intro c hc
  obtain ⟨earlier, -, -, horigin⟩ := exists_of_mem_commentsAt hc
  exact horigin ▸ Nat.le_add_right _ _

theorem pairwise_commentsAt :
    (commentsAt offset spaced index pieces).Pairwise fun c d => c.stop ≤ d.origin := by
  induction pieces generalizing offset spaced index with
  | nil => exact .nil
  | cons piece pieces ih =>
    cases piece with
    | blank b =>
      rw [commentsAt_blank]
      exact ih
    | lexeme kind text =>
      rw [commentsAt_lexeme]
      split
      · exact List.pairwise_cons.2 ⟨le_of_mem_commentsAt, ih⟩
      · exact ih

/-- A byte is marked where a comment has it. -/
theorem snd_marked_iff (spaced : Bool) (index : Nat) : ∀ i c, (marked pieces)[i]? = some c →
    (c.2 = true ↔ ∃ d ∈ commentsAt offset spaced index pieces,
      d.origin ≤ offset + i ∧ offset + i < d.stop) := by
  induction pieces generalizing offset spaced index with
  | nil => exact fun i c hc => absurd hc (by simp [marked])
  | cons piece pieces ih =>
    -- no comment behind the first piece has a byte of it
    have hbehind {spaced : Bool} {index i : Nat} (hi : i < piece.text.length) :
        ¬ ∃ d ∈ commentsAt (offset + piece.text.length) spaced index pieces,
          d.origin ≤ offset + i ∧ offset + i < d.stop := by
      rintro ⟨d, hd, hle, -⟩
      have := le_of_mem_commentsAt d hd
      omega
    cases piece with
    | blank b =>
      rw [marked_blank, commentsAt_blank]
      refine forall_getElem?_append (fun i c hc => ?_) fun i c hc => ?_
      · obtain rfl : c = (b, false) := List.mem_singleton.1 (List.mem_of_getElem? hc)
        exact iff_of_false Bool.false_ne_true (hbehind (List.getElem?_eq_some_iff.1 hc).1)
      · rw [← Nat.add_assoc]
        exact ih true index i c hc
    | lexeme kind text =>
      rw [Piece.text] at hbehind
      by_cases hkind : kind = .comment
      · subst hkind
        rw [marked_comment, commentsAt_lexeme, if_pos rfl]
        refine forall_getElem?_append (fun i c hc => ?_) fun i c hc => ?_
        · obtain ⟨b, -, rfl⟩ := List.mem_map.1 (List.mem_of_getElem? hc)
          have hi := (List.getElem?_eq_some_iff.1 hc).1
          rw [List.length_map] at hi
          refine iff_of_true rfl ⟨_, List.mem_cons_self, Nat.le_add_right offset i, ?_⟩
          exact Nat.add_lt_add_left hi offset
        · rw [List.length_map, ← Nat.add_assoc, ih false (index + 1) i c hc, List.exists_mem_cons_iff]
          refine (or_iff_right fun h => ?_).symm
          exact absurd h.2 (Nat.not_lt.2 (Nat.le_add_right _ i))
      · rw [marked_token _ hkind, commentsAt_lexeme, if_neg hkind]
        refine forall_getElem?_append (fun i c hc => ?_) fun i c hc => ?_
        · obtain ⟨b, -, rfl⟩ := List.mem_map.1 (List.mem_of_getElem? hc)
          have hi := (List.getElem?_eq_some_iff.1 hc).1
          rw [List.length_map] at hi
          exact iff_of_false Bool.false_ne_true (hbehind hi)
        · rw [List.length_map, ← Nat.add_assoc]
          exact ih false (index + 1) i c hc

end

end CPreprocessor.Lexeme
