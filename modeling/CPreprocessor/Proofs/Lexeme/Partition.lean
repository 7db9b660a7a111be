import CPreprocessor.Proofs.Lexeme.Comments
import CPreprocessor.Proofs.Source.Lines
import CPreprocessor.Proofs.Token
import Mathlib.Order.Bounds.Basic

/-!
# Tokens and gaps

The tokens of a source do not overlap, and what is between them is white-space and comments. The
logical lines are these tokens, cut at the new-lines outside comments (`Partitions`).

A block comment that is never closed is no comment. Its slash is a token of its own, which no other
slash before a star is, since a comment that is closed is the longer token (`loneSlash_iff`).
-/

namespace CPreprocessor.Lexeme

open Ascii

/-! ## The tokens of a source -/

/-- There is a new-line outside comments at an offset of a source. -/
def EndsLine (source : Bytes) (comments : List Lexeme) (i : Nat) : Prop :=
  source[i]? = some newline ∧ ∀ c ∈ comments, ¬ (c.origin ≤ i ∧ i < c.stop)

instance (source : Bytes) (comments : List Lexeme) : DecidablePred (EndsLine source comments) :=
  fun _ => inferInstanceAs (Decidable (_ ∧ _))

/-- Lines whose tokens, with comments and white-space between them, are a source. -/
structure Partitions (source : Bytes) (lines : List (List Lexeme)) (comments : List Lexeme) :
    Prop where
  /-- The pieces are the source. -/
  bytes : (pieces source).flatMap Piece.text = source
  /-- The lines are made of all tokens. -/
  flatten : lines.flatten.map (fun t => (t.kind, t.text)) =
    (pieces source).filterMap Piece.token?
  nonempty : ∀ t ∈ lines.flatten, t.origin < t.stop
  inBounds : ∀ t ∈ lines.flatten, t.stop ≤ source.length ∧
    (source.drop t.origin).take t.text.length = t.text
  disjoint : lines.flatten.Pairwise fun t u => t.stop ≤ u.origin
  isCommentIn : ∀ c ∈ comments, IsCommentIn source c
  disjointComments : comments.Pairwise fun c d => c.stop ≤ d.origin
  /-- No token has a byte of a comment. -/
  apart : ∀ c ∈ comments, ∀ t ∈ lines.flatten, c.stop ≤ t.origin ∨ t.stop ≤ c.origin
  /-- A byte outside the tokens is white-space or part of a comment. -/
  outside : ∀ i b, source[i]? = some b →
    (∀ t ∈ lines.flatten, ¬ (t.origin ≤ i ∧ i < t.stop)) →
      isBlank b = true ∨ ∃ c ∈ comments, c.origin ≤ i ∧ i < c.stop
  spacedFirst : ∀ t ∈ lines.flatten.head?, t.spaced = true ↔ 0 < t.origin
  spacedNext : lines.flatten.IsChain fun t u => u.spaced = true ↔ t.stop < u.origin
  length : lines.length = 1 + (List.range source.length).countP (EndsLine source comments ·)
  /-- Two tokens are on the same line if no new-line outside comments is between them. -/
  sameLine : ∀ (m n : Nat) (line line' : List Lexeme),
    lines[m]? = some line → lines[n]? = some line' →
      ∀ t ∈ line, ∀ u ∈ line', t.stop ≤ u.origin →
        (m = n ↔ ∀ i, t.stop ≤ i → i < u.origin → ¬ EndsLine source comments i)

theorem flatMap_pieces (source : Bytes) : (pieces source).flatMap Piece.text = source :=
  (leaves_nil.piecesFrom_spec source).1

theorem positions_ofSource (source : Bytes) :
    (Source.Text.ofSource source).positions = offsetsFrom 0 (pieces source) := by
  have hcells : (Source.Text.ofSource source).cells.map Source.Cell.origin =
      List.range source.length := by
    refine List.ext_getElem ?_ fun i _ _ => ?_
    · simp [Source.Text.ofSource]
    · simp [Source.Text.ofSource]
  rw [Source.Text.positions, hcells, offsetsFrom, flatMap_pieces, ← List.range_eq_range',
    List.range_succ]
  rfl

/-- The comments of a source are those among its pieces. -/
theorem commentsOf_eq (source : Bytes) :
    commentsOf source = commentsAt 0 false 0 (pieces source) := by
  rw [commentsOf, TokenBuffer.ofText, positions_ofSource, Token.bytes_ofSource]
  rfl

/-- Behind the pieces in front, a source goes on with the others. -/
theorem drop_of_pieces_eq {source : Bytes} {earlier later : List Piece}
    (h : pieces source = earlier ++ later) :
    source.drop (earlier.flatMap Piece.text).length = later.flatMap Piece.text := by
  conv_lhs => rw [← flatMap_pieces source, h, List.flatMap_append]
  exact List.drop_left

theorem logicalLines_ofSource (source : Bytes) :
    logicalLines (.ofSource source) = (linesAt 0 false (pieces source)).toList := by
  rw [logicalLines_eq_linesFrom, linesAt, positions_ofSource, Token.bytes_ofSource]

/-- No further occurrence is between two places if as many are before both. -/
theorem count_take_eq_iff {α : Type} [BEq α] [LawfulBEq α] {l : List α} {a : α} {i j : Nat}
    (h : i ≤ j) :
    (l.take i).count a = (l.take j).count a ↔ ∀ k, i ≤ k → k < j → l[k]? ≠ some a := by
  obtain ⟨length, rfl⟩ := Nat.exists_eq_add_of_le h
  rw [List.take_add, List.count_append, Nat.left_eq_add, List.count_eq_zero, List.mem_iff_getElem?]
  constructor
  · intro hnone k hik hkj hk
    obtain ⟨more, rfl⟩ := Nat.exists_eq_add_of_le hik
    refine hnone ⟨more, ?_⟩
    rw [List.getElem?_take_of_lt (by omega), List.getElem?_drop, hk]
  · rintro hall ⟨more, hmore⟩
    obtain ⟨hlt, -⟩ := List.getElem?_eq_some_iff.1 hmore
    rw [List.length_take] at hlt
    rw [List.getElem?_take_of_lt (by omega), List.getElem?_drop] at hmore
    exact hall (i + more) (by omega) (by omega) hmore

theorem count_eq_countP_range {α : Type} [BEq α] [LawfulBEq α] [DecidableEq α] (l : List α)
    (a : α) : l.count a = (List.range l.length).countP (l[·]? = some a) := by
  induction l with
  | nil => rfl
  | cons b l ih =>
    rw [List.length_cons, List.range_succ_eq_map, List.countP_cons, List.countP_map,
      List.count_cons, ih]
    simp [Function.comp_def]

/-- Tokens that come one after another do not overlap. -/
theorem pairwise_of_isChain {tokens : List Lexeme}
    (h : tokens.IsChain fun t u => Behind t.stop u) :
    tokens.Pairwise fun t u => t.stop ≤ u.origin := by
  have : IsTrans Lexeme fun t u => t.stop ≤ u.origin :=
    ⟨fun t u v htu huv => htu.trans ((Nat.le_add_right _ _).trans huv)⟩
  exact (h.imp fun _ _ hbehind => hbehind.1).pairwise

section

variable {bytes : List (UInt8 × Bool)} {line : Nat} {t : Lexeme} (h : StandsIn 0 bytes line t)
include h

theorem StandsIn.count_take_origin : (bytes.take t.origin).count lineEnd = line := by
  obtain ⟨-, -, before, after, rfl, horigin, hcount⟩ := h
  rw [horigin, Nat.zero_add, List.append_assoc, List.take_left, hcount]

theorem StandsIn.count_take_stop : (bytes.take t.stop).count lineEnd = line := by
  obtain ⟨-, htext, before, after, rfl, horigin, hcount⟩ := h
  have hstop : t.stop = (before ++ t.text.map (·, false)).length := by
    rw [stop, horigin, Nat.zero_add, List.length_append, List.length_map]
  rw [hstop, List.take_left, List.count_append, hcount, htext, Nat.add_zero]

theorem StandsIn.text_eq : t.stop ≤ (bytes.map Prod.fst).length ∧
    ((bytes.map Prod.fst).drop t.origin).take t.text.length = t.text := by
  obtain ⟨-, -, before, after, rfl, horigin, -⟩ := h
  have htext : (t.text.map (·, false)).map Prod.fst = t.text := by
    rw [List.map_map]
    exact List.map_id _
  rw [stop, horigin, Nat.zero_add, List.map_append, List.map_append, htext, List.append_assoc]
  constructor
  · simp only [List.length_append, List.length_map]
    omega
  · rw [← List.length_map Prod.fst, List.drop_left, List.take_left]

end

/-- The tokens of the lines of a source are their pieces. -/
theorem map_logicalLines_ofSource (source : Bytes) :
    (logicalLines (.ofSource source)).flatten.map (fun t => (t.kind, t.text)) =
      (pieces source).filterMap Piece.token? := by
  rw [← flatten_filterMap_splitOnP, List.map_flatten]
  refine congrArg List.flatten ?_
  have htokens := map_logicalLines (.ofSource source)
  rwa [Token.bytes_ofSource] at htokens

theorem covers_pieces (source : Bytes) :
    (linesAt 0 false (pieces source)).Covers 0 0 (marked (pieces source)) :=
  linesAt_covers (fun _ => isPiece_of_mem_pieces) (Nat.le_refl 0)
    (iff_of_false Bool.false_ne_true (Nat.lt_irrefl 0))

theorem map_fst_marked_pieces (source : Bytes) : (marked (pieces source)).map Prod.fst = source :=
  (map_fst_marked _).trans (flatMap_pieces source)

section

variable {source : Bytes}

theorem exists_standsIn {t : Lexeme} (ht : t ∈ (logicalLines (.ofSource source)).flatten) :
    ∃ n, StandsIn 0 (marked (pieces source)) n t := by
  rw [logicalLines_ofSource] at ht
  obtain ⟨line, hline, ht⟩ := List.mem_flatten.1 ht
  obtain ⟨n, hn⟩ := List.mem_iff_getElem?.1 hline
  exact ⟨n, (covers_pieces source).standsIn n line hn t ht⟩

/-- A byte is marked if it is part of a comment. -/
theorem getElem?_marked_iff {i : Nat} {b : UInt8} {comment : Bool} :
    (marked (pieces source))[i]? = some (b, comment) ↔ source[i]? = some b ∧
      (comment = true ↔ ∃ c ∈ commentsOf source, c.origin ≤ i ∧ i < c.stop) := by
  have hmarked (c : UInt8 × Bool) (hc : (marked (pieces source))[i]? = some c) :
      c.2 = true ↔ ∃ d ∈ commentsOf source, d.origin ≤ i ∧ i < d.stop := by
    have hiff : c.2 = true ↔ ∃ d ∈ commentsAt 0 false 0 (pieces source),
        d.origin ≤ 0 + i ∧ 0 + i < d.stop := snd_marked_iff false 0 i c hc
    rwa [Nat.zero_add, ← commentsOf_eq] at hiff
  constructor
  · intro h
    refine ⟨?_, hmarked _ h⟩
    rw [← map_fst_marked_pieces source, List.getElem?_map, h]
    rfl
  · rintro ⟨hb, hcomment⟩
    rw [← map_fst_marked_pieces source, List.getElem?_map, Option.map_eq_some_iff] at hb
    obtain ⟨⟨b, comment'⟩, hc, rfl⟩ := hb
    obtain rfl : comment' = comment := Bool.eq_iff_iff.2 ((hmarked _ hc).trans hcomment.symm)
    exact hc

theorem getElem?_marked_eq_lineEnd_iff {i : Nat} :
    (marked (pieces source))[i]? = some lineEnd ↔ EndsLine source (commentsOf source) i := by
  rw [lineEnd, getElem?_marked_iff, EndsLine]
  simp

/-- A comment is the next token where it begins. -/
theorem exists_isNext_of_mem_commentsOf {c : Lexeme} (hc : c ∈ commentsOf source) :
    ∃ header, IsNext (Kind.classes header) (source.drop c.origin) .comment c.text := by
  rw [commentsOf_eq] at hc
  obtain ⟨earlier, later, hpieces, horigin⟩ := exists_of_mem_commentsAt hc
  have hcut := (leaves_nil.piecesFrom_spec source).2 earlier _ later hpieces
  rw [List.nil_append, ← drop_of_pieces_eq hpieces, ← Nat.zero_add (List.length _), ← horigin]
    at hcut
  exact ⟨_, hcut.2⟩

theorem isCommentIn_of_mem : ∀ c ∈ commentsOf source, IsCommentIn source c := by
  intro c hc
  obtain ⟨header, hnext⟩ := exists_isNext_of_mem_commentsOf hc
  have hclass : ∀ header, Kind.comment ∈ Kind.classes header := by decide
  exact ⟨hnext.mem, hnext.front, hnext.length_le .comment (hclass header)⟩

/-- A byte that no token has is white-space or part of a comment. -/
theorem isBlank_or_exists_comment {i : Nat} {b : UInt8} (hb : source[i]? = some b)
    (h : ∀ t ∈ (logicalLines (.ofSource source)).flatten, ¬ (t.origin ≤ i ∧ i < t.stop)) :
    isBlank b = true ∨ ∃ c ∈ commentsOf source, c.origin ≤ i ∧ i < c.stop := by
  rw [logicalLines_ofSource] at h
  obtain ⟨⟨c, comment⟩, hc, rfl⟩ : ∃ c, (marked (pieces source))[i]? = some c ∧ c.1 = b := by
    rwa [← map_fst_marked_pieces source, List.getElem?_map, Option.map_eq_some_iff] at hb
  refine ((covers_pieces source).outside i _ hc).imp_right ?_
  rintro (hcomment | ⟨t, ht, hinside⟩)
  · exact (getElem?_marked_iff.1 hc).2.1 hcomment
  · rw [Nat.zero_add] at hinside
    exact absurd hinside (h t ht)

/-- No comment has a byte of a token. -/
theorem stop_le_origin_or {c t : Lexeme} (hc : c ∈ commentsOf source)
    (ht : t ∈ (logicalLines (.ofSource source)).flatten) :
    c.stop ≤ t.origin ∨ t.stop ≤ c.origin := by
  obtain ⟨n, hne, -, before, after, hmarked, horigin, -⟩ := exists_standsIn ht
  rw [Nat.zero_add] at horigin
  obtain ⟨_, hnext⟩ := exists_isNext_of_mem_commentsOf hc
  have hlength := List.length_pos_of_ne_nil hnext.ne_nil
  have hlength' := List.length_pos_of_ne_nil hne
  by_contra! hboth
  unfold stop at hboth
  -- the first byte that both have, counted from the start of the token
  obtain ⟨i, hi⟩ := Nat.exists_eq_add_of_le (Nat.le_max_right c.origin t.origin)
  have hlt : i < t.text.length := by omega
  have hbyte : (marked (pieces source))[t.origin + i]? = some (t.text[i], false) := by
    rw [hmarked, horigin, List.append_assoc, List.getElem?_append_right (Nat.le_add_right _ _),
      Nat.add_sub_cancel_left, List.getElem?_append_left (by simpa using hlt)]
    simp [hlt]
  refine Bool.false_ne_true ((getElem?_marked_iff.1 hbyte).2.2 ⟨c, hc, ?_⟩)
  unfold stop
  omega

end

/-- **Tokens and gaps partition the source.** -/
theorem partitions_logicalLines (source : Bytes) :
    Partitions source (logicalLines (.ofSource source)) (commentsOf source) where
  bytes := flatMap_pieces source
  flatten := map_logicalLines_ofSource source
  nonempty t ht := by
    obtain ⟨n, hn⟩ := exists_standsIn ht
    exact Nat.lt_add_of_pos_right (List.length_pos_of_ne_nil hn.ne_nil)
  inBounds t ht := by
    obtain ⟨n, hn⟩ := exists_standsIn ht
    have htext := hn.text_eq
    rwa [map_fst_marked_pieces] at htext
  disjoint := by
    rw [logicalLines_ofSource]
    exact pairwise_of_isChain (covers_pieces source).next
  isCommentIn := isCommentIn_of_mem
  disjointComments := commentsOf_eq source ▸ pairwise_commentsAt
  apart c hc t ht := stop_le_origin_or hc ht
  outside i b hb houtside := isBlank_or_exists_comment hb houtside
  spacedFirst := by
    rw [logicalLines_ofSource]
    exact fun t ht => ((covers_pieces source).first t ht).2
  spacedNext := by
    rw [logicalLines_ofSource]
    exact (covers_pieces source).next.imp fun _ _ hbehind => hbehind.2
  length := by
    have hlength : (marked (pieces source)).length = source.length := by
      rw [← List.length_map Prod.fst, map_fst_marked_pieces]
    rw [logicalLines_ofSource, Lines.toList, List.length_cons, (covers_pieces source).length,
      Nat.add_comm, count_eq_countP_range, hlength]
    simp only [getElem?_marked_eq_lineEnd_iff]
  sameLine := by
    rw [logicalLines_ofSource]
    intro m n line line' hline hline' t ht u hu hle
    have hm := ((covers_pieces source).standsIn m line hline t ht).count_take_stop
    have hn := ((covers_pieces source).standsIn n line' hline' u hu).count_take_origin
    simp only [← getElem?_marked_eq_lineEnd_iff]
    rw [← count_take_eq_iff hle, hm, hn]

/-! ## Block comments that are not closed -/

/-- A token begins at an offset of a source. It may be a comment. -/
def IsTokenStart (source : Bytes) (offset : Nat) : Prop :=
  ∃ earlier kind text later, pieces source = earlier ++ .lexeme kind text :: later ∧
    (earlier.flatMap Piece.text).length = offset

/-- A block comment is opened at an offset of a source, and is not closed behind it. -/
def IsOpened (source : Bytes) (offset : Nat) : Prop :=
  [slash, star] <+: source.drop offset ∧ ¬ [star, slash] <:+: source.drop (offset + 2)

/-- A piece is a slash, and the piece behind it begins with a star. -/
def LoneSlash (piece : Piece) (later : List Piece) : Prop :=
  piece.text = [slash] ∧ (later.head?.bind (·.text.head?)) = some star

/-- Of all tokens, block comments alone begin with a slash and a star. -/
theorem mem_blockCommentTails_of_mem {kind : Kind} {rest : Bytes}
    (h : slash :: star :: rest ∈ kind.language) : rest ∈ blockCommentTails := by
  have hliteral {quote : UInt8} (hquote : IsQuote quote) :
      slash :: star :: rest ∉ literals quote := by
    intro hmem
    rcases head_of_mem_literals hquote hmem with hb | rfl
    · exact absurd hb (by decide)
    · exact absurd hquote (by unfold IsQuote; decide)
  cases kind with
  | header =>
    obtain ⟨inside, -, ⟨-, htext⟩ | ⟨-, htext⟩⟩ := h
    · cases (List.cons.inj htext).1
    · cases (List.cons.inj htext).1
  | identifier => exact absurd (head_of_mem_identifiers h) (by decide)
  | number => exact absurd (head_of_mem_numbers h) (by decide)
  | character =>
    refine absurd ?_ (hliteral (.inl rfl))
    rwa [literals, Quoted.language_start_singleQuote]
  | string =>
    refine absurd ?_ (hliteral (.inr rfl))
    rwa [literals, Quoted.language_start_doubleQuote]
  | punctuator =>
    have hslashes : ∀ text ∈ punctuators, text.head? = some slash →
        text.tail.head? ≠ some star := by decide
    exact absurd rfl (hslashes _ h rfl)
  | other =>
    obtain ⟨b, -, hb⟩ := h
    cases (List.cons.inj hb).2
  | comment =>
    rcases h with ⟨_, rfl, _, ⟨_, rfl, tail, -, rfl⟩, htext⟩ |
      ⟨_, rfl, _, ⟨_, rfl, tail, htail, rfl⟩, htext⟩
    · cases (List.cons.inj (List.cons.inj htext).2).1
    · obtain rfl : tail = rest := (List.cons.inj (List.cons.inj htext).2).2
      exact htail

theorem head?_flatMap_text {later : List Piece} (h : ∀ piece ∈ later, piece.text ≠ []) :
    (later.flatMap Piece.text).head? = later.head?.bind (·.text.head?) := by
  cases later with
  | nil => rfl
  | cons piece later =>
    obtain ⟨b, rest, hpiece⟩ := List.exists_cons_of_ne_nil (h piece List.mem_cons_self)
    rw [List.flatMap_cons, hpiece, List.head?_cons, Option.bind_some, hpiece]
    rfl

/-- Where a slash is the next token, no comment is closed. The comment would be the longer token. -/
theorem IsNext.not_closed {header : Bool} {kind : Kind} {rest : Bytes}
    (h : IsNext (Kind.classes header) (slash :: star :: rest) kind [slash]) :
    ¬ [star, slash] <:+: rest := by
  intro hclosed
  obtain ⟨tail, htail, hfront⟩ := exists_blockCommentTail hclosed
  have hmem : slash :: star :: tail ∈ Kind.comment.language :=
    .inr ⟨[slash], rfl, _, ⟨[star], rfl, tail, htail, rfl⟩, rfl⟩
  have hclass : ∀ header, Kind.comment ∈ Kind.classes header := by decide
  have hlength := h.length_le .comment (hclass header) _ hmem
    (by simpa [List.cons_prefix_cons] using hfront)
  simp at hlength

/-- Where a comment is opened and not closed, the next token is a slash. -/
theorem IsNext.eq_slash {kinds : List Kind} {kind : Kind} {token rest : Bytes}
    (h : IsNext kinds (slash :: star :: rest) kind token) (hopen : ¬ [star, slash] <:+: rest) :
    token = [slash] := by
  obtain ⟨after, hafter⟩ := h.front
  obtain ⟨c, token, rfl⟩ := List.exists_cons_of_ne_nil h.ne_nil
  obtain ⟨rfl, hbehind⟩ := List.cons.inj hafter
  cases token with
  | nil => rfl
  | cons d token =>
    obtain ⟨rfl, rfl⟩ := List.cons.inj hbehind
    obtain ⟨inside, -, rfl⟩ := mem_blockCommentTails_of_mem h.mem
    exact absurd ⟨inside, after, by simp⟩ hopen

/-- **A slash that is a token before a star opens a comment that is never closed**, and nothing
else does. -/
theorem loneSlash_iff {before later : List Piece} {piece : Piece}
    (h : IsCut before ((piece :: later).flatMap Piece.text) piece)
    (hlater : ∀ p ∈ later, p.text ≠ []) :
    LoneSlash piece later ↔ (∃ kind text, piece = .lexeme kind text) ∧
      [slash, star] <+: (piece :: later).flatMap Piece.text ∧
        ¬ [star, slash] <:+: ((piece :: later).flatMap Piece.text).drop 2 := by
  rw [LoneSlash, ← head?_flatMap_text hlater]
  rw [List.flatMap_cons] at h ⊢
  generalize later.flatMap Piece.text = after at h ⊢
  constructor
  · rintro ⟨hpiece, hstar⟩
    obtain ⟨rest, rfl⟩ : ∃ rest, after = star :: rest := by
      cases after with
      | nil => cases hstar
      | cons b rest => exact ⟨rest, by rw [Option.some.inj hstar]⟩
    cases piece with
    | blank b =>
      obtain rfl : b = slash := (List.cons.inj hpiece).1
      exact absurd h.1 (by decide)
    | lexeme kind text =>
      obtain rfl : text = [slash] := hpiece
      exact ⟨⟨kind, _, rfl⟩, by simp [Piece.text], h.2.not_closed⟩
  · rintro ⟨⟨kind, text, rfl⟩, ⟨rest, hrest⟩, hopen⟩
    have hnext := h.2
    rw [← hrest] at hnext hopen
    obtain rfl : text = [slash] := hnext.eq_slash hopen
    obtain rfl : star :: rest = after := (List.cons.inj hrest).2
    exact ⟨rfl, rfl⟩

/-- The offsets at which a slash that is a token is followed by a star, among pieces that begin at
the given offset. -/
def loneSlashes (offset : Nat) (pieces : List Piece) : Set Nat :=
  {o | ∃ earlier piece later, pieces = earlier ++ piece :: later ∧
    offset + (earlier.flatMap Piece.text).length = o ∧ LoneSlash piece later}

section

variable {offset : Nat} {piece : Piece} {pieces : List Piece}

theorem isLeast_loneSlashes (h : LoneSlash piece pieces) :
    IsLeast (loneSlashes offset (piece :: pieces)) offset := by
  refine ⟨⟨[], piece, pieces, rfl, rfl, h⟩, ?_⟩
  rintro _ ⟨earlier, -, -, -, rfl, -⟩
  exact Nat.le_add_right _ _

theorem loneSlashes_cons (h : ¬ LoneSlash piece pieces) :
    loneSlashes offset (piece :: pieces) = loneSlashes (offset + piece.text.length) pieces := by
  ext o
  constructor
  · rintro ⟨earlier, p, later, hsplit, rfl, hp⟩
    cases earlier with
    | nil =>
      obtain ⟨rfl, rfl⟩ := List.cons.inj hsplit
      exact absurd hp h
    | cons first earlier =>
      obtain ⟨rfl, hrest⟩ := List.cons.inj hsplit
      refine ⟨earlier, p, later, hrest, ?_, hp⟩
      rw [List.flatMap_cons, List.length_append, Nat.add_assoc]
  · rintro ⟨earlier, p, later, rfl, rfl, hp⟩
    refine ⟨piece :: earlier, p, later, rfl, ?_, hp⟩
    rw [List.flatMap_cons, List.length_append, Nat.add_assoc]

theorem openComment_eq_some_iff {o : Nat} :
    openComment (offsetsFrom offset pieces) pieces = some o ↔
      IsLeast (loneSlashes offset pieces) o := by
  induction pieces generalizing offset with
  | nil => simp [openComment, IsLeast, loneSlashes]
  | cons piece pieces ih =>
    by_cases hlone : LoneSlash piece pieces
    · have hfound : openComment (offsetsFrom offset (piece :: pieces)) (piece :: pieces) =
          some offset := if_pos hlone
      rw [hfound, Option.some_inj]
      constructor
      · rintro rfl
        exact isLeast_loneSlashes hlone
      · exact (isLeast_loneSlashes hlone).unique
    · have hnext : openComment (offsetsFrom offset (piece :: pieces)) (piece :: pieces) =
          openComment ((offsetsFrom offset (piece :: pieces)).drop piece.text.length) pieces :=
        if_neg hlone
      rw [hnext, drop_offsetsFrom, ih, loneSlashes_cons hlone]

end

/-- A slash that is a token of a source before a star opens a comment that is never closed. -/
theorem loneSlashes_pieces (source : Bytes) :
    loneSlashes 0 (pieces source) = {o | IsTokenStart source o ∧ IsOpened source o} := by
  have hsplit {earlier later : List Piece} {piece : Piece}
      (h : pieces source = earlier ++ piece :: later) :
      LoneSlash piece later ↔ (∃ kind text, piece = .lexeme kind text) ∧
        IsOpened source (earlier.flatMap Piece.text).length := by
    have hcut := (leaves_nil.piecesFrom_spec source).2 earlier piece later h
    have hne : ∀ p ∈ later, p.text ≠ [] := fun p hp =>
      ne_nil_of_mem_pieces (by rw [h]; exact List.mem_append_right _ (List.mem_cons_of_mem _ hp))
    rw [loneSlash_iff hcut hne, IsOpened, ← List.drop_drop, drop_of_pieces_eq h]
  ext o
  constructor
  · rintro ⟨earlier, piece, later, hpieces, rfl, hlone⟩
    obtain ⟨⟨kind, text, rfl⟩, hopened⟩ := (hsplit hpieces).1 hlone
    rw [Nat.zero_add]
    exact ⟨⟨earlier, kind, text, later, hpieces, rfl⟩, hopened⟩
  · rintro ⟨⟨earlier, kind, text, later, hpieces, rfl⟩, hopened⟩
    refine ⟨earlier, .lexeme kind text, later, hpieces, Nat.zero_add _, ?_⟩
    exact (hsplit hpieces).2 ⟨⟨kind, text, rfl⟩, hopened⟩

theorem unterminatedComment_eq_some_iff (source : Bytes) (o : Nat) :
    unterminatedComment (.ofSource source) = some o ↔
      IsLeast {o | IsTokenStart source o ∧ IsOpened source o} o := by
  rw [unterminatedComment, positions_ofSource, Token.bytes_ofSource, openComment_eq_some_iff,
    loneSlashes_pieces]

/-- **Tokens and gaps partition a source.** The tokens do not overlap, what is between them is
white-space and comments, and each says whether there is a gap before it. The logical lines are the
tokens, cut at the new-lines outside comments. The unterminated comment of a source is the first
token at which a block comment is opened that is not closed. -/
theorem tokens_partition_source (source : Bytes) :
    Partitions source (logicalLines (.ofSource source)) (commentsOf source) ∧
      ∀ o, unterminatedComment (.ofSource source) = some o ↔
        IsLeast {o | IsTokenStart source o ∧ IsOpened source o} o :=
  ⟨partitions_logicalLines source, unterminatedComment_eq_some_iff source⟩

/-! ## Texts made from a source -/

/-- A token, with its place among some positions replaced by the position. -/
def placed (positions : List Nat) (t : Lexeme) : Lexeme :=
  { t with origin := positions.getD t.origin 0 }

theorem linesFrom_drop (positions : List Nat) (offset : Nat) (spaced : Bool)
    (pieces : List Piece) :
    linesFrom (positions.drop offset) spaced pieces =
      ((linesAt offset spaced pieces).1.map (placed positions),
        (linesAt offset spaced pieces).2.map (List.map (placed positions))) := by
  induction pieces generalizing offset spaced with
  | nil => rfl
  | cons piece pieces ih =>
    cases piece with
    | blank b =>
      rw [linesFrom, List.tail_drop, ih, linesAt_blank]
      by_cases hb : b = newline
      · simp only [if_pos hb]
        rfl
      · simp only [if_neg hb]
    | lexeme kind text =>
      rw [linesFrom, List.drop_drop]
      by_cases hkind : kind = .comment
      · subst hkind
        rw [if_pos rfl, ih, linesAt_comment]
      · rw [if_neg hkind, ih, linesAt_token offset spaced pieces hkind]
        simp [placed, List.headD_eq_head?_getD, List.head?_drop]

/-- The tokens of any text are those of its bytes, at the positions that its bytes have. -/
theorem logicalLines_eq_map (text : Source.Text) :
    logicalLines text =
      (logicalLines (.ofSource text.bytes)).map (List.map (placed text.positions)) := by
  have hlines := linesFrom_drop text.positions 0 false (pieces text.bytes)
  rw [List.drop_zero] at hlines
  rw [logicalLines_ofSource, logicalLines_eq_linesFrom, hlines]
  rfl

theorem openComment_drop {positions : List Nat} {offset : Nat} {pieces : List Piece}
    (h : offset + (pieces.flatMap Piece.text).length < positions.length) :
    openComment (positions.drop offset) pieces =
      (openComment (offsetsFrom offset pieces) pieces).map (positions.getD · 0) := by
  induction pieces generalizing offset with
  | nil => rfl
  | cons piece pieces ih =>
    rw [List.flatMap_cons, List.length_append, ← Nat.add_assoc] at h
    have hhead : (positions.drop offset).head? = some (positions.getD offset 0) := by
      rw [List.head?_drop, List.getD_eq_getElem?_getD, List.getElem?_eq_getElem (by omega)]
      rfl
    rw [openComment, openComment, drop_offsetsFrom, List.drop_drop, ih h, hhead]
    split <;> rfl

/-- The comment of any text that is never closed is that of its bytes. -/
theorem unterminatedComment_eq_map (text : Source.Text) :
    unterminatedComment text =
      (unterminatedComment (.ofSource text.bytes)).map (text.positions.getD · 0) := by
  have hlength : 0 + ((pieces text.bytes).flatMap Piece.text).length < text.positions.length := by
    simp [flatMap_pieces, Source.Text.positions, Source.Text.bytes]
  have hcomment := openComment_drop hlength
  rw [List.drop_zero] at hcomment
  rw [unterminatedComment, unterminatedComment, positions_ofSource, Token.bytes_ofSource, hcomment]

end CPreprocessor.Lexeme
