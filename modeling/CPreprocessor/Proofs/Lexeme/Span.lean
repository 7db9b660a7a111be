import CPreprocessor.Proofs.Lexeme.Adjacent
import CPreprocessor.Proofs.Lexeme.Pieces

/-!
# Lines over the bytes of pieces

The pieces of a text say of every byte whether it is part of a comment (`marked`). The logical lines
of the pieces lie over these bytes: every token has its place among them, in the line that as many
new-lines outside comments are before, and every byte that no token has is white-space or part of a
comment (`Lines.Covers`).

What a piece does to the lines of the pieces behind it is one of three steps: a gap moves them
(`Lines.Covers.gap`), a new-line begins a line (`Lines.Covers.newline`), and a token is put in front
of the first line (`Lines.Covers.token`).
-/

namespace CPreprocessor.Lexeme

open Ascii
open scoped Computability

/-! ## Tokens without new-lines -/

/-- Whether a character may stand in a token that is not a comment. -/
def isInline (b : UInt8) : Bool := b != newline

theorem isInline_of_isBody : ∀ b : UInt8, isBody b = true → isInline b = true :=
  forall_byte (by decide +kernel)

theorem isInline_of_isSimpleEscape :
    ∀ b : UInt8, Quoted.isSimpleEscape b = true → isInline b = true :=
  forall_byte (by decide +kernel)

theorem Uses.mono {language : Language UInt8} {p q : UInt8 → Bool} (h : Uses language p)
    (hpq : ∀ b, p b = true → q b = true) : Uses language q :=
  fun text htext b hb => hpq b (h text htext b hb)

theorem uses_hexDigits : Uses hexDigits isInline :=
  uses_oneOf fun b hb => isInline_of_isBody b (isBody_of_isWord (isWord_of_isHexDigit hb))

theorem uses_octalDigits : Uses octalDigits isInline :=
  uses_oneOf fun b hb => isInline_of_isBody b
    (isBody_of_isWord (isWord_of_isHexDigit (Quoted.isHexDigit_of_isOctalDigit hb)))

theorem uses_escapeSequences : Uses escapeSequences isInline := by
  have hbackslash : Uses (char backslash) isInline := uses_char (by decide)
  have hsimple := hbackslash.mul (uses_oneOf isInline_of_isSimpleEscape)
  have hoctal := hbackslash.mul ((uses_octalDigits.add (uses_octalDigits.mul uses_octalDigits)).add
    ((uses_octalDigits.mul uses_octalDigits).mul uses_octalDigits))
  have hhex := (hbackslash.mul (uses_char (by decide : isInline lowerX = true))).mul
    (uses_hexDigits.mul uses_hexDigits.kstar)
  exact ((hsimple.add hoctal).add hhex).add (uses_universalNames.mono isInline_of_isBody)

theorem uses_quotedCharacters (quote : UInt8) : Uses (quotedCharacters quote) isInline := by
  refine (uses_oneOf fun b hb => ?_).add uses_escapeSequences
  rw [isPlain, Bool.and_eq_true] at hb
  exact hb.2

theorem uses_headerNames : Uses headerNames isInline := by
  -- what is between the delimiters is inline, and so are the delimiters
  have hbetween {first close : UInt8} {inside : Bytes} (hinside : InsideHeader close inside)
      (hfirst : isInline first = true) (hclose : isInline close = true) :
      ∀ b ∈ first :: (inside ++ [close]), isInline b = true := by
    intro b hb
    rcases List.mem_cons.1 hb with rfl | hb
    · exact hfirst
    rcases List.mem_append.1 hb with hb | hb
    · have hnot := hinside.1 b hb
      simp only [List.mem_cons, not_or] at hnot
      simpa [isInline] using hnot.1
    · rwa [List.mem_singleton.1 hb]
  rintro text ⟨inside, -, ⟨hinside, rfl⟩ | ⟨hinside, rfl⟩⟩
  · exact hbetween hinside (by decide) (by decide)
  · exact hbetween hinside (by decide) (by decide)

/-- Comments alone have new-lines in them. -/
theorem Kind.uses_isInline {kind : Kind} (h : kind ≠ .comment) : Uses kind.language isInline := by
  have hprefixes : Uses encodingPrefixes isInline :=
    uses_encodingPrefixes.mono fun b hb => isInline_of_isBody b (isBody_of_isWord hb)
  have hchar {b : UInt8} (hb : isInline b = true) : Uses (char b) isInline := uses_char hb
  cases kind with
  | header => exact uses_headerNames
  | identifier => exact uses_identifiers.mono isInline_of_isBody
  | number => exact uses_numbers.mono isInline_of_isBody
  | character =>
    have hcharacters := uses_quotedCharacters singleQuote
    exact hprefixes.mul ((hchar (by decide)).mul
      (hcharacters.mul (hcharacters.kstar.mul (hchar (by decide)))))
  | string =>
    exact hprefixes.mul ((hchar (by decide)).mul
      ((uses_quotedCharacters doubleQuote).kstar.mul (hchar (by decide))))
  | punctuator =>
    have hall : ∀ text ∈ punctuators, ∀ b ∈ text, isInline b = true := by decide +kernel
    exact hall
  | other =>
    refine uses_oneOf fun b hb => ?_
    rw [isInline, bne_iff_ne]
    rintro rfl
    exact absurd hb (by decide)
  | comment => exact absurd rfl h

/-! ## The bytes of pieces -/

/-- Whether a piece is a comment. -/
def Piece.isComment : Piece → Bool
  | blank _ => false
  | lexeme kind _ => kind = .comment

/-- The bytes of some pieces, and of each whether it is part of a comment. -/
def marked (pieces : List Piece) : List (UInt8 × Bool) :=
  pieces.flatMap fun piece => piece.text.map (·, piece.isComment)

/-- A new-line outside comments. -/
def lineEnd : UInt8 × Bool := (newline, false)

section

variable (rest : List Piece)

theorem marked_blank (b : UInt8) :
    marked (.blank b :: rest) = [(b, false)] ++ marked rest := rfl

theorem marked_comment (text : Bytes) :
    marked (.lexeme .comment text :: rest) = text.map (·, true) ++ marked rest := rfl

theorem marked_token {kind : Kind} (hkind : kind ≠ .comment) (text : Bytes) :
    marked (.lexeme kind text :: rest) = text.map (·, false) ++ marked rest := by
  rw [marked, List.flatMap_cons, Piece.isComment, decide_eq_false hkind]
  rfl

end

theorem map_fst_marked (pieces : List Piece) :
    (marked pieces).map Prod.fst = pieces.flatMap Piece.text := by
  rw [marked, List.map_flatMap]
  refine List.flatMap_congr fun piece _ => ?_
  rw [List.map_map]
  exact List.map_id _

/-- A piece of some text. -/
def IsPiece (piece : Piece) : Prop := ∃ before text, IsCut before text piece

theorem isPiece_of_mem_pieces {text : Bytes} {piece : Piece} (h : piece ∈ pieces text) :
    IsPiece piece := by
  obtain ⟨earlier, later, hsplit⟩ := List.append_of_mem h
  exact ⟨_, _, (leaves_nil.piecesFrom_spec text).2 earlier piece later hsplit⟩

theorem IsPiece.isBlank {b : UInt8} (h : IsPiece (.blank b)) : isBlank b = true := by
  obtain ⟨_, _, hblank, -⟩ := h
  exact hblank

theorem IsPiece.ne_nil {kind : Kind} {text : Bytes} (h : IsPiece (.lexeme kind text)) :
    text ≠ [] := by
  obtain ⟨_, _, -, hnext⟩ := h
  exact hnext.ne_nil

theorem IsPiece.newline_notMem {kind : Kind} {text : Bytes} (h : IsPiece (.lexeme kind text))
    (hkind : kind ≠ .comment) : newline ∉ text := by
  obtain ⟨_, _, -, hnext⟩ := h
  exact fun hmem => absurd (Kind.uses_isInline hkind text hnext.mem newline hmem) (by decide)

/-! ## Lines at an offset -/

/-- The offset in the source of the first byte after a token. -/
def stop (t : Lexeme) : Nat := t.origin + t.text.length

/-- The offsets of the bytes of some pieces, of which the first is the given one, and of their
end. -/
def offsetsFrom (offset : Nat) (pieces : List Piece) : List Nat :=
  List.range' offset ((pieces.flatMap Piece.text).length + 1)

theorem drop_offsetsFrom (offset : Nat) (piece : Piece) (rest : List Piece) :
    (offsetsFrom offset (piece :: rest)).drop piece.text.length =
      offsetsFrom (offset + piece.text.length) rest := by
  rw [offsetsFrom, offsetsFrom, List.drop_range', List.flatMap_cons, List.length_append,
    Nat.add_assoc, Nat.add_sub_cancel_left, Nat.mul_one]

/-- The logical lines of pieces that begin at an offset of the source. -/
def linesAt (offset : Nat) (spaced : Bool) (pieces : List Piece) : Lines :=
  linesFrom (offsetsFrom offset pieces) spaced pieces

section

variable (offset : Nat) (spaced : Bool) (rest : List Piece)

theorem linesAt_blank (b : UInt8) :
    linesAt offset spaced (.blank b :: rest) =
      if b = newline then
        ([], (linesAt (offset + 1) true rest).1 :: (linesAt (offset + 1) true rest).2)
      else linesAt (offset + 1) true rest := rfl

theorem linesAt_comment (text : Bytes) :
    linesAt offset spaced (.lexeme .comment text :: rest) =
      linesAt (offset + text.length) true rest := by
  have hdrop := drop_offsetsFrom offset (.lexeme .comment text) rest
  rw [Piece.text] at hdrop
  rw [linesAt, linesFrom, hdrop]
  rfl

theorem linesAt_token {kind : Kind} (hkind : kind ≠ .comment) (text : Bytes) :
    linesAt offset spaced (.lexeme kind text :: rest) =
      (⟨kind, text, offset, spaced⟩ :: (linesAt (offset + text.length) false rest).1,
        (linesAt (offset + text.length) false rest).2) := by
  have hdrop := drop_offsetsFrom offset (.lexeme kind text) rest
  rw [Piece.text] at hdrop
  rw [linesAt, linesFrom, hdrop, if_neg hkind]
  rfl

end

/-! ## Lines over bytes -/

/-- A token stands in some bytes, the first of which is at the given offset, and this many lines end
before it. -/
structure StandsIn (offset : Nat) (bytes : List (UInt8 × Bool)) (line : Nat) (t : Lexeme) :
    Prop where
  ne_nil : t.text ≠ []
  /-- No line ends in the token. -/
  count_text : (t.text.map (·, false)).count lineEnd = 0
  exists_split : ∃ before after, bytes = before ++ t.text.map (·, false) ++ after ∧
    t.origin = offset + before.length ∧ before.count lineEnd = line

/-- A token comes after an offset, and says whether there is a gap between. -/
def Behind (offset : Nat) (t : Lexeme) : Prop :=
  offset ≤ t.origin ∧ (t.spaced = true ↔ offset < t.origin)

/-- Some lines are those of some bytes. The first byte is at the given offset, and the token before
it stops at `last`. -/
structure Lines.Covers (last offset : Nat) (bytes : List (UInt8 × Bool)) (lines : Lines) :
    Prop where
  standsIn : ∀ n line, (lines.1 :: lines.2)[n]? = some line → ∀ t ∈ line, StandsIn offset bytes n t
  outside : ∀ i c, bytes[i]? = some c → isBlank c.1 = true ∨ c.2 = true ∨
    ∃ t ∈ (lines.1 :: lines.2).flatten, t.origin ≤ offset + i ∧ offset + i < t.stop
  first : ∀ t ∈ (lines.1 :: lines.2).flatten.head?, Behind last t
  next : (lines.1 :: lines.2).flatten.IsChain fun t u => Behind t.stop u
  length : lines.2.length = bytes.count lineEnd

theorem StandsIn.append {offset line : Nat} {front bytes : List (UInt8 × Bool)} {t : Lexeme}
    (h : StandsIn (offset + front.length) bytes line t) :
    StandsIn offset (front ++ bytes) (front.count lineEnd + line) t := by
  obtain ⟨hne, htext, before, after, rfl, horigin, hcount⟩ := h
  refine ⟨hne, htext, front ++ before, after, by simp only [List.append_assoc], ?_, ?_⟩
  · rw [horigin, List.length_append, Nat.add_assoc]
  · rw [List.count_append, hcount]

/-- What holds of the bytes of two texts, each at its place, holds of the bytes of both. -/
theorem forall_getElem?_append {α : Type} {front rest : List α} {p : Nat → α → Prop}
    (hfront : ∀ i c, front[i]? = some c → p i c)
    (hrest : ∀ i c, rest[i]? = some c → p (front.length + i) c) :
    ∀ i c, (front ++ rest)[i]? = some c → p i c := by
  intro i c hc
  rcases Nat.lt_or_ge i front.length with hi | hi
  · rw [List.getElem?_append_left hi] at hc
    exact hfront i c hc
  · rw [List.getElem?_append_right hi] at hc
    obtain ⟨j, rfl⟩ := Nat.exists_eq_add_of_le hi
    rw [Nat.add_sub_cancel_left] at hc
    exact hrest j c hc

/-- No line ends in a text without new-lines. -/
theorem count_lineEnd_eq_zero {text : Bytes} (h : newline ∉ text) :
    (text.map (·, false)).count lineEnd = 0 := by
  rw [List.count_eq_zero]
  intro hmem
  obtain ⟨b, hb, hends⟩ := List.mem_map.1 hmem
  exact h ((Prod.mk.inj hends).1 ▸ hb)

namespace Lines.Covers

variable {last offset : Nat} {bytes : List (UInt8 × Bool)} {lines : Lines}

theorem nil (last offset : Nat) : Covers last offset [] ([], []) where
  standsIn n line hline := by
    rw [List.mem_singleton.1 (List.mem_of_getElem? hline)]
    exact List.forall_mem_nil _
  outside i c hc := by simp at hc
  first t ht := by simp at ht
  next := .nil
  length := rfl

/-- White-space or a comment in front is a gap. -/
theorem gap {front : List (UInt8 × Bool)} {after : Nat} (h : Covers last after bytes lines)
    (hafter : offset + front.length = after)
    (hfront : ∀ c ∈ front, isBlank c.1 = true ∨ c.2 = true) (hends : lineEnd ∉ front) :
    Covers last offset (front ++ bytes) lines := by
  subst hafter
  have hcount : front.count lineEnd = 0 := List.count_eq_zero.2 hends
  exact
    { standsIn := by
        intro n line hline t ht
        have hstands := (h.standsIn n line hline t ht).append
        rwa [hcount, Nat.zero_add] at hstands
      outside := by
        refine forall_getElem?_append (fun i c hc => ?_) fun i c hc => ?_
        · exact (hfront c (List.mem_of_getElem? hc)).imp_right .inl
        · rw [← Nat.add_assoc]
          exact h.outside i c hc
      first := h.first
      next := h.next
      length := by rw [h.length, List.count_append, hcount, Nat.zero_add] }

/-- A new-line in front begins a line. -/
theorem newline (h : Covers last (offset + 1) bytes lines) :
    Covers last offset ([lineEnd] ++ bytes) ([], lines.1 :: lines.2) where
  standsIn n line hline t ht := by
    cases n with
    | zero =>
      obtain rfl : [] = line := Option.some.inj hline
      exact absurd ht List.not_mem_nil
    | succ n =>
      have hstands : StandsIn offset ([lineEnd] ++ bytes) _ t :=
        (h.standsIn n line hline t ht).append
      rwa [List.count_singleton_self, Nat.add_comm] at hstands
  outside := by
    refine forall_getElem?_append (fun i c hc => ?_) fun i c hc => ?_
    · obtain rfl : c = lineEnd := List.mem_singleton.1 (List.mem_of_getElem? hc)
      exact .inl (by decide)
    · rw [← Nat.add_assoc]
      exact h.outside i c hc
  first := h.first
  next := h.next
  length := by
    rw [List.count_append, List.count_singleton_self, List.length_cons, h.length, Nat.add_comm]

/-- A token in front is in the first line. -/
theorem token {t : Lexeme} (h : Covers t.stop t.stop bytes lines) (ht : Behind last t)
    (hne : t.text ≠ []) (hinline : Ascii.newline ∉ t.text) :
    Covers last t.origin (t.text.map (·, false) ++ bytes) (t :: lines.1, lines.2) := by
  have hlength : t.stop = t.origin + (t.text.map (·, false)).length := by
    rw [stop, List.length_map]
  have hcount := count_lineEnd_eq_zero hinline
  -- a token behind this one is in the line that it was in
  have hmove {n : Nat} {u : Lexeme} (hu : StandsIn t.stop bytes n u) :
      StandsIn t.origin (t.text.map (·, false) ++ bytes) n u := by
    rw [hlength] at hu
    have hstands := hu.append
    rwa [hcount, Nat.zero_add] at hstands
  exact
    { standsIn := by
        intro n line hline u hu
        cases n with
        | zero =>
          obtain rfl : t :: lines.1 = line := Option.some.inj hline
          rcases List.mem_cons.1 hu with rfl | hu
          · exact ⟨hne, hcount, [], bytes, rfl, rfl, rfl⟩
          · exact hmove (h.standsIn 0 lines.1 rfl u hu)
        | succ n => exact hmove (h.standsIn (n + 1) line hline u hu)
      outside := by
        refine forall_getElem?_append (fun i c hc => ?_) fun i c hc => ?_
        · obtain ⟨hi, -⟩ := List.getElem?_eq_some_iff.1 hc
          exact .inr (.inr ⟨t, List.mem_cons_self, Nat.le_add_right _ i, by omega⟩)
        · rw [← Nat.add_assoc, ← hlength]
          refine (h.outside i c hc).imp_right (Or.imp_right ?_)
          rintro ⟨u, hu, hinside⟩
          exact ⟨u, List.mem_cons_of_mem t hu, hinside⟩
      first := by
        intro u hu
        obtain rfl : t = u := Option.some.inj hu
        exact ht
      next := List.isChain_cons.2 ⟨h.first, h.next⟩
      length := by rw [List.count_append, hcount, Nat.zero_add, h.length] }

end Lines.Covers

/-- The lines of some pieces are those of their bytes. -/
theorem linesAt_covers {pieces : List Piece} (h : ∀ piece ∈ pieces, IsPiece piece)
    {last offset : Nat} {spaced : Bool} (hlast : last ≤ offset)
    (hspaced : spaced = true ↔ last < offset) :
    (linesAt offset spaced pieces).Covers last offset (marked pieces) := by
  induction pieces generalizing last offset spaced with
  | nil => exact .nil last offset
  | cons piece pieces ih =>
    obtain ⟨hpiece, hpieces⟩ := List.forall_mem_cons.1 h
    cases piece with
    | blank b =>
      have hrest : (linesAt (offset + 1) true pieces).Covers last (offset + 1) (marked pieces) :=
        ih hpieces (Nat.le_succ_of_le hlast) (iff_of_true rfl (Nat.lt_succ_of_le hlast))
      rw [linesAt_blank, marked_blank]
      by_cases hb : b = newline
      · rw [if_pos hb]
        subst hb
        exact hrest.newline
      · rw [if_neg hb]
        refine hrest.gap rfl (List.forall_mem_singleton.2 (.inl hpiece.isBlank)) ?_
        rw [List.mem_singleton]
        exact fun hends => hb (Prod.mk.inj hends).1.symm
    | lexeme kind text =>
      have hpos : 0 < text.length := List.length_pos_of_ne_nil hpiece.ne_nil
      by_cases hkind : kind = .comment
      · subst hkind
        have hbehind : last < offset + text.length := by omega
        have hrest := ih hpieces hbehind.le (iff_of_true rfl hbehind)
        rw [linesAt_comment, marked_comment]
        refine hrest.gap (by rw [List.length_map]) ?_ fun hends => ?_
        · exact List.forall_mem_map.2 fun b _ => .inr rfl
        · obtain ⟨b, -, hb⟩ := List.mem_map.1 hends
          cases (Prod.mk.inj hb).2
      · have hrest := ih hpieces (Nat.le_refl (offset + text.length))
          (iff_of_false Bool.false_ne_true (Nat.lt_irrefl _))
        rw [linesAt_token offset spaced pieces hkind, marked_token pieces hkind]
        exact Lines.Covers.token (t := ⟨kind, text, offset, spaced⟩) hrest ⟨hlast, hspaced⟩
          hpiece.ne_nil (hpiece.newline_notMem hkind)

end CPreprocessor.Lexeme
