import CPreprocessor.Proofs.Lexeme.Quoted

/-!
# Header names, comments and punctuators are recognized

Header names and block comments are described by what does not occur inside them. Their automata
remember the last character, so that they notice when it is the first of two that may not occur.
-/

namespace CPreprocessor.Lexeme

open Ascii Automaton
open scoped Computability

/-- Two characters are next to each other at the front of a text or behind it. -/
theorem infix_pair_cons_iff {a b c : UInt8} {text : Bytes} :
    [a, b] <:+: c :: text ↔ (c = a ∧ text.head? = some b) ∨ [a, b] <:+: text := by
  rw [List.infix_cons_iff]
  refine or_congr_left ?_
  cases text with
  | nil => simp
  | cons d text => simp [List.cons_prefix_cons, eq_comm]

/-! ## Header names -/

namespace HeaderName

/-- Whether a text may stand before the closing delimiter once this has been read. -/
def Continues (close : UInt8) : Inside → Bytes → Prop
  | .nothing, text => text ≠ [] ∧ InsideHeader close text
  | .slash, text => InsideHeader close (Ascii.slash :: text)
  | .other, text => InsideHeader close text

/-- What may follow inside the delimiters. -/
def rest (close : UInt8) (inside : Inside) : Language UInt8 :=
  {text | ∃ before, Continues close inside before ∧ text = before ++ [close]}

/-- What may follow in each state of the automaton of header names. -/
def State.language : State → Language UInt8
  | .start => headerNames
  | .angled inside => rest greater inside
  | .quoted inside => rest doubleQuote inside
  | .closed => 1

/-- Whether a character may stand between delimiters. -/
def isAllowed (close b : UInt8) : Prop :=
  b ∉ [newline, singleQuote, backslash, doubleQuote, close]

theorem insideHeader_nil (close : UInt8) : InsideHeader close [] := by
  refine ⟨List.forall_mem_nil _, ?_, ?_⟩ <;> simp

/-- A character in front of a text inside delimiters. -/
theorem insideHeader_cons_iff {close b : UInt8} {text : Bytes} :
    InsideHeader close (b :: text) ↔
      isAllowed close b ∧ InsideHeader close text ∧
        ¬(b = Ascii.slash ∧ (text.head? = some Ascii.slash ∨ text.head? = some star)) := by
  simp only [InsideHeader, List.forall_mem_cons, infix_pair_cons_iff, isAllowed]
  tauto

section

variable {close : UInt8} (hclose : close = greater ∨ close = doubleQuote)
include hclose

theorem continues_nil_iff (inside : Inside) :
    Continues close inside [] ↔ inside ≠ .nothing := by
  cases inside with
  | nothing => simp [Continues]
  | slash =>
    refine iff_of_true (insideHeader_cons_iff.2 ⟨?_, insideHeader_nil close, by simp⟩) (by simp)
    obtain rfl | rfl := hclose <;> unfold isAllowed <;> decide
  | other => exact iff_of_true (insideHeader_nil close) (by simp)

/-- A character inside the delimiters. -/
theorem continues_cons_iff (inside : Inside) (b : UInt8) (text : Bytes) :
    Continues close inside (b :: text) ↔
      isAllowed close b ∧ ¬(inside = .slash ∧ (b = Ascii.slash ∨ b = star)) ∧
        Continues close (if b = Ascii.slash then .slash else .other) text := by
  have hslash : isAllowed close Ascii.slash := by
    obtain rfl | rfl := hclose <;> unfold isAllowed <;> decide
  have hnext : InsideHeader close (b :: text) ↔
      isAllowed close b ∧ Continues close (if b = Ascii.slash then .slash else .other) text := by
    split
    · next hb =>
      subst hb
      exact (and_iff_right hslash).symm
    · next hb =>
      rw [insideHeader_cons_iff]
      simp [Continues, hb]
  cases inside with
  | nothing => simp [Continues, hnext]
  | slash => simp [Continues, insideHeader_cons_iff (b := Ascii.slash), hslash, hnext]; tauto
  | other => simp [Continues, hnext]

theorem leftQuotient_rest {state : Inside → State}
    (hstate : ∀ i, State.language (state i) = rest close i) (inside : Inside) (b : UInt8) :
    (rest close inside).leftQuotient [b] =
      (character close state inside b).elim 0 State.language := by
  ext w
  have h : w ∈ (rest close inside).leftQuotient [b] ↔
      (b = close ∧ w = [] ∧ inside ≠ .nothing) ∨
        ∃ before, Continues close inside (b :: before) ∧ w = before ++ [close] := by
    rw [← continues_nil_iff hclose]
    constructor
    · rintro ⟨before, hbefore, hw⟩
      cases before with
      | nil =>
        obtain ⟨rfl, rfl⟩ := List.cons.inj hw
        exact .inl ⟨rfl, rfl, hbefore⟩
      | cons c before =>
        obtain ⟨rfl, rfl⟩ := List.cons.inj hw
        exact .inr ⟨before, hbefore, rfl⟩
    · rintro (⟨rfl, rfl, hnil⟩ | ⟨before, hbefore, rfl⟩)
      · exact ⟨[], hnil, rfl⟩
      · exact ⟨b :: before, hbefore, rfl⟩
  rw [h]
  have hallowed : isAllowed close b ↔
      b ∉ [newline, singleQuote, backslash, doubleQuote] ∧ b ≠ close := by
    simp only [isAllowed, List.mem_cons, List.not_mem_nil, or_false, not_or, and_assoc]
  simp only [continues_cons_iff hclose, character, beq_iff_eq, hallowed]
  by_cases hb : b = close
  · simp only [hb, ne_eq, not_true_eq_false, and_false, false_and, exists_false, or_false,
      true_and, if_true]
    split
    · next hnothing =>
      exact iff_of_false (fun h => h.2 hnothing) (Language.notMem_zero w)
    · next hnothing => exact and_iff_left hnothing
  · simp only [hb, false_and, false_or, if_false, ne_eq, not_false_eq_true, and_true]
    by_cases hmem : b ∈ [newline, singleQuote, backslash, doubleQuote]
    · rw [if_pos hmem]
      refine iff_of_false ?_ (Language.notMem_zero w)
      rintro ⟨_, ⟨hnot, -⟩, -⟩
      exact hnot hmem
    · rw [if_neg hmem]
      have hpair : (inside = .slash ∧ (b == Ascii.slash || b == star) = true) ↔
          inside = .slash ∧ (b = Ascii.slash ∨ b = star) := by simp
      by_cases hslash : inside = .slash ∧ (b = Ascii.slash ∨ b = star)
      · rw [if_pos (hpair.2 hslash)]
        refine iff_of_false ?_ (Language.notMem_zero w)
        rintro ⟨_, ⟨-, hnot, -⟩, -⟩
        exact hnot hslash
      · rw [if_neg (fun h => hslash (hpair.1 h)), Option.elim_some, hstate]
        simp only [hmem, hslash, not_false_eq_true, true_and]
        exact Iff.rfl

end

/-- The opening delimiter. -/
theorem leftQuotient_headerNames (b : UInt8) :
    headerNames.leftQuotient [b] = (step .start b).elim 0 State.language := by
  ext w
  have h : w ∈ headerNames.leftQuotient [b] ↔
      b = less ∧ w ∈ rest greater .nothing ∨ b = doubleQuote ∧ w ∈ rest doubleQuote .nothing := by
    constructor
    · rintro ⟨inside, hne, ⟨hinside, hw⟩ | ⟨hinside, hw⟩⟩
      · obtain ⟨rfl, rfl⟩ := List.cons.inj hw
        exact .inl ⟨rfl, inside, ⟨hne, hinside⟩, rfl⟩
      · obtain ⟨rfl, rfl⟩ := List.cons.inj hw
        exact .inr ⟨rfl, inside, ⟨hne, hinside⟩, rfl⟩
    · rintro (⟨rfl, inside, ⟨hne, hinside⟩, rfl⟩ | ⟨rfl, inside, ⟨hne, hinside⟩, rfl⟩)
      · exact ⟨inside, hne, .inl ⟨hinside, rfl⟩⟩
      · exact ⟨inside, hne, .inr ⟨hinside, rfl⟩⟩
  rw [h]
  simp only [step, beq_iff_eq]
  split
  · next hb =>
    have hne : ¬ less = doubleQuote := by decide
    simp only [hb, hne, true_and, false_and, or_false]
    exact Iff.rfl
  · next hb =>
    simp only [hb, false_and, false_or]
    split
    · next hq => exact and_iff_right hq
    · next hq => exact iff_of_false (fun h => hq h.1) (Language.notMem_zero w)

end HeaderName

theorem recognizes_headerName : headerName.Recognizes HeaderName.State.language where
  accepting_iff s := by
    cases s with
    | start =>
      refine iff_of_false (by simp [headerName]) ?_
      rintro ⟨inside, -, ⟨-, h⟩ | ⟨-, h⟩⟩ <;> cases h
    | angled inside | quoted inside =>
      refine iff_of_false (by simp [headerName]) ?_
      rintro ⟨before, -, h⟩
      simp at h
    | closed => simp [headerName, HeaderName.State.language]
  leftQuotient_eq s b := by
    cases s with
    | start => exact HeaderName.leftQuotient_headerNames b
    | angled inside => exact HeaderName.leftQuotient_rest (.inl rfl) (fun _ => rfl) inside b
    | quoted inside => exact HeaderName.leftQuotient_rest (.inr rfl) (fun _ => rfl) inside b
    | closed => exact Language.leftQuotient_one b

/-! ## Comments -/

namespace Comment

/-- What may follow in each state of the automaton of comments. -/
def State.language : State → Language UInt8
  | .start => comments
  | .slash => char Ascii.slash * (oneOf (· != newline))∗ + char star * blockCommentTails
  | .line => (oneOf (· != newline))∗
  | .block => blockCommentTails
  | .blockStar => blockCommentTails.leftQuotient [star]
  | .closed => 1

/-- What is in front of a text in a block comment stays in front of it. -/
theorem cons_mem_blockCommentTails {b : UInt8} {w : Bytes} :
    b :: w ∈ blockCommentTails ↔
      (b = star ∧ w = [Ascii.slash]) ∨
        ∃ inside, w = inside ++ [star, Ascii.slash] ∧
          ¬ [star, Ascii.slash] <:+: b :: (inside ++ [star]) := by
  constructor
  · rintro ⟨inside, hinside, hw⟩
    cases inside with
    | nil =>
      obtain ⟨rfl, rfl⟩ := List.cons.inj hw
      exact .inl ⟨rfl, rfl⟩
    | cons c inside =>
      obtain ⟨rfl, rfl⟩ := List.cons.inj hw
      exact .inr ⟨inside, rfl, hinside⟩
  · rintro (⟨rfl, rfl⟩ | ⟨inside, rfl, hinside⟩)
    · exact ⟨[], by decide, rfl⟩
    · exact ⟨b :: inside, hinside, rfl⟩

theorem leftQuotient_block {b : UInt8} (hb : b ≠ star) :
    blockCommentTails.leftQuotient [b] = blockCommentTails := by
  ext w
  rw [Language.mem_leftQuotient, List.singleton_append, cons_mem_blockCommentTails]
  simp only [hb, false_and, false_or, infix_pair_cons_iff]
  exact exists_congr fun _ => and_comm

theorem leftQuotient_blockStar (b : UInt8) :
    (blockCommentTails.leftQuotient [star]).leftQuotient [b] =
      if b = star then blockCommentTails.leftQuotient [star]
      else if b = Ascii.slash then 1 else blockCommentTails := by
  ext w
  have h : w ∈ (blockCommentTails.leftQuotient [star]).leftQuotient [b] ↔
      (b = Ascii.slash ∧ w = []) ∨ (b ≠ Ascii.slash ∧ b :: w ∈ blockCommentTails) := by
    show star :: b :: w ∈ blockCommentTails ↔ _
    rw [cons_mem_blockCommentTails]
    constructor
    · rintro (⟨-, hw⟩ | ⟨inside, hw, hinside⟩)
      · obtain ⟨rfl, rfl⟩ := List.cons.inj hw
        exact .inl ⟨rfl, rfl⟩
      · cases inside with
        | nil =>
          obtain ⟨rfl, rfl⟩ := List.cons.inj hw
          exact .inr ⟨by decide, [], by decide, rfl⟩
        | cons c inside =>
          obtain ⟨rfl, rfl⟩ := List.cons.inj hw
          rw [List.cons_append, infix_pair_cons_iff] at hinside
          exact .inr ⟨fun hb => hinside (.inl ⟨rfl, by simp [hb]⟩),
            b :: inside, fun h => hinside (.inr h), rfl⟩
    · rintro (⟨rfl, rfl⟩ | ⟨hb, inside, hinside, hw⟩)
      · exact .inl ⟨rfl, rfl⟩
      · refine .inr ⟨inside, hw, ?_⟩
        rw [infix_pair_cons_iff]
        rintro (⟨-, hhead⟩ | h)
        · cases inside with
          | nil => exact absurd hhead (by decide)
          | cons c inside =>
            obtain ⟨rfl, rfl⟩ := List.cons.inj hw
            exact hb (Option.some.inj hhead)
        · exact hinside h
  rw [h]
  by_cases hstar : b = star
  · subst hstar
    have hne : star ≠ Ascii.slash := by decide
    simp only [hne, false_and, false_or, ne_eq, not_false_eq_true, true_and, if_true]
    exact Iff.rfl
  · rw [if_neg hstar]
    by_cases hslash : b = Ascii.slash
    · simp only [hslash, true_and, ne_eq, not_true_eq_false, false_and, or_false, if_true]
      exact Iff.rfl
    · simp only [hslash, false_and, false_or, ne_eq, not_false_eq_true, true_and, if_false]
      exact iff_of_eq (congrArg (w ∈ ·) (leftQuotient_block hstar))

theorem nil_notMem_blockCommentTails : [] ∉ blockCommentTails := by
  rintro ⟨inside, -, h⟩
  simp at h

end Comment

theorem recognizes_comment : comment.Recognizes Comment.State.language where
  accepting_iff s := by
    cases s with
    | start =>
      refine iff_of_false (by decide) ?_
      rw [Comment.State.language, comments, Language.nil_mem_add]
      rintro (h | h) <;> exact nil_notMem_char _ (Language.nil_mem_mul.1 h).1
    | slash =>
      refine iff_of_false (by decide) ?_
      rw [Comment.State.language, Language.nil_mem_add]
      rintro (h | h) <;> exact nil_notMem_char _ (Language.nil_mem_mul.1 h).1
    | line => exact iff_of_true (by decide) (Language.nil_mem_kstar _)
    | block => exact iff_of_false (by decide) Comment.nil_notMem_blockCommentTails
    | blockStar =>
      refine iff_of_false (by decide) ?_
      rintro ⟨inside, -, h⟩
      have := congrArg List.length h
      simp at this
    | closed => exact iff_of_true (by decide) rfl
  leftQuotient_eq s b := by
    cases s with
    | start =>
      simp only [Comment.State.language, comments]
      rw [← mul_add, Language.leftQuotient_mul_of_nil_notMem (nil_notMem_char _),
        leftQuotient_char]
      simp only [comment, Comment.step, beq_iff_eq]
      by_cases hb : b = slash
      · simp only [hb, if_true, one_mul]
        rfl
      · simp only [hb, if_false, zero_mul]
        rfl
    | slash =>
      simp only [Comment.State.language]
      rw [Language.leftQuotient_add, Language.leftQuotient_mul_of_nil_notMem (nil_notMem_char _),
        Language.leftQuotient_mul_of_nil_notMem (nil_notMem_char _), leftQuotient_char,
        leftQuotient_char]
      simp only [comment, Comment.step, beq_iff_eq]
      by_cases hb : b = slash
      · have hne : slash ≠ star := by decide
        simp only [hb, hne, if_true, if_false, one_mul, zero_mul, add_zero]
        rfl
      · by_cases hstar : b = star
        · have hne : star ≠ slash := by decide
          simp only [hstar, hne, if_true, if_false, one_mul, zero_mul, zero_add]
          rfl
        · simp only [hb, hstar, if_false, zero_mul, zero_add]
          rfl
    | line =>
      simp only [Comment.State.language]
      rw [Language.leftQuotient_kstar, leftQuotient_oneOf]
      simp only [comment, Comment.step, bne_iff_ne]
      by_cases hb : b = newline
      · simp [hb]
      · simp [hb, Comment.State.language]
    | block =>
      simp only [Comment.State.language, comment, Comment.step, beq_iff_eq]
      by_cases hb : b = star
      · subst hb
        rw [if_pos rfl]
        rfl
      · rw [if_neg hb, Comment.leftQuotient_block hb]
        rfl
    | blockStar =>
      simp only [Comment.State.language]
      rw [Comment.leftQuotient_blockStar]
      simp only [comment, Comment.step, beq_iff_eq]
      split
      · rfl
      · split <;> rfl
    | closed => exact Language.leftQuotient_one b

/-! ## Punctuators -/

theorem mem_restsAfter {b : UInt8} {words : List Bytes} {text : Bytes} :
    text ∈ restsAfter b words ↔ b :: text ∈ words := by
  unfold restsAfter
  rw [List.mem_filterMap]
  constructor
  · rintro ⟨word, hword, h⟩
    cases word with
    | nil => cases h
    | cons first rest =>
      dsimp only at h
      split at h
      · next hb =>
        cases h
        rwa [← hb]
      · cases h
  · intro h
    exact ⟨b :: text, h, if_pos rfl⟩

/-- What may follow in each state of the automaton of punctuators. -/
def restLanguage (words : List Bytes) : Language UInt8 := {text | text ∈ words}

theorem recognizes_punctuator : punctuator.Recognizes restLanguage where
  accepting_iff words := List.contains_iff_mem
  leftQuotient_eq words b := by
    ext text
    show b :: text ∈ words ↔ text ∈ (punctuator.step words b).elim 0 restLanguage
    rw [← mem_restsAfter]
    simp only [punctuator]
    cases h : restsAfter b words with
    | nil => exact iff_of_false List.not_mem_nil (Language.notMem_zero text)
    | cons first rest => exact Iff.rfl

end CPreprocessor.Lexeme
