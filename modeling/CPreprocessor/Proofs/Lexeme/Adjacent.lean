import CPreprocessor.Proofs.Lexeme.Growth

/-!
# Tokens side by side

Tokens that are written next to each other are read as themselves if the first of them is the
longest token there. To know that of any two neighbours alone (`Apart`) is nearly enough for a whole
line: a token that would run over three or more of them is made of dots, or a block comment
(`IsToken.length_le`).
-/

namespace CPreprocessor.Lexeme

open Ascii Automaton
open scoped Computability

/-! ## Tokens -/

/-- The text of a token that may stand anywhere: of any class but header names and comments, and no
quote that opens nothing. -/
structure IsToken (text : Bytes) : Prop where
  exists_kind : ∃ kind ∈ Kind.classes false, kind ≠ .comment ∧ text ∈ kind.language
  ne_singleQuote : text ≠ [singleQuote]
  ne_doubleQuote : text ≠ [doubleQuote]

theorem singleton_mem_identifiers {b : UInt8} (h : isNondigit b = true) : [b] ∈ identifiers :=
  ⟨[b], .inl ⟨b, h, rfl⟩, [], Language.nil_mem_kstar _, rfl⟩

theorem singleton_mem_numbers {b : UInt8} (h : isDigit b = true) : [b] ∈ numbers :=
  ⟨[b], ⟨[], .inl rfl, [b], ⟨b, h, rfl⟩, rfl⟩, [], Language.nil_mem_kstar _, rfl⟩

/-- The classes of tokens, without characters that are in another one as well. -/
theorem IsToken.cases {text : Bytes} (h : IsToken text) :
    text ∈ identifiers ∨ text ∈ numbers ∨ (∃ quote, IsQuote quote ∧ text ∈ literals quote) ∨
      text ∈ punctuators ∨
      ∃ b, text = [b] ∧ isWord b = false ∧ isBlank b = false ∧ ¬ IsQuote b := by
  obtain ⟨⟨kind, hkind, hcomment, hmem⟩, hsingle, hdouble⟩ := h
  cases kind with
  | header => exact absurd hkind (by decide)
  | comment => exact absurd rfl hcomment
  | identifier => exact .inl hmem
  | number => exact .inr (.inl hmem)
  | character =>
    refine .inr (.inr (.inl ⟨singleQuote, .inl rfl, ?_⟩))
    rwa [literals, Quoted.language_start_singleQuote]
  | string =>
    refine .inr (.inr (.inl ⟨doubleQuote, .inr rfl, ?_⟩))
    rwa [literals, Quoted.language_start_doubleQuote]
  | punctuator => exact .inr (.inr (.inr (.inl hmem)))
  | other =>
    obtain ⟨b, hb, rfl⟩ := hmem
    cases hnondigit : isNondigit b with
    | true => exact .inl (singleton_mem_identifiers hnondigit)
    | false =>
      cases hdigit : isDigit b with
      | true => exact .inr (.inl (singleton_mem_numbers hdigit))
      | false =>
        refine .inr (.inr (.inr (.inr ⟨b, rfl, ?_, by simpa using hb, ?_⟩)))
        · rw [isWord, hnondigit, hdigit, Bool.or_false]
        · rintro (rfl | rfl)
          · exact hsingle rfl
          · exact hdouble rfl

/-- What the punctuators begin with. -/
theorem head_of_mem_punctuators {b : UInt8} {rest : Bytes} (h : b :: rest ∈ punctuators) :
    isWord b = false ∧ isBlank b = false ∧ b ≠ backslash ∧ ¬ IsQuote b := by
  have hall : ∀ text ∈ punctuators, ∀ b ∈ text.head?, isWord b = false ∧ isBlank b = false ∧
      b ≠ backslash ∧ ¬ (b = singleQuote ∨ b = doubleQuote) := by decide +kernel
  exact hall _ h b rfl

/-- A token begins with a character that is not white-space. -/
theorem IsToken.exists_cons {text : Bytes} (h : IsToken text) :
    ∃ b rest, text = b :: rest ∧ isBlank b = false := by
  have hbody {b : UInt8} (hb : isNondigit b = true ∨ isDigit b = true) : isBlank b = false :=
    isBlank_eq_false_of_isBody b
      (isBody_of_isWord (hb.elim isWord_of_isNondigit isWord_of_isDigit))
  cases text with
  | nil =>
    obtain ⟨kind, -, -, hmem⟩ := h.exists_kind
    have haccepts := (kind.accepts_iff []).2 hmem
    cases kind <;> exact absurd haccepts (by decide)
  | cons b rest =>
    refine ⟨b, rest, rfl, ?_⟩
    rcases h.cases with hmem | hmem | ⟨quote, hquote, hmem⟩ | hmem | ⟨c, hc, -, hblank, -⟩
    · rcases head_of_mem_identifiers hmem with hb | rfl
      · exact hbody (.inl hb)
      · decide
    · rcases head_of_mem_numbers hmem with hb | rfl
      · exact hbody (.inr hb)
      · decide
    · rcases head_of_mem_literals hquote hmem with hb | rfl
      · exact hbody (.inl hb)
      · rcases hquote with rfl | rfl <;> decide
    · exact (head_of_mem_punctuators hmem).2.1
    · rw [(List.cons.inj hc).1]
      exact hblank

section

variable {b : UInt8} {rest : Bytes} (h : IsToken (b :: rest))
include h

/-- The tokens that begin like an identifier. -/
theorem IsToken.mem_identifiers_or (hb : isNondigit b = true ∨ b = backslash) :
    b :: rest ∈ identifiers ∨ b :: rest = [backslash] ∨
      ∃ quote, IsQuote quote ∧ b :: rest ∈ literals quote := by
  rcases h.cases with hmem | hmem | hmem | hmem | ⟨c, hc, hword, -⟩
  · exact .inl hmem
  · exfalso
    rcases hb with hb | rfl
    · rcases head_of_mem_numbers hmem with hdigit | rfl
      · rw [isDigit_eq_false_of_isNondigit b hb] at hdigit
        cases hdigit
      · exact absurd hb (by decide)
    · exact absurd (head_of_mem_numbers hmem) (by decide)
  · exact .inr (.inr hmem)
  · exfalso
    obtain ⟨hword, -, hslash, -⟩ := head_of_mem_punctuators hmem
    rcases hb with hb | hb
    · rw [isWord_of_isNondigit hb] at hword
      cases hword
    · exact hslash hb
  · obtain ⟨rfl, rfl⟩ := List.cons.inj hc
    rcases hb with hb | rfl
    · rw [isWord_of_isNondigit hb] at hword
      cases hword
    · exact .inr (.inl rfl)

/-- The tokens that begin like a number. -/
theorem IsToken.mem_numbers_or (hb : isDigit b = true ∨ b = dot) :
    b :: rest ∈ numbers ∨ b :: rest = [dot] ∨ b :: rest = [dot, dot, dot] := by
  have hnondigit : ¬ isNondigit b = true := by
    intro hnondigit
    rcases hb with hb | rfl
    · rw [isDigit_eq_false_of_isNondigit b hnondigit] at hb
      cases hb
    · exact absurd hnondigit (by decide)
  rcases h.cases with hmem | hmem | ⟨quote, hquote, hmem⟩ | hmem | ⟨c, hc, hword, -⟩
  · exfalso
    rcases head_of_mem_identifiers hmem with hb' | rfl
    · exact hnondigit hb'
    · exact absurd hb (by decide)
  · exact .inl hmem
  · exfalso
    rcases head_of_mem_literals hquote hmem with hb' | rfl
    · exact hnondigit hb'
    · rcases hquote with rfl | rfl <;> exact absurd hb (by decide)
  · rcases hb with hb | rfl
    · have hword := (head_of_mem_punctuators hmem).1
      rw [isWord_of_isDigit hb] at hword
      cases hword
    · have hdots : ∀ text ∈ punctuators, text.head? = some dot →
          text = [dot] ∨ text = [dot, dot, dot] := by decide
      exact .inr (hdots _ hmem rfl)
  · obtain ⟨rfl, rfl⟩ := List.cons.inj hc
    rcases hb with hb | rfl
    · rw [isWord_of_isDigit hb] at hword
      cases hword
    · exact .inr (.inl rfl)

/-- The tokens that begin with a quote. -/
theorem IsToken.mem_literals (hb : IsQuote b) : b :: rest ∈ literals b := by
  have hbody := isBody_of_isQuote hb
  rcases h.cases with hmem | hmem | ⟨quote, hquote, hmem⟩ | hmem | ⟨c, hc, -, -, hquote⟩
  · rw [uses_identifiers _ hmem b List.mem_cons_self] at hbody
    cases hbody
  · rw [uses_numbers _ hmem b List.mem_cons_self] at hbody
    cases hbody
  · rcases head_of_mem_literals hquote hmem with hb' | rfl
    · rw [isBody_of_isWord (isWord_of_isNondigit hb')] at hbody
      cases hbody
    · exact hmem
  · exact absurd hb (head_of_mem_punctuators hmem).2.2.2
  · rw [← (List.cons.inj hc).1] at hquote
    exact absurd hb hquote

end

/-- No token begins like a comment. -/
theorem IsToken.ne_of_comment {c : UInt8} {rest : Bytes} (h : IsToken (slash :: c :: rest)) :
    c ≠ slash ∧ c ≠ star := by
  rcases h.cases with hmem | hmem | ⟨quote, hquote, hmem⟩ | hmem | ⟨d, hd, -⟩
  · exact absurd (head_of_mem_identifiers hmem) (by decide)
  · exact absurd (head_of_mem_numbers hmem) (by decide)
  · rcases head_of_mem_literals hquote hmem with hb | rfl
    · exact absurd hb (by decide)
    · rcases hquote with hquote | hquote <;> cases hquote
  · have hslashes : ∀ text ∈ punctuators, text.head? = some slash →
        text.tail.head? ≠ some slash ∧ text.tail.head? ≠ some star := by decide
    simpa using hslashes _ hmem rfl
  · cases (List.cons.inj hd).2

theorem IsToken.not_mem_comments {text : Bytes} (h : IsToken text) : text ∉ comments := by
  rintro (⟨_, rfl, _, ⟨_, rfl, tail, -, rfl⟩, rfl⟩ | ⟨_, rfl, _, ⟨_, rfl, tail, -, rfl⟩, rfl⟩)
  · exact h.ne_of_comment.1 rfl
  · exact h.ne_of_comment.2 rfl

/-! ## Neighbours -/

/-- Nothing that starts where the first of two tokens does goes on into the second one. -/
def Apart (left right : Bytes) : Prop :=
  ∀ kind ∈ Kind.classes false, ∀ text ∈ kind.language,
    text <+: left ++ right → text.length ≤ left.length

theorem Apart.false_of_append_mem {left right : Bytes} (h : Apart left right) (kind : Kind)
    (hkind : kind ∈ Kind.classes false) {more : Bytes} (hmem : left ++ more ∈ kind.language)
    (hmore : more ≠ []) (hfront : more <+: right) : False := by
  have hlength := h kind hkind (left ++ more) hmem (List.prefix_append_right_inj left |>.2 hfront)
  rw [List.length_append] at hlength
  have hpos : 0 < more.length := List.length_pos_of_ne_nil hmore
  omega

/-- What may be printed after a token: a space and anything, or a token that it is apart from and
what may be printed after that. -/
inductive Follows : Bytes → Bytes → Prop
  | nil (left : Bytes) : Follows left []
  | gap (left after : Bytes) : Follows left (space :: after)
  | token {left token after : Bytes} (isToken : IsToken token) (apart : Apart left token)
      (others : Follows token after) : Follows left (token ++ after)

/-- A character directly after a token begins the next one. -/
theorem Follows.exists_token {left after : Bytes} {b : UInt8} (h : Follows left (b :: after))
    (hb : b ≠ space) :
    ∃ token after', after = token ++ after' ∧ IsToken (b :: token) ∧ Apart left (b :: token) ∧
      Follows (b :: token) after' := by
  generalize hwhole : b :: after = whole at h
  cases h with
  | nil => cases hwhole
  | gap => exact absurd (List.cons.inj hwhole).1 hb
  | @token _ token after' isToken apart others =>
    obtain ⟨c, rest, rfl, -⟩ := isToken.exists_cons
    obtain ⟨rfl, rfl⟩ := List.cons.inj hwhole
    exact ⟨rest, after', rfl, isToken, apart, others⟩

theorem word_mem_identifiers {b : UInt8} {word : Bytes} (hb : isNondigit b = true)
    (hword : ∀ c ∈ word, isWord c = true) : b :: word ∈ identifiers := by
  refine ⟨[b], .inl ⟨b, hb, rfl⟩, word, mem_kstar_of_forall fun c hc => ?_, rfl⟩
  have hc' := hword c hc
  rw [isWord, Bool.or_eq_true] at hc'
  rcases hc' with hc' | hc'
  · exact .inl (.inl ⟨c, hc', rfl⟩)
  · exact .inr ⟨c, hc', rfl⟩

/-- A word is not spread over several tokens. -/
theorem Follows.word_front {b : UInt8} {word token after : Bytes} (h : Follows (b :: token) after)
    (hb : isNondigit b = true) (hword : ∀ c ∈ word, isWord c = true)
    (hfront : b :: word <+: b :: (token ++ after)) : word <+: token := by
  replace hfront := (List.cons_prefix_cons.1 hfront).2
  rcases List.prefix_or_prefix_of_prefix hfront (List.prefix_append token after) with
    hle | ⟨more, rfl⟩
  · exact hle
  · cases more with
    | nil => simp
    | cons c more =>
      exfalso
      have hafter : c :: more <+: after := List.prefix_append_right_inj token |>.1 hfront
      obtain ⟨after', rfl⟩ := hafter
      have hc : isWord c = true := hword c (by simp)
      have hspace : c ≠ space := by
        rintro rfl
        exact absurd hc (by decide)
      obtain ⟨next, after'', -, -, apart, -⟩ := h.exists_token hspace
      have hmem : b :: (token ++ [c]) ∈ identifiers := by
        refine word_mem_identifiers hb fun d hd => hword d ?_
        have hlonger : token ++ [c] <+: token ++ c :: more := by simp
        exact hlonger.subset hd
      exact apart.false_of_append_mem .identifier (by decide) hmem (by simp) (by simp)

/-- The backslash of a universal name is no token of its own. -/
theorem Follows.false_of_universalName {name after : Bytes} (h : Follows [backslash] after)
    (hname : name ∈ universalNames) (hfront : name <+: backslash :: after) : False := by
  obtain ⟨mark, digits, rfl, hmark, hdigits⟩ := exists_of_mem_universalNames hname
  obtain ⟨after', rfl⟩ := (List.cons_prefix_cons.1 hfront).2
  have hspace : mark ≠ space := by
    rintro rfl
    exact absurd hmark (by decide)
  obtain ⟨token, after'', hsplit, -, apart, others⟩ := h.exists_token hspace
  have hword : digits <+: token := by
    refine others.word_front hmark hdigits ?_
    rw [← hsplit]
    simp
  have hmem : [backslash] ++ mark :: digits ∈ identifiers :=
    ⟨_, .inr hname, [], Language.nil_mem_kstar _, by simp⟩
  exact apart.false_of_append_mem .identifier (by decide) hmem (by simp)
    (List.cons_prefix_cons.2 ⟨rfl, hword⟩)

/-! ## Longer tokens -/

/-- The universal names that a text begins with are the same. -/
theorem universalName_unique {name name' text : Bytes} (hname : name ∈ universalNames)
    (hname' : name' ∈ universalNames) (hfront : name <+: text) (hfront' : name' <+: text) :
    name = name' := by
  obtain ⟨mark, digits, rfl, hlength, -⟩ := hname
  obtain ⟨mark', digits', rfl, hlength', -⟩ := hname'
  obtain ⟨after, rfl⟩ := hfront
  obtain ⟨rfl, -⟩ := List.cons_prefix_cons.1 (List.cons_prefix_cons.1 hfront').2
  have hlengths : digits.length = digits'.length := by
    rcases hlength with ⟨rfl, h⟩ | ⟨rfl, h⟩ <;> rcases hlength' with ⟨hmark, h'⟩ | ⟨hmark, h'⟩
    · exact h.trans h'.symm
    · exact absurd hmark (by decide)
    · exact absurd hmark (by decide)
    · exact h.trans h'.symm
  refine ((List.prefix_of_prefix_length_le (List.prefix_append _ after) hfront' ?_).eq_of_length ?_)
  · simp [hlengths]
  · simp [hlengths]

theorem exists_universalName {rest : Bytes} (h : backslash :: rest ∈ identifiers) :
    ∃ name ∈ universalNames, name <+: backslash :: rest := by
  obtain ⟨first, hfirst, tail, -, hsplit⟩ := Language.mem_mul.1 h
  rcases hfirst with ⟨b, hb, rfl⟩ | hname
  · obtain ⟨rfl, -⟩ := List.cons.inj hsplit
    exact absurd hb (by decide)
  · exact ⟨first, hname, ⟨tail, hsplit⟩⟩

/-- A universal name directly after a token is in the next one. -/
theorem Follows.universalName_front {token after name : Bytes}
    (h : Follows (backslash :: token) after) (htoken : IsToken (backslash :: token))
    (hname : name ∈ universalNames) (hfront : name <+: backslash :: (token ++ after)) :
    name <+: backslash :: token := by
  rcases htoken.mem_identifiers_or (.inr rfl) with hmem | hlone | ⟨quote, hquote, hmem⟩
  · obtain ⟨name', hname', hnamed⟩ := exists_universalName hmem
    have hnamed' : name' <+: backslash :: (token ++ after) :=
      hnamed.trans (List.prefix_append (backslash :: token) after)
    rwa [universalName_unique hname hname' hfront hnamed']
  · obtain ⟨-, rfl⟩ := List.cons.inj hlone
    exact (h.false_of_universalName hname hfront).elim
  · rcases head_of_mem_literals hquote hmem with hb | rfl
    · exact absurd hb (by decide)
    · exact absurd hquote (by unfold IsQuote; decide)

/-- No identifier goes on behind an identifier, and no number behind a number. -/
theorem Grows.length_le (kind : Kind) (hgrows : Grows kind.language)
    (huses : Uses kind.language isBody) (hkind : kind ∈ Kind.classes false)
    {token after text : Bytes} (h : Follows token after) (htoken : token ∈ kind.language)
    (htext : text ∈ kind.language) (hfront : text <+: token ++ after) :
    text.length ≤ token.length := by
  by_contra hlength
  obtain ⟨more, rfl⟩ := List.prefix_of_prefix_length_le (List.prefix_append token after) hfront
    (by omega)
  cases more with
  | nil => simp at hlength
  | cons b rest =>
    obtain ⟨next, hnext, hnextFront, hmem⟩ := hgrows token htoken b rest htext
    obtain ⟨after', rfl⟩ := (List.prefix_append_right_inj token).1 hfront
    have hbody : isBody b = true := huses _ htext b (by simp)
    have hspace : b ≠ space := by
      rintro rfl
      exact absurd hbody (by decide)
    obtain ⟨right, after'', hsplit, isToken, apart, others⟩ := h.exists_token hspace
    have hinside : next <+: b :: right := by
      rcases hnext with rfl | hname
      · simp
      · obtain ⟨mark, digits, rfl, -⟩ := exists_of_mem_universalNames hname
        obtain ⟨rfl, -⟩ := List.cons_prefix_cons.1 hnextFront
        refine others.universalName_front isToken hname (hnextFront.trans ?_)
        rw [← hsplit]
        simp
    refine apart.false_of_append_mem kind hkind hmem ?_ hinside
    rintro rfl
    rcases hnext with hnext | hname
    · cases hnext
    · exact nil_notMem_universalNames hname

theorem uses_encodingPrefixes : Uses encodingPrefixes isWord := by
  have hchar {b : UInt8} (hb : isWord b = true) : Uses (char b) isWord := uses_char hb
  exact (((uses_one.add (hchar (by decide))).add ((hchar (by decide)).mul (hchar (by decide)))).add
    (hchar (by decide))).add (hchar (by decide))

/-- Literals that begin alike are of one kind. -/
theorem quote_eq_of_append_eq {quote quote' : UInt8} {before before' rest rest' : Bytes}
    (hquote : isWord quote = false) (hquote' : isWord quote' = false)
    (hbefore : ∀ b ∈ before, isWord b = true) (hbefore' : ∀ b ∈ before', isWord b = true)
    (h : before ++ quote :: rest = before' ++ quote' :: rest') : quote = quote' := by
  induction before generalizing before' with
  | nil =>
    cases before' with
    | nil => exact (List.cons.inj h).1
    | cons b before' =>
      rw [(List.cons.inj h).1, hbefore' b List.mem_cons_self] at hquote
      cases hquote
  | cons b before ih =>
    cases before' with
    | nil =>
      rw [← (List.cons.inj h).1, hbefore b List.mem_cons_self] at hquote'
      cases hquote'
    | cons b' before' =>
      exact ih (fun c hc => hbefore c (List.mem_cons_of_mem b hc))
        (fun c hc => hbefore' c (List.mem_cons_of_mem b' hc)) (List.cons.inj h).2

theorem isWord_of_isQuote {quote : UInt8} (h : IsQuote quote) : isWord quote = false := by
  rcases h with rfl | rfl <;> decide

/-- Nothing goes on behind a literal. -/
theorem eq_nil_of_append_mem_literals {quote : UInt8} (hquote : IsQuote quote)
    {token more : Bytes} (htoken : token ∈ literals quote) (h : token ++ more ∈ literals quote) :
    more = [] := by
  obtain ⟨s, hnil, hbehind⟩ := (recognizes_quoted hquote).exists_state htoken
  obtain rfl : s = .closed := by
    have haccepting := ((recognizes_quoted hquote).accepting_iff s).2 hnil
    simpa [quoted] using haccepting
  exact (hbehind more).1 h

/-- A token that a literal begins with is a part of its prefix. -/
theorem IsToken.isWord_of_append_mem_literals {quote : UInt8} (hquote : IsQuote quote)
    {token more : Bytes} (h : IsToken token) (hmem : token ++ more ∈ literals quote)
    (hmore : more ≠ []) : ∀ b ∈ token, isWord b = true := by
  obtain ⟨before, hbefore, inside, -, hsplit⟩ := exists_of_mem_literals hmem
  have hword := uses_encodingPrefixes before hbefore
  rcases List.append_eq_append_iff.1 hsplit with ⟨middle, rfl, -⟩ | ⟨middle, htoken, hrest⟩
  · exact fun b hb => hword b (List.mem_append_left middle hb)
  · cases middle with
    | nil => rwa [htoken, List.append_nil]
    | cons b middle =>
      exfalso
      obtain ⟨rfl, -⟩ := List.cons.inj hrest
      have hquoteMem : quote ∈ token := by simp [htoken]
      have hbody := isBody_of_isQuote hquote
      rcases h.cases with hmem' | hmem' | ⟨quote', hquote', hmem'⟩ | hmem' | ⟨b, rfl, -, -, hb⟩
      · rw [uses_identifiers token hmem' quote hquoteMem] at hbody
        cases hbody
      · rw [uses_numbers token hmem' quote hquoteMem] at hbody
        cases hbody
      · obtain ⟨before', hbefore', inside', -, rfl⟩ := exists_of_mem_literals hmem'
        rw [List.append_assoc, List.cons_append] at hsplit
        obtain rfl := quote_eq_of_append_eq (isWord_of_isQuote hquote') (isWord_of_isQuote hquote)
          (uses_encodingPrefixes before' hbefore') hword hsplit
        rw [← List.cons_append, ← List.append_assoc] at hsplit
        exact hmore (eq_nil_of_append_mem_literals hquote hmem' hmem)
      · have hnone : ∀ text ∈ punctuators, ∀ b ∈ text, ¬ (b = singleQuote ∨ b = doubleQuote) := by
          decide +kernel
        exact hnone token hmem' quote hquoteMem hquote
      · rw [← List.mem_singleton.1 hquoteMem] at hb
        exact hb hquote

/-- A quote behind the prefix of a literal begins no token. -/
theorem Follows.false_of_quote {quote : UInt8} (hquote : IsQuote quote) {kind : Kind}
    (hkind : kind ∈ Kind.classes false) (hlanguage : kind.language = literals quote)
    {token after : Bytes} (htoken : token ∈ encodingPrefixes)
    (h : Follows token (quote :: after)) : False := by
  have hspace : quote ≠ space := by
    rcases hquote with rfl | rfl <;> decide
  obtain ⟨right, after', -, isToken, apart, -⟩ := h.exists_token hspace
  obtain ⟨before, hbefore, inside, hinside, hright⟩ :=
    exists_of_mem_literals (isToken.mem_literals hquote)
  cases before with
  | nil =>
    obtain ⟨-, rfl⟩ := List.cons.inj hright
    refine apart.false_of_append_mem kind hkind ?_ (List.cons_ne_nil quote right) List.prefix_rfl
    rw [hlanguage]
    exact ⟨token, htoken, _, ⟨[quote], rfl, right, hinside, rfl⟩, rfl⟩
  | cons b before =>
    obtain ⟨rfl, -⟩ := List.cons.inj hright
    have hword := uses_encodingPrefixes _ hbefore quote List.mem_cons_self
    rw [isWord_of_isQuote hquote] at hword
    cases hword

/-- No literal goes on behind a token. -/
theorem IsToken.length_le_of_mem_literals {quote : UInt8} (hquote : IsQuote quote) {kind : Kind}
    (hkind : kind ∈ Kind.classes false) (hlanguage : kind.language = literals quote)
    {token after text : Bytes} (htoken : IsToken token) (h : Follows token after)
    (htext : text ∈ literals quote) (hfront : text <+: token ++ after) :
    text.length ≤ token.length := by
  by_contra hlength
  obtain ⟨more, rfl⟩ := List.prefix_of_prefix_length_le (List.prefix_append token after) hfront
    (by omega)
  have hmore : more ≠ [] := by
    rintro rfl
    simp at hlength
  have hword := htoken.isWord_of_append_mem_literals hquote htext hmore
  have hnotWord := isWord_of_isQuote hquote
  obtain ⟨before, hbefore, inside, hinside, hsplit⟩ := exists_of_mem_literals htext
  obtain ⟨middle, rfl, rfl⟩ : ∃ middle, before = token ++ middle ∧
      more = middle ++ quote :: inside := by
    rcases List.append_eq_append_iff.1 hsplit with h | ⟨middle, rfl, hrest⟩
    · exact h
    · cases middle with
      | nil => exact ⟨[], by simp, hrest.symm⟩
      | cons b middle =>
        obtain ⟨rfl, -⟩ := List.cons.inj hrest
        rw [hword quote (by simp)] at hnotWord
        cases hnotWord
  obtain ⟨after', rfl⟩ := (List.prefix_append_right_inj token).1 hfront
  cases middle with
  | nil =>
    rw [List.append_nil] at hbefore
    exact h.false_of_quote hquote hkind hlanguage hbefore
  | cons c middle =>
    -- the prefix is a word, and goes on in the next token
    obtain ⟨b, rest, rfl, -⟩ := htoken.exists_cons
    have hb : isNondigit b = true := by
      rcases head_of_mem_literals hquote htext with hb | rfl
      · exact hb
      · rw [hword b List.mem_cons_self] at hnotWord
        cases hnotWord
    have hbeforeWord : ∀ d ∈ rest ++ c :: middle, isWord d = true := fun d hd =>
      uses_encodingPrefixes _ hbefore d (List.mem_cons_of_mem b hd)
    have hinside := h.word_front hb hbeforeWord (by simp)
    simpa using hinside.length_le

/-- What is printed after a token makes it a part of a token of more than two: of an ellipsis, or of
a block comment. -/
def RunsOn (token after : Bytes) : Prop :=
  token = [dot] ∧ [dot, dot] <+: after ∨
    token = [slash] ∧ after.head? = some star ∧ [star, slash] <:+: after.tail

theorem exists_blockCommentTail {text : Bytes} (h : [star, slash] <:+: text) :
    ∃ tail ∈ blockCommentTails, tail <+: text := by
  induction text with
  | nil => simp at h
  | cons b text ih =>
    by_cases hfirst : b = star ∧ text.head? = some slash
    · obtain ⟨rfl, hslash⟩ := hfirst
      obtain ⟨c, rest, rfl⟩ : ∃ c rest, text = c :: rest := by
        cases text with
        | nil => cases hslash
        | cons c rest => exact ⟨c, rest, rfl⟩
      obtain rfl : c = slash := Option.some.inj hslash
      exact ⟨[star, slash], ⟨[], by decide, rfl⟩, by simp⟩
    · have hrest : [star, slash] <:+: text := (infix_pair_cons_iff.1 h).resolve_left hfirst
      obtain ⟨_, ⟨inside, hinside, rfl⟩, hfront⟩ := ih hrest
      refine ⟨b :: (inside ++ [star, slash]), ⟨b :: inside, ?_, rfl⟩, by simpa using hfront⟩
      rw [List.cons_append, infix_pair_cons_iff]
      rintro (⟨hb, hhead⟩ | hinfix)
      · refine hfirst ⟨hb, ?_⟩
        obtain ⟨after, rfl⟩ := hfront
        cases inside with
        | nil => exact absurd hhead (by decide)
        | cons c inside => exact hhead
      · exact hinside hinfix

/-- A token that runs on is not the longest one. -/
theorem exists_longer_of_runsOn {token after : Bytes} (h : RunsOn token after) :
    ∃ kind ∈ Kind.classes false, ∃ text ∈ kind.language,
      text <+: token ++ after ∧ token.length < text.length := by
  rcases h with ⟨rfl, hdots⟩ | ⟨rfl, hstar, hclosed⟩
  · exact ⟨.punctuator, by decide, [dot, dot, dot], by decide,
      List.prefix_append_right_inj [dot] |>.2 hdots, by simp⟩
  · cases after with
    | nil => cases hstar
    | cons b after =>
      obtain rfl : b = star := Option.some.inj hstar
      obtain ⟨tail, htail, hfront⟩ := exists_blockCommentTail hclosed
      refine ⟨.comment, by decide, slash :: star :: tail, ?_, ?_, by simp⟩
      · exact .inr ⟨[slash], rfl, _, ⟨[star], rfl, tail, htail, rfl⟩, rfl⟩
      · simpa [List.cons_prefix_cons] using hfront

section

variable {token after text : Bytes} (htoken : IsToken token) (h : Follows token after)
  (hruns : ¬ RunsOn token after) (hfront : text <+: token ++ after)
include htoken h hruns hfront

/-- A comment that goes on behind a token is a block comment that is closed somewhere. -/
theorem IsToken.length_le_of_mem_comments (htext : text ∈ comments) :
    text.length ≤ token.length := by
  by_contra hlength
  obtain ⟨b, rest, rfl, -⟩ := htoken.exists_cons
  have hcomment : ∃ c tail, text = slash :: c :: tail ∧
      (c = slash ∨ c = star ∧ tail ∈ blockCommentTails) := by
    rcases htext with ⟨_, rfl, _, ⟨_, rfl, tail, -, rfl⟩, rfl⟩ |
      ⟨_, rfl, _, ⟨_, rfl, tail, htail, rfl⟩, rfl⟩
    · exact ⟨slash, tail, rfl, .inl rfl⟩
    · exact ⟨star, tail, rfl, .inr ⟨rfl, htail⟩⟩
  obtain ⟨c, tail, rfl, hc⟩ := hcomment
  obtain ⟨rfl, hbehind⟩ := List.cons_prefix_cons.1 hfront
  cases rest with
  | cons d rest =>
    obtain ⟨rfl, -⟩ := List.cons_prefix_cons.1 hbehind
    obtain ⟨hslash, hstar⟩ := htoken.ne_of_comment
    rcases hc with rfl | ⟨rfl, -⟩
    · exact hslash rfl
    · exact hstar rfl
  | nil =>
    obtain ⟨after', rfl⟩ := hbehind
    rcases hc with rfl | ⟨rfl, inside, -, rfl⟩
    · obtain ⟨right, after'', -, -, apart, -⟩ := h.exists_token (by decide)
      have hmem : [slash] ++ [slash] ∈ comments :=
        .inl ⟨[slash], rfl, [slash], ⟨[slash], rfl, [], Language.nil_mem_kstar _, rfl⟩, rfl⟩
      exact apart.false_of_append_mem .comment (by decide) hmem (by simp) (by simp)
    · refine hruns (.inr ⟨rfl, rfl, inside, after', ?_⟩)
      simp

/-- A punctuator that goes on behind a token is an ellipsis. -/
theorem IsToken.length_le_of_mem_punctuators (htext : text ∈ punctuators) :
    text.length ≤ token.length := by
  by_contra hlength
  obtain ⟨more, rfl⟩ := List.prefix_of_prefix_length_le (List.prefix_append token after) hfront
    (by omega)
  obtain ⟨after', rfl⟩ := (List.prefix_append_right_inj token).1 hfront
  have hshort : ∀ text ∈ punctuators, ∀ n < text.length, 0 < n →
      text.take n ++ (text.drop n).take 1 ∈ punctuators ∨
        text.take n = [dot] ∧ text.drop n = [dot, dot] ∨
        text.take n = Bytes.ofString "%:" ∧ text.drop n = Bytes.ofString "%:" := by
    decide
  have hblank : ∀ text ∈ punctuators, space ∉ text := by decide
  obtain ⟨b, rest, rfl, -⟩ := htoken.exists_cons
  specialize hshort _ htext (b :: rest).length (by omega) (by simp)
  rw [List.take_left, List.drop_left] at hshort
  specialize hblank _ htext
  cases more with
  | nil => simp at hlength
  | cons c more =>
    have hspace : c ≠ space := by
      rintro rfl
      exact hblank (by simp)
    obtain ⟨right, after'', hsplit, isToken, apart, others⟩ := h.exists_token hspace
    rcases hshort with hmem | ⟨hdot, hdots⟩ | ⟨hdigraph, hagain⟩
    · exact apart.false_of_append_mem .punctuator (by decide) hmem (by simp) (by simp)
    · exact hruns (.inl ⟨hdot, hdots ▸ List.prefix_append _ after'⟩)
    · -- of the digraph that would follow, the second half would be cut off from the first
      obtain ⟨rfl, hmore⟩ := List.cons.inj hagain
      obtain rfl : more = [0x3A] := hmore
      cases right with
      | nil =>
        obtain rfl : 0x3A :: after' = after'' := hsplit
        obtain ⟨_, _, -, -, apart', -⟩ := others.exists_token (by decide)
        have hmem : [0x25] ++ [0x3A] ∈ punctuators := by decide
        exact apart'.false_of_append_mem .punctuator (by decide) hmem (by simp) (by simp)
      | cons d right =>
        obtain ⟨rfl, -⟩ := List.cons.inj hsplit
        exact apart.false_of_append_mem .punctuator (by decide) htext (by simp) (by simp)

omit hruns in
/-- No identifier goes on behind a token. -/
theorem IsToken.length_le_of_mem_identifiers (htext : text ∈ identifiers) :
    text.length ≤ token.length := by
  by_contra hlength
  obtain ⟨more, rfl⟩ := List.prefix_of_prefix_length_le (List.prefix_append token after) hfront
    (by omega)
  obtain ⟨b, rest, rfl, -⟩ := htoken.exists_cons
  rcases htoken.mem_identifiers_or (head_of_mem_identifiers htext) with
    hmem | hlone | ⟨quote, hquote, hmem⟩
  · exact hlength (Grows.length_le .identifier grows_identifiers uses_identifiers (by decide) h
      hmem htext hfront)
  · obtain ⟨rfl, rfl⟩ := List.cons.inj hlone
    obtain ⟨name, hname, hnamed⟩ := exists_universalName htext
    exact h.false_of_universalName hname (hnamed.trans hfront)
  · have hbody := uses_identifiers _ htext quote
      (List.mem_append_left more (quote_mem_of_mem_literals hmem))
    rw [isBody_of_isQuote hquote] at hbody
    cases hbody

omit hruns in
/-- No number goes on behind a token. -/
theorem IsToken.length_le_of_mem_numbers (htext : text ∈ numbers) :
    text.length ≤ token.length := by
  by_contra hlength
  obtain ⟨more, rfl⟩ := List.prefix_of_prefix_length_le (List.prefix_append token after) hfront
    (by omega)
  obtain ⟨b, rest, rfl, -⟩ := htoken.exists_cons
  rcases htoken.mem_numbers_or (head_of_mem_numbers htext) with hmem | hdot | hdots
  · exact hlength
      (Grows.length_le .number grows_numbers uses_numbers (by decide) h hmem htext hfront)
  · obtain ⟨rfl, rfl⟩ := List.cons.inj hdot
    obtain ⟨after', rfl⟩ := (List.prefix_append_right_inj [dot]).1 hfront
    cases more with
    | nil => simp at hlength
    | cons c more =>
      have hc : isDigit c = true := isDigit_of_dot_mem_numbers htext
      have hspace : c ≠ space := by
        rintro rfl
        exact absurd hc (by decide)
      obtain ⟨right, after'', -, -, apart, -⟩ := h.exists_token hspace
      have hmem : [dot] ++ [c] ∈ numbers :=
        ⟨[dot, c], ⟨[dot], .inr rfl, [c], ⟨c, hc, rfl⟩, rfl⟩, [], Language.nil_mem_kstar _, rfl⟩
      exact apart.false_of_append_mem .number (by decide) hmem (by simp) (by simp)
  · rw [hdots] at htext
    exact absurd (isDigit_of_dot_mem_numbers htext) (by decide)

/-- **A token is the longest one where it stands**, if it is apart from its neighbour, and so are
the tokens after it, and it does not run on as a part of an ellipsis or of a block comment. -/
theorem IsToken.length_le {kind : Kind} (hkind : kind ∈ Kind.classes false)
    (htext : text ∈ kind.language) : text.length ≤ token.length := by
  cases kind with
  | header => exact absurd hkind (by decide)
  | identifier => exact htoken.length_le_of_mem_identifiers h hfront htext
  | number => exact htoken.length_le_of_mem_numbers h hfront htext
  | character =>
    rw [Kind.language, ← Quoted.language_start_singleQuote, ← literals] at htext
    refine htoken.length_le_of_mem_literals (.inl rfl) hkind ?_ h htext hfront
    exact Quoted.language_start_singleQuote.symm
  | string =>
    rw [Kind.language, ← Quoted.language_start_doubleQuote, ← literals] at htext
    refine htoken.length_le_of_mem_literals (.inr rfl) hkind ?_ h htext hfront
    exact Quoted.language_start_doubleQuote.symm
  | punctuator => exact htoken.length_le_of_mem_punctuators h hruns hfront htext
  | comment => exact htoken.length_le_of_mem_comments h hruns hfront htext
  | other =>
    obtain ⟨b, rest, rfl, -⟩ := htoken.exists_cons
    obtain ⟨c, -, rfl⟩ := htext
    simp

end

end CPreprocessor.Lexeme
