import CPreprocessor.Proofs.Lexeme.Adjacent
import CPreprocessor.Proofs.Token.Kind

/-!
# The spelling of a token

No text is of two kinds (`Kind.pairwise_disjoint`), except that what is a header name between quotes
may be a string literal as well. So a token that is no header name has the same kind alone as in its
line, whatever is expected there (`Token.ofText?_of_mem_linesOf`), and when its text is read again,
it is the only token, of the kind it had (`Token.spelling_determines_kind`).
-/

namespace CPreprocessor

namespace Lexeme

open Ascii
open scoped Computability

/-! ## Single quotes and double quotes -/

theorem quote_notMem_of_uses {language : Language UInt8} (h : Uses language isBody)
    {quote : UInt8} (hquote : IsQuote quote) {text : Bytes} (htext : text ∈ language) :
    quote ∉ text := by
  intro hmem
  have hbody := h text htext quote hmem
  rw [isBody_of_isQuote hquote] at hbody
  cases hbody

theorem quote_notMem_of_mem_punctuators {quote : UInt8} (hquote : IsQuote quote) {text : Bytes}
    (h : text ∈ punctuators) : quote ∉ text := by
  have hall : ∀ text ∈ punctuators, singleQuote ∉ text ∧ doubleQuote ∉ text := by decide +kernel
  rcases hquote with rfl | rfl
  · exact (hall text h).1
  · exact (hall text h).2

theorem mem_literals_singleQuote {text : Bytes} :
    text ∈ Kind.character.language ↔ text ∈ literals singleQuote := by
  rw [literals, Quoted.language_start_singleQuote]
  rfl

theorem mem_literals_doubleQuote {text : Bytes} :
    text ∈ Kind.string.language ↔ text ∈ literals doubleQuote := by
  rw [literals, Quoted.language_start_doubleQuote]
  rfl

/-- The first quote of a literal is the one that opens it. -/
theorem quote_eq_of_mem_literals {quote quote' : UInt8} (hquote : IsQuote quote)
    (hquote' : IsQuote quote') {text : Bytes} (h : text ∈ literals quote)
    (h' : text ∈ literals quote') : quote = quote' := by
  obtain ⟨before, hbefore, inside, -, rfl⟩ := exists_of_mem_literals h
  obtain ⟨before', hbefore', inside', -, hsplit⟩ := exists_of_mem_literals h'
  exact quote_eq_of_append_eq (isWord_of_isQuote hquote) (isWord_of_isQuote hquote')
    (uses_encodingPrefixes before hbefore) (uses_encodingPrefixes before' hbefore') hsplit

/-! ## No text is of two kinds -/

theorem IsToken.of_mem_order (kind : Kind) (hkind : kind ∈ Kind.order false)
    (hcomment : kind ≠ .comment) {text : Bytes} (h : text ∈ kind.language) : IsToken text := by
  have hall : ∀ kind ∈ Kind.order false,
      kind ∈ Kind.classes false ∧ [singleQuote] ∉ kind.language ∧
        [doubleQuote] ∉ kind.language := by
    decide
  obtain ⟨hclass, hsingle, hdouble⟩ := hall kind hkind
  exact ⟨⟨kind, hclass, hcomment, h⟩, fun heq => hsingle (heq ▸ h), fun heq => hdouble (heq ▸ h)⟩

/-- An identifier begins with neither a digit nor a dot. -/
theorem notMem_numbers_of_mem_identifiers {text : Bytes} (h : text ∈ identifiers) :
    text ∉ numbers := by
  intro hnumber
  have htoken : IsToken text := .of_mem_order .identifier (by decide) (by decide) h
  obtain ⟨b, rest, rfl, -⟩ := htoken.exists_cons
  rcases head_of_mem_identifiers h with hb | rfl
  · rcases head_of_mem_numbers hnumber with hdigit | rfl
    · rw [isDigit_eq_false_of_isNondigit b hb] at hdigit
      cases hdigit
    · exact absurd hb (by decide)
  · exact absurd (head_of_mem_numbers hnumber) (by decide)

theorem notMem_punctuators_of_mem_identifiers {text : Bytes} (h : text ∈ identifiers) :
    text ∉ punctuators := by
  intro hpunctuator
  have htoken : IsToken text := .of_mem_order .identifier (by decide) (by decide) h
  obtain ⟨b, rest, rfl, -⟩ := htoken.exists_cons
  obtain ⟨hword, -, hslash, -⟩ := head_of_mem_punctuators hpunctuator
  rcases head_of_mem_identifiers h with hb | hb
  · rw [isWord_of_isNondigit hb] at hword
    cases hword
  · exact hslash hb

/-- A punctuator may begin with a dot, but has no digit behind it. -/
theorem notMem_punctuators_of_mem_numbers {text : Bytes} (h : text ∈ numbers) :
    text ∉ punctuators := by
  intro hpunctuator
  have htoken : IsToken text := .of_mem_order .number (by decide) (by decide) h
  obtain ⟨b, rest, rfl, -⟩ := htoken.exists_cons
  rcases head_of_mem_numbers h with hb | rfl
  · have hword := (head_of_mem_punctuators hpunctuator).1
    rw [isWord_of_isDigit hb] at hword
    cases hword
  · have hdots : ∀ text ∈ punctuators, text.head? = some dot → text ∉ Kind.number.language := by
      decide +kernel
    exact hdots _ hpunctuator rfl h

/-- A literal has a quote, and nothing else but a comment has one. -/
theorem notMem_of_mem_literals {quote : UInt8} (hquote : IsQuote quote) {text : Bytes}
    (h : text ∈ literals quote) : text ∉ identifiers ∧ text ∉ numbers ∧ text ∉ punctuators := by
  have hmem := quote_mem_of_mem_literals h
  exact ⟨fun h' => quote_notMem_of_uses uses_identifiers hquote h' hmem,
    fun h' => quote_notMem_of_uses uses_numbers hquote h' hmem,
    fun h' => quote_notMem_of_mem_punctuators hquote h' hmem⟩

/-- **No text is of two kinds**, where no header name is expected. -/
theorem Kind.pairwise_disjoint :
    (Kind.order false).Pairwise fun k k' => ∀ text ∈ k.language, text ∉ k'.language := by
  have hcomment (kind : Kind) (hkind : kind ∈ Kind.order false) (hne : kind ≠ .comment)
      (text : Bytes) (h : text ∈ kind.language) : text ∉ comments :=
    (IsToken.of_mem_order kind hkind hne h).not_mem_comments
  have hstring (text : Bytes) (h : text ∈ stringLiterals) :=
    notMem_of_mem_literals (.inr rfl) (mem_literals_doubleQuote.1 h)
  have hcharacter (text : Bytes) (h : text ∈ characterConstants) :=
    notMem_of_mem_literals (.inl rfl) (mem_literals_singleQuote.1 h)
  refine .cons ?string (.cons ?comment (.cons ?identifier (.cons ?number (.cons ?character
    (List.pairwise_singleton _ _)))))
  case string =>
    have hquotes (text : Bytes) (h : text ∈ stringLiterals) (h' : text ∈ characterConstants) :
        False := by
      have heq := quote_eq_of_mem_literals (.inr rfl) (.inl rfl) (mem_literals_doubleQuote.1 h)
        (mem_literals_singleQuote.1 h')
      exact absurd heq (by decide)
    simp only [List.forall_mem_cons]
    exact ⟨hcomment .string (by decide) (by decide), fun text h => (hstring text h).1,
      fun text h => (hstring text h).2.1, hquotes, fun text h => (hstring text h).2.2,
      List.forall_mem_nil _⟩
  case comment =>
    intro kind hkind text h h'
    have hothers : ∀ kind ∈ [Kind.identifier, .number, .character, .punctuator],
        kind ∈ Kind.order false ∧ kind ≠ .comment := by decide
    obtain ⟨horder, hne⟩ := hothers kind hkind
    exact hcomment kind horder hne text h' h
  case identifier =>
    simp only [List.forall_mem_cons]
    exact ⟨fun text h => notMem_numbers_of_mem_identifiers h,
      fun text h h' => (hcharacter text h').1 h,
      fun text h => notMem_punctuators_of_mem_identifiers h, List.forall_mem_nil _⟩
  case number =>
    simp only [List.forall_mem_cons]
    exact ⟨fun text h h' => (hcharacter text h').2.1 h,
      fun text h => notMem_punctuators_of_mem_numbers h, List.forall_mem_nil _⟩
  case character =>
    exact List.forall_mem_singleton.2 fun text h => (hcharacter text h).2.2

/-- The kind of a text is unique, where no header name is expected. -/
theorem Kind.eq_of_mem_language {k k' : Kind} (hk : k ∈ Kind.order false)
    (hk' : k' ∈ Kind.order false) {text : Bytes} (h : text ∈ k.language)
    (h' : text ∈ k'.language) : k = k' := by
  by_contra hne
  have hsymm : Std.Symm fun k k' : Kind => ∀ text ∈ k.language, text ∉ k'.language :=
    ⟨fun k k' hdisjoint text h h' => hdisjoint text h' h⟩
  exact Kind.pairwise_disjoint.forall hk hk' hne text h h'

/-- What is of any kind but a string literal is no string literal. -/
theorem Kind.accepts_eq_false_of_mem_tail {kind : Kind} (hkind : kind ∈ (Kind.classes false).tail)
    {text : Bytes} (h : text ∈ kind.language) : Kind.string.accepts text = false := by
  have hall : ∀ kind ∈ (Kind.classes false).tail,
      kind = .other ∨ kind ∈ Kind.order false ∧ kind ≠ .string := by decide
  rw [Bool.eq_false_iff, Ne, Kind.accepts_iff]
  intro hstring
  rcases hall kind hkind with rfl | ⟨horder, hne⟩
  · -- the quote that opens a literal is not the one that closes it
    obtain ⟨b, -, rfl⟩ := h
    obtain rfl := List.mem_singleton.1
      (quote_mem_of_mem_literals (mem_literals_doubleQuote.1 hstring))
    exact absurd hstring (by decide)
  · exact hne (Kind.eq_of_mem_language horder (by decide) h hstring)

/-- What is of any kind but a comment begins with a character that is not white-space. -/
theorem Kind.exists_cons_of_ofText? {kind : Kind} {text : Bytes}
    (h : Kind.ofText? text = some kind) (hcomment : kind ≠ .comment) :
    ∃ b rest, text = b :: rest ∧ isBlank b = false := by
  have hmem : text ∈ kind.language :=
    (kind.accepts_iff text).1 (List.find?_some (p := fun kind : Kind => kind.accepts text) h)
  have hall : ∀ kind ∈ Kind.classes false, kind = .other ∨ kind ∈ Kind.order false := by decide
  rcases hall kind (List.mem_of_find?_eq_some h) with rfl | horder
  · obtain ⟨b, hb, rfl⟩ := hmem
    exact ⟨b, [], rfl, by simpa using hb⟩
  · exact (IsToken.of_mem_order kind horder hcomment hmem).exists_cons

/-! ## Header names -/

theorem head_of_mem_comments {b : UInt8} {rest : Bytes} (h : b :: rest ∈ comments) : b = slash := by
  rcases h with ⟨_, rfl, _, -, hsplit⟩ | ⟨_, rfl, _, -, hsplit⟩
  · exact (List.cons.inj hsplit).1.symm
  · exact (List.cons.inj hsplit).1.symm

/-- What a header name begins with and, between angle brackets, what it ends in. -/
theorem exists_of_mem_headerNames {text : Bytes} (h : text ∈ headerNames) :
    ∃ b rest, text = b :: rest ∧ (b = less ∧ text.getLast? = some greater ∨ b = doubleQuote) := by
  obtain ⟨inside, -, ⟨-, rfl⟩ | ⟨-, rfl⟩⟩ := h
  · exact ⟨less, _, rfl, .inl ⟨rfl, by simp [List.getLast?_cons]⟩⟩
  · exact ⟨doubleQuote, _, rfl, .inr rfl⟩

/-- A header name is of no other kind, or it is a string literal as well. -/
theorem Kind.eq_string_of_mem_headerNames {k : Kind} (hk : k ∈ Kind.order false) {text : Bytes}
    (hheader : text ∈ headerNames) (h : text ∈ k.language) : k = .string := by
  obtain ⟨b, rest, rfl, hb⟩ := exists_of_mem_headerNames hheader
  have hopens : b ∈ [less, doubleQuote] := by
    rcases hb with ⟨rfl, -⟩ | rfl <;> decide
  have hbytes : ∀ b ∈ [less, doubleQuote], isNondigit b = false ∧ isDigit b = false ∧
      b ∉ [backslash, dot, slash, singleQuote] := by decide +kernel
  obtain ⟨hnondigit, hdigit, hother⟩ := hbytes b hopens
  cases k with
  | string => rfl
  | header | other => exact absurd hk (by decide)
  | comment =>
    obtain rfl := head_of_mem_comments h
    exact absurd (by decide) hother
  | identifier =>
    rcases head_of_mem_identifiers h with hb | rfl
    · exact absurd hb (by rw [hnondigit]; decide)
    · exact absurd (by decide) hother
  | number =>
    rcases head_of_mem_numbers h with hb | rfl
    · exact absurd hb (by rw [hdigit]; decide)
    · exact absurd (by decide) hother
  | character =>
    rcases head_of_mem_literals (.inl rfl) (mem_literals_singleQuote.1 h) with hb | rfl
    · exact absurd hb (by rw [hnondigit]; decide)
    · exact absurd (by decide) hother
  | punctuator =>
    exfalso
    rcases hb with ⟨rfl, hlast⟩ | rfl
    · have hall : ∀ text ∈ punctuators, text.head? = some less → text.getLast? ≠ some greater := by
        decide
      exact hall _ h rfl hlast
    · exact quote_notMem_of_mem_punctuators (.inr rfl) h List.mem_cons_self

end Lexeme

/-! ## Tokens -/

namespace Token

open Lexeme

/-- **The kind of a token that is no header name is told by its text**, also where a header name
is expected: what is read there as a token of another kind is no string literal. -/
theorem ofText?_of_mem_linesOf {source : Bytes} {text : Source.Text} {line : List Token}
    (hline : line ∈ linesOf source text) {t : Token} (ht : t ∈ line) (hkind : t.kind ≠ .header) :
    Kind.ofText? t.text = some t.kind := by
  obtain ⟨before, after, rfl⟩ := List.append_of_mem ht
  obtain ⟨header, rest, hnext, -⟩ := exists_isNext_of_mem_linesOf hline
  have hfind := hnext.kind_eq
  cases header with
  | false => exact hfind
  | true =>
    -- the classes differ only in the first one
    rw [show Kind.classes true = .header :: (Kind.classes false).tail from rfl,
      List.find?_cons] at hfind
    rw [Kind.ofText?, show Kind.classes false = .string :: (Kind.classes false).tail from rfl,
      List.find?_cons]
    split at hfind
    · exact absurd (Option.some.inj hfind).symm hkind
    · rw [Kind.accepts_eq_false_of_mem_tail (List.mem_of_find?_eq_some hfind) hnext.mem]
      exact hfind

/-- **The spelling of a token determines it.** No text is accepted as two kinds, where a header name
may be a string literal as well, and the text of a token that is no header name is read alone as the
one token it was. -/
theorem spelling_determines_kind :
    (∀ text, ∀ k ∈ Kind.order false, ∀ k' ∈ Kind.order false,
      k.accepts text = true → k'.accepts text = true → k = k') ∧
    (∀ text, ∀ k ∈ Kind.order false,
      Kind.header.accepts text = true → k.accepts text = true → k = .string) ∧
    ∀ (source : Bytes) (text : Source.Text), ∀ line ∈ linesOf source text, ∀ t ∈ line,
      t.kind ≠ .header → ∃ t', lex t.text = [t'] ∧ t'.kind = t.kind ∧ t'.text = t.text := by
  refine ⟨fun text k hk k' hk' h h' => ?_, fun text k hk hheader h => ?_,
    fun source text line hline t ht hkind => ?_⟩
  · exact Kind.eq_of_mem_language hk hk' ((k.accepts_iff text).1 h) ((k'.accepts_iff text).1 h')
  · exact Kind.eq_string_of_mem_headerNames hk ((Kind.accepts_iff .header text).1 hheader)
      ((k.accepts_iff text).1 h)
  · have hproper := isProper_of_mem_linesOf hline ht
    have hofText := ofText?_of_mem_linesOf hline ht hkind
    obtain ⟨b, rest, htext, hb⟩ := Kind.exists_cons_of_ofText? hofText hproper.ne_comment
    rw [htext] at hofText ⊢
    exact exists_lex_eq_singleton hb hproper.ne_comment hofText

/-- A quote that opens no header name is the same character alone, and a header name between quotes
is a string literal alone. -/
theorem spelling_determines_kind_quote :
    (∃ t, lex (Bytes.ofString "\"") = [t] ∧ t.kind = .other ∧ t.text = Bytes.ofString "\"") ∧
      ∀ k ∈ Kind.order false, k.accepts (Bytes.ofString "\"a\"") = true → k = .string := by
  let source := Bytes.ofString "#include \"a"
  let line := (linesOf source (.ofSource source)).headD []
  let quote : Token :=
    { kind := .other, text := Bytes.ofString "\"", spaced := true, position := ⟨1, 10⟩ }
  have hline : line ∈ linesOf source (.ofSource source) := by decide +kernel
  have hquote : quote ∈ line := by decide +kernel
  exact ⟨spelling_determines_kind.2.2 source (.ofSource source) line hline quote hquote (by decide),
    fun k hk => spelling_determines_kind.2.1 _ k hk (by decide)⟩

end Token

end CPreprocessor
