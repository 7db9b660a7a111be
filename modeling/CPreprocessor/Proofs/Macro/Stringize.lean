import CPreprocessor.Macro.Substitution
import CPreprocessor.Proofs.Lexeme.Span
import CPreprocessor.Proofs.Text.Quoted
import CPreprocessor.Proofs.Token.Kind

/-!
# String literals made of arguments

What `#` makes of the tokens of a source is a single string literal, unless a header name is among
them, or a backslash or a double quote that is a token of its own. Each token is written with whole
characters of a string literal (`Token.IsStringizable.textInString_mem_kstar`), so no escape
sequence goes on from one token to the next.

The literal reads as the argument was written (`stringize_lexes_and_unquotes`). Only universal names
get lost: their backslashes are not escaped, since they belong to an identifier or a number.
-/

namespace CPreprocessor

open Lexeme Ascii
open scoped Computability

/-! ## Characters and names -/

namespace Lexeme

/-- The characters that stand for themselves in a string literal, and universal names. -/
def namedCharacters : Language UInt8 := oneOf (isPlain doubleQuote) + universalNames

theorem namedCharacters_le_quotedCharacters :
    namedCharacters ≤ quotedCharacters doubleQuote := by
  rintro text (h | h)
  · exact .inl h
  · exact .inr (.inr h)

theorem oneOf_le_namedCharacters {p : UInt8 → Bool}
    (h : ∀ b, p b = true → isPlain doubleQuote b = true) : oneOf p ≤ namedCharacters := by
  rintro text ⟨b, hb, rfl⟩
  exact .inl ⟨b, h b hb, rfl⟩

theorem isPlain_of_isNondigit : ∀ b : UInt8, isNondigit b = true → isPlain doubleQuote b = true :=
  forall_byte (by decide +kernel)

theorem isPlain_of_isDigit : ∀ b : UInt8, isDigit b = true → isPlain doubleQuote b = true :=
  forall_byte (by decide +kernel)

theorem nondigits_le_namedCharacters : nondigits ≤ namedCharacters := by
  rintro text (h | h)
  · exact oneOf_le_namedCharacters isPlain_of_isNondigit h
  · exact .inr h

theorem digits_le_namedCharacters : oneOf isDigit ≤ namedCharacters :=
  oneOf_le_namedCharacters isPlain_of_isDigit

section

variable {L M N : Language UInt8}

theorem le_kstar_of_le (h : L ≤ N) : L ≤ N∗ := h.trans le_kstar

theorem mul_le_kstar (hL : L ≤ N∗) (hM : M ≤ N∗) : L * M ≤ N∗ :=
  (mul_le_mul' hL hM).trans (kstar_mul_kstar N).le

theorem kstar_le_kstar (h : L ≤ N∗) : L∗ ≤ N∗ := (kstar_mono h).trans (kstar_idem N).le

end

theorem identifiers_le_kstar : identifiers ≤ namedCharacters∗ := by
  have hnondigits := le_kstar_of_le nondigits_le_namedCharacters
  have hdigits := le_kstar_of_le digits_le_namedCharacters
  exact mul_le_kstar hnondigits (kstar_le_kstar (add_le hnondigits hdigits))

theorem numbers_le_kstar : numbers ≤ namedCharacters∗ := by
  have hnondigits := le_kstar_of_le nondigits_le_namedCharacters
  have hdigits := le_kstar_of_le digits_le_namedCharacters
  have hdot : char dot ≤ namedCharacters∗ := by
    refine le_kstar_of_le ?_
    rintro text rfl
    exact .inl ⟨dot, by decide, rfl⟩
  have hmarks : exponentMarks ≤ namedCharacters∗ :=
    le_kstar_of_le (oneOf_le_namedCharacters fun b hb =>
      isPlain_of_isNondigit b (isNondigit_of_isExponentMark hb).1)
  have hsigns : signs ≤ namedCharacters∗ := by
    refine le_kstar_of_le (oneOf_le_namedCharacters fun b hb => ?_)
    simp only [Bool.or_eq_true, beq_iff_eq] at hb
    rcases hb with rfl | rfl <;> decide
  have htails : numberTails ≤ namedCharacters∗ := kstar_le_kstar
    (add_le (add_le (add_le hdigits hnondigits) (mul_le_kstar hmarks hsigns)) hdot)
  exact mul_le_kstar (mul_le_kstar (add_le one_le_kstar hdot) hdigits) htails

/-- A backslash in such a text begins a universal name. -/
theorem exists_universalName_of_backslash_mem {text : Bytes} (h : text ∈ namedCharacters∗)
    (hmem : backslash ∈ text) : ∃ name ∈ universalNames, name <:+: text := by
  obtain ⟨parts, rfl, hparts⟩ := Language.mem_kstar.1 h
  obtain ⟨part, hpart, hbackslash⟩ := List.mem_flatten.1 hmem
  rcases hparts part hpart with ⟨b, hb, rfl⟩ | hname
  · rw [← List.mem_singleton.1 hbackslash] at hb
    exact absurd hb (by decide)
  · exact ⟨part, hname, List.infix_of_mem_flatten hpart⟩

end Lexeme

/-! ## Tokens in a string literal -/

namespace Token

/-- Whether a token has the kind and the text of a token of some source. -/
def IsLexed (t : Token) : Prop :=
  ∃ source text, ∃ u ∈ (linesOf source text).flatten, u.kind = t.kind ∧ u.text = t.text

/-- A token of a source that makes no string literal invalid: it is no header name, and not a
backslash or a double quote that is a token of its own. -/
structure IsStringizable (t : Token) : Prop where
  isLexed : t.IsLexed
  ne_header : t.kind ≠ .header
  ne_other : t.kind = .other → t.text ≠ [backslash] ∧ t.text ≠ [doubleQuote]

/-- Whether a universal name is in an identifier or a number. -/
def HasName (t : Token) : Prop :=
  (t.kind = .identifier ∨ t.kind = .number) ∧ ∃ name ∈ universalNames, name <:+: t.text

theorem HasName.backslash_mem {t : Token} (h : t.HasName) : backslash ∈ t.text := by
  obtain ⟨-, name, hname, hinfix⟩ := h
  obtain ⟨mark, digits, rfl, -⟩ := exists_of_mem_universalNames hname
  exact hinfix.subset List.mem_cons_self

theorem IsLexed.mem_language {t : Token} (h : t.IsLexed) :
    t.kind ≠ .comment ∧ t.text ∈ t.kind.language := by
  obtain ⟨source, text, u, hu, hkind, htext⟩ := h
  obtain ⟨line, hline, hmem⟩ := List.mem_flatten.1 hu
  rw [← hkind, ← htext]
  exact ⟨(isProper_of_mem_linesOf hline hmem).ne_comment, mem_language_of_mem_linesOf hline hmem⟩

namespace IsStringizable

variable {t : Token}

theorem newline_notMem (h : t.IsStringizable) : newline ∉ t.text := by
  obtain ⟨hcomment, hmem⟩ := h.isLexed.mem_language
  exact fun hnewline => absurd (Kind.uses_isInline hcomment _ hmem newline hnewline) (by decide)

/-- The ways in which a token is written: a literal with escapes, and any other token as it is. -/
theorem cases (h : t.IsStringizable) :
    (t.kind = .string ∨ t.kind = .character) ∨
      t.textInString = t.text ∧
        ((t.kind = .identifier ∨ t.kind = .number) ∧ t.text ∈ namedCharacters∗ ∨
          ∀ b ∈ t.text, isPlain doubleQuote b = true) := by
  obtain ⟨hcomment, hmem⟩ := h.isLexed.mem_language
  by_cases hliteral : t.kind = .string ∨ t.kind = .character
  · exact .inl hliteral
  refine .inr ⟨by rw [textInString, if_neg hliteral], ?_⟩
  cases hkind : t.kind with
  | header => exact absurd hkind h.ne_header
  | comment => exact absurd hkind hcomment
  | string => exact absurd (.inl hkind) hliteral
  | character => exact absurd (.inr hkind) hliteral
  | identifier =>
    rw [hkind] at hmem
    exact .inl ⟨.inl rfl, identifiers_le_kstar hmem⟩
  | number =>
    rw [hkind] at hmem
    exact .inl ⟨.inr rfl, numbers_le_kstar hmem⟩
  | punctuator =>
    rw [hkind] at hmem
    have hall : ∀ text ∈ punctuators, ∀ b ∈ text, isPlain doubleQuote b = true := by
      decide +kernel
    exact .inr (hall t.text hmem)
  | other =>
    rw [hkind] at hmem
    obtain ⟨hbackslash, hquote⟩ := h.ne_other hkind
    obtain ⟨b, hblank, htext⟩ := hmem
    rw [htext] at hbackslash hquote ⊢
    have hnewline : b ≠ newline := by
      rintro rfl
      exact absurd hblank (by decide)
    have hslash : b ≠ backslash := fun heq => hbackslash (by rw [heq])
    have hdouble : b ≠ doubleQuote := fun heq => hquote (by rw [heq])
    exact .inr (List.forall_mem_singleton.2 (by simp [isPlain, hnewline, hslash, hdouble]))

/-- A token is written with whole characters of a string literal. -/
theorem textInString_mem_kstar (h : t.IsStringizable) :
    t.textInString ∈ (quotedCharacters doubleQuote)∗ := by
  rcases h.cases with hliteral | ⟨heq, ⟨-, hmem⟩ | hplain⟩
  · rw [textInString, if_pos hliteral]
    exact escapeQuotes_mem_kstar h.newline_notMem
  · rw [heq]
    exact kstar_mono namedCharacters_le_quotedCharacters hmem
  · rw [heq]
    exact mem_kstar_of_forall fun b hb => .inl ⟨b, hplain b hb, rfl⟩

/-- A token without a universal name is read as its text. -/
theorem readsAs_textInString (h : t.IsStringizable) (hname : ¬ t.HasName) :
    ReadsAs t.textInString t.text := by
  rcases h.cases with hliteral | ⟨heq, ⟨hkind, hmem⟩ | hplain⟩
  · rw [textInString, if_pos hliteral]
    exact readsAs_escapeQuotes t.text
  · rw [heq]
    refine readsAs_self fun hbackslash => ?_
    exact hname ⟨hkind, exists_universalName_of_backslash_mem hmem hbackslash⟩
  · rw [heq]
    exact readsAs_self fun hbackslash => absurd (hplain backslash hbackslash) (by decide)

end IsStringizable

/-! ## The literal -/

/-- Texts of some tokens in a row, with one space before each of them, but the first, that has
white-space before it. -/
def joined (text : Token → Bytes) (tokens : List Token) : Bytes :=
  (tokens.mapIdx fun index t => if 0 < index ∧ t.spaced then space :: text t else text t).flatten

end Token

theorem textInString_eq_joined (argument : List Token) :
    textInString argument = Token.joined Token.textInString argument := by
  cases argument with
  | nil => rfl
  | cons first rest =>
    have hrest (f : Token → Bytes) : rest.mapIdx (fun _ t => f t) = rest.map f :=
      List.ext_getElem (by simp) fun _ _ _ => by simp
    simp [textInString, Token.joined, List.flatMap_def, hrest]

theorem readsAs_flatten_mapIdx {f g : ℕ → Token → Bytes} {tokens : List Token}
    (h : ∀ index, ∀ t ∈ tokens, ReadsAs (f index t) (g index t)) :
    ReadsAs (tokens.mapIdx f).flatten (tokens.mapIdx g).flatten := by
  induction tokens generalizing f g with
  | nil => exact readsAs_nil
  | cons t tokens ih =>
    rw [List.mapIdx_cons, List.mapIdx_cons, List.flatten_cons, List.flatten_cons]
    exact (h 0 t List.mem_cons_self).append
      (ih fun index u hu => h (index + 1) u (List.mem_cons_of_mem t hu))

section

variable {argument : List Token}

/-- An argument is written with whole characters of a string literal. -/
theorem textInString_mem_kstar (h : ∀ t ∈ argument, t.IsStringizable) :
    textInString argument ∈ (quotedCharacters doubleQuote)∗ := by
  have hspace : [space] ∈ (quotedCharacters doubleQuote)∗ :=
    mem_kstar_of_forall (List.forall_mem_singleton.2 (.inl ⟨space, by decide, rfl⟩))
  rw [textInString_eq_joined, Token.joined, ← kstar_idem]
  refine Language.join_mem_kstar fun part hpart => ?_
  obtain ⟨index, hindex, rfl⟩ := List.mem_mapIdx.1 hpart
  have htoken := (h _ (List.getElem_mem hindex)).textInString_mem_kstar
  split
  · rw [← kstar_mul_kstar]
    exact ⟨[space], hspace, _, htoken, rfl⟩
  · exact htoken

theorem readsAs_textInString (h : ∀ t ∈ argument, t.IsStringizable)
    (hnames : ∀ t ∈ argument, ¬ t.HasName) :
    ReadsAs (textInString argument) (Token.joined Token.text argument) := by
  rw [textInString_eq_joined]
  refine readsAs_flatten_mapIdx fun index t ht => ?_
  have htoken := (h t ht).readsAs_textInString (hnames t ht)
  split
  · exact (readsAs_singleton (by decide : space ≠ backslash)).append htoken
  · exact htoken

/-- **What `#` makes of an argument is one string literal, and without universal names it reads back
as the argument.** -/
theorem stringize_lexes_and_unquotes (mark : Token) (h : ∀ t ∈ argument, t.IsStringizable) :
    (∃ t, Token.lex (stringize mark argument).text = [t] ∧ t.kind = .string ∧
      t.text = (stringize mark argument).text) ∧
    ((∀ t ∈ argument, ¬ t.HasName) →
      (unquote (stringize mark argument).text).toText =
        (Token.joined Token.text argument).toText) := by
  refine ⟨?_, fun hnames => ?_⟩
  · have hmem := between_mem_stringLiterals (textInString_mem_kstar h)
    have hkind : Kind.ofText? (stringize mark argument).text = some .string :=
      List.find?_cons_of_pos ((Kind.string.accepts_iff _).2 hmem)
    exact Token.exists_lex_eq_singleton (by decide) (by decide) hkind
  · exact congrArg Bytes.toText (readsAs_textInString h hnames).unquote_eq

end

/-- An argument with gaps and with an escape sequence in it. -/
def sumSource : Bytes := Bytes.ofString "a  +  \"b\\n\""

theorem isStringizable_of_mem_lex_sumSource :
    ∀ t ∈ Token.lex sumSource, t.IsStringizable := by
  have hkinds : ∀ t ∈ Token.lex sumSource, t.kind ≠ .header ∧ t.kind ≠ .other := by
    decide +kernel
  intro t ht
  obtain ⟨hheader, hother⟩ := hkinds t ht
  exact ⟨⟨sumSource, .ofSource sumSource, t, ht, rfl, rfl⟩, hheader, fun h => absurd h hother⟩

theorem not_hasName_of_mem_lex_sumSource : ∀ t ∈ Token.lex sumSource, ¬ t.HasName := by
  have hbackslash : ∀ t ∈ Token.lex sumSource,
      t.kind = .identifier ∨ t.kind = .number → backslash ∉ t.text := by decide +kernel
  exact fun t ht h => hbackslash t ht h.1 h.backslash_mem

/-- The escape sequence is escaped in the literal, and every gap is a single space. -/
theorem stringize_lexes_and_unquotes_sum :
    (∀ t ∈ Token.lex sumSource, t.IsStringizable) ∧
      (∀ t ∈ Token.lex sumSource, ¬ t.HasName) ∧
      (∃ t, Token.lex (Bytes.ofString "\"a + \\\"b\\\\n\\\"\"") = [t] ∧ t.kind = .string ∧
        t.text = Bytes.ofString "\"a + \\\"b\\\\n\\\"\"") ∧
      (unquote (Bytes.ofString "\"a + \\\"b\\\\n\\\"\"")).toText = "a + \"b\\n\"" := by
  have htext : (stringize { kind := .punctuator, text := Bytes.ofString "#" }
      (Token.lex sumSource)).text = Bytes.ofString "\"a + \\\"b\\\\n\\\"\"" := by
    decide +kernel
  have hspelling : (Token.joined Token.text (Token.lex sumSource)).toText = "a + \"b\\n\"" := by
    decide +kernel
  obtain ⟨hlex, hunquote⟩ := stringize_lexes_and_unquotes
    { kind := .punctuator, text := Bytes.ofString "#" } isStringizable_of_mem_lex_sumSource
  rw [htext] at hlex hunquote
  exact ⟨isStringizable_of_mem_lex_sumSource, not_hasName_of_mem_lex_sumSource, hlex,
    (hunquote not_hasName_of_mem_lex_sumSource).trans hspelling⟩

end CPreprocessor
