import CPreprocessor.Proofs.Lexeme.Growth
import CPreprocessor.Text.Quoted

/-!
# Quoted texts are read back

Between double quotes, a text that was written with escapes (`escapeQuotes`) reads as the text, and
so does a text without backslashes. Texts that read as they should may be put next to each other
(`ReadsAs.append`): none of them ends in a backslash that would take the next character away.

What is written between the quotes is characters of a string literal (`escapeQuotes_mem_kstar`), so
with the quotes it is one.
-/

namespace CPreprocessor

open Lexeme Ascii
open scoped Computability

/-! ## Escapes -/

theorem removeEscapes_backslash_cons (b : UInt8) (rest : Bytes) :
    removeEscapes (backslash :: b :: rest) = b :: removeEscapes rest := rfl

theorem removeEscapes_cons {b : UInt8} (h : b ≠ backslash) (rest : Bytes) :
    removeEscapes (b :: rest) = b :: removeEscapes rest := by
  cases rest with
  | nil => simp [removeEscapes, h]
  | cons c rest => rw [removeEscapes, if_neg (by simpa using h)]

theorem escapeQuotes_cons (b : UInt8) (text : Bytes) :
    escapeQuotes (b :: text) =
      (if b == doubleQuote || b == backslash then [backslash, b] else [b]) ++ escapeQuotes text :=
  List.flatMap_cons

/-- Whether a text between quotes is read as another one, whatever comes behind it. -/
def ReadsAs (written text : Bytes) : Prop :=
  ∀ after, removeEscapes (written ++ after) = text ++ removeEscapes after

theorem readsAs_nil : ReadsAs [] [] := fun _ => rfl

theorem ReadsAs.append {written written' text text' : Bytes} (h : ReadsAs written text)
    (h' : ReadsAs written' text') : ReadsAs (written ++ written') (text ++ text') := by
  intro after
  rw [List.append_assoc, h, h', List.append_assoc]

theorem ReadsAs.eq {written text : Bytes} (h : ReadsAs written text) :
    removeEscapes written = text := by
  have hread := h []
  rwa [List.append_nil, removeEscapes, List.append_nil] at hread

theorem readsAs_singleton {b : UInt8} (h : b ≠ backslash) : ReadsAs [b] [b] :=
  removeEscapes_cons h

theorem readsAs_self {text : Bytes} (h : backslash ∉ text) : ReadsAs text text := by
  induction text with
  | nil => exact readsAs_nil
  | cons b text ih =>
    obtain ⟨hb, htext⟩ := not_or.1 (mt List.mem_cons.2 h)
    exact (readsAs_singleton (Ne.symm hb)).append (ih htext)

/-- An escaped text is read as the text. -/
theorem readsAs_escapeQuotes (text : Bytes) : ReadsAs (escapeQuotes text) text := by
  induction text with
  | nil => exact readsAs_nil
  | cons b text ih =>
    rw [escapeQuotes_cons, show b :: text = [b] ++ text from rfl]
    refine ReadsAs.append ?_ ih
    by_cases hb : b = doubleQuote ∨ b = backslash
    · rw [if_pos (by simpa using hb)]
      exact removeEscapes_backslash_cons b
    · rw [if_neg (by simpa using hb)]
      exact readsAs_singleton fun h => hb (.inr h)

/-! ## Between quotes -/

theorem dropQuotes_between (inside : Bytes) :
    dropQuotes (doubleQuote :: (inside ++ [doubleQuote])) = inside := by
  rw [dropQuotes, List.getLast?_concat, if_pos (by decide), List.dropLast_concat]

theorem ReadsAs.unquote_eq {written text : Bytes} (h : ReadsAs written text) :
    unquote (doubleQuote :: (written ++ [doubleQuote])) = text := by
  rw [unquote, dropQuotes_between, h.eq]

/-- **A quoted text is read back.** -/
theorem unquote_quote (text : Bytes) : unquote (quote text) = text :=
  (readsAs_escapeQuotes text).unquote_eq

/-- A text without a new-line can be written between quotes. -/
theorem escapeQuotes_mem_kstar {text : Bytes} (h : newline ∉ text) :
    escapeQuotes text ∈ (quotedCharacters doubleQuote)∗ := by
  refine Language.mem_kstar.2 ⟨text.map fun b =>
    if b == doubleQuote || b == backslash then [backslash, b] else [b], rfl, ?_⟩
  refine List.forall_mem_map.2 fun b hb => ?_
  have hnewline : b ≠ newline := fun heq => h (heq ▸ hb)
  by_cases hescape : b = doubleQuote ∨ b = backslash
  · rw [if_pos (by simpa using hescape)]
    have hsimple : Quoted.isSimpleEscape b = true := by
      rcases hescape with rfl | rfl <;> decide
    exact .inr (.inl (.inl (.inl ⟨[backslash], rfl, [b], ⟨b, hsimple, rfl⟩, rfl⟩)))
  · rw [if_neg (by simpa using hescape)]
    obtain ⟨hquote, hbackslash⟩ := not_or.1 hescape
    exact .inl ⟨b, by simp [isPlain, hquote, hbackslash, hnewline], rfl⟩

theorem between_mem_stringLiterals {inside : Bytes}
    (h : inside ∈ (quotedCharacters doubleQuote)∗) :
    doubleQuote :: (inside ++ [doubleQuote]) ∈ stringLiterals := by
  have hprefix : [] ∈ encodingPrefixes := .inl (.inl (.inl (.inl rfl)))
  exact ⟨[], hprefix, _, ⟨[doubleQuote], rfl, _, ⟨inside, h, [doubleQuote], rfl, rfl⟩, rfl⟩, rfl⟩

end CPreprocessor
