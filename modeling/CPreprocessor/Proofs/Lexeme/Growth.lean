import CPreprocessor.Proofs.Lexeme.Munch

/-!
# How tokens begin and go on

What a token begins with tells its class, up to a few cases. Identifiers and numbers are those that
may go on behind a whole token of their class, by a single character or by a universal character
name (`Grows`). All this is read off the automata: what may come after the beginning of a token is
the language of the state that the beginning leads to (`Automaton.Recognizes.append_mem_iff`).
-/

namespace CPreprocessor.Lexeme

open Ascii Automaton
open scoped Computability

theorem mem_kstar_of_forall {language : Language UInt8} {text : Bytes}
    (h : ∀ b ∈ text, [b] ∈ language) : text ∈ language∗ := by
  refine Language.mem_kstar.2 ⟨text.map ([·]), ?_, List.forall_mem_map.2 h⟩
  rw [← List.flatMap_def, List.flatMap_singleton']

/-! ## The beginning of a text -/

section

variable {σ : Type} {a : Automaton σ} {language : σ → Language UInt8}

theorem Automaton.Recognizes.cons_mem_iff (h : a.Recognizes language) {s : σ} {b : UInt8}
    {rest : Bytes} :
    b :: rest ∈ language s ↔ ∃ s', a.step s b = some s' ∧ rest ∈ language s' := by
  have hquotient : b :: rest ∈ language s ↔ rest ∈ (a.step s b).elim 0 language := by
    rw [← h.leftQuotient_eq s b]
    rfl
  rw [hquotient]
  cases a.step s b with
  | none => simp [Language.notMem_zero]
  | some s' => simp

theorem Automaton.Recognizes.append_mem_iff (h : a.Recognizes language) {s : σ}
    {front rest : Bytes} :
    front ++ rest ∈ language s ↔ ∃ s', a.run s front = some s' ∧ rest ∈ language s' := by
  induction front generalizing s with
  | nil => simp [run]
  | cons b front ih =>
    rw [List.cons_append, h.cons_mem_iff, run]
    cases a.step s b with
    | none => simp
    | some s' => simp [ih]

/-- What may come after a whole text of the language is the language of a state. -/
theorem Automaton.Recognizes.exists_state (h : a.Recognizes language) {front : Bytes}
    (hfront : front ∈ language a.start) :
    ∃ s, [] ∈ language s ∧ ∀ rest, front ++ rest ∈ language a.start ↔ rest ∈ language s := by
  rw [← List.append_nil front] at hfront
  obtain ⟨s, hrun, hnil⟩ := h.append_mem_iff.1 hfront
  refine ⟨s, hnil, fun rest => ?_⟩
  rw [h.append_mem_iff, hrun]
  simp

end

theorem head_of_mem_identifiers {b : UInt8} {rest : Bytes} (h : b :: rest ∈ identifiers) :
    isNondigit b = true ∨ b = backslash := by
  obtain ⟨s, hstep, -⟩ := recognizes_identifier.cons_mem_iff (s := .start).1 h
  have hstart : Identifier.step .start b = some s := hstep
  rw [Identifier.step_start] at hstart
  split at hstart
  · next hb => exact .inr hb
  · split at hstart
    · next hb => exact .inl hb
    · cases hstart

theorem head_of_mem_numbers {b : UInt8} {rest : Bytes} (h : b :: rest ∈ numbers) :
    isDigit b = true ∨ b = dot := by
  obtain ⟨s, hstep, -⟩ := recognizes_number.cons_mem_iff (s := .start).1 h
  simp only [number, Number.step, beq_iff_eq] at hstep
  split at hstep
  · next hb => exact .inr hb
  · split at hstep
    · next hb => exact .inl hb
    · cases hstep

theorem isDigit_of_dot_mem_numbers {b : UInt8} {rest : Bytes} (h : dot :: b :: rest ∈ numbers) :
    isDigit b = true := by
  obtain ⟨s, hstep, hrest⟩ := recognizes_number.cons_mem_iff (s := .start).1 h
  obtain rfl : Number.State.leadingDot = s := Option.some.inj hstep
  obtain ⟨s', hstep, -⟩ := recognizes_number.cons_mem_iff.1 hrest
  simp only [number, Number.step] at hstep
  split at hstep
  · next hb => exact hb
  · cases hstep

/-- Whether a character is a quote of either kind. -/
def IsQuote (quote : UInt8) : Prop := quote = singleQuote ∨ quote = doubleQuote

/-- The literals between quotes of the given kind. -/
def literals (quote : UInt8) : Language UInt8 := Quoted.State.language quote .start

theorem head_of_mem_literals {quote b : UInt8} (hquote : IsQuote quote) {rest : Bytes}
    (h : b :: rest ∈ literals quote) : isNondigit b = true ∨ b = quote := by
  obtain ⟨s, hstep, -⟩ := (recognizes_quoted hquote).cons_mem_iff (s := .start).1 h
  simp only [quoted, Quoted.step, beq_iff_eq, Bool.or_eq_true] at hstep
  split at hstep
  · next hb => exact .inl (by subst hb; decide)
  · split at hstep
    · next hb => exact .inl (by rcases hb with rfl | rfl <;> decide)
    · split at hstep
      · next hb => exact .inr hb
      · cases hstep

/-- A literal is a prefix, its opening quote and the rest. -/
theorem exists_of_mem_literals {quote : UInt8} {text : Bytes} (h : text ∈ literals quote) :
    ∃ before ∈ encodingPrefixes, ∃ inside ∈ Quoted.inside quote,
      text = before ++ quote :: inside := by
  obtain ⟨before, hbefore, _, ⟨_, rfl, inside, hinside, rfl⟩, rfl⟩ := h
  exact ⟨before, hbefore, inside, hinside, rfl⟩

theorem quote_mem_of_mem_literals {quote : UInt8} {text : Bytes} (h : text ∈ literals quote) :
    quote ∈ text := by
  obtain ⟨before, -, inside, -, rfl⟩ := exists_of_mem_literals h
  exact List.mem_append_right before List.mem_cons_self

/-! ## The characters of a token -/

/-- What holds of every byte can be checked. -/
theorem forall_byte {p : UInt8 → Prop} (h : ∀ n : Fin 256, p (UInt8.ofFin n)) (b : UInt8) : p b :=
  h b.toFin

theorem isDigit_eq_false_of_isNondigit :
    ∀ b : UInt8, isNondigit b = true → isDigit b = false :=
  forall_byte (by decide +kernel)

/-- All characters of the texts of a language are of a class. -/
def Uses (language : Language UInt8) (p : UInt8 → Bool) : Prop :=
  ∀ text ∈ language, ∀ b ∈ text, p b = true

section

variable {L M : Language UInt8} {p q : UInt8 → Bool}

theorem uses_one : Uses 1 p := by
  rintro text rfl b hb
  exact absurd hb List.not_mem_nil

theorem uses_oneOf (h : ∀ b, q b = true → p b = true) : Uses (oneOf q) p := by
  rintro text ⟨c, hc, rfl⟩ b hb
  rw [List.mem_singleton.1 hb]
  exact h c hc

theorem uses_char {c : UInt8} (h : p c = true) : Uses (char c) p := by
  rintro text rfl b hb
  rwa [List.mem_singleton.1 hb]

theorem Uses.add (hL : Uses L p) (hM : Uses M p) : Uses (L + M) p := by
  rintro text (h | h)
  · exact hL text h
  · exact hM text h

theorem Uses.mul (hL : Uses L p) (hM : Uses M p) : Uses (L * M) p := by
  intro text htext b hb
  obtain ⟨u, hu, v, hv, rfl⟩ := Language.mem_mul.1 htext
  rcases List.mem_append.1 hb with hb | hb
  · exact hL u hu b hb
  · exact hM v hv b hb

theorem Uses.kstar (hL : Uses L p) : Uses L∗ p := by
  intro text htext b hb
  obtain ⟨words, rfl, hwords⟩ := Language.mem_kstar.1 htext
  obtain ⟨word, hword, hb⟩ := List.mem_flatten.1 hb
  exact hL word (hwords word hword) b hb

end

/-- A character of a word. -/
def isWord (b : UInt8) : Bool := isNondigit b || isDigit b

/-- A character of an identifier or a number. -/
def isBody (b : UInt8) : Bool := isWord b || b ∈ [backslash, dot, plus, minus]

theorem isWord_of_isNondigit {b : UInt8} (h : isNondigit b = true) : isWord b = true := by
  rw [isWord, h, Bool.true_or]

theorem isWord_of_isDigit {b : UInt8} (h : isDigit b = true) : isWord b = true := by
  rw [isWord, h, Bool.or_true]

theorem isWord_of_isHexDigit {b : UInt8} (h : isHexDigit b = true) : isWord b = true := by
  simp only [isHexDigit, isWord, isNondigit, isLetter, isLower, isUpper, Bool.or_eq_true,
    Bool.and_eq_true, decide_eq_true_eq] at h ⊢
  obtain (h | ⟨hlow, hhigh⟩) | ⟨hlow, hhigh⟩ := h
  · exact .inr h
  · exact .inl (.inr (.inl ⟨hlow, UInt8.le_trans hhigh (by decide)⟩))
  · exact .inl (.inr (.inr ⟨hlow, UInt8.le_trans hhigh (by decide)⟩))

theorem isBlank_eq_false_of_isBody : ∀ b : UInt8, isBody b = true → isBlank b = false :=
  forall_byte (by decide +kernel)

theorem isBody_of_isQuote {quote : UInt8} (h : IsQuote quote) : isBody quote = false := by
  rcases h with rfl | rfl <;> decide

theorem isBody_of_isWord {b : UInt8} (h : isWord b = true) : isBody b = true := by
  rw [isBody, h, Bool.true_or]

/-- Behind the backslash of a universal name there is a word. -/
theorem exists_of_mem_universalNames {name : Bytes} (h : name ∈ universalNames) :
    ∃ mark digits, name = backslash :: mark :: digits ∧ isNondigit mark = true ∧
      ∀ b ∈ digits, isWord b = true := by
  obtain ⟨mark, digits, rfl, hlength, hdigits, -⟩ := h
  refine ⟨mark, digits, rfl, ?_, fun b hb => isWord_of_isHexDigit (hdigits b hb)⟩
  rcases hlength with ⟨rfl, -⟩ | ⟨rfl, -⟩ <;> decide

theorem uses_universalNames : Uses universalNames isBody := by
  intro name hname b hb
  obtain ⟨mark, digits, rfl, hmark, hdigits⟩ := exists_of_mem_universalNames hname
  rcases List.mem_cons.1 hb with rfl | hb
  · decide
  rcases List.mem_cons.1 hb with rfl | hb
  · exact isBody_of_isWord (isWord_of_isNondigit hmark)
  · exact isBody_of_isWord (hdigits b hb)

theorem uses_nondigits : Uses nondigits isBody :=
  (uses_oneOf fun _ hb => isBody_of_isWord (isWord_of_isNondigit hb)).add
    uses_universalNames

theorem uses_digits : Uses (oneOf isDigit) isBody :=
  uses_oneOf fun _ hb => isBody_of_isWord (isWord_of_isDigit hb)

theorem uses_identifiers : Uses identifiers isBody :=
  uses_nondigits.mul (uses_nondigits.add uses_digits).kstar

theorem uses_numbers : Uses numbers isBody := by
  have hdot : Uses (char dot) isBody := uses_char (by decide)
  have hmarks : Uses exponentMarks isBody := uses_oneOf fun _ hb =>
    isBody_of_isWord (isWord_of_isNondigit (isNondigit_of_isExponentMark hb).1)
  have hsigns : Uses signs isBody := uses_oneOf fun _ hb => by
    simp only [Bool.or_eq_true, beq_iff_eq] at hb
    rcases hb with rfl | rfl <;> decide
  have htails : Uses numberTails isBody :=
    (((uses_digits.add uses_nondigits).add (hmarks.mul hsigns)).add hdot).kstar
  exact ((uses_one.add hdot).mul uses_digits).mul htails

/-! ## Growth -/

/-- A whole text of a class goes on with a single character or with a universal name, if it goes on
at all. -/
def Grows (language : Language UInt8) : Prop :=
  ∀ text ∈ language, ∀ b rest, text ++ b :: rest ∈ language →
    ∃ next, (next = [b] ∨ next ∈ universalNames) ∧ next <+: b :: rest ∧ text ++ next ∈ language

/-- Some repetitions begin with one. -/
theorem exists_of_cons_mem_kstar {L : Language UInt8} {b : UInt8} {rest : Bytes}
    (h : b :: rest ∈ L∗) : ∃ first ∈ L, first ≠ [] ∧ first <+: b :: rest ∧ first ∈ L∗ := by
  obtain ⟨words, hflat, hwords⟩ := Language.mem_kstar_iff_exists_nonempty.1 h
  cases words with
  | nil => cases hflat
  | cons first words =>
    obtain ⟨hfirst, hne⟩ := hwords first List.mem_cons_self
    refine ⟨first, hfirst, hne, ⟨words.flatten, hflat.symm⟩, ?_⟩
    exact Language.mem_kstar.2 ⟨[first], by simp, by simpa using hfirst⟩

theorem eq_of_prefix_cons {b c : UInt8} {rest : Bytes} (h : [c] <+: b :: rest) : c = b :=
  (List.cons_prefix_cons.1 h).1

theorem grows_identifiers : Grows identifiers := by
  intro text htext b rest hrest
  obtain ⟨s, hnil, hbehind⟩ := recognizes_identifier.exists_state htext
  obtain rfl : s = .name := by
    cases s with
    | start => exact absurd hnil (by simp [Identifier.State.language, identifiers])
    | name => rfl
    | universal progress => exact absurd hnil (by simp [Identifier.State.language])
  obtain ⟨first, hfirst, -, hfront, hmem⟩ := exists_of_cons_mem_kstar ((hbehind _).1 hrest)
  refine ⟨first, ?_, hfront, (hbehind first).2 hmem⟩
  rcases hfirst with (⟨c, -, rfl⟩ | hname) | ⟨c, -, rfl⟩
  · exact .inl (by rw [eq_of_prefix_cons hfront])
  · exact .inr hname
  · exact .inl (by rw [eq_of_prefix_cons hfront])

/-- What goes on behind a number with a part of a number. -/
theorem exists_of_cons_mem_numberTails {b : UInt8} {rest : Bytes} (h : b :: rest ∈ numberTails) :
    ∃ next, (next = [b] ∨ next ∈ universalNames) ∧ next <+: b :: rest ∧ next ∈ numberTails := by
  obtain ⟨first, hfirst, -, hfront, hmem⟩ := exists_of_cons_mem_kstar h
  rcases hfirst with ((⟨c, -, rfl⟩ | ⟨c, -, rfl⟩ | hname) | hexponent) | rfl
  · exact ⟨_, .inl (by rw [eq_of_prefix_cons hfront]), hfront, hmem⟩
  · exact ⟨_, .inl (by rw [eq_of_prefix_cons hfront]), hfront, hmem⟩
  · exact ⟨_, .inr hname, hfront, hmem⟩
  · obtain ⟨_, ⟨c, hc, rfl⟩, sign, -, rfl⟩ := Language.mem_mul.1 hexponent
    obtain ⟨rfl, -⟩ := List.cons_prefix_cons.1 hfront
    refine ⟨[c], .inl rfl, by simp, ?_⟩
    refine Language.mem_kstar.2 ⟨[[c]], by simp, ?_⟩
    simp only [List.mem_singleton, forall_eq]
    exact .inl (.inl (.inr (.inl ⟨c, (isNondigit_of_isExponentMark hc).1, rfl⟩)))
  · exact ⟨_, .inl (by rw [eq_of_prefix_cons hfront]), hfront, hmem⟩

theorem grows_numbers : Grows numbers := by
  intro text htext b rest hrest
  obtain ⟨s, hnil, hbehind⟩ := recognizes_number.exists_state htext
  have htails : ∀ {next}, next ∈ numberTails → next ∈ (1 + signs) * numberTails :=
    fun h => ⟨[], .inl rfl, _, h, rfl⟩
  cases s with
  | start => exact absurd hnil (by simp [Number.State.language, numbers])
  | leadingDot => exact absurd hnil (by simp [Number.State.language])
  | universal progress => exact absurd hnil (by simp [Number.State.language])
  | body =>
    obtain ⟨next, hnext, hfront, hmem⟩ := exists_of_cons_mem_numberTails ((hbehind _).1 hrest)
    exact ⟨next, hnext, hfront, (hbehind next).2 hmem⟩
  | exponent =>
    obtain ⟨sign, hsign, tail, htail, hsplit⟩ := Language.mem_mul.1 ((hbehind _).1 hrest)
    rcases hsign with rfl | ⟨c, hc, rfl⟩
    · obtain rfl : tail = b :: rest := hsplit
      obtain ⟨next, hnext, hfront, hmem⟩ := exists_of_cons_mem_numberTails htail
      exact ⟨next, hnext, hfront, (hbehind next).2 (htails hmem)⟩
    · obtain ⟨rfl, -⟩ := List.cons.inj hsplit
      refine ⟨[c], .inl rfl, by simp, (hbehind [c]).2 ?_⟩
      exact ⟨[c], .inr ⟨c, hc, rfl⟩, [], Language.nil_mem_kstar _, rfl⟩

end CPreprocessor.Lexeme
