import CPreprocessor.Phrase.Grammar
import CPreprocessor.Proofs.Grammar.Language

/-!
# Type names

A type name is a row of type specifiers and after it perhaps a row of stars. A row has one
derivation (`fits_row_unique`), and as no specifier is a star, neither has a type name more than one
over the same tokens. In expressions a closing parenthesis follows a type name, which is part of
none, so where a type name begins tells where it ends (`fits_typeName_unique`).
-/

namespace CPreprocessor.Phrase

open Grammar GrammarSymbol Nonterminal

variable {input : List Token} {start stop stop' : Nat} {d d' : Derivation Nonterminal Token Tag}

/-! ## Rows of tokens -/

section

variable {r : Nonterminal} {element : Token → Bool}
  (hr : (rule r).productions = sequenceOf r element)
include hr

/-- A row is a single token or a shorter row and one more token. -/
theorem exists_of_fits_row (h : grammar.Fits input [nonterminal r] start stop [d]) :
    ∃ x last, stop = last + 1 ∧ input[last]? = some x ∧ element x = true ∧
      ((start = last ∧ d = .node r ⟨.next, [such element]⟩ start stop [.leaf x]) ∨
        ∃ init, grammar.Fits input [nonterminal r] start last [init] ∧
          d = .node r ⟨.next, [nonterminal r, such element]⟩ start stop [init, .leaf x]) := by
  cases h with
  | nonterminal mem first rest =>
    cases rest
    change _ ∈ (rule r).productions at mem
    rw [hr] at mem
    simp only [sequenceOf, List.mem_cons, List.not_mem_nil, or_false] at mem
    obtain rfl | rfl := mem
    · cases first with
      | nonterminal mem' first' rest' =>
        cases rest' with
        | terminal get accepts rest' =>
          cases rest'
          exact ⟨_, _, rfl, get, accepts, .inr ⟨_, .nonterminal mem' first' (.nil _), rfl⟩⟩
    · cases first with
      | terminal get accepts rest' =>
        cases rest'
        exact ⟨_, _, rfl, get, accepts, .inl ⟨rfl, rfl⟩⟩

theorem forall_of_fits_row (h : grammar.Fits input [nonterminal r] start stop [d]) {k : Nat}
    (hstart : start ≤ k) (hstop : k < stop) : ∃ x, input[k]? = some x ∧ element x = true := by
  induction stop generalizing d with
  | zero => omega
  | succ stop ih =>
    obtain ⟨x, last, hlast, hget, hx, hcases⟩ := exists_of_fits_row hr h
    obtain rfl := Nat.succ.inj hlast
    obtain rfl | hk : k = stop ∨ k < stop := by omega
    · exact ⟨x, hget, hx⟩
    · obtain ⟨rfl, -⟩ | ⟨init, hinit, -⟩ := hcases
      · omega
      · exact ih hinit hk

/-- **A row of tokens has one derivation.** -/
theorem fits_row_unique (h : grammar.Fits input [nonterminal r] start stop [d])
    (h' : grammar.Fits input [nonterminal r] start stop [d']) : d = d' := by
  induction stop generalizing d d' with
  | zero => exact absurd h.length_le (Nat.not_succ_le_zero _)
  | succ stop ih =>
    obtain ⟨x, last, hlast, hget, -, hcases⟩ := exists_of_fits_row hr h
    obtain ⟨x', last', hlast', hget', -, hcases'⟩ := exists_of_fits_row hr h'
    obtain rfl := Nat.succ.inj hlast
    obtain rfl := Nat.succ.inj hlast'
    obtain rfl := Option.some.inj (hget.symm.trans hget')
    obtain ⟨rfl, rfl⟩ | ⟨init, hinit, rfl⟩ := hcases
    · obtain ⟨-, rfl⟩ | ⟨init, hinit, -⟩ := hcases'
      · rfl
      · exact absurd hinit.length_le (Nat.not_succ_le_self _)
    · obtain ⟨rfl, -⟩ | ⟨init', hinit', rfl⟩ := hcases'
      · exact absurd hinit.length_le (Nat.not_succ_le_self _)
      · rw [ih hinit hinit']

end

/-! ## Type names -/

theorem isTypeSpecifier_iff {x : Token} :
    x.isTypeSpecifier = true ↔ x.kind = .identifier ∧ x.text ∈ Token.typeSpecifiers := by
  simp [Token.isTypeSpecifier, Token.isIdentifier]

theorem isStar_iff {x : Token} :
    x.isStar = true ↔ x.kind = .punctuator ∧ x.canonical = Bytes.ofString "*" := by
  simp [Token.isStar, Token.isPunctuator]

theorem isSpelled_close_eq_false {x : Token} (h : x.isTypeSpecifier = true ∨ x.isStar = true) :
    x.isSpelled (Bytes.ofString ")") = false := by
  rw [Token.isSpelled, Bool.and_eq_false_iff]
  refine .inr (decide_eq_false fun hcanonical => ?_)
  rcases h with h | h
  · obtain ⟨hkind, htext⟩ := isTypeSpecifier_iff.1 h
    rw [Token.canonical, if_neg (by simp [hkind])] at hcanonical
    rw [hcanonical] at htext
    exact absurd htext (by decide)
  · rw [(isStar_iff.1 h).2] at hcanonical
    exact absurd hcanonical (by decide)

/-- Specifiers from a position on and after them stars. -/
structure IsTypeName (input : List Token) (start middle stop : Nat) : Prop where
  start_lt : start < middle
  le_stop : middle ≤ stop
  specifiers : ∀ k, start ≤ k → k < middle → ∃ x, input[k]? = some x ∧ x.isTypeSpecifier = true
  stars : ∀ k, middle ≤ k → k < stop → ∃ x, input[k]? = some x ∧ x.isStar = true

namespace IsTypeName

variable {middle middle' k : Nat} {x : Token}

theorem not_isSpelled_close (h : IsTypeName input start middle stop) (hstart : start ≤ k)
    (hstop : k < stop) (hget : input[k]? = some x) : x.isSpelled (Bytes.ofString ")") = false := by
  refine isSpelled_close_eq_false ?_
  by_cases hk : k < middle
  · obtain ⟨y, hy, hspecifier⟩ := h.specifiers k hstart hk
    rw [Option.some.inj (hget.symm.trans hy)]
    exact .inl hspecifier
  · obtain ⟨y, hy, hstar⟩ := h.stars k (Nat.le_of_not_lt hk) hstop
    rw [Option.some.inj (hget.symm.trans hy)]
    exact .inr hstar

theorem middle_le (h : IsTypeName input start middle stop)
    (h' : IsTypeName input start middle' stop) : middle' ≤ middle := by
  refine Nat.le_of_not_lt fun hlt => ?_
  obtain ⟨x, hx, hspecifier⟩ := h'.specifiers middle (Nat.le_of_lt h.start_lt) (by omega)
  obtain ⟨y, hy, hstar⟩ := h.stars middle (Nat.le_refl _) (by have := h'.le_stop; omega)
  obtain rfl := Option.some.inj (hx.symm.trans hy)
  have hkind := (isTypeSpecifier_iff.1 hspecifier).1
  rw [(isStar_iff.1 hstar).1] at hkind
  contradiction

/-- The tokens tell where the stars begin and where a closing parenthesis follows. -/
theorem unique (h : IsTypeName input start middle stop) (h' : IsTypeName input start middle' stop')
    (hclose : ∃ x, input[stop]? = some x ∧ x.isSpelled (Bytes.ofString ")") = true)
    (hclose' : ∃ x, input[stop']? = some x ∧ x.isSpelled (Bytes.ofString ")") = true) :
    middle = middle' ∧ stop = stop' := by
  obtain ⟨x, hget, hx⟩ := hclose
  obtain ⟨x', hget', hx'⟩ := hclose'
  have hlt := Nat.lt_of_lt_of_le h.start_lt h.le_stop
  have hlt' := Nat.lt_of_lt_of_le h'.start_lt h'.le_stop
  rcases Nat.lt_trichotomy stop stop' with hstop | rfl | hstop
  · rw [h'.not_isSpelled_close (Nat.le_of_lt hlt) hstop hget] at hx
    contradiction
  · exact ⟨Nat.le_antisymm (h'.middle_le h) (h.middle_le h'), rfl⟩
  · rw [h.not_isSpelled_close (Nat.le_of_lt hlt') hstop hget'] at hx'
    contradiction

end IsTypeName

/-- The derivation of a type name has a row of specifiers and perhaps one of stars. -/
theorem exists_of_fits_typeName (h : grammar.Fits input [nonterminal typeName] start stop [d]) :
    ∃ middle specifiers, IsTypeName input start middle stop ∧
      grammar.Fits input [nonterminal specifierQualifierList] start middle [specifiers] ∧
      ((middle = stop ∧ d = .node typeName ⟨.typeName, [nonterminal specifierQualifierList]⟩
          start stop [specifiers]) ∨
        ∃ stars, grammar.Fits input [nonterminal pointer] middle stop [stars] ∧
          d = .node typeName ⟨.typeName, [nonterminal specifierQualifierList,
            nonterminal pointer]⟩ start stop [specifiers, stars]) := by
  cases h with
  | nonterminal mem first rest =>
    cases rest
    change _ ∈ (rule typeName).productions at mem
    simp only [rule, List.mem_cons, List.not_mem_nil, or_false] at mem
    obtain rfl | rfl := mem
    · cases first with
      | nonterminal mem' first' rest' =>
        cases rest'
        have hrow := Fits.nonterminal mem' first' (.nil _)
        exact ⟨stop, _, ⟨hrow.length_le, (Nat.le_refl _), fun k => forall_of_fits_row rfl hrow,
          fun k _ _ => by omega⟩, hrow, .inl ⟨rfl, rfl⟩⟩
    · cases first with
      | nonterminal mem' first' rest' =>
        cases rest' with
        | nonterminal mem'' first'' rest'' =>
          cases rest''
          have hrow := Fits.nonterminal mem' first' (.nil _)
          have hstars := Fits.nonterminal mem'' first'' (.nil _)
          exact ⟨_, _, ⟨hrow.length_le, Nat.le_of_lt hstars.length_le,
            fun k => forall_of_fits_row rfl hrow, fun k => forall_of_fits_row rfl hstars⟩, hrow,
            .inr ⟨_, hstars, rfl⟩⟩

/-- **Where a type name begins tells its derivation, if a closing parenthesis follows.** -/
theorem fits_typeName_unique (h : grammar.Fits input [nonterminal typeName] start stop [d])
    (h' : grammar.Fits input [nonterminal typeName] start stop' [d'])
    (hclose : ∃ x, input[stop]? = some x ∧ x.isSpelled (Bytes.ofString ")") = true)
    (hclose' : ∃ x, input[stop']? = some x ∧ x.isSpelled (Bytes.ofString ")") = true) :
    d = d' := by
  obtain ⟨middle, specifiers, htokens, hrow, hcases⟩ := exists_of_fits_typeName h
  obtain ⟨middle', specifiers', htokens', hrow', hcases'⟩ := exists_of_fits_typeName h'
  obtain ⟨rfl, rfl⟩ := htokens.unique htokens' hclose hclose'
  obtain rfl := fits_row_unique rfl hrow hrow'
  obtain ⟨rfl, rfl⟩ | ⟨stars, hstars, rfl⟩ := hcases
  · obtain ⟨-, rfl⟩ | ⟨stars', hstars', -⟩ := hcases'
    · rfl
    · exact absurd hstars'.length_le (Nat.not_succ_le_self _)
  · obtain ⟨rfl, -⟩ | ⟨stars', hstars', rfl⟩ := hcases'
    · exact absurd hstars.length_le (Nat.not_succ_le_self _)
    · rw [fits_row_unique rfl hstars hstars']

end CPreprocessor.Phrase
