import CPreprocessor.Grammar.Tree

/-!
# The language of a grammar

`Grammar.Derives` says which words a list of symbols derives, by the productions alone.
`Grammar.Fits` says of derivations that they are what they claim to be: one derivation for each
symbol of a list, of parts of the input that follow one another. A list of symbols that derivations
fit derives the part of the input that they cover (`Fits.derives`).
-/

namespace CPreprocessor.Grammar

variable {ν σ τ : Type} [Spelled σ] (g : Grammar ν σ τ)

/-- A list of symbols derives a word: a terminal one symbol that it accepts, and a nonterminal
whatever the symbols of one of its productions derive. -/
inductive Derives : List (GrammarSymbol ν σ) → List σ → Prop
  | nil : Derives [] []
  | terminal {t : Terminal σ} {x : σ} {symbols : List (GrammarSymbol ν σ)} {word : List σ}
      (accepts : t.accepts x = true) (rest : Derives symbols word) :
      Derives (.terminal t :: symbols) (x :: word)
  | nonterminal {r : ν} {p : Production ν σ τ} {symbols : List (GrammarSymbol ν σ)}
      {u v : List σ} (mem : p ∈ (g.rule r).productions) (first : Derives p.symbols u)
      (rest : Derives symbols v) : Derives (.nonterminal r :: symbols) (u ++ v)

/-- The language of a nonterminal. -/
def DerivesFrom (r : ν) (word : List σ) : Prop := g.Derives [.nonterminal r] word

theorem derivesFrom_iff {g : Grammar ν σ τ} {r : ν} {word : List σ} :
    g.DerivesFrom r word ↔ ∃ p ∈ (g.rule r).productions, g.Derives p.symbols word := by
  constructor
  · intro h
    cases h with
    | nonterminal mem first rest =>
      cases rest
      exact ⟨_, mem, by rwa [List.append_nil]⟩
  · rintro ⟨p, mem, h⟩
    have := Derives.nonterminal mem h .nil
    rwa [List.append_nil] at this

theorem Derives.append {g : Grammar ν σ τ} {symbols more : List (GrammarSymbol ν σ)}
    {u v : List σ} (h : g.Derives symbols u) (h' : g.Derives more v) :
    g.Derives (symbols ++ more) (u ++ v) := by
  induction h with
  | nil => exact h'
  | terminal accepts _ ih => exact .terminal accepts ih
  | nonterminal mem first _ _ ih =>
    rw [List.append_assoc]
    exact .nonterminal mem first ih

/-- Derivations fit a list of symbols from a position of the input to another: there is one for
each symbol, and each begins where the one before it ends. -/
inductive Fits (input : List σ) :
    List (GrammarSymbol ν σ) → Nat → Nat → List (Derivation ν σ τ) → Prop
  | nil (start : Nat) : Fits input [] start start []
  | terminal {t : Terminal σ} {x : σ} {symbols : List (GrammarSymbol ν σ)} {start stop : Nat}
      {children : List (Derivation ν σ τ)} (get : input[start]? = some x)
      (accepts : t.accepts x = true) (rest : Fits input symbols (start + 1) stop children) :
      Fits input (.terminal t :: symbols) start stop (.leaf x :: children)
  | nonterminal {r : ν} {p : Production ν σ τ} {symbols : List (GrammarSymbol ν σ)}
      {start middle stop : Nat} {inner children : List (Derivation ν σ τ)}
      (mem : p ∈ (g.rule r).productions) (first : Fits input p.symbols start middle inner)
      (rest : Fits input symbols middle stop children) :
      Fits input (.nonterminal r :: symbols) start stop (.node r p start middle inner :: children)

variable {g} {input : List σ} {symbols more : List (GrammarSymbol ν σ)} {start middle stop : Nat}
  {children others : List (Derivation ν σ τ)}

namespace Fits

theorem length_eq (h : g.Fits input symbols start stop children) :
    children.length = symbols.length := by
  induction h with
  | nil => rfl
  | terminal _ _ _ ih => rw [List.length_cons, List.length_cons, ih]
  | nonterminal _ _ _ _ ih => rw [List.length_cons, List.length_cons, ih]

/-- As no production is empty, every symbol takes up some of the input. -/
theorem length_le (h : g.Fits input symbols start stop children) :
    start + symbols.length ≤ stop := by
  induction h with
  | nil => exact Nat.le_refl _
  | terminal _ _ _ ih =>
    rw [List.length_cons]
    omega
  | nonterminal mem _ _ ih₁ ih₂ =>
    have := List.length_pos_iff.2 ((g.rule _).symbols_ne_nil _ mem)
    rw [List.length_cons]
    omega

theorem append (h : g.Fits input symbols start middle children)
    (h' : g.Fits input more middle stop others) :
    g.Fits input (symbols ++ more) start stop (children ++ others) := by
  induction h with
  | nil => exact h'
  | terminal get accepts _ ih => exact .terminal get accepts (ih h')
  | nonterminal mem first _ _ ih => exact .nonterminal mem first (ih h')

theorem derives (h : g.Fits input symbols start stop children) :
    ∃ word, g.Derives symbols word ∧ input.drop start = word ++ input.drop stop := by
  induction h with
  | nil start => exact ⟨[], .nil, rfl⟩
  | @terminal t x symbols start stop children get accepts _ ih =>
    obtain ⟨word, hword, hdrop⟩ := ih
    refine ⟨x :: word, .terminal accepts hword, ?_⟩
    rw [List.drop_eq_getElem?_toList_append, get, hdrop]
    rfl
  | nonterminal mem _ _ ih₁ ih₂ =>
    obtain ⟨u, hu, hdrop₁⟩ := ih₁
    obtain ⟨v, hv, hdrop₂⟩ := ih₂
    refine ⟨u ++ v, .nonterminal mem hu hv, ?_⟩
    rw [hdrop₁, hdrop₂, List.append_assoc]

/-- What fits all of the input derives it. -/
theorem derivesFrom {r : ν} {d : Derivation ν σ τ}
    (h : g.Fits input [.nonterminal r] 0 input.length [d]) : g.DerivesFrom r input := by
  obtain ⟨word, hword, hdrop⟩ := h.derives
  rw [List.drop_zero, List.drop_length, List.append_nil] at hdrop
  rwa [hdrop]

end Fits

end CPreprocessor.Grammar
