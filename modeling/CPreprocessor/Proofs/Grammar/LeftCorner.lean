import CPreprocessor.Proofs.Grammar.Recognition

/-!
# Grammars that are read from the left corner

A derivation can be built from left to right, beginning with the production at its left corner, the
first one that starts with a terminal. What that production derives is the first part of a larger
production, which is the corner of the next one, and so on up to the nonterminal that is wanted, the
goal. This works for recursion on the left as well.

`Prediction` are functions that choose the next production, with the conditions under which no other
production is possible there. `Prediction.Reads` is the parser that follows these choices. It is
deterministic (`Reads.unique`), and it reads every derivation whose nonterminals end where they may
(`reads_of_fits`). So there is at most one such derivation from any position (`fits_unique`).
-/

namespace CPreprocessor.Grammar

variable {ν σ τ : Type} [Spelled σ]

/-- A property of nonterminals and positions holds of a symbol where its derivation ends. -/
def EndsWith (property : ν → Nat → Prop) : GrammarSymbol ν σ → Derivation ν σ τ → Prop
  | .nonterminal r, .node _ _ _ stop _ => property r stop
  | _, _ => True

/-- Choices of productions by what is on the input, and why there is no other choice. -/
structure Prediction (g : Grammar ν σ τ) (input : List σ) where
  /-- The nonterminals that are not read from their left corner. -/
  IsAtom : ν → Prop
  /-- Whether a nonterminal can be the corner of a part of a goal. -/
  Within : (goal corner : ν) → Prop
  /-- The production at the left corner of a goal that begins at a position. -/
  begins : (goal : ν) → Nat → Option (ν × Production ν σ τ)
  /-- The production of a part of a goal whose corner ends at a position; none if the corner is the
  whole goal. -/
  continues : (goal corner : ν) → Nat → Option (ν × Production ν σ τ)
  /-- Whether the corner of a part of a goal may end at a position. -/
  Ends : (goal corner : ν) → Nat → Prop
  /-- Whether a goal may be complete at a position. -/
  Completes : (goal : ν) → Nat → Prop
  within_self {r : ν} (atom : ¬ IsAtom r) : Within r r
  not_isAtom {goal r : ν} (within : Within goal r) : ¬ IsAtom goal
  within_corner {goal r corner : ν} {p : Production ν σ τ} {symbols : List (GrammarSymbol ν σ)}
    (within : Within goal r) (mem : p ∈ (g.rule r).productions)
    (eq : p.symbols = .nonterminal corner :: symbols) : Within goal corner
  begins_eq {goal r : ν} {p : Production ν σ τ} {t : Terminal σ}
    {symbols : List (GrammarSymbol ν σ)} {start stop : Nat} {children : List (Derivation ν σ τ)}
    (within : Within goal r) (mem : p ∈ (g.rule r).productions)
    (eq : p.symbols = .terminal t :: symbols)
    (fits : g.Fits input p.symbols start stop children) : begins goal start = some (r, p)
  continues_eq {goal r corner : ν} {p : Production ν σ τ} {symbols : List (GrammarSymbol ν σ)}
    {middle stop : Nat} {children : List (Derivation ν σ τ)}
    (within : Within goal r) (mem : p ∈ (g.rule r).productions)
    (eq : p.symbols = .nonterminal corner :: symbols)
    (fits : g.Fits input symbols middle stop children) (ends : Ends goal r stop) :
    continues goal corner middle = some (r, p)
  ends_corner {goal r corner : ν} {p : Production ν σ τ} {symbols : List (GrammarSymbol ν σ)}
    {middle stop : Nat} {children : List (Derivation ν σ τ)}
    (within : Within goal r) (mem : p ∈ (g.rule r).productions)
    (eq : p.symbols = .nonterminal corner :: symbols)
    (fits : g.Fits input symbols middle stop children) (ends : Ends goal r stop) :
    Ends goal corner middle
  completes_inner {goal r : ν} {p : Production ν σ τ} {s : GrammarSymbol ν σ}
    {symbols : List (GrammarSymbol ν σ)} {middle stop : Nat} {children : List (Derivation ν σ τ)}
    (within : Within goal r) (mem : p ∈ (g.rule r).productions) (eq : p.symbols = s :: symbols)
    (fits : g.Fits input symbols middle stop children) (ends : Ends goal r stop) :
    List.Forall₂ (EndsWith Completes) symbols children
  ends_of_completes {r : ν} {stop : Nat} (atom : ¬ IsAtom r) (completes : Completes r stop) :
    Ends r r stop
  continues_of_completes {r : ν} {stop : Nat} (atom : ¬ IsAtom r) (completes : Completes r stop) :
    continues r r stop = none
  atom_unique {r : ν} {start stop stop' : Nat} {d d' : Derivation ν σ τ} (atom : IsAtom r)
    (fits : g.Fits input [.nonterminal r] start stop [d])
    (fits' : g.Fits input [.nonterminal r] start stop' [d'])
    (completes : Completes r stop) (completes' : Completes r stop') : d = d'

namespace Prediction

variable {g : Grammar ν σ τ} {input : List σ} (c : g.Prediction input)

/-- Reads derivations of symbols from a position to another, by the choices made. A corner of the
first symbol may have been read already, up to the position. -/
inductive Reads : Option (Derivation ν σ τ) → List (GrammarSymbol ν σ) → Nat → Nat →
    List (Derivation ν σ τ) → Prop
  | nil (stop : Nat) : Reads none [] stop stop []
  | terminal {t : Terminal σ} {x : σ} {symbols : List (GrammarSymbol ν σ)} {start stop : Nat}
      {children : List (Derivation ν σ τ)} (get : input[start]? = some x)
      (rest : Reads none symbols (start + 1) stop children) :
      Reads none (.terminal t :: symbols) start stop (.leaf x :: children)
  | atom {r : ν} {p : Production ν σ τ} {symbols : List (GrammarSymbol ν σ)}
      {start middle stop : Nat} {inner children : List (Derivation ν σ τ)} (isAtom : c.IsAtom r)
      (fits : g.Fits input [.nonterminal r] start middle [.node r p start middle inner])
      (completes : c.Completes r middle) (rest : Reads none symbols middle stop children) :
      Reads none (.nonterminal r :: symbols) start stop (.node r p start middle inner :: children)
  | begins {goal r : ν} {p : Production ν σ τ} {symbols : List (GrammarSymbol ν σ)}
      {start middle stop : Nat} {inner children : List (Derivation ν σ τ)}
      (notAtom : ¬ c.IsAtom goal) (choice : c.begins goal start = some (r, p))
      (first : Reads none p.symbols start middle inner)
      (rest : Reads (some (.node r p start middle inner)) (.nonterminal goal :: symbols) middle stop
        children) :
      Reads none (.nonterminal goal :: symbols) start stop children
  | continues {goal corner r : ν} {p q : Production ν σ τ}
      {symbols others : List (GrammarSymbol ν σ)} {start middle next stop : Nat}
      {inner more children : List (Derivation ν σ τ)}
      (choice : c.continues goal corner middle = some (r, p))
      (eq : p.symbols = .nonterminal corner :: others)
      (others : Reads none others middle next more)
      (rest : Reads (some (.node r p start next (.node corner q start middle inner :: more)))
        (.nonterminal goal :: symbols) next stop children) :
      Reads (some (.node corner q start middle inner)) (.nonterminal goal :: symbols) middle stop
        children
  | completes {goal : ν} {p : Production ν σ τ} {symbols : List (GrammarSymbol ν σ)}
      {start middle stop : Nat} {inner children : List (Derivation ν σ τ)}
      (choice : c.continues goal goal middle = none)
      (rest : Reads none symbols middle stop children) :
      Reads (some (.node goal p start middle inner)) (.nonterminal goal :: symbols) middle stop
        (.node goal p start middle inner :: children)

variable {c}

/-- **The parser is deterministic.** -/
theorem Reads.unique {corner : Option (Derivation ν σ τ)} {symbols : List (GrammarSymbol ν σ)}
    {start stop stop' : Nat} {children children' : List (Derivation ν σ τ)}
    (h : c.Reads corner symbols start stop children)
    (h' : c.Reads corner symbols start stop' children') : stop = stop' ∧ children = children' := by
  induction h generalizing stop' children' with
  | nil => cases h' with
    | nil => exact ⟨rfl, rfl⟩
  | terminal get _ ih => cases h' with
    | terminal get' rest' =>
      obtain rfl := Option.some.inj (get.symm.trans get')
      obtain ⟨rfl, rfl⟩ := ih rest'
      exact ⟨rfl, rfl⟩
  | atom isAtom fits completes _ ih => cases h' with
    | atom _ fits' completes' rest' =>
      have heq := c.atom_unique isAtom fits fits' completes completes'
      injection heq with _ hp _ hmiddle hinner
      subst hp hmiddle hinner
      obtain ⟨rfl, rfl⟩ := ih rest'
      exact ⟨rfl, rfl⟩
    | begins notAtom _ _ _ => exact absurd isAtom notAtom
  | begins notAtom choice _ _ ih₁ ih₂ => cases h' with
    | atom isAtom _ _ _ => exact absurd isAtom notAtom
    | begins _ choice' first' rest' =>
      obtain ⟨rfl, rfl⟩ := Prod.mk.inj (Option.some.inj (choice.symm.trans choice'))
      obtain ⟨rfl, rfl⟩ := ih₁ first'
      exact ih₂ rest'
  | continues choice eq _ _ ih₁ ih₂ => cases h' with
    | continues choice' eq' others' rest' =>
      obtain ⟨rfl, rfl⟩ := Prod.mk.inj (Option.some.inj (choice.symm.trans choice'))
      obtain ⟨-, rfl⟩ := List.cons.inj (eq.symm.trans eq')
      obtain ⟨rfl, rfl⟩ := ih₁ others'
      exact ih₂ rest'
    | completes choice' _ => simp [choice] at choice'
  | completes choice _ ih => cases h' with
    | continues choice' _ _ _ => simp [choice] at choice'
    | completes _ rest' =>
      obtain ⟨rfl, rfl⟩ := ih rest'
      exact ⟨rfl, rfl⟩

/-! ## Every derivation is read -/

variable (c) in
/-- The parser comes to a derivation that is the corner of a goal, whatever it reads after it. -/
def Reaches (goal : ν) (start stop : Nat) (d : Derivation ν σ τ) : Prop :=
  ∀ {symbols : List (GrammarSymbol ν σ)} {last : Nat} {children : List (Derivation ν σ τ)},
    c.Reads (some d) (.nonterminal goal :: symbols) stop last children →
      c.Reads none (.nonterminal goal :: symbols) start last children

variable (c) in
/-- The first of some symbols can be read as the corner of a goal, and the others after it. -/
def ReadsCorner (symbols : List (GrammarSymbol ν σ)) (start stop : Nat)
    (children : List (Derivation ν σ τ)) : Prop :=
  ∀ {corner : ν} {others : List (GrammarSymbol ν σ)}, symbols = .nonterminal corner :: others →
    ∃ p middle inner more, children = .node corner p start middle inner :: more ∧
      g.Fits input others middle stop more ∧
      (∀ goal, c.Within goal corner → c.Ends goal corner middle →
        c.Reaches goal start middle (.node corner p start middle inner)) ∧
      (List.Forall₂ (EndsWith c.Completes) others more → c.Reads none others middle stop more)

/-- A production that begins with a terminal is the corner of its goal, and any other one is reached
from its own corner. -/
theorem reaches_node {goal r : ν} {p : Production ν σ τ} {start stop : Nat}
    {inner : List (Derivation ν σ τ)} (mem : p ∈ (g.rule r).productions)
    (fits : g.Fits input p.symbols start stop inner)
    (hreads : List.Forall₂ (EndsWith c.Completes) p.symbols inner →
      c.Reads none p.symbols start stop inner)
    (hcorner : c.ReadsCorner p.symbols start stop inner) (within : c.Within goal r)
    (ends : c.Ends goal r stop) : c.Reaches goal start stop (.node r p start stop inner) := by
  intro symbols last children h
  cases hsymbols : p.symbols with
  | nil => exact absurd hsymbols ((g.rule r).symbols_ne_nil p mem)
  | cons s others =>
    cases s with
    | nonterminal corner =>
      obtain ⟨q, middle, inner', more, rfl, hothers, hreaches, hmore⟩ := hcorner hsymbols
      refine hreaches goal (c.within_corner within mem hsymbols)
        (c.ends_corner within mem hsymbols hothers ends) ?_
      exact .continues (c.continues_eq within mem hsymbols hothers ends) hsymbols
        (hmore (c.completes_inner within mem hsymbols hothers ends)) h
    | terminal t =>
      refine .begins (c.not_isAtom within) (c.begins_eq within mem hsymbols fits) (hreads ?_) h
      rw [hsymbols] at fits ⊢
      cases fits with
      | terminal _ _ hothers =>
        exact .cons trivial (c.completes_inner within mem hsymbols hothers ends)

/-- **The parser reads every derivation whose nonterminals end where they may.** -/
theorem reads_of_fits {symbols : List (GrammarSymbol ν σ)} {start stop : Nat}
    {children : List (Derivation ν σ τ)} (h : g.Fits input symbols start stop children) :
    (List.Forall₂ (EndsWith c.Completes) symbols children →
      c.Reads none symbols start stop children) ∧ c.ReadsCorner symbols start stop children := by
  induction h with
  | nil stop => exact ⟨fun _ => .nil stop, fun h => nomatch h⟩
  | terminal get _ _ ih =>
    refine ⟨fun h => ?_, fun h => nomatch h⟩
    obtain ⟨-, hrest⟩ := List.forall₂_cons.1 h
    exact .terminal get (ih.1 hrest)
  | @nonterminal r p symbols start middle stop inner children mem first rest ih₁ ih₂ =>
    have hreaches : ∀ goal, c.Within goal r → c.Ends goal r middle →
        c.Reaches goal start middle (.node r p start middle inner) :=
      fun goal within ends => reaches_node mem first ih₁.1 ih₁.2 within ends
    refine ⟨fun h => ?_, fun h => ?_⟩
    · obtain ⟨hcompletes, hothers⟩ := List.forall₂_cons.1 h
      replace hcompletes : c.Completes r middle := hcompletes
      by_cases hatom : c.IsAtom r
      · exact .atom hatom (.nonterminal mem first (.nil middle)) hcompletes (ih₂.1 hothers)
      · exact hreaches r (c.within_self hatom) (c.ends_of_completes hatom hcompletes)
          (.completes (c.continues_of_completes hatom hcompletes) (ih₂.1 hothers))
    · obtain ⟨heq, rfl⟩ := List.cons.inj h
      injection heq with heq
      subst heq
      exact ⟨p, middle, inner, children, rfl, rest, hreaches, ih₂.1⟩

/-- **A nonterminal has at most one derivation from a position to one where it may be complete.** -/
theorem fits_unique (c : g.Prediction input) {r : ν} {start stop stop' : Nat}
    {d d' : Derivation ν σ τ} (h : g.Fits input [.nonterminal r] start stop [d])
    (h' : g.Fits input [.nonterminal r] start stop' [d']) (hcompletes : c.Completes r stop)
    (hcompletes' : c.Completes r stop') : d = d' := by
  have hreads : ∀ {stop : Nat} {d : Derivation ν σ τ},
      g.Fits input [.nonterminal r] start stop [d] → c.Completes r stop →
        c.Reads none [.nonterminal r] start stop [d] := by
    intro stop d hfits hstop
    refine (reads_of_fits hfits).1 ?_
    cases hfits with
    | nonterminal _ _ rest =>
      cases rest
      exact .cons hstop .nil
  exact (List.cons.inj ((hreads h hcompletes).unique (hreads h' hcompletes')).2).1

end Prediction

end CPreprocessor.Grammar
