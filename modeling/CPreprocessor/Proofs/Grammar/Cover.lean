import CPreprocessor.Proofs.Grammar.Tree

/-!
# What trees cover

What a nonterminal stands for can be said of its trees and of the input that they cover. If every
production keeps what is said, it is true of the parse tree (`Grammar.exists_covers_of_parse`). The
trees of the symbols of a production are then taken apart one by one (`Grammar.covers_nil_iff`,
`Grammar.covers_terminal_iff`, `Grammar.covers_nonterminal_iff`, `Grammar.covers_replicate_iff`,
`Grammar.covers_append_iff`).
-/

namespace CPreprocessor

variable {ν σ τ : Type}

namespace Tree

@[simp] theorem leavesOfList_map_leaf (word : List σ) :
    leavesOfList (word.map (.leaf : σ → Tree ν σ τ)) = word := by
  induction word with
  | nil => rfl
  | cons x word ih => rw [List.map_cons, leavesOfList, ih, leaves, List.singleton_append]

theorem leavesOfList_append (trees trees' : List (Tree ν σ τ)) :
    leavesOfList (trees ++ trees') = leavesOfList trees ++ leavesOfList trees' := by
  induction trees with
  | nil => rfl
  | cons tree trees ih =>
    rw [List.cons_append, leavesOfList, leavesOfList, ih, List.append_assoc]

end Tree

namespace Grammar

variable [Spelled σ]

/-- Trees of the symbols of a list, and the input that all of them cover. The tree of a nonterminal
is described with the input that it covers. -/
inductive Covers (describes : ν → Tree ν σ τ → List σ → Prop) :
    List (GrammarSymbol ν σ) → List (Tree ν σ τ) → List σ → Prop
  | nil : Covers describes [] [] []
  | terminal {t : Terminal σ} {x : σ} {symbols : List (GrammarSymbol ν σ)}
      {trees : List (Tree ν σ τ)} {word : List σ} (accepts : t.accepts x = true)
      (rest : Covers describes symbols trees word) :
      Covers describes (.terminal t :: symbols) (.leaf x :: trees) (x :: word)
  | nonterminal {r : ν} {tree : Tree ν σ τ} {symbols : List (GrammarSymbol ν σ)}
      {trees : List (Tree ν σ τ)} {u v : List σ} (first : describes r tree u)
      (rest : Covers describes symbols trees v) :
      Covers describes (.nonterminal r :: symbols) (tree :: trees) (u ++ v)

variable {describes : ν → Tree ν σ τ → List σ → Prop} {symbols more : List (GrammarSymbol ν σ)}
  {trees : List (Tree ν σ τ)} {word : List σ}

theorem covers_nil_iff : Covers describes [] trees word ↔ trees = [] ∧ word = [] := by
  constructor
  · rintro ⟨⟩
    exact ⟨rfl, rfl⟩
  · rintro ⟨rfl, rfl⟩
    exact .nil

theorem covers_terminal_iff {t : Terminal σ} :
    Covers describes (.terminal t :: symbols) trees word ↔
      ∃ x trees' word', trees = .leaf x :: trees' ∧ word = x :: word' ∧ t.accepts x = true ∧
        Covers describes symbols trees' word' := by
  constructor
  · rintro (_ | ⟨haccepts, hrest⟩)
    exact ⟨_, _, _, rfl, rfl, haccepts, hrest⟩
  · rintro ⟨x, trees', word', rfl, rfl, haccepts, hrest⟩
    exact .terminal haccepts hrest

theorem covers_nonterminal_iff {r : ν} :
    Covers describes (.nonterminal r :: symbols) trees word ↔
      ∃ tree trees' u v, trees = tree :: trees' ∧ word = u ++ v ∧ describes r tree u ∧
        Covers describes symbols trees' v := by
  constructor
  · intro h
    cases h with
    | nonterminal first rest => exact ⟨_, _, _, _, rfl, rfl, first, rest⟩
  · rintro ⟨tree, trees', u, v, rfl, rfl, hfirst, hrest⟩
    exact .nonterminal hfirst hrest

theorem covers_terminal_singleton_iff {t : Terminal σ} :
    Covers describes [.terminal t] trees word ↔
      ∃ x, trees = [.leaf x] ∧ word = [x] ∧ t.accepts x = true := by
  rw [covers_terminal_iff]
  refine exists_congr fun x => ⟨?_, ?_⟩
  · rintro ⟨trees', word', rfl, rfl, haccepts, hnil⟩
    obtain ⟨rfl, rfl⟩ := covers_nil_iff.1 hnil
    exact ⟨rfl, rfl, haccepts⟩
  · rintro ⟨rfl, rfl, haccepts⟩
    exact ⟨[], [], rfl, rfl, haccepts, .nil⟩

theorem covers_nonterminal_singleton_iff {r : ν} :
    Covers describes [.nonterminal r] trees word ↔
      ∃ tree, trees = [tree] ∧ describes r tree word := by
  rw [covers_nonterminal_iff]
  refine exists_congr fun tree => ⟨?_, ?_⟩
  · rintro ⟨trees', u, v, rfl, rfl, hfirst, hnil⟩
    obtain ⟨rfl, rfl⟩ := covers_nil_iff.1 hnil
    exact ⟨rfl, (List.append_nil u).symm ▸ hfirst⟩
  · rintro ⟨rfl, hfirst⟩
    exact ⟨[], word, [], rfl, (List.append_nil word).symm, hfirst, .nil⟩

theorem covers_replicate_iff {t : Terminal σ} {n : Nat} :
    Covers describes (List.replicate n (.terminal t)) trees word ↔
      trees = word.map .leaf ∧ word.length = n ∧ ∀ x ∈ word, t.accepts x = true := by
  induction n generalizing trees word with
  | zero =>
    rw [List.replicate_zero, covers_nil_iff]
    constructor
    · rintro ⟨rfl, rfl⟩
      exact ⟨rfl, rfl, nofun⟩
    · rintro ⟨rfl, hlength, -⟩
      obtain rfl := List.eq_nil_of_length_eq_zero hlength
      exact ⟨rfl, rfl⟩
  | succ n ih =>
    rw [List.replicate_succ, covers_terminal_iff]
    constructor
    · rintro ⟨x, trees', word', rfl, rfl, haccepts, hrest⟩
      obtain ⟨rfl, rfl, hall⟩ := ih.1 hrest
      exact ⟨rfl, rfl, List.forall_mem_cons.2 ⟨haccepts, hall⟩⟩
    · rintro ⟨rfl, hlength, hall⟩
      obtain ⟨x, word', rfl⟩ := List.exists_cons_of_length_eq_add_one hlength
      obtain ⟨haccepts, hall⟩ := List.forall_mem_cons.1 hall
      exact ⟨x, _, word', rfl, rfl, haccepts, ih.2 ⟨rfl, Nat.succ.inj hlength, hall⟩⟩

theorem covers_append_iff :
    Covers describes (symbols ++ more) trees word ↔
      ∃ front back u v, trees = front ++ back ∧ word = u ++ v ∧ Covers describes symbols front u ∧
        Covers describes more back v := by
  constructor
  · intro h
    induction symbols generalizing trees word with
    | nil => exact ⟨[], trees, [], word, rfl, rfl, .nil, h⟩
    | cons s symbols ih =>
      cases h with
      | terminal haccepts hrest =>
        obtain ⟨front, back, u, v, rfl, rfl, hfront, hback⟩ := ih hrest
        exact ⟨_ :: front, back, _ :: u, v, rfl, rfl, .terminal haccepts hfront, hback⟩
      | nonterminal first hrest =>
        obtain ⟨front, back, u, v, rfl, rfl, hfront, hback⟩ := ih hrest
        exact ⟨_ :: front, back, _ ++ u, v, rfl, (List.append_assoc _ _ _).symm,
          .nonterminal first hfront, hback⟩
  · rintro ⟨front, back, u, v, rfl, rfl, hfront, hback⟩
    induction hfront with
    | nil => exact hback
    | terminal haccepts _ ih => exact .terminal haccepts ih
    | nonterminal first _ ih =>
      rw [List.append_assoc]
      exact .nonterminal first ih

variable [DecidableEq ν] (g : Grammar ν σ τ)

/-- The node of a production over the trees of its symbols. -/
def nodeOf (r : ν) (p : Production ν σ τ) (start stop : Nat) (trees : List (Tree ν σ τ)) :
    Tree ν σ τ :=
  if (g.rule r).isList then listNode r p start stop trees else .node r p.tag start stop trees

variable {g}

omit [Spelled σ] in
theorem nodeOf_eq_listNode {r : ν} (h : (g.rule r).isList = true) (p : Production ν σ τ)
    (start stop : Nat) (trees : List (Tree ν σ τ)) :
    g.nodeOf r p start stop trees = listNode r p start stop trees :=
  if_pos h

omit [Spelled σ] in
theorem nodeOf_eq_node {r : ν} (h : (g.rule r).isList = false) (p : Production ν σ τ)
    (start stop : Nat) (trees : List (Tree ν σ τ)) :
    g.nodeOf r p start stop trees = .node r p.tag start stop trees :=
  if_neg (by simp [h])

variable (hnode : ∀ r, ∀ p ∈ (g.rule r).productions, ∀ start stop trees word,
  Covers describes p.symbols trees word → describes r (g.nodeOf r p start stop trees) word)
include hnode

theorem exists_covers_of_fits {input : List σ} {start stop : Nat}
    {children : List (Derivation ν σ τ)} (h : g.Fits input symbols start stop children) :
    ∃ word, Covers describes symbols (g.treesOfList children) word ∧
      stop = start + word.length ∧ input.drop start = word ++ input.drop stop := by
  induction h with
  | nil start => exact ⟨[], .nil, rfl, rfl⟩
  | @terminal t x symbols start stop children get accepts _ ih =>
    obtain ⟨word, hcovers, hstop, hdrop⟩ := ih
    refine ⟨x :: word, .terminal accepts hcovers, by rw [hstop, List.length_cons]; omega, ?_⟩
    rw [List.drop_eq_getElem?_toList_append, get, hdrop]
    rfl
  | @nonterminal r p symbols start middle stop inner children mem _ _ ih₁ ih₂ =>
    obtain ⟨u, hu, hmiddle, hdrop₁⟩ := ih₁
    obtain ⟨v, hv, hstop, hdrop₂⟩ := ih₂
    refine ⟨u ++ v, ?_, ?_, by rw [hdrop₁, hdrop₂, List.append_assoc]⟩
    · rw [treesOfList, tree]
      exact .nonterminal (hnode r p mem start middle _ u hu) hv
    · rw [hstop, hmiddle, List.length_append, Nat.add_assoc]

/-- **The parse tree covers the input.** -/
theorem exists_covers_of_parse {root : ν} {input : List σ} {t : Tree ν σ τ}
    (h : g.parse root input = some t) :
    ∃ p ∈ (g.rule root).productions, ∃ trees,
      t = g.nodeOf root p 0 input.length trees ∧ Covers describes p.symbols trees input := by
  obtain ⟨d, hd, rfl⟩ := Option.map_eq_some_iff.1 h
  cases fits_of_derive? hd with
  | nonterminal mem first rest =>
    cases rest
    obtain ⟨word, hcovers, -, hdrop⟩ := exists_covers_of_fits hnode first
    rw [List.drop_zero, List.drop_length, List.append_nil] at hdrop
    subst hdrop
    exact ⟨_, mem, _, rfl, hcovers⟩

end Grammar

end CPreprocessor
