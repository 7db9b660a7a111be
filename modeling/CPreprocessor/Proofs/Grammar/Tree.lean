import CPreprocessor.Proofs.Grammar.Recognition

/-!
# Parse trees are derivations

`Grammar.IsTree` says that a tree derives a part of the input from a symbol. The children of a node
match the symbols of a production with the tag of the node, one by one. A node of a list rule is a
chain instead (`Grammar.IsChain`): a production that does not begin with the rule itself, whose tag
the node has, and after it any number of productions that do. Its children are what all of them have
besides literals and the recursion, in the order of the input.

Every tree that `Grammar.parse` returns derives the whole input from the root in this sense
(`isTree_of_parse`).
-/

namespace CPreprocessor.Grammar

variable {ν σ τ : Type}

/-- The trees of all symbols but the literals. -/
def withoutLiterals (symbols : List (GrammarSymbol ν σ)) (trees : List (Tree ν σ τ)) :
    List (Tree ν σ τ) :=
  ((symbols.zip trees).filter fun pair => !pair.1.isLiteral).map Prod.snd

section

variable [Spelled σ] (g : Grammar ν σ τ)

mutual

/-- A tree derives the input from one position to another from a symbol. -/
inductive IsTree (input : List σ) : GrammarSymbol ν σ → Nat → Nat → Tree ν σ τ → Prop
  | leaf {t : Terminal σ} {x : σ} {start : Nat} (get : input[start]? = some x)
      (accepts : t.accepts x = true) : IsTree input (.terminal t) start (start + 1) (.leaf x)
  | node {r : ν} {p : Production ν σ τ} {start stop : Nat} {children : List (Tree ν σ τ)}
      (notList : (g.rule r).isList = false) (mem : p ∈ (g.rule r).productions)
      (trees : AreTrees input p.symbols start stop children) :
      IsTree input (.nonterminal r) start stop (.node r p.tag start stop children)
  | list {r : ν} {tag : τ} {start stop : Nat} {elements : List (Tree ν σ τ)}
      (isList : (g.rule r).isList = true) (chain : IsChain input r tag start stop elements) :
      IsTree input (.nonterminal r) start stop (.node r tag start stop elements)

/-- Trees derive the input from one position to another from a list of symbols: one tree for each
symbol, each beginning where the one before it ends. -/
inductive AreTrees (input : List σ) :
    List (GrammarSymbol ν σ) → Nat → Nat → List (Tree ν σ τ) → Prop
  | nil (start : Nat) : AreTrees input [] start start []
  | cons {s : GrammarSymbol ν σ} {symbols : List (GrammarSymbol ν σ)} {start middle stop : Nat}
      {t : Tree ν σ τ} {trees : List (Tree ν σ τ)} (first : IsTree input s start middle t)
      (rest : AreTrees input symbols middle stop trees) :
      AreTrees input (s :: symbols) start stop (t :: trees)

/-- The elements of a list that is derived from a rule by recursion on the left. -/
inductive IsChain (input : List σ) : ν → τ → Nat → Nat → List (Tree ν σ τ) → Prop
  | base {r : ν} {p : Production ν σ τ} {start stop : Nat} {trees : List (Tree ν σ τ)}
      (mem : p ∈ (g.rule r).productions) (notRecursive : p.symbols.head? ≠ some (.nonterminal r))
      (rest : AreTrees input p.symbols start stop trees) :
      IsChain input r p.tag start stop (withoutLiterals p.symbols trees)
  | link {r : ν} {tag : τ} {p : Production ν σ τ} {symbols : List (GrammarSymbol ν σ)}
      {start middle stop : Nat} {elements trees : List (Tree ν σ τ)}
      (init : IsChain input r tag start middle elements) (mem : p ∈ (g.rule r).productions)
      (recursive : p.symbols = .nonterminal r :: symbols)
      (rest : AreTrees input symbols middle stop trees) :
      IsChain input r tag start stop (elements ++ withoutLiterals symbols trees)

end

end

/-! ## The node of a list rule -/

theorem elementsOf_eq (symbols : List (GrammarSymbol ν σ)) (trees : List (Tree ν σ τ)) :
    elementsOf symbols trees = withoutLiterals symbols trees := by
  induction symbols generalizing trees with
  | nil => rfl
  | cons s symbols ih =>
    cases trees with
    | nil => rfl
    | cons t trees =>
      rw [elementsOf, ih]
      unfold withoutLiterals
      rw [List.zip_cons_cons, List.filter_cons]
      dsimp only
      cases s.isLiteral with
      | true => rfl
      | false => rfl

variable [DecidableEq ν]

theorem listNode_of_recursive {r : ν} {p : Production ν σ τ} {symbols : List (GrammarSymbol ν σ)}
    {start middle stop : Nat} {tag : τ} {elements rest : List (Tree ν σ τ)}
    (hsymbols : p.symbols = .nonterminal r :: symbols) :
    listNode r p start stop (.node r tag start middle elements :: rest) =
      .node r tag start stop (elements ++ withoutLiterals symbols rest) := by
  unfold listNode
  rw [hsymbols]
  dsimp only
  rw [if_pos rfl, elementsOf_eq]

theorem listNode_of_head_ne {r : ν} {p : Production ν σ τ} {start stop : Nat}
    {trees : List (Tree ν σ τ)} (hhead : p.symbols.head? ≠ some (.nonterminal r)) :
    listNode r p start stop trees =
      .node r p.tag start stop (withoutLiterals p.symbols trees) := by
  unfold listNode
  split
  · next first symbols _ tag _ _ elements rest hsymbols =>
    have hne : first ≠ r := by
      rintro rfl
      exact hhead (by rw [hsymbols, List.head?_cons])
    rw [if_neg hne, elementsOf_eq]
  · rw [elementsOf_eq]

/-! ## The trees of derivations -/

variable [Spelled σ] {g : Grammar ν σ τ} {input : List σ}

omit [DecidableEq ν] in
theorem IsTree.exists_eq_node {r : ν} {start stop : Nat} {t : Tree ν σ τ}
    (h : g.IsTree input (.nonterminal r) start stop t) :
    ∃ tag children, t = .node r tag start stop children := by
  cases h with
  | node _ _ _ => exact ⟨_, _, rfl⟩
  | list _ _ => exact ⟨_, _, rfl⟩

/-- The node of a list rule continues the chain of its first tree, or is the base of one. -/
theorem isTree_listNode {r : ν} {p : Production ν σ τ} {start stop : Nat}
    {trees : List (Tree ν σ τ)} (hlist : (g.rule r).isList = true)
    (mem : p ∈ (g.rule r).productions) (h : g.AreTrees input p.symbols start stop trees) :
    g.IsTree input (.nonterminal r) start stop (listNode r p start stop trees) := by
  by_cases hhead : p.symbols.head? = some (.nonterminal r)
  · obtain ⟨symbols, hsymbols⟩ := List.head?_eq_some_iff.1 hhead
    rw [hsymbols] at h
    cases h with
    | cons first rest =>
      obtain ⟨tag, elements, rfl⟩ := first.exists_eq_node
      rw [listNode_of_recursive hsymbols]
      cases first with
      | node notList _ _ =>
        -- the recursion is on the same rule, which is a list rule
        rw [hlist] at notList
        contradiction
      | list _ chain => exact .list hlist (.link chain mem hsymbols rest)
  · rw [listNode_of_head_ne hhead]
    exact .list hlist (.base mem hhead h)

/-- Derivations that fit symbols have trees that derive the same from them. -/
theorem areTrees_of_fits {symbols : List (GrammarSymbol ν σ)} {start stop : Nat}
    {children : List (Derivation ν σ τ)} (h : g.Fits input symbols start stop children) :
    g.AreTrees input symbols start stop (g.treesOfList children) := by
  induction h with
  | nil start => exact .nil start
  | terminal get accepts _ ih => exact .cons (.leaf get accepts) ih
  | @nonterminal r p symbols start middle stop inner children mem _ _ ih₁ ih₂ =>
    refine .cons ?_ ih₂
    rw [tree]
    cases hlist : (g.rule r).isList with
    | true => exact isTree_listNode hlist mem ih₁
    | false => exact .node hlist mem ih₁

/-- **Every parse tree derives the whole input from the root.** -/
theorem isTree_of_parse {root : ν} {t : Tree ν σ τ} (h : g.parse root input = some t) :
    (∃ tag children, t = .node root tag 0 input.length children) ∧
      g.IsTree input (.nonterminal root) 0 input.length t := by
  obtain ⟨d, hd, rfl⟩ := Option.map_eq_some_iff.1 h
  have htrees := areTrees_of_fits (fits_of_derive? hd)
  rw [treesOfList, treesOfList] at htrees
  cases htrees with
  | cons first rest =>
    cases rest
    exact ⟨first.exists_eq_node, first⟩

/-- Letters `x` with commas between them: `list → list , x` and `list → x`. -/
def commaList : Grammar Unit UInt8 String where
  nonterminals := [()]
  rule := fun _ =>
    { name := "list"
      isList := true
      productions :=
        [⟨"more", [.nonterminal (), .spelled ",", .such (· == 120)]⟩,
          ⟨"one", [.such (· == 120)]⟩] }
  productions_eq_nil := fun r h => absurd (List.mem_singleton.2 rfl) h

theorem isTree_commaList :
    let t : Tree Unit UInt8 String := .node () "one" 0 5 [.leaf 120, .leaf 120, .leaf 120]
    commaList.parse () [120, 44, 120, 44, 120] = some t ∧
      commaList.IsTree [120, 44, 120, 44, 120] (.nonterminal ()) 0 5 t := by
  have h : commaList.parse () [120, 44, 120, 44, 120] =
      some (.node () "one" 0 5 [.leaf 120, .leaf 120, .leaf 120]) := by with_unfolding_all rfl
  exact ⟨h, (isTree_of_parse h).2⟩

end CPreprocessor.Grammar
