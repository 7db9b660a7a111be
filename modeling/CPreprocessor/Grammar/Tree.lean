import CPreprocessor.Grammar.Basic

/-!
# Derivations and parse trees

A derivation records which production derived which part of the input. A parse tree is what is read
from it: every node has the tag of its production, and a node of a list rule has all elements of the
list as its children, whatever the depth of the recursion that derived them (`Grammar.tree`).
-/

namespace CPreprocessor

/-- How a part of the input was derived. -/
inductive Derivation (ν σ τ : Type)
  /-- An input symbol, from a terminal. -/
  | leaf (symbol : σ)
  /-- The input symbols from `start` on and before `stop`, from a nonterminal. -/
  | node (rule : ν) (production : Production ν σ τ) (start stop : Nat)
      (children : List (Derivation ν σ τ))

/-- A parse tree. -/
inductive Tree (ν σ τ : Type)
  /-- An input symbol. -/
  | leaf (symbol : σ)
  /-- The input symbols from `start` on and before `stop`. -/
  | node (rule : ν) (tag : τ) (start stop : Nat) (children : List (Tree ν σ τ))

variable {ν σ τ : Type}

namespace Tree

mutual
/-- The input symbols that a tree covers, in order. -/
def leaves : Tree ν σ τ → List σ
  | .leaf x => [x]
  | .node _ _ _ _ children => leavesOfList children

/-- The input symbols that a list of trees covers, in order. -/
def leavesOfList : List (Tree ν σ τ) → List σ
  | [] => []
  | t :: rest => t.leaves ++ leavesOfList rest
end

def children : Tree ν σ τ → List (Tree ν σ τ)
  | .leaf _ => []
  | .node _ _ _ _ children => children

end Tree

/-- The trees of the elements that a production contributes to a list: those of all its symbols but
the literals. -/
def elementsOf : List (GrammarSymbol ν σ) → List (Tree ν σ τ) → List (Tree ν σ τ)
  | s :: symbols, t :: trees =>
    if s.isLiteral then elementsOf symbols trees else t :: elementsOf symbols trees
  | _, _ => []

namespace Grammar

variable [DecidableEq ν] (g : Grammar ν σ τ)

/-- The node of a list rule over the trees of its symbols: the list of a recursive first symbol goes
on with the elements after it and keeps its tag. -/
def listNode (rule : ν) (production : Production ν σ τ) (start stop : Nat)
    (trees : List (Tree ν σ τ)) : Tree ν σ τ :=
  match production.symbols, trees with
  | .nonterminal first :: symbols, .node _ tag _ _ elements :: rest =>
    if first = rule then
      .node rule tag start stop (elements ++ elementsOf symbols rest)
    else .node rule production.tag start stop (elementsOf production.symbols trees)
  | symbols, trees => .node rule production.tag start stop (elementsOf symbols trees)

mutual
/-- The parse tree of a derivation. -/
def tree : Derivation ν σ τ → Tree ν σ τ
  | .leaf x => .leaf x
  | .node rule production start stop children =>
    if (g.rule rule).isList then listNode rule production start stop (treesOfList children)
    else .node rule production.tag start stop (treesOfList children)

/-- The parse trees of a list of derivations. -/
def treesOfList : List (Derivation ν σ τ) → List (Tree ν σ τ)
  | [] => []
  | d :: rest => tree d :: treesOfList rest
end

end Grammar

end CPreprocessor
