import CPreprocessor.Grammar.Basic

/-!
# Grammars from tables

A grammar can be given as a list of numbered rules. `Grammar.ofEntries` checks that no production is
empty, that the numbers leave no gap, and that no production refers to a number beyond them. A later
rule replaces an earlier one with the same number.
-/

namespace CPreprocessor

/-- What is wrong with a table of rules. -/
inductive TableFault
  | emptyProduction (name : String)
  | undefinedRule (number : Nat)
  | undefinedReference (name : String) (number : Nat)
  deriving DecidableEq

def TableFault.message : TableFault → String
  | .emptyProduction name => "rule `" ++ name ++ "` has an empty alternative"
  | .undefinedRule number => "rule " ++ toString number ++ " is not defined"
  | .undefinedReference name number => "rule `" ++ name ++ "` refers to rule " ++ toString number

/-- A numbered rule that nobody has checked. -/
structure TableEntry (σ τ : Type) where
  number : Nat
  name : String
  isList : Bool
  productions : List (Production Nat σ τ)

variable {σ τ : Type}

/-- The rule of an entry without empty productions. -/
def TableEntry.rule? (entry : TableEntry σ τ) : Except TableFault (Rule Nat σ τ) :=
  if h : ∀ p ∈ entry.productions, p.symbols ≠ [] then
    .ok ⟨entry.name, entry.isList, entry.productions, h⟩
  else .error (.emptyProduction entry.name)

/-- The first reference of a rule to a number that is not below the given one. -/
def Rule.danglingReference? (size : Nat) (rule : Rule Nat σ τ) : Option Nat :=
  rule.productions.findSome? fun p => p.symbols.findSome? fun
    | .nonterminal number => if number < size then none else some number
    | .terminal _ => none

namespace Grammar

/-- The grammar whose rules are numbered by their place in a list. -/
def ofRules (rules : List (Rule Nat σ τ)) : Grammar Nat σ τ where
  nonterminals := List.range rules.length
  rule number := (rules[number]?).getD ⟨"", false, [], by simp⟩
  productions_eq_nil number h := by
    rw [List.mem_range, Nat.not_lt] at h
    simp [List.getElem?_eq_none h]

/-- The grammar with the given rules. -/
def ofEntries (entries : List (TableEntry σ τ)) : Except TableFault (Grammar Nat σ τ) := do
  let numbered ← entries.mapM fun entry => return (entry.number, ← entry.rule?)
  let size := (entries.map (·.number + 1)).foldl max 0
  let rules ← (List.range size).mapM fun number =>
    match numbered.reverse.lookup number with
    | some rule => Except.ok rule
    | none => .error (.undefinedRule number)
  for rule in rules do
    if let some number := rule.danglingReference? size then
      throw (.undefinedReference rule.name number)
  return ofRules rules

end Grammar

end CPreprocessor
