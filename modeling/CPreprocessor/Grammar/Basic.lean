import CPreprocessor.Ascii

/-!
# Context-free grammars

A grammar gives every nonterminal a rule, and a rule is a list of productions with at least one
symbol each. Terminals are over any type of input symbols: a terminal is a literal, which is
compared with the spelling of the symbol, or a predicate. Productions carry a tag that tells the
reader of a parse tree which construction was matched.

A list rule is one whose productions describe a non-empty list by recursion on the left, such as
`A → A , x` and `A → x`. It is parsed like any other rule, but its tree is flat.
-/

namespace CPreprocessor

/-- Input symbols that can be compared with a literal. -/
class Spelled (σ : Type) where
  isSpelled : σ → Bytes → Bool

/-- A byte spells the literal that consists of it. -/
instance : Spelled UInt8 := ⟨fun b literal => literal == [b]⟩

/-- A symbol that stands for one input symbol. -/
inductive Terminal (σ : Type)
  | literal (spelling : Bytes)
  | satisfying (predicate : σ → Bool)

/-- Whether a terminal stands for an input symbol. -/
def Terminal.accepts {σ : Type} [Spelled σ] : Terminal σ → σ → Bool
  | .literal spelling, x => Spelled.isSpelled x spelling
  | .satisfying predicate, x => predicate x

/-- A symbol of a production. -/
inductive GrammarSymbol (ν σ : Type)
  | nonterminal (rule : ν)
  | terminal (t : Terminal σ)

namespace GrammarSymbol

variable {ν σ : Type}

/-- The terminal with the given spelling. -/
def spelled (literal : String) : GrammarSymbol ν σ := terminal (.literal (Bytes.ofString literal))

/-- The terminal for the symbols that satisfy a predicate. -/
def such (predicate : σ → Bool) : GrammarSymbol ν σ := terminal (.satisfying predicate)

/-- Whether a symbol is a literal, which stands for no element of a list. -/
def isLiteral : GrammarSymbol ν σ → Bool
  | terminal (.literal _) => true
  | _ => false

end GrammarSymbol

/-- One way to derive a nonterminal. -/
structure Production (ν σ τ : Type) where
  tag : τ
  symbols : List (GrammarSymbol ν σ)

/-- Every way to derive a nonterminal. -/
structure Rule (ν σ τ : Type) where
  name : String
  /-- Whether the tree of a derivation is flattened. -/
  isList : Bool := false
  productions : List (Production ν σ τ)
  symbols_ne_nil : ∀ p ∈ productions, p.symbols ≠ [] := by decide

/-- A context-free grammar with finitely many rules. -/
structure Grammar (ν σ τ : Type) where
  nonterminals : List ν
  rule : ν → Rule ν σ τ
  productions_eq_nil : ∀ r, r ∉ nonterminals → (rule r).productions = []

end CPreprocessor
