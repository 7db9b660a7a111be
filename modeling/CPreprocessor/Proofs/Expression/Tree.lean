import CPreprocessor.Expression.Value
import CPreprocessor.Phrase.Grammar
import CPreprocessor.Proofs.Grammar.Tree

/-!
# The trees of expressions

A parse tree of an expression has as its children what its tag says: operands, which are trees of
expressions again, with tokens between them (`Expression.IsExpression`). Only constructions that
have no value in a directive have other children. Every tree that is parsed from an expression rule
is of this form (`isExpression_of_parse`), because the grammar lets each tag stand for one sequence
of parts (`parts?_of_mem`).
-/

namespace CPreprocessor.Expression

/-! ## The parts of a construction -/

/-- What a symbol of a production is. -/
inductive Part
  | token
  | operand
  /-- A phrase that is no expression, such as a type name. -/
  | phrase
  deriving DecidableEq

/-- The parts of the constructions that can have a value. -/
def parts? : Tag → Option (List Part)
  | .next => some [.operand]
  | .parenthesized => some [.token, .operand, .token]
  | .number | .character => some [.token]
  | .unary _ => some [.token, .operand]
  | .binary _ => some [.operand, .token, .operand]
  | .conditional => some [.operand, .token, .operand, .token, .operand]
  | _ => none

/-- The nonterminals of expressions. -/
def isExpressionRule : Nonterminal → Bool
  | .constantExpression | .expression | .assignmentExpression | .conditionalExpression
  | .logicalOrExpression | .logicalAndExpression | .inclusiveOrExpression
  | .exclusiveOrExpression | .andExpression | .equalityExpression | .relationalExpression
  | .shiftExpression | .additiveExpression | .multiplicativeExpression | .castExpression
  | .unaryExpression | .postfixExpression | .primaryExpression => true
  | _ => false

def partOf : GrammarSymbol Nonterminal Token → Part
  | .terminal _ => .token
  | .nonterminal r => if isExpressionRule r then .operand else .phrase

/-- A tag stands for one sequence of parts, in whatever rule of expressions it occurs. -/
theorem parts?_of_mem {r : Nonterminal} {p : Production Nonterminal Token Tag}
    (hr : isExpressionRule r = true) (hp : p ∈ (Phrase.rule r).productions)
    {parts : List Part} (hparts : parts? p.tag = some parts) : p.symbols.map partOf = parts := by
  have h : ∀ p ∈ (Phrase.rule r).productions,
      (parts? p.tag).all (p.symbols.map partOf = ·) = true := by
    cases r <;> first | exact absurd hr Bool.false_ne_true | exact List.all_eq_true.1 (by decide)
  have := h p hp
  rw [hparts] at this
  exact of_decide_eq_true this

theorem isList_of_isExpressionRule {r : Nonterminal} (hr : isExpressionRule r = true) :
    (Phrase.rule r).isList = false := by
  cases r <;> first | exact absurd hr Bool.false_ne_true | rfl

/-! ## The trees -/

/-- Trees of expressions. -/
inductive IsExpression : ExpressionTree → Prop
  | next {r start stop operand} (h : IsExpression operand) :
      IsExpression (.node r .next start stop [operand])
  | parenthesized {r start stop a b operand} (h : IsExpression operand) :
      IsExpression (.node r .parenthesized start stop [.leaf a, operand, .leaf b])
  | number {r start stop token} : IsExpression (.node r .number start stop [.leaf token])
  | character {r start stop token} : IsExpression (.node r .character start stop [.leaf token])
  | unary {r operator start stop a operand} (h : IsExpression operand) :
      IsExpression (.node r (.unary operator) start stop [.leaf a, operand])
  | binary {r operator start stop a left right} (hleft : IsExpression left)
      (hright : IsExpression right) :
      IsExpression (.node r (.binary operator) start stop [left, .leaf a, right])
  | conditional {r start stop a b condition yes no} (hcondition : IsExpression condition)
      (hyes : IsExpression yes) (hno : IsExpression no) :
      IsExpression (.node r .conditional start stop [condition, .leaf a, yes, .leaf b, no])
  | disallowed {r tag start stop children} (htag : parts? tag = none) :
      IsExpression (.node r tag start stop children)

/-- What a tree is as a part of a construction. -/
def IsPart : Part → ExpressionTree → Prop
  | .token, t => ∃ x, t = .leaf x
  | .operand, t => IsExpression t
  | .phrase, _ => True

/-- A node is a tree of an expression if its children are the parts that its tag says. -/
theorem isExpression_node {r : Nonterminal} {tag : Tag} {start stop : Nat}
    {children : List ExpressionTree}
    (h : ∀ parts, parts? tag = some parts → List.Forall₂ IsPart parts children) :
    IsExpression (.node r tag start stop children) := by
  cases tag with
  | next =>
    obtain _ | ⟨hoperand, _ | _⟩ := h _ rfl
    exact .next hoperand
  | parenthesized =>
    obtain _ | ⟨⟨a, rfl⟩, _ | ⟨hoperand, _ | ⟨⟨b, rfl⟩, _ | _⟩⟩⟩ := h _ rfl
    exact .parenthesized hoperand
  | number =>
    obtain _ | ⟨⟨token, rfl⟩, _ | _⟩ := h _ rfl
    exact .number
  | character =>
    obtain _ | ⟨⟨token, rfl⟩, _ | _⟩ := h _ rfl
    exact .character
  | unary operator =>
    obtain _ | ⟨⟨a, rfl⟩, _ | ⟨hoperand, _ | _⟩⟩ := h _ rfl
    exact .unary hoperand
  | binary operator =>
    obtain _ | ⟨hleft, _ | ⟨⟨a, rfl⟩, _ | ⟨hright, _ | _⟩⟩⟩ := h _ rfl
    exact .binary hleft hright
  | conditional =>
    obtain _ | ⟨hcondition, _ | ⟨⟨a, rfl⟩, _ | ⟨hyes, _ | ⟨⟨b, rfl⟩, _ | ⟨hno, _ | _⟩⟩⟩⟩⟩ := h _ rfl
    exact .conditional hcondition hyes hno
  | _ => exact .disallowed rfl

/-! ## Parse trees -/

variable {input : List Token}

mutual

/-- A tree that is derived from a symbol is what the symbol is. -/
theorem isPart_of_isTree {s : GrammarSymbol Nonterminal Token} {start stop : Nat}
    {t : ExpressionTree} (h : Phrase.grammar.IsTree input s start stop t) :
    IsPart (partOf s) t := by
  cases h with
  | leaf _ _ => exact ⟨_, rfl⟩
  | @node r p _ _ children _ mem trees =>
    cases hr : isExpressionRule r with
    | false => simp [partOf, hr, IsPart]
    | true =>
      simp only [partOf, hr, if_true]
      refine isExpression_node fun parts hparts => ?_
      rw [← parts?_of_mem hr mem hparts]
      exact forall₂_isPart_of_areTrees trees
  | @list r _ _ _ _ hlist _ =>
    cases hr : isExpressionRule r with
    | false => simp [partOf, hr, IsPart]
    | true => exact absurd hlist (by simp [Phrase.grammar, isList_of_isExpressionRule hr])

theorem forall₂_isPart_of_areTrees {symbols : List (GrammarSymbol Nonterminal Token)}
    {start stop : Nat} {trees : List ExpressionTree}
    (h : Phrase.grammar.AreTrees input symbols start stop trees) :
    List.Forall₂ IsPart (symbols.map partOf) trees := by
  cases h with
  | nil => exact .nil
  | cons first rest => exact .cons (isPart_of_isTree first) (forall₂_isPart_of_areTrees rest)

end

/-- Every parse tree of an expression is a tree of an expression. -/
theorem isExpression_of_parse {root : Nonterminal} (hroot : isExpressionRule root = true)
    {tree : ExpressionTree} (h : Phrase.grammar.parse root input = some tree) :
    IsExpression tree := by
  obtain ⟨d, hd, rfl⟩ := Option.map_eq_some_iff.1 h
  have hparts := forall₂_isPart_of_areTrees (Grammar.areTrees_of_fits (Grammar.fits_of_derive? hd))
  obtain _ | ⟨hpart, -⟩ := hparts
  simpa only [partOf, hroot, if_true, IsPart] using hpart

end CPreprocessor.Expression
