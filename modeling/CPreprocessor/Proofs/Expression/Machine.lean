import CPreprocessor.Proofs.CharacterConstant.Decoder
import CPreprocessor.Proofs.Diagnostic
import CPreprocessor.Proofs.Expression.Tree
import CPreprocessor.Proofs.Phrase.Unambiguous
import Mathlib.Computability.StateTransition

/-!
# The evaluation machine

The value of an expression as a machine with two stacks finds it: tasks that are still to be done,
and values that wait for an operator. A tree of an operator puts the task that combines the operands
below the task of its first operand. The tasks of the other operands are put on the stack when the
first one has a value, because it decides whether they are live.

The machine is done with the outcome of `Expression.evaluate`, warnings included, for every tree of
an expression (`reaches_evaluate`), by induction on the tree.
-/

namespace CPreprocessor.Expression

namespace Machine

open StateTransition

inductive Task
  /-- Evaluate a tree. -/
  | evaluate (tree : ExpressionTree) (live : Bool)
  /-- Apply the operator to the value on top. -/
  | unary (tree : ExpressionTree) (operator : UnaryOperator)
  /-- Take the left operand from the top and evaluate the right one. -/
  | right (tree : ExpressionTree) (operator : BinaryOperator) (live : Bool)
  /-- Apply the operator to the left operand and the value on top. -/
  | binary (tree : ExpressionTree) (operator : BinaryOperator) (left : Value) (live : Bool)
  /-- Take the condition from the top and evaluate both branches. -/
  | branches (tree : ExpressionTree) (live : Bool)
  /-- Put the branch that the condition picks in the place of both. -/
  | select (condition : Bool)

/-- What is left to do, and the values that wait for it. -/
structure Stacks where
  tasks : List Task
  values : List Value

/-- Configurations. -/
inductive Cfg
  | running (s : Stacks) (warnings : List Warning)
  | done (outcome : Except Fault Value × List Warning)

section

variable (directive : Location)

/-- The child of a tree at an index, which has to be a tree. -/
def child (tree : ExpressionTree) (index : Nat) : Diagnosed ExpressionTree :=
  match tree.children[index]? with
  | some (.node r tag start stop children) => return .node r tag start stop children
  | _ => placed directive tree (.error (.missingPart "expression"))

/-- The token that a tree begins with. -/
def leaf (tree : ExpressionTree) : Diagnosed Token :=
  match tree.children.head? with
  | some (.leaf token) => return token
  | _ => placed directive tree (.error (.missingPart "constant"))

/-- The value on top, and those below it. -/
def pop : List Value → Diagnosed (Value × List Value)
  | value :: values => return (value, values)
  | [] => throw (.located directive (.missingPart "expression"))

/-- Begins to evaluate a tree: a constant has its value, and an operator waits for its first
operand. -/
def visit (tree : ExpressionTree) (live : Bool) (s : Stacks) : Diagnosed Stacks :=
  match tree with
  | .leaf _ => placed directive tree (.error (.missingPart "expression"))
  | .node _ tag _ _ _ =>
    match tag with
    | .next => do
      return { s with tasks := .evaluate (← child directive tree 0) live :: s.tasks }
    | .parenthesized => do
      return { s with tasks := .evaluate (← child directive tree 1) live :: s.tasks }
    | .number => do
      let token ← leaf directive tree
      let value ← placed directive tree (IntegerConstant.evaluate token.text)
      return { s with values := value :: s.values }
    | .character => do
      let token ← leaf directive tree
      let value ← evaluateCharacter directive tree token.text
      return { s with values := value :: s.values }
    | .unary .addressOf | .unary .dereference =>
      placed directive tree (.error (.disallowed (construction tag)))
    | .unary operator => do
      let operand := .evaluate (← child directive tree 1) live
      return { s with tasks := operand :: .unary tree operator :: s.tasks }
    | .binary operator => do
      let left := .evaluate (← child directive tree 0) live
      return { s with tasks := left :: .right tree operator live :: s.tasks }
    | .conditional => do
      let condition := .evaluate (← child directive tree 0) live
      return { s with tasks := condition :: .branches tree live :: s.tasks }
    | tag => placed directive tree (.error (.disallowed (construction tag)))

/-- Does a task, after which the given ones are left. -/
def perform (task : Task) (s : Stacks) : Diagnosed Stacks :=
  match task with
  | .evaluate tree live => visit directive tree live s
  | .unary tree operator => do
    let (operand, values) ← pop directive s.values
    let value ← placed directive tree <| match operator.apply? with
      | some apply => .ok (apply operand)
      | none => .error (.disallowed (construction (.unary operator)))
    return { s with values := value :: values }
  | .right tree operator live => do
    let (left, values) ← pop directive s.values
    let rightLive := match operator with
      | .logicalAnd => live && left.isTrue
      | .logicalOr => live && !left.isTrue
      | _ => live
    let right := .evaluate (← child directive tree 2) rightLive
    return ⟨right :: .binary tree operator left live :: s.tasks, values⟩
  | .binary tree operator left live => do
    let (right, values) ← pop directive s.values
    let value ← match operator with
      | .logicalAnd => pure (Value.ofBool (left.isTrue && right.isTrue))
      | .logicalOr => pure (Value.ofBool (left.isTrue || right.isTrue))
      | _ => placed directive tree (operator.apply live left right)
    return { s with values := value :: values }
  | .branches tree live => do
    let (condition, values) ← pop directive s.values
    let no := .evaluate (← child directive tree 4) (live && !condition.isTrue)
    let yes := .evaluate (← child directive tree 2) (live && condition.isTrue)
    return ⟨yes :: no :: .select condition.isTrue :: s.tasks, values⟩
  | .select condition => do
    let (no, values) ← pop directive s.values
    let (yes, values) ← pop directive values
    let value := if condition then yes else no
    let value := if !yes.unsigned && !no.unsigned then value else { value with unsigned := true }
    return { s with values := value :: values }

/-- Where the machine is after a computation of its stacks. -/
def after (x : Diagnosed Stacks) (warnings : List Warning) : Cfg :=
  match x.run.run warnings with
  | (.ok s, warnings) => .running s warnings
  | (.error fault, warnings) => .done (.error fault, warnings)

/-- One step of the machine; none if it is done. -/
def step : Cfg → Option Cfg
  | .running ⟨task :: tasks, values⟩ warnings =>
    some (after (perform directive task ⟨tasks, values⟩) warnings)
  | .running ⟨[], values⟩ warnings =>
    some (.done ((Prod.fst <$> pop directive values).run.run warnings))
  | .done _ => none

/-- The configuration in which the evaluation of a tree begins. -/
def start (tree : ExpressionTree) (warnings : List Warning) : Cfg :=
  .running ⟨[.evaluate tree true], []⟩ warnings

end

/-! ## Steps -/

variable {directive : Location} {c : Cfg} {task : Task} {tasks : List Task} {values : List Value}
  {warnings : List Warning} {tree : ExpressionTree} {live : Bool}

/-- The stacks with a value put on top. -/
def Stacks.push (s : Stacks) (value : Value) : Stacks := { s with values := value :: s.values }

theorem reaches_of_perform
    (h : Reaches (step directive) (after (perform directive task ⟨tasks, values⟩) warnings) c) :
    Reaches (step directive) (.running ⟨task :: tasks, values⟩ warnings) c :=
  .head rfl h

theorem run_map {α β : Type} (f : α → β) (x : Diagnosed α) :
    (f <$> x).run.run warnings = ((x.run.run warnings).1.map f, (x.run.run warnings).2) := by
  rw [ExceptT.run_map]
  rfl

/-- The result of a computation can be left on the stacks and used from there. -/
theorem reaches_bind {α : Type} {x : Diagnosed α} {leave : α → Stacks} {next : α → Diagnosed Stacks}
    (h : ∀ a warnings, Reaches (step directive) (.running (leave a) warnings)
      (after (next a) warnings)) :
    Reaches (step directive) (after (leave <$> x) warnings) (after (x >>= next) warnings) := by
  rw [after, after, run_map, run_bind]
  rcases x.run.run warnings with ⟨fault | a, warnings'⟩
  · exact .refl
  · exact h a warnings'

theorem child_eq {index : Nat} {operand : ExpressionTree} (h : IsExpression operand)
    (hget : tree.children[index]? = some operand) : child directive tree index = pure operand := by
  cases h <;> simp only [child, hget]

section

variable {operator : UnaryOperator} {apply : Value → Value} (happly : operator.apply? = some apply)
include happly

/-- An operator on values waits for its operand. -/
theorem visit_unary {r : Nonterminal} {i j : Nat} {first operand : ExpressionTree} {s : Stacks}
    (h : IsExpression operand) :
    visit directive (.node r (.unary operator) i j [first, operand]) live s =
      pure ⟨.evaluate operand live ::
        .unary (.node r (.unary operator) i j [first, operand]) operator :: s.tasks, s.values⟩ := by
  cases operator <;>
    first
    | (simp only [visit]; rw [child_eq h rfl, pure_bind])
    | cases happly

theorem perform_unary {a : Value} :
    perform directive (.unary tree operator) ⟨tasks, a :: values⟩ =
      pure (Stacks.push ⟨tasks, values⟩ (apply a)) := by
  simp only [perform, pop, pure_bind, happly, placed]
  rfl

end

/-- An operator waits for the right operand, which is live if its value is used. -/
theorem perform_right {operator : BinaryOperator} {a : Value} {right : ExpressionTree}
    (h : IsExpression right) (hget : tree.children[2]? = some right) :
    perform directive (.right tree operator live) ⟨tasks, a :: values⟩ =
      pure ⟨.evaluate right (live && usesRight operator a) :: .binary tree operator a live :: tasks,
        values⟩ := by
  simp only [perform, pop, pure_bind, child_eq h hget]
  cases operator <;> simp [usesRight]

theorem perform_binary {operator : BinaryOperator} {a b : Value} :
    perform directive (.binary tree operator a live) ⟨tasks, b :: values⟩ =
      Stacks.push ⟨tasks, values⟩ <$> placed directive tree (combine operator live a b) := by
  cases operator <;> rfl

theorem perform_select {condition : Bool} {yes no : Value} :
    perform directive (.select condition) ⟨tasks, no :: yes :: values⟩ =
      pure (Stacks.push ⟨tasks, values⟩ (Expression.select condition yes no)) := by
  simp only [perform, pop, pure_bind, Stacks.push, Expression.select]
  rcases yes with ⟨yes, _ | _⟩ <;> rcases no with ⟨no, _ | _⟩ <;> cases condition <;> rfl

/-! ## Runs -/

/-- **The machine comes to the value of any expression.** -/
theorem reaches_evaluate (h : IsExpression tree) (live : Bool) (s : Stacks)
    (warnings : List Warning) :
    Reaches (step directive) (.running ⟨.evaluate tree live :: s.tasks, s.values⟩ warnings)
      (after (s.push <$> Expression.evaluate directive live tree) warnings) := by
  induction h generalizing live s warnings with
  | next h ih =>
    refine reaches_of_perform ?_
    simp only [perform, visit, Expression.evaluate]
    rw [child_eq h rfl, pure_bind]
    exact ih live s warnings
  | parenthesized h ih =>
    refine reaches_of_perform ?_
    simp only [perform, visit, Expression.evaluate]
    rw [child_eq h rfl, pure_bind]
    exact ih live s warnings
  | number =>
    refine reaches_of_perform ?_
    simp only [perform, visit, Expression.evaluate, map_eq_pure_bind]
    exact .refl
  | character =>
    refine reaches_of_perform ?_
    simp only [perform, visit, Expression.evaluate, map_eq_pure_bind]
    exact .refl
  | @unary r operator i j a operand h ih =>
    refine reaches_of_perform ?_
    simp only [perform, Expression.evaluate]
    cases happly : operator.apply? with
    | none =>
      -- operators on objects are not allowed, whatever their operand
      cases operator <;> first | exact .refl | cases happly
    | some apply =>
      have hmap : s.push <$> apply <$> Expression.evaluate directive live operand =
          Expression.evaluate directive live operand >>= fun a => pure (s.push (apply a)) := by
        simp only [map_eq_pure_bind, bind_assoc, pure_bind]
      simp only [hmap, visit_unary happly h]
      refine (ih live ⟨.unary _ operator :: s.tasks, s.values⟩ warnings).trans ?_
      refine reaches_bind fun a warnings => reaches_of_perform ?_
      rw [perform_unary happly]
      exact .refl
  | @binary r operator i j a left right hleft hright ihl ihr =>
    refine reaches_of_perform ?_
    simp only [perform, visit, Expression.evaluate, map_bind]
    rw [child_eq hleft rfl, pure_bind]
    refine (ihl live ⟨.right _ operator live :: s.tasks, s.values⟩ warnings).trans ?_
    refine reaches_bind fun a warnings => reaches_of_perform ?_
    rw [perform_right hright rfl]
    refine (ihr _ ⟨.binary _ operator a live :: s.tasks, s.values⟩ warnings).trans ?_
    refine reaches_bind fun b warnings => reaches_of_perform ?_
    rw [perform_binary]
    exact .refl
  | @conditional r i j a b condition yes no hcondition hyes hno ihc ihy ihn =>
    refine reaches_of_perform ?_
    simp only [perform, visit, Expression.evaluate, map_bind]
    rw [child_eq hcondition rfl, pure_bind]
    refine (ihc live ⟨.branches _ live :: s.tasks, s.values⟩ warnings).trans ?_
    refine reaches_bind fun c warnings => reaches_of_perform ?_
    simp only [perform, pop, pure_bind]
    rw [child_eq hno rfl, child_eq hyes rfl]
    refine (ihy _ ⟨.evaluate no (live && !c.isTrue) :: .select c.isTrue :: s.tasks, s.values⟩
      warnings).trans ?_
    refine reaches_bind fun a warnings => ?_
    refine (ihn _ ⟨.select c.isTrue :: s.tasks, a :: s.values⟩ warnings).trans ?_
    refine reaches_bind fun b warnings => reaches_of_perform ?_
    rw [perform_select]
    exact .refl
  | @disallowed r tag i j children htag =>
    refine reaches_of_perform ?_
    cases tag <;> first | exact .refl | cases htag

/-- A value on its own is the outcome. -/
theorem reaches_done (x : Diagnosed Value) (warnings : List Warning) :
    Reaches (step directive) (after (Stacks.push ⟨[], []⟩ <$> x) warnings)
      (.done (x.run.run warnings)) := by
  rw [after, run_map]
  rcases x.run.run warnings with ⟨fault | value, warnings'⟩
  · exact .refl
  · exact .head rfl .refl

/-- The machine halts with the outcome of the recursive evaluation. -/
theorem eval_start_of_isExpression (h : IsExpression tree) (warnings : List Warning) :
    eval (step directive) (start tree warnings) =
      Part.some (.done ((Expression.evaluate directive true tree).run.run warnings)) := by
  rw [Part.eq_some_iff, mem_eval]
  refine ⟨?_, rfl⟩
  exact (reaches_evaluate h true ⟨[], []⟩ warnings).trans (reaches_done _ warnings)

end Machine

open Machine in
/-- **The evaluation machine gives the recursive value.** For every tree that is parsed from tokens
as a constant expression, the machine halts with the outcome of the recursive evaluation: the same
value or the same error at the same place, and the same warnings in the same order after those there
were before. -/
theorem eval_start_eq_evaluate (directive : Location) (warnings : List Warning)
    {tokens : List Token} {tree : ExpressionTree}
    (h : Phrase.grammar.parse .constantExpression tokens = some tree) :
    StateTransition.eval (step directive) (start tree warnings) =
      Part.some (.done ((evaluate directive true tree).run.run warnings)) :=
  eval_start_of_isExpression (isExpression_of_parse rfl h) warnings

/-! ## A quotient that is not used -/

section

open Grammar GrammarSymbol Nonterminal
open Phrase (fits_lift isList_expressionAt lift)

/-- An expression has the value that it has at a lower level. -/
theorem evaluate_lift (directive : Location) (live : Bool) (n start stop : Nat)
    (d : Derivation Nonterminal Token Tag) (k : Nat) :
    evaluate directive live (Phrase.grammar.tree (lift n start stop d k)) =
      evaluate directive live (Phrase.grammar.tree d) := by
  induction k with
  | zero => rfl
  | succ k ih =>
    rw [lift, tree, if_neg (by simp [Phrase.grammar, isList_expressionAt]), treesOfList,
      treesOfList, evaluate, ih]

/-- The outcome of an operator from those of its operands. -/
theorem run_evaluate_binary {directive : Location} {live : Bool}
    {warnings warnings' warnings'' : List Warning} {r : Nonterminal} {operator : BinaryOperator}
    {start stop : Nat} {t : Token} {left right : ExpressionTree} {a b : Value}
    (hleft : (evaluate directive live left).run.run warnings = (.ok a, warnings'))
    (hright : (evaluate directive (live && usesRight operator a) right).run.run warnings' =
      (.ok b, warnings'')) :
    (evaluate directive live (.node r (.binary operator) start stop [left, .leaf t, right])).run.run
      warnings = (placed directive (.node r (.binary operator) start stop [left, .leaf t, right])
        (combine operator live a b)).run.run warnings'' := by
  rw [evaluate, run_bind, hleft]
  dsimp only
  rw [run_bind, hright]

/-- The tokens of `1||'ab'/0`. -/
def unusedTokens : List Token :=
  [{ kind := .number, text := Bytes.ofString "1", position := ⟨1, 5⟩ },
    { kind := .punctuator, text := Bytes.ofString "||", position := ⟨1, 6⟩ },
    { kind := .character, text := Bytes.ofString "'ab'", position := ⟨1, 8⟩ },
    { kind := .punctuator, text := Bytes.ofString "/", position := ⟨1, 12⟩ },
    { kind := .number, text := Bytes.ofString "0", position := ⟨1, 13⟩ }]

/-- The directive is the `if` before these tokens. -/
def unusedDirective : Location := ⟨"main.c", 1, 2, 4⟩

/-- There is more than one character in `'ab'`. -/
def unusedWarning : Warning := ⟨⟨"main.c", 1, 8, 12⟩, .multipleCharacters⟩

def oneDerivation : Derivation Nonterminal Token Tag :=
  .node primaryExpression ⟨.number, [such Token.isNumber]⟩ 0 1 [.leaf unusedTokens[0]]

def charactersDerivation : Derivation Nonterminal Token Tag :=
  .node primaryExpression ⟨.character, [such Token.isCharacter]⟩ 2 3 [.leaf unusedTokens[2]]

def zeroDerivation : Derivation Nonterminal Token Tag :=
  .node primaryExpression ⟨.number, [such Token.isNumber]⟩ 4 5 [.leaf unusedTokens[4]]

def quotientDerivation : Derivation Nonterminal Token Tag :=
  .node multiplicativeExpression
    ⟨.binary .divide, [nonterminal multiplicativeExpression, spelled "/", nonterminal castExpression]⟩
    2 5 [lift 1 2 3 charactersDerivation 4, .leaf unusedTokens[3], lift 1 4 5 zeroDerivation 3]

def disjunctionDerivation : Derivation Nonterminal Token Tag :=
  .node logicalOrExpression
    ⟨.binary .logicalOr,
      [nonterminal logicalOrExpression, spelled "||", nonterminal logicalAndExpression]⟩
    0 5 [lift 1 0 1 oneDerivation 13, .leaf unusedTokens[1], lift 5 2 5 quotientDerivation 8]

theorem fits_disjunctionDerivation :
    Phrase.grammar.Fits unusedTokens [nonterminal logicalOrExpression] 0 5
      [disjunctionDerivation] := by
  have hone : Phrase.grammar.Fits unusedTokens [nonterminal primaryExpression] 0 1
      [oneDerivation] :=
    .nonterminal (.tail _ (.head _)) (.terminal rfl rfl (.nil 1)) (.nil 1)
  have hcharacters : Phrase.grammar.Fits unusedTokens [nonterminal primaryExpression] 2 3
      [charactersDerivation] :=
    .nonterminal (.tail _ (.tail _ (.head _))) (.terminal rfl rfl (.nil 3)) (.nil 3)
  have hzero : Phrase.grammar.Fits unusedTokens [nonterminal primaryExpression] 4 5
      [zeroDerivation] :=
    .nonterminal (.tail _ (.head _)) (.terminal rfl rfl (.nil 5)) (.nil 5)
  -- the characters are a factor, the zero is a divisor
  have hleft := fits_lift (n := 1) (k := 4) (by decide) hcharacters (by decide)
  have hright := fits_lift (n := 1) (k := 3) (by decide) hzero (by decide)
  have hquotient : Phrase.grammar.Fits unusedTokens [nonterminal multiplicativeExpression] 2 5
      [quotientDerivation] :=
    .nonterminal (List.mem_of_getElem? (i := 2) rfl) (hleft.append (.terminal rfl rfl hright))
      (.nil 5)
  have hone' := fits_lift (n := 1) (k := 13) (by decide) hone (by decide)
  have hquotient' := fits_lift (n := 5) (k := 8) (by decide) hquotient (by decide)
  exact .nonterminal (List.mem_of_getElem? (i := 1) rfl)
    (hone'.append (.terminal rfl rfl hquotient')) (.nil 5)

theorem evaluate_charactersDerivation :
    (evaluate unusedDirective false (Phrase.grammar.tree charactersDerivation)).run.run [] =
      (.ok (.signed 0x6162), [unusedWarning]) := by
  have hdecode : CharacterConstant.decode (Bytes.ofString "'ab'") =
      ([.multipleCharacters], .ok (.signed 0x6162)) := by decide +kernel
  change (evaluateCharacter unusedDirective (Phrase.grammar.tree charactersDerivation)
    (Bytes.ofString "'ab'")).run.run [] = _
  rw [evaluateCharacter, CharacterConstant.evaluate_eq, hdecode]
  rfl

theorem evaluate_quotientDerivation :
    (evaluate unusedDirective false (Phrase.grammar.tree quotientDerivation)).run.run [] =
      (.ok (.signed 0), [unusedWarning]) := by
  have hleft : (evaluate unusedDirective false
      (Phrase.grammar.tree (lift 1 2 3 charactersDerivation 4))).run.run [] =
        (.ok (.signed 0x6162), [unusedWarning]) := by
    rw [evaluate_lift]
    exact evaluate_charactersDerivation
  have hright : (evaluate unusedDirective false
      (Phrase.grammar.tree (lift 1 4 5 zeroDerivation 3))).run.run [unusedWarning] =
        (.ok (.signed 0), [unusedWarning]) := by
    rw [evaluate_lift]
    rfl
  exact run_evaluate_binary hleft hright

theorem evaluate_disjunctionDerivation :
    (evaluate unusedDirective true (Phrase.grammar.tree disjunctionDerivation)).run.run [] =
      (.ok (.signed 1), [unusedWarning]) := by
  have hleft : (evaluate unusedDirective true
      (Phrase.grammar.tree (lift 1 0 1 oneDerivation 13))).run.run [] = (.ok (.signed 1), []) := by
    rw [evaluate_lift]
    rfl
  have hright : (evaluate unusedDirective false
      (Phrase.grammar.tree (lift 5 2 5 quotientDerivation 8))).run.run [] =
        (.ok (.signed 0), [unusedWarning]) := by
    rw [evaluate_lift]
    exact evaluate_quotientDerivation
  exact run_evaluate_binary hleft hright

open Machine in
/-- In `1||'ab'/0` the division by zero is no error, and the characters are warned about. -/
theorem eval_start_unused_quotient :
    ∃ tree, Phrase.grammar.parse .constantExpression unusedTokens = some tree ∧
      StateTransition.eval (step unusedDirective) (start tree []) =
        Part.some (.done (.ok (.signed 1), [unusedWarning])) := by
  have hfits := fits_lift (n := 14) (k := 4) (by decide) fits_disjunctionDerivation (by decide)
  have hparse : Phrase.grammar.parse .constantExpression unusedTokens = some _ :=
    Phrase.parse_eq_of_fits (by decide) (by decide) hfits
  have heval := eval_start_eq_evaluate unusedDirective [] hparse
  rw [evaluate_lift, evaluate_disjunctionDerivation] at heval
  exact ⟨_, hparse, heval⟩

end

end CPreprocessor.Expression
