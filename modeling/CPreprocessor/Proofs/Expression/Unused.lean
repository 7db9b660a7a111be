import CPreprocessor.Proofs.Expression.Errors
import CPreprocessor.Proofs.Expression.Machine

/-!
# Operands whose values are not used

An operand that `&&` or `||` does not need and a branch that `?:` does not take are evaluated like
any other, except that no division by zero is an error in them (`evaluate_unused`). For this, the
evaluations of one tree with and without the use of its value are followed side by side
(`Forgives`).

Which parts of an expression are used is told by the values of the others (`Visits`). The evaluation
machine comes to each of these parts with the knowledge whether it is used (`reaches_visits`).
-/

namespace CPreprocessor.Expression

variable {directive : Location} {live : Bool} {warnings before : List Warning}

/-! ## Two evaluations of one tree -/

section

variable {α β : Type} {x y : Diagnosed α}

/-- A computation does the same as another one, unless that one divides by zero. -/
def Forgives (x y : Diagnosed α) : Prop :=
  ∀ warnings, (∃ location, (y.run.run warnings).1 = .error (.located location .divisionByZero)) ∨
    x.run.run warnings = y.run.run warnings

namespace Forgives

theorem refl (x : Diagnosed α) : Forgives x x := fun _ => .inr rfl

theorem bind {k l : α → Diagnosed β} (h : Forgives x y) (hk : ∀ a, Forgives (k a) (l a)) :
    Forgives (x >>= k) (y >>= l) := by
  intro warnings
  rw [run_bind, run_bind]
  obtain ⟨location, hdivides⟩ | heq := h warnings
  · generalize y.run.run warnings = outcome at hdivides
    obtain ⟨_, warnings'⟩ := outcome
    cases hdivides
    exact .inl ⟨location, rfl⟩
  · rw [heq]
    obtain ⟨fault | a, warnings'⟩ := y.run.run warnings
    · exact .inr rfl
    · exact hk a warnings'

theorem map (f : α → β) (h : Forgives x y) : Forgives (f <$> x) (f <$> y) := by
  rw [map_eq_pure_bind, map_eq_pure_bind]
  exact h.bind fun a => refl _

end Forgives

end

/-- Only a division by zero depends on whether the value is used. -/
theorem combine_eq_of_ok {operator : BinaryOperator} {a b v : Value}
    (h : combine operator live a b = .ok v) : combine operator false a b = .ok v := by
  cases operator with
  | divide | remainder =>
    simp only [combine] at h ⊢
    rw [BinaryOperator.apply_of_calculates rfl] at h ⊢
    split at h
    · next hzero =>
      rw [if_pos hzero]
      cases live with
      | true => cases h
      | false => exact h
    · next hzero => rwa [if_neg hzero]
  | _ => exact h

/-- An operator whose value is not used forgives a division by zero, and nothing else. -/
theorem forgives_combine (tree : ExpressionTree) (operator : BinaryOperator) (a b : Value) :
    Forgives (placed directive tree (combine operator false a b))
      (placed directive tree (combine operator live a b)) := by
  intro warnings
  cases hlive : combine operator live a b with
  | error cause =>
    obtain ⟨-, rfl⟩ := cause_of_combine hlive
    exact .inl ⟨locationOf directive tree, rfl⟩
  | ok v =>
    rw [combine_eq_of_ok hlive]
    exact .inr rfl

/-- The evaluation of a tree whose value is not used, next to one that uses it or not. -/
theorem forgives_evaluate (directive : Location) (live : Bool) (tree : ExpressionTree) :
    Forgives (evaluate directive false tree) (evaluate directive live tree) := by
  fun_induction evaluate directive live tree with
  | case1 live r i j operand rest ih => simpa only [evaluate] using ih
  | case2 live r i j a operand rest ih => simpa only [evaluate] using ih
  | case3 => simpa only [evaluate] using .refl _
  | case4 => simpa only [evaluate] using .refl _
  | case5 live r operator i j _ operand rest apply happly ih =>
    simp only [evaluate, happly]
    exact ih.map apply
  | case6 live r operator i j _ operand rest happly =>
    simp only [evaluate, happly]
    exact .refl _
  | case7 live r operator i j left _ right rest ihl ihr =>
    simp only [evaluate, Bool.false_and]
    exact ihl.bind fun a => (ihr a).bind fun b => forgives_combine _ operator a b
  | case8 live r i j condition _ yes _ no _ ihc ihy ihn =>
    simp only [evaluate, Bool.false_and]
    exact ihc.bind fun c => (ihy c).bind fun a => (ihn c).bind fun b => .refl _
  | case9 =>
    rw [evaluate]
    · exact .refl _
    all_goals assumption
  | case10 => simpa only [evaluate] using .refl _

/-! ## What is used -/

/-- The evaluation of an expression comes to a part of it, with the warnings that it has then and
the knowledge whether the value of this part is used. It is not if the operand on the left of `&&`
or `||` decides, if the condition of `?:` picks the other branch, or if the part belongs to one
whose value is not used. -/
inductive Visits (directive : Location) (root : ExpressionTree) (before : List Warning) :
    ExpressionTree → List Warning → Bool → Prop
  | root : Visits directive root before root before true
  | next {r i j operand warnings used}
      (h : Visits directive root before (.node r .next i j [operand]) warnings used) :
      Visits directive root before operand warnings used
  | parenthesized {r i j a operand b warnings used}
      (h : Visits directive root before (.node r .parenthesized i j [a, operand, b]) warnings
        used) :
      Visits directive root before operand warnings used
  | operand {r operator i j a operand warnings used}
      (h : Visits directive root before (.node r (.unary operator) i j [a, operand]) warnings used)
      (hvalues : operator.apply?.isSome = true) :
      Visits directive root before operand warnings used
  | left {r operator i j left a right warnings used}
      (h : Visits directive root before (.node r (.binary operator) i j [left, a, right])
        warnings used) :
      Visits directive root before left warnings used
  | right {r operator i j left a right warnings used value warnings'}
      (h : Visits directive root before (.node r (.binary operator) i j [left, a, right])
        warnings used)
      (hleft : (evaluate directive used left).run.run warnings = (.ok value, warnings')) :
      Visits directive root before right warnings' (used && usesRight operator value)
  | condition {r i j condition a yes b no warnings used}
      (h : Visits directive root before (.node r .conditional i j [condition, a, yes, b, no])
        warnings used) :
      Visits directive root before condition warnings used
  | yes {r i j condition a yes b no warnings used value warnings'}
      (h : Visits directive root before (.node r .conditional i j [condition, a, yes, b, no])
        warnings used)
      (hcondition : (evaluate directive used condition).run.run warnings = (.ok value, warnings')) :
      Visits directive root before yes warnings' (used && value.isTrue)
  | no {r i j condition a yes b no warnings used value warnings' v warnings''}
      (h : Visits directive root before (.node r .conditional i j [condition, a, yes, b, no])
        warnings used)
      (hcondition : (evaluate directive used condition).run.run warnings = (.ok value, warnings'))
      (hyes : (evaluate directive (used && value.isTrue) yes).run.run warnings' =
        (.ok v, warnings'')) :
      Visits directive root before no warnings'' (used && !value.isTrue)

namespace Machine

open StateTransition

variable {tasks : List Task} {values : List Value}

/-- An operand leaves its value on the stack. -/
theorem reaches_of_ok {tree : ExpressionTree} (h : IsExpression tree) {value : Value}
    {warnings' : List Warning}
    (hvalue : (evaluate directive live tree).run.run warnings = (.ok value, warnings')) :
    Reaches (step directive) (.running ⟨.evaluate tree live :: tasks, values⟩ warnings)
      (.running ⟨tasks, value :: values⟩ warnings') := by
  have hafter : after (Stacks.push ⟨tasks, values⟩ <$> evaluate directive live tree) warnings =
      .running ⟨tasks, value :: values⟩ warnings' := by
    rw [after, run_map, hvalue]
    rfl
  rw [← hafter]
  exact reaches_evaluate h live ⟨tasks, values⟩ warnings

section

variable {r : Nonterminal} {i j : Nat} {a b : Token}

/-- An operator puts off what comes after its left operand. -/
theorem reaches_left {operator : BinaryOperator} {left right : ExpressionTree}
    (hleft : IsExpression left) :
    Reaches (step directive)
      (.running ⟨.evaluate (.node r (.binary operator) i j [left, .leaf a, right]) live :: tasks,
        values⟩ warnings)
      (.running ⟨.evaluate left live ::
        .right (.node r (.binary operator) i j [left, .leaf a, right]) operator live :: tasks,
        values⟩ warnings) := by
  refine reaches_of_perform ?_
  simp only [perform, visit]
  rw [child_eq hleft rfl]
  exact .refl

variable {condition yes no : ExpressionTree}

/-- A conditional puts off what comes after its condition. -/
theorem reaches_condition (hcondition : IsExpression condition) :
    Reaches (step directive)
      (.running ⟨.evaluate (.node r .conditional i j [condition, .leaf a, yes, .leaf b, no]) live ::
        tasks, values⟩ warnings)
      (.running ⟨.evaluate condition live ::
        .branches (.node r .conditional i j [condition, .leaf a, yes, .leaf b, no]) live :: tasks,
        values⟩ warnings) := by
  refine reaches_of_perform ?_
  simp only [perform, visit]
  rw [child_eq hcondition rfl]
  exact .refl

/-- The condition tells which branch is used; the first one is evaluated in any case. -/
theorem reaches_yes (hcondition : IsExpression condition) (hyes : IsExpression yes)
    (hno : IsExpression no) {value : Value} {warnings' : List Warning}
    (hvalue : (evaluate directive live condition).run.run warnings = (.ok value, warnings')) :
    Reaches (step directive)
      (.running ⟨.evaluate (.node r .conditional i j [condition, .leaf a, yes, .leaf b, no]) live ::
        tasks, values⟩ warnings)
      (.running ⟨.evaluate yes (live && value.isTrue) :: .evaluate no (live && !value.isTrue) ::
        .select value.isTrue :: tasks, values⟩ warnings') := by
  refine (reaches_condition hcondition).trans ((reaches_of_ok hcondition hvalue).trans
    (reaches_of_perform ?_))
  simp only [perform, pop, pure_bind]
  rw [child_eq hno rfl, child_eq hyes rfl]
  exact .refl

end

variable {root tree : ExpressionTree} {used : Bool}

/-- **The machine comes to every part of an expression** that is visited, and knows whether its
value is used. -/
theorem reaches_visits (hroot : IsExpression root)
    (h : Visits directive root before tree warnings used) : IsExpression tree ∧ ∃ tasks values,
      Reaches (step directive) (start root before)
        (.running ⟨.evaluate tree used :: tasks, values⟩ warnings) := by
  induction h with
  | root => exact ⟨hroot, [], [], .refl⟩
  | next h ih =>
    obtain ⟨hexpression, tasks, values, hs⟩ := ih
    cases hexpression with
    | disallowed htag => cases htag
    | next hoperand =>
      refine ⟨hoperand, tasks, values, hs.trans (reaches_of_perform ?_)⟩
      simp only [perform, visit]
      rw [child_eq hoperand rfl]
      exact .refl
  | parenthesized h ih =>
    obtain ⟨hexpression, tasks, values, hs⟩ := ih
    cases hexpression with
    | disallowed htag => cases htag
    | parenthesized hoperand =>
      refine ⟨hoperand, tasks, values, hs.trans (reaches_of_perform ?_)⟩
      simp only [perform, visit]
      rw [child_eq hoperand rfl]
      exact .refl
  | @operand r operator i j a operand warnings used h hvalues ih =>
    obtain ⟨hexpression, tasks, values, hs⟩ := ih
    obtain ⟨apply, happly⟩ := Option.isSome_iff_exists.1 hvalues
    cases hexpression with
    | disallowed htag => cases htag
    | @unary _ _ _ _ a _ hoperand =>
      refine ⟨hoperand, .unary (.node r (.unary operator) i j [.leaf a, operand]) operator :: tasks,
        values, hs.trans (reaches_of_perform ?_)⟩
      simp only [perform]
      rw [visit_unary happly hoperand]
      exact .refl
  | left h ih =>
    obtain ⟨hexpression, tasks, values, hs⟩ := ih
    cases hexpression with
    | disallowed htag => cases htag
    | binary hleft hright => exact ⟨hleft, _, _, hs.trans (reaches_left hleft)⟩
  | @right r operator i j left a right warnings used value warnings' h hvalue ih =>
    obtain ⟨hexpression, tasks, values, hs⟩ := ih
    cases hexpression with
    | disallowed htag => cases htag
    | @binary _ _ _ _ a _ _ hleft hright =>
      refine ⟨hright, .binary (.node r (.binary operator) i j [left, .leaf a, right]) operator value
        used :: tasks, values, hs.trans ((reaches_left hleft).trans
          ((reaches_of_ok hleft hvalue).trans (reaches_of_perform ?_)))⟩
      rw [perform_right hright rfl]
      exact .refl
  | condition h ih =>
    obtain ⟨hexpression, tasks, values, hs⟩ := ih
    cases hexpression with
    | disallowed htag => cases htag
    | conditional hcondition hyes hno =>
      exact ⟨hcondition, _, _, hs.trans (reaches_condition hcondition)⟩
  | yes h hvalue ih =>
    obtain ⟨hexpression, tasks, values, hs⟩ := ih
    cases hexpression with
    | disallowed htag => cases htag
    | conditional hcondition hyes hno =>
      exact ⟨hyes, _, _, hs.trans (reaches_yes hcondition hyes hno hvalue)⟩
  | no h hvalue hother ih =>
    obtain ⟨hexpression, tasks, values, hs⟩ := ih
    cases hexpression with
    | disallowed htag => cases htag
    | conditional hcondition hyes hno =>
      exact ⟨hno, _, _, hs.trans
        ((reaches_yes hcondition hyes hno hvalue).trans (reaches_of_ok hyes hother))⟩

end Machine

/-! ## Operands that are not used -/

section

open Machine StateTransition

variable {root tree : ExpressionTree}

/-- **Only divisions by zero are forgiven in what is not used.** Where the machine comes to a part
of an expression whose value is not used, it goes on without an error of a division by zero. If the
part on its own has a value, it has the same value there, and if it has any other error on its own,
it has the same error there; in both cases the warnings are the same, too. -/
theorem evaluate_unused (hroot : IsExpression root)
    (h : Visits directive root before tree warnings false) :
    let unused := (evaluate directive false tree).run.run warnings
    let own := (evaluate directive true tree).run.run warnings
    (∃ tasks values,
      Reaches (step directive) (start root before)
        (.running ⟨.evaluate tree false :: tasks, values⟩ warnings) ∧
      Reaches (step directive) (.running ⟨.evaluate tree false :: tasks, values⟩ warnings)
        (after (Stacks.push ⟨tasks, values⟩ <$> evaluate directive false tree) warnings)) ∧
    eval (step directive) (start tree warnings) = Part.some (.done own) ∧
    (∀ location, unused.1 ≠ .error (.located location .divisionByZero)) ∧
    (∀ value, own.1 = .ok value → unused = own) ∧
    ∀ fault, own.1 = .error fault → (∀ location, fault ≠ .located location .divisionByZero) →
      unused = own := by
  obtain ⟨htree, tasks, values, hreaches⟩ := reaches_visits hroot h
  have hforgives := forgives_evaluate directive true tree warnings
  refine ⟨⟨tasks, values, hreaches, reaches_evaluate htree false ⟨tasks, values⟩ warnings⟩,
    eval_start_of_isExpression htree warnings, fun location hdivides => ?_, fun value hvalue => ?_,
    fun fault hfault hother => ?_⟩
  · obtain ⟨_, cause, hlocated, hcause⟩ :=
      failsOnly_evaluate directive tree false warnings _ hdivides
    cases hlocated
    cases hcause with
    | divisionByZero hlive => cases hlive
  · refine hforgives.resolve_left ?_
    rintro ⟨location, hdivides⟩
    cases hvalue.symm.trans hdivides
  · refine hforgives.resolve_left ?_
    rintro ⟨location, hdivides⟩
    exact hother location (Except.error.inj (hfault.symm.trans hdivides))

/-- A constant of one digit. -/
def digitTree (b : UInt8) : ExpressionTree :=
  .node .primaryExpression .number 0 1 [.leaf { kind := .number, text := [b], position := ⟨1, 1⟩ }]

/-- Two operands with an operator between them. -/
def binaryTree (operator : BinaryOperator) (left right : ExpressionTree) : ExpressionTree :=
  .node .expression (.binary operator) 0 3
    [left, .leaf { kind := .punctuator, text := [], position := ⟨1, 2⟩ }, right]

/-- In `1 || 1 / 0` the quotient is not used. -/
theorem evaluate_unused_quotient :
    let quotient := binaryTree .divide (digitTree 0x31) (digitTree 0x30)
    let directive : Location := ⟨"main.c", 1, 1, 15⟩
    Visits directive (binaryTree .logicalOr (digitTree 0x31) quotient) [] quotient [] false ∧
      ∀ location, ((evaluate directive false quotient).run.run []).1 ≠
        .error (.located location .divisionByZero) := by
  intro quotient directive
  have hroot : IsExpression (binaryTree .logicalOr (digitTree 0x31) quotient) :=
    .binary .number (.binary .number .number)
  have hvisits : Visits directive (binaryTree .logicalOr (digitTree 0x31) quotient) [] quotient []
      false := by
    have hone : (evaluate directive true (digitTree 0x31)).run.run [] = (.ok (.signed 1), []) := by
      simp only [digitTree, evaluate]
      rfl
    exact .right .root hone
  exact ⟨hvisits, (evaluate_unused hroot hvisits).2.2.1⟩

end

end CPreprocessor.Expression
