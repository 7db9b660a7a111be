import CPreprocessor.Proofs.CharacterConstant.Decoder
import CPreprocessor.Proofs.Expression.Arithmetic
import CPreprocessor.Proofs.Expression.Machine

/-!
# The signedness of expressions

Values carry their type, but which of the two it is can be read off an expression without its value
(`isUnsigned`). Whatever an expression is evaluated to has this type: an operator gives values of one
type for operands of given types (`unsigned_combine`), also where it does not evaluate an operand
that would be an error, and `?:` converts the branch that it picks.
-/

namespace CPreprocessor

/-! ## Types of results -/

/-- Whether the value of an operator is unsigned, given whether its operand is. -/
def UnaryOperator.isUnsigned (operand : Bool) : UnaryOperator → Bool
  | .not => false
  | _ => operand

/-- Whether the value of an operator is unsigned, given whether its operands are. -/
def BinaryOperator.isUnsigned (left right : Bool) : BinaryOperator → Bool
  | .logicalAnd | .logicalOr => false
  | .less | .greater | .lessEqual | .greaterEqual | .equal | .notEqual => false
  | .shiftLeft | .shiftRight => left
  | _ => left || right

/-- Whether a number is unsigned. -/
def IntegerConstant.isUnsigned (text : Bytes) : Bool :=
  match evaluate text with
  | .ok value => value.unsigned
  | .error _ => false

/-- Whether the character constants of an encoding are unsigned. -/
def CharacterConstant.Encoding.isUnsigned : Encoding → Bool
  | .plain | .wide => false
  | .utf8 | .utf16 | .utf32 => true

/-- Whether a character constant is unsigned, which its prefix tells. -/
def CharacterConstant.isUnsigned (text : Bytes) : Bool :=
  match scan? text with
  | some (encoding, _) => encoding.isUnsigned
  | none => false

namespace Expression

/-- Whether the value of an expression is unsigned. -/
def isUnsigned : ExpressionTree → Bool
  | .node _ .next _ _ (operand :: _) => isUnsigned operand
  | .node _ .parenthesized _ _ (_ :: operand :: _) => isUnsigned operand
  | .node _ .number _ _ (.leaf token :: _) => IntegerConstant.isUnsigned token.text
  | .node _ .character _ _ (.leaf token :: _) => CharacterConstant.isUnsigned token.text
  | .node _ (.unary operator) _ _ (_ :: operand :: _) => operator.isUnsigned (isUnsigned operand)
  | .node _ (.binary operator) _ _ (left :: _ :: right :: _) =>
    operator.isUnsigned (isUnsigned left) (isUnsigned right)
  | .node _ .conditional _ _ (_ :: _ :: yes :: _ :: no :: _) => isUnsigned yes || isUnsigned no
  | _ => false

end Expression

/-! ## Results of computations -/

namespace Diagnosed

variable {α β : Type} {x : Diagnosed α} {p : α → Prop} {q : β → Prop}

/-- What is true of the result of a computation, if it has one. -/
def Gives (x : Diagnosed α) (p : α → Prop) : Prop :=
  ∀ warnings a, (x.run.run warnings).1 = .ok a → p a

theorem Gives.bind {f : α → Diagnosed β} (h : x.Gives p) (hf : ∀ a, p a → (f a).Gives q) :
    Gives (x >>= f) q := by
  intro warnings b hb
  rw [ExceptT.run_bind, StateT.run_bind] at hb
  have hx := h warnings
  rcases hrun : x.run.run warnings with ⟨_ | a, warnings'⟩
  · rw [hrun] at hb
    cases hb
  · rw [hrun] at hb hx
    exact hf a (hx a rfl) warnings' b hb

theorem gives_pure {a : α} (h : p a) : Gives (pure a) p := by
  intro warnings b hb
  cases hb
  exact h

theorem gives_true (x : Diagnosed α) : x.Gives fun _ => True := fun _ _ _ => trivial

theorem Gives.map {f : α → β} (h : x.Gives p) (hf : ∀ a, p a → q (f a)) : Gives (f <$> x) q := by
  rw [map_eq_pure_bind]
  exact h.bind fun a ha => gives_pure (hf a ha)

end Diagnosed

open Diagnosed

namespace Expression

variable {directive : Location} {tree : ExpressionTree}

theorem gives_placed_error {α : Type} {p : α → Prop} (cause : Cause) :
    (placed directive tree (.error cause)).Gives p := by
  intro warnings a ha
  cases ha

theorem gives_placed {α : Type} {result : Except Cause α} {p : α → Prop}
    (h : ∀ a, result = .ok a → p a) : (placed directive tree result).Gives p := by
  cases result with
  | ok a => exact gives_pure (h a rfl)
  | error cause => exact gives_placed_error cause

theorem unsigned_of_unary {operator : UnaryOperator} {apply : Value → Value}
    (h : operator.apply? = some apply) (v : Value) :
    (apply v).unsigned = operator.isUnsigned v.unsigned := by
  cases operator <;> cases h <;> rfl

theorem unsigned_shift {left : Bool} {v amount w : Value} (h : v.shift left amount = .ok w) :
    w.unsigned = v.unsigned := by
  rw [Value.shift_eq] at h
  cases h
  rfl

/-- A calculation has the common type of its operands, also where it divides by zero. -/
theorem unsigned_of_calculates {operator : BinaryOperator} {live : Bool} {a b v : Value}
    (h : operator.apply live a b = .ok v) (hcalculates : operator.calculates = true) :
    v.unsigned = (a.unsigned || b.unsigned) := by
  rw [BinaryOperator.apply_of_calculates hcalculates] at h
  split at h
  · split at h
    · cases h
    · cases h
      rfl
  · obtain ⟨x, -, h⟩ := exists_of_bind_eq_ok h
    cases h
    rfl

/-- **The types of its operands decide the type of what an operator gives.** -/
theorem unsigned_combine {operator : BinaryOperator} {live : Bool} {a b v : Value}
    (h : combine operator live a b = .ok v) :
    v.unsigned = operator.isUnsigned a.unsigned b.unsigned := by
  cases operator with
  | logicalAnd | logicalOr =>
    cases h
    rfl
  | less | greater | lessEqual | greaterEqual | equal | notEqual =>
    cases h
    rfl
  | shiftLeft | shiftRight => exact unsigned_shift h
  | multiply | divide | remainder | add | subtract | bitAnd | bitXor | bitOr =>
    simp only [combine] at h
    exact unsigned_of_calculates h rfl

/-! ## Constants -/

theorem unsigned_of_number {text : Bytes} {v : Value} (h : IntegerConstant.evaluate text = .ok v) :
    v.unsigned = IntegerConstant.isUnsigned text := by
  rw [IntegerConstant.isUnsigned, h]

theorem unsigned_of_decodePlain {cs : List CharacterConstant.Character} {v : Value}
    (h : (CharacterConstant.decodePlain cs).2 = .ok v) : v.unsigned = false := by
  unfold CharacterConstant.decodePlain at h
  dsimp only at h
  split at h
  · rw [← Except.ok.inj h, Value.signed]
  split at h
  · rw [← Except.ok.inj h, Value.signed]
  · cases h

theorem unsigned_of_decodePrefixed {encoding : CharacterConstant.Encoding}
    {cs : List CharacterConstant.Character} {v : Value}
    (h : CharacterConstant.decodePrefixed encoding cs = .ok v) :
    v.unsigned = !decide (encoding = .wide) := by
  unfold CharacterConstant.decodePrefixed at h
  split at h
  · cases h
  split at h
  · cases h
    split
    · next hwide => rw [decide_eq_true hwide]; rfl
    · next hwide => rw [decide_eq_false hwide]; rfl
  · cases h

/-- The prefix of a character constant decides its type. -/
theorem unsigned_of_character {text : Bytes} {v : Value}
    (h : (CharacterConstant.evaluate text).2 = .ok v) :
    v.unsigned = CharacterConstant.isUnsigned text := by
  rw [CharacterConstant.evaluate_eq, CharacterConstant.decode] at h
  rw [CharacterConstant.isUnsigned]
  cases hscan : CharacterConstant.scan? text with
  | none =>
    rw [hscan] at h
    cases h
  | some result =>
    obtain ⟨encoding, cs⟩ := result
    rw [hscan] at h
    dsimp only at h
    split at h
    · cases h
    cases encoding with
    | plain => exact unsigned_of_decodePlain h
    | wide | utf8 | utf16 | utf32 => exact unsigned_of_decodePrefixed h

theorem gives_evaluateCharacter (text : Bytes) :
    (evaluateCharacter directive tree text).Gives
      fun v => v.unsigned = CharacterConstant.isUnsigned text := by
  rw [evaluateCharacter]
  exact (gives_true _).bind fun _ _ => gives_placed fun v hv => unsigned_of_character hv

/-! ## Expressions -/

theorem gives_evaluate (directive : Location) (live : Bool) (tree : ExpressionTree) :
    (evaluate directive live tree).Gives fun v => v.unsigned = isUnsigned tree := by
  induction live, tree using evaluate.induct with
  | case1 live r i j operand _ ih =>
    rw [evaluate, isUnsigned]
    exact ih
  | case2 live r i j _ operand _ ih =>
    rw [evaluate, isUnsigned]
    exact ih
  | case3 live r i j token =>
    rw [evaluate, isUnsigned]
    exact gives_placed fun v hv => unsigned_of_number hv
  | case4 live r i j token =>
    rw [evaluate, isUnsigned]
    exact gives_evaluateCharacter token.text
  | case5 live r operator i j _ operand _ apply happly ih =>
    rw [evaluate, isUnsigned, happly]
    exact ih.map fun v hv => hv ▸ unsigned_of_unary happly v
  | case6 live r operator i j _ operand _ hnone =>
    rw [evaluate, hnone]
    exact gives_placed_error _
  | case7 live r operator i j left _ right _ ihl ihr =>
    rw [evaluate, isUnsigned]
    refine ihl.bind fun a ha => (ihr a).bind fun b hb => gives_placed fun v hv => ?_
    rw [unsigned_combine hv, ha, hb]
  | case8 live r i j condition _ yes _ no _ _ ihy ihn =>
    rw [evaluate, isUnsigned]
    refine (gives_true _).bind fun c _ => (ihy c).bind fun a ha => (ihn c).bind fun b hb => ?_
    exact gives_pure (by rw [select, ha, hb])
  | case9 live r tag i j children =>
    rw [evaluate]
    · exact gives_placed_error _
    all_goals assumption
  | case10 =>
    rw [evaluate]
    exact gives_placed_error _

open Machine in
/-- **The signedness of an expression does not depend on its value.** Wherever a tree has a value,
live or not and whatever was reported before, the value has the type that the tree has; and so has
the value that the evaluation machine finds. -/
theorem unsigned_eq_isUnsigned (directive : Location) (tree : ExpressionTree) :
    (∀ live warnings value,
      ((evaluate directive live tree).run.run warnings).1 = .ok value →
        value.unsigned = isUnsigned tree) ∧
    ∀ tokens, Phrase.grammar.parse .constantExpression tokens = some tree →
      ∀ warnings value warnings', .done (.ok value, warnings') ∈
        StateTransition.eval (step directive) (start tree warnings) →
          value.unsigned = isUnsigned tree := by
  refine ⟨fun live warnings value hvalue => gives_evaluate directive live tree warnings value hvalue,
    fun tokens htree warnings value warnings' hmem => ?_⟩
  have hreaches : StateTransition.Reaches (step directive) (start tree warnings)
      (.done ((evaluate directive true tree).run.run warnings)) :=
    (reaches_evaluate (isExpression_of_parse rfl htree) true ⟨[], []⟩ warnings).trans
      (reaches_done _ warnings)
  have hdone := Part.mem_unique hmem (StateTransition.mem_eval.2 ⟨hreaches, rfl⟩)
  refine gives_evaluate directive true tree warnings value ?_
  rw [← Cfg.done.inj hdone]

/-- In `0 ? 1 / 0u : 2` the division by zero makes the value unsigned. -/
theorem unsigned_dead_division :
    let number (text : String) : ExpressionTree := .node .primaryExpression .number 0 1
      [.leaf { kind := .number, text := Bytes.ofString text, position := ⟨1, 1⟩ }]
    let sign (text : String) : ExpressionTree :=
      .leaf { kind := .punctuator, text := Bytes.ofString text, position := ⟨1, 1⟩ }
    let division : ExpressionTree := .node .multiplicativeExpression (.binary .divide) 2 5
      [number "1", sign "/", number "0u"]
    let tree : ExpressionTree := .node .conditionalExpression .conditional 0 7
      [number "0", sign "?", division, sign ":", number "2"]
    ((evaluate ⟨"main.c", 1, 1, 2⟩ true tree).run.run []).1 = .ok ⟨2, true⟩ ∧
      isUnsigned tree = true := by
  intro number sign division tree
  have hvalue : ((evaluate ⟨"main.c", 1, 1, 2⟩ true tree).run.run []).1 = .ok ⟨2, true⟩ := by
    rfl
  exact ⟨hvalue, ((unsigned_eq_isUnsigned _ tree).1 true [] _ hvalue).symm⟩

end Expression

end CPreprocessor
