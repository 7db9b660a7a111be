import CPreprocessor.Expression.Value
import CPreprocessor.Proofs.Diagnostic
import CPreprocessor.Proofs.Expression.Arithmetic
import CPreprocessor.Proofs.IntegerConstant

/-!
# What expressions fail with

The errors that constants and operators have, and those that the evaluation of a tree can end with,
be it the tree of an expression or not (`Expression.failsOnly_evaluate`). A division by zero is an
error only where the value is used.
-/

namespace CPreprocessor

/-! ## Constants -/

/-- A text that is not a character constant is called invalid, and one that is has a value unless it
is out of range or too long. -/
theorem CharacterConstant.cause_of_evaluate {text : Bytes} {cause : Cause}
    (h : (evaluate text).2 = .error cause) : cause = .invalidCharacterConstant text.toText ∨
      cause = .escapeOutOfRange ∨ cause = .characterConstantTooLong := by
  cases hparse : grammar.parse .constant text with
  | some tree => exact .inr (evaluate_of_parse hparse h)
  | none =>
    have hread : read text = .error (.invalidCharacterConstant text.toText) := by
      simp only [read, hparse]
      rfl
    simp only [evaluate, hread] at h
    exact .inl (Except.error.inj h).symm

namespace Expression

/-! ## Causes -/

/-- What an expression can fail with, given whether its value is used. -/
inductive FailsWith (live : Bool) : Cause → Prop
  | missingPart (part : String) : FailsWith live (.missingPart part)
  | disallowed (construction : String) : FailsWith live (.disallowed construction)
  | invalidInteger (text : String) : FailsWith live (.invalidInteger text)
  | integerTooLarge (text : String) : FailsWith live (.integerTooLarge text)
  | invalidCharacterConstant (text : String) : FailsWith live (.invalidCharacterConstant text)
  | escapeOutOfRange : FailsWith live .escapeOutOfRange
  | characterConstantTooLong : FailsWith live .characterConstantTooLong
  | divisionByZero (h : live = true) : FailsWith live .divisionByZero

variable {live : Bool} {cause : Cause} {p : Cause → Prop}

/-- An operand that is used belongs to an expression that is. -/
theorem FailsWith.of_and {used : Bool} (h : FailsWith (live && used) cause) :
    FailsWith live cause := by
  cases h with
  | divisionByZero h => exact .divisionByZero (Bool.and_eq_true_iff.1 h).1
  | _ => constructor

theorem failsWith_number {text : Bytes} (h : IntegerConstant.evaluate text = .error cause) :
    FailsWith live cause := by
  obtain ⟨-, rfl⟩ | rfl | rfl := IntegerConstant.cause_of_evaluate h
  · exact .disallowed _
  · exact .invalidInteger _
  · exact .integerTooLarge _

theorem failsWith_character {text : Bytes}
    (h : (CharacterConstant.evaluate text).2 = .error cause) : FailsWith live cause := by
  obtain rfl | rfl | rfl := CharacterConstant.cause_of_evaluate h
  · exact .invalidCharacterConstant _
  · exact .escapeOutOfRange
  · exact .characterConstantTooLong

/-- The only operators with an error are those that divide. -/
theorem cause_of_combine {operator : BinaryOperator} {left right : Value}
    (h : combine operator live left right = .error cause) :
    live = true ∧ cause = .divisionByZero := by
  unfold combine at h
  split at h
  · cases h
  · cases h
  · exact ((operator.apply_eq_error_iff live left right cause).1 h).2.2

theorem failsWith_missingValue (tag : Tag) : FailsWith live (missingValue tag) := by
  unfold missingValue
  split <;> constructor

/-! ## Trees -/

variable (directive : Location) (tree : ExpressionTree)

theorem failsOnly_placed {α : Type} {result : Except Cause α}
    (h : ∀ cause, result = .error cause → p cause) :
    Diagnosed.FailsOnly p (placed directive tree result) := by
  cases result with
  | ok a => exact .pure a
  | error cause => exact .throw _ (h cause rfl)

theorem failsOnly_evaluateCharacter {text : Bytes}
    (h : ∀ cause, (CharacterConstant.evaluate text).2 = .error cause → p cause) :
    Diagnosed.FailsOnly p (evaluateCharacter directive tree text) := by
  have hwarn (warnings : List WarningCause) :
      Diagnosed.FailsOnly p (forIn warnings PUnit.unit fun warning _ => do
        Diagnosed.warn ⟨locationOf directive tree, warning⟩
        pure (ForInStep.yield PUnit.unit)) := by
    induction warnings with
    | nil => exact .pure _
    | cons warning rest ih =>
      rw [List.forIn_cons, bind_assoc]
      refine (Diagnosed.FailsOnly.warn _).bind fun _ => ?_
      rw [pure_bind]
      exact ih
  rw [evaluateCharacter]
  exact (hwarn _).bind fun _ => failsOnly_placed directive tree h

/-- **What the evaluation of a tree fails with.** -/
theorem failsOnly_evaluate (live : Bool) :
    Diagnosed.FailsOnly (FailsWith live) (evaluate directive live tree) := by
  fun_induction evaluate directive live tree with
  | case1 => assumption
  | case2 => assumption
  | case3 => exact failsOnly_placed _ _ fun _ => failsWith_number
  | case4 => exact failsOnly_evaluateCharacter _ _ fun _ => failsWith_character
  | case5 live r operator i j _ operand rest apply happly ih => exact ih.map apply
  | case6 =>
    refine failsOnly_placed _ _ ?_
    rintro _ ⟨⟩
    exact .disallowed _
  | case7 live r operator i j left _ right rest ihl ihr =>
    refine ihl.bind fun a => ((ihr a).mono fun _ => .of_and).bind fun b => ?_
    refine failsOnly_placed _ _ fun cause h => ?_
    obtain ⟨hlive, rfl⟩ := cause_of_combine h
    exact .divisionByZero hlive
  | case8 live r i j condition _ yes _ no _ ihc ihy ihn =>
    refine ihc.bind fun c => ((ihy c).mono fun _ => .of_and).bind fun a => ?_
    exact ((ihn c).mono fun _ => .of_and).bind fun b => .pure _
  | case9 =>
    refine failsOnly_placed _ _ ?_
    rintro _ ⟨⟩
    exact failsWith_missingValue _
  | case10 =>
    refine failsOnly_placed _ _ ?_
    rintro _ ⟨⟩
    exact .missingPart _

end Expression

end CPreprocessor
