import CPreprocessor.Proofs.Condition

/-!
# Causes of errors

Too deep a nesting of included files is something that `#include` alone complains of. Whatever else
is computed on the way may fail, but not for that, be it that macros are expanded (`avoids_expand`)
or that conditions are evaluated (`avoids_holds`). A macro is defined or removed, unless it is
refused for something in its own definition or in the table (`avoids_define`, `avoids_undefine`).
-/

namespace CPreprocessor

/-- A computation does not fail with a bad error. -/
def Avoids {ε α : Type} (bad : ε → Prop) (x : Except ε α) : Prop := ∀ e, x = .error e → ¬ bad e

section

variable {ε α β : Type} {bad : ε → Prop} {x : Except ε α}

theorem avoids_ok (a : α) : Avoids bad (.ok a : Except ε α) := nofun

theorem avoids_error {e : ε} (h : ¬ bad e) : Avoids bad (.error e : Except ε α) := by
  rintro _ ⟨⟩
  exact h

theorem Avoids.bind {k : α → Except ε β} (hx : Avoids bad x) (hk : ∀ a, Avoids bad (k a)) :
    Avoids bad (x >>= k) := by
  cases x with
  | ok a => exact hk a
  | error e => exact avoids_error (hx e rfl)

end

/-- The error that included files are nested too deeply. -/
def Fault.IsTooDeep (fault : Fault) : Prop :=
  ∃ location, fault = .located location .includeTooDeep

theorem Fault.isTooDeep_located {location : Location} {cause : Cause} :
    (Fault.located location cause).IsTooDeep ↔ cause = .includeTooDeep :=
  ⟨fun ⟨_, h⟩ => (Fault.located.inj h).2, fun h => ⟨location, h ▸ rfl⟩⟩

theorem FailsOnly.avoids {α : Type} {x : Except Fault α} (h : FailsOnly (· ≠ .includeTooDeep) x) :
    Avoids Fault.IsTooDeep x := by
  intro fault hfault
  obtain ⟨location, cause, rfl, hcause⟩ := h fault hfault
  exact mt Fault.isTooDeep_located.1 hcause

/-- Whether a cause is what a definition of a macro, or its removal, is refused for. -/
def Cause.isRefusal : Cause → Bool
  | .reservedName _ | .redefinition _ | .duplicateParameter _ | .invalidVariableArguments
  | .invalidStringize | .pasteAtEdge => true
  | _ => false

/-- To refuse something, and otherwise to go on. -/
theorem avoids_refuse {α : Type} {test : Prop} [Decidable test] {cause : Cause}
    {next : Unit → Except Cause α} (hcause : cause.isRefusal = true)
    (hnext : ∀ a, Avoids (·.isRefusal = false) (next a)) :
    Avoids (·.isRefusal = false) (if test then throw cause >>= next else next ()) := by
  split
  · exact avoids_error (by simp [hcause])
  · exact hnext ()

/-! ## Macros -/

theorem Expander.FailsWith.ne_includeTooDeep {overflow edge : Prop} {cause : Cause}
    (h : FailsWith overflow edge cause) : cause ≠ .includeTooDeep := by
  cases h <;> exact nofun

/-- Macros are expanded without that error. -/
theorem Expander.avoids_expand (e : Expander) (tokens : List Token) :
    Avoids Fault.IsTooDeep (e.expand tokens) :=
  ((e.failsOnly_expand tokens).mono fun _ => FailsWith.ne_includeTooDeep).avoids

theorem Macro.avoids_checkParameters (before names : List Bytes) :
    Avoids (·.isRefusal = false) (Macro.checkParameters before names) := by
  induction names generalizing before with
  | nil => exact avoids_ok ()
  | cons name rest ih =>
    rw [checkParameters_cons]
    split
    · exact avoids_error (by simp [Cause.isRefusal])
    · split
      · exact avoids_error (by simp [Cause.isRefusal])
      · exact ih _

theorem Macro.avoids_check (m : Macro) : Avoids (·.isRefusal = false) m.check := by
  refine (avoids_checkParameters [] m.parameters).bind fun _ => avoids_refuse rfl fun _ => ?_
  refine avoids_refuse rfl fun _ => ?_
  split
  · exact avoids_error (by simp [Cause.isRefusal])
  · exact avoids_ok ()

/-- A definition is refused only for what is wrong with it. -/
theorem MacroTable.avoids_define (table : MacroTable) (m : Macro) :
    Avoids (·.isRefusal = false) (table.define m) := by
  rw [define]
  refine avoids_refuse rfl fun _ => m.avoids_check.bind fun _ => ?_
  split
  · exact avoids_refuse rfl fun _ => avoids_ok _
  · exact avoids_ok _

theorem MacroTable.avoids_undefine (table : MacroTable) (name : Bytes) :
    Avoids (·.isRefusal = false) (table.undefine name) := by
  unfold undefine
  split
  · exact avoids_error (by simp [Cause.isRefusal])
  · exact avoids_ok _

/-! ## Conditions -/

/-- A computation that reports warnings does not fail with that error. -/
def Diagnosed.Avoids {α : Type} (x : Diagnosed α) : Prop :=
  ∀ warnings, CPreprocessor.Avoids Fault.IsTooDeep (x.run.run warnings).1

theorem Expression.FailsWith.ne_includeTooDeep {live : Bool} {cause : Cause}
    (h : FailsWith live cause) : cause ≠ .includeTooDeep := by
  cases h <;> exact nofun

/-- Conditions are evaluated without that error. -/
theorem Condition.avoids_holds (macros : MacroTable) (file : SourceFile) (directive : Location)
    (tokens : List Token) : (holds macros file directive tokens).Avoids := by
  have hholds : Diagnosed.FailsOnly (· ≠ .includeTooDeep) (holds macros file directive tokens) :=
    failsOnly_holds nofun (fun _ => Expander.FailsWith.ne_includeTooDeep) nofun nofun directive
      fun _ tree _ _ => (Expression.failsOnly_evaluate directive tree true).mono
        fun _ => Expression.FailsWith.ne_includeTooDeep
  exact fun warnings => (hholds warnings).avoids

end CPreprocessor
