import CPreprocessor.Diagnostic
import Mathlib.Control.Lawful

/-!
# What computations fail with

A computation that fails only with errors of certain causes, each at some place (`FailsOnly`). This
is preserved when computations are put together, with and without warnings, so what an algorithm can
fail with is found from what its parts can fail with. Two computations that fail with the same error
or have related results (`Agree`) stay so in the same way.
-/

namespace CPreprocessor

variable {α β : Type} {p q : Cause → Prop}

/-- A computation that is put together of two has a result only if both have. -/
theorem exists_of_bind_eq_ok {ε : Type} {x : Except ε α} {k : α → Except ε β} {b : β}
    (h : x >>= k = .ok b) : ∃ a, x = .ok a ∧ k a = .ok b := by
  cases x with
  | ok a => exact ⟨a, rfl, h⟩
  | error e => cases h

/-- A computation with a state goes on from the result and the state of another one, if it has a
result. -/
theorem run_bind {ε σ : Type} (x : ExceptT ε (StateM σ) α) (k : α → ExceptT ε (StateM σ) β)
    (s : σ) : (x >>= k).run.run s =
      match x.run.run s with
      | (.ok a, s) => (k a).run.run s
      | (.error e, s) => (.error e, s) := by
  rw [ExceptT.run_bind, StateT.run_bind]
  rcases x.run.run s with ⟨_ | a, s'⟩ <;> rfl

/-- If a computation fails, then at some place and with a cause that has the given property. -/
def FailsOnly (p : Cause → Prop) (x : Except Fault α) : Prop :=
  ∀ fault, x = .error fault → ∃ location cause, fault = .located location cause ∧ p cause

namespace FailsOnly

variable {x : Except Fault α}

theorem ok (a : α) : FailsOnly p (.ok a : Except Fault α) := nofun

theorem located (location : Location) {cause : Cause} (h : p cause) :
    FailsOnly p (.error (.located location cause) : Except Fault α) := by
  rintro _ ⟨⟩
  exact ⟨location, cause, rfl, h⟩

theorem mono (h : FailsOnly p x) (hpq : ∀ cause, p cause → q cause) : FailsOnly q x := by
  intro fault hfault
  obtain ⟨location, cause, hlocated, hcause⟩ := h fault hfault
  exact ⟨location, cause, hlocated, hpq cause hcause⟩

theorem bind {k : α → Except Fault β} (hx : FailsOnly p x)
    (hk : ∀ a, x = .ok a → FailsOnly p (k a)) : FailsOnly p (x >>= k) := by
  cases x with
  | ok a => exact hk a rfl
  | error fault =>
    rintro _ ⟨⟩
    exact hx fault rfl

end FailsOnly

/-- Two computations fail alike, or have results that are related. -/
inductive Agree (r : α → β → Prop) : Except Fault α → Except Fault β → Prop
  | error (fault : Fault) : Agree r (.error fault) (.error fault)
  | ok {a : α} {b : β} (h : r a b) : Agree r (.ok a) (.ok b)

namespace Agree

variable {γ δ : Type} {r : α → β → Prop} {s : γ → δ → Prop} {x : Except Fault α}
  {y : Except Fault β}

theorem bind (h : Agree r x y) {k : α → Except Fault γ} {l : β → Except Fault δ}
    (hk : ∀ a b, r a b → Agree s (k a) (l b)) : Agree s (x >>= k) (y >>= l) := by
  cases h with
  | error fault => exact .error fault
  | ok h => exact hk _ _ h

theorem bind_eq (h : Agree r x y) {k : α → Except Fault γ} {l : β → Except Fault γ}
    (hk : ∀ a b, r a b → k a = l b) : x >>= k = y >>= l := by
  cases h with
  | error fault => rfl
  | ok h => exact hk _ _ h

end Agree

namespace Diagnosed

variable {x : Diagnosed α}

/-- A computation that reports warnings fails with errors of certain causes only. -/
def FailsOnly (p : Cause → Prop) (x : Diagnosed α) : Prop :=
  ∀ warnings, CPreprocessor.FailsOnly p (x.run.run warnings).1

namespace FailsOnly

theorem pure (a : α) : FailsOnly p (Pure.pure a : Diagnosed α) :=
  fun _ => CPreprocessor.FailsOnly.ok a

theorem throw (location : Location) {cause : Cause} (h : p cause) :
    FailsOnly p (MonadExcept.throw (Fault.located location cause) : Diagnosed α) :=
  fun _ => CPreprocessor.FailsOnly.located location h

theorem warn (warning : Warning) : FailsOnly p (Diagnosed.warn warning) :=
  fun _ => CPreprocessor.FailsOnly.ok ()

theorem bind {k : α → Diagnosed β} (hx : FailsOnly p x) (hk : ∀ a, FailsOnly p (k a)) :
    FailsOnly p (x >>= k) := by
  intro warnings
  have hresult := hx warnings
  rw [run_bind]
  generalize x.run.run warnings = outcome at hresult ⊢
  obtain ⟨fault | a, warnings'⟩ := outcome
  · rintro _ ⟨⟩
    exact hresult fault rfl
  · exact hk a warnings'

theorem mono (h : FailsOnly p x) (hpq : ∀ cause, p cause → q cause) : FailsOnly q x :=
  fun warnings => (h warnings).mono hpq

theorem map (f : α → β) (hx : FailsOnly p x) : FailsOnly p (f <$> x) := by
  rw [map_eq_pure_bind]
  exact hx.bind fun a => pure (f a)

/-- A computation without warnings, as a part of one that reports some. -/
theorem bind_lift {result : Except Fault α} {k : α → Diagnosed β}
    (h : CPreprocessor.FailsOnly p result) (hk : ∀ a, result = .ok a → FailsOnly p (k a)) :
    FailsOnly p ((result : Diagnosed α) >>= k) := by
  intro warnings
  rw [run_bind]
  cases result with
  | ok a => exact hk a rfl warnings
  | error fault =>
    rintro _ ⟨⟩
    exact h fault rfl

end FailsOnly

end Diagnosed

end CPreprocessor
