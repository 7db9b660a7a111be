import CPreprocessor.Proofs.Macro.Errors
import CPreprocessor.Proofs.Macro.Invocation
import CPreprocessor.Proofs.Macro.Machine

/-!
# Replacement stays within its bounds

Substitution looks up arguments by the indices of parameters, and a `##` takes the pieces on both
its sides. Neither can fail. An index is below the number of arguments that the macro asks for
(`Macro.lt_arity_of_parameter?`), and as many arguments are there wherever the expansion machine
goes through a replacement list (`Expander.Machine.isFilled_of_reaches`), also those that wait for
an argument to be expanded. A `##` of a checked definition has an operand on both sides, whatever
the arguments are, since every operand leaves a piece.
-/

namespace CPreprocessor

namespace Macro

variable {m : Macro}

/-- The number of arguments that a macro is replaced with. -/
def arity (m : Macro) : Nat := m.parameters.length + m.isVariadic.toNat

theorem lt_arity_of_parameter? {t : Token} {index : Nat} (h : m.parameter? t = some index) :
    index < m.arity := by
  rw [arity, parameters, isVariadic]
  rw [parameter?] at h
  cases hkind : m.kind with
  | function names variadic =>
    rw [hkind] at h
    dsimp only at h ⊢
    split at h
    · cases h
    · split at h
      · next hvariable =>
        cases h
        rw [(Bool.and_eq_true_iff.1 hvariable).1]
        exact Nat.lt_succ_self _
      · obtain ⟨hlt, -⟩ := List.findIdx?_eq_some_iff_getElem.1 h
        exact Nat.lt_add_right _ hlt
  | object | line | file =>
    rw [hkind] at h
    cases h

/-- A macro that meets the constraint on definitions has no `##` at an end. -/
theorem pastesAtEdge_eq_false_of_check (h : m.check = .ok ()) : m.pastesAtEdge = false :=
  ((check_eq_ok_iff_tests m).1 h).2.1

end Macro

namespace Expander

variable (e : Expander) {t : Token} {rest : List Token} {m : Macro}

theorem arity_of_reading {parameters : Nat} {variadic : Bool}
    (h : e.reading t rest = .function m parameters variadic) :
    m.arity = parameters + variadic.toNat := by
  obtain ⟨names, rfl, hopens⟩ := Prosser.opens_of_reading h
  rw [Macro.arity, Macro.parameters, Macro.isVariadic, hopens.kind]

namespace Machine

/-- A replacement list is gone through with as many arguments as the macro asks for. -/
def Call.IsFilled (call : Call) : Prop := call.arguments.length = call.callee.arity

/-- The replacement lists that a configuration is in the middle of. -/
def Cfg.calls : Cfg → List Call
  | .scan _ _ stack => stack.map Frame.call
  | .substitute call _ _ _ stack => call :: stack.map Frame.call
  | .done _ => []

variable {c c' : Cfg} {stack : List Frame}

theorem calls_rescan_subset (site : Token) (hidden : HideSet) (pieces : List Piece)
    (after output : List Token) :
    (rescan e site hidden pieces after output stack).calls ⊆ stack.map Frame.call := by
  rw [rescan]
  split
  · exact List.nil_subset _
  · exact List.Subset.refl _

/-- A step through the input begins with a replacement list only if there are as many arguments as
it asks for. -/
theorem isFilled_scanToken (h : ∀ call ∈ stack.map Frame.call, call.IsFilled) (t : Token)
    (rest output : List Token) :
    ∀ call ∈ (scanToken e t rest output stack).calls, call.IsFilled := by
  rw [scanToken]
  split
  · exact h
  · split
    · exact h
    · exact List.forall_mem_nil _
    · exact fun call hcall => h call (calls_rescan_subset e _ _ _ _ _ hcall)
    · next m parameters variadic hread =>
      split
      · exact List.forall_mem_nil _
      · next i hi =>
        split
        · exact List.forall_mem_nil _
        · next arguments hfit =>
          refine List.forall_mem_cons.2 ⟨?_, h⟩
          exact (length_of_fitArguments hi hfit).trans (e.arity_of_reading hread).symm

theorem calls_substituteToken (call : Call) (pieces : List Piece) (afterPaste : Bool) (t : Token)
    (rest : List Token) :
    (substituteToken call pieces afterPaste t rest stack).calls = call :: stack.map Frame.call := by
  rw [substituteToken]
  split
  · rfl
  · split
    · rfl
    · split <;> rfl

/-- A step keeps it so that there are as many arguments as are asked for. -/
theorem isFilled_step (h : ∀ call ∈ c.calls, call.IsFilled) :
    ∀ call ∈ (step e c).calls, call.IsFilled := by
  cases c with
  | scan input output stack =>
    cases input with
    | nil =>
      cases stack with
      | nil => exact List.forall_mem_nil _
      | cons frame stack => exact h
    | cons t rest => exact isFilled_scanToken e h t rest output
  | substitute call pieces afterPaste rest stack =>
    cases rest with
    | nil =>
      have hsubset : (step e (.substitute call pieces afterPaste [] stack)).calls ⊆
          stack.map Frame.call := calls_rescan_subset e _ _ _ _ _
      exact fun call' hcall => h call' (List.mem_cons_of_mem call (hsubset hcall))
    | cons t rest =>
      rw [step, calls_substituteToken]
      exact h
  | done result => exact List.forall_mem_nil _

variable {e}

theorem isFilled_of_reaches (h : Reaches e c c') (hc : ∀ call ∈ c.calls, call.IsFilled) :
    ∀ call ∈ c'.calls, call.IsFilled := by
  obtain ⟨n, rfl⟩ := h
  exact Function.Iterate.rec (fun c : Cfg => ∀ call ∈ c.calls, call.IsFilled) hc
    (fun _ => isFilled_step e) n

/-- **Replacement stays within its bounds.** If all macros meet the constraint on definitions, then
whatever tokens are expanded, every parameter of a replacement list that is gone through on the way
has the index of an argument, and no `##` is without an operand. -/
theorem staysWithinBounds (hchecked : e.macros.IsChecked) (tokens : List Token) :
    (∀ call pieces afterPaste rest stack,
      Reaches e (.scan tokens [] []) (.substitute call pieces afterPaste rest stack) →
        ∀ t index, call.callee.parameter? t = some index → index < call.arguments.length) ∧
    ∀ location, e.expand tokens ≠ .error (.located location .pasteAtEdge) := by
  constructor
  · intro call pieces afterPaste rest stack hreach t index hindex
    have hfilled : call.IsFilled :=
      isFilled_of_reaches hreach (List.forall_mem_nil _) call List.mem_cons_self
    rw [hfilled]
    exact Macro.lt_arity_of_parameter? hindex
  · intro location hresult
    obtain ⟨_, cause, hlocated, hcause⟩ := e.failsOnly_expand tokens _ hresult
    cases hlocated
    cases hcause with
    | pasteAtEdge hedge =>
      obtain ⟨m, hm, hedge⟩ := hedge
      rw [Macro.pastesAtEdge_eq_false_of_check (hchecked m hm)] at hedge
      cases hedge

open Prosser (word mark)

/-- The macro `JOIN(x, ...)`, which is `#x x ## __VA_ARGS__ ## x`. -/
def joinExpander : Expander where
  macros := ⟨[⟨Bytes.ofString "JOIN", .function [Bytes.ofString "x"] true,
    [mark "#" [], word "x" [], word "x" [], mark "##" [], word "__VA_ARGS__" [], mark "##" [],
      word "x" []]⟩]⟩
  file := "main.c"

/-- All operands of `JOIN()` are empty, and there are no variable arguments. -/
theorem staysWithinBounds_join :
    joinExpander.macros.IsChecked ∧
      (∀ call pieces afterPaste rest stack,
        Reaches joinExpander (.scan [word "JOIN" [], mark "(" [], mark ")" []] [] [])
            (.substitute call pieces afterPaste rest stack) →
          ∀ t index, call.callee.parameter? t = some index → index < call.arguments.length) ∧
      ∀ location, joinExpander.expand [word "JOIN" [], mark "(" [], mark ")" []] ≠
        .error (.located location .pasteAtEdge) := by
  have hchecked : joinExpander.macros.IsChecked := by
    have h : ∀ m ∈ joinExpander.macros.macros, m.check = .ok () := by decide
    exact h
  exact ⟨hchecked, staysWithinBounds hchecked _⟩

end Machine

end Expander

end CPreprocessor
