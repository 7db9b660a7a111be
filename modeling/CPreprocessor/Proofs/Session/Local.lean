import CPreprocessor.Proofs.Session.Causes
import CPreprocessor.Proofs.Session.Places

/-!
# Lines in which a file has nothing to do with others

A line that is neither an `#include` nor a `#pragma once` changes nothing about what is known of
files. If it fails, then not for files that are nested too deeply, and the macros are as they were
before it (`Session.isLocal_processLine`): `#define` and `#undef` change the table last, when
nothing can fail any more, and no other directive changes it.
-/

namespace CPreprocessor

namespace Directive

/-- Whether a directive is `#pragma once`. -/
def isOnce : Directive → Bool
  | .pragma [t] => t.isIdentifier && t.text = Bytes.ofString "once"
  | _ => false

/-- Whether a directive has nothing to do with files. -/
def isLocal : Directive → Bool
  | .inclusion _ => false
  | directive => !directive.isOnce

theorem isLocal_eq_true {directive : Directive}
    (hinclusion : ∀ operand, directive ≠ .inclusion operand) (honce : directive.isOnce = false) :
    directive.isLocal = true := by
  cases directive with
  | inclusion operand => exact absurd rfl (hinclusion operand)
  | _ => simpa [isLocal] using honce

theorem isOnce_eq_false {directive : Directive} (h : directive.isLocal = true) :
    directive.isOnce = false := by
  cases directive with
  | pragma text => simpa [isLocal] using h
  | _ => rfl

theorem isLocal_of_continuesConditional {directive : Directive}
    (h : directive.continuesConditional = true) : directive.isLocal = true := by
  cases directive <;> first | rfl | cases h

end Directive

namespace SessionM

open Session (State)

variable {α β : Type}

/-- The outcome of a step, taken in some state, that has nothing to do with files. -/
structure LocalOutcome (s : State) (outcome : Except Fault α × State) : Prop where
  names_eq : outcome.2.names = s.names
  once_eq : outcome.2.once = s.once
  avoids : Avoids Fault.IsTooDeep outcome.1
  macros_eq : ∀ fault, outcome.1 = .error fault → outcome.2.macros = s.macros

/-- A step that has nothing to do with files, and that changes the macros only if it succeeds. -/
def IsLocal (x : SessionM α) : Prop := ∀ s, LocalOutcome s (x.run.run s)

/-- A step that has nothing to do with files and does not change the macros. -/
def IsQuiet (x : SessionM α) : Prop :=
  ∀ s, LocalOutcome s (x.run.run s) ∧ (x.run.run s).2.macros = s.macros

theorem IsQuiet.isLocal {x : SessionM α} (h : x.IsQuiet) : x.IsLocal := fun s => (h s).1

/-- The outcome in a later state with the same macros. -/
theorem LocalOutcome.trans {s : State} {first : Except Fault α × State}
    {outcome : Except Fault β × State} (h : LocalOutcome s first)
    (hmacros : first.2.macros = s.macros) (h' : LocalOutcome first.2 outcome) :
    LocalOutcome s outcome where
  names_eq := h'.names_eq.trans h.names_eq
  once_eq := h'.once_eq.trans h.once_eq
  avoids := h'.avoids
  macros_eq fault hfault := (h'.macros_eq fault hfault).trans hmacros

theorem localOutcome_error {s : State} {fault : Fault} (h : ¬ fault.IsTooDeep) :
    LocalOutcome s ((.error fault : Except Fault α), s) :=
  ⟨rfl, rfl, avoids_error h, fun _ _ => rfl⟩

theorem IsQuiet.bind_isLocal {x : SessionM α} {k : α → SessionM β} (hx : x.IsQuiet)
    (hk : ∀ a, (k a).IsLocal) : (x >>= k).IsLocal := by
  intro s
  obtain ⟨h, hmacros⟩ := hx s
  rw [run_bind]
  generalize x.run.run s = outcome at h hmacros ⊢
  obtain ⟨fault | a, s'⟩ := outcome
  · exact h.trans hmacros (localOutcome_error (h.avoids fault rfl))
  · exact h.trans hmacros (hk a s')

theorem IsQuiet.bind {x : SessionM α} {k : α → SessionM β} (hx : x.IsQuiet)
    (hk : ∀ a, (k a).IsQuiet) : (x >>= k).IsQuiet := by
  refine fun s => ⟨hx.bind_isLocal (fun a => (hk a).isLocal) s, ?_⟩
  have hmacros := (hx s).2
  rw [run_bind]
  generalize x.run.run s = outcome at hmacros ⊢
  obtain ⟨fault | a, s'⟩ := outcome
  · exact hmacros
  · exact ((hk a s').2).trans hmacros

/-- What comes after a step may be put together of its result. -/
theorem IsLocal.bind_pure {x : SessionM α} (hx : x.IsLocal) (f : α → β) :
    (x >>= fun a => pure (f a)).IsLocal := by
  intro s
  have h := hx s
  rw [run_bind]
  generalize x.run.run s = outcome at h ⊢
  obtain ⟨fault | a, s'⟩ := outcome
  · exact ⟨h.names_eq, h.once_eq, avoids_error (h.avoids fault rfl), fun _ _ => h.macros_eq _ rfl⟩
  · exact ⟨h.names_eq, h.once_eq, avoids_ok _, nofun⟩

theorem isQuiet_pure (a : α) : (pure a : SessionM α).IsQuiet :=
  fun _ => ⟨⟨rfl, rfl, avoids_ok a, nofun⟩, rfl⟩

theorem isQuiet_throw {fault : Fault} (h : ¬ fault.IsTooDeep) :
    (throw fault : SessionM α).IsQuiet :=
  fun _ => ⟨localOutcome_error h, rfl⟩

theorem isQuiet_fail {cause : Cause} (h : cause ≠ .includeTooDeep) (location : Location) :
    (fail cause location : SessionM α).IsQuiet :=
  isQuiet_throw (mt Fault.isTooDeep_located.1 h)

theorem isQuiet_fail_bind {cause : Cause} (h : cause ≠ .includeTooDeep) (location : Location)
    (k : α → SessionM β) : (fail cause location >>= k).IsQuiet :=
  fun _ => ⟨localOutcome_error (mt Fault.isTooDeep_located.1 h), rfl⟩

theorem isQuiet_get : (get : SessionM State).IsQuiet :=
  fun _ => ⟨⟨rfl, rfl, avoids_ok _, nofun⟩, rfl⟩

/-- A change of other things than the macros and what is known of files. -/
theorem isQuiet_modify {f : State → State} (hmacros : ∀ s, (f s).macros = s.macros)
    (hnames : ∀ s, (f s).names = s.names) (honce : ∀ s, (f s).once = s.once) :
    (modify f : SessionM PUnit).IsQuiet :=
  fun s => ⟨⟨hnames s, honce s, avoids_ok _, nofun⟩, hmacros s⟩

theorem isQuiet_ofExcept {result : Except Fault α} (h : Avoids Fault.IsTooDeep result) :
    (ofExcept result).IsQuiet := by
  cases result with
  | ok a => exact isQuiet_pure a
  | error fault => exact isQuiet_throw (h fault rfl)

theorem isQuiet_warn (location : Location) (cause : WarningCause) : (warn location cause).IsQuiet :=
  isQuiet_modify (fun _ => rfl) (fun _ => rfl) fun _ => rfl

theorem isQuiet_ofDiagnosed {computation : Diagnosed α} (h : computation.Avoids) :
    (ofDiagnosed computation).IsQuiet := by
  rw [ofDiagnosed]
  exact IsQuiet.bind (isQuiet_modify (fun _ => rfl) (fun _ => rfl) fun _ => rfl) fun _ =>
    isQuiet_ofExcept (h [])

theorem isQuiet_expand (file : SourceFile) (tokens : List Token) : (expand file tokens).IsQuiet :=
  isQuiet_get.bind fun _ => isQuiet_ofExcept (Expander.avoids_expand _ tokens)

theorem isQuiet_firstFile (files : FileSystem) (paths : List Path) :
    (firstFile files paths).IsQuiet := by
  induction paths with
  | nil => exact isQuiet_pure none
  | cons path rest ih =>
    rw [firstFile]
    refine IsQuiet.bind (isQuiet_modify (fun _ => rfl) (fun _ => rfl) fun _ => rfl) fun _ => ?_
    split
    · exact isQuiet_pure _
    · exact ih

/-- The table is changed only if the change is accepted. -/
theorem isLocal_updateMacros (location : Location) {change : MacroTable → Except Cause MacroTable}
    (h : ∀ table, Avoids (·.isRefusal = false) (change table)) :
    (updateMacros location change).IsLocal := by
  refine isQuiet_get.bind_isLocal fun s => ?_
  split
  · exact fun _ => ⟨rfl, rfl, avoids_ok (), nofun⟩
  · next cause hcause =>
    have hne : cause ≠ .includeTooDeep := by
      rintro rfl
      exact h _ _ hcause rfl
    exact (isQuiet_fail hne location).isLocal

end SessionM

namespace Session

open SessionM

variable {session : Session} {file : SourceFile} {location : Location} {p : Progress}

theorem isQuiet_warnExtraTokens (directive : String) (tail : List Token) :
    (warnExtraTokens file directive tail).IsQuiet := by
  rw [warnExtraTokens]
  split
  · exact isQuiet_warn _ _
  · exact isQuiet_pure _

theorem isQuiet_warnUnterminatedComment (source : Bytes) (text : Source.Text) :
    (warnUnterminatedComment file source text).IsQuiet := by
  rw [warnUnterminatedComment]
  split
  · exact isQuiet_warn _ _
  · exact isQuiet_pure _

theorem isQuiet_condition (tokens : List Token) : (condition file location tokens).IsQuiet :=
  isQuiet_get.bind fun _ => isQuiet_ofDiagnosed (Condition.avoids_holds _ _ _ _)

theorem isQuiet_processText (lines : List (List Token)) : (processText file lines).IsQuiet :=
  (isQuiet_expand _ _).bind fun _ => isQuiet_pure _

theorem isQuiet_flush : (flush p).IsQuiet := by
  rw [flush_eq]
  exact (isQuiet_processText _).bind fun _ => isQuiet_pure _

theorem isQuiet_includeOperand (operand : List Token) : (includeOperand file operand).IsQuiet := by
  rw [includeOperand]
  split
  · exact isQuiet_pure _
  · exact isQuiet_expand _ _

theorem isQuiet_atElif (expression : List Token) : (atElif location expression p).IsQuiet := by
  rw [atElif]
  cases p.conditionals with
  | nil => exact isQuiet_fail (by simp) location
  | cons c outer =>
    obtain ⟨state, seenElse, opened⟩ := c
    cases seenElse with
    | true => exact isQuiet_fail_bind (by simp) location _
    | false =>
      cases state with
      | waiting =>
        refine (isQuiet_condition _).bind fun holds => ?_
        cases holds with
        | true => exact isQuiet_pure _
        | false => exact isQuiet_pure _
      | _ => exact isQuiet_pure _

theorem isQuiet_atElse (tail : List Token) : (atElse location tail p).IsQuiet := by
  rw [atElse]
  cases p.conditionals with
  | nil => exact isQuiet_fail (by simp) location
  | cons c outer =>
    obtain ⟨state, seenElse, opened⟩ := c
    cases seenElse with
    | true => exact isQuiet_fail_bind (by simp) location _
    | false =>
      simp only [Bool.false_eq_true, if_false]
      split
      · exact (isQuiet_warnExtraTokens _ _).bind fun _ => isQuiet_pure _
      · exact isQuiet_pure _

theorem isQuiet_atEndIf (tail : List Token) : (atEndIf location tail p).IsQuiet := by
  rw [atEndIf]
  cases p.conditionals with
  | nil => exact isQuiet_fail (by simp) location
  | cons c outer =>
    dsimp only
    split
    · exact (isQuiet_warnExtraTokens _ _).bind fun _ => isQuiet_pure _
    · exact isQuiet_pure _

theorem isLocal_defineObject (name : Token) (replacement : List Token) :
    (defineObject file location name replacement).IsLocal := by
  have hdefine : (updateMacros location (·.define ⟨name.text, .object, replacement⟩)).IsLocal :=
    isLocal_updateMacros location fun table => table.avoids_define _
  rw [defineObject]
  split
  · split
    · exact (isQuiet_warn _ _).bind_isLocal fun _ => hdefine
    · exact hdefine
  · exact hdefine

theorem isQuiet_lineControl (lastLine : Nat) (operand : List Token) :
    (lineControl location lastLine operand p).IsQuiet := by
  refine (isQuiet_expand _ _).bind fun tokens => ?_
  split
  · exact isQuiet_fail (by simp) location
  · exact isQuiet_pure _

/-- Other pragmas are ignored. -/
theorem pragma_eq_pure {text : List Token} (h : (Directive.pragma text).isLocal = true) :
    pragma file text = pure () := by
  unfold pragma
  split
  · next t =>
    rw [if_neg]
    simpa [Directive.isLocal, Directive.isOnce, or_iff_not_imp_left] using h
  · rfl

theorem isLocal_obey {directive : Directive} (h : directive.isLocal = true) (lastLine : Nat) :
    (obey session none directive location lastLine p).IsLocal := by
  cases directive with
  | ifExpression expression =>
    exact ((isQuiet_condition _).bind fun _ => isQuiet_pure _).isLocal
  | ifDefined name tail | ifNotDefined name tail =>
    refine ((isQuiet_warnExtraTokens _ _).bind fun _ => ?_).isLocal
    exact isQuiet_get.bind fun _ => isQuiet_pure _
  | elifExpression expression => exact (isQuiet_atElif _).isLocal.bind_pure _
  | elseGroup tail => exact (isQuiet_atElse _).isLocal.bind_pure _
  | endIf tail => exact (isQuiet_atEndIf _).isLocal.bind_pure _
  | inclusion operand => cases h
  | defineObject name replacement => exact (isLocal_defineObject _ _).bind_pure _
  | defineFunction name parameters variadic replacement =>
    exact (isLocal_updateMacros _ fun table => table.avoids_define _).bind_pure _
  | undefine name tail =>
    refine (isQuiet_warnExtraTokens _ _).bind_isLocal fun _ => IsLocal.bind_pure ?_ _
    exact isLocal_updateMacros _ fun table => table.avoids_undefine _
  | line operand => exact (isQuiet_lineControl _ _).isLocal.bind_pure _
  | error text => exact (isQuiet_fail (by simp) location).isLocal
  | pragma text =>
    rw [obey, pragma_eq_pure h]
    exact (isQuiet_pure _).isLocal
  | null => exact (isQuiet_pure _).isLocal
  | nonDirective text => exact (isQuiet_fail (by simp) location).isLocal

theorem isLocal_processDirective {hash : Token} {line : List Token}
    (h : p.live = true → (Directive.ofTokens line).all Directive.isLocal = true) :
    (processDirective session none hash line p).IsLocal := by
  rw [processDirective]
  split
  · next hprocessed =>
    cases hread : Directive.ofTokens line with
    | none => exact (isQuiet_fail (by simp) _).isLocal
    | some directive =>
      rw [hread] at h hprocessed
      refine isLocal_obey ?_ _
      rcases hprocessed with hlive | hcontinues
      · exact h hlive
      · exact Directive.isLocal_of_continuesConditional hcontinues
  · split
    · exact (isQuiet_pure _).isLocal
    · exact (isQuiet_pure _).isLocal

/-- **A line that has nothing to do with files** leaves what is known of them as it is, and the
macros too if it fails. -/
theorem isLocal_processLine {line : List Token}
    (h : line.head?.any Token.isHash = true → p.live = true →
      (Directive.ofTokens line).all Directive.isLocal = true) :
    (processLine session none line p).IsLocal := by
  rw [processLine]
  split
  · exact (isQuiet_pure _).isLocal
  · next first hfirst =>
    split
    · next hhash =>
      have hdirective :
          (processDirective session none first line { p with pending := [] }).IsLocal :=
        isLocal_processDirective (h (by rw [hfirst]; exact hhash))
      simp only [flush_eq, bind_assoc, pure_bind]
      exact (isQuiet_processText _).bind_isLocal fun _ => hdirective.bind_pure _
    · split
      · exact (isQuiet_pure _).isLocal
      · exact (isQuiet_pure _).isLocal

end Session

end CPreprocessor
