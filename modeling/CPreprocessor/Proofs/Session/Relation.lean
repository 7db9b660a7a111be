import CPreprocessor.Proofs.Macro.Table
import CPreprocessor.Session.Basic

/-!
# Steps and related states

The steps of a session read the macros of its state, the names of the files read before and the
files not to be included again. They add to each of these, and to the warnings and the paths that
were looked at, but never read the latter two. So whatever relation there is between two states that
agree in what is read, and that is kept when both get the same addition (`IsStable`), a session does
the same in both and leaves them so related (`respects_runSource`).

With equal states, the relation is an invariant of a session. One such is that its macros are those
that directives lead to (`isReachable_of_respects`).
-/

namespace CPreprocessor

namespace Session

/-- A relation that steps do not lose. Related states agree in what steps read. -/
structure IsStable (R : State → State → Prop) : Prop where
  macros_eq {s t : State} (h : R s t) : s.macros = t.macros
  names_eq {s t : State} (h : R s t) : s.names = t.names
  once_eq {s t : State} (h : R s t) : s.once = t.once
  warnings {s t : State} (h : R s t) (more : List Warning) :
    R { s with warnings := s.warnings ++ more } { t with warnings := t.warnings ++ more }
  names {s t : State} (h : R s t) (entry : Path × String) :
    R { s with names := entry :: s.names } { t with names := entry :: t.names }
  once {s t : State} (h : R s t) (paths : List Path) :
    R { s with once := paths ++ s.once } { t with once := paths ++ t.once }
  consulted {s t : State} (h : R s t) (path : Path) :
    R { s with consulted := path :: s.consulted } { t with consulted := path :: t.consulted }
  define {s t : State} (h : R s t) {m : Macro} {macros : MacroTable}
    (hdefine : s.macros.define m = .ok macros) : R { s with macros } { t with macros }
  undefine {s t : State} (h : R s t) {name : Bytes} {macros : MacroTable}
    (hundefine : s.macros.undefine name = .ok macros) : R { s with macros } { t with macros }

end Session

namespace SessionM

open Session

variable {α β : Type} {R : State → State → Prop}

/-- A step does the same in related states, and leaves them related. -/
def Respects (R : State → State → Prop) (x : SessionM α) : Prop :=
  ∀ s t, R s t → (x.run.run s).1 = (x.run.run t).1 ∧ R (x.run.run s).2 (x.run.run t).2

theorem Respects.pure (a : α) : (Pure.pure a : SessionM α).Respects R :=
  fun _ _ h => ⟨rfl, h⟩

theorem respects_throw (fault : Fault) : (throw fault : SessionM α).Respects R :=
  fun _ _ h => ⟨rfl, h⟩

theorem respects_fail (cause : Cause) (location : Location) :
    (fail cause location : SessionM α).Respects R :=
  respects_throw _

theorem respects_fail_bind (cause : Cause) (location : Location) (k : α → SessionM β) :
    (fail cause location >>= k).Respects R :=
  fun _ _ h => ⟨rfl, h⟩

theorem Respects.bind {x : SessionM α} {k : α → SessionM β} (hx : x.Respects R)
    (hk : ∀ a, (k a).Respects R) : (x >>= k).Respects R := by
  intro s t hst
  obtain ⟨hresult, hmiddle⟩ := hx s t hst
  rw [ExceptT.run_bind, StateT.run_bind, StateT.run_bind]
  cases hs : x.run.run s with
  | mk result s' =>
    cases ht : x.run.run t with
    | mk result' t' =>
      rw [hs, ht] at hresult hmiddle
      obtain rfl : result = result' := hresult
      cases result with
      | error fault => exact ⟨rfl, hmiddle⟩
      | ok a => exact hk a s' t' hmiddle

theorem run_get_bind (k : State → SessionM β) (s : State) :
    (get >>= k).run.run s = (k s).run.run s := rfl

/-- What a step does with the state that it reads is the same in related states. -/
theorem Respects.get_bind {k : State → SessionM β} (heq : ∀ s t, R s t → k s = k t)
    (hk : ∀ s, (k s).Respects R) : (get >>= k).Respects R := by
  intro s t hst
  rw [run_get_bind, run_get_bind, heq s t hst]
  exact hk t s t hst

theorem respects_modify {f : State → State} (h : ∀ s t, R s t → R (f s) (f t)) :
    (modify f : SessionM Unit).Respects R :=
  fun s t hst => ⟨rfl, h s t hst⟩

theorem respects_ofExcept (result : Except Fault α) : (ofExcept result).Respects R := by
  cases result with
  | error fault => exact respects_throw fault
  | ok a => exact .pure a

section

variable (hR : IsStable R)
include hR

theorem respects_warn (location : Location) (cause : WarningCause) :
    (warn location cause).Respects R :=
  respects_modify fun _ _ hst => hR.warnings hst _

theorem respects_ofDiagnosed (computation : Diagnosed α) :
    (ofDiagnosed computation).Respects R := by
  rw [ofDiagnosed]
  exact (respects_modify fun _ _ hst => hR.warnings hst _).bind fun _ => respects_ofExcept _

theorem respects_updateMacros (location : Location) {change : MacroTable → Except Cause MacroTable}
    (h : ∀ s t macros, R s t → change s.macros = .ok macros →
      R { s with macros } { t with macros }) :
    (updateMacros location change).Respects R := by
  intro s t hst
  have hok {s : State} {macros : MacroTable} (h : change s.macros = .ok macros) :
      (updateMacros location change).run.run s = (.ok (), { s with macros }) := by
    rw [updateMacros, run_get_bind, h]
    rfl
  have herror {s : State} {cause : Cause} (h : change s.macros = .error cause) :
      (updateMacros location change).run.run s = (.error (cause.located location), s) := by
    rw [updateMacros, run_get_bind, h]
    rfl
  have hmacros := hR.macros_eq hst
  cases hchange : change s.macros with
  | error cause =>
    rw [herror hchange, herror (hmacros ▸ hchange)]
    exact ⟨rfl, hst⟩
  | ok macros =>
    rw [hok hchange, hok (hmacros ▸ hchange)]
    exact ⟨rfl, h s t macros hst hchange⟩

theorem respects_expand (file : SourceFile) (tokens : List Token) :
    (expand file tokens).Respects R := by
  rw [expand]
  refine .get_bind (fun s t hst => ?_) fun _ => respects_ofExcept _
  rw [hR.macros_eq hst]

theorem respects_firstFile (files : FileSystem) (paths : List Path) :
    (firstFile files paths).Respects R := by
  induction paths with
  | nil => exact .pure none
  | cons path rest ih =>
    rw [firstFile]
    refine .bind (respects_modify fun _ _ hst => hR.consulted hst path) fun _ => ?_
    split
    · exact .pure _
    · exact ih

theorem respects_readFile (files : FileSystem) (path : Path) :
    (readFile files path).Respects R := by
  rw [readFile]
  refine .bind (respects_modify fun _ _ hst => hR.consulted hst path) fun _ => ?_
  split
  · exact respects_throw _
  · refine .get_bind (fun s t hst => by rw [hR.names_eq hst]) fun s => ?_
    split
    · exact .pure _
    · exact .bind (respects_modify fun _ _ hst => hR.names hst _) fun _ => .pure _

end

end SessionM

/-! ## Running through a file -/

namespace Session

open SessionM

/-- How the included files are processed in a run that may nest them to the given depth. -/
def inclusion (session : Session) : Nat → Option Inclusion
  | 0 => none
  | depth + 1 => some (session.runSource depth)

theorem runSource_eq (session : Session) (depth : Nat) (file : SourceFile) (source : Bytes) :
    session.runSource depth file source = session.processFile (session.inclusion depth) file source := by
  cases depth <;> rfl

variable {R : State → State → Prop} (hR : IsStable R)
include hR

section

variable (file : SourceFile) (location : Location) (p : Progress)

theorem respects_warnExtraTokens (directive : String) (tail : List Token) :
    (warnExtraTokens file directive tail).Respects R := by
  rw [warnExtraTokens]
  split
  · exact respects_warn hR _ _
  · exact .pure _

theorem respects_condition (tokens : List Token) :
    (condition file location tokens).Respects R := by
  rw [condition]
  refine .get_bind (fun s t hst => ?_) fun _ => respects_ofDiagnosed hR _
  rw [hR.macros_eq hst]

theorem respects_flush : (flush p).Respects R := by
  rw [flush]
  exact (respects_expand hR _ _).bind fun _ => .pure _

theorem respects_atElif (expression : List Token) :
    (atElif location expression p).Respects R := by
  rw [atElif]
  cases p.conditionals with
  | nil => exact respects_fail _ _
  | cons c outer =>
    obtain ⟨state, seenElse, opened⟩ := c
    cases seenElse with
    | true => exact respects_fail_bind _ _ _
    | false =>
      cases state with
      | waiting =>
        refine .bind (respects_condition hR _ _ _) fun holds => ?_
        cases holds with
        | true => exact .pure _
        | false => exact .pure _
      | _ => exact .pure _

theorem respects_atElse (tail : List Token) : (atElse location tail p).Respects R := by
  rw [atElse]
  cases p.conditionals with
  | nil => exact respects_fail _ _
  | cons c outer =>
    obtain ⟨state, seenElse, opened⟩ := c
    cases seenElse with
    | true => exact respects_fail_bind _ _ _
    | false =>
      simp only [Bool.false_eq_true, if_false]
      split
      · exact .bind (respects_warnExtraTokens hR _ _ _) fun _ => .pure _
      · exact .pure _

theorem respects_atEndIf (tail : List Token) : (atEndIf location tail p).Respects R := by
  rw [atEndIf]
  cases p.conditionals with
  | nil => exact respects_fail _ _
  | cons c outer =>
    dsimp only
    split
    · exact .bind (respects_warnExtraTokens hR _ _ _) fun _ => .pure _
    · exact .pure _

theorem respects_defineObject (name : Token) (replacement : List Token) :
    (defineObject file location name replacement).Respects R := by
  have hdefine : (updateMacros location
      (·.define ⟨name.text, .object, replacement⟩)).Respects R :=
    respects_updateMacros hR _ fun _ _ _ hst => hR.define hst
  rw [defineObject]
  split
  · split
    · exact (respects_warn hR _ _).bind fun _ => hdefine
    · exact hdefine
  · exact hdefine

theorem respects_warnUnterminatedComment (source : Bytes) (text : Source.Text) :
    (warnUnterminatedComment file source text).Respects R := by
  rw [warnUnterminatedComment]
  split
  · exact respects_warn hR _ _
  · exact .pure _

theorem respects_pragma (text : List Token) : (pragma file text).Respects R := by
  unfold pragma
  split
  · split
    · exact respects_modify fun _ _ hst => hR.once hst _
    · exact .pure _
  · exact .pure _

theorem respects_lineControl (lastLine : Nat) (operand : List Token) :
    (lineControl location lastLine operand p).Respects R := by
  rw [lineControl]
  refine (respects_expand hR _ _).bind fun tokens => ?_
  split
  · exact respects_fail _ _
  · exact .pure _

end

section

variable {session : Session} {nested : Option Inclusion}
  (hnested : ∀ run, nested = some run → ∀ file source, (run file source).Respects R)
include hnested

theorem respects_includeFile (file : SourceFile) (location : Location) (operand : List Token) :
    (includeFile session nested file location operand).Respects R := by
  have hoperand : (includeOperand file operand).Respects R := by
    rw [includeOperand]
    split
    · exact .pure _
    · exact respects_expand hR _ _
  rw [includeFile]
  refine hoperand.bind fun tokens => ?_
  split
  · exact respects_fail _ _
  · exact respects_fail _ _
  · next header run _ =>
    refine (respects_firstFile hR _ _).bind fun path => ?_
    split
    · exact respects_fail _ _
    · refine (respects_readFile hR _ _).bind fun r => ?_
      obtain ⟨included, contents⟩ := r
      refine .get_bind (fun s t hst => ?_) fun s => ?_
      · simp only [hR.once_eq hst]
      · split
        · exact .pure _
        · exact hnested run rfl _ contents

theorem respects_obey (directive : Directive) (location : Location) (lastLine : Nat)
    (p : Progress) : (obey session nested directive location lastLine p).Respects R := by
  have hdefined (name : Token) (outcome : Bool → List OutputLine × Progress) :
      (do return outcome ((← get).macros.isDefined name.text) : SessionM _).Respects R :=
    .get_bind (fun s t hst => by rw [hR.macros_eq hst]) fun _ => .pure _
  cases directive with
  | ifExpression expression => exact (respects_condition hR _ _ _).bind fun _ => .pure _
  | ifDefined name tail =>
    exact (respects_warnExtraTokens hR _ _ _).bind fun _ =>
      hdefined name fun holds => ([], p.push (.begin holds location))
  | ifNotDefined name tail =>
    exact (respects_warnExtraTokens hR _ _ _).bind fun _ =>
      hdefined name fun holds => ([], p.push (.begin (!holds) location))
  | elifExpression expression => exact (respects_atElif hR _ _ _).bind fun _ => .pure _
  | elseGroup tail => exact (respects_atElse hR _ _ _).bind fun _ => .pure _
  | endIf tail => exact (respects_atEndIf hR _ _ _).bind fun _ => .pure _
  | inclusion operand => exact (respects_includeFile hR hnested _ _ _).bind fun _ => .pure _
  | defineObject name replacement =>
    exact (respects_defineObject hR _ _ _ _).bind fun _ => .pure _
  | defineFunction name parameters variadic replacement =>
    exact (respects_updateMacros hR _ fun _ _ _ hst => hR.define hst).bind fun _ => .pure _
  | undefine name tail =>
    exact (respects_warnExtraTokens hR _ _ _).bind fun _ =>
      (respects_updateMacros hR _ fun _ _ _ hst => hR.undefine hst).bind fun _ => .pure _
  | line operand => exact (respects_lineControl hR _ _ _ _).bind fun _ => .pure _
  | error text => exact respects_fail _ _
  | pragma text => exact (respects_pragma hR _ _).bind fun _ => .pure _
  | null => exact .pure _
  | nonDirective text => exact respects_fail _ _

theorem respects_processDirective (hash : Token) (line : List Token) (p : Progress) :
    (processDirective session nested hash line p).Respects R := by
  rw [processDirective]
  split
  · split
    · exact respects_fail _ _
    · exact respects_obey hR hnested _ _ _ _
  · split
    · exact .pure _
    · exact .pure _

theorem respects_processLine (line : List Token) (p : Progress) :
    (processLine session nested line p).Respects R := by
  rw [processLine]
  split
  · exact .pure _
  · split
    · exact (respects_flush hR _).bind fun _ =>
        (respects_processDirective hR hnested _ _ _).bind fun _ => .pure _
    · split
      · exact .pure _
      · exact .pure _

theorem respects_processLines (lines : List (List Token)) (p : Progress) :
    (processLines session nested lines p).Respects R := by
  induction lines generalizing p with
  | nil => exact .pure _
  | cons line lines ih =>
    rw [processLines]
    exact (respects_processLine hR hnested _ _).bind fun _ => (ih _).bind fun _ => .pure _

theorem respects_processToEnd (lines : List (List Token)) (p : Progress) :
    (processToEnd session nested lines p).Respects R := by
  rw [processToEnd]
  refine (respects_processLines hR hnested _ _).bind fun _ => (respects_flush hR _).bind fun _ => ?_
  dsimp only
  split
  · exact .pure _
  · exact respects_fail _ _

theorem respects_processFile (file : SourceFile) (source : Bytes) :
    (processFile session nested file source).Respects R := by
  rw [processFile]
  exact (respects_warnUnterminatedComment hR _ _ _).bind fun _ =>
    respects_processToEnd hR hnested _ _

end

/-- **A session does the same with a source in related states.** -/
theorem respects_runSource (session : Session) (depth : Nat) (file : SourceFile) (source : Bytes) :
    (session.runSource depth file source).Respects R := by
  induction depth generalizing file source with
  | zero =>
    rw [runSource]
    exact respects_processFile hR (fun _ hrun => by cases hrun) file source
  | succ depth ih =>
    rw [runSource]
    refine respects_processFile hR (fun run hrun => ?_) file source
    obtain rfl := Option.some.inj hrun
    exact ih

theorem respects_inclusion (session : Session) (depth : Nat) (run : Inclusion)
    (hrun : session.inclusion depth = some run) (file : SourceFile) (source : Bytes) :
    (run file source).Respects R := by
  cases depth with
  | zero => cases hrun
  | succ depth =>
    cases hrun
    exact respects_runSource hR session depth file source

omit hR

/-! ## Reachable macros -/

/-- A state is the same as another one, with macros that directives lead to. -/
def SharesReachable (s t : State) : Prop := s = t ∧ s.macros.IsReachable

theorem isStable_sharesReachable : IsStable SharesReachable where
  macros_eq := by rintro s _ ⟨rfl, -⟩; rfl
  names_eq := by rintro s _ ⟨rfl, -⟩; rfl
  once_eq := by rintro s _ ⟨rfl, -⟩; rfl
  warnings := by rintro s _ ⟨rfl, h⟩ more; exact ⟨rfl, h⟩
  names := by rintro s _ ⟨rfl, h⟩ entry; exact ⟨rfl, h⟩
  once := by rintro s _ ⟨rfl, h⟩ paths; exact ⟨rfl, h⟩
  consulted := by rintro s _ ⟨rfl, h⟩ path; exact ⟨rfl, h⟩
  define := by rintro s _ ⟨rfl, h⟩ m macros hdefine; exact ⟨rfl, h.define hdefine⟩
  undefine := by rintro s _ ⟨rfl, h⟩ name macros hundefine; exact ⟨rfl, h.undefine hundefine⟩

/-- Directives lead from macros that they lead to, to such macros. -/
theorem isReachable_of_respects {α : Type} {x : SessionM α} (hx : x.Respects SharesReachable)
    {s : State} (h : s.macros.IsReachable) : (x.run.run s).2.macros.IsReachable :=
  (hx s s ⟨rfl, h⟩).2.2

end Session

end CPreprocessor
