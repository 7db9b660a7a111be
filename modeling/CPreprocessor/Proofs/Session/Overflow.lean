import CPreprocessor.Proofs.Session.Local
import CPreprocessor.Proofs.Session.OutputLines

/-!
# Numbers of lines that are too large

A session stops at once where it computes the number of a line that does not fit in 64 bits. Only
the expansion of macros computes such numbers, so a directive that fails for this reason has a token
on such a line (`Session.overflowsOnly_obey`), unless it includes a file in which this happens
(`Session.Visit.meetsOverflow_of_includeFile`). A run of a source stops so only if it comes to such
a line, in the source or in a file that it includes (`Session.meetsOverflow_of_runSource`).
-/

namespace CPreprocessor

open Source (normalize)

/-- Some of the tokens are on lines of the file whose numbers are too large. -/
def SourceFile.Overflows (file : SourceFile) (tokens : List Token) : Prop :=
  ∃ t ∈ tokens, ¬ IsInt64 (t.position.line + file.lineDelta)

theorem SourceFile.Overflows.subset {file : SourceFile} {tokens tokens' : List Token}
    (h : file.Overflows tokens) (hsubset : tokens ⊆ tokens') : file.Overflows tokens' :=
  h.imp fun _ => And.imp_left (hsubset ·)

namespace SessionM

open Session (State)

variable {α β : Type} {bad : Prop}

/-- A step fails because the number of a line is too large. -/
def Overflows (x : SessionM α) (s : State) : Prop :=
  ∃ location, x.outcome s = .error (.located location .lineOverflow)

/-- A step fails for this reason only under a condition. -/
def OverflowsOnly (bad : Prop) (x : SessionM α) : Prop := ∀ s, x.Overflows s → bad

/-- Of two steps the first one fails, or the second one does after it. -/
theorem Overflows.bind_cases {x : SessionM α} {k : α → SessionM β} {s : State}
    (h : (x >>= k).Overflows s) :
    x.Overflows s ∨ ∃ a s', x.Returns s a s' ∧ (k a).Overflows s' := by
  obtain ⟨location, h⟩ := h
  rw [outcome_bind] at h
  rcases hx : x.run.run s with ⟨fault | a, s'⟩
  · rw [hx] at h
    cases h
    exact .inl ⟨location, congrArg Prod.fst hx⟩
  · rw [hx] at h
    exact .inr ⟨a, s', hx, location, h⟩

theorem not_overflows_pure {a : α} {s : State} : ¬ (pure a : SessionM α).Overflows s :=
  fun ⟨_, h⟩ => by cases h

theorem not_overflows_fail {cause : Cause} (h : cause ≠ .lineOverflow) {location : Location}
    {s : State} : ¬ (fail cause location : SessionM α).Overflows s :=
  fun ⟨_, hfail⟩ => h (Fault.located.inj (Except.error.inj hfail)).2

theorem Overflows.of_bind_pure {x : SessionM α} {f : α → β} {s : State}
    (h : (x >>= fun a => pure (f a)).Overflows s) : x.Overflows s := by
  rcases h.bind_cases with h | ⟨_, _, _, h⟩
  · exact h
  · exact absurd h not_overflows_pure

theorem OverflowsOnly.bind {x : SessionM α} {k : α → SessionM β} (hx : OverflowsOnly bad x)
    (hk : ∀ a, OverflowsOnly bad (k a)) : OverflowsOnly bad (x >>= k) := by
  intro s h
  rcases h.bind_cases with h | ⟨a, s', -, h⟩
  · exact hx s h
  · exact hk a s' h

theorem overflowsOnly_pure (a : α) : OverflowsOnly bad (pure a : SessionM α) :=
  fun _ h => absurd h not_overflows_pure

theorem overflowsOnly_fail {cause : Cause} (h : cause ≠ .lineOverflow) (location : Location) :
    OverflowsOnly bad (fail cause location : SessionM α) :=
  fun _ hfail => absurd hfail (not_overflows_fail h)

theorem overflowsOnly_fail_bind {cause : Cause} (h : cause ≠ .lineOverflow) (location : Location)
    (k : α → SessionM β) : OverflowsOnly bad (fail cause location >>= k) :=
  fun _ ⟨_, hfail⟩ => absurd (Fault.located.inj (Except.error.inj hfail)).2 h

theorem overflowsOnly_get : OverflowsOnly bad (get : SessionM State) := fun _ ⟨_, h⟩ => by cases h

theorem overflowsOnly_modify (f : State → State) :
    OverflowsOnly bad (modify f : SessionM PUnit) := fun _ ⟨_, h⟩ => by cases h

theorem overflowsOnly_warn (location : Location) (cause : WarningCause) :
    OverflowsOnly bad (warn location cause) := overflowsOnly_modify _

theorem overflowsOnly_ofExcept {result : Except Fault α}
    (h : FailsOnly (· = .lineOverflow → bad) result) : OverflowsOnly bad (ofExcept result) := by
  cases result with
  | ok a => exact overflowsOnly_pure a
  | error fault =>
    rintro s ⟨location, hfault⟩
    cases hfault
    obtain ⟨_, _, heq, hbad⟩ := h _ rfl
    exact hbad (Fault.located.inj heq).2.symm

theorem overflowsOnly_ofDiagnosed {computation : Diagnosed α}
    (h : Diagnosed.FailsOnly (· = .lineOverflow → bad) computation) :
    OverflowsOnly bad (ofDiagnosed computation) := by
  rw [ofDiagnosed]
  exact (overflowsOnly_modify _).bind fun _ => overflowsOnly_ofExcept (h [])

/-- The table is changed without that. -/
theorem overflowsOnly_updateMacros (location : Location)
    {change : MacroTable → Except Cause MacroTable}
    (h : ∀ table, Avoids (·.isRefusal = false) (change table)) :
    OverflowsOnly bad (updateMacros location change) := by
  refine overflowsOnly_get.bind fun s => ?_
  split
  · exact overflowsOnly_modify _
  · next cause hcause =>
    refine overflowsOnly_fail ?_ location
    rintro rfl
    exact h _ _ hcause rfl

theorem overflowsOnly_firstFile (files : FileSystem) (paths : List Path) :
    OverflowsOnly bad (firstFile files paths) := by
  induction paths with
  | nil => exact overflowsOnly_pure none
  | cons path rest ih =>
    rw [firstFile]
    refine (overflowsOnly_modify _).bind fun _ => ?_
    split
    · exact overflowsOnly_pure _
    · exact ih

theorem overflowsOnly_readFile (files : FileSystem) (path : Path) :
    OverflowsOnly bad (readFile files path) := by
  rw [readFile]
  refine (overflowsOnly_modify _).bind fun _ => ?_
  split
  · rintro s ⟨_, h⟩
    cases h
  · refine overflowsOnly_get.bind fun s => ?_
    split
    · exact overflowsOnly_pure _
    · exact (overflowsOnly_modify _).bind fun _ => overflowsOnly_pure _

theorem failsOnly_expand_of_overflows (file : SourceFile) (macros : MacroTable)
    (tokens : List Token) :
    FailsOnly (· = .lineOverflow → file.Overflows tokens)
      ((file.expander macros).expand tokens) := by
  refine (Expander.failsOnly_expand _ tokens).mono fun cause h => ?_
  rintro rfl
  cases h with
  | lineOverflow h => exact h

/-- Macros are expanded without that if the tokens are not on such lines. -/
theorem overflowsOnly_expand (file : SourceFile) (tokens : List Token) :
    OverflowsOnly (file.Overflows tokens) (expand file tokens) :=
  overflowsOnly_get.bind fun _ =>
    overflowsOnly_ofExcept (failsOnly_expand_of_overflows file _ tokens)

end SessionM

namespace Session

open SessionM

variable {session : Session} {nested : Option Inclusion} {file : SourceFile} {location : Location}
  {p : Progress} {bad : Prop}

/-! ## Directives -/

theorem overflowsOnly_warnExtraTokens (directive : String) (tail : List Token) :
    OverflowsOnly bad (warnExtraTokens file directive tail) := by
  rw [warnExtraTokens]
  split
  · exact overflowsOnly_warn _ _
  · exact overflowsOnly_pure _

theorem overflowsOnly_warnUnterminatedComment (source : Bytes) (text : Source.Text) :
    OverflowsOnly bad (warnUnterminatedComment file source text) := by
  rw [warnUnterminatedComment]
  split
  · exact overflowsOnly_warn _ _
  · exact overflowsOnly_pure _

theorem overflowsOnly_condition (tokens : List Token) :
    OverflowsOnly (file.Overflows tokens) (condition file location tokens) := by
  refine overflowsOnly_get.bind fun s => overflowsOnly_ofDiagnosed ?_
  refine Condition.failsOnly_holds nofun (fun cause h => ?_) nofun nofun location
    fun _ tree _ _ => (Expression.failsOnly_evaluate location tree true).mono fun cause h => ?_
  · rintro rfl
    cases h with
    | lineOverflow h => exact h
  · rintro rfl
    cases h

theorem overflowsOnly_atElif (expression : List Token) :
    OverflowsOnly (p.file.Overflows expression) (atElif location expression p) := by
  rw [atElif]
  cases p.conditionals with
  | nil => exact overflowsOnly_fail (by simp) location
  | cons c outer =>
    obtain ⟨state, seenElse, opened⟩ := c
    cases seenElse with
    | true => exact overflowsOnly_fail_bind (by simp) location _
    | false =>
      cases state with
      | waiting =>
        refine (overflowsOnly_condition _).bind fun holds => ?_
        cases holds with
        | true => exact overflowsOnly_pure _
        | false => exact overflowsOnly_pure _
      | _ => exact overflowsOnly_pure _

theorem overflowsOnly_atElse (tail : List Token) : OverflowsOnly bad (atElse location tail p) := by
  rw [atElse]
  cases p.conditionals with
  | nil => exact overflowsOnly_fail (by simp) location
  | cons c outer =>
    obtain ⟨state, seenElse, opened⟩ := c
    cases seenElse with
    | true => exact overflowsOnly_fail_bind (by simp) location _
    | false =>
      simp only [Bool.false_eq_true, if_false]
      split
      · exact (overflowsOnly_warnExtraTokens _ _).bind fun _ => overflowsOnly_pure _
      · exact overflowsOnly_pure _

theorem overflowsOnly_atEndIf (tail : List Token) :
    OverflowsOnly bad (atEndIf location tail p) := by
  rw [atEndIf]
  cases p.conditionals with
  | nil => exact overflowsOnly_fail (by simp) location
  | cons c outer =>
    dsimp only
    split
    · exact (overflowsOnly_warnExtraTokens _ _).bind fun _ => overflowsOnly_pure _
    · exact overflowsOnly_pure _

theorem overflowsOnly_defineObject (name : Token) (replacement : List Token) :
    OverflowsOnly bad (defineObject file location name replacement) := by
  have hdefine : OverflowsOnly bad
      (updateMacros location (·.define ⟨name.text, .object, replacement⟩)) :=
    overflowsOnly_updateMacros location fun table => table.avoids_define _
  rw [defineObject]
  split
  · split
    · exact (overflowsOnly_warn _ _).bind fun _ => hdefine
    · exact hdefine
  · exact hdefine

theorem overflowsOnly_pragma (text : List Token) : OverflowsOnly bad (pragma file text) := by
  unfold pragma
  split
  · split
    · exact overflowsOnly_modify _
    · exact overflowsOnly_pure _
  · exact overflowsOnly_pure _

theorem overflowsOnly_lineControl (lastLine : Nat) (operand : List Token) :
    OverflowsOnly (p.file.Overflows operand) (lineControl location lastLine operand p) := by
  refine (overflowsOnly_expand _ _).bind fun tokens => ?_
  split
  · exact overflowsOnly_fail (by simp) location
  · exact overflowsOnly_pure _

/-- **A directive computes numbers of lines only where macros are expanded in it.** -/
theorem overflowsOnly_obey {directive : Directive}
    (hinclusion : ∀ operand, directive ≠ .inclusion operand) (lastLine : Nat) :
    OverflowsOnly (p.file.Overflows directive.expanded)
      (obey session nested directive location lastLine p) := by
  cases directive with
  | ifExpression expression =>
    exact (overflowsOnly_condition _).bind fun _ => overflowsOnly_pure _
  | ifDefined name tail | ifNotDefined name tail =>
    exact (overflowsOnly_warnExtraTokens _ _).bind fun _ =>
      overflowsOnly_get.bind fun _ => overflowsOnly_pure _
  | elifExpression expression =>
    exact (overflowsOnly_atElif _).bind fun _ => overflowsOnly_pure _
  | elseGroup tail => exact (overflowsOnly_atElse _).bind fun _ => overflowsOnly_pure _
  | endIf tail => exact (overflowsOnly_atEndIf _).bind fun _ => overflowsOnly_pure _
  | inclusion operand => exact absurd rfl (hinclusion operand)
  | defineObject name replacement =>
    exact (overflowsOnly_defineObject _ _).bind fun _ => overflowsOnly_pure _
  | defineFunction name parameters variadic replacement =>
    exact (overflowsOnly_updateMacros _ fun table => table.avoids_define _).bind fun _ =>
      overflowsOnly_pure _
  | undefine name tail =>
    exact (overflowsOnly_warnExtraTokens _ _).bind fun _ =>
      (overflowsOnly_updateMacros _ fun table => table.avoids_undefine _).bind fun _ =>
        overflowsOnly_pure _
  | line operand => exact (overflowsOnly_lineControl _ _).bind fun _ => overflowsOnly_pure _
  | error text => exact overflowsOnly_fail (by simp) location
  | pragma text => exact (overflowsOnly_pragma _).bind fun _ => overflowsOnly_pure _
  | null => exact overflowsOnly_pure _
  | nonDirective text => exact overflowsOnly_fail (by simp) location

/-! ## Included files -/

theorem overflowsOnly_includeOperand (operand : List Token) :
    OverflowsOnly (file.Overflows operand) (includeOperand file operand) := by
  rw [includeOperand]
  split
  · exact overflowsOnly_pure _
  · exact overflowsOnly_expand _ _

/-- Where no files may be included, an `#include` does no more than that. -/
theorem overflowsOnly_includeFile_none (operand : List Token) :
    OverflowsOnly (file.Overflows operand) (includeFile session none file location operand) := by
  refine (overflowsOnly_includeOperand operand).bind fun tokens => ?_
  split
  · exact overflowsOnly_fail (by simp) location
  · exact overflowsOnly_fail (by simp) location
  · contradiction

/-- The file that an `#include` leads to, unless it is not to be included again. -/
def included (session : Session) (file : SourceFile) (location : Location) (operand : List Token) :
    SessionM (Option (SourceFile × Bytes)) := do
  match HeaderName.ofTokens (← includeOperand file operand) with
  | none => fail .invalidInclude location
  | some header =>
    match ← firstFile session.files (header.candidates file session.config) with
    | none => fail (.includeNotFound header.text) location
    | some path => do
      let (file, contents) ← readFile session.files path
      if file.path.any (· ∈ (← get).once) then return none
      return some ({ file with directory := file.path.bind Path.parent }, contents)

theorem includeFile_eq (run : Inclusion) (operand : List Token) :
    includeFile session (some run) file location operand = (do
      match ← session.included file location operand with
      | none => return []
      | some (file, contents) => run file contents) := by
  simp only [includeFile, included, bind_assoc]
  refine bind_congr fun tokens => ?_
  cases HeaderName.ofTokens tokens with
  | none => rfl
  | some header =>
    simp only [bind_assoc]
    refine bind_congr fun path => ?_
    cases path with
    | none => rfl
    | some path =>
      simp only [bind_assoc]
      refine bind_congr fun source => bind_congr fun s => ?_
      split <;> rfl

theorem overflowsOnly_included (operand : List Token) :
    OverflowsOnly (file.Overflows operand) (session.included file location operand) := by
  refine (overflowsOnly_includeOperand operand).bind fun tokens => ?_
  split
  · exact overflowsOnly_fail (by simp) location
  · refine (overflowsOnly_firstFile _ _).bind fun path => ?_
    split
    · exact overflowsOnly_fail (by simp) location
    · refine (overflowsOnly_readFile _ _).bind fun source => overflowsOnly_get.bind fun s => ?_
      split
      · exact overflowsOnly_pure _
      · exact overflowsOnly_pure _

theorem lineDelta_of_readFile {files : FileSystem} {path : Path} {contents : Bytes} {s s' : State}
    (h : (readFile files path).Returns s (file, contents) s') : file.lineDelta = 0 := by
  rw [readFile] at h
  obtain ⟨_, _, _, h⟩ := h.exists_of_bind
  split at h
  · cases h
  · obtain ⟨_, _, _, h⟩ := h.exists_of_bind
    split at h
    · cases h
      rfl
    · obtain ⟨_, _, _, h⟩ := h.exists_of_bind
      cases h
      rfl

/-- The lines of an included file are numbered anew. -/
theorem lineDelta_of_included {operand : List Token} {included : SourceFile} {contents : Bytes}
    {s s' : State} (h : (session.included file location operand).Returns s
      (some (included, contents)) s') : included.lineDelta = 0 := by
  obtain ⟨_, _, _, h⟩ := h.exists_of_bind
  split at h
  · cases h
  · obtain ⟨_, _, _, h⟩ := h.exists_of_bind
    split at h
    · cases h
    · obtain ⟨⟨read, _⟩, _, hread, h⟩ := h.exists_of_bind
      obtain ⟨_, _, _, h⟩ := h.exists_of_bind
      have hzero := lineDelta_of_readFile hread
      split at h
      · cases h
      · cases h
        exact hzero

/-! ## Runs -/

/-- A line of a source that a run comes to, in whatever group. -/
structure Visit (session : Session) (depth : Nat) (file : SourceFile) (source : Bytes)
    (s : State) where
  before : List (List Token)
  line : List Token
  after : List (List Token)
  lines_eq : Token.linesOf source (normalize source session.config.replaceTrigraphs) =
    before ++ line :: after
  progress : Progress
  state : State
  comesTo : ComesTo session depth file source s before progress state

/-- A line includes a file, which is read in some state. -/
def Visit.Includes {depth : Nat} {source : Bytes} {s : State}
    (v : Visit session depth file source s) (included : SourceFile) (contents : Bytes)
    (s' : State) : Prop :=
  ∃ hash operand, v.line.head? = some hash ∧
    Directive.ofTokens v.line = some (.inclusion operand) ∧
    (session.included v.progress.file (v.progress.file.locationOf hash) operand).Returns v.state
      (some (included, contents)) s'

/-- A run comes to a line with too large a number, in the source or in a file that it includes. -/
inductive MeetsOverflow (session : Session) : Nat → SourceFile → Bytes → State → Prop
  | line {depth : Nat} {file : SourceFile} {source : Bytes} {s : State}
      (v : Visit session depth file source s) (h : v.progress.file.Overflows v.line) :
      MeetsOverflow session depth file source s
  | included {depth : Nat} {file : SourceFile} {source : Bytes} {s : State}
      (v : Visit session (depth + 1) file source s) {included : SourceFile} {contents : Bytes}
      {s' : State} (hincludes : v.Includes included contents s')
      (h : MeetsOverflow session depth included contents s') :
      MeetsOverflow session (depth + 1) file source s

/-- Where files are included, their runs stop only at such lines. -/
def NestedMeetsOverflow (session : Session) (depth : Nat) : Prop :=
  ∀ d, depth = d + 1 → ∀ included contents s',
    (session.runSource d included contents).Overflows s' →
      MeetsOverflow session d included contents s'

section

variable {depth : Nat} {source : Bytes} {s s' : State} {lines later : List (List Token)}

theorem ComesTo.append_line {line : List Token} {output : List OutputLine} {q : Progress}
    {s'' : State} (h : ComesTo session depth file source s lines p s')
    (hline : (processLine session (session.inclusion depth) line p).Returns s' (output, q) s'') :
    ComesTo session depth file source s (lines ++ [line]) q s'' := by
  obtain ⟨_, h⟩ := h
  obtain ⟨_, _, hwarn, hlines⟩ := h.exists_of_bind
  rw [← processLines_singleton] at hline
  rw [ComesTo, processLines_append]
  exact ⟨_, hwarn.bind (hlines.bind (hline.bind rfl))⟩

/-- The file is the same for all text that is gathered. -/
theorem ComesTo.exists_visit_of_mem_pending (h : ComesTo session depth file source s lines p s')
    (hlines : Token.linesOf source (normalize source session.config.replaceTrigraphs) =
      lines ++ later) {line : List Token} (hline : line ∈ p.pending) :
    ∃ v : Visit session depth file source s, v.line = line ∧ v.progress.file = p.file := by
  induction lines using List.reverseRecOn generalizing p s' later with
  | nil =>
    obtain ⟨_, h⟩ := h
    obtain ⟨_, _, _, h⟩ := h.exists_of_bind
    cases h
    cases hline
  | append_singleton lines last ih =>
    rw [List.append_assoc, List.singleton_append] at hlines
    obtain ⟨q, s'', output, hbefore, hlast⟩ := h.exists_of_append
    rw [processLines_singleton] at hlast
    have hfile : p.file = q.file := by
      refine file_of_processLine (fun _ operand hcontrol => ?_) hlast
      rw [pending_eq_nil_of_isHash hcontrol.isHash hlast] at hline
      cases hline
    rw [hfile]
    rcases pending_of_processLine hlast with hnil | hsame | ⟨-, hcons⟩
    · rw [hnil] at hline
      cases hline
    · exact ih hbefore hlines (hsame ▸ hline)
    · rw [hcons] at hline
      rcases List.mem_cons.1 hline with rfl | hline
      · exact ⟨⟨lines, line, later, hlines, q, s'', hbefore⟩, rfl, rfl⟩
      · exact ih hbefore hlines hline

theorem overflowsOnly_processText (file : SourceFile) (lines : List (List Token)) :
    OverflowsOnly (file.Overflows lines.flatten) (processText file lines) :=
  (overflowsOnly_expand _ _).bind fun _ => overflowsOnly_pure _

/-- The text that is gathered is on lines that the run came to. -/
theorem ComesTo.meetsOverflow_of_processText (h : ComesTo session depth file source s lines p s')
    (hlines : Token.linesOf source (normalize source session.config.replaceTrigraphs) =
      lines ++ later) {s'' : State}
    (htext : (processText p.file p.pending.reverse).Overflows s'') :
    MeetsOverflow session depth file source s := by
  obtain ⟨t, ht, hoverflow⟩ := overflowsOnly_processText _ _ _ htext
  obtain ⟨line, hline, ht⟩ := List.mem_flatten.1 ht
  obtain ⟨v, rfl, hfile⟩ := h.exists_visit_of_mem_pending hlines (List.mem_reverse.1 hline)
  exact .line v ⟨t, ht, hfile ▸ hoverflow⟩

section

variable (hnested : NestedMeetsOverflow session depth)
include hnested

theorem Visit.meetsOverflow_of_includeFile (v : Visit session depth file source s) {hash : Token}
    {operand : List Token} (hhash : v.line.head? = some hash)
    (hread : Directive.ofTokens v.line = some (.inclusion operand))
    (h : (includeFile session (session.inclusion depth) v.progress.file
      (v.progress.file.locationOf hash) operand).Overflows v.state) :
    MeetsOverflow session depth file source s := by
  have hoperand (h : v.progress.file.Overflows operand) :
      MeetsOverflow session depth file source s :=
    .line v (h.subset (Directive.expanded_subset hread))
  cases depth with
  | zero => exact hoperand (overflowsOnly_includeFile_none operand _ h)
  | succ depth =>
    rw [inclusion, includeFile_eq] at h
    rcases h.bind_cases with h | ⟨found, s', hfound, h⟩
    · exact hoperand (overflowsOnly_included operand _ h)
    · cases found with
      | none => exact absurd h not_overflows_pure
      | some source =>
        exact .included v ⟨hash, operand, hhash, hread, hfound⟩ (hnested depth rfl _ _ _ h)

theorem Visit.meetsOverflow_of_processDirective (v : Visit session depth file source s)
    {hash : Token} (hhash : v.line.head? = some hash) (hfile : p.file = v.progress.file)
    (h : (processDirective session (session.inclusion depth) hash v.line p).Overflows v.state) :
    MeetsOverflow session depth file source s := by
  rw [processDirective] at h
  split at h
  · cases hread : Directive.ofTokens v.line with
    | none =>
      rw [hread] at h
      exact absurd h (not_overflows_fail (by simp))
    | some directive =>
      rw [hread, hfile] at h
      by_cases hinclusion : ∃ operand, directive = .inclusion operand
      · obtain ⟨operand, rfl⟩ := hinclusion
        exact v.meetsOverflow_of_includeFile hnested hhash hread (hfile ▸ h.of_bind_pure)
      · have hexpanded := overflowsOnly_obey (fun operand heq => hinclusion ⟨operand, heq⟩) _ _ h
        exact .line v (hfile ▸ hexpanded.subset (Directive.expanded_subset hread))
  · split at h
    · exact absurd h not_overflows_pure
    · exact absurd h not_overflows_pure

/-- A line fails so only at text that was gathered before it or at a directive that it is. -/
theorem Visit.meetsOverflow_of_processLine (v : Visit session depth file source s)
    (h : (processLine session (session.inclusion depth) v.line v.progress).Overflows v.state) :
    MeetsOverflow session depth file source s := by
  rw [processLine] at h
  cases hhead : v.line.head? with
  | none =>
    rw [hhead] at h
    exact absurd h not_overflows_pure
  | some first =>
    rw [hhead] at h
    dsimp only at h
    split at h
    · rw [flush_eq] at h
      simp only [bind_assoc, pure_bind] at h
      rcases h.bind_cases with h | ⟨_, _, htext, h⟩
      · exact v.comesTo.meetsOverflow_of_processText v.lines_eq h
      · obtain ⟨_, _, hexpand, hreturn⟩ := htext.exists_of_bind
        cases hreturn
        obtain ⟨-, rfl⟩ := hexpand.eq_ok_of_expand
        exact v.meetsOverflow_of_processDirective (p := { v.progress with pending := [] }) hnested
          hhead rfl h.of_bind_pure
    · split at h
      · exact absurd h not_overflows_pure
      · exact absurd h not_overflows_pure

theorem ComesTo.meetsOverflow_of_processToEnd
    (h : ComesTo session depth file source s lines p s')
    (hlines : Token.linesOf source (normalize source session.config.replaceTrigraphs) =
      lines ++ later)
    (hrest : (processToEnd session (session.inclusion depth) later p).Overflows s') :
    MeetsOverflow session depth file source s := by
  induction later generalizing lines p s' with
  | nil =>
    rw [processToEnd_nil] at hrest
    rcases hrest.bind_cases with htext | ⟨_, _, _, hrest⟩
    · exact h.meetsOverflow_of_processText hlines htext
    · cases hconditionals : p.conditionals with
      | nil =>
        rw [hconditionals] at hrest
        exact absurd hrest not_overflows_pure
      | cons c outer =>
        rw [hconditionals] at hrest
        exact absurd hrest (not_overflows_fail (by simp))
  | cons line later ih =>
    rw [processToEnd_cons] at hrest
    rcases hrest.bind_cases with hline | ⟨⟨output, q⟩, s'', hline, hrest⟩
    · exact Visit.meetsOverflow_of_processLine hnested ⟨lines, line, later, hlines, p, s', h⟩ hline
    · exact ih (h.append_line hline) (by rw [hlines, List.append_cons]) hrest.of_bind_pure

theorem meetsOverflow_of_nested
    (h : (session.runSource depth file source).Overflows s) :
    MeetsOverflow session depth file source s := by
  rw [runSource_eq, processFile] at h
  rcases h.bind_cases with h | ⟨_, s', hwarn, h⟩
  · exact (overflowsOnly_warnUnterminatedComment _ _ _ h : False).elim
  · have hstart : ComesTo session depth file source s [] { file } s' := ⟨[], hwarn.bind rfl⟩
    exact hstart.meetsOverflow_of_processToEnd hnested rfl h

end

/-- **A run stops only at a line with too large a number**, in the source or in a file that it
includes. -/
theorem meetsOverflow_of_runSource (h : (session.runSource depth file source).Overflows s) :
    MeetsOverflow session depth file source s := by
  induction depth generalizing file source s with
  | zero => exact meetsOverflow_of_nested nofun h
  | succ depth ih =>
    refine meetsOverflow_of_nested (fun d hd included contents s' h => ?_) h
    obtain rfl := Nat.succ.inj hd
    exact ih h

end

end Session

end CPreprocessor
