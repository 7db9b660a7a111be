import CPreprocessor.Proofs.Macro.WellFormed
import CPreprocessor.Proofs.Session.Adequacy

/-!
# Histories of sessions

Whatever a session is asked to preprocess, and whether or not it succeeds, at all times its ids are
those of its sources, the files on its stack are stored, its macros are such as directives lead to,
and the stack is no deeper than it may be (`Session.Machine.History.isSound`), and what is stored
stays (`Session.Machine.History.grow`). The states of a session are those that its histories lead to
(`Session.Machine.exists_history_stateAfter`).

In particular, the macros are well-formed at all times. Between requests, they are so even if the
files are not always the same.
-/

namespace CPreprocessor.Session

open SessionM

/-- The state after some requests, in order, be they successful or not. Each of them may find other
files. -/
def stateAfter (session : Session) (requests : List (FileSystem × Request)) : State :=
  requests.foldl (fun s r => ((r.2.perform { session with files := r.1 }).run.run s).2)
    (session.start.run.run {}).2

namespace Machine

variable {session : Session} {frame : Frame} {outer : List Frame} {output : List OutputLine}
  {m m' : Memory} {a b : Moment} {past moments : List Moment}

/-! ## Beginnings -/

/-- What a request begins with. -/
inductive Begins (session : Session) (m : Memory) : Moment → Prop
  | fails {problem : FileProblem} {m' : Memory} (hmacros : m'.macros = m.macros)
      (hsources : m'.sources = m.sources) (honce : m'.once = m.once) :
      Begins session m (.done (.error (.unreadable problem)) m')
  | enters {frame : Frame} {m' : Memory} (hmacros : m'.macros = m.macros)
      (hsources : m'.sources.IsSound session.files)
      (hgrow : m.sources.files <+: m'.sources.files) (honce : m'.once = m.once)
      (hframe : frame.IsStored m'.sources) : Begins session m (.running frame [] [] m')

/-- **Every request begins with one of these.** -/
theorem begins_begin (hm : m.IsSound session.files) (request : Request) :
    Begins session m (begin session m request) := by
  cases request with
  | text name source =>
    obtain ⟨frame, warnings, henter, hid, hpath⟩ := exists_enter_eq session m.sources.files.length
      none [] [] { m with sources := (m.sources.store name source).2 }
    have hlt : frame.id < (m.sources.store name source).2.files.length := by
      simp [hid, SourceMap.store]
    rw [show begin session m (.text name source) = _ from henter]
    exact .enters rfl (SourceMap.isSound_store hm.sources name source)
      (SourceMap.prefix_of_store _ _ _) rfl ⟨hlt, hid ▸ hpath⟩
  | file path =>
    rw [begin, readSource]
    dsimp only
    split
    · exact .fails rfl rfl rfl
    · next id sources hread =>
      obtain ⟨frame, warnings, henter, hid, hpath⟩ := exists_enter_eq session id path.parent [] []
        { m with sources, consulted := path :: m.consulted }
      obtain ⟨_, -, hlt, -⟩ := SourceMap.load_of_read hm.sources hread
      rw [henter]
      exact .enters rfl (SourceMap.isSound_read hm.sources hread) (SourceMap.prefix_of_read hread)
        rfl ⟨hid ▸ hlt, hid ▸ hpath⟩

/-! ## What is true at all times -/

namespace Moment

/-- The files that are being processed, the innermost one first. -/
def frames : Moment → List Frame
  | .running frame outer _ _ => frame :: outer
  | .done _ _ => []

/-- What is true of a session at all times. -/
structure IsSound (session : Session) (a : Moment) : Prop where
  memory : a.memory.IsSound session.files
  frames : ∀ frame ∈ a.frames, frame.IsStored a.memory.sources
  macros : a.memory.macros.IsReachable
  depth_le : a.depth ≤ session.config.maximumDepth

end Moment

theorem isSound_of_begins (hm : m.IsSound session.files) (hmacros : m.macros.IsReachable)
    (h : Begins session m a) : a.IsSound session := by
  cases h with
  | fails hmacros' hsources honce =>
    exact ⟨⟨hsources ▸ hm.sources, by simpa only [Moment.memory, honce, hsources] using hm.once_lt⟩,
      nofun, hmacros' ▸ hmacros, Nat.zero_le _⟩
  | enters hmacros' hsources hgrow honce hframe =>
    refine ⟨⟨hsources, fun id hid => ?_⟩, List.forall_mem_singleton.2 hframe,
      hmacros' ▸ hmacros, Nat.zero_le _⟩
    exact (hm.once_lt id (honce ▸ hid)).trans_le hgrow.length_le

theorem isSound_first (session : Session) : (first session).IsSound session := by
  rw [first]
  split
  · exact ⟨Memory.isSound_empty _, List.forall_mem_nil _, .predefined, Nat.zero_le _⟩
  · have hempty := Memory.isSound_empty session.files
    exact isSound_of_begins hempty .predefined (begins_begin hempty _)

theorem grow_of_begins (h : Begins session m a) :
    m.sources.files <+: a.memory.sources.files := by
  cases h with
  | fails _ hsources _ => exact hsources ▸ List.prefix_rfl
  | enters _ _ hgrow _ _ => exact hgrow

/-- A step stores sources, and what is stored stays. -/
theorem grow_step (h : Step session frame outer output m b) :
    m.sources.files <+: b.memory.sources.files := by
  cases h with
  | fails _ _ hsources _ => exact hsources ▸ List.prefix_rfl
  | goesOn _ _ _ hsources _ => exact hsources ▸ List.prefix_rfl
  | skips _ _ hread _ => exact SourceMap.prefix_of_read hread
  | enters _ _ hread _ _ _ _ _ => exact SourceMap.prefix_of_read hread
  | _ => exact List.prefix_rfl

/-- **A step keeps what is true of a session at all times.** -/
theorem isSound_step (h : (Moment.running frame outer output m).IsSound session)
    (hstep : Step session frame outer output m b) : b.IsSound session := by
  obtain ⟨hm, hframes, hmacros, hdepth⟩ := h
  obtain ⟨hframe, houter⟩ := List.forall_mem_cons.1 hframes
  have hgrow := grow_step hstep
  cases hstep with
  | fails _ hmacros' hsources honce =>
    exact ⟨⟨hsources ▸ hm.sources, by simpa only [Moment.memory, honce, hsources] using hm.once_lt⟩,
      nofun, hmacros' ▸ hmacros, Nat.zero_le _⟩
  | tooDeep _ _ => exact ⟨hm, nofun, hmacros, Nat.zero_le _⟩
  | goesOn _ hpath hmacros' hsources honce =>
    refine ⟨⟨hsources ▸ hm.sources, by
      simpa only [Moment.memory, honce, hsources] using hm.once_lt⟩, ?_, hmacros' hmacros, hdepth⟩
    rw [Moment.memory, hsources]
    exact List.forall_mem_cons.2 ⟨⟨hframe.id_lt, hpath.trans hframe.path_eq⟩, houter⟩
  | once _ =>
    exact ⟨⟨hm.sources, List.forall_mem_cons.2 ⟨hframe.id_lt, hm.once_lt⟩⟩,
      List.forall_mem_cons.2 ⟨⟨hframe.id_lt, hframe.path_eq⟩, houter⟩, hmacros, hdepth⟩
  | skips _ _ hread _ =>
    refine ⟨⟨SourceMap.isSound_read hm.sources hread, fun id hid =>
      (hm.once_lt id hid).trans_le hgrow.length_le⟩, ?_, hmacros, hdepth⟩
    exact List.forall_mem_cons.2 ⟨⟨(hframe.mono hgrow).id_lt, (hframe.mono hgrow).path_eq⟩,
      fun frame hmem => (houter frame hmem).mono hgrow⟩
  | enters _ hlt hread _ hincluded hpath hmacros' honce =>
    obtain ⟨_, -, hid, -⟩ := SourceMap.load_of_read hm.sources hread
    refine ⟨⟨SourceMap.isSound_read hm.sources hread, fun id hmem =>
      (hm.once_lt id (honce ▸ hmem)).trans_le hgrow.length_le⟩, ?_, hmacros' ▸ hmacros, hlt⟩
    exact List.forall_mem_cons.2 ⟨⟨hincluded ▸ hid, hincluded ▸ hpath⟩, List.forall_mem_cons.2
      ⟨⟨(hframe.mono hgrow).id_lt, (hframe.mono hgrow).path_eq⟩,
        fun frame hmem => (houter frame hmem).mono hgrow⟩⟩
  | returns heq =>
    subst heq
    exact ⟨hm, houter, hmacros, Nat.le_of_succ_le hdepth⟩
  | ends _ => exact ⟨hm, nofun, hmacros, Nat.zero_le _⟩

namespace History

/-- **What is true of a session at all times.** -/
theorem isSound (h : History session moments) : ∀ a ∈ moments, a.IsSound session := by
  induction h with
  | start => exact List.forall_mem_singleton.2 (isSound_first session)
  | step _ ih =>
    exact List.forall_mem_cons.2 ⟨isSound_step (List.forall_mem_cons.1 ih).1 (step_step ..), ih⟩
  | request _ request ih =>
    obtain ⟨hm, -, hmacros, -⟩ := (List.forall_mem_cons.1 ih).1
    exact List.forall_mem_cons.2 ⟨isSound_of_begins hm hmacros (begins_begin hm request), ih⟩

theorem isSound_done {result : Except Fault (List OutputLine)}
    (h : History session (.done result m :: past)) : m.IsSound session.files :=
  (h.isSound _ List.mem_cons_self).memory

theorem isSound_running (h : History session (.running frame outer output m :: past)) :
    (Moment.running frame outer output m).IsSound session :=
  h.isSound _ List.mem_cons_self

/-- What was stored stays stored. -/
theorem grow (h : History session moments) :
    moments.Pairwise fun a b => b.memory.sources.files <+: a.memory.sources.files := by
  induction h with
  | start => exact List.pairwise_singleton _ _
  | @step frame outer output m past h ih =>
    have hgrow := grow_step (step_step session frame outer output m)
    refine List.pairwise_cons.2 ⟨List.forall_mem_cons.2 ⟨hgrow, fun b hb => ?_⟩, ih⟩
    exact ((List.pairwise_cons.1 ih).1 b hb).trans hgrow
  | @request result m past h request ih =>
    have hgrow := grow_of_begins (begins_begin h.isSound_done request)
    refine List.pairwise_cons.2 ⟨List.forall_mem_cons.2 ⟨hgrow, fun b hb => ?_⟩, ih⟩
    exact ((List.pairwise_cons.1 ih).1 b hb).trans hgrow

/-- A history can be gone on with. -/
theorem exists_of_reaches (h : History session (a :: past)) (hab : Reaches session a b) :
    ∃ past', History session (b :: past') ∧ a :: past <:+ b :: past' := by
  obtain ⟨n, rfl⟩ := hab
  induction n generalizing a past with
  | zero => exact ⟨past, h, List.suffix_rfl⟩
  | succ n ih =>
    cases a with
    | running frame outer output m =>
      obtain ⟨past', h', hsuffix⟩ := ih h.step
      exact ⟨past', h', (List.suffix_cons _ _).trans hsuffix⟩
    | done result m => exact ih h

end History

/-! ## States -/

/-- **The states of a session with the same files all the time are those that its histories lead
to.** -/
theorem exists_history_stateAfter (session : Session) (requests : List Request) :
    ∃ result m past, History session (.done result m :: past) ∧
      m.toState = session.stateAfter (requests.map (session.files, ·)) := by
  induction requests using List.reverseRecOn with
  | nil =>
    obtain ⟨result, m, hreaches, -, hrun⟩ := exists_reaches_first session
    obtain ⟨past, h, -⟩ := History.start.exists_of_reaches hreaches
    exact ⟨result, m, past, h, by rw [stateAfter, List.map_nil, List.foldl_nil, hrun]⟩
  | append_singleton requests request ih =>
    obtain ⟨result, m, past, h, hstate⟩ := ih
    obtain ⟨result', m', hreaches, -, hrun⟩ := exists_reaches_begin h.isSound_done request
    obtain ⟨past', h', -⟩ := (h.request request).exists_of_reaches hreaches
    refine ⟨result', m', past', h', ?_⟩
    rw [stateAfter, List.map_append, List.foldl_append, List.map_singleton, List.foldl_cons,
      List.foldl_nil, ← stateAfter, ← hstate, hrun]

/-! ## Macros -/

/-- A request leaves macros that directives lead to, also if it fails. -/
theorem isReachable_perform (session : Session) (request : Request) {s : State}
    (h : s.macros.IsReachable) : ((request.perform session).run.run s).2.macros.IsReachable := by
  have hrespects : (request.perform session).Respects SharesReachable := by
    cases request with
    | text name source => exact respects_runSource isStable_sharesReachable _ _ _ _
    | file path =>
      exact (respects_readFile isStable_sharesReachable _ _).bind fun _ =>
        respects_runSource isStable_sharesReachable _ _ _ _
  exact isReachable_of_respects hrespects h

theorem isReachable_stateAfter (session : Session) (requests : List (FileSystem × Request)) :
    (session.stateAfter requests).macros.IsReachable := by
  induction requests using List.reverseRecOn with
  | nil =>
    have hstart : session.start.Respects SharesReachable :=
      (respects_runSource isStable_sharesReachable session _ _ _).bind fun _ => .pure _
    exact isReachable_of_respects hstart .predefined
  | append_singleton requests r ih =>
    rw [stateAfter, List.foldl_append, List.foldl_cons, List.foldl_nil, ← stateAfter]
    exact isReachable_perform _ _ ih

/-- A directive that fails leaves the macros as they are, unless it includes a file. -/
theorem macros_eq_of_processDirective {nested : Option Inclusion} {hash : Token}
    {line : List Token} {p : Progress} {s s' : State} {fault : Fault}
    (hline : ∀ operand, Directive.ofTokens line ≠ some (.inclusion operand))
    (h : (processDirective session nested hash line p).run.run s = (.error fault, s')) :
    s'.macros = s.macros := by
  by_cases hlocal : p.live = true → (Directive.ofTokens line).all Directive.isLocal = true
  · rw [processDirective_of_isLocal hlocal] at h
    have houtcome := @isLocal_processDirective session p hash line hlocal s
    rw [h] at houtcome
    exact houtcome.macros_eq fault rfl
  · obtain ⟨hlive, hnot⟩ := Classical.not_imp.1 hlocal
    cases hread : Directive.ofTokens line with
    | none =>
      rw [hread] at hnot
      exact absurd rfl hnot
    | some directive =>
      rw [hread] at hnot
      rw [processDirective_of_live hread hlive] at h
      cases directive with
      | inclusion operand => exact absurd hread (hline operand)
      | pragma text =>
        have honce : (Directive.pragma text).isOnce = true := by
          simpa [Directive.isLocal] using hnot
        rw [obey, pragma_eq_includeOnce honce] at h
        cases h
      | _ => exact absurd rfl hnot

/-- **Macros are well-formed at all times**: after any requests, successful or not and whatever the
files are, and at every moment of a request, tables are such that expansion can rely on them. A
definition or its removal that fails leaves the table as it is. -/
theorem isSound_macros (session : Session) :
    (∀ requests, (session.stateAfter requests).macros.IsSound) ∧
      (∀ moments, History session moments → ∀ a ∈ moments, a.memory.macros.IsSound) ∧
      ∀ nested hash line p s fault s',
        (∀ operand, Directive.ofTokens line ≠ some (.inclusion operand)) →
          (processDirective session nested hash line p).run.run s = (.error fault, s') →
            s'.macros = s.macros := by
  exact ⟨fun requests => (isReachable_stateAfter session requests).isSound,
    fun moments h a ha => (h.isSound a ha).macros.isSound,
    fun nested hash line p s fault s' => macros_eq_of_processDirective⟩

end Machine

end CPreprocessor.Session
