import CPreprocessor.Proofs.Session.History

/-!
# Files that include files

Inclusion comes to an end whatever files include, themselves and each other among them: a request is
always done, the files that are being processed are never nested deeper than they may be, and an
`#include` is refused for its depth exactly where one more would be
(`Session.Machine.endsWithinDepth`).

A file with `#pragma once` in it is not begun with again once the pragma was obeyed, by whatever
path it is included and whatever comes in between. Every other file is begun with each time, unless
it is there but cannot be read, which is an error (`Session.Machine.skipsMarked`). That works
because an id stands for the same source at all times, and a file has the same id at all times
(`SourceMap.Agrees`).
-/

namespace CPreprocessor

namespace SourceMap

variable {fs : FileSystem} {map map' : SourceMap}

/-- Two source maps tell files apart in the same way, and have the same of them. -/
structure Agrees (map map' : SourceMap) : Prop where
  /-- The ids of files are the same exactly if their canonical paths are. -/
  id_eq_iff : ∀ canonical canonical' id id', map.paths.lookup canonical = some id →
    map'.paths.lookup canonical' = some id' → (id = id' ↔ canonical = canonical')
  /-- A file has the same contents. -/
  bytes_eq : ∀ canonical id id', map.paths.lookup canonical = some id →
    map'.paths.lookup canonical = some id' → (map.get id).bytes = (map'.get id').bytes
  /-- The id of a text is not that of a file. -/
  lookup_ne : ∀ id < map.files.length, (map.get id).path = none →
    ∀ canonical, map'.paths.lookup canonical ≠ some id

/-- Source maps agree where they have the same sources. -/
theorem agrees_of_get_eq (h : map.IsSound fs) (h' : map'.IsSound fs)
    (heq : ∀ id < map.files.length, id < map'.files.length → map.get id = map'.get id) :
    map.Agrees map' := by
  have hid (canonical : Path) (id id' : FileId) (hlookup : map.paths.lookup canonical = some id)
      (hlookup' : map'.paths.lookup canonical = some id') : id = id' := by
    obtain ⟨hlt, hpath⟩ := h.path_of_lookup hlookup
    obtain ⟨hlt', hpath'⟩ := h'.path_of_lookup hlookup'
    -- the smaller one of the two is an id in both source maps
    rcases Nat.lt_or_ge id map'.files.length with hboth | hge
    · exact h'.id_eq hboth hlt' (heq id hlt hboth ▸ hpath) hpath'
    · have hboth : id' < map.files.length := hlt'.trans (hge.trans_lt hlt)
      exact h.id_eq hlt hboth hpath ((heq id' hboth hlt').symm ▸ hpath')
  refine ⟨fun canonical canonical' id id' hlookup hlookup' => ⟨?_, ?_⟩,
    fun canonical id id' hlookup hlookup' => ?_, fun id hlt hnone canonical hlookup => ?_⟩
  · rintro rfl
    obtain ⟨hlt, hpath⟩ := h.path_of_lookup hlookup
    obtain ⟨hlt', hpath'⟩ := h'.path_of_lookup hlookup'
    rw [heq id hlt hlt'] at hpath
    exact Option.some.inj (hpath.symm.trans hpath')
  · rintro rfl
    exact hid canonical id id' hlookup hlookup'
  · obtain rfl := hid canonical id id' hlookup hlookup'
    rw [heq id (h.path_of_lookup hlookup).1 (h'.path_of_lookup hlookup').1]
  · obtain ⟨hlt', hpath⟩ := h'.path_of_lookup hlookup
    rw [← heq id hlt hlt', hnone] at hpath
    cases hpath

end SourceMap

namespace Session

open SessionM

namespace Machine

variable {session : Session} {frame : Frame} {outer : List Frame} {output : List OutputLine}
  {m m' : Memory} {a b : Moment} {past moments : List Moment}

/-! ## Depth -/

/-- A step finds an `#include` too deep exactly if the file at hand is as deep as it may be and comes
to one with a valid header name. -/
theorem step_eq_tooDeep_iff (hdepth : outer.length ≤ session.config.maximumDepth)
    {location : Location} :
    step session (.running frame outer output m) =
        .done (.error (.located location .includeTooDeep)) m' ↔
      m' = m ∧ outer.length = session.config.maximumDepth ∧
        ∃ hash header, Includes frame m hash header ∧
          location = frame.progress.file.locationOf hash := by
  constructor
  · intro h
    have hstep := step_step session frame outer output m
    rw [h] at hstep
    generalize hfault : Fault.located location .includeTooDeep = fault at hstep
    cases hstep with
    | fails hnot => exact absurd (Fault.isTooDeep_located.2 rfl) (hfault ▸ hnot)
    | tooDeep hincludes hdeep =>
      obtain ⟨rfl, -⟩ := Fault.located.inj hfault
      exact ⟨rfl, hdepth.antisymm hdeep, _, _, hincludes, rfl⟩
  · rintro ⟨rfl, heq, hash, header, hincludes, rfl⟩
    obtain ⟨consulted, hstep⟩ := @step_of_includes session _ outer output _ _ _ hincludes
    rw [hstep, if_pos heq.ge]
    rfl

/-- A request does not begin with an `#include` that is too deep. -/
theorem begin_ne_tooDeep (hm : m.IsSound session.files) (request : Request) (location : Location) :
    begin session m request ≠ .done (.error (.located location .includeTooDeep)) m' := by
  intro h
  have hbegins := begins_begin hm request
  rw [h] at hbegins
  cases hbegins

/-- A session does not begin with one either. -/
theorem first_ne_tooDeep (session : Session) (location : Location) :
    first session ≠ .done (.error (.located location .includeTooDeep)) m' := by
  rw [first]
  split
  · intro h
    cases h
  · exact begin_ne_tooDeep (Memory.isSound_empty _) _ location

/-- How far inclusion goes. -/
structure EndsWithinDepth (session : Session) : Prop where
  /-- The machine is done with the configuration, as the session is. -/
  start_ends : ∃ result m, Reaches session (first session) (.done result m) ∧
    session.start.run.run {} = (result.map fun _ => (), m.toState)
  /-- It is done with every request that comes then, as the session is. -/
  request_ends : ∀ result m past, History session (.done result m :: past) → ∀ request,
    ∃ result' m', Reaches session (begin session m request) (.done result' m') ∧
      (request.perform session).run.run m.toState = (result', m'.toState)
  /-- Files are never nested deeper than they may be. -/
  depth_le : ∀ moments, History session moments → ∀ a ∈ moments,
    a.depth ≤ session.config.maximumDepth
  /-- An `#include` is too deep exactly if it has a valid header name and is in a file that is as
  deep as it may be. -/
  tooDeep_iff : ∀ frame outer output m past,
    History session (.running frame outer output m :: past) → ∀ location m',
      step session (.running frame outer output m) =
          .done (.error (.located location .includeTooDeep)) m' ↔
        m' = m ∧ outer.length = session.config.maximumDepth ∧
          ∃ hash header, Includes frame m hash header ∧
            location = frame.progress.file.locationOf hash
  /-- A session does not begin with an `#include` that is too deep. -/
  first_ne : ∀ location m, first session ≠ .done (.error (.located location .includeTooDeep)) m
  /-- Neither does a request. -/
  begin_ne : ∀ result m past, History session (.done result m :: past) → ∀ request location m',
    begin session m request ≠ .done (.error (.located location .includeTooDeep)) m'

/-- **Inclusion is bounded, and every request ends**, whatever the files include. -/
theorem endsWithinDepth (session : Session) : EndsWithinDepth session where
  start_ends := by
    obtain ⟨result, m, hreaches, -, hrun⟩ := exists_reaches_first session
    exact ⟨result, m, hreaches, hrun⟩
  request_ends result m past h request := by
    obtain ⟨result', m', hreaches, -, hrun⟩ := exists_reaches_begin h.isSound_done request
    exact ⟨result', m', hreaches, hrun⟩
  depth_le moments h a ha := (h.isSound a ha).depth_le
  tooDeep_iff _ _ _ _ _ h _ _ := step_eq_tooDeep_iff h.isSound_running.depth_le
  first_ne location _ := first_ne_tooDeep session location
  begin_ne _ _ _ h request location _ :=
    begin_ne_tooDeep h.isSound_done request location

/-- Every path leads to the one file, whose contents are given. -/
def onlyFile (contents : String) : FileSystem :=
  ⟨fun _ => .ok "/a", fun _ => true, fun _ => .ok (Bytes.ofString contents)⟩

/-- A file that includes itself, where files may be nested to the depth of two. -/
def selfInclusion : Session where
  files := onlyFile "#include </a>\n"
  config := { maximumDepth := 2 }

/-- The third inclusion is too deep. -/
example : (match (step selfInclusion)^[3] (begin selfInclusion {} (.file "/a")) with
    | .done (.error fault) _ => some fault
    | _ => none) = some (.located ⟨"/a", 1, 1, 2⟩ .includeTooDeep) := by decide +kernel

/-! ## Files that are not included again -/

/-- `#pragma once` is obeyed in the source with an id. -/
def Moment.Marks (id : FileId) : Moment → Prop
  | .running frame _ _ _ => frame.task = .once ∧ frame.id = id
  | .done _ _ => False

/-- `#pragma once` is obeyed in the file with a canonical path. -/
def Moment.ObeysOnce (canonical : Path) : Moment → Prop
  | .running frame _ _ _ => frame.task = .once ∧ frame.progress.file.path = some canonical
  | .done _ _ => False

instance (canonical : Path) : DecidablePred (Moment.ObeysOnce canonical)
  | .running _ _ _ _ => inferInstanceAs (Decidable (_ ∧ _))
  | .done _ _ => inferInstanceAs (Decidable False)

/-- A step marks the file in which it obeys `#pragma once`, and no other. -/
theorem mem_once_step_iff {id : FileId} :
    id ∈ (step session (.running frame outer output m)).memory.once ↔
      (Moment.running frame outer output m).Marks id ∨ id ∈ m.once := by
  by_cases htask : frame.task = .once
  · simp only [step, htask, Moment.memory, Moment.Marks, true_and, List.mem_cons, eq_comm]
  · have hstep := step_step session frame outer output m
    rw [Moment.Marks, or_iff_right fun h => htask h.1]
    generalize step session (.running frame outer output m) = b at hstep ⊢
    cases hstep with
    | fails _ _ _ honce => rw [Moment.memory, honce]
    | goesOn _ _ _ _ honce => rw [Moment.memory, honce]
    | once h => exact absurd h htask
    | enters _ _ _ _ _ _ _ honce => rw [Moment.memory, honce]
    | _ => rfl

theorem once_of_begins (h : Begins session m a) : a.memory.once = m.once := by
  cases h with
  | fails _ _ honce => exact honce
  | enters _ _ _ honce _ => exact honce

namespace History

/-- The sources that are not included again are those in which `#pragma once` was obeyed. -/
theorem mem_once_iff (h : History session (a :: past)) {id : FileId} :
    id ∈ a.memory.once ↔ ∃ b ∈ past, b.Marks id := by
  generalize hmoments : a :: past = moments at h
  induction h generalizing a past with
  | start =>
    obtain ⟨rfl, rfl⟩ := List.cons.inj hmoments
    have hempty : (first session).memory.once = [] := by
      rw [first]
      split
      · rfl
      · exact once_of_begins (begins_begin (Memory.isSound_empty _) _)
    simp [hempty]
  | step h ih =>
    obtain ⟨rfl, rfl⟩ := List.cons.inj hmoments
    rw [mem_once_step_iff, List.exists_mem_cons_iff, ← ih rfl]
    rfl
  | request h request ih =>
    obtain ⟨rfl, rfl⟩ := List.cons.inj hmoments
    rw [once_of_begins (begins_begin h.isSound_done request), List.exists_mem_cons_iff, ← ih rfl]
    exact (or_iff_right not_false).symm

/-- A file in which `#pragma once` was obeyed is stored, and not included again. -/
theorem exists_id_of_obeysOnce (h : History session (a :: past)) {canonical : Path}
    (hobeys : ∃ b ∈ past, b.ObeysOnce canonical) :
    ∃ id ∈ a.memory.once, a.memory.sources.paths.lookup canonical = some id := by
  obtain ⟨b, hb, hobeys⟩ := hobeys
  cases b with
  | done result m => cases hobeys
  | running frame outer output m =>
    have hpast := (List.pairwise_cons.1 h.grow).1 _ hb
    have hframe := ((h.isSound _ (List.mem_cons_of_mem _ hb)).frames frame
      List.mem_cons_self).mono hpast
    have hsound := (h.isSound a List.mem_cons_self).memory.sources
    refine ⟨frame.id, h.mem_once_iff.2 ⟨_, hb, hobeys.1, rfl⟩, ?_⟩
    exact hsound.lookup_of_path hframe.id_lt (hframe.path_eq ▸ hobeys.2)

/-- A file whose id is marked is one in which `#pragma once` was obeyed. -/
theorem exists_obeysOnce_of_mem_once (h : History session (a :: past)) {map : SourceMap}
    (hgrow : a.memory.sources.files <+: map.files) {id : FileId} {canonical : Path}
    (hpath : (map.get id).path = some canonical) (hid : id ∈ a.memory.once) :
    ∃ b ∈ past, b.ObeysOnce canonical := by
  obtain ⟨b, hb, hmarks⟩ := h.mem_once_iff.1 hid
  refine ⟨b, hb, ?_⟩
  cases b with
  | done result m => cases hmarks
  | running frame outer output m =>
    have hpast := (List.pairwise_cons.1 h.grow).1 _ hb
    have hframe := ((h.isSound _ (List.mem_cons_of_mem _ hb)).frames frame
      List.mem_cons_self).mono (hpast.trans hgrow)
    obtain ⟨htask, rfl⟩ := hmarks
    exact ⟨htask, hframe.path_eq.trans hpath⟩

/-- The source maps of a session agree. -/
theorem agrees (h : History session moments) :
    ∀ a ∈ moments, ∀ b ∈ moments, a.memory.sources.Agrees b.memory.sources := by
  have hget : moments.Pairwise fun a b => ∀ id < a.memory.sources.files.length,
      id < b.memory.sources.files.length →
        a.memory.sources.get id = b.memory.sources.get id :=
    h.grow.imp fun hgrow id _ hid => SourceMap.get_eq_of_isPrefix hgrow hid
  intro a ha b hb
  refine SourceMap.agrees_of_get_eq (h.isSound a ha).memory.sources (h.isSound b hb).memory.sources ?_
  have hsymm : Std.Symm fun a b : Moment => ∀ id < a.memory.sources.files.length,
      id < b.memory.sources.files.length → a.memory.sources.get id = b.memory.sources.get id :=
    ⟨fun _ _ heq id hid hid' => (heq id hid' hid).symm⟩
  exact hget.forall_of_forall (fun _ _ _ _ _ => rfl) ha hb

end History

section

variable {hash : Token} {header : HeaderName} {path canonical : Path}

variable (hincludes : Includes frame m hash header)
  (hdepth : outer.length < session.config.maximumDepth)
  (hfound : (header.candidates frame.progress.file session.config).find? session.files.isFile =
    some path)
include hincludes hdepth hfound

/-- An `#include` that is not too deep includes the first file that its header name leads to. -/
theorem step_of_found : ∃ consulted, step session (.running frame outer output m) =
    includeSource session path frame outer output { m with consulted } := by
  obtain ⟨consulted, hstep⟩ := @step_of_includes session _ outer output _ _ _ hincludes
  rw [if_neg (Nat.not_le_of_lt hdepth), hfound] at hstep
  exact ⟨consulted, hstep⟩

/-- A file that is found and cannot be read is an error. -/
theorem step_of_read_error {problem : FileProblem}
    (hread : m.sources.read session.files path = .error problem) :
    ∃ m', step session (.running frame outer output m) =
      .done (.error (.unreadable problem)) m' := by
  obtain ⟨consulted, hstep⟩ := @step_of_found _ _ _ output _ _ _ _ hincludes hdepth hfound
  simp only [includeSource, readSource, hread] at hstep
  exact ⟨_, hstep⟩

/-- A file that is found and can be read is skipped if its id is marked, and begun with otherwise. -/
theorem step_of_read {id : FileId} {sources : SourceMap}
    (hread : m.sources.read session.files path = .ok (id, sources)) :
    ∃ consulted, step session (.running frame outer output m) =
      if id ∈ m.once then .running frame.next outer output { m with sources, consulted }
      else enter session id ((sources.get id).path.bind Path.parent) (frame.next :: outer) output
        { m with sources, consulted } := by
  obtain ⟨consulted, hstep⟩ := @step_of_found _ _ _ output _ _ _ _ hincludes hdepth hfound
  simp only [includeSource, readSource, hread] at hstep
  exact ⟨_, hstep⟩

end

/-- What becomes of a file that is included again. -/
structure SkipsMarked (session : Session) : Prop where
  /-- The states of the session are those that histories lead to. -/
  exists_history : ∀ requests : List Request, ∃ result m past,
    History session (.done result m :: past) ∧
      m.toState = session.stateAfter (requests.map (session.files, ·))
  /-- Ids do not mix up sources at any time. -/
  agrees : ∀ moments, History session moments → ∀ a ∈ moments, ∀ b ∈ moments,
    a.memory.sources.Agrees b.memory.sources
  /-- A file in which `#pragma once` was obeyed at any time before is skipped, by whatever path it is
  included. That has no effect on output, warnings or macros. -/
  skips : ∀ frame outer output m past, History session (.running frame outer output m :: past) →
    ∀ hash header path canonical, Includes frame m hash header →
      outer.length < session.config.maximumDepth →
      (header.candidates frame.progress.file session.config).find? session.files.isFile =
        some path →
      session.files.canonical path = .ok canonical →
      (∃ b ∈ past, b.ObeysOnce canonical) →
        ∃ m', step session (.running frame outer output m) = .running frame.next outer output m' ∧
          m'.macros = m.macros ∧ m'.warnings = m.warnings
  /-- Any other file is begun with if it can be read. If not, the request ends with the problem. -/
  enters : ∀ frame outer output m past, History session (.running frame outer output m :: past) →
    ∀ hash header path canonical, Includes frame m hash header →
      outer.length < session.config.maximumDepth →
      (header.candidates frame.progress.file session.config).find? session.files.isFile =
        some path →
      session.files.canonical path = .ok canonical →
      (¬ ∃ b ∈ past, b.ObeysOnce canonical) →
        (∃ contents included m', session.files.read canonical = .ok contents ∧
          step session (.running frame outer output m) =
              .running included (frame.next :: outer) output m' ∧
            included.progress.file.path = some canonical ∧
            (m'.sources.get included.id).bytes = contents) ∨
        ∃ problem m', session.files.read canonical = .error problem ∧
          step session (.running frame outer output m) = .done (.error (.unreadable problem)) m'
  /-- A file whose canonical path cannot be found out is never skipped, but ends the request. -/
  fails : ∀ frame outer output m past, History session (.running frame outer output m :: past) →
    ∀ hash header path problem, Includes frame m hash header →
      outer.length < session.config.maximumDepth →
      (header.candidates frame.progress.file session.config).find? session.files.isFile =
        some path →
      session.files.canonical path = .error problem →
        ∃ m', step session (.running frame outer output m) =
          .done (.error (.unreadable problem)) m'

/-- **A file is skipped exactly if `#pragma once` was obeyed in it.** -/
theorem skipsMarked (session : Session) : SkipsMarked session where
  exists_history := exists_history_stateAfter session
  agrees _ h := h.agrees
  skips frame outer output m past h hash header path canonical hincludes hdepth hfound hcanonical
      hobeys := by
    obtain ⟨id, honce, hlookup⟩ := h.exists_id_of_obeysOnce hobeys
    -- the file is stored, so reading it again cannot fail
    have hread : m.sources.read session.files path = .ok (id, m.sources) := by
      rw [SourceMap.read_of_canonical _ hcanonical]
      simp only [show m.sources.paths.lookup canonical = some id from hlookup]
    obtain ⟨consulted, hstep⟩ := step_of_read hincludes hdepth hfound hread
    exact ⟨_, hstep.trans (if_pos honce), rfl, rfl⟩
  enters frame outer output m past h hash header path canonical hincludes hdepth hfound hcanonical
      hnot := by
    have hm := h.isSound_running.memory
    cases hread : m.sources.read session.files path with
    | error problem =>
      obtain ⟨m', hstep⟩ := step_of_read_error hincludes hdepth hfound hread
      have hcontents :=
        FileSystem.read_of_load_error hcanonical (SourceMap.load_of_read_error hread)
      exact .inr ⟨problem, m', hcontents, hstep⟩
    | ok result =>
      obtain ⟨id, sources⟩ := result
      obtain ⟨canonical', hload, -, hpath⟩ := SourceMap.load_of_read hm.sources hread
      obtain ⟨hcanonical', hcontents⟩ := FileSystem.load_eq_ok_iff.1 hload
      obtain rfl : canonical = canonical' := Except.ok.inj (hcanonical.symm.trans hcanonical')
      have hmarked := mt
        (h.exists_obeysOnce_of_mem_once (SourceMap.prefix_of_read hread) hpath) hnot
      obtain ⟨consulted, hstep⟩ := step_of_read hincludes hdepth hfound hread
      obtain ⟨included, warnings, henter, hincludedId, hincludedPath⟩ := exists_enter_eq session id
        ((sources.get id).path.bind Path.parent) (frame.next :: outer) output
        { m with sources, consulted }
      refine .inl ⟨_, included, _, hcontents, hstep.trans ((if_neg hmarked).trans henter),
        hincludedPath.trans hpath, ?_⟩
      rw [hincludedId]
  fails frame outer output m past h hash header path problem hincludes hdepth hfound
      hcanonical := by
    refine step_of_read_error hincludes hdepth hfound ?_
    rw [SourceMap.read, hcanonical]
    rfl

/-- A file that is there and cannot be read. -/
def unreadableFile : Session where
  files := ⟨fun _ => .ok "/a", fun _ => true, fun _ => .error (.other "Permission denied")⟩

/-- A file that is found and cannot be read is not passed over. -/
example : (match step unreadableFile (begin unreadableFile {}
      (.text inputName (Bytes.ofString "#include </a>\n"))) with
    | .done (.error fault) _ => some fault
    | _ => none) = some (.unreadable (.other "Permission denied")) := by decide +kernel

/-- A file with nothing but `#pragma once`, and a directory to look for it in. -/
def onceInclusion : Session where
  files := onlyFile "#pragma once\n"
  config := { includeDirectories := ["."] }

/-- A text that includes the file twice, by different names. -/
def twoInclusions : Request := .text inputName (Bytes.ofString "#include <a>\n#include <b>\n")

/-- The moments of the text. -/
def onceMoment (n : Nat) : Moment :=
  (step onceInclusion)^[n] (begin onceInclusion {} twoInclusions)

/-- After four steps, the file is to be included by its second name. -/
theorem exists_onceMoment_four : ∃ frame output m hash, onceMoment 4 = .running frame [] output m ∧
    Includes frame m hash ⟨"b", true⟩ := by
  let hash : Token :=
    { kind := .punctuator, text := Bytes.ofString "#", spaced := true, position := ⟨2, 1⟩ }
  let name : Token :=
    { kind := .header, text := Bytes.ofString "<b>", spaced := true, position := ⟨2, 10⟩ }
  have htask : (onceMoment 4).frames.map Frame.task = [.inclusion hash [name]] := by decide +kernel
  have hheader : HeaderName.ofTokens [name] = some ⟨"b", true⟩ := by decide +kernel
  cases hmoment : onceMoment 4 with
  | done result m =>
    rw [hmoment] at htask
    cases htask
  | running frame outer output m =>
    rw [hmoment] at htask
    obtain ⟨hframe, houter⟩ := List.cons.inj htask
    obtain rfl := List.map_eq_nil_iff.1 houter
    exact ⟨frame, output, m, hash, rfl, [name], [name], hframe, rfl, hheader⟩

/-- `#pragma once` was obeyed in the file after it was included by its first name, so it is skipped
when it is included by its second one. -/
theorem skipsMarked_names : ∃ frame output m m' past,
    History onceInclusion (.running frame [] output m :: past) ∧
      (∃ b ∈ past, b.ObeysOnce "/a") ∧
        step onceInclusion (.running frame [] output m) = .running frame.next [] output m' ∧
          m'.macros = m.macros ∧ m'.warnings = m.warnings := by
  obtain ⟨frame, output, m, hash, hmoment, hincludes⟩ := exists_onceMoment_four
  have hfirst : first onceInclusion = .done (.ok []) {} := if_pos (by decide +kernel)
  have hstart : History onceInclusion [.done (.ok []) {}] := hfirst ▸ .start
  have hbegin : History onceInclusion [onceMoment 0, .done (.ok []) {}] :=
    hstart.request twoInclusions
  -- the moment at which the pragma is obeyed comes before the one at hand
  have hfrom : Reaches onceInclusion (onceMoment 0) (onceMoment 1) := ⟨1, rfl⟩
  have hto : Reaches onceInclusion (onceMoment 1) (onceMoment 4) := ⟨3, rfl⟩
  obtain ⟨past, hobeys, -⟩ := hbegin.exists_of_reaches hfrom
  obtain ⟨past', h, hsuffix⟩ := hobeys.exists_of_reaches hto
  have honce : (onceMoment 1).ObeysOnce "/a" := by decide +kernel
  rw [hmoment] at h hsuffix
  have hmem : ∃ b ∈ past', b.ObeysOnce "/a" := by
    rcases List.mem_cons.1 (hsuffix.subset List.mem_cons_self) with heq | hmem
    · obtain ⟨operand, tokens, htask, -⟩ := hincludes.exists_operand
      rw [heq] at honce
      exact absurd (htask.symm.trans honce.1) nofun
    · exact ⟨_, hmem, honce⟩
  have hcandidates : HeaderName.candidates ⟨"b", true⟩ frame.progress.file onceInclusion.config =
      ["./b"] := by
    have habsolute : Path.isAbsolute "b" = false := by decide +kernel
    have hjoin : Path.join "." "b" = "./b" := by decide +kernel
    simp [HeaderName.candidates, habsolute, onceInclusion, hjoin]
  obtain ⟨m', hstep, hmacros, hwarnings⟩ := (skipsMarked onceInclusion).skips frame [] output m past'
    h hash ⟨"b", true⟩ "./b" "/a" hincludes (by decide) (by rw [hcandidates]; rfl) rfl hmem
  exact ⟨frame, output, m, m', past', h, hmem, hstep, hmacros, hwarnings⟩

end Machine

end Session

end CPreprocessor
