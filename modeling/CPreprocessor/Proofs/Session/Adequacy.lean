import CPreprocessor.Proofs.Session.Start
import CPreprocessor.Proofs.Session.Steps

/-!
# The session machine ends

The session machine is done with every request, with what `Session.runSource` makes of it
(`Session.Machine.exists_reaches_begin`). The proof is by induction on the depth that is left and,
below that, on the lines that are left: an included file may be of any length, but there are fewer
that may be nested in it.

The state of a session has canonical paths for ids, so what is at hand about a file has to be what
the source map has of it.
-/

namespace CPreprocessor.Session

open SessionM

namespace Machine

variable {session : Session} {frame : Frame} {outer : List Frame} {output : List OutputLine}
  {m m' : Memory}

/-- The ids in a memory are those of sources. -/
structure Memory.IsSound (fs : FileSystem) (m : Memory) : Prop where
  sources : m.sources.IsSound fs
  once_lt : ∀ id ∈ m.once, id < m.sources.files.length

/-- A file that is being processed is the source with its id. -/
structure Frame.IsStored (frame : Frame) (map : SourceMap) : Prop where
  id_lt : frame.id < map.files.length
  path_eq : frame.progress.file.path = (map.get frame.id).path

theorem Frame.IsStored.mono {map map' : SourceMap} (h : frame.IsStored map)
    (hgrow : map.files <+: map'.files) : frame.IsStored map' where
  id_lt := h.id_lt.trans_le hgrow.length_le
  path_eq := by rw [SourceMap.get_eq_of_isPrefix hgrow h.id_lt, h.path_eq]

/-- A file is not included again in the state exactly if it is not in the memory. -/
theorem mem_once_toState_iff (h : m.IsSound session.files) {id : FileId} {canonical : Path}
    (hid : id < m.sources.files.length) (hpath : (m.sources.get id).path = some canonical) :
    canonical ∈ m.toState.once ↔ id ∈ m.once := by
  simp only [Memory.toState, List.mem_flatMap, Option.mem_toList]
  constructor
  · rintro ⟨id', hid', hpath'⟩
    rwa [h.sources.id_eq hid (h.once_lt id' hid') hpath hpath']
  · exact fun hmem => ⟨id, hmem, hpath⟩

theorem toState_update {s : State} (hnames : s.names = m.toState.names)
    (honce : s.once = m.toState.once) : (m.update s).toState = s := by
  obtain ⟨macros, warnings, names, once, consulted⟩ := s
  obtain rfl : names = _ := hnames
  obtain rfl : once = _ := honce
  rfl

/-! ## Runs -/

/-- The machine leads from one moment to another. -/
def Reaches (session : Session) (a b : Moment) : Prop := ∃ n, (step session)^[n] a = b

namespace Reaches

variable {a b c : Moment}

theorem refl (a : Moment) : Reaches session a a := ⟨0, rfl⟩

theorem trans (h : Reaches session a b) (h' : Reaches session b c) : Reaches session a c := by
  obtain ⟨i, rfl⟩ := h
  obtain ⟨j, rfl⟩ := h'
  exact ⟨j + i, Function.iterate_add_apply _ _ _ _⟩

theorem head (h : Reaches session (step session a) b) : Reaches session a b := by
  obtain ⟨n, rfl⟩ := h
  exact ⟨n + 1, rfl⟩

end Reaches

/-- From a moment at which the memory is the given one, the machine does what a step of the session
does, and comes to the next moment with its result, or is done with its error. -/
inductive Runs {α : Type} (session : Session) (x : SessionM α) (m : Memory) (a : Moment)
    (next : α → Memory → Moment) : Prop
  | returns {v : α} {m' : Memory} (hx : x.Returns m.toState v m'.toState)
      (hsound : m'.IsSound session.files) (hgrow : m.sources.files <+: m'.sources.files)
      (hreaches : Reaches session a (next v m'))
  | fails {fault : Fault} {m' : Memory} (hx : x.run.run m.toState = (.error fault, m'.toState))
      (hsound : m'.IsSound session.files) (hgrow : m.sources.files <+: m'.sources.files)
      (hreaches : Reaches session a (.done (.error fault) m'))

namespace Runs

variable {α β : Type} {x : SessionM α} {a b : Moment} {next : α → Memory → Moment}

theorem of_reaches (h : Runs session x m b next) (hab : Reaches session a b) :
    Runs session x m a next := by
  cases h with
  | returns hx hsound hgrow hreaches => exact .returns hx hsound hgrow (hab.trans hreaches)
  | fails hx hsound hgrow hreaches => exact .fails hx hsound hgrow (hab.trans hreaches)

theorem of_step (h : Runs session x m (step session a) next) : Runs session x m a next :=
  h.of_reaches (.head (.refl _))

/-- A step is followed by the next one. -/
theorem of_returns {k : α → SessionM β} {next' : β → Memory → Moment} {v : α}
    (hx : x.Returns m.toState v m'.toState) (hgrow : m.sources.files <+: m'.sources.files)
    (hk : Runs session (k v) m' a next') : Runs session (x >>= k) m a next' := by
  cases hk with
  | returns hk hsound hgrow' hreaches =>
    exact .returns (hx.bind hk) hsound (hgrow.trans hgrow') hreaches
  | fails hk hsound hgrow' hreaches =>
    refine .fails ?_ hsound (hgrow.trans hgrow') hreaches
    rw [run_bind, show x.run.run m.toState = _ from hx]
    exact hk

/-- A step that fails is the last one. -/
theorem of_fails {k : α → SessionM β} {next' : β → Memory → Moment} {fault : Fault}
    (hx : x.run.run m.toState = (.error fault, m'.toState)) (hsound : m'.IsSound session.files)
    (hgrow : m.sources.files <+: m'.sources.files)
    (hreaches : Reaches session a (.done (.error fault) m')) :
    Runs session (x >>= k) m a next' := by
  refine .fails ?_ hsound hgrow hreaches
  rw [run_bind, hx]

theorem bind {k : α → SessionM β} {next' : β → Memory → Moment} (h : Runs session x m a next)
    (hk : ∀ v m', x.Returns m.toState v m'.toState → m'.IsSound session.files →
      m.sources.files <+: m'.sources.files → Runs session (k v) m' (next v m') next') :
    Runs session (x >>= k) m a next' := by
  cases h with
  | @returns v m' hx hsound hgrow hreaches =>
    exact .of_returns hx hgrow ((hk v m' hx hsound hgrow).of_reaches hreaches)
  | fails hx hsound hgrow hreaches => exact .of_fails hx hsound hgrow hreaches

theorem get_bind {k : State → SessionM β} {next : β → Memory → Moment}
    (h : Runs session (k m.toState) m a next) : Runs session (get >>= k) m a next := by
  cases h with
  | returns hx hsound hgrow hreaches => exact .returns hx hsound hgrow hreaches
  | fails hx hsound hgrow hreaches => exact .fails hx hsound hgrow hreaches

/-- A step that has nothing to do with files is taken as it is. -/
theorem of_isLocal (hx : x.IsLocal) (hm : m.IsSound session.files) :
    Runs session x m (perform x m next) next := by
  have h := hx m.toState
  have hsound (s : State) : (m.update s).IsSound session.files := ⟨hm.sources, hm.once_lt⟩
  rcases perform_cases x m next with ⟨v, s, hrun, hnext⟩ | ⟨fault, s, hrun, hdone⟩
  · rw [show x.run.run m.toState = _ from hrun] at h
    rw [hnext]
    refine .returns ?_ (hsound s) List.prefix_rfl (.refl _)
    rwa [toState_update h.names_eq h.once_eq]
  · rw [hrun] at h
    rw [hdone]
    refine .fails ?_ (hsound s) List.prefix_rfl (.refl _)
    rwa [toState_update h.names_eq h.once_eq]

end Runs

/-! ## Sources -/

/-- A source as the session has it: the file that its lines belong to, and its contents. -/
def sourceOf (m : Memory) (id : FileId) : SourceFile × Bytes :=
  let source := m.sources.get id
  ({ name := source.name, path := source.path }, source.bytes)

/-- A memory with more sources is still one of the same files. -/
theorem Memory.IsSound.grow (hm : m.IsSound session.files) {sources : SourceMap}
    (hsources : sources.IsSound session.files) (hgrow : m.sources.files <+: sources.files) :
    { m with sources }.IsSound session.files ∧
      { m with sources }.toState = { m.toState with names := sources.names } := by
  refine ⟨⟨hsources, fun id hid => (hm.once_lt id hid).trans_le hgrow.length_le⟩, ?_⟩
  have honce : (m.once.flatMap fun id => (sources.get id).path.toList) =
      m.once.flatMap fun id => (m.sources.get id).path.toList :=
    List.flatMap_congr fun id hid => by
      rw [SourceMap.get_eq_of_isPrefix hgrow (hm.once_lt id hid)]
  rw [Memory.toState, honce]
  rfl

section

variable {files : FileSystem} {path canonical : Path} {contents : Bytes} {s : State}

theorem run_readFile_error {problem : FileProblem} (h : files.load path = .error problem) :
    (readFile files path).run.run s =
      (.error (.unreadable problem), { s with consulted := path :: s.consulted }) := by
  rw [readFile, h]
  rfl

theorem run_readFile_ok (h : files.load path = .ok (canonical, contents)) :
    (readFile files path).run.run s = match s.names.lookup canonical with
      | some name => (.ok ({ name, path := some canonical }, contents),
          { s with consulted := path :: s.consulted })
      | none => (.ok ({ name := path, path := some canonical }, contents),
          { s with names := (canonical, path) :: s.names, consulted := path :: s.consulted }) := by
  have hlooked : (readFile files path).run.run s =
      (match s.names.lookup canonical with
        | some name => pure ({ name, path := some canonical }, contents)
        | none => do
          modify fun s => { s with names := (canonical, path) :: s.names }
          return ({ name := path, path := some canonical }, contents) :
        SessionM (SourceFile × Bytes)).run.run { s with consulted := path :: s.consulted } := by
    rw [readFile, h]
    rfl
  rw [hlooked]
  cases s.names.lookup canonical <;> rfl

end

/-- Files are read by way of the source map as they are without. -/
theorem readSource_cases (hm : m.IsSound session.files) (path : Path)
    (next : FileId → Memory → Moment) :
    (∃ id m', (readFile session.files path).Returns m.toState (sourceOf m' id) m'.toState ∧
      m'.IsSound session.files ∧ m.sources.files <+: m'.sources.files ∧
        id < m'.sources.files.length ∧ (∃ canonical, (m'.sources.get id).path = some canonical) ∧
          readSource session path m next = next id m') ∨
      ∃ fault m', (readFile session.files path).run.run m.toState = (.error fault, m'.toState) ∧
        m'.IsSound session.files ∧ m.sources.files <+: m'.sources.files ∧
          readSource session path m next = .done (.error fault) m' := by
  have hlooked : { m with consulted := path :: m.consulted }.IsSound session.files :=
    ⟨hm.sources, hm.once_lt⟩
  cases hread : m.sources.read session.files path with
  | error problem =>
    refine .inr ⟨.unreadable problem, _, run_readFile_error (SourceMap.load_of_read_error hread),
      hlooked, List.prefix_rfl, ?_⟩
    simp only [readSource, hread]
  | ok result =>
    obtain ⟨id, sources⟩ := result
    have hsources := SourceMap.isSound_read hm.sources hread
    have hgrow := SourceMap.prefix_of_read hread
    obtain ⟨canonical, hload, hid, hpath⟩ := SourceMap.load_of_read hm.sources hread
    obtain ⟨hsound, hstate⟩ := hlooked.grow hsources hgrow
    have hnames : m.toState.names.lookup canonical =
        (m.sources.paths.lookup canonical).map fun id => (m.sources.get id).name :=
      hm.sources.lookup_names canonical
    refine .inl ⟨id, _, ?_, hsound, hgrow, hid, ⟨canonical, hpath⟩, by
      simp only [readSource, hread]⟩
    rw [Returns, run_readFile_ok hload, hstate, hnames]
    obtain ⟨canonical', hcanonical, ⟨hlookup, rfl⟩ | ⟨hlookup, bytes, -, rfl, rfl⟩⟩ :=
      SourceMap.read_cases hread
    · obtain rfl : canonical' = canonical :=
        Option.some.inj ((hm.sources.path_of_lookup hlookup).2.symm.trans hpath)
      rw [hlookup]
      simp only [Option.map_some, sourceOf, hpath]
      rfl
    · rw [SourceMap.get_add] at hpath
      obtain rfl := Option.some.inj hpath
      rw [hlookup]
      simp only [Option.map_none, sourceOf, SourceMap.get_add, SourceMap.names_add]
      rfl

theorem Runs.readFile_bind {β : Type} {k : SourceFile × Bytes → SessionM β}
    {next : FileId → Memory → Moment} {next' : β → Memory → Moment}
    (hm : m.IsSound session.files) {path : Path}
    (hk : ∀ id m' canonical, m'.IsSound session.files → m.sources.files <+: m'.sources.files →
      id < m'.sources.files.length → (m'.sources.get id).path = some canonical →
        Runs session (k (sourceOf m' id)) m' (next id m') next') :
    Runs session (readFile session.files path >>= k) m (readSource session path m next) next' := by
  rcases readSource_cases hm path next with
    ⟨id, m', hrun, hsound, hgrow, hid, ⟨canonical, hpath⟩, hnext⟩ |
      ⟨fault, m', hrun, hsound, hgrow, hdone⟩
  · rw [hnext]
    exact .of_returns hrun hgrow (hk id m' canonical hsound hgrow hid hpath)
  · rw [hdone]
    exact .of_fails hrun hsound hgrow (.refl _)

/-! ## Lines -/

theorem Runs.fail {α : Type} {next : α → Memory → Moment} (hm : m.IsSound session.files)
    (cause : Cause) (location : Location) :
    Runs session (SessionM.fail cause location) m (failed cause location m) next :=
  .fails rfl hm List.prefix_rfl (.refl _)

/-- The machine does what a session does with a source, where the given depth is left. -/
def RunsSources (session : Session) (depth : Nat) : Prop :=
  ∀ (id : FileId) (directory : Option Path) (outer : List Frame) (output : List OutputLine)
    (m : Memory), m.IsSound session.files → id < m.sources.files.length →
      outer.length + depth = session.config.maximumDepth →
        Runs session
          (session.runSource depth { (sourceOf m id).1 with directory } (sourceOf m id).2) m
          (enter session id directory outer output m)
          fun text m => resume outer (output ++ text) m

section

variable {depth : Nat} (hdepth : outer.length + depth = session.config.maximumDepth)
  (hnested : ∀ d, depth = d + 1 → RunsSources session d)
include hdepth hnested

theorem runs_includeFile {hash : Token} {operand : List Token} (hm : m.IsSound session.files)
    (htask : frame.task = .inclusion hash operand) :
    Runs session (includeFile session (session.inclusion depth) frame.progress.file
        (frame.progress.file.locationOf hash) operand) m (.running frame outer output m)
      fun text m => .running frame.next outer (output ++ text) m := by
  refine .of_step ?_
  simp only [step, htask, obeyInclusion]
  rw [includeFile]
  refine (Runs.of_isLocal (isQuiet_includeOperand operand).isLocal hm).bind
    fun tokens m _ hm _ => ?_
  cases HeaderName.ofTokens tokens with
  | none => exact .fail hm _ _
  | some header =>
    cases depth with
    | zero =>
      dsimp only [inclusion]
      rw [if_pos (show session.config.maximumDepth ≤ outer.length by omega)]
      exact .fail hm _ _
    | succ depth =>
      dsimp only [inclusion]
      rw [if_neg (show ¬ session.config.maximumDepth ≤ outer.length by omega)]
      refine (Runs.of_isLocal (isQuiet_firstFile _ _).isLocal hm).bind fun path m _ hm _ => ?_
      cases path with
      | none => exact .fail hm _ _
      | some path =>
        refine Runs.readFile_bind hm fun id m canonical hm _ hid hpath => .get_bind ?_
        have honce : (sourceOf m id).1.path.any (· ∈ m.toState.once) = decide (id ∈ m.once) := by
          rw [sourceOf]
          simp only [hpath, Option.any_some, mem_once_toState_iff hm hid hpath]
        simp only [honce, decide_eq_true_eq]
        split
        · refine .returns rfl hm List.prefix_rfl ?_
          rw [List.append_nil]
          exact .refl _
        · exact hnested depth rfl id _ (frame.next :: outer) output m hm hid (by simp; omega)

omit hdepth hnested in
theorem pragma_eq_includeOnce {file : SourceFile} {text : List Token}
    (h : (Directive.pragma text).isOnce = true) : pragma file text = includeOnce file := by
  match text, h with
  | [t], h =>
    rw [pragma, if_pos]
    simpa [Directive.isOnce] using h

omit hdepth hnested in
/-- Without text before it, a directive is all there is to its line. -/
theorem processLine_of_pending_eq_nil {nested : Option Inclusion} {first : Token}
    {tokens : List Token} {p : Progress} (hhash : first.isHash = true) (hpending : p.pending = []) :
    processLine session nested (first :: tokens) p =
      processDirective session nested first (first :: tokens) p := by
  obtain ⟨file, conditionals, pending⟩ := p
  obtain rfl : pending = [] := hpending
  simp only [processLine, List.head?_cons, hhash, if_true, flush_eq, List.reverse_nil,
    processText_nil, pure_bind, List.nil_append]
  exact bind_pure _

omit hdepth hnested in
/-- A line that is no directive does the same whatever can be included. -/
theorem processLine_of_any_eq_false {nested : Option Inclusion} {line : List Token} {p : Progress}
    (h : line.head?.any Token.isHash = false) :
    processLine session nested line p = processLine session none line p := by
  cases line with
  | nil => rfl
  | cons first tokens =>
    simp only [List.head?_cons, Option.any_some] at h
    simp only [processLine, List.head?_cons, h, Bool.false_eq_true, if_false]

omit hdepth hnested in
/-- A directive that has nothing to do with files does the same whatever can be included. -/
theorem processDirective_of_isLocal {nested : Option Inclusion} {hash : Token}
    {line : List Token} {p : Progress}
    (h : p.live = true → (Directive.ofTokens line).all Directive.isLocal = true) :
    processDirective session nested hash line p = processDirective session none hash line p := by
  rw [processDirective, processDirective]
  split
  · next hprocessed =>
    cases hread : Directive.ofTokens line with
    | none => rfl
    | some directive =>
      rw [hread] at h hprocessed
      have hlocal : directive.isLocal = true := by
        rcases hprocessed with hlive | hcontinues
        · exact h hlive
        · exact Directive.isLocal_of_continuesConditional hcontinues
      cases directive with
      | inclusion operand => cases hlocal
      | _ => rfl
  · rfl

/-- A directive is obeyed where no text is left before it. -/
theorem runs_processDirective {first : Token} {tokens : List Token} {rest : List (List Token)}
    (hm : m.IsSound session.files) (hframe : frame.IsStored m.sources)
    (hlines : frame.lines = (first :: tokens) :: rest) (hhash : first.isHash = true)
    (hpending : frame.progress.pending = []) :
    Runs session (processDirective session (session.inclusion depth) first (first :: tokens)
        frame.progress) m (.running frame outer output m)
      fun (text, q) m => .running { frame.next with progress := q } outer (output ++ text) m := by
  by_cases hlocal : frame.progress.live = true →
      (Directive.ofTokens (first :: tokens)).all Directive.isLocal = true
  · have htask : frame.task = .line (first :: tokens) := by
      rw [Frame.task, hlines, taskOf_of_isLocal hhash hpending hlocal]
    refine .of_step ?_
    simp only [step, htask]
    rw [processDirective_of_isLocal hlocal, ← processLine_of_pending_eq_nil hhash hpending]
    exact .of_isLocal (isLocal_processLine fun _ => hlocal) hm
  · obtain ⟨hlive, hnot⟩ := Classical.not_imp.1 hlocal
    cases hread : Directive.ofTokens (first :: tokens) with
    | none =>
      rw [hread] at hnot
      exact absurd rfl hnot
    | some directive =>
      rw [hread] at hnot
      rw [processDirective_of_live hread hlive]
      cases directive with
      | inclusion operand =>
        have htask : frame.task = .inclusion first operand := by
          rw [Frame.task, hlines, taskOf_inclusion hhash hpending hlive hread]
        refine (runs_includeFile hdepth hnested hm htask).bind fun text m _ hm _ => ?_
        exact .returns rfl hm List.prefix_rfl (.refl _)
      | pragma text =>
        have honce : (Directive.pragma text).isOnce = true := by
          simpa [Directive.isLocal] using hnot
        have htask : frame.task = .once := by
          rw [Frame.task, hlines, taskOf_once hhash hpending hlive hread honce]
        refine .of_step ?_
        simp only [step, htask, obey, pragma_eq_includeOnce honce]
        have hstate : { m with once := frame.id :: m.once }.toState =
            { m.toState with once := frame.progress.file.path.toList ++ m.toState.once } := by
          rw [hframe.path_eq]
          rfl
        have hsound : { m with once := frame.id :: m.once }.IsSound session.files :=
          ⟨hm.sources, List.forall_mem_cons.2 ⟨hframe.id_lt, hm.once_lt⟩⟩
        have hrun : (do includeOnce frame.progress.file; return ([], frame.progress) :
            SessionM (List OutputLine × Progress)).Returns m.toState ([], frame.progress)
              { m with once := frame.id :: m.once }.toState := by
          rw [hstate]
          rfl
        refine .returns hrun hsound List.prefix_rfl ?_
        rw [List.append_nil]
        exact .refl _
      | _ => exact absurd rfl hnot

/-- A line is processed, after the text before it if it is a directive. -/
theorem runs_processLine {line : List Token} {rest : List (List Token)}
    (hm : m.IsSound session.files) (hframe : frame.IsStored m.sources)
    (hlines : frame.lines = line :: rest) :
    Runs session (processLine session (session.inclusion depth) line frame.progress) m
      (.running frame outer output m)
      fun (text, q) m => .running { frame.next with progress := q } outer (output ++ text) m := by
  cases hhash : line.head?.any Token.isHash with
  | false =>
    have htask : frame.task = .line line := by
      rw [Frame.task, hlines]
      cases line with
      | nil => rfl
      | cons first tokens => exact taskOf_of_not_isHash hhash
    refine .of_step ?_
    simp only [step, htask]
    rw [processLine_of_any_eq_false hhash]
    exact .of_isLocal (isLocal_processLine fun h => by rw [hhash] at h; cases h) hm
  | true =>
    cases line with
    | nil => cases hhash
    | cons first tokens =>
      have hfirst : first.isHash = true := hhash
      by_cases hpending : frame.progress.pending = []
      · rw [processLine_of_pending_eq_nil hfirst hpending]
        exact runs_processDirective hdepth hnested hm hframe hlines hfirst hpending
      · have htask : frame.task = .text := by
          rw [Frame.task, hlines, taskOf_of_pending_ne_nil hfirst hpending]
        refine .of_step ?_
        simp only [step, htask]
        rw [processLine, List.head?_cons]
        simp only [hfirst, if_true]
        refine (Runs.of_isLocal isQuiet_flush.isLocal hm).bind
          fun result m' hrun hm' hgrow => ?_
        obtain ⟨text, q⟩ := result
        obtain rfl := progress_of_flush hrun
        have hstored : ({ frame with progress := { frame.progress with pending := [] } } :
            Frame).IsStored m'.sources :=
          ⟨(hframe.mono hgrow).id_lt, (hframe.mono hgrow).path_eq⟩
        refine (runs_processDirective hdepth hnested hm' hstored hlines hfirst rfl).bind
          fun result m _ hm _ => ?_
        refine .returns rfl hm List.prefix_rfl ?_
        dsimp only
        rw [List.append_assoc]
        exact .refl _

omit hdepth hnested in
/-- A file ends where no conditional is open. -/
theorem runs_end {text : List OutputLine} (hm : m.IsSound session.files)
    (hlines : frame.lines = []) (hpending : frame.progress.pending = []) :
    Runs session (match frame.progress.conditionals with
        | [] => pure text
        | c :: _ => SessionM.fail .unterminatedConditional c.location) m
      (.running frame outer (output ++ text) m) fun text m => resume outer (output ++ text) m := by
  have htask : frame.task = .finish := by
    rw [Frame.task, hlines, taskOf, hpending]
    rfl
  refine .of_step ?_
  simp only [step, htask]
  cases frame.progress.conditionals with
  | nil => exact .returns rfl hm List.prefix_rfl (.refl _)
  | cons c outer => exact .fail hm _ _

theorem runs_processToEnd (lines : List (List Token)) (hm : m.IsSound session.files)
    (hframe : frame.IsStored m.sources) (hlines : frame.lines = lines) :
    Runs session (processToEnd session (session.inclusion depth) lines frame.progress) m
      (.running frame outer output m) fun text m => resume outer (output ++ text) m := by
  induction lines generalizing frame output m with
  | nil =>
    by_cases hpending : frame.progress.pending = []
    · rw [processToEnd_nil, hpending, List.reverse_nil, processText_nil, pure_bind]
      have hend := @runs_end session frame outer output m [] hm hlines hpending
      rwa [List.append_nil] at hend
    · have htask : frame.task = .text := by
        rw [Frame.task, hlines, taskOf, List.isEmpty_eq_false_iff.2 hpending]
        rfl
      refine .of_step ?_
      simp only [step, htask, processToEnd, processLines, pure_bind]
      refine (Runs.of_isLocal isQuiet_flush.isLocal hm).bind fun result m' hrun hm' _ => ?_
      obtain ⟨text, q⟩ := result
      obtain rfl := progress_of_flush hrun
      exact @runs_end session { frame with progress := { frame.progress with pending := [] } }
        outer output m' _ hm' hlines rfl
  | cons line lines ih =>
    rw [processToEnd_cons]
    refine (runs_processLine hdepth hnested hm hframe hlines).bind
      fun result m' hrun hm' hgrow => ?_
    obtain ⟨text, q⟩ := result
    have hnext : { frame.next with progress := q : Frame }.lines = lines := by
      rw [Frame.next, hlines]
      rfl
    have hkept := hframe.mono hgrow
    have hstored : { frame.next with progress := q : Frame }.IsStored m'.sources :=
      ⟨hkept.id_lt, (path_of_processLine hrun).trans hkept.path_eq⟩
    refine (ih hm' hstored hnext).bind fun more m _ hm _ => ?_
    rw [List.append_assoc]
    exact .returns rfl hm List.prefix_rfl (.refl _)

end

theorem runsSources_of_nested {depth : Nat}
    (hnested : ∀ d, depth = d + 1 → RunsSources session d) : RunsSources session depth := by
  intro id directory outer output m hm hid hdepth
  rw [runSource_eq, processFile, enter]
  refine (Runs.of_isLocal (isQuiet_warnUnterminatedComment _ _).isLocal hm).bind
    fun _ m' _ hm' hgrow => ?_
  have hget := SourceMap.get_eq_of_isPrefix hgrow hid
  let frame : Frame :=
    ⟨id, { file := { (sourceOf m id).1 with directory } }, Token.linesOf (m.sources.get id).bytes
      (Source.normalize (m.sources.get id).bytes session.config.replaceTrigraphs)⟩
  have hframe : frame.IsStored m'.sources :=
    ⟨hid.trans_le hgrow.length_le, congrArg StoredSource.path hget.symm⟩
  exact runs_processToEnd hdepth hnested _ hm' hframe rfl

/-- The machine does what a session does with a source, at any depth. -/
theorem runsSources (session : Session) (depth : Nat) : RunsSources session depth := by
  induction depth with
  | zero => exact runsSources_of_nested fun _ h => nomatch h
  | succ depth ih => exact runsSources_of_nested fun d h => Nat.succ.inj h ▸ ih

/-! ## Requests -/

theorem Runs.of_grow {α : Type} {x : SessionM α} {a : Moment} {next : α → Memory → Moment}
    (h : Runs session x m' a next) (hstate : m'.toState = m.toState)
    (hgrow : m.sources.files <+: m'.sources.files) : Runs session x m a next := by
  cases h with
  | returns hx hsound hgrow' hreaches =>
    exact .returns (hstate ▸ hx) hsound (hgrow.trans hgrow') hreaches
  | fails hx hsound hgrow' hreaches =>
    exact .fails (hstate ▸ hx) hsound (hgrow.trans hgrow') hreaches

/-- The machine does what a session does with a request. -/
theorem runs_begin (hm : m.IsSound session.files) (request : Request) :
    Runs session (request.perform session) m (begin session m request)
      fun output m => .done (.ok output) m := by
  have hsources := runsSources session session.config.maximumDepth
  cases request with
  | text name source =>
    have hgrow := SourceMap.prefix_of_store m.sources name source
    obtain ⟨hsound, hstate⟩ := hm.grow (SourceMap.isSound_store hm.sources name source) hgrow
    rw [SourceMap.names_store] at hstate
    have hget : (m.sources.store name source).2.get m.sources.files.length =
        ⟨name, none, source⟩ :=
      SourceMap.get_eq (SourceMap.getElem?_append_eq_some_iff.2 (.inr ⟨rfl, rfl⟩))
    have hrun := hsources m.sources.files.length none [] [] _ hsound
      (by simp [SourceMap.store]) (Nat.zero_add _)
    rw [sourceOf, hget] at hrun
    exact hrun.of_grow hstate hgrow
  | file path =>
    exact Runs.readFile_bind hm fun id m' canonical hm' _ hid _ =>
      hsources id path.parent [] [] m' hm' hid (Nat.zero_add _)

/-- **The machine is done with every request, and does what a session does.** -/
theorem exists_reaches_begin (hm : m.IsSound session.files) (request : Request) :
    ∃ result m', Reaches session (begin session m request) (.done result m') ∧
      m'.IsSound session.files ∧
        (request.perform session).run.run m.toState = (result, m'.toState) := by
  cases runs_begin hm request with
  | returns hx hsound _ hreaches => exact ⟨_, _, hreaches, hsound, hx⟩
  | fails hx hsound _ hreaches => exact ⟨_, _, hreaches, hsound, hx⟩

theorem Memory.isSound_empty (fs : FileSystem) : Memory.IsSound fs {} where
  sources := SourceMap.isSound_empty fs
  once_lt := nofun

/-- A session starts as it is where nothing is chosen. -/
theorem returns_start_of_directives (h : session.config.directives = "") :
    session.start.Returns {} () {} := by
  have hlines (replaceTrigraphs : Bool) : Token.linesOf (Bytes.ofString "")
      (Source.normalize (Bytes.ofString "") replaceTrigraphs) = [[]] := by
    cases replaceTrigraphs <;> decide +kernel
  have hcomment (replaceTrigraphs : Bool) : Lexeme.unterminatedComment
      (Source.normalize (Bytes.ofString "") replaceTrigraphs) = none := by
    cases replaceTrigraphs <;> decide +kernel
  have hrun (nested : Option Inclusion) : (processLines session nested [[]]
      { file := { name := configurationName } }).Returns {}
        ([], { file := { name := configurationName } }) {} := rfl
  exact returns_start_of_processLines (h ▸ hlines _) (h ▸ hcomment _) hrun

/-- **The machine starts as a session does.** -/
theorem exists_reaches_first (session : Session) :
    ∃ result m, Reaches session (first session) (.done result m) ∧ m.IsSound session.files ∧
      session.start.run.run {} = (result.map fun _ => (), m.toState) := by
  rw [first]
  split
  · next hempty =>
    exact ⟨.ok [], {}, .refl _, Memory.isSound_empty _, returns_start_of_directives hempty⟩
  · obtain ⟨result, m, hreaches, hsound, hrun⟩ := exists_reaches_begin (Memory.isSound_empty _)
      (.text configurationName (Bytes.ofString session.config.directives))
    refine ⟨result, m, hreaches, hsound, ?_⟩
    have hstart : session.start.run.run {} =
        (session.preprocessBytes configurationName (Bytes.ofString session.config.directives) >>=
          fun _ => pure ()).run.run {} := rfl
    rw [hstart, run_bind, show (session.preprocessBytes _ _).run.run {} = _ from hrun]
    cases result <;> rfl

end Machine

end CPreprocessor.Session
