import CPreprocessor.Proofs.Session.Machine

/-!
# What a step of the machine does

A step fails, or goes on in the file at hand, or begins with a file that is included, or goes back
to the file that includes this one (`Session.Machine.Step`, `Session.Machine.step_step`). What is
known of files changes only where a file is included, and the stack grows only where it is not too
deep. Whatever is true of a session at all times is true at its beginning and kept by each of these.
-/

namespace CPreprocessor.Session

open SessionM

variable {session : Session} {s s' : State} {p q : Progress}

/-! ## Lines -/

/-- Nothing is left pending once the text was expanded. -/
theorem progress_of_flush {text : List OutputLine} (h : (flush p).Returns s (text, q) s') :
    q = { p with pending := [] } := by
  rw [flush_eq] at h
  obtain ⟨_, _, _, h⟩ := h.exists_of_bind
  cases h
  rfl

theorem path_of_lineControl {location : Location} {lastLine : Nat} {operand : List Token}
    (h : (lineControl location lastLine operand p).Returns s q s') :
    q.file.path = p.file.path := by
  obtain ⟨tokens, _, _, h⟩ := h.exists_of_bind
  split at h
  · exact absurd h not_returns_fail
  · cases h
    rfl

/-- A file keeps its path, also where it gets another name. -/
theorem path_of_processLine {nested : Option Inclusion} {line : List Token}
    {output : List OutputLine}
    (h : (processLine session nested line p).Returns s (output, q) s') :
    q.file.path = p.file.path := by
  by_cases hline : p.live = true ∧ ∃ operand, IsLineControl line operand
  · obtain ⟨hlive, operand, hhash, hread⟩ := hline
    cases line with
    | nil => cases hhash
    | cons hash rest =>
      rw [processLine, List.head?_cons] at h
      simp only [show hash.isHash = true from hhash, if_true, flush_eq, bind_assoc, pure_bind] at h
      obtain ⟨_, _, _, h⟩ := h.exists_of_bind
      rw [@processDirective_of_live _ _ _ _ { p with pending := [] } _ hread hlive] at h
      obtain ⟨_, _, hobey, h⟩ := h.exists_of_bind
      cases h
      obtain ⟨_, _, hcontrol, hobey⟩ := hobey.exists_of_bind
      cases hobey
      exact @path_of_lineControl _ _ { p with pending := [] } _ _ _ _ hcontrol
  · rw [file_of_processLine (fun hlive operand hcontrol => hline ⟨hlive, operand, hcontrol⟩) h]

namespace Machine

variable {frame : Frame} {outer : List Frame} {output : List OutputLine} {m m' : Memory}

theorem update_toState (m : Memory) : m.update m.toState = m := rfl

/-- A step either comes to a result, or the machine is done with its error. -/
theorem perform_cases {α : Type} (x : SessionM α) (m : Memory) (next : α → Memory → Moment) :
    (∃ a s, x.Returns m.toState a s ∧ perform x m next = next a (m.update s)) ∨
      ∃ fault s, x.run.run m.toState = (.error fault, s) ∧
        perform x m next = .done (.error fault) (m.update s) := by
  rw [perform]
  rcases hrun : x.run.run m.toState with ⟨fault | a, s⟩
  · exact .inr ⟨fault, s, rfl, rfl⟩
  · exact .inl ⟨a, s, hrun, rfl⟩

/-! ## Tasks -/

section

variable {first : Token} {tokens : List Token} {rest : List (List Token)}

theorem taskOf_of_not_isHash (hhash : first.isHash = false) :
    taskOf p ((first :: tokens) :: rest) = .line (first :: tokens) := by
  simp [taskOf, hhash]

variable (hhash : first.isHash = true)
include hhash

theorem taskOf_of_pending_ne_nil (hpending : p.pending ≠ []) :
    taskOf p ((first :: tokens) :: rest) = .text := by
  simp [taskOf, hhash, hpending]

variable (hpending : p.pending = [])
include hpending

theorem taskOf_of_isLocal (hlocal : p.live = true →
      (Directive.ofTokens (first :: tokens)).all Directive.isLocal = true) :
    taskOf p ((first :: tokens) :: rest) = .line (first :: tokens) := by
  simp only [taskOf, hhash, hpending, List.isEmpty_nil, Bool.not_true, Bool.and_false,
    Bool.false_eq_true, if_false, Bool.true_and]
  split
  · next hlive =>
    have hall := hlocal hlive
    split
    · next hread =>
      rw [hread] at hall
      cases hall
    · cases hread : Directive.ofTokens (first :: tokens) with
      | none => rfl
      | some directive =>
        rw [hread] at hall
        rw [Option.any_some, Directive.isOnce_eq_false hall, if_neg Bool.false_ne_true]
  · rfl

theorem taskOf_inclusion {operand : List Token} (hlive : p.live = true)
    (hread : Directive.ofTokens (first :: tokens) = some (.inclusion operand)) :
    taskOf p ((first :: tokens) :: rest) = .inclusion first operand := by
  simp [taskOf, hhash, hpending, hlive, hread]

theorem taskOf_once {directive : Directive} (hlive : p.live = true)
    (hread : Directive.ofTokens (first :: tokens) = some directive)
    (honce : directive.isOnce = true) :
    taskOf p ((first :: tokens) :: rest) = .once := by
  cases directive with
  | pragma text => simp [taskOf, hhash, hpending, hlive, hread, honce]
  | _ => cases honce

end

/-- A line that is processed on its own has nothing to do with files. -/
theorem exists_of_task_eq_line {tokens : List Token} (h : frame.task = .line tokens) :
    frame.lines = tokens :: frame.next.lines ∧ (tokens.head?.any Token.isHash = true →
      frame.progress.live = true → (Directive.ofTokens tokens).all Directive.isLocal = true) := by
  obtain ⟨id, p, lines⟩ := frame
  simp only [Frame.task, Frame.next] at h ⊢
  unfold taskOf at h
  split at h
  · split at h <;> cases h
  · cases h
    exact ⟨rfl, nofun⟩
  · next first rest lines =>
    split at h
    · cases h
    · split at h
      · next hlive =>
        split at h
        · cases h
        · next directive hdirective =>
          split at h
          · cases h
          · next honce =>
            cases h
            refine ⟨rfl, fun _ _ => ?_⟩
            cases hread : Directive.ofTokens (first :: rest) with
            | none => rfl
            | some directive =>
              rw [hread] at hdirective honce
              have hnot := Bool.eq_false_of_not_eq_true honce
              exact Directive.isLocal_eq_true
                (fun operand heq => hdirective operand (congrArg some heq)) hnot
      · next hnot =>
        cases h
        refine ⟨rfl, fun hhash hlive => ?_⟩
        refine absurd ?_ hnot
        rw [show first.isHash = true from hhash, hlive]
        rfl

/-! ## Inclusion -/

/-- A file comes to an `#include` with a valid header name. -/
structure Includes (frame : Frame) (m : Memory) (hash : Token) (header : HeaderName) : Prop where
  exists_operand : ∃ operand tokens, frame.task = .inclusion hash operand ∧
    (includeOperand frame.progress.file operand).Returns m.toState tokens m.toState ∧
      HeaderName.ofTokens tokens = some header

/-- The operand of `#include` is read without any effect. -/
theorem includeOperand_cases (file : SourceFile) (operand : List Token) (s : State) :
    (∃ tokens, (includeOperand file operand).Returns s tokens s) ∨
      ∃ fault, (includeOperand file operand).run.run s = (.error fault, s) ∧
        ¬ fault.IsTooDeep := by
  rw [includeOperand]
  split
  · exact .inl ⟨operand, rfl⟩
  · have havoids := (file.expander s.macros).avoids_expand operand
    cases hexpand : (file.expander s.macros).expand operand with
    | ok tokens => exact .inl ⟨tokens, returns_expand hexpand⟩
    | error fault =>
      refine .inr ⟨fault, ?_, havoids fault hexpand⟩
      rw [expand, run_get_bind, hexpand]
      rfl

/-- Files are looked for without any other effect. -/
theorem exists_run_firstFile (files : FileSystem) (paths : List Path) (s : State) :
    ∃ consulted, (firstFile files paths).run.run s =
      (.ok (paths.find? files.isFile), { s with consulted }) := by
  induction paths generalizing s with
  | nil => exact ⟨s.consulted, rfl⟩
  | cons path rest ih =>
    obtain ⟨consulted, hrest⟩ := ih { s with consulted := path :: s.consulted }
    rw [firstFile, List.find?_cons]
    cases hfile : files.isFile path with
    | true => exact ⟨path :: s.consulted, by rfl⟩
    | false =>
      refine ⟨consulted, ?_⟩
      rw [← hrest]
      rfl

/-- What is done about an `#include` with a valid header name. -/
theorem step_of_includes {hash : Token} {header : HeaderName} (h : Includes frame m hash header) :
    ∃ consulted, step session (.running frame outer output m) =
      if session.config.maximumDepth ≤ outer.length then
        failed .includeTooDeep (frame.progress.file.locationOf hash) m
      else match (header.candidates frame.progress.file session.config).find?
          session.files.isFile with
        | none => failed (.includeNotFound header.text) (frame.progress.file.locationOf hash)
            { m with consulted }
        | some path => includeSource session path frame outer output { m with consulted } := by
  obtain ⟨operand, tokens, htask, htokens, hheader⟩ := h
  obtain ⟨consulted, hfirst⟩ := exists_run_firstFile session.files
    (header.candidates frame.progress.file session.config) m.toState
  refine ⟨consulted, ?_⟩
  unfold Returns at htokens
  simp only [step, htask, obeyInclusion, perform, htokens, update_toState, hheader, hfirst]
  rfl

theorem exists_run_warnUnterminatedComment (file : SourceFile) (source : Bytes)
    (text : Source.Text) (s : State) :
    ∃ warnings, (warnUnterminatedComment file source text).run.run s =
      (.ok (), { s with warnings }) := by
  rw [warnUnterminatedComment]
  cases Lexeme.unterminatedComment text with
  | none => exact ⟨s.warnings, rfl⟩
  | some origin => exact ⟨_, rfl⟩

/-- A source is begun with, whatever is in it. -/
theorem exists_enter_eq (session : Session) (id : FileId) (directory : Option Path)
    (outer : List Frame) (output : List OutputLine) (m : Memory) :
    ∃ included warnings,
      enter session id directory outer output m =
        .running included outer output { m with warnings } ∧
      included.id = id ∧ included.progress.file.path = (m.sources.get id).path := by
  rw [enter]
  obtain ⟨warnings, hwarn⟩ := exists_run_warnUnterminatedComment
    { name := (m.sources.get id).name, directory, path := (m.sources.get id).path }
    (m.sources.get id).bytes
    (Source.normalize (m.sources.get id).bytes session.config.replaceTrigraphs) m.toState
  rw [perform, hwarn]
  exact ⟨_, warnings, rfl, rfl, rfl⟩

/-! ## Steps -/

/-- What a step in a file leads to. -/
inductive Step (session : Session) (frame : Frame) (outer : List Frame) (output : List OutputLine)
    (m : Memory) : Moment → Prop
  | fails {fault : Fault} {m' : Memory} (hfault : ¬ fault.IsTooDeep)
      (hmacros : m'.macros = m.macros) (hsources : m'.sources = m.sources)
      (honce : m'.once = m.once) : Step session frame outer output m (.done (.error fault) m')
  | tooDeep {hash : Token} {header : HeaderName} (h : Includes frame m hash header)
      (hdepth : session.config.maximumDepth ≤ outer.length) :
      Step session frame outer output m
        (failed .includeTooDeep (frame.progress.file.locationOf hash) m)
  | goesOn {p : Progress} {lines : List (List Token)} {text : List OutputLine} {m' : Memory}
      (htask : frame.task ≠ .once) (hpath : p.file.path = frame.progress.file.path)
      (hmacros : m.macros.IsReachable → m'.macros.IsReachable) (hsources : m'.sources = m.sources)
      (honce : m'.once = m.once) :
      Step session frame outer output m (.running ⟨frame.id, p, lines⟩ outer (output ++ text) m')
  | once (htask : frame.task = .once) :
      Step session frame outer output m
        (.running frame.next outer output { m with once := frame.id :: m.once })
  | skips {hash : Token} {header : HeaderName} {path : Path} {id : FileId} {sources : SourceMap}
      {consulted : List Path} (h : Includes frame m hash header)
      (hdepth : outer.length < session.config.maximumDepth)
      (hread : m.sources.read session.files path = .ok (id, sources)) (hid : id ∈ m.once) :
      Step session frame outer output m
        (.running frame.next outer output { m with sources, consulted })
  | enters {hash : Token} {header : HeaderName} {path : Path} {id : FileId} {included : Frame}
      {m' : Memory} (h : Includes frame m hash header)
      (hdepth : outer.length < session.config.maximumDepth)
      (hread : m.sources.read session.files path = .ok (id, m'.sources)) (hid : id ∉ m.once)
      (hincluded : included.id = id)
      (hpath : included.progress.file.path = (m'.sources.get id).path)
      (hmacros : m'.macros = m.macros) (honce : m'.once = m.once) :
      Step session frame outer output m (.running included (frame.next :: outer) output m')
  | returns {above : Frame} {rest : List Frame} (houter : outer = above :: rest) :
      Step session frame outer output m (.running above rest output m)
  | ends (houter : outer = []) : Step session frame outer output m (.done (.ok output) m)

theorem step_obeyInclusion {hash : Token} {operand : List Token}
    (htask : frame.task = .inclusion hash operand) :
    Step session frame outer output m (step session (.running frame outer output m)) := by
  rcases includeOperand_cases frame.progress.file operand m.toState with
    ⟨tokens, htokens⟩ | ⟨fault, hfault, hdeep⟩
  · cases hheader : HeaderName.ofTokens tokens with
    | none =>
      unfold Returns at htokens
      simp only [step, htask, obeyInclusion, perform, htokens, update_toState, hheader]
      exact .fails (mt Fault.isTooDeep_located.1 nofun) rfl rfl rfl
    | some header =>
      have h : Includes frame m hash header := ⟨operand, tokens, htask, htokens, hheader⟩
      obtain ⟨consulted, hstep⟩ := @step_of_includes session _ outer output _ _ _ h
      rw [hstep]
      split
      · next hdepth => exact .tooDeep h hdepth
      · next hdepth =>
        split
        · exact .fails (mt Fault.isTooDeep_located.1 nofun) rfl rfl rfl
        · next path _ =>
          rw [includeSource, readSource]
          dsimp only
          split
          · exact .fails nofun rfl rfl rfl
          · next id sources hread =>
            split
            · next hid => exact .skips h (Nat.lt_of_not_le hdepth) hread hid
            · next hid =>
              obtain ⟨included, warnings, henter, hincluded, hpath⟩ := exists_enter_eq session id
                ((sources.get id).path.bind Path.parent) (frame.next :: outer) output
                { m with sources, consulted := path :: consulted }
              rw [henter]
              exact .enters h (Nat.lt_of_not_le hdepth) hread hid hincluded hpath rfl rfl
  · simp only [step, htask, obeyInclusion, perform, hfault, update_toState]
    exact .fails hdeep rfl rfl rfl

/-- A step that has nothing to do with files fails or goes on in the same one. -/
theorem step_perform {x : SessionM (List OutputLine × Progress)} (htask : frame.task ≠ .once)
    (hlocal : x.IsLocal) (hshares : x.Respects SharesReachable)
    (hpath : ∀ text q s', x.Returns m.toState (text, q) s' →
      q.file.path = frame.progress.file.path) (lines : List (List Token)) :
    Step session frame outer output m (perform x m fun (text, progress) m =>
      .running ⟨frame.id, progress, lines⟩ outer (output ++ text) m) := by
  have houtcome := hlocal m.toState
  rcases perform_cases x m fun (text, progress) m =>
    .running ⟨frame.id, progress, lines⟩ outer (output ++ text) m with
    ⟨⟨text, q⟩, s, hrun, hnext⟩ | ⟨fault, s, hrun, hdone⟩
  · rw [hnext]
    refine .goesOn htask (hpath text q s hrun) (fun hmacros => ?_) rfl rfl
    have hreachable := isReachable_of_respects hshares (s := m.toState) hmacros
    unfold Returns at hrun
    rw [hrun] at hreachable
    exact hreachable
  · rw [hdone]
    rw [hrun] at houtcome
    exact .fails (houtcome.avoids fault rfl) (houtcome.macros_eq fault rfl) rfl rfl

/-- **Every step does one of these things.** -/
theorem step_step (session : Session) (frame : Frame) (outer : List Frame)
    (output : List OutputLine) (m : Memory) :
    Step session frame outer output m (step session (.running frame outer output m)) := by
  cases htask : frame.task with
  | inclusion hash operand => exact step_obeyInclusion htask
  | once =>
    simp only [step, htask]
    exact .once htask
  | finish =>
    simp only [step, htask]
    split
    · cases outer with
      | nil => exact .ends rfl
      | cons above rest => exact .returns rfl
    · exact .fails (mt Fault.isTooDeep_located.1 nofun) rfl rfl rfl
  | text =>
    simp only [step, htask]
    refine step_perform (by rw [htask]; nofun) isQuiet_flush.isLocal
      (respects_flush isStable_sharesReachable _) (fun text q s' h => ?_) frame.lines
    rw [progress_of_flush h]
  | line tokens =>
    simp only [step, htask]
    exact step_perform (by rw [htask]; nofun)
      (isLocal_processLine (exists_of_task_eq_line htask).2)
      (respects_processLine isStable_sharesReachable (fun _ hrun => by cases hrun) tokens _)
      (fun _ _ _ h => path_of_processLine h) frame.next.lines

end Machine

end CPreprocessor.Session
