import CPreprocessor.Proofs.Session.Local
import CPreprocessor.Proofs.Session.SourceMap

/-!
# The session machine

A session as the loop that it is: a machine that does one thing at a time in the file that it is at,
and that keeps the files that include this one on a stack. It goes through their lines, expands the
text that was gathered before it comes to a directive or to the end, and begins with a file that is
included from scratch. What it knows of files are the ids in its source map. One request comes after
the other, and the memory of a session goes from one to the next.

Nothing in the machine says that it stops. The depth of the stack is looked at before a file is put
on it, and nowhere else.

A moment of a session is where its machine is; its history is all the moments before it.
-/

namespace CPreprocessor.Session

open SessionM

namespace Machine

/-- What a session keeps, with its sources by their ids. -/
structure Memory where
  macros : MacroTable := .predefined
  warnings : List Warning := []
  sources : SourceMap := {}
  /-- The sources that are not included again. -/
  once : List FileId := []
  consulted : List Path := []

namespace Memory

/-- The state that a memory stands for. -/
def toState (m : Memory) : State where
  macros := m.macros
  warnings := m.warnings
  names := m.sources.names
  once := m.once.flatMap fun id => (m.sources.get id).path.toList
  consulted := m.consulted

/-- The memory with a state in which nothing is new about its sources. -/
def update (m : Memory) (s : State) : Memory :=
  { m with macros := s.macros, warnings := s.warnings, consulted := s.consulted }

end Memory

/-- What there is to do next in a file. -/
inductive Task
  /-- Expand the text that was gathered. -/
  | text
  /-- Obey `#include`, where files are included. -/
  | inclusion (hash : Token) (operand : List Token)
  /-- Obey `#pragma once`. -/
  | once
  /-- Process a line in which a file has nothing to do with others. -/
  | line (tokens : List Token)
  | finish
  deriving DecidableEq

/-- What there is to do in a file that has been processed up to the given lines. -/
def taskOf (p : Progress) : List (List Token) → Task
  | [] => if p.pending.isEmpty then .finish else .text
  | [] :: _ => .line []
  | (first :: tokens) :: _ =>
    if first.isHash && !p.pending.isEmpty then .text
    else if first.isHash && p.live then
      match Directive.ofTokens (first :: tokens) with
      | some (.inclusion operand) => .inclusion first operand
      | directive => if directive.any Directive.isOnce then .once else .line (first :: tokens)
    else .line (first :: tokens)

/-- A file that is being processed. -/
structure Frame where
  id : FileId
  progress : Progress
  /-- The lines that are left. -/
  lines : List (List Token)

namespace Frame

def task (frame : Frame) : Task := taskOf frame.progress frame.lines

/-- The file after its next line. -/
def next (frame : Frame) : Frame := { frame with lines := frame.lines.tail }

end Frame

/-- Where a session is. -/
inductive Moment
  /-- In a file, with those that include it, the innermost one first. -/
  | running (frame : Frame) (outer : List Frame) (output : List OutputLine) (m : Memory)
  /-- At the end of a request. -/
  | done (result : Except Fault (List OutputLine)) (m : Memory)

namespace Moment

def memory : Moment → Memory
  | .running _ _ _ m => m
  | .done _ m => m

/-- The number of included files that are being processed. -/
def depth : Moment → Nat
  | .running _ outer _ _ => outer.length
  | .done _ _ => 0

end Moment

section

/-- Takes a step that has nothing to do with sources. -/
def perform {α : Type} (x : SessionM α) (m : Memory) (next : α → Memory → Moment) : Moment :=
  match x.run.run m.toState with
  | (.ok a, s) => next a (m.update s)
  | (.error fault, s) => .done (.error fault) (m.update s)

def failed (cause : Cause) (location : Location) (m : Memory) : Moment :=
  .done (.error (cause.located location)) m

/-- Goes back to the file that includes the one at hand. -/
def resume (outer : List Frame) (output : List OutputLine) (m : Memory) : Moment :=
  match outer with
  | [] => .done (.ok output) m
  | frame :: outer => .running frame outer output m

variable (session : Session)

/-- Begins with a source. -/
def enter (id : FileId) (directory : Option Path) (outer : List Frame) (output : List OutputLine)
    (m : Memory) : Moment :=
  let source := m.sources.get id
  let file : SourceFile := { name := source.name, directory, path := source.path }
  let text := Source.normalize source.bytes session.config.replaceTrigraphs
  perform (warnUnterminatedComment file source.bytes text) m fun _ m =>
    .running ⟨id, { file }, Token.linesOf source.bytes text⟩ outer output m

/-- Reads a file, by way of the source map. -/
def readSource (path : Path) (m : Memory) (next : FileId → Memory → Moment) : Moment :=
  let m := { m with consulted := path :: m.consulted }
  match m.sources.read session.files path with
  | .error problem => .done (.error (.unreadable problem)) m
  | .ok (id, sources) => next id { m with sources }

/-- Includes the file at a path, unless it is not to be included again. -/
def includeSource (path : Path) (frame : Frame) (outer : List Frame) (output : List OutputLine)
    (m : Memory) : Moment :=
  readSource session path m fun id m =>
    if id ∈ m.once then .running frame.next outer output m
    else
      enter session id ((m.sources.get id).path.bind Path.parent) (frame.next :: outer) output m

/-- Obeys `#include`. -/
def obeyInclusion (hash : Token) (operand : List Token) (frame : Frame) (outer : List Frame)
    (output : List OutputLine) (m : Memory) : Moment :=
  let file := frame.progress.file
  let location := file.locationOf hash
  perform (includeOperand file operand) m fun tokens m =>
    match HeaderName.ofTokens tokens with
    | none => failed .invalidInclude location m
    | some header =>
      if session.config.maximumDepth ≤ outer.length then failed .includeTooDeep location m
      else
        perform (firstFile session.files (header.candidates file session.config)) m fun path m =>
          match path with
          | none => failed (.includeNotFound header.text) location m
          | some path => includeSource session path frame outer output m

/-- One step of the machine. It stays where it is done. -/
def step : Moment → Moment
  | .done result m => .done result m
  | .running frame outer output m =>
    match frame.task with
    | .text =>
      perform (flush frame.progress) m fun (text, progress) m =>
        .running { frame with progress } outer (output ++ text) m
    | .inclusion hash operand => obeyInclusion session hash operand frame outer output m
    | .once => .running frame.next outer output { m with once := frame.id :: m.once }
    | .line tokens =>
      perform (session.processLine none tokens frame.progress) m fun (text, progress) m =>
        .running { frame.next with progress } outer (output ++ text) m
    | .finish =>
      match frame.progress.conditionals with
      | [] => resume outer output m
      | c :: _ => failed .unterminatedConditional c.location m

end

end Machine

/-! ## Requests -/

/-- What a session is asked to preprocess. -/
inductive Request
  | text (name : String) (source : Bytes)
  | file (path : Path)

def Request.perform (session : Session) : Request → SessionM (List OutputLine)
  | .text name source => session.preprocessBytes name source
  | .file path => session.preprocessFile path

namespace Machine

variable (session : Session)

/-- Where the machine begins with a request. -/
def begin (m : Memory) : Request → Moment
  | .text name source =>
    let (id, sources) := m.sources.store name source
    enter session id none [] [] { m with sources }
  | .file path => readSource session path m fun id m => enter session id path.parent [] [] m

/-- Where a session begins. Without a configuration, there is nothing to do. -/
def first : Moment :=
  if session.config.directives = "" then .done (.ok []) {}
  else begin session {} (.text configurationName (Bytes.ofString session.config.directives))

/-- The moments of a session up to some moment, the last one first. Any requests may come one after
the other, be those before them successful or not. -/
inductive History : List Moment → Prop
  | start : History [first session]
  | step {frame : Frame} {outer : List Frame} {output : List OutputLine} {m : Memory}
      {past : List Moment} (h : History (.running frame outer output m :: past)) :
      History (step session (.running frame outer output m) ::
        .running frame outer output m :: past)
  | request {result : Except Fault (List OutputLine)} {m : Memory} {past : List Moment}
      (h : History (.done result m :: past)) (request : Request) :
      History (begin session m request :: .done result m :: past)

end Machine

end CPreprocessor.Session
