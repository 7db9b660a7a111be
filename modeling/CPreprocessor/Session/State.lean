import CPreprocessor.Diagnostic
import CPreprocessor.File.System
import CPreprocessor.Macro.Expansion
import CPreprocessor.Session.Config

/-!
# The state of a session

A session preprocesses one source after the other. What it keeps from one to the next is its
`State`. A step of a session (`SessionM`) can fail, and a failure does not take back what was
done before it: macros stay defined, and warnings stay reported.
-/

namespace CPreprocessor

/-- What a session is given: the files that there are, and what was chosen. -/
structure Session where
  files : FileSystem
  config : Config := {}

namespace Session

/-- What a session keeps. -/
structure State where
  macros : MacroTable := .predefined
  /-- The warnings that nobody has taken yet. -/
  warnings : List Warning := []
  /-- The canonical paths of the files read so far, with the names that they go by. -/
  names : List (Path × String) := []
  /-- The canonical paths of the files that are not included again. -/
  once : List Path := []
  /-- The paths that files were looked for at, the last one first. -/
  consulted : List Path := []

end Session

/-- A step of a session. A failure keeps the state. -/
abbrev SessionM := ExceptT Fault (StateM Session.State)

/-- The file that a line belongs to. -/
structure SourceFile where
  /-- The presumed name, by which diagnostics and macros call the file. -/
  name : String
  /-- Where files that are included in quotes are looked for first. -/
  directory : Option Path := none
  /-- The canonical path. Text that does not come from a file has none. -/
  path : Option Path := none
  /-- The difference between presumed and physical line numbers. -/
  lineDelta : Int := 0

namespace SourceFile

def locationOf (file : SourceFile) (t : Token) : Location :=
  ⟨file.name, t.position.line, t.position.column, t.endColumn⟩

/-- Expansion of the macros in a file. -/
def expander (file : SourceFile) (macros : MacroTable) : Expander :=
  { macros, file := file.name, lineDelta := file.lineDelta }

end SourceFile

namespace SessionM

def warn (location : Location) (cause : WarningCause) : SessionM Unit :=
  modify fun s => { s with warnings := s.warnings ++ [⟨location, cause⟩] }

def fail {α : Type} (cause : Cause) (location : Location) : SessionM α :=
  throw (cause.located location)

/-- A step that does nothing but fail if the computation does. -/
def ofExcept {α : Type} : Except Fault α → SessionM α
  | .ok a => return a
  | .error fault => throw fault

/-- A step that reports the warnings of a computation and fails if it does. -/
def ofDiagnosed {α : Type} (computation : Diagnosed α) : SessionM α := do
  let (result, warnings) := computation.run.run []
  modify fun s => { s with warnings := s.warnings ++ warnings }
  ofExcept result

/-- Changes the macros. What is wrong with the change is reported at the given location. -/
def updateMacros (location : Location) (change : MacroTable → Except Cause MacroTable) :
    SessionM Unit := do
  match change (← get).macros with
  | .ok macros => modify fun s => { s with macros }
  | .error cause => fail cause location

/-- Expands the macros in tokens of a file. -/
def expand (file : SourceFile) (tokens : List Token) : SessionM (List Token) := do
  ofExcept ((file.expander (← get).macros).expand tokens)

/-- Finds the first of some paths that leads to a file. -/
def firstFile (files : FileSystem) : List Path → SessionM (Option Path)
  | [] => return none
  | path :: rest => do
    modify fun s => { s with consulted := path :: s.consulted }
    if files.isFile path then return some path else firstFile files rest

/-- Reads a file. It goes by the path that it was first read by. -/
def readFile (files : FileSystem) (path : Path) : SessionM (SourceFile × Bytes) := do
  modify fun s => { s with consulted := path :: s.consulted }
  match files.load path with
  | .error problem => throw (.unreadable problem)
  | .ok (canonical, contents) =>
    match (← get).names.lookup canonical with
    | some name => return ({ name, path := some canonical }, contents)
    | none =>
      modify fun s => { s with names := (canonical, path) :: s.names }
      return ({ name := path, path := some canonical }, contents)

/-- Takes the warnings that were reported. -/
def takeWarnings : SessionM (List Warning) :=
  modifyGet fun s => (s.warnings, { s with warnings := [] })

end SessionM

end CPreprocessor
