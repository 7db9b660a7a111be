import CPreprocessor.CommandLine.Run

/-!
# The program

A run of the command line is a function of the files that it reads. The program finds out which ones
those are by running it with the files that it knows, and once more after reading the files that it
looked for in vain.
-/

namespace CPreprocessor.Main

/-- What is known about files. -/
structure Snapshot where
  canonical : List (Path × Except FileProblem Path) := []
  /-- The paths that lead to regular files. -/
  files : List Path := []
  contents : List (Path × Except FileProblem Bytes) := []

namespace Snapshot

/-- The file system in which there is nothing but what is known. -/
def fileSystem (known : Snapshot) : FileSystem where
  canonical path := (known.canonical.lookup path).getD (.error .notFound)
  isFile path := known.files.contains path
  read path := (known.contents.lookup path).getD (.error .notFound)

def isKnown (known : Snapshot) (path : Path) : Bool := (known.canonical.lookup path).isSome

end Snapshot

/-- The problem that an error of the system is. Two of them are told apart by their details. -/
def problemOf (error : IO.Error) : FileProblem :=
  match error with
  | .noFileOrDirectory .. => .notFound
  | .permissionDenied .. => .other "Permission denied (os error 13)"
  | .inappropriateType _ _ details =>
    if details.toLower = "is a directory" then .isDirectory
    else if details.toLower = "not a directory" then .notDirectory
    else .other (toString error)
  | _ => .other (toString error)

/-- Asks the system, which may have a problem. -/
def ask {α : Type} (question : IO α) : IO (Except FileProblem α) := do
  try return .ok (← question)
  catch error => return .error (problemOf error)

/-- Finds out about a path. Where it leads nowhere, reading it tells why. A directory or a file that
cannot be read has a place but no contents. -/
def learn (known : Snapshot) (path : Path) : IO Snapshot := do
  let contents ← ask (IO.FS.readBinFile path)
  match ← ask (IO.FS.realPath path) with
  | .error problem =>
    let problem := match contents with
      | .error reason => reason
      | .ok _ => problem
    return { known with canonical := (path, .error problem) :: known.canonical }
  | .ok place =>
    let regular := (← place.metadata).type matches .file
    return {
      canonical := (path, .ok place.toString) :: known.canonical
      files := if regular then path :: known.files else known.files
      contents := (place.toString, contents.map ByteArray.toList) :: known.contents }

/-- Runs the command line until it looks for no path that is not known. -/
partial def settle (arguments : List String) (known : Snapshot) :
    IO (CommandLine.Outcome × Session.State) := do
  let (outcome, state) := CommandLine.run known.fileSystem arguments
  match state.consulted.reverse.filter (!known.isKnown ·) with
  | [] => return (outcome, state)
  | unknown => settle arguments (← unknown.foldlM learn known)

end CPreprocessor.Main

open CPreprocessor in
/-- Runs the command line with the files of the system. -/
def main (arguments : List String) : IO UInt32 := do
  let (outcome, state) ← Main.settle arguments {}
  for warning in state.warnings do
    IO.eprintln warning.message
  match outcome with
  | .print text => IO.print text
  | .write path text =>
    try
      IO.FS.writeFile path text
    catch error =>
      IO.eprint (CommandLine.writeReport path (Main.problemOf error))
      return 1
  | .failure report => IO.eprint report
  | .misuse report => IO.eprint report
  | .panic message => IO.eprintln message
  return outcome.exitCode.toUInt32
