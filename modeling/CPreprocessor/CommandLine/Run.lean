import CPreprocessor.CommandLine.Options
import CPreprocessor.Session.Basic

/-!
# Running a command line

The command line preprocesses one file in a session of its own and prints the output or writes it to
a file. What went wrong is reported together with what caused it.
-/

namespace CPreprocessor.CommandLine

/-! ## Reports -/

/-- The text with every line but the first one indented. -/
def indentLines (indentation text : String) : String :=
  ("\n" ++ indentation).intercalate (text.splitOn "\n")

/-- The causes of an error in order, with numbers. -/
def numbered (n : Nat) : List String → String
  | [] => ""
  | cause :: rest =>
    "\n    " ++ toString n ++ ": " ++ indentLines "       " cause ++ numbered (n + 1) rest

/-- The report of an error with its causes, the nearest one first. -/
def report (error : String) (causes : List String) : String :=
  "Error: " ++ error ++
    (match causes with
    | [] => ""
    | [cause] => "\n\nCaused by:\n    " ++ indentLines "    " cause
    | causes => "\n\nCaused by:" ++ numbered 0 causes) ++ "\n"

/-- What lies behind a fault. -/
def causesOf : Fault → List String
  | .unreadable problem => [problem.message]
  | .located _ _ => []

/-- The report of a file that cannot be written. -/
def writeReport (path : Path) (problem : FileProblem) : String :=
  report ("failed to write " ++ path) [problem.message]

/-- The report of arguments that cannot be understood. -/
def misuseReport (misuse : Misuse) : String :=
  "error: " ++ misuse.message ++
    "\n\nUsage: beheader [OPTIONS] <FILE>\n\nFor more information, try '--help'.\n"

/-! ## Outcomes -/

/-- What a run ends with. -/
inductive Outcome
  | print (text : String)
  | write (path : Path) (text : String)
  | failure (report : String)
  | misuse (report : String)
  /-- The program stops at once. -/
  | panic (message : String)
  deriving DecidableEq

/-- The status that the program exits with. -/
def Outcome.exitCode : Outcome → Nat
  | .print _ | .write _ _ => 0
  | .failure _ => 1
  | .misuse _ => 2
  | .panic _ => 101

def versionText : String := "beheader 0.1.0\n"

def helpText : String :=
  "A C preprocessor\n\nUsage: beheader [OPTIONS] <FILE>\n\nArguments:\n" ++
  "  <FILE>  Source file to preprocess\n\nOptions:\n" ++
  "  -I <DIR>               Add a directory to the #include search path\n" ++
  "  -D <NAME[=VALUE]>      Define a macro, as NAME or NAME=VALUE\n" ++
  "  -U <NAME>              Undefine a macro\n" ++
  "      --no-trigraphs     Do not replace trigraphs\n" ++
  "  -o, --output <OUTPUT>  Output file (default: stdout)\n" ++
  "  -h, --help             Print help\n" ++
  "  -V, --version          Print version\n"

/-- The outcome of a session that made the given text. -/
def Options.outcome (options : Options) (text : String) : Outcome :=
  match options.output with
  | none => .print text
  | some path => .write path text

/-- The outcome of a session that failed, with the error that its fault leads to. -/
def failureOf (fault : Fault) (error : String) (causes : List String) : Outcome :=
  if fault.isPanic then .panic fault.message else .failure (report error causes)

/-- Preprocesses the file in a session of its own. -/
def preprocess (files : FileSystem) (options : Options) : Outcome × Session.State :=
  let session : Session := { files, config := options.config }
  match session.start.run.run {} with
  | (.error fault, state) => (failureOf fault fault.message (causesOf fault), state)
  | (.ok (), state) =>
    match (session.preprocessFile options.file).run.run state with
    | (.error fault, state) =>
      let error := "failed to preprocess " ++ options.file
      (failureOf fault error (fault.message :: causesOf fault), state)
    | (.ok lines, state) => (options.outcome (Output.text lines), state)

/-- Runs a command line. The state is that of the session at its end. -/
def run (files : FileSystem) (arguments : List String) : Outcome × Session.State :=
  match parse arguments with
  | .error misuse => (.misuse (misuseReport misuse), {})
  | .ok .help => (.print helpText, {})
  | .ok .version => (.print versionText, {})
  | .ok (.preprocess options) => preprocess files options

end CPreprocessor.CommandLine
