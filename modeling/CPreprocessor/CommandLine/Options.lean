import CPreprocessor.Session.Config

/-!
# The arguments of the command line

Arguments are read from left to right. An argument that begins with a dash and has more than that is
an option, until a double dash ends the options; any other argument is the file. The value of an
option is in the same argument, after an equals sign if there is one, or it is the next argument.
-/

namespace CPreprocessor.CommandLine

/-- An option that takes a value. -/
inductive Setting
  | includeDirectory
  | define
  | undefine
  | output
  deriving DecidableEq

def Setting.name : Setting → String
  | .includeDirectory => "-I <DIR>"
  | .define => "-D <NAME[=VALUE]>"
  | .undefine => "-U <NAME>"
  | .output => "--output <OUTPUT>"

/-- An option that takes no value. -/
inductive Flag
  | noTrigraphs
  | help
  | version
  deriving DecidableEq

def Flag.name : Flag → String
  | .noTrigraphs => "--no-trigraphs"
  | .help => "--help"
  | .version => "--version"

/-- What is wrong with the arguments. -/
inductive Misuse
  | unexpected (argument : String)
  | missingValue (setting : Setting)
  /-- A file or a directory has an empty path. -/
  | emptyPath
  | unneededValue (flag : Flag)
  | repeatedSetting (setting : Setting)
  | repeatedFlag (flag : Flag)
  | missingFile
  deriving DecidableEq

def Misuse.message : Misuse → String
  | .unexpected argument => "unexpected argument '" ++ argument ++ "' found"
  | .missingValue setting =>
    "a value is required for '" ++ setting.name ++ "' but none was supplied"
  | .emptyPath => "a path cannot be empty"
  | .unneededValue flag => "unexpected value for '" ++ flag.name ++ "' found; no more were expected"
  | .repeatedSetting setting =>
    "the argument '" ++ setting.name ++ "' cannot be used multiple times"
  | .repeatedFlag flag => "the argument '" ++ flag.name ++ "' cannot be used multiple times"
  | .missingFile => "the following required arguments were not provided: <FILE>"

/-! ## Single arguments -/

/-- What an argument is. -/
inductive Argument
  /-- All arguments after this one are operands. -/
  | stop
  /-- Without a value here, the value is the next argument. -/
  | setting (setting : Setting) (value : Option String)
  | flag (flag : Flag)
  | operand (text : String)
  deriving DecidableEq

namespace Argument

/-- The value after the letter of an option. -/
def attached : List Char → Option String
  | [] => none
  | '=' :: value => some (String.ofList value)
  | value => some (String.ofList value)

/-- Reads a single dash, a letter and what is after it. A flag ends the arguments, so nothing after
its letter counts. -/
def ofShort (letter : Char) (rest : List Char) : Option Argument :=
  match letter with
  | 'I' => some (.setting .includeDirectory (attached rest))
  | 'D' => some (.setting .define (attached rest))
  | 'U' => some (.setting .undefine (attached rest))
  | 'o' => some (.setting .output (attached rest))
  | 'h' => some (.flag .help)
  | 'V' => some (.flag .version)
  | _ => none

/-- Reads a flag, which is given by its name and has no value. -/
def ofFlag (flag : Flag) : Option String → Except Misuse Argument
  | none => .ok (.flag flag)
  | some _ => .error (.unneededValue flag)

/-- Reads what is after two dashes. -/
def ofLong (text : String) (rest : List Char) : Except Misuse Argument :=
  match splitAtEquals rest with
  | ("output", value) => .ok (.setting .output value)
  | ("no-trigraphs", value) => ofFlag .noTrigraphs value
  | ("help", value) => ofFlag .help value
  | ("version", value) => ofFlag .version value
  | _ => .error (.unexpected text)

/-- Reads an argument before the end of the options. -/
def ofText (text : String) : Except Misuse Argument :=
  match text.toList with
  | ['-', '-'] => .ok .stop
  | '-' :: '-' :: rest => ofLong text rest
  | '-' :: letter :: rest =>
    match ofShort letter rest with
    | some argument => .ok argument
    | none => .error (.unexpected text)
  | _ => .ok (.operand text)

end Argument

/-! ## All arguments -/

/-- What preprocessing a file needs. -/
structure Options where
  file : Path
  config : Config
  /-- The file that is written. Without one the text is printed. -/
  output : Option Path

/-- What the arguments ask for. -/
inductive Request
  | help
  | version
  | preprocess (options : Options)

/-- What is known from the arguments read so far. -/
structure Draft where
  file : Option Path := none
  config : Config := {}
  output : Option Path := none

/-- A path has to have something in it. -/
def checkPath (path : Path) : Except Misuse Path :=
  if path = "" then .error .emptyPath else .ok path

namespace Draft

/-- Takes the value of an option. Only the output is given at most once. -/
def set (d : Draft) (setting : Setting) (value : String) : Except Misuse Draft :=
  match setting with
  | .includeDirectory => do
    let directory ← checkPath value
    return { d with config.includeDirectories := d.config.includeDirectories ++ [directory] }
  | .define => .ok { d with config.presets := d.config.presets ++ [PresetMacro.ofText value] }
  | .undefine => .ok { d with config.undefined := d.config.undefined ++ [value] }
  | .output => do
    if d.output.isSome then throw (.repeatedSetting .output)
    return { d with output := some (← checkPath value) }

/-- Takes the flag that leaves trigraphs alone, which is given at most once. -/
def withoutTrigraphs (d : Draft) : Except Misuse Draft :=
  if d.config.replaceTrigraphs then .ok { d with config.replaceTrigraphs := false }
  else .error (.repeatedFlag .noTrigraphs)

/-- Takes an operand, which is the file. -/
def operand (d : Draft) (text : String) : Except Misuse Draft := do
  if d.file.isSome then throw (.unexpected text)
  return { d with file := some (← checkPath text) }

/-- What is asked for when there are no more arguments. -/
def request (d : Draft) : Except Misuse Request :=
  match d.file with
  | none => .error .missingFile
  | some file => .ok (.preprocess { file, config := d.config, output := d.output })

end Draft

/-- Whether an argument looks like an option, and so cannot be the value of the one before it. -/
def looksLikeOption (text : String) : Bool :=
  match text.toList with
  | '-' :: _ :: _ => true
  | _ => false

/-- Reads the arguments after those that are known. Help and version are given at once, without
regard to what is after them. -/
def parseFrom (d : Draft) : List String → Except Misuse Request
  | [] => d.request
  | argument :: rest => do
    match ← Argument.ofText argument with
    | .stop => (← rest.foldlM Draft.operand d).request
    | .operand text => parseFrom (← d.operand text) rest
    | .flag .help => return .help
    | .flag .version => return .version
    | .flag .noTrigraphs => parseFrom (← d.withoutTrigraphs) rest
    | .setting setting (some value) => parseFrom (← d.set setting value) rest
    | .setting setting none =>
      match rest with
      | [] => throw (.missingValue setting)
      | value :: rest =>
        if looksLikeOption value then throw (.missingValue setting)
        else parseFrom (← d.set setting value) rest

/-- Reads the arguments of the command line. -/
def parse (arguments : List String) : Except Misuse Request := parseFrom {} arguments

end CPreprocessor.CommandLine
