import CPreprocessor.File.Path

/-!
# Configuration of a session

Macros can be defined and undefined before a session starts. That is done by directives, so a preset
macro may be anything that `#define` accepts, and presets are checked as directives are.
-/

namespace CPreprocessor

/-- The text before the first equals sign, and the text after it if there is one. -/
def splitAtEquals (text : List Char) : String × Option String :=
  let (before, rest) := text.span (· ≠ '=')
  (String.ofList before, rest.tail?.map String.ofList)

/-- A macro to be defined before a session starts. -/
structure PresetMacro where
  /-- The name, with a parameter list after it if the macro is to take arguments. -/
  name : String
  value : Option String := none
  deriving DecidableEq

namespace PresetMacro

/-- Reads a name, or a name and a value with an equals sign between them. -/
def ofText (text : String) : PresetMacro :=
  let (name, value) := splitAtEquals text.toList
  ⟨name, value⟩

/-- The directive that defines the macro. Without a value the macro is one. -/
def directive (m : PresetMacro) : String :=
  "#define " ++ m.name ++ " " ++ m.value.getD "1" ++ "\n"

end PresetMacro

/-- What can be chosen for a session. -/
structure Config where
  /-- The macros defined at the start. -/
  presets : List PresetMacro := []
  /-- The names of macros undefined after that. -/
  undefined : List String := []
  /-- The directories in which included files are looked for, in order. -/
  includeDirectories : List Path := []
  replaceTrigraphs : Bool := true
  /-- How deeply included files may be nested. -/
  maximumDepth : Nat := 200

/-- The directives that define and undefine the chosen macros. -/
def Config.directives (config : Config) : String :=
  String.join (config.presets.map PresetMacro.directive ++
    config.undefined.map fun name => "#undef " ++ name ++ "\n")

end CPreprocessor
