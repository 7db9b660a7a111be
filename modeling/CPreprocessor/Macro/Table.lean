import CPreprocessor.Macro.Basic

/-!
# Macro tables

A table holds the macros that are defined, at most one of a name. A definition enters it if it meets
the constraint on definitions and, in case the name is taken, defines the same macro again. The
predefined macros can be neither redefined nor removed.
-/

namespace CPreprocessor

/-- The macros that are defined. -/
structure MacroTable where
  macros : List Macro
  deriving DecidableEq

namespace MacroTable

instance : EmptyCollection MacroTable := ⟨⟨[]⟩⟩

/-- The macro with the given name. -/
def lookup (table : MacroTable) (name : Bytes) : Option Macro :=
  table.macros.find? (·.name = name)

def isDefined (table : MacroTable) (name : Bytes) : Bool := (table.lookup name).isSome

/-- The names of the macros of a table. -/
def names (table : MacroTable) : List Bytes := table.macros.map Macro.name

/-- The table without the macro of the given name. -/
def erase (table : MacroTable) (name : Bytes) : MacroTable :=
  ⟨table.macros.filter (·.name ≠ name)⟩

/-- The table with a macro, which replaces the one of the same name. -/
def insert (table : MacroTable) (m : Macro) : MacroTable :=
  ⟨m :: (table.erase m.name).macros⟩

theorem lookup_eq_some {table : MacroTable} {name : Bytes} {m : Macro}
    (h : table.lookup name = some m) : m.name = name ∧ m ∈ table.macros :=
  ⟨by simpa using List.find?_some h, List.mem_of_find?_eq_some h⟩

theorem name_mem_names {table : MacroTable} {name : Bytes} {m : Macro}
    (h : table.lookup name = some m) : m.name ∈ table.names :=
  List.mem_map_of_mem (lookup_eq_some h).2

/-- The names that directives cannot define or undefine. -/
def reservedNames : List Bytes :=
  ["defined", "__LINE__", "__FILE__", "__STDC__", "__STDC_VERSION__", "__STDC_HOSTED__"].map
    Bytes.ofString

/-- The table with a new definition. -/
def define (table : MacroTable) (m : Macro) : Except Cause MacroTable := do
  if reservedNames.contains m.name then throw (.reservedName m.name.toText)
  m.check
  if let some previous := table.lookup m.name then
    if !previous.sameDefinition m then throw (.redefinition m.name.toText)
  return table.insert m

/-- The table without a definition, which need not be there. -/
def undefine (table : MacroTable) (name : Bytes) : Except Cause MacroTable :=
  if reservedNames.contains name then .error (.reservedName name.toText) else .ok (table.erase name)

/-- The object-like macro with the given replacement list. -/
def objectMacro (name replacement : String) : Macro :=
  ⟨Bytes.ofString name, .object, Token.lex (Bytes.ofString replacement)⟩

/-- The macros that are defined from the start. -/
def predefined : MacroTable :=
  ⟨[⟨Bytes.ofString "__LINE__", .line, []⟩, ⟨Bytes.ofString "__FILE__", .file, []⟩,
    objectMacro "__STDC__" "1", objectMacro "__STDC_VERSION__" "201710L",
    objectMacro "__STDC_HOSTED__" "1"]⟩

end MacroTable

end CPreprocessor
