import CPreprocessor.Diagnostic
import CPreprocessor.Token

/-!
# Macros

A macro replaces its name, or its name and the arguments after it, by a list of tokens.
`Macro.check` is the constraint on a definition, and `Macro.sameDefinition` tells which definitions
may stand for each other.
-/

namespace CPreprocessor

/-- What a macro replaces, and by what. -/
inductive MacroKind
  | object
  /-- The macro takes arguments; if it is variadic, any number after those of its parameters. -/
  | function (parameters : List Bytes) (variadic : Bool)
  /-- The number of the current line. -/
  | line
  /-- The name of the current file. -/
  | file
  deriving DecidableEq

structure Macro where
  name : Bytes
  kind : MacroKind
  replacement : List Token
  deriving DecidableEq

namespace Macro

/-- The name of the variable arguments in a replacement list. -/
def variableArguments : Bytes := Bytes.ofString "__VA_ARGS__"

/-- Whether a token is the name of the variable arguments. -/
def isVariableArguments (t : Token) : Bool := t.isIdentifier && t.text = variableArguments

/-- The index of the argument that a token of the replacement list stands for. The variable
arguments come after all others. -/
def parameter? (m : Macro) (t : Token) : Option Nat :=
  match m.kind with
  | .function parameters variadic =>
    if !t.isIdentifier then none
    else if variadic && t.text = variableArguments then some parameters.length
    else parameters.idxOf? t.text
  | _ => none

/-! ## The constraint on a definition -/

/-- Parameters have distinct names, and none has the name of the variable arguments. The names
before them are given. -/
def checkParameters (before : List Bytes) : List Bytes → Except Cause Unit
  | [] => .ok ()
  | name :: rest =>
    if name = variableArguments then .error .invalidVariableArguments
    else if name ∈ before then .error (.duplicateParameter name.toText)
    else checkParameters (name :: before) rest

/-- Whether every `#` in a list of tokens stands before a parameter. -/
def stringizesParameters (m : Macro) : List Token → Bool
  | [] => true
  | t :: rest =>
    (!t.isHash || (rest.head?.bind m.parameter?).isSome) && stringizesParameters m rest

/-- Whether a macro takes variable arguments. -/
def isVariadic (m : Macro) : Bool :=
  match m.kind with
  | .function _ variadic => variadic
  | _ => false

def parameters (m : Macro) : List Bytes :=
  match m.kind with
  | .function parameters _ => parameters
  | _ => []

def isFunctionLike (m : Macro) : Bool :=
  match m.kind with
  | .function _ _ => true
  | _ => false

/-- The constraint on a definition: besides that on parameters, no `##` at either end, the name of
the variable arguments only if there are any, and every `#` of a function-like macro before a
parameter. -/
def check (m : Macro) : Except Cause Unit := do
  checkParameters [] m.parameters
  if m.replacement.head?.any Token.isPaste || m.replacement.getLast?.any Token.isPaste then
    throw .pasteAtEdge
  if !m.isVariadic && m.replacement.any isVariableArguments then
    throw .invalidVariableArguments
  if m.isFunctionLike && !m.stringizesParameters m.replacement then
    throw .invalidStringize

/-! ## Equal definitions -/

/-- Whether two lists of tokens are spelled alike, white-space included. -/
def sameSpelling : List Token → List Token → Bool
  | [], [] => true
  | a :: as, b :: bs => a.text = b.text && a.spaced = b.spaced && sameSpelling as bs
  | _, _ => false

/-- Whether two replacement lists are spelled alike. White-space before them does not count. -/
def sameReplacement : List Token → List Token → Bool
  | [], [] => true
  | a :: as, b :: bs => a.text = b.text && sameSpelling as bs
  | _, _ => false

/-- Whether two macros have the same kind, with the same parameters, and the same replacement. -/
def sameDefinition (m n : Macro) : Bool :=
  m.kind = n.kind && sameReplacement m.replacement n.replacement

end Macro

end CPreprocessor
