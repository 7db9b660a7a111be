import CPreprocessor.Phrase.Basic

/-!
# Directives

A directive is a line of tokens that begins with `#`. `Directive.ofTokens` tells which one it is and
takes its operands out of the line; the tokens of the line that belong to no operand are kept as its
tail. It has no result for a directive with the right name and wrong operands.
-/

namespace CPreprocessor

/-- A directive and its operands. -/
inductive Directive
  | ifExpression (expression : List Token)
  | elifExpression (expression : List Token)
  | ifDefined (name : Token) (tail : List Token)
  | ifNotDefined (name : Token) (tail : List Token)
  | elseGroup (tail : List Token)
  | endIf (tail : List Token)
  | inclusion (operand : List Token)
  | defineObject (name : Token) (replacement : List Token)
  | defineFunction (name : Token) (parameters : List Token) (variadic : Bool)
      (replacement : List Token)
  | undefine (name : Token) (tail : List Token)
  | line (operand : List Token)
  | error (text : List Token)
  | pragma (text : List Token)
  | null
  | nonDirective (text : List Token)
  deriving DecidableEq

namespace Directive

/-- Reads a parameter list from a place where a parameter is expected: the parameters, whether
variable arguments follow them, and the tokens after the closing parenthesis. -/
def parameterList : List Token → Option (List Token × Bool × List Token)
  | [] => none
  | [_] => none
  | t :: next :: rest =>
    if t.isIdentifier then
      if next.isClose then some ([t], false, rest)
      else if next.isComma then
        (parameterList rest).map fun (parameters, variadic, after) =>
          (t :: parameters, variadic, after)
      else none
    else if t.isPunctuator (Bytes.ofString "...") ∧ next.isClose then some ([], true, rest)
    else none

/-- Reads the tokens after the name of a macro to be defined. -/
def definition (name : Token) : List Token → Option Directive
  | [] => some (.defineObject name [])
  | t :: rest =>
    if !t.opensParameters then some (.defineObject name (t :: rest))
    else
      match rest with
      | [] => none
      | close :: replacement =>
        if close.isClose then some (.defineFunction name [] false replacement)
        else (parameterList rest).map fun (parameters, variadic, replacement) =>
          .defineFunction name parameters variadic replacement

/-- Reads an identifier and the tokens after it. -/
def withIdentifier (directive : Token → List Token → Option Directive) :
    List Token → Option Directive
  | [] => none
  | t :: rest => if t.isIdentifier then directive t rest else none

/-- Reads at least one token. -/
def withOperand (directive : List Token → Directive) : List Token → Option Directive
  | [] => none
  | operand => some (directive operand)

/-- How the tokens after the name of a directive are read. -/
def readers : List (String × (List Token → Option Directive)) :=
  [("if", (some <| ifExpression ·)),
    ("ifdef", withIdentifier (some <| ifDefined · ·)),
    ("ifndef", withIdentifier (some <| ifNotDefined · ·)),
    ("elif", (some <| elifExpression ·)),
    ("else", (some <| elseGroup ·)),
    ("endif", (some <| endIf ·)),
    ("include", withOperand inclusion),
    ("define", withIdentifier definition),
    ("undef", withIdentifier (some <| undefine · ·)),
    ("line", withOperand line),
    ("error", (some <| error ·)),
    ("pragma", (some <| pragma ·))]

/-- How the tokens after the given token are read, if it is the name of a directive. -/
def reader? (name : Token) : Option (List Token → Option Directive) :=
  if name.isIdentifier then
    (readers.find? fun (spelling, _) => name.text = Bytes.ofString spelling).map Prod.snd
  else none

/-- The directive that a line beginning with `#` is. -/
def ofTokens : List Token → Option Directive
  | [] | [_] => some null
  | _ :: name :: rest =>
    match reader? name with
    | some read => read rest
    | none => some (nonDirective (name :: rest))

/-! ## Conditionals -/

/-- Whether a directive continues or closes a conditional. -/
def continuesConditional : Directive → Bool
  | .elifExpression _ | .elseGroup _ | .endIf _ => true
  | _ => false

/-- The names of the directives that open a conditional. -/
def openingNames : List Bytes := ["if", "ifdef", "ifndef"].map Bytes.ofString

/-- Whether a line has the name of a directive that opens a conditional, whatever its operands. -/
def beginsConditional : List Token → Bool
  | _ :: name :: _ => name.isIdentifier && openingNames.contains name.text
  | _ => false

end Directive

end CPreprocessor
