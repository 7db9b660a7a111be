import CPreprocessor.Proofs.Macro.Expansion

/-!
# Prosser's algorithm

Macro expansion as a recursive specification, with the placemarkers of the standard. `Expands` says
what tokens are expanded to, or which error their expansion ends with, by one rule for each thing
that a token can be. It says nothing about the order of work and does not have to end.

The replacement list of a macro is a sequence of operands (`operands`), which is assembled from left
to right (`assemble`): the value of an operand is appended to what there is, or glued to it after
`##`. The specification is over what a token glued together hides (`hide`), given what its two parts
hide.
-/

namespace CPreprocessor.Prosser

/-- What a replacement list is assembled to: tokens, and none for each placemarker. -/
abbrev Sequence := List (Option Token)

/-! ## Gluing -/

section

variable (hide : HideSet → HideSet → HideSet) (site : Location)

/-- The token that the spellings of two tokens together are. It has white-space before it if the
left one has. -/
def glueTokens (left right : Token) : Except Fault Token :=
  let text := left.text ++ right.text
  match Token.lex text with
  | [t] =>
    if t.text = text then
      .ok { left with kind := t.kind, text, hidden := hide left.hidden right.hidden }
    else .error (.located site (.invalidPaste left.spelling right.spelling))
  | _ => .error (.located site (.invalidPaste left.spelling right.spelling))

/-- A placemarker is the identity of gluing. -/
def join : Option Token → Option Token → Except Fault (Option Token)
  | none, right => .ok right
  | some left, none => .ok (some left)
  | some left, some right => some <$> glueTokens hide site left right

/-- The last of some tokens is joined with the first of others. -/
def glue : Sequence → Sequence → Except Fault Sequence
  | [], _ => .error (.located site .pasteAtEdge)
  | [_], [] => .error (.located site .pasteAtEdge)
  | [left], right :: rights => do return (← join hide site left right) :: rights
  | left :: next :: lefts, rights => do return left :: (← glue (next :: lefts) rights)

end

/-! ## Replacement lists -/

/-- A part of a replacement list. -/
inductive Operand
  /-- A token that stands for itself. -/
  | token (t : Token)
  /-- A `#` and the parameter after it, which stands for the argument of the given index. -/
  | string (mark : Token) (index : Nat)
  /-- A parameter; the flag tells whether there is a `##` directly before or after it. -/
  | argument (parameter : Token) (index : Nat) (pasted : Bool)

/-- The parts of a replacement list, or of the rest of one that begins after `##` or not. -/
def operands (m : Macro) (afterPaste : Bool) : List Token → List Operand
  | [] => []
  | [t] =>
    match m.parameter? t with
    | none => [.token t]
    | some index => [.argument t index afterPaste]
  | t :: next :: rest =>
    match (if t.isHash then m.parameter? next else none) with
    | some index => .string t index :: operands m false rest
    | none =>
      match m.parameter? t with
      | none => .token t :: operands m t.isPaste (next :: rest)
      | some index =>
        .argument t index (afterPaste || next.isPaste) :: operands m false (next :: rest)

namespace Operand

/-- Whether a part is the operator `##`. An argument or a string never is. -/
def isOperator : Operand → Bool
  | token t => t.isPaste
  | _ => false

/-- The argument that has to be expanded for a part. -/
def demand? : Operand → Option Nat
  | argument _ index false => some index
  | _ => none

/-- The tokens that a part stands for, given the arguments as they are and fully expanded. -/
def value (given expanded : Nat → List Token) : Operand → Sequence
  | token t => [some t]
  | string mark index => [some (stringize mark (given index))]
  | argument parameter index pasted =>
    match if pasted then given index else expanded index with
    | [] => if pasted then [none] else []
    | first :: rest => some { first with spaced := parameter.spaced } :: rest.map some

end Operand

/-- The arguments that have to be expanded for a replacement list, in order. -/
def demands (m : Macro) : List Nat := (operands m false m.replacement).filterMap Operand.demand?

/-- Appends the values of parts to what there is; the value after an operator is glued to it. -/
def assemble (hide : HideSet → HideSet → HideSet) (site : Location) (value : Operand → Sequence) :
    Sequence → List Operand → Except Fault Sequence
  | before, [] => .ok before
  | before, [o] =>
    if o.isOperator then .error (.located site .pasteAtEdge) else .ok (before ++ value o)
  | before, o :: right :: rest =>
    if o.isOperator then do
      assemble hide site value (← glue hide site before (value right)) rest
    else assemble hide site value (before ++ value o) (right :: rest)

/-- The replacement of an invocation: the tokens of a replacement list are where the invocation is,
begin with its white-space, and hide the given names besides those that they hide already. -/
def placed (site : Token) (hidden : HideSet) (sequence : Sequence) : List Token :=
  ((sequence.filterMap id).map fun t =>
    { t with hidden := t.hidden.union hidden, position := site.position }).modifyHead
      fun t => { t with spaced := site.spaced }

/-! ## Expansion -/

/-- A token names a macro that it does not hide. -/
structure Names (macros : MacroTable) (t : Token) (m : Macro) : Prop where
  isIdentifier : t.isIdentifier = true
  notHidden : t.text ∉ t.hidden
  lookup : macros.lookup t.text = some m

/-- A token names a function-like macro and an argument list begins after it. -/
structure Opens (macros : MacroTable) (t : Token) (rest : List Token) (m : Macro)
    (parameters : List Bytes) (variadic : Bool) : Prop extends Names macros t m where
  kind : m.kind = .function parameters variadic
  isOpen : rest.head?.any Token.isOpen = true

/-- A token and those after it are an invocation with the given arguments. -/
structure Invokes (macros : MacroTable) (t : Token) (rest : List Token) (m : Macro)
    (parameters : List Bytes) (variadic : Bool) (i : Invocation) (arguments : List (List Token)) :
    Prop extends Opens macros t rest m parameters variadic where
  invocation : Expander.invocation? parameters.length variadic rest = some i
  arguments : fitArguments parameters.length variadic i.arguments = some arguments

open Expander (argument invocation?)

/-- **Prosser's algorithm.** -/
inductive Expands (hide : HideSet → HideSet → HideSet) (e : Expander) :
    List Token → Except Fault (List Token) → Prop
  | nil : Expands hide e [] (.ok [])
  /-- A token that names no macro, or a function-like one without an argument list. -/
  | other {t : Token} {rest : List Token} {result : Except Fault (List Token)}
      (h : ∀ m, Names e.macros t m →
        m.isFunctionLike = true ∧ rest.head?.any Token.isOpen = false)
      (others : Expands hide e rest result) : Expands hide e (t :: rest) (result.map (t :: ·))
  | line {t : Token} {rest : List Token} {m : Macro} {result : Except Fault (List Token)}
      (names : Names e.macros t m) (kind : m.kind = .line)
      (fits : IsInt64 (t.position.line + e.lineDelta)) (others : Expands hide e rest result) :
      Expands hide e (t :: rest) (result.map (
        { t with
          kind := .number
          text := Bytes.ofString (toString (t.position.line + e.lineDelta)) } :: ·))
  /-- The number of a line that is too large to be computed. -/
  | lineFault {t : Token} {rest : List Token} {m : Macro} (names : Names e.macros t m)
      (kind : m.kind = .line) (overflows : ¬ IsInt64 (t.position.line + e.lineDelta)) :
      Expands hide e (t :: rest) (.error (.located (e.locationOf t) .lineOverflow))
  | file {t : Token} {rest : List Token} {m : Macro} {result : Except Fault (List Token)}
      (names : Names e.macros t m) (kind : m.kind = .file) (others : Expands hide e rest result) :
      Expands hide e (t :: rest) (result.map (
        { t with kind := .string, text := quote (Bytes.ofString e.file) } :: ·))
  /-- The replacement of an object-like macro hides the macro and what its name hides, and is
  expanded with what follows. -/
  | object {t : Token} {rest : List Token} {m : Macro} {sequence : Sequence}
      {result : Except Fault (List Token)} (names : Names e.macros t m) (kind : m.kind = .object)
      (assembled : assemble hide (e.locationOf t) (Operand.value (fun _ => []) (fun _ => [])) []
        (operands m false m.replacement) = .ok sequence)
      (others : Expands hide e (placed t (t.hidden.insert m.name) sequence ++ rest) result) :
      Expands hide e (t :: rest) result
  | objectFault {t : Token} {rest : List Token} {m : Macro} {fault : Fault}
      (names : Names e.macros t m) (kind : m.kind = .object)
      (assembled : assemble hide (e.locationOf t) (Operand.value (fun _ => []) (fun _ => [])) []
        (operands m false m.replacement) = .error fault) :
      Expands hide e (t :: rest) (.error fault)
  | unterminated {t : Token} {rest : List Token} {m : Macro} {parameters : List Bytes}
      {variadic : Bool} (opens : Opens e.macros t rest m parameters variadic)
      (invocation : invocation? parameters.length variadic rest = none) :
      Expands hide e (t :: rest)
        (.error (.located (e.locationOf t) (.unterminatedInvocation t.spelling)))
  | miscounted {t : Token} {rest : List Token} {m : Macro} {parameters : List Bytes}
      {variadic : Bool} {i : Invocation} (opens : Opens e.macros t rest m parameters variadic)
      (invocation : invocation? parameters.length variadic rest = some i)
      (arguments : fitArguments parameters.length variadic i.arguments = none) :
      Expands hide e (t :: rest) (.error (.located (e.locationOf t)
        (.argumentCount t.spelling i.arguments.length parameters.length)))
  /-- The first argument that cannot be expanded, of those that have to be. -/
  | argumentFault {t : Token} {rest : List Token} {m : Macro} {parameters : List Bytes}
      {variadic : Bool} {i : Invocation} {arguments : List (List Token)} {earlier later : List Nat}
      {index : Nat} {expanded : Nat → List Token} {fault : Fault}
      (invokes : Invokes e.macros t rest m parameters variadic i arguments)
      (demanded : demands m = earlier ++ index :: later)
      (expands : ∀ j ∈ earlier, Expands hide e (argument arguments j) (.ok (expanded j)))
      (fails : Expands hide e (argument arguments index) (.error fault)) :
      Expands hide e (t :: rest) (.error fault)
  /-- The replacement of a function-like macro hides the macro and what both its name and the
  closing parenthesis hide, and is expanded with what follows. -/
  | function {t : Token} {rest : List Token} {m : Macro} {parameters : List Bytes}
      {variadic : Bool} {i : Invocation} {arguments : List (List Token)}
      {expanded : Nat → List Token} {sequence : Sequence} {result : Except Fault (List Token)}
      (invokes : Invokes e.macros t rest m parameters variadic i arguments)
      (expands : ∀ j ∈ demands m, Expands hide e (argument arguments j) (.ok (expanded j)))
      (assembled : assemble hide (e.locationOf t) (Operand.value (argument arguments) expanded) []
        (operands m false m.replacement) = .ok sequence)
      (others : Expands hide e
        (placed t ((t.hidden.inter i.close.hidden).insert m.name) sequence ++ i.after) result) :
      Expands hide e (t :: rest) result
  | functionFault {t : Token} {rest : List Token} {m : Macro} {parameters : List Bytes}
      {variadic : Bool} {i : Invocation} {arguments : List (List Token)}
      {expanded : Nat → List Token} {fault : Fault}
      (invokes : Invokes e.macros t rest m parameters variadic i arguments)
      (expands : ∀ j ∈ demands m, Expands hide e (argument arguments j) (.ok (expanded j)))
      (assembled : assemble hide (e.locationOf t) (Operand.value (argument arguments) expanded) []
        (operands m false m.replacement) = .error fault) :
      Expands hide e (t :: rest) (.error fault)

end CPreprocessor.Prosser
