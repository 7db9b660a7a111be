import CPreprocessor.Expression.Value
import CPreprocessor.Grammar.Chart
import CPreprocessor.Phrase.Grammar
import CPreprocessor.Session.State

/-!
# Conditions

The condition of `#if` and `#elif` is a constant expression. Before it is evaluated, `defined` and
its operand are replaced by whether that macro is defined, macros are expanded, and what is then
still an identifier is replaced by zero. Expansion leaves an operand of `defined` alone that comes
after the operator in the tokens it is given, and `defined` is replaced once more after it.
-/

namespace CPreprocessor.Condition

/-- Reads an identifier, or an identifier in parentheses, and the tokens after it. -/
def operand : List Token → Option (Token × List Token)
  | name :: rest =>
    if name.isIdentifier then some (name, rest)
    else if name.isOpen then
      match rest with
      | inner :: close :: after =>
        if inner.isIdentifier && close.isClose then some (inner, after) else none
      | _ => none
    else none
  | [] => none

theorem length_lt_of_operand {tokens rest : List Token} {name : Token}
    (h : operand tokens = some (name, rest)) : rest.length < tokens.length := by
  unfold operand at h
  split at h
  · split at h
    · simp only [Option.some.injEq, Prod.mk.injEq] at h
      simp [← h.2]
    · split at h
      · split at h
        · split at h
          · simp only [Option.some.injEq, Prod.mk.injEq] at h
            simp only [← h.2, List.length_cons]
            omega
          · simp at h
        · simp at h
      · simp at h
  · simp at h

/-- Whether a token is the operator `defined`. -/
def isDefined (t : Token) : Bool := t.isIdentifier && t.text = Bytes.ofString "defined"

/-- The number that a token is replaced by. -/
def digit (t : Token) (one : Bool) : Token :=
  { t with kind := .number, text := Bytes.ofString (if one then "1" else "0") }

section

variable (macros : MacroTable) (file : SourceFile)

/-- Replaces `defined` and its operand. -/
def replaceDefined : List Token → Except Fault (List Token)
  | [] => .ok []
  | t :: rest =>
    if isDefined t then
      match _h : operand rest with
      | none => .error (.located (file.locationOf t) .definedWithoutIdentifier)
      | some (name, after) => do
        return digit t (macros.isDefined name.text) :: (← replaceDefined after)
    else do
      return t :: (← replaceDefined rest)
termination_by tokens => tokens.length
decreasing_by
  · have := length_lt_of_operand _h
    simp only [List.length_cons]
    omega
  · simp

/-- Replaces an identifier. Keywords stay, which leads to an error later. -/
def replaceIdentifier (t : Token) : Token :=
  if t.isIdentifier && !t.isKeyword then digit t false else t

/-- The tokens of a condition as they are evaluated. -/
def prepare (tokens : List Token) : Except Fault (List Token) := do
  let tokens ← replaceDefined macros file tokens
  let tokens ← { file.expander macros with keepDefined := true }.expand tokens
  return (← replaceDefined macros file tokens).map replaceIdentifier

/-- The place of tokens that are not an expression: theirs if they begin and end on one line, and
otherwise that of the directive, which also gives the line. -/
def locationOf (directive : Location) (tokens : List Token) : Location :=
  match tokens.head?, tokens.getLast? with
  | some first, some last =>
    if first.position.line = last.position.line then
      { directive with startColumn := first.position.column, endColumn := last.endColumn }
    else directive
  | _, _ => directive

/-- Whether the condition of the directive at the given location holds. -/
def holds (directive : Location) (tokens : List Token) : Diagnosed Bool := do
  let tokens ← prepare macros file tokens
  if tokens = [] then throw (.located directive .missingExpression)
  match Phrase.grammar.parse .constantExpression tokens with
  | none => throw (.located (locationOf directive tokens) .unparseableExpression)
  | some tree => return (← Expression.evaluate directive true tree).isTrue

end

end CPreprocessor.Condition
