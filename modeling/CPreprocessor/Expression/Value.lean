import CPreprocessor.CharacterConstant.Value
import CPreprocessor.Expression.Operator
import CPreprocessor.Grammar.Tree
import CPreprocessor.IntegerConstant

/-!
# The value of a constant expression

Operands are evaluated from left to right, and all of them are, so that a construction without a
value is an error wherever it occurs. An operand whose value is not used, because the other operand
of `&&` or `||` decides or because the condition of `?:` picks the other branch, is evaluated with
`live` false: there a division by zero is no error.
-/

namespace CPreprocessor.Expression

abbrev ExpressionTree := Tree Nonterminal Token Tag

/-- The name of a construction that has no value in a directive. -/
def construction : Tag → String
  | .comma => "comma operator"
  | .assign => "assignment"
  | .cast => "cast"
  | .sizeOf => "sizeof"
  | .alignOf => "_Alignof"
  | .preIncrement | .postIncrement => "increment operator"
  | .preDecrement | .postDecrement => "decrement operator"
  | .subscript => "array subscript"
  | .call => "function call"
  | .member | .arrow => "member access"
  | .identifier => "identifier"
  | .unary .addressOf => "address-of operator"
  | .unary .dereference => "indirection operator"
  | .stringLiteral => "string literal"
  | _ => "this construct"

/-- The place of an expression in a file: from its first token to its last one if they are on one
line, and otherwise that of the first. An expression without tokens is where the directive is. -/
def locationOf (directive : Location) (tree : ExpressionTree) : Location :=
  match tree.leaves with
  | [] => directive
  | first :: rest =>
    let last := rest.getLast?.getD first
    let stop := if last.position.line = first.position.line then last else first
    ⟨directive.file, first.position.line, first.position.column, stop.endColumn⟩

/-- Whether the right operand of an operator is used, given the value of the left one. -/
def usesRight (operator : BinaryOperator) (left : Value) : Bool :=
  match operator with
  | .logicalAnd => left.isTrue
  | .logicalOr => !left.isTrue
  | _ => true

/-- The value of an operator from those of its operands. -/
def combine (operator : BinaryOperator) (live : Bool) (left right : Value) : Except Cause Value :=
  match operator with
  | .logicalAnd => .ok (.ofBool (left.isTrue && right.isTrue))
  | .logicalOr => .ok (.ofBool (left.isTrue || right.isTrue))
  | _ => operator.apply live left right

/-- The branch that a condition picks, which is unsigned if either branch is. -/
def select (condition : Bool) (yes no : Value) : Value :=
  { if condition then yes else no with unsigned := yes.unsigned || no.unsigned }

/-- What is wrong with a tree whose parts do not have a value. -/
def missingValue (tag : Tag) : Cause :=
  match tag with
  | .next | .parenthesized | .binary _ | .conditional => .missingPart "expression"
  | .unary .plus | .unary .minus | .unary .complement | .unary .not => .missingPart "expression"
  | .number | .character => .missingPart "constant"
  | tag => .disallowed (construction tag)

section

variable (directive : Location)

/-- Puts an error where an expression is. -/
def placed {α : Type} (tree : ExpressionTree) : Except Cause α → Diagnosed α
  | .ok a => return a
  | .error cause => throw (cause.located (locationOf directive tree))

/-- The value of a character constant, with its warnings reported. -/
def evaluateCharacter (tree : ExpressionTree) (text : Bytes) : Diagnosed Value := do
  let (warnings, value) := CharacterConstant.evaluate text
  for warning in warnings do
    Diagnosed.warn ⟨locationOf directive tree, warning⟩
  placed directive tree value

/-- The value of an expression in the given directive. -/
def evaluate (live : Bool) (tree : ExpressionTree) : Diagnosed Value :=
  match tree with
  | .node _ .next _ _ (operand :: _) => evaluate live operand
  | .node _ .parenthesized _ _ (_ :: operand :: _) => evaluate live operand
  | .node _ .number _ _ (.leaf token :: _) =>
    placed directive tree (IntegerConstant.evaluate token.text)
  | .node _ .character _ _ (.leaf token :: _) => evaluateCharacter directive tree token.text
  | .node _ (.unary operator) _ _ (_ :: operand :: _) =>
    match operator.apply? with
    | some apply => apply <$> evaluate live operand
    | none => placed directive tree (.error (.disallowed (construction (.unary operator))))
  | .node _ (.binary operator) _ _ (left :: _ :: right :: _) => do
    let a ← evaluate live left
    let b ← evaluate (live && usesRight operator a) right
    placed directive tree (combine operator live a b)
  | .node _ .conditional _ _ (condition :: _ :: yes :: _ :: no :: _) => do
    let condition := (← evaluate live condition).isTrue
    let a ← evaluate (live && condition) yes
    let b ← evaluate (live && !condition) no
    return select condition a b
  | .node _ tag _ _ _ => placed directive tree (.error (missingValue tag))
  | .leaf _ => placed directive tree (.error (.missingPart "expression"))

end

end CPreprocessor.Expression
