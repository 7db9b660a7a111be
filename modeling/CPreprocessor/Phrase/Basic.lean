import CPreprocessor.Token

/-!
# The phrases of the preprocessing language

Directives and constant expressions are phrases over preprocessing tokens. This module names the
phrases (`Nonterminal`), what a phrase can be (`Tag`), and the classes of tokens that tell them
apart.
-/

namespace CPreprocessor

/-- The nonterminals of directives and expressions. -/
inductive Nonterminal
  | directive
  | tokens
  | identifierList
  | replacementList
  | constantExpression
  | expression
  | assignmentExpression
  | conditionalExpression
  | logicalOrExpression
  | logicalAndExpression
  | inclusiveOrExpression
  | exclusiveOrExpression
  | andExpression
  | equalityExpression
  | relationalExpression
  | shiftExpression
  | additiveExpression
  | multiplicativeExpression
  | castExpression
  | unaryExpression
  | postfixExpression
  | argumentExpressionList
  | primaryExpression
  | typeName
  | specifierQualifierList
  | pointer
  deriving DecidableEq

inductive BinaryOperator
  | multiply
  | divide
  | remainder
  | add
  | subtract
  | shiftLeft
  | shiftRight
  | less
  | greater
  | lessEqual
  | greaterEqual
  | equal
  | notEqual
  | bitAnd
  | bitXor
  | bitOr
  | logicalAnd
  | logicalOr
  deriving DecidableEq

inductive UnaryOperator
  | addressOf
  | dereference
  | plus
  | minus
  | complement
  | not
  deriving DecidableEq

/-- The construction that a production stands for. -/
inductive Tag
  | ifExpression
  | elifExpression
  | ifDefined
  | ifNotDefined
  | elseGroup
  | endIf
  | inclusion
  | defineObject
  | defineFunction
  | defineVariadic
  | undefine
  | line
  | error
  | pragma
  | null
  | nonDirective
  /-- A single part that stands for the whole. -/
  | next
  | comma
  | assign
  | conditional
  | binary (operator : BinaryOperator)
  | unary (operator : UnaryOperator)
  | cast
  | sizeOf
  | alignOf
  | preIncrement
  | preDecrement
  | subscript
  | call
  | member
  | arrow
  | postIncrement
  | postDecrement
  | identifier
  | number
  | character
  | stringLiteral
  | parenthesized
  | typeName
  deriving DecidableEq

namespace Token

/-- The names of the directives. -/
def directiveNames : List Bytes :=
  ["if", "ifdef", "ifndef", "elif", "else", "endif", "include", "define", "undef", "line", "error",
    "pragma"].map Bytes.ofString

/-- The identifiers that can be part of a type name. -/
def typeSpecifiers : List Bytes :=
  ["void", "char", "short", "int", "long", "float", "double", "signed", "unsigned", "_Bool",
    "_Complex", "const", "restrict", "volatile", "_Atomic"].map Bytes.ofString

def isTypeSpecifier (t : Token) : Bool := t.isIdentifier && typeSpecifiers.contains t.text

/-- Whether a token is an identifier that expressions use as a keyword. -/
def isKeyword (t : Token) : Bool :=
  t.isTypeSpecifier || (t.isIdentifier &&
    (t.text = Bytes.ofString "sizeof" || t.text = Bytes.ofString "_Alignof"))

/-- Whether a token is an identifier that can be an operand. -/
def isOperand (t : Token) : Bool := t.isIdentifier && !t.isKeyword

def isNumber (t : Token) : Bool := t.kind = .number

def isCharacter (t : Token) : Bool := t.kind = .character

def isString (t : Token) : Bool := t.kind = .string

/-- Whether a token opens a parameter list if it stands after the name of a macro to be defined:
an open parenthesis without white-space before it. -/
def opensParameters (t : Token) : Bool := t.isOpen && !t.spaced

def isStar (t : Token) : Bool := t.isPunctuator (Bytes.ofString "*")

/-- Whether a token does not name a directive. -/
def isNoDirectiveName (t : Token) : Bool := !(t.isIdentifier && directiveNames.contains t.text)

end Token

end CPreprocessor
