import CPreprocessor.Grammar.Basic
import CPreprocessor.Phrase.Basic

/-!
# The grammar of directives and constant expressions

Expressions have every form that can be written without declarations, so that one that may not
occur in a directive is recognized and can be named in a message. Precedence is a matter of levels:
`binaryLevel` is a level of operators that associate to the left.
-/

namespace CPreprocessor.Phrase

open GrammarSymbol Nonterminal

/-- A token spells the literal that is its canonical spelling. -/
instance : Spelled Token := ⟨Token.isSpelled⟩

abbrev Symbols := List (GrammarSymbol Nonterminal Token)

abbrev Productions := List (Production Nonterminal Token Tag)

/-! ## Directives -/

/-- A directive with the given name. -/
def directiveOf (tag : Tag) (name : String) (rest : Symbols) : Production Nonterminal Token Tag :=
  ⟨tag, spelled "#" :: spelled name :: rest⟩

/-- A directive with the given name that any tokens may follow. -/
def directiveWithTail (tag : Tag) (name : String) (rest : Symbols) : Productions :=
  [directiveOf tag name rest, directiveOf tag name (rest ++ [nonterminal tokens])]

def directives : Productions :=
  directiveWithTail .ifExpression "if" [] ++
  directiveWithTail .elifExpression "elif" [] ++
  directiveWithTail .ifDefined "ifdef" [such Token.isIdentifier] ++
  directiveWithTail .ifNotDefined "ifndef" [such Token.isIdentifier] ++
  directiveWithTail .elseGroup "else" [] ++
  directiveWithTail .endIf "endif" [] ++
  [directiveOf .inclusion "include" [nonterminal tokens],
    directiveOf .defineObject "define" [such Token.isIdentifier],
    directiveOf .defineObject "define" [such Token.isIdentifier, nonterminal replacementList]] ++
  directiveWithTail .defineFunction "define"
    [such Token.isIdentifier, such Token.opensParameters, spelled ")"] ++
  directiveWithTail .defineFunction "define"
    [such Token.isIdentifier, such Token.opensParameters, nonterminal identifierList,
      spelled ")"] ++
  directiveWithTail .defineVariadic "define"
    [such Token.isIdentifier, such Token.opensParameters, spelled "...", spelled ")"] ++
  directiveWithTail .defineVariadic "define"
    [such Token.isIdentifier, such Token.opensParameters, nonterminal identifierList, spelled ",",
      spelled "...", spelled ")"] ++
  directiveWithTail .undefine "undef" [such Token.isIdentifier] ++
  [directiveOf .line "line" [nonterminal tokens]] ++
  directiveWithTail .error "error" [] ++
  directiveWithTail .pragma "pragma" [] ++
  [⟨.null, [spelled "#"]⟩,
    ⟨.nonDirective, [spelled "#", such Token.isNoDirectiveName]⟩,
    ⟨.nonDirective, [spelled "#", such Token.isNoDirectiveName, nonterminal tokens]⟩]

/-! ## Expressions -/

/-- A level of binary operators that associate to the left. -/
def binaryLevel (level operand : Nonterminal) (operators : List (String × BinaryOperator)) :
    Productions :=
  ⟨.next, [nonterminal operand]⟩ :: operators.map fun (spelling, operator) =>
    ⟨.binary operator, [nonterminal level, spelled spelling, nonterminal operand]⟩

def assignmentOperators : List String :=
  ["=", "*=", "/=", "%=", "+=", "-=", "<<=", ">>=", "&=", "^=", "|="]

def unaryOperators : List (String × UnaryOperator) :=
  [("&", .addressOf), ("*", .dereference), ("+", .plus), ("-", .minus), ("~", .complement),
    ("!", .not)]

/-- A non-empty list without separators. -/
def sequenceOf (list : Nonterminal) (element : Token → Bool) : Productions :=
  [⟨.next, [nonterminal list, such element]⟩, ⟨.next, [such element]⟩]

/-- The rule of every nonterminal. -/
def rule : Nonterminal → Rule Nonterminal Token Tag
  | directive => { name := "directive", productions := directives }
  | tokens =>
    { name := "pp-tokens", isList := true, productions := sequenceOf tokens fun _ => true }
  | identifierList =>
    { name := "identifier-list", isList := true, productions :=
      [⟨.next, [nonterminal identifierList, spelled ",", such Token.isIdentifier]⟩,
        ⟨.next, [such Token.isIdentifier]⟩] }
  | replacementList =>
    { name := "replacement-list", productions :=
      [⟨.next, [such (!Token.opensParameters ·)]⟩,
        ⟨.next, [such (!Token.opensParameters ·), nonterminal tokens]⟩] }
  | constantExpression =>
    { name := "constant-expression", productions := [⟨.next, [nonterminal expression]⟩] }
  | expression =>
    { name := "expression", productions :=
      [⟨.next, [nonterminal assignmentExpression]⟩,
        ⟨.comma, [nonterminal expression, spelled ",", nonterminal assignmentExpression]⟩] }
  | assignmentExpression =>
    { name := "assignment-expression", productions :=
      ⟨.next, [nonterminal conditionalExpression]⟩ :: assignmentOperators.map fun operator =>
        ⟨.assign,
          [nonterminal unaryExpression, spelled operator, nonterminal assignmentExpression]⟩ }
  | conditionalExpression =>
    { name := "conditional-expression", productions :=
      [⟨.next, [nonterminal logicalOrExpression]⟩,
        ⟨.conditional,
          [nonterminal logicalOrExpression, spelled "?", nonterminal expression, spelled ":",
            nonterminal conditionalExpression]⟩] }
  | logicalOrExpression =>
    { name := "logical-OR-expression", productions :=
      binaryLevel logicalOrExpression logicalAndExpression [("||", .logicalOr)] }
  | logicalAndExpression =>
    { name := "logical-AND-expression", productions :=
      binaryLevel logicalAndExpression inclusiveOrExpression [("&&", .logicalAnd)] }
  | inclusiveOrExpression =>
    { name := "inclusive-OR-expression", productions :=
      binaryLevel inclusiveOrExpression exclusiveOrExpression [("|", .bitOr)] }
  | exclusiveOrExpression =>
    { name := "exclusive-OR-expression", productions :=
      binaryLevel exclusiveOrExpression andExpression [("^", .bitXor)] }
  | andExpression =>
    { name := "AND-expression", productions :=
      binaryLevel andExpression equalityExpression [("&", .bitAnd)] }
  | equalityExpression =>
    { name := "equality-expression", productions :=
      binaryLevel equalityExpression relationalExpression [("==", .equal), ("!=", .notEqual)] }
  | relationalExpression =>
    { name := "relational-expression", productions :=
      binaryLevel relationalExpression shiftExpression
        [("<", .less), (">", .greater), ("<=", .lessEqual), (">=", .greaterEqual)] }
  | shiftExpression =>
    { name := "shift-expression", productions :=
      binaryLevel shiftExpression additiveExpression [("<<", .shiftLeft), (">>", .shiftRight)] }
  | additiveExpression =>
    { name := "additive-expression", productions :=
      binaryLevel additiveExpression multiplicativeExpression [("+", .add), ("-", .subtract)] }
  | multiplicativeExpression =>
    { name := "multiplicative-expression", productions :=
      binaryLevel multiplicativeExpression castExpression
        [("*", .multiply), ("/", .divide), ("%", .remainder)] }
  | castExpression =>
    { name := "cast-expression", productions :=
      [⟨.next, [nonterminal unaryExpression]⟩,
        ⟨.cast, [spelled "(", nonterminal typeName, spelled ")", nonterminal castExpression]⟩] }
  | unaryExpression =>
    { name := "unary-expression", productions :=
      [⟨.next, [nonterminal postfixExpression]⟩,
        ⟨.preIncrement, [spelled "++", nonterminal unaryExpression]⟩,
        ⟨.preDecrement, [spelled "--", nonterminal unaryExpression]⟩,
        ⟨.sizeOf, [spelled "sizeof", nonterminal unaryExpression]⟩,
        ⟨.sizeOf, [spelled "sizeof", spelled "(", nonterminal typeName, spelled ")"]⟩,
        ⟨.alignOf, [spelled "_Alignof", spelled "(", nonterminal typeName, spelled ")"]⟩] ++
      unaryOperators.map fun (spelling, operator) =>
        ⟨.unary operator, [spelled spelling, nonterminal castExpression]⟩ }
  | postfixExpression =>
    { name := "postfix-expression", productions :=
      [⟨.next, [nonterminal primaryExpression]⟩,
        ⟨.subscript,
          [nonterminal postfixExpression, spelled "[", nonterminal expression, spelled "]"]⟩,
        ⟨.call, [nonterminal postfixExpression, spelled "(", spelled ")"]⟩,
        ⟨.call,
          [nonterminal postfixExpression, spelled "(", nonterminal argumentExpressionList,
            spelled ")"]⟩,
        ⟨.member, [nonterminal postfixExpression, spelled ".", such Token.isIdentifier]⟩,
        ⟨.arrow, [nonterminal postfixExpression, spelled "->", such Token.isIdentifier]⟩,
        ⟨.postIncrement, [nonterminal postfixExpression, spelled "++"]⟩,
        ⟨.postDecrement, [nonterminal postfixExpression, spelled "--"]⟩] }
  | argumentExpressionList =>
    { name := "argument-expression-list", isList := true, productions :=
      [⟨.next,
          [nonterminal argumentExpressionList, spelled ",", nonterminal assignmentExpression]⟩,
        ⟨.next, [nonterminal assignmentExpression]⟩] }
  | primaryExpression =>
    { name := "primary-expression", productions :=
      [⟨.identifier, [such Token.isOperand]⟩,
        ⟨.number, [such Token.isNumber]⟩,
        ⟨.character, [such Token.isCharacter]⟩,
        ⟨.stringLiteral, [such Token.isString]⟩,
        ⟨.parenthesized, [spelled "(", nonterminal expression, spelled ")"]⟩] }
  | typeName =>
    { name := "type-name", productions :=
      [⟨.typeName, [nonterminal specifierQualifierList]⟩,
        ⟨.typeName, [nonterminal specifierQualifierList, nonterminal pointer]⟩] }
  | specifierQualifierList =>
    { name := "specifier-qualifier-list", isList := true,
      productions := sequenceOf specifierQualifierList Token.isTypeSpecifier }
  | pointer =>
    { name := "pointer", isList := true, productions := sequenceOf pointer Token.isStar }

/-- Every nonterminal. -/
def nonterminals : List Nonterminal :=
  [directive, tokens, identifierList, replacementList, constantExpression, expression,
    assignmentExpression, conditionalExpression, logicalOrExpression, logicalAndExpression,
    inclusiveOrExpression, exclusiveOrExpression, andExpression, equalityExpression,
    relationalExpression, shiftExpression, additiveExpression, multiplicativeExpression,
    castExpression, unaryExpression, postfixExpression, argumentExpressionList, primaryExpression,
    typeName, specifierQualifierList, pointer]

theorem mem_nonterminals (r : Nonterminal) : r ∈ nonterminals := by cases r <;> decide

/-- The grammar of directives and constant expressions. -/
def grammar : Grammar Nonterminal Token Tag where
  nonterminals := nonterminals
  rule := rule
  productions_eq_nil r h := absurd (mem_nonterminals r) h

end CPreprocessor.Phrase
