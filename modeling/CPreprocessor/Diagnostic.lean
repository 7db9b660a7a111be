import CPreprocessor.Ascii

/-!
# Diagnostics

An error ends the preprocessing of a source and is a cause at a location (`Fault`), or a file that
cannot be read. A warning does not end anything. Causes are what went wrong; their wording
is in `Cause.message` and `WarningCause.message` alone.
-/

namespace CPreprocessor

/-- The place that a diagnostic refers to: columns of one line, the last one excluded. -/
structure Location where
  file : String
  line : Nat
  startColumn : Nat
  endColumn : Nat
  deriving DecidableEq

def Location.text (l : Location) : String :=
  l.file ++ ":" ++ toString l.line ++ ":" ++ toString l.startColumn

/-! ## Errors -/

/-- Why a file cannot be read or written. -/
inductive FileProblem
  | notFound
  | isDirectory
  | notDirectory
  | other (description : String)
  deriving DecidableEq

def FileProblem.message : FileProblem → String
  | .notFound => "No such file or directory (os error 2)"
  | .isDirectory => "Is a directory (os error 21)"
  | .notDirectory => "Not a directory (os error 20)"
  | .other description => description

/-- Operations on bits that have no result for some operands. -/
inductive PartialOperation
  | quotient
  | remainder
  | shiftRight
  deriving DecidableEq

def PartialOperation.message : PartialOperation → String
  | .quotient => "attempt to divide by zero"
  | .remainder => "attempt to calculate the remainder with a divisor of zero"
  | .shiftRight => "attempt to shift right with overflow"

/-- Everything that can be wrong with a source. -/
inductive Cause
  | invalidCharacterConstant (text : String)
  | escapeOutOfRange
  | characterConstantTooLong
  /-- The expression contains a construction that has no value in a directive. -/
  | disallowed (construction : String)
  | invalidInteger (text : String)
  | integerTooLarge (text : String)
  | divisionByZero
  | unparseableExpression
  | missingExpression
  /-- A parse tree does not have a part that its production has. -/
  | missingPart (part : String)
  | invalidDirective
  /-- The directive continues or ends a conditional that was not begun. -/
  | unbalanced (directive : String)
  | afterElse (directive : String)
  | unterminatedConditional
  | errorDirective (text : String)
  | invalidInclude
  | includeNotFound (name : String)
  | includeTooDeep
  | invalidLine
  /-- The presumed number of a line is too large to be computed. This is no error of the source, and
  the program stops at once. -/
  | lineOverflow
  /-- An operation has no result for its operands. This is no error of the source, and the program
  stops at once. -/
  | undefined (operation : PartialOperation)
  | argumentCount (name : String) (given expected : Nat)
  | unterminatedInvocation (name : String)
  | invalidPaste (left right : String)
  | pasteAtEdge
  | invalidStringize
  | invalidVariableArguments
  | duplicateParameter (name : String)
  | redefinition (name : String)
  | reservedName (name : String)
  | definedWithoutIdentifier
  deriving DecidableEq

/-- A text between double quotes. -/
def inQuotes (text : String) : String := "\"" ++ text ++ "\""

def Cause.message : Cause → String
  | .invalidCharacterConstant text => "invalid character constant " ++ text
  | .escapeOutOfRange => "escape sequence out of range"
  | .characterConstantTooLong => "character constant too long for its type"
  | .disallowed construction =>
    construction ++ " is not allowed in a preprocessor constant expression"
  | .invalidInteger text => "invalid integer constant " ++ inQuotes text
  | .integerTooLarge text => "integer constant " ++ inQuotes text ++ " is too large"
  | .divisionByZero => "division by zero in preprocessor expression"
  | .unparseableExpression => "could not parse constant expression"
  | .missingExpression => "#if with no expression"
  | .missingPart part => "parse tree is missing a " ++ part
  | .invalidDirective => "invalid preprocessing directive"
  | .unbalanced directive => "#" ++ directive ++ " without #if"
  | .afterElse directive => "#" ++ directive ++ " after #else"
  | .unterminatedConditional => "unterminated conditional directive"
  | .errorDirective text => "#error " ++ text
  | .invalidInclude => "invalid #include, expected \"FILENAME\" or <FILENAME>"
  | .includeNotFound name => "'" ++ name ++ "' file not found"
  | .includeTooDeep => "#include nested too deeply"
  | .invalidLine => "invalid #line directive"
  | .lineOverflow => "attempt to add with overflow"
  | .undefined operation => operation.message
  | .argumentCount name given expected =>
    "macro " ++ inQuotes name ++ " passed " ++ toString given ++ " arguments, but takes " ++
      toString expected
  | .unterminatedInvocation name => "unterminated invocation of macro " ++ inQuotes name
  | .invalidPaste left right =>
    "pasting " ++ inQuotes left ++ " and " ++ inQuotes right ++
      " does not give a valid preprocessing token"
  | .pasteAtEdge => "'##' cannot appear at either end of a macro expansion"
  | .invalidStringize => "'#' is not followed by a macro parameter"
  | .invalidVariableArguments =>
    "__VA_ARGS__ can only appear in the expansion of a variadic macro"
  | .duplicateParameter name => "duplicate macro parameter " ++ inQuotes name
  | .redefinition name => inQuotes name ++ " redefined with a different body"
  | .reservedName name => inQuotes name ++ " cannot be defined or undefined"
  | .definedWithoutIdentifier => "operator \"defined\" requires an identifier"

/-- Why preprocessing ended. -/
inductive Fault
  | unreadable (problem : FileProblem)
  | located (location : Location) (cause : Cause)
  deriving DecidableEq

/-- The fault that has the given cause at a location. -/
def Cause.located (cause : Cause) (location : Location) : Fault := .located location cause

/-- Whether the program stops at once, and reports no error. -/
def Cause.isPanic : Cause → Bool
  | .lineOverflow | .undefined _ => true
  | _ => false

def Fault.isPanic : Fault → Bool
  | .located _ cause => cause.isPanic
  | .unreadable _ => false

/-- The text of a fault. A panic does not say where it is in the source. -/
def Fault.message : Fault → String
  | .unreadable problem => "IO error: " ++ problem.message
  | .located location cause =>
    if cause.isPanic then cause.message else location.text ++ ": error: " ++ cause.message

/-! ## Warnings -/

/-- Everything that is worth a warning. -/
inductive WarningCause
  | unterminatedComment
  | extraTokens (directive : String)
  | missingSpace
  | escapeTruncated
  | multipleCharacters
  deriving DecidableEq

def WarningCause.message : WarningCause → String
  | .unterminatedComment => "unterminated comment"
  | .extraTokens directive => "extra tokens at end of #" ++ directive ++ " directive"
  | .missingSpace => "missing white-space after the macro name"
  | .escapeTruncated => "escape sequence out of range, it doesn't fit in one byte"
  | .multipleCharacters => "multi-character character constant"

structure Warning where
  location : Location
  cause : WarningCause
  deriving DecidableEq

def Warning.message (w : Warning) : String :=
  w.location.text ++ ": warning: " ++ w.cause.message

/-- A computation that can fail and that reports warnings, which a failure does not take back. -/
abbrev Diagnosed := ExceptT Fault (StateM (List Warning))

/-- Reports a warning. -/
def Diagnosed.warn (warning : Warning) : Diagnosed Unit := modify (· ++ [warning])

end CPreprocessor
