import CPreprocessor.Session.State

/-!
# Inclusion

The operand of `#include` names a file in double quotes or in angle brackets. A file in quotes is
looked for in the directory of the including file first; both are then looked for in the include
directories, in order.
-/

namespace CPreprocessor

/-- The name of a file to be included. -/
structure HeaderName where
  text : String
  /-- Whether the name is in angle brackets. -/
  angled : Bool
  deriving DecidableEq

namespace HeaderName

/-- The name in a header name or string literal. -/
def ofToken (t : Token) : Option HeaderName :=
  let inner := Bytes.toText (t.text.drop 1).dropLast
  if t.text.head? = some Ascii.less then some ⟨inner, true⟩
  else if t.text.head? = some Ascii.doubleQuote then some ⟨inner, false⟩
  else none

/-- The text of the tokens between angle brackets, with a space for every gap between them. -/
def textBetween : List Token → String
  | [] => ""
  | first :: rest =>
    first.spelling ++ String.join (rest.map fun t =>
      if t.spaced then " " ++ t.spelling else t.spelling)

/-- Reads the name out of all tokens of an operand. -/
def ofTokens : List Token → Option HeaderName
  | [] => none
  | [t] => if t.kind = .header ∨ t.kind = .string then ofToken t else none
  | first :: rest =>
    if first.isPunctuator (Bytes.ofString "<") ∧
        rest.getLast?.any (·.isPunctuator (Bytes.ofString ">")) then
      some ⟨textBetween rest.dropLast, true⟩
    else none

/-- The paths at which a file is looked for. -/
def candidates (header : HeaderName) (file : SourceFile) (config : Config) : List Path :=
  if Path.isAbsolute header.text then [header.text]
  else
    let current := if header.angled then [] else file.directory.toList
    (current ++ config.includeDirectories).map (Path.join · header.text)

end HeaderName

end CPreprocessor
