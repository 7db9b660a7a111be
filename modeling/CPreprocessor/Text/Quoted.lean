import CPreprocessor.Ascii

/-!
# Texts in double quotes

A text is quoted by a backslash before every double quote and every backslash in it. Reading a
quoted text drops those backslashes again, whatever they stand before.
-/

namespace CPreprocessor

/-- The text with a backslash before every double quote and backslash. -/
def escapeQuotes (text : Bytes) : Bytes :=
  text.flatMap fun b =>
    if b == Ascii.doubleQuote || b == Ascii.backslash then [Ascii.backslash, b] else [b]

/-- The string literal for a text. -/
def quote (text : Bytes) : Bytes :=
  Ascii.doubleQuote :: (escapeQuotes text ++ [Ascii.doubleQuote])

/-- The text without the backslashes that escape what is after them. -/
def removeEscapes : Bytes → Bytes
  | [] => []
  | [b] => if b == Ascii.backslash then [] else [b]
  | a :: b :: rest =>
    if a == Ascii.backslash then b :: removeEscapes rest else a :: removeEscapes (b :: rest)

/-- What is between the double quotes around a text. A text without them is left as it is. -/
def dropQuotes (text : Bytes) : Bytes :=
  match text with
  | [] => []
  | b :: rest =>
    if b == Ascii.doubleQuote && rest.getLast? == some Ascii.doubleQuote then rest.dropLast
    else b :: rest

/-- The text that a string literal stands for. -/
def unquote (literal : Bytes) : Bytes := removeEscapes (dropQuotes literal)

end CPreprocessor
