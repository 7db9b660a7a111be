import CPreprocessor.Lexeme.Munch
import Mathlib.Computability.Language

/-!
# The lexical grammar

The classes of tokens as languages, built with union, concatenation and repetition, as the standard
describes them and not as the automata read them. `Kind.language` gives the language of each kind.

Two classes are not given by a regular expression: the inside of a header name and that of a block
comment are described by what does not occur in them.
-/

namespace CPreprocessor.Lexeme

open Ascii
open scoped Computability

/-! ## Characters -/

/-- The texts that are a single character of a class. -/
def oneOf (p : UInt8 → Bool) : Language UInt8 := {text | ∃ b, p b = true ∧ text = [b]}

/-- The text that is a single given character. -/
def char (b : UInt8) : Language UInt8 := {[b]}

/-- `\u` and four hexadecimal digits or `\U` and eight, which spell an acceptable code point. -/
def universalNames : Language UInt8 :=
  {text | ∃ mark digits, text = backslash :: mark :: digits ∧
    (mark = lowerU ∧ digits.length = 4 ∨ mark = upperU ∧ digits.length = 8) ∧
    (∀ d ∈ digits, isHexDigit d = true) ∧
    UniversalName.isAcceptable (Ascii.number 16 digits) = true}

/-- A character that can start an identifier. -/
def nondigits : Language UInt8 := oneOf isNondigit + universalNames

/-! ## Identifiers and numbers -/

/-- What can follow the first character of an identifier. -/
def identifierTails : Language UInt8 := (nondigits + oneOf isDigit)∗

def identifiers : Language UInt8 := nondigits * identifierTails

/-- The letters that make the sign after them part of the number. -/
def exponentMarks : Language UInt8 := oneOf Number.isExponentMark

def signs : Language UInt8 := oneOf fun b => b == plus || b == minus

/-- What can follow the first digit of a number. -/
def numberTails : Language UInt8 :=
  (oneOf isDigit + nondigits + exponentMarks * signs + char dot)∗

def numbers : Language UInt8 := (1 + char dot) * oneOf isDigit * numberTails

/-! ## Character constants and string literals -/

def octalDigits : Language UInt8 := oneOf isOctalDigit

def hexDigits : Language UInt8 := oneOf isHexDigit

/-- Up to three octal digits. -/
def octalNumbers : Language UInt8 :=
  octalDigits + octalDigits * octalDigits + octalDigits * octalDigits * octalDigits

/-- A backslash and what it makes a character with. -/
def escapeSequences : Language UInt8 :=
  char backslash * oneOf Quoted.isSimpleEscape + char backslash * octalNumbers +
    char backslash * char lowerX * (hexDigits * hexDigits∗) + universalNames

/-- The characters that stand for themselves between quotes of the given kind. -/
def isPlain (quote b : UInt8) : Bool := b != quote && b != backslash && b != newline

/-- A character between quotes of the given kind. -/
def quotedCharacters (quote : UInt8) : Language UInt8 := oneOf (isPlain quote) + escapeSequences

def encodingPrefixes : Language UInt8 :=
  1 + char upperL + char lowerU * char eight + char lowerU + char upperU

def characterConstants : Language UInt8 :=
  encodingPrefixes * (char singleQuote *
    (quotedCharacters singleQuote * ((quotedCharacters singleQuote)∗ * char singleQuote)))

def stringLiterals : Language UInt8 :=
  encodingPrefixes * (char doubleQuote * ((quotedCharacters doubleQuote)∗ * char doubleQuote))

/-! ## Header names and comments -/

/-- Whether a text may stand in a header name before the given closing delimiter. -/
def InsideHeader (close : UInt8) (text : Bytes) : Prop :=
  (∀ b ∈ text, b ∉ [newline, singleQuote, backslash, doubleQuote, close]) ∧
    ¬ [slash, slash] <:+: text ∧ ¬ [slash, star] <:+: text

def headerNames : Language UInt8 :=
  {text | ∃ inside, inside ≠ [] ∧
    (InsideHeader greater inside ∧ text = less :: (inside ++ [greater]) ∨
      InsideHeader doubleQuote inside ∧ text = doubleQuote :: (inside ++ [doubleQuote]))}

/-- What can follow the beginning of a block comment. -/
def blockCommentTails : Language UInt8 :=
  {text | ∃ inside, ¬ [star, slash] <:+: inside ++ [star] ∧ text = inside ++ [star, slash]}

def comments : Language UInt8 :=
  char slash * (char slash * (oneOf (· != newline))∗) +
    char slash * (char star * blockCommentTails)

/-! ## All classes -/

/-- The texts of each kind of token. -/
def Kind.language : Kind → Language UInt8
  | .header => headerNames
  | .identifier => identifiers
  | .number => numbers
  | .character => characterConstants
  | .string => stringLiterals
  | .punctuator => {text | text ∈ punctuators}
  | .other => oneOf (!isBlank ·)
  | .comment => comments

end CPreprocessor.Lexeme
