import CPreprocessor.Grammar.Basic
import CPreprocessor.Lexeme.Quoted

/-!
# The grammar of character constants

The grammar is over bytes. An octal escape sequence has up to three digits and a hexadecimal one has
all that follow, so a sequence of characters remembers how it ends: after an octal escape sequence
of one or two digits no octal digit may stand for itself, and after a hexadecimal one no hexadecimal
digit may. In this way every character constant has one parse.
-/

namespace CPreprocessor.CharacterConstant

open Ascii GrammarSymbol

/-- The nonterminals of character constants. -/
inductive Part
  | constant
  | sequence
  /-- A sequence that restricts nothing after it. -/
  | free
  /-- A sequence that ends with a short octal escape sequence. -/
  | afterOctal
  /-- A sequence that ends with a hexadecimal escape sequence. -/
  | afterHex
  | anyCharacter
  | notOctal
  | notHex
  | plain
  | plainHex
  | plainOctal
  | escape
  | shortOctal
  | hex
  | hexDigits
  | escapeSequence
  deriving DecidableEq

/-- What the prefix of a constant says about its type. -/
inductive Encoding
  | plain
  /-- The prefix `L`. -/
  | wide
  /-- The prefix `u8`. -/
  | utf8
  /-- The prefix `u`. -/
  | utf16
  /-- The prefix `U`. -/
  | utf32
  deriving DecidableEq

/-- The construction that a production stands for. -/
inductive Form
  | constant (encoding : Encoding)
  /-- A single part that stands for the whole. -/
  | next
  /-- The first character of a sequence. -/
  | first
  /-- A sequence and one more character. -/
  | more
  | plain
  | simple
  | octal
  | hex
  | universal
  deriving DecidableEq

abbrev Forms := List (Production Part UInt8 Form)

/-- A constant with the given prefix. -/
def quotedAfter (encoding : Encoding) (spelling : List String) : Production Part UInt8 Form :=
  ⟨.constant encoding,
    spelling.map spelled ++ [spelled "'", nonterminal .sequence, spelled "'"]⟩

/-- The parts that can stand for the whole. -/
def oneOf (parts : List Part) : Forms := parts.map fun part => ⟨.next, [nonterminal part]⟩

/-- Sequences that end with the given character, which may stand first and after each of the given
sequences. -/
def sequencesEndingIn (character : Part) (sequences : List (Part × Part)) : Forms :=
  ⟨.first, [nonterminal character]⟩ ::
    sequences.map fun (before, last) => ⟨.more, [nonterminal before, nonterminal last]⟩

/-- Characters that stand for themselves. -/
def itself (predicate : UInt8 → Bool) : Forms := [⟨.plain, [such predicate]⟩]

/-- An escape sequence with the given letter and number of hexadecimal digits. -/
def universalName (letter : String) (digits : Nat) : Production Part UInt8 Form :=
  ⟨.universal, spelled "\\" :: spelled letter :: List.replicate digits (such isHexDigit)⟩

/-- The rule of every nonterminal. -/
def rule : Part → Rule Part UInt8 Form
  | .constant =>
    { name := "character-constant", productions :=
      [quotedAfter .plain [], quotedAfter .wide ["L"], quotedAfter .utf8 ["u", "8"],
        quotedAfter .utf16 ["u"], quotedAfter .utf32 ["U"]] }
  | .sequence =>
    { name := "c-char-sequence", productions := oneOf [.free, .afterOctal, .afterHex] }
  | .free =>
    { name := "c-char-sequence", productions := sequencesEndingIn .anyCharacter
        [(.free, .anyCharacter), (.afterOctal, .notOctal), (.afterHex, .notHex)] }
  | .afterOctal =>
    { name := "c-char-sequence", productions := sequencesEndingIn .shortOctal
        [(.free, .shortOctal), (.afterOctal, .shortOctal), (.afterHex, .shortOctal)] }
  | .afterHex =>
    { name := "c-char-sequence", productions := sequencesEndingIn .hex
        [(.free, .hex), (.afterOctal, .hex), (.afterHex, .hex)] }
  | .anyCharacter =>
    { name := "c-char", productions := oneOf [.plain, .plainHex, .plainOctal, .escape] }
  | .notOctal => { name := "c-char", productions := oneOf [.plain, .plainHex, .escape] }
  | .notHex => { name := "c-char", productions := oneOf [.plain, .escape] }
  | .plain =>
    { name := "c-char", productions := itself fun b =>
      !([singleQuote, backslash, newline].contains b || isHexDigit b) }
  | .plainHex =>
    { name := "c-char", productions := itself fun b => isHexDigit b && !isOctalDigit b }
  | .plainOctal => { name := "c-char", productions := itself isOctalDigit }
  | .escape =>
    { name := "escape-sequence", productions :=
      [⟨.simple, [spelled "\\", such Lexeme.Quoted.isSimpleEscape]⟩,
        ⟨.octal, spelled "\\" :: List.replicate 3 (such isOctalDigit)⟩,
        universalName "u" 4, universalName "U" 8] }
  | .shortOctal =>
    { name := "octal-escape-sequence", productions :=
      [⟨.octal, [spelled "\\", such isOctalDigit]⟩,
        ⟨.octal, [spelled "\\", such isOctalDigit, such isOctalDigit]⟩] }
  | .hex =>
    { name := "hexadecimal-escape-sequence", productions :=
      [⟨.hex, [spelled "\\", spelled "x", nonterminal .hexDigits]⟩] }
  | .hexDigits =>
    { name := "hexadecimal-digit-sequence", isList := true, productions :=
      [⟨.next, [nonterminal .hexDigits, such isHexDigit]⟩, ⟨.next, [such isHexDigit]⟩] }
  | .escapeSequence =>
    { name := "escape-sequence", productions := oneOf [.escape, .shortOctal, .hex] }

/-- Every nonterminal. -/
def parts : List Part :=
  [.constant, .sequence, .free, .afterOctal, .afterHex, .anyCharacter, .notOctal, .notHex, .plain,
    .plainHex, .plainOctal, .escape, .shortOctal, .hex, .hexDigits, .escapeSequence]

theorem mem_parts (part : Part) : part ∈ parts := by cases part <;> decide

/-- The grammar of character constants. -/
def grammar : Grammar Part UInt8 Form where
  nonterminals := parts
  rule := rule
  productions_eq_nil part h := absurd (mem_parts part) h

end CPreprocessor.CharacterConstant
