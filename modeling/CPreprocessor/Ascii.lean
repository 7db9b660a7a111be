/-!
# Bytes and the ASCII classes

Source text is a list of bytes. The grammar of the language is fixed by bytes below 128, so every
class defined here is a class of ASCII characters: bytes from 128 on are in none of them.
-/

namespace CPreprocessor

/-- Source text, before anything is known about its encoding. -/
abbrev Bytes := List UInt8

/-- The UTF-8 encoding of a string. -/
def Bytes.ofString (s : String) : Bytes := s.toList.flatMap String.utf8EncodeChar

namespace Ascii

/-! ## Names of single bytes -/

@[match_pattern] abbrev newline : UInt8 := 0x0A
@[match_pattern] abbrev carriageReturn : UInt8 := 0x0D
@[match_pattern] abbrev space : UInt8 := 0x20
@[match_pattern] abbrev bang : UInt8 := 0x21
@[match_pattern] abbrev doubleQuote : UInt8 := 0x22
@[match_pattern] abbrev hash : UInt8 := 0x23
@[match_pattern] abbrev singleQuote : UInt8 := 0x27
@[match_pattern] abbrev openParen : UInt8 := 0x28
@[match_pattern] abbrev closeParen : UInt8 := 0x29
@[match_pattern] abbrev star : UInt8 := 0x2A
@[match_pattern] abbrev plus : UInt8 := 0x2B
@[match_pattern] abbrev minus : UInt8 := 0x2D
@[match_pattern] abbrev dot : UInt8 := 0x2E
@[match_pattern] abbrev slash : UInt8 := 0x2F
@[match_pattern] abbrev zero : UInt8 := 0x30
@[match_pattern] abbrev eight : UInt8 := 0x38
@[match_pattern] abbrev less : UInt8 := 0x3C
@[match_pattern] abbrev equal : UInt8 := 0x3D
@[match_pattern] abbrev greater : UInt8 := 0x3E
@[match_pattern] abbrev question : UInt8 := 0x3F
@[match_pattern] abbrev openBracket : UInt8 := 0x5B
@[match_pattern] abbrev backslash : UInt8 := 0x5C
@[match_pattern] abbrev closeBracket : UInt8 := 0x5D
@[match_pattern] abbrev caret : UInt8 := 0x5E
@[match_pattern] abbrev underscore : UInt8 := 0x5F
@[match_pattern] abbrev openBrace : UInt8 := 0x7B
@[match_pattern] abbrev bar : UInt8 := 0x7C
@[match_pattern] abbrev closeBrace : UInt8 := 0x7D
@[match_pattern] abbrev tilde : UInt8 := 0x7E

@[match_pattern] abbrev upperE : UInt8 := 0x45
@[match_pattern] abbrev upperL : UInt8 := 0x4C
@[match_pattern] abbrev upperP : UInt8 := 0x50
@[match_pattern] abbrev upperU : UInt8 := 0x55
@[match_pattern] abbrev upperX : UInt8 := 0x58
@[match_pattern] abbrev lowerE : UInt8 := 0x65
@[match_pattern] abbrev lowerL : UInt8 := 0x6C
@[match_pattern] abbrev lowerP : UInt8 := 0x70
@[match_pattern] abbrev lowerU : UInt8 := 0x75
@[match_pattern] abbrev lowerX : UInt8 := 0x78

/-! ## Classes -/

/-- White-space: space, horizontal and vertical tab, new-line, form feed and carriage return. -/
def isBlank (b : UInt8) : Bool := b == space || (0x09 ≤ b && b ≤ 0x0D)

def isDigit (b : UInt8) : Bool := 0x30 ≤ b && b ≤ 0x39

def isOctalDigit (b : UInt8) : Bool := 0x30 ≤ b && b ≤ 0x37

def isLower (b : UInt8) : Bool := 0x61 ≤ b && b ≤ 0x7A

def isUpper (b : UInt8) : Bool := 0x41 ≤ b && b ≤ 0x5A

def isLetter (b : UInt8) : Bool := isLower b || isUpper b

def isHexDigit (b : UInt8) : Bool :=
  isDigit b || (0x61 ≤ b && b ≤ 0x66) || (0x41 ≤ b && b ≤ 0x46)

/-- A character that can start an identifier: a letter or an underscore. -/
def isNondigit (b : UInt8) : Bool := b == underscore || isLetter b

/-- The value of a digit of radix at most 16; for other bytes the result means nothing. -/
def digitValue (b : UInt8) : Nat :=
  if isDigit b then b.toNat - 0x30 else if isLower b then b.toNat - 0x57 else b.toNat - 0x37

/-- The number that the digits spell in the given radix, most significant digit first. -/
def number (radix : Nat) (digits : Bytes) : Nat :=
  digits.foldl (fun value b => value * radix + digitValue b) 0

end Ascii

end CPreprocessor
