import CPreprocessor.Ascii

/-!
# Reading bytes as UTF-8

`Utf8.decode` never fails: every maximal prefix of a character that is not continued as it should
be, and every byte that starts no character, is read as one replacement character U+FFFD. The
reader is a machine that remembers which continuation bytes it still waits for (`Pending`).

`Utf8.units16` gives the UTF-16 code units of a character.
-/

namespace CPreprocessor.Utf8

/-- The character that stands for bytes that are not UTF-8. -/
def replacement : Char := Char.ofNat 0xFFFD

/-- A character of which some bytes have been read. -/
structure Pending where
  /-- How many bytes are missing after the next one. -/
  later : Nat
  /-- The least next byte. -/
  low : UInt8 := 0x80
  /-- The greatest next byte. -/
  high : UInt8 := 0xBF
  /-- The bits of the code point read so far. -/
  bits : Nat

/-- What the first byte of a character says. -/
inductive Lead
  /-- A whole character. -/
  | single (c : Char)
  /-- The start of a longer one. -/
  | multiple (p : Pending)
  /-- No character starts with this byte. -/
  | invalid

/-- The bounds on the second byte exclude overlong forms, surrogates and code points above
U+10FFFF. -/
def lead (b : UInt8) : Lead :=
  if b < 0x80 then .single (Char.ofNat b.toNat)
  else if b < 0xC2 then .invalid
  else if b < 0xE0 then .multiple { later := 0, bits := b.toNat % 0x20 }
  else if b < 0xF0 then
    .multiple { later := 1, bits := b.toNat % 0x10,
                low := if b = 0xE0 then 0xA0 else 0x80,
                high := if b = 0xED then 0x9F else 0xBF }
  else if b < 0xF5 then
    .multiple { later := 2, bits := b.toNat % 0x08,
                low := if b = 0xF0 then 0x90 else 0x80,
                high := if b = 0xF4 then 0x8F else 0xBF }
  else .invalid

/-- The characters of a sequence of bytes, of which the pending ones were read before. -/
def decodeFrom : Option Pending → Bytes → List Char
  | none, [] => []
  | some _, [] => [replacement]
  | none, b :: rest =>
    match lead b with
    | .single c => c :: decodeFrom none rest
    | .multiple p => decodeFrom (some p) rest
    | .invalid => replacement :: decodeFrom none rest
  | some p, b :: rest =>
    if p.low ≤ b ∧ b ≤ p.high then
      let bits := p.bits * 0x40 + b.toNat % 0x40
      match p.later with
      | 0 => Char.ofNat bits :: decodeFrom none rest
      | later + 1 => decodeFrom (some { later, bits }) rest
    else
      replacement :: match lead b with
        | .single c => c :: decodeFrom none rest
        | .multiple p => decodeFrom (some p) rest
        | .invalid => replacement :: decodeFrom none rest

/-- The characters of a sequence of bytes. -/
def decode (bytes : Bytes) : List Char := decodeFrom none bytes

/-- The UTF-16 code units of a character: itself, or a pair of surrogates above U+FFFF. -/
def units16 (c : Char) : List Nat :=
  if c.toNat < 0x10000 then [c.toNat]
  else [0xD800 + (c.toNat - 0x10000) / 0x400, 0xDC00 + (c.toNat - 0x10000) % 0x400]

end CPreprocessor.Utf8

namespace CPreprocessor.Bytes

/-- The text that the bytes spell, with a replacement character for what is not UTF-8. -/
def toText (bytes : Bytes) : String := String.ofList (Utf8.decode bytes)

end CPreprocessor.Bytes
