import CPreprocessor.Text.Utf8
import Mathlib.Data.Nat.Notation
import Mathlib.Tactic.SplitIfs

/-!
# What is written in UTF-8 is read back

Reading the encoding of a string gives the string (`Bytes.toText_ofString`). The encoding of a
character is a first byte and up to three others, which have six bits of the code point each. The
reader comes through all of them: their bounds exclude overlong forms and surrogates, and the
encoding of a character is neither.
-/

namespace CPreprocessor

namespace Utf8

/-! ## First bytes -/

theorem lead_of_lt {n : ℕ} (h : n < 0x80) : lead (UInt8.ofNat n) = .single (Char.ofNat n) := by
  have hn : (UInt8.ofNat n).toNat = n := UInt8.toNat_ofNat_of_lt' (show n < 256 by omega)
  rw [lead, if_pos (UInt8.lt_iff_toNat_lt.2 (by rw [hn]; exact h)), hn]

/-- The first byte of an encoding of two bytes. -/
theorem lead_two {n : ℕ} (hlow : 2 ≤ n) (hhigh : n < 0x20) :
    lead (UInt8.ofNat (n + 0xC0)) = .multiple { later := 0, bits := n } := by
  have hn : (UInt8.ofNat (n + 0xC0)).toNat = n + 0xC0 :=
    UInt8.toNat_ofNat_of_lt' (show n + 0xC0 < 256 by omega)
  have hbits : (n + 0xC0) % 0x20 = n := by omega
  simp only [lead, UInt8.lt_iff_toNat_lt, hn, UInt8.reduceToNat, hbits]
  rw [if_neg (by omega), if_neg (by omega), if_pos (by omega)]

/-- The first byte of an encoding of three bytes. -/
theorem lead_three {n : ℕ} (h : n < 0x10) :
    lead (UInt8.ofNat (n + 0xE0)) = .multiple
      { later := 1, bits := n, low := if n = 0 then 0xA0 else 0x80,
        high := if n = 0xD then 0x9F else 0xBF } := by
  have hn : (UInt8.ofNat (n + 0xE0)).toNat = n + 0xE0 :=
    UInt8.toNat_ofNat_of_lt' (show n + 0xE0 < 256 by omega)
  have hbits : (n + 0xE0) % 0x10 = n := by omega
  have hfirst : n + 0xE0 = 0xE0 ↔ n = 0 := by omega
  have hlast : n + 0xE0 = 0xED ↔ n = 0xD := by omega
  simp only [lead, UInt8.lt_iff_toNat_lt, ← UInt8.toNat_inj, hn, UInt8.reduceToNat, hbits, hfirst,
    hlast]
  rw [if_neg (by omega), if_neg (by omega), if_neg (by omega), if_pos (by omega)]

/-- The first byte of an encoding of four bytes. -/
theorem lead_four {n : ℕ} (h : n < 5) :
    lead (UInt8.ofNat (n + 0xF0)) = .multiple
      { later := 2, bits := n, low := if n = 0 then 0x90 else 0x80,
        high := if n = 4 then 0x8F else 0xBF } := by
  have hn : (UInt8.ofNat (n + 0xF0)).toNat = n + 0xF0 :=
    UInt8.toNat_ofNat_of_lt' (show n + 0xF0 < 256 by omega)
  have hbits : (n + 0xF0) % 0x08 = n := by omega
  have hfirst : n + 0xF0 = 0xF0 ↔ n = 0 := by omega
  have hlast : n + 0xF0 = 0xF4 ↔ n = 4 := by omega
  simp only [lead, UInt8.lt_iff_toNat_lt, ← UInt8.toNat_inj, hn, UInt8.reduceToNat, hbits, hfirst,
    hlast]
  rw [if_neg (by omega), if_neg (by omega), if_neg (by omega), if_neg (by omega),
    if_pos (by omega)]

theorem decodeFrom_cons_of_lead {b : UInt8} {p : Pending} (h : lead b = .multiple p)
    (rest : Bytes) : decodeFrom none (b :: rest) = decodeFrom (some p) rest := by
  rw [decodeFrom, h]

/-! ## Other bytes -/

section

variable {n bits : ℕ} {low high : UInt8} (hn : n < 0x40) (hlow : low.toNat ≤ n + 0x80)
  (hhigh : n + 0x80 ≤ high.toNat)
include hn hlow hhigh

/-- A byte within the bounds has six more bits of the code point. -/
theorem decodeFrom_some_cons (later : ℕ) (rest : Bytes) :
    decodeFrom (some { later, low, high, bits }) (UInt8.ofNat (n + 0x80) :: rest) =
      match later with
      | 0 => Char.ofNat (bits * 0x40 + n) :: decodeFrom none rest
      | later + 1 => decodeFrom (some { later, bits := bits * 0x40 + n }) rest := by
  have hbyte : (UInt8.ofNat (n + 0x80)).toNat = n + 0x80 :=
    UInt8.toNat_ofNat_of_lt' (show n + 0x80 < 256 by omega)
  have hbits : (n + 0x80) % 0x40 = n := by omega
  have hwithin : low ≤ UInt8.ofNat (n + 0x80) ∧ UInt8.ofNat (n + 0x80) ≤ high := by
    rw [UInt8.le_iff_toNat_le, UInt8.le_iff_toNat_le, hbyte]
    exact ⟨hlow, hhigh⟩
  cases later with
  | zero => rw [decodeFrom, if_pos hwithin, hbyte, hbits]
  | succ later => rw [decodeFrom, if_pos hwithin, hbyte, hbits]

theorem decodeFrom_last (rest : Bytes) :
    decodeFrom (some { later := 0, low, high, bits }) (UInt8.ofNat (n + 0x80) :: rest) =
      Char.ofNat (bits * 0x40 + n) :: decodeFrom none rest :=
  decodeFrom_some_cons hn hlow hhigh 0 rest

theorem decodeFrom_later (later : ℕ) (rest : Bytes) :
    decodeFrom (some { later := later + 1, low, high, bits }) (UInt8.ofNat (n + 0x80) :: rest) =
      decodeFrom (some { later, bits := bits * 0x40 + n }) rest :=
  decodeFrom_some_cons hn hlow hhigh (later + 1) rest

end

/-- **The encoding of a character is read as the character.** -/
theorem decodeFrom_utf8EncodeChar_append (c : Char) (rest : Bytes) :
    decodeFrom none (String.utf8EncodeChar c ++ rest) = c :: decodeFrom none rest := by
  have hvalid : c.toNat < 0xD800 ∨ 0xDFFF < c.toNat ∧ c.toNat < 0x110000 := c.valid
  have hchar {n : ℕ} (h : n = c.toNat) : Char.ofNat n = c := h ▸ c.ofNat_toNat
  have hlow {n : ℕ} : (0x80 : UInt8).toNat ≤ n + 0x80 := Nat.le_add_left ..
  have hhigh {n : ℕ} (hn : n < 0x40) : n + 0x80 ≤ (0xBF : UInt8).toNat :=
    Nat.add_le_add_right (Nat.le_of_lt_succ hn) 0x80
  unfold String.utf8EncodeChar
  rw [show c.val.toNat = c.toNat from rfl]
  generalize c.toNat = v at hvalid hchar
  dsimp only
  have hlast : v % 64 < 0x40 := by omega
  have hnext : v / 64 % 64 < 0x40 := by omega
  -- one case for each number of bytes
  split_ifs with hone htwo hthree
  · rw [List.singleton_append, decodeFrom, lead_of_lt (by omega)]
    exact congrArg (· :: _) (hchar rfl)
  · rw [List.cons_append, List.singleton_append,
      decodeFrom_cons_of_lead (lead_two (by omega) (by omega)),
      decodeFrom_last hlast hlow (hhigh hlast), hchar (by omega)]
  · rw [List.cons_append, List.cons_append, List.singleton_append,
      decodeFrom_cons_of_lead (lead_three (by omega)),
      decodeFrom_later hnext (by split <;> simp only [UInt8.reduceToNat] <;> omega)
        (by split <;> simp only [UInt8.reduceToNat] <;> omega) 0,
      decodeFrom_last hlast hlow (hhigh hlast), hchar (by omega)]
  · rw [List.cons_append, List.cons_append, List.cons_append, List.singleton_append,
      decodeFrom_cons_of_lead (lead_four (by omega)),
      decodeFrom_later (by omega) (by split <;> simp only [UInt8.reduceToNat] <;> omega)
        (by split <;> simp only [UInt8.reduceToNat] <;> omega) 1,
      decodeFrom_later hnext hlow (hhigh hnext) 0,
      decodeFrom_last hlast hlow (hhigh hlast), hchar (by omega)]

end Utf8

/-- **What is written in UTF-8 is read back.** -/
theorem Bytes.toText_ofString (s : String) : (ofString s).toText = s := by
  suffices h : ∀ text : List Char,
      Utf8.decode (text.flatMap String.utf8EncodeChar) = text by
    rw [toText, ofString, h, String.ofList_toList]
  intro text
  induction text with
  | nil => rfl
  | cons c text ih =>
    rw [List.flatMap_cons, Utf8.decode, Utf8.decodeFrom_utf8EncodeChar_append]
    exact congrArg (c :: ·) ih

end CPreprocessor
