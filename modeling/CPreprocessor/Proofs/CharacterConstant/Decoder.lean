import CPreprocessor.Proofs.CharacterConstant.Unambiguous
import CPreprocessor.Proofs.CharacterConstant.Value
import CPreprocessor.Proofs.Text.Lossy
import Mathlib.Data.Nat.Digits.Defs

/-!
# Decoding character constants

The value of a character constant can be told from the characters that a scan finds in it, without
a parse tree (`decode`): every character stands for a number, a constant without a prefix is the
number of its bytes, and one with a prefix is its only code unit. `evaluate` and `decodeEscape` give
just these values, warnings and errors (`evaluate_eq_decode`).

Nothing that a value is computed with is taken from the evaluation. Digits count by their places in
a list of all, code units are told from the bits of a code point (`encoded`), and a row of bytes is
read as `Utf8.Decodes` has it.
-/

namespace CPreprocessor.CharacterConstant

open Ascii Grammar GrammarSymbol

/-! ## What a character stands for -/

/-- The number of a letter in a simple escape sequence. The letters of control characters are named
in the order of these, and everything else stands for itself. -/
def controlCode (b : UInt8) : Nat :=
  match (Bytes.ofString "abtnvfr").idxOf? b with
  | some i => 7 + i
  | none => b.toNat

/-- The number of a digit. The digits are in order, with six capital letters at the end. -/
def digit (b : UInt8) : Nat :=
  let place := (Bytes.ofString "0123456789abcdefABCDEF").idxOf b
  if place < 16 then place else place - 6

/-- The number that digits spell, the first one being the most significant. -/
def spelledNumber (radix : Nat) (digits : Bytes) : Nat :=
  Nat.ofDigits radix (digits.reverse.map digit)

/-- The number that a character stands for. -/
def Character.value (c : Character) : Nat :=
  match c.kind, c.spelling with
  | .plain, b :: _ => b.toNat
  | .simple, _ :: b :: _ => controlCode b
  | .octal, _ :: digits => spelledNumber 8 digits
  | .hex, _ :: _ :: digits => spelledNumber 16 digits
  | .universal, _ :: _ :: digits => spelledNumber 16 digits
  | _, _ => 0

/-- Whether the number of a character fits 32 bits. -/
def Character.fits (c : Character) : Bool := c.value < 2 ^ 32

/-- Whether a character, if it is a name, is one of a code point that may be named: a dollar sign, a
commercial at, a grave accent, or a code point from U+00A0 on that is no surrogate. -/
def Character.isNameable (c : Character) : Bool :=
  c.kind != .universal || c.value.isValidChar && (c.value ∈ [0x24, 0x40, 0x60] || 0xA0 ≤ c.value)

/-- Whether a constant may contain a character. -/
def Character.isInRange (c : Character) : Bool := c.fits && c.isNameable

/-- Whether a character is a number that an escape sequence spells. -/
def Character.isNumeric (c : Character) : Bool := c.kind != .plain && c.kind != .universal

/-! ## Constants without a prefix -/

/-- The bytes of a character. -/
def Character.bytes (c : Character) : List Nat :=
  if c.kind = .universal then Utf8.units c.value else [c.value % 0x100]

/-- Whether a character is a number that does not fit a byte. -/
def Character.isTruncated (c : Character) : Bool := c.isNumeric && 0xFF < c.value

/-- The number of the bytes, as one signed integer of as many bits as there are for them. -/
def decodePlain (cs : List Character) : List WarningCause × Except Cause Value :=
  let bytes := cs.flatMap Character.bytes
  let number : Nat := Nat.ofDigits 0x100 bytes.reverse
  let truncated := (cs.filter Character.isTruncated).map fun _ => .escapeTruncated
  if bytes.length = 1 then (truncated, .ok (.signed ((number : Int).bmod (2 ^ 8))))
  else if bytes.length ≤ 4 then
    (truncated ++ [.multipleCharacters], .ok (.signed ((number : Int).bmod (2 ^ 32))))
  else (truncated, .error .characterConstantTooLong)

/-! ## Constants with a prefix -/

/-- The number of bits of a code unit. -/
def Encoding.width : Encoding → Nat
  | .utf8 => 8
  | .utf16 => 16
  | .plain | .wide | .utf32 => 32

/-- The UTF-16 code units of a code point. The ones above U+FFFF have a pair, the second of which
has their last ten bits. The first one has the others, less 0x40. -/
def units16 (n : Nat) : List Nat :=
  if n < 0x10000 then [n] else [0xD7C0 + n / 2 ^ 10, 0xDC00 + n % 2 ^ 10]

/-- The code units of a code point. -/
def encoded (encoding : Encoding) (n : Nat) : List Nat :=
  match encoding with
  | .utf8 => Utf8.units n
  | .utf16 => units16 n
  | .plain | .wide | .utf32 => [n]

/-- The code units of characters. Bytes in a row are decoded together. -/
def codeUnits (encoding : Encoding) : List Character → List Nat
  | [] => []
  | c :: cs =>
    match c.kind with
    | .plain =>
      let row := cs.takeWhile (·.kind = .plain)
      (Utf8.decode ((c :: row).flatMap Character.spelling)).flatMap (encoded encoding ·.toNat) ++
        codeUnits encoding (cs.dropWhile (·.kind = .plain))
    | .universal => encoded encoding c.value ++ codeUnits encoding cs
    | .simple | .octal | .hex => c.value :: codeUnits encoding cs
termination_by cs => cs.length
decreasing_by
  · exact Nat.lt_succ_of_le (List.dropWhile_suffix _).length_le
  all_goals exact Nat.lt_succ_self _

/-- Whether a character is a number that is no code unit of an encoding. -/
def Character.exceeds (encoding : Encoding) (c : Character) : Bool :=
  c.isNumeric && 2 ^ encoding.width ≤ c.value

/-- The only code unit, which is signed if it is one of a wide character. -/
def decodePrefixed (encoding : Encoding) (cs : List Character) : Except Cause Value :=
  if cs.any (Character.exceeds encoding) then .error .escapeOutOfRange
  else
    match codeUnits encoding cs with
    | [unit] =>
      .ok (if encoding = .wide then .signed ((unit : Int).bmod (2 ^ 32)) else .ofNat unit)
    | _ => .error .characterConstantTooLong

/-! ## Constants -/

/-- The value of a character constant that is scanned once from left to right, and the warnings that
it deserves. -/
def decode (text : Bytes) : List WarningCause × Except Cause Value :=
  match scan? text with
  | none => ([], .error (.invalidCharacterConstant text.toText))
  | some (encoding, cs) =>
    if !cs.all Character.isInRange then ([], .error .escapeOutOfRange)
    else if encoding = .plain then decodePlain cs
    else ([], decodePrefixed encoding cs)

/-! ## Numbers -/

variable {c : Character} {cs : List Character} {tree : ConstantTree} {text : Bytes}
  {encoding : Encoding}

/-- A number is read digit by digit, the most significant one first. -/
theorem foldl_eq_ofDigits {α : Type} (radix : Nat) (value : α → Nat) (digits : List α) :
    digits.foldl (fun n d => n * radix + value d) 0 =
      Nat.ofDigits radix (digits.reverse.map value) := by
  induction digits using List.reverseRecOn with
  | nil => rfl
  | append_singleton digits d ih =>
    rw [List.foldl_append, List.foldl_cons, List.foldl_nil, ih, List.reverse_append,
      List.reverse_singleton, List.singleton_append, List.map_cons, Nat.ofDigits_cons,
      Nat.add_comm, Nat.mul_comm]

theorem digitValue_eq_digit : ∀ b : UInt8, isHexDigit b = true → digitValue b = digit b :=
  Lexeme.forall_byte (by decide +kernel)

theorem number_eq_spelledNumber (radix : Nat) {digits : Bytes}
    (hdigits : ∀ d ∈ digits, isHexDigit d = true) :
    Ascii.number radix digits = spelledNumber radix digits := by
  refine (foldl_eq_ofDigits radix digitValue digits).trans ?_
  rw [spelledNumber]
  refine congrArg (Nat.ofDigits radix) (List.map_congr_left fun d hd => ?_)
  exact digitValue_eq_digit d (hdigits d (List.mem_reverse.1 hd))

theorem simpleEscape_eq_controlCode (b : UInt8) : simpleEscape b = controlCode b := by
  unfold simpleEscape
  split
  case h_8 =>
    have hletters : Bytes.ofString "abtnvfr" = [0x61, 0x62, 0x74, 0x6E, 0x76, 0x66, 0x72] := by
      decide
    have hnone : (Bytes.ofString "abtnvfr").idxOf? b = none := by
      rw [List.idxOf?_eq_none_iff, hletters]
      simp_all
    rw [controlCode, hnone]
  all_goals rfl

theorem controlCode_lt (b : UInt8) : controlCode b < 2 ^ 8 := by
  rw [← simpleEscape_eq_controlCode]
  unfold simpleEscape
  split
  case h_8 => exact b.toNat_lt
  all_goals decide

/-! ## Units -/

/-- The unit of a character. -/
def Character.unit (c : Character) : CharacterUnit :=
  match c.kind with
  | .plain => .byte (UInt8.ofNat c.value)
  | .universal => .codePoint c.value
  | .simple | .octal | .hex => .numeric c.value

/-- A result, or the error if what it comes from is not allowed. -/
def unlessOutOfRange {α : Type} (allowed : Bool) (a : α) : Except Cause α :=
  if allowed then .ok a else .error .escapeOutOfRange

theorem map_unlessOutOfRange {α β : Type} (f : α → β) (allowed : Bool) (a : α) :
    f <$> unlessOutOfRange allowed a = unlessOutOfRange allowed (f a) := by
  cases allowed <;> rfl

theorem mapM_unlessOutOfRange {α β : Type} (p : α → Bool) (f : α → β) (l : List α) :
    l.mapM (fun a => unlessOutOfRange (p a) (f a)) = unlessOutOfRange (l.all p) (l.map f) := by
  induction l with
  | nil => rfl
  | cons a l ih =>
    rw [List.mapM_cons, ih, List.all_cons, List.map_cons]
    cases p a <;> cases l.all p <;> rfl

theorem escapeValue_eq (radix : Nat) {digits : Bytes}
    (hdigits : ∀ d ∈ digits, isHexDigit d = true) :
    escapeValue radix digits =
      unlessOutOfRange (spelledNumber radix digits < 2 ^ 32) (spelledNumber radix digits) := by
  simp [escapeValue, unlessOutOfRange, number_eq_spelledNumber radix hdigits]

/-- A character is read as its unit if its number fits 32 bits. -/
theorem unitOf_eq (h : IsCharacter tree text) :
    ∃ c, characters tree = [c] ∧ c.IsWritten ∧ unitOf tree = unlessOutOfRange c.fits c.unit := by
  induction h with
  | next _ ih =>
    obtain ⟨c, hcharacters, hc, hunit⟩ := ih
    refine ⟨c, ?_, hc, hunit⟩
    rw [characters_of_kind_eq_none rfl, charactersOfList_singleton, hcharacters]
  | @plain _ _ _ b h =>
    refine ⟨⟨.plain, [b]⟩, rfl, .plain h, ?_⟩
    have hfits : Character.fits ⟨.plain, [b]⟩ = true :=
      decide_eq_true (b.toNat_lt.trans (by decide))
    rw [hfits]
    simp [unitOf, unlessOutOfRange, Character.unit, Character.value]
  | @simple _ _ _ b h =>
    refine ⟨⟨.simple, [backslash, b]⟩, rfl, .simple h, ?_⟩
    have hfits : Character.fits ⟨.simple, [backslash, b]⟩ = true :=
      decide_eq_true ((controlCode_lt b).trans (by decide))
    rw [hfits, unitOf, simpleEscape_eq_controlCode]
    rfl
  | @octal _ _ _ digits hne hlength hdigits =>
    have hleaves : Tree.leavesOfList (.leaf backslash :: digits.map (.leaf : UInt8 → ConstantTree)) =
        backslash :: digits := by
      simp [Tree.leavesOfList, Tree.leaves]
    have hhex : ∀ d ∈ digits, isHexDigit d = true := fun d hd =>
      Lexeme.Quoted.isHexDigit_of_isOctalDigit (hdigits d hd)
    refine ⟨⟨.octal, backslash :: digits⟩, ?_, .octal hne hlength hdigits, ?_⟩
    · rw [characters_of_kind rfl, hleaves]
    · rw [unitOf, hleaves, List.drop_succ_cons, List.drop_zero, escapeValue_eq 8 hhex,
        map_unlessOutOfRange]
      rfl
  | @hex _ _ _ start' stop' digits hne hdigits =>
    have hleaves : Tree.leavesOfList [.leaf backslash, .leaf lowerX,
        (.node .hexDigits .next start' stop' (digits.map .leaf) : ConstantTree)] =
          backslash :: lowerX :: digits := by
      simp [Tree.leavesOfList, Tree.leaves]
    refine ⟨⟨.hex, backslash :: lowerX :: digits⟩, ?_, .hex hne hdigits, ?_⟩
    · rw [characters_of_kind rfl, hleaves]
    · rw [unitOf, hleaves, List.drop_succ_cons, List.drop_succ_cons, List.drop_zero,
        escapeValue_eq 16 hdigits, map_unlessOutOfRange]
      rfl
  | @universal _ _ _ mark digits hmark hdigits =>
    have hleaves : Tree.leavesOfList
        (.leaf backslash :: .leaf mark :: digits.map (.leaf : UInt8 → ConstantTree)) =
          backslash :: mark :: digits := by
      simp [Tree.leavesOfList, Tree.leaves]
    refine ⟨⟨.universal, backslash :: mark :: digits⟩, ?_, .universal hmark hdigits, ?_⟩
    · rw [characters_of_kind rfl, hleaves]
    · rw [unitOf, hleaves, List.drop_succ_cons, List.drop_succ_cons, List.drop_zero,
        escapeValue_eq 16 hdigits, map_unlessOutOfRange]
      rfl

/-- A sequence is read as the units of its characters. -/
theorem unitsOf_eq (h : IsSequence tree text) :
    (∀ c ∈ characters tree, c.IsWritten) ∧
      unitsOf tree = unlessOutOfRange ((characters tree).all Character.fits)
        ((characters tree).map Character.unit) := by
  induction h with
  | next _ ih =>
    rw [characters_of_kind_eq_none rfl, charactersOfList_singleton]
    exact ih
  | first h =>
    obtain ⟨c, hcharacters, hc, hunit⟩ := unitOf_eq h
    rw [characters_of_kind_eq_none rfl, charactersOfList_singleton, hcharacters, unitsOf, hunit]
    refine ⟨List.forall_mem_singleton.2 hc, ?_⟩
    rw [List.all_cons, List.all_nil, Bool.and_true]
    exact map_unlessOutOfRange (fun unit => [unit]) c.fits c.unit
  | more _ hcharacter ih =>
    obtain ⟨hwritten, hunits⟩ := ih
    obtain ⟨c, hcharacters, hc, hunit⟩ := unitOf_eq hcharacter
    rw [characters_of_kind_eq_none rfl, charactersOfList, charactersOfList_singleton, hcharacters,
      unitsOf, hunits, hunit, List.all_append, List.map_append]
    refine ⟨List.forall_mem_append.2 ⟨hwritten, List.forall_mem_singleton.2 hc⟩, ?_⟩
    rw [List.all_cons, List.all_nil, Bool.and_true]
    cases (characters _).all Character.fits <;> cases c.fits <;> rfl

/-- What is acceptable and no surrogate is a character. -/
theorem isNameable_eq (n : Nat) :
    isNameable n = (n.isValidChar && (n ∈ [0x24, 0x40, 0x60] || 0xA0 ≤ n) : Bool) := by
  rw [isNameable, Bool.eq_iff_iff]
  simp only [Lexeme.UniversalName.isAcceptable, Nat.isValidChar, Bool.and_eq_true, Bool.or_eq_true,
    beq_iff_eq, Bool.not_eq_true', Bool.and_eq_false_iff, decide_eq_false_iff_not,
    decide_eq_true_eq, List.mem_cons, List.not_mem_nil, or_false]
  omega

/-- A unit is refused if it names a code point that a constant may not contain. -/
theorem check_unit (c : Character) : c.unit.check = unlessOutOfRange c.isNameable c.unit := by
  obtain ⟨kind, spelling⟩ := c
  cases kind with
  | plain | simple | octal | hex => rfl
  | universal =>
    rw [Character.isNameable, ← isNameable_eq]
    rfl

theorem mapM_check (cs : List Character) :
    (cs.map Character.unit).mapM CharacterUnit.check =
      unlessOutOfRange (cs.all Character.isNameable) (cs.map Character.unit) := by
  rw [List.mapM_map, ← mapM_unlessOutOfRange]
  exact congrArg (List.mapM · cs) (funext check_unit)

theorem all_isInRange (cs : List Character) :
    cs.all Character.isInRange = (cs.all Character.fits && cs.all Character.isNameable) := by
  rw [Bool.eq_iff_iff]
  simp [Character.isInRange, forall_and]

/-! ## Reading constants -/

/-- The characters of a constant are those between its quotes. -/
theorem charactersOfList_quoted (before : Bytes) (tree : ConstantTree) :
    charactersOfList (before.map .leaf ++ [.leaf singleQuote, tree, .leaf singleQuote]) =
      characters tree := by
  rw [charactersOfList_append, charactersOfList_map_leaf]
  simp [charactersOfList, characters]

theorem scan?_of_parse (h : grammar.parse .constant text = some tree) :
    ∃ encoding, encoding? tree = some encoding ∧ scan? text = some (encoding, characters tree) := by
  obtain ⟨d, hd, rfl⟩ := Option.map_eq_some_iff.1 h
  exact reads_of_fits (fits_of_derive? hd)

/-- **What cannot be scanned has no parse tree.** -/
theorem scan?_eq_none_iff (text : Bytes) :
    scan? text = none ↔ grammar.parse .constant text = none := by
  constructor
  · intro h
    by_contra hne
    obtain ⟨tree, htree⟩ := Option.ne_none_iff_exists'.1 hne
    obtain ⟨_, -, hscan⟩ := scan?_of_parse htree
    cases h.symm.trans hscan
  · intro h
    by_contra hne
    obtain ⟨_, hscan⟩ := Option.ne_none_iff_exists'.1 hne
    obtain ⟨tree, htree⟩ := exists_parse (derivesFrom_of_scan? hscan)
    cases h.symm.trans htree

/-- **A text is read as it is scanned.** -/
theorem read_eq (text : Bytes) :
    read text = match scan? text with
      | none => .error (.invalidCharacterConstant text.toText)
      | some (encoding, cs) =>
        unlessOutOfRange (cs.all Character.isInRange) (encoding, cs.map Character.unit) := by
  cases hparse : grammar.parse .constant text with
  | none =>
    rw [read, hparse, (scan?_eq_none_iff text).2 hparse]
    rfl
  | some tree =>
    obtain ⟨encoding, hencoding, hscan⟩ := scan?_of_parse hparse
    obtain @⟨_, _, _, before, sequence, _, _, hsequence⟩ := isConstant_of_parse hparse
    obtain rfl := Form.constant.inj (encoding?_eq_some_iff.1 hencoding)
    rw [characters_of_kind_eq_none rfl, charactersOfList_quoted] at hscan
    simp only [read, hparse, sequence?_eq before hsequence, hscan, (unitsOf_eq hsequence).2,
      all_isInRange]
    -- the numbers of all characters are read before any name is refused, with the same error
    cases (characters sequence).all Character.fits with
    | false => rfl
    | true =>
      change ((_, ·) <$> (List.map Character.unit _).mapM CharacterUnit.check) = _
      rw [mapM_check, map_unlessOutOfRange, Bool.true_and]

/-! ## Values -/

/-- A code point that may be named is the one of its character. -/
theorem toNat_ofNat_value (hkind : c.kind = .universal) (hname : c.isNameable = true) :
    (Char.ofNat c.value).toNat = c.value := by
  rw [Character.isNameable, hkind, bne_self_eq_false, Bool.false_or, Bool.and_eq_true,
    decide_eq_true_iff] at hname
  exact Utf8.toNat_ofNat hname.1

theorem bytes_unit (hname : c.isNameable = true) : c.unit.bytes.map UInt8.toNat = c.bytes := by
  cases hkind : c.kind with
  | universal =>
    rw [Character.unit, Character.bytes, hkind, if_pos rfl, CharacterUnit.bytes,
      Utf8.map_toNat_utf8EncodeChar, toNat_ofNat_value hkind hname]
  | plain | simple | octal | hex =>
    simp [Character.unit, CharacterUnit.bytes, Character.bytes, hkind]

theorem warnings_unit (c : Character) :
    c.unit.warnings = if c.isTruncated then [.escapeTruncated] else [] := by
  obtain ⟨kind, spelling⟩ := c
  cases kind with
  | plain | universal => rfl
  | simple | octal | hex => simp [Character.unit, CharacterUnit.warnings, Character.isTruncated,
      Character.isNumeric]

theorem flatMap_warnings (cs : List Character) :
    (cs.map Character.unit).flatMap CharacterUnit.warnings =
      (cs.filter Character.isTruncated).map fun _ => .escapeTruncated := by
  induction cs with
  | nil => rfl
  | cons c cs ih =>
    rw [List.map_cons, List.flatMap_cons, ih, warnings_unit, List.filter_cons]
    split <;> rfl

theorem map_flatMap_bytes (hnames : ∀ c ∈ cs, c.isNameable = true) :
    ((cs.map Character.unit).flatMap CharacterUnit.bytes).map UInt8.toNat =
      cs.flatMap Character.bytes := by
  rw [List.map_flatMap, List.flatMap_map]
  exact List.flatMap_congr fun c hc => bytes_unit (hnames c hc)

/-- **A constant without a prefix is the number of its bytes.** -/
theorem plainValue_eq (hne : cs ≠ []) (hnames : ∀ c ∈ cs, c.isNameable = true) :
    plainValue (cs.map Character.unit) = decodePlain cs := by
  have hbytes := map_flatMap_bytes hnames
  have hnonempty : (cs.map Character.unit).flatMap CharacterUnit.bytes ≠ [] := by
    obtain ⟨c, cs, rfl⟩ := List.exists_cons_of_ne_nil hne
    exact List.append_ne_nil_of_left_ne_nil (bytes_ne_nil c.unit) _
  unfold plainValue decodePlain
  rw [flatMap_warnings, ← hbytes]
  generalize (cs.map Character.unit).flatMap CharacterUnit.bytes = bytes at hnonempty
  match bytes with
  | [] => exact absurd rfl hnonempty
  | [b] =>
    have hnumber : Nat.ofDigits 0x100 ([b].map UInt8.toNat).reverse = b.toNat :=
      Nat.ofDigits_singleton
    dsimp only
    rw [hnumber, ← BitVec.toInt_ofNat', if_pos (by simp)]
  | b :: b' :: rest =>
    have hnumber := foldl_eq_ofDigits 0x100 UInt8.toNat (b :: b' :: rest)
    have hone : (b :: b' :: rest).length ≠ 1 := by simp
    dsimp only
    rw [hnumber, List.map_reverse, BitVec.toInt_ofNat', List.length_map, if_neg hone]
    obtain hlt | hle := Nat.lt_or_ge 4 (b :: b' :: rest).length
    · rw [if_pos hlt, if_neg (Nat.not_le.2 hlt)]
    · rw [if_neg (Nat.not_lt.2 hle), if_pos hle]

/-! ### Code units -/

theorem units16_eq (c : Char) : Utf8.units16 c = units16 c.toNat := by
  unfold Utf8.units16 units16
  split
  · rfl
  · next hlarge =>
    have hfirst : 0xD800 + (c.toNat - 0x10000) / 0x400 = 0xD7C0 + c.toNat / 2 ^ 10 := by omega
    have hlast : (c.toNat - 0x10000) % 0x400 = c.toNat % 2 ^ 10 := by omega
    rw [hfirst, hlast]

/-- **The code units of a character are those of its code point.** -/
theorem codeUnits_eq_encoded (encoding : Encoding) (c : Char) :
    encoding.codeUnits c = encoded encoding c.toNat := by
  cases encoding with
  | utf8 => exact Utf8.map_toNat_utf8EncodeChar c
  | utf16 => exact units16_eq c
  | plain | wide | utf32 => rfl

/-- The greatest code unit has all bits. -/
theorem maximum_lt_iff (encoding : Encoding) (n : Nat) :
    encoding.maximum < n ↔ 2 ^ encoding.width ≤ n := by
  cases encoding <;> exact Iff.rfl

/-- The code units of bytes in a row. -/
def rowUnits (encoding : Encoding) (row : Bytes) : List Nat :=
  (Utf8.decode row).flatMap encoding.codeUnits

theorem rowUnits_eq (row : Bytes) :
    rowUnits encoding row = (Utf8.decode row).flatMap (encoded encoding ·.toNat) :=
  List.flatMap_congr fun c _ => codeUnits_eq_encoded encoding c

/-- Bytes join the row before them. -/
theorem codeUnitsFrom_map_byte_append (row bytes : Bytes) (rest : List CharacterUnit) :
    codeUnitsFrom encoding row (bytes.map .byte ++ rest) =
      codeUnitsFrom encoding (row ++ bytes) rest := by
  induction bytes generalizing row with
  | nil => rw [List.map_nil, List.nil_append, List.append_nil]
  | cons b bytes ih =>
    rw [List.map_cons, List.cons_append, codeUnitsFrom, ih, List.append_assoc,
      List.singleton_append]

/-- A row ends where no byte follows. -/
theorem codeUnitsFrom_eq_map {rest : List CharacterUnit} (row : Bytes)
    (hrest : ∀ b, rest.head? ≠ some (.byte b)) :
    codeUnitsFrom encoding row rest =
      (rowUnits encoding row ++ ·) <$> codeUnitsFrom encoding [] rest := by
  cases rest with
  | nil => simp [codeUnitsFrom, rowUnits, Utf8.decode, Utf8.decodeFrom]
  | cons unit rest =>
    cases unit with
    | byte b => exact absurd rfl (hrest b)
    | numeric value =>
      simp only [codeUnitsFrom, rowUnits]
      split
      · rfl
      · simp [Utf8.decode, Utf8.decodeFrom]
    | codePoint value =>
      simp [codeUnitsFrom, rowUnits, Utf8.decode, Utf8.decodeFrom]

/-- Characters that stand for themselves are their bytes. -/
theorem map_unit_of_plain (hcs : ∀ c ∈ cs, c.IsWritten) (hplain : ∀ c ∈ cs, c.kind = .plain) :
    cs.map Character.unit = (cs.flatMap Character.spelling).map .byte := by
  induction cs with
  | nil => rfl
  | cons c cs ih =>
    obtain ⟨hc, hcs⟩ := List.forall_mem_cons.1 hcs
    obtain ⟨hkind, hplain⟩ := List.forall_mem_cons.1 hplain
    rw [List.map_cons, List.flatMap_cons, List.map_append, ih hcs hplain]
    cases hc with
    | plain hb => simp [Character.unit, Character.value]
    | simple | octal | hex | universal => cases hkind

theorem kind_of_unit_eq_byte {b : UInt8} (h : c.unit = .byte b) : c.kind = .plain := by
  unfold Character.unit at h
  split at h
  · next hkind => exact hkind
  all_goals cases h

/-- No character that stands for itself follows a row of them. -/
theorem head?_map_unit_dropWhile (cs : List Character) (b : UInt8) :
    ((cs.dropWhile (·.kind = .plain)).map Character.unit).head? ≠ some (.byte b) := by
  intro h
  rw [List.head?_map, Option.map_eq_some_iff] at h
  obtain ⟨c, hc, hunit⟩ := h
  have hnot := List.head?_dropWhile_not (fun c : Character => decide (c.kind = .plain)) cs
  rw [hc] at hnot
  simp [kind_of_unit_eq_byte hunit] at hnot

theorem exceeds_of_not_isNumeric (h : c.isNumeric = false) : c.exceeds encoding = false := by
  rw [Character.exceeds, h, Bool.false_and]

/-- A number is a code unit, unless it is too great. -/
theorem codeUnitsFrom_cons_numeric (hunit : c.unit = .numeric c.value) (hnumeric : c.isNumeric = true)
    {units : List Nat} {rest : List CharacterUnit} {allowed : Bool}
    (hrest : codeUnitsFrom encoding [] rest = unlessOutOfRange allowed units) :
    codeUnitsFrom encoding [] (c.unit :: rest) =
      unlessOutOfRange (!c.exceeds encoding && allowed) (c.value :: units) := by
  rw [hunit, codeUnitsFrom, hrest, Character.exceeds, hnumeric, Bool.true_and]
  by_cases hmaximum : encoding.maximum < c.value
  · rw [if_pos hmaximum, decide_eq_true ((maximum_lt_iff encoding c.value).1 hmaximum)]
    rfl
  · rw [if_neg hmaximum, decide_eq_false (mt (maximum_lt_iff encoding c.value).2 hmaximum)]
    exact map_unlessOutOfRange (c.value :: ·) allowed units

/-- **A constant with a prefix is read as its code units**, unless a number is none of them. -/
theorem codeUnitsFrom_eq (hcs : ∀ c ∈ cs, c.IsWritten) (hnames : ∀ c ∈ cs, c.isNameable = true) :
    codeUnitsFrom encoding [] (cs.map Character.unit) =
      unlessOutOfRange (!cs.any (Character.exceeds encoding)) (codeUnits encoding cs) := by
  fun_induction codeUnits encoding cs with
  | case1 => rfl
  | case2 c cs hkind row ih =>
    obtain ⟨hc, hcs⟩ := List.forall_mem_cons.1 hcs
    have hsplit : cs = row ++ cs.dropWhile (·.kind = .plain) :=
      List.takeWhile_append_dropWhile.symm
    have hrow : ∀ x ∈ row, x.IsWritten := fun x hx => hcs x ((List.takeWhile_prefix _).subset hx)
    have hafter := ih (fun x hx => hcs x ((List.dropWhile_suffix _).subset hx))
      fun x hx => hnames x (List.mem_cons_of_mem c ((List.dropWhile_suffix _).subset hx))
    have hplain : ∀ x ∈ c :: row, x.kind = .plain :=
      List.forall_mem_cons.2 ⟨hkind, fun x hx => by simpa using List.mem_takeWhile_imp hx⟩
    have hunits := map_unit_of_plain (List.forall_mem_cons.2 ⟨hc, hrow⟩) hplain
    have hexceeds : (c :: row).any (Character.exceeds encoding) = false := by
      refine List.any_eq_false.2 fun x hx => ?_
      rw [exceeds_of_not_isNumeric (by simp [Character.isNumeric, hplain x hx])]
      decide
    calc codeUnitsFrom encoding [] ((c :: cs).map Character.unit)
      _ = codeUnitsFrom encoding [] (((c :: row).flatMap Character.spelling).map .byte ++
            (cs.dropWhile (·.kind = .plain)).map Character.unit) := by
        rw [← hunits, ← List.map_append, List.cons_append, ← hsplit]
      _ = unlessOutOfRange (!(cs.dropWhile (·.kind = .plain)).any (Character.exceeds encoding))
            (rowUnits encoding ((c :: row).flatMap Character.spelling) ++
              codeUnits encoding (cs.dropWhile (·.kind = .plain))) := by
        rw [codeUnitsFrom_map_byte_append, List.nil_append,
          codeUnitsFrom_eq_map _ (head?_map_unit_dropWhile cs), hafter, map_unlessOutOfRange]
      _ = unlessOutOfRange (!(c :: cs).any (Character.exceeds encoding))
            ((Utf8.decode ((c :: row).flatMap Character.spelling)).flatMap
              (encoded encoding ·.toNat) ++ codeUnits encoding (cs.dropWhile (·.kind = .plain))) := by
        rw [rowUnits_eq]
        conv_rhs =>
          rw [hsplit, ← List.cons_append, List.any_append, hexceeds, Bool.false_or, ← hsplit]
  | case3 c cs hkind ih =>
    obtain ⟨hname, hnames⟩ := List.forall_mem_cons.1 hnames
    have hunit : c.unit = .codePoint c.value := by rw [Character.unit, hkind]
    have hexceeds : c.exceeds encoding = false :=
      exceeds_of_not_isNumeric (by simp [Character.isNumeric, hkind])
    rw [List.map_cons, List.any_cons, hunit, codeUnitsFrom, ih (List.forall_mem_cons.1 hcs).2 hnames,
      hexceeds, Bool.false_or, codeUnits_eq_encoded, toNat_ofNat_value hkind hname]
    exact map_unlessOutOfRange (encoded encoding c.value ++ ·) _ _
  | case4 c cs hkind ih | case5 c cs hkind ih | case6 c cs hkind ih =>
    have hunit : c.unit = .numeric c.value := by rw [Character.unit, hkind]
    have hnumeric : c.isNumeric = true := by simp [Character.isNumeric, hkind]
    rw [List.map_cons, List.any_cons, Bool.not_or]
    exact codeUnitsFrom_cons_numeric hunit hnumeric
      (ih (List.forall_mem_cons.1 hcs).2 (List.forall_mem_cons.1 hnames).2)

/-- **A constant with a prefix is its only code unit.** -/
theorem prefixedValue_eq (hcs : ∀ c ∈ cs, c.IsWritten) (hnames : ∀ c ∈ cs, c.isNameable = true) :
    prefixedValue encoding (cs.map Character.unit) = decodePrefixed encoding cs := by
  rw [prefixedValue, codeUnitsFrom_eq hcs hnames, decodePrefixed]
  cases cs.any (Character.exceeds encoding) with
  | true => rfl
  | false =>
    rw [if_neg (by decide)]
    match codeUnits encoding cs with
    | [] => rfl
    | [unit] =>
      change Except.ok (if encoding = .wide then Value.signed (BitVec.ofNat 32 unit).toInt
        else .ofNat unit) = _
      rw [BitVec.toInt_ofNat']
    | _ :: _ :: _ => rfl

/-! ## Constants -/

theorem evaluate_eq (text : Bytes) : evaluate text = decode text := by
  rw [evaluate, read_eq, decode]
  cases hscan : scan? text with
  | none => rfl
  | some result =>
    obtain ⟨encoding, cs⟩ := result
    obtain ⟨rest, -, hcs, hne⟩ := exists_of_scan? hscan
    obtain ⟨-, hwritten⟩ := eq_of_characters? hcs
    cases hrange : cs.all Character.isInRange with
    | false => simp [unlessOutOfRange, hrange]
    | true =>
      have hnames : ∀ c ∈ cs, c.isNameable = true := fun c hc =>
        (Bool.and_eq_true_iff.1 (List.all_eq_true.1 hrange c hc)).2
      cases encoding with
      | plain => simp [unlessOutOfRange, hrange, plainValue_eq hne hnames]
      | wide | utf8 | utf16 | utf32 =>
        simp [unlessOutOfRange, hrange, prefixedValue_eq hwritten hnames]

theorem decodeEscape_eq (hc : character? text = some c) (hkind : c.kind ≠ .plain)
    (hspelling : c.spelling = text) :
    decodeEscape text = if c.value < 2 ^ 32 then some c.value else none := by
  obtain ⟨-, -, hwritten, -⟩ := character?_eq_some_iff.1 hc
  obtain ⟨d, hd, hparse⟩ := exists_fits (hspelling ▸ derivesFrom_escapeSequence hwritten hkind)
  obtain ⟨c₁, hcharacters, hc₁, -⟩ := charactersOf_escapeSequence hd
  obtain rfl : c = c₁ := Option.some.inj (hc.symm.trans hc₁)
  obtain ⟨c₂, htree, -, hunit⟩ := unitOf_eq (describes_of_parse hparse)
  obtain rfl : c = c₂ := List.head_eq_of_cons_eq (hcharacters.symm.trans htree)
  rw [decodeEscape, hparse, Option.map_some, hunit, Character.fits]
  by_cases hlt : c.value < 2 ^ 32
  · rw [if_pos hlt, decide_eq_true hlt, Character.unit]
    cases hc : c.kind with
    | plain => exact absurd hc hkind
    | simple | octal | hex | universal => rfl
  · rw [if_neg hlt, decide_eq_false hlt]
    rfl

/-- **An escape sequence is decoded alone if its number fits 32 bits**, and nothing else is. -/
theorem decodeEscape_eq_some_iff (text : Bytes) (n : Nat) :
    decodeEscape text = some n ↔ ∃ c, character? text = some c ∧ c.kind ≠ .plain ∧
      c.spelling = text ∧ c.value = n ∧ n < 2 ^ 32 := by
  constructor
  · intro h
    obtain ⟨tree, htree⟩ : ∃ tree, grammar.parse .escapeSequence text = some tree := by
      refine Option.ne_none_iff_exists'.1 fun hnone => ?_
      rw [decodeEscape, hnone] at h
      cases h
    obtain ⟨d, hd, rfl⟩ := Option.map_eq_some_iff.1 htree
    obtain ⟨c, -, hc, hspelling, hkind, -⟩ := charactersOf_escapeSequence (fits_of_derive? hd)
    rw [decodeEscape_eq hc hkind hspelling, Option.ite_none_right_eq_some] at h
    obtain ⟨hlt, hvalue⟩ := h
    obtain rfl := Option.some.inj hvalue
    exact ⟨c, hc, hkind, hspelling, rfl, hlt⟩
  · rintro ⟨c, hc, hkind, hspelling, rfl, hlt⟩
    rw [decodeEscape_eq hc hkind hspelling, if_pos hlt]

/-- **Character constants and escape sequences are decoded in one scan.** What cannot be scanned has
no parse, and a row of source bytes is read as the characters that it encodes, with a replacement
for what encodes none. -/
theorem evaluate_eq_decode (text : Bytes) :
    evaluate text = decode text ∧ (scan? text = none ↔ grammar.parse .constant text = none) ∧
      (∀ row cs, Utf8.Decodes row cs ↔ Utf8.decode row = cs) ∧
      ∀ n, decodeEscape text = some n ↔ ∃ c, character? text = some c ∧ c.kind ≠ .plain ∧
        c.spelling = text ∧ c.value = n ∧ n < 2 ^ 32 :=
  ⟨evaluate_eq text, scan?_eq_none_iff text, Utf8.decodes_iff, decodeEscape_eq_some_iff text⟩

/-- A number of two bytes loses the first one; then there is one more character. -/
example : evaluate (Bytes.ofString "'\\x141g'") =
    ([.escapeTruncated, .multipleCharacters], .ok (.signed 0x4167)) := by
  rw [evaluate_eq]
  decide +kernel

/-- The euro sign is three bytes, so it is no character of UTF-8, and one unit otherwise. -/
example : evaluate (Bytes.ofString "u8'€'") = ([], .error .characterConstantTooLong) ∧
    evaluate (Bytes.ofString "u'€'") = ([], .ok (.ofNat 0x20AC)) ∧
    evaluate (Bytes.ofString "U'\\U0001F600'") = ([], .ok (.ofNat 0x1F600)) ∧
    evaluate (Bytes.ofString "L'\\xFFFFFFFF'") = ([], .ok (.signed (-1))) := by
  simp only [evaluate_eq]
  decide +kernel

/-- A code point above U+FFFF has a pair of UTF-16 units, and a number of nine bits is no unit of
UTF-8. -/
example : codeUnits .utf16 [⟨.universal, Bytes.ofString "\\U0001F600"⟩] = [0xD83D, 0xDE00] ∧
    evaluate (Bytes.ofString "u8'\\x1FF'") = ([], .error .escapeOutOfRange) ∧
    evaluate (Bytes.ofString "u8'\\xFFg'") = ([], .error .characterConstantTooLong) := by
  simp only [evaluate_eq]
  decide +kernel

end CPreprocessor.CharacterConstant
