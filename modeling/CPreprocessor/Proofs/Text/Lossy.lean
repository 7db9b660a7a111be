import CPreprocessor.Proofs.Text.Utf8
import Mathlib.Data.List.Basic

/-!
# What is not UTF-8 is replaced

Which characters some bytes are read as can be told from the encodings of characters alone
(`Decodes`). Where the text begins with an encoding, the character is read. Elsewhere the longest
part of the text that some encoding begins with is replaced, or else one byte. There is just one way
to read a text so, and `Utf8.decode` is it (`decodes_iff`).

The reader replaces a part when the next byte is out of bounds. No encoding goes on with that byte
(`Pending.Follows.within`), since it would be read as its character. And the bounds are not too
narrow, since the bytes that they admit complete an encoding (`exists_eq_of_lead`).
-/

namespace CPreprocessor.Utf8

/-! ## Encodings -/

/-- The UTF-8 code units of a code point. -/
def units (n : ℕ) : List ℕ :=
  if n < 0x80 then [n]
  else if n < 0x800 then [0xC0 + n / 0x40, 0x80 + n % 0x40]
  else if n < 0x10000 then [0xE0 + n / 0x1000, 0x80 + n / 0x40 % 0x40, 0x80 + n % 0x40]
  else [0xF0 + n / 0x40000, 0x80 + n / 0x1000 % 0x40, 0x80 + n / 0x40 % 0x40, 0x80 + n % 0x40]

theorem map_toNat_utf8EncodeChar (c : Char) :
    (String.utf8EncodeChar c).map UInt8.toNat = units c.toNat := by
  have hvalid : c.toNat < 0xD800 ∨ 0xDFFF < c.toNat ∧ c.toNat < 0x110000 := c.valid
  unfold String.utf8EncodeChar units
  rw [show c.val.toNat = c.toNat from rfl]
  generalize c.toNat = n at hvalid
  dsimp only
  split_ifs <;> try omega
  all_goals
    simp only [List.map_cons, List.map_nil, UInt8.toNat_ofNat', List.cons.injEq, and_true]
    omega

/-- Bytes that some encoding begins with. -/
def Begins (part : Bytes) : Prop := ∃ c, part <+: String.utf8EncodeChar c

theorem Begins.of_append {part more : Bytes} (h : Begins (part ++ more)) : Begins part := by
  obtain ⟨c, hc⟩ := h
  exact ⟨c, (List.prefix_append part more).trans hc⟩

/-- The characters that bytes are read as. -/
inductive Decodes : Bytes → List Char → Prop
  | nil : Decodes [] []
  | character (c : Char) {rest : Bytes} {cs : List Char} (h : Decodes rest cs) :
      Decodes (String.utf8EncodeChar c ++ rest) (c :: cs)
  /-- A part of the text that is no encoding, as long as one can begin with it. -/
  | replaced {part rest : Bytes} {cs : List Char} (hne : part ≠ [])
      (hpart : part.length = 1 ∨ Begins part)
      (hmaximal : ∀ b ∈ rest.head?, ¬ Begins (part ++ [b]))
      (hnone : ∀ c, ¬ String.utf8EncodeChar c <+: part) (h : Decodes rest cs) :
      Decodes (part ++ rest) (Char.ofNat 0xFFFD :: cs)

/-! ## Reading encodings -/

variable {text part rest : Bytes} {b : UInt8} {p : Pending} {cs : List Char}

theorem decodeFrom_some_ne_nil (p : Pending) (text : Bytes) : decodeFrom (some p) text ≠ [] := by
  induction text generalizing p with
  | nil => exact List.cons_ne_nil _ _
  | cons b rest ih =>
    rw [decodeFrom]
    split
    · split
      · exact List.cons_ne_nil _ _
      · exact ih _
    · exact List.cons_ne_nil _ _

theorem decodeFrom_none_cons_ne_nil (b : UInt8) (rest : Bytes) :
    decodeFrom none (b :: rest) ≠ [] := by
  rw [decodeFrom]
  split
  · exact List.cons_ne_nil _ _
  · exact decodeFrom_some_ne_nil _ rest
  · exact List.cons_ne_nil _ _

/-- A byte that is out of bounds is read as if nothing were before it. -/
theorem decodeFrom_some_of_not (hb : ¬ (p.low ≤ b ∧ b ≤ p.high)) (rest : Bytes) :
    decodeFrom (some p) (b :: rest) = replacement :: decodeFrom none (b :: rest) := by
  conv => lhs; rw [decodeFrom, if_neg hb]
  rw [decodeFrom]

theorem decodeFrom_utf8EncodeChar (c : Char) : decodeFrom none (String.utf8EncodeChar c) = [c] := by
  have happend := decodeFrom_utf8EncodeChar_append c []
  rwa [List.append_nil] at happend

theorem utf8EncodeChar_ne_nil (c : Char) : String.utf8EncodeChar c ≠ [] := by
  intro hnil
  have hc := decodeFrom_utf8EncodeChar c
  rw [hnil] at hc
  cases hc

/-- No character is encoded as another one and more bytes. -/
theorem eq_of_prefix_utf8EncodeChar {c d : Char}
    (h : String.utf8EncodeChar c <+: String.utf8EncodeChar d) : c = d ∧
      String.utf8EncodeChar c = String.utf8EncodeChar d := by
  obtain ⟨more, hmore⟩ := h
  have hd := decodeFrom_utf8EncodeChar d
  rw [← hmore, decodeFrom_utf8EncodeChar_append] at hd
  obtain rfl := (List.cons.inj hd).1
  exact ⟨rfl, rfl⟩

/-! ## Reading parts of encodings -/

theorem toNat_ofNat {n : ℕ} (hn : n.isValidChar) : (Char.ofNat n).toNat = n := by
  rw [Char.ofNat, dif_pos hn]
  rfl

/-- Bytes with the numbers of an encoding are the encoding. -/
theorem eq_of_map_toNat {n : ℕ} (hn : n.isValidChar) {bytes : Bytes}
    (h : bytes.map UInt8.toNat = units n) : bytes = String.utf8EncodeChar (Char.ofNat n) := by
  refine (List.map_inj_right fun _ _ => UInt8.toNat_inj.1).1 ?_
  rw [map_toNat_utf8EncodeChar, toNat_ofNat hn, h]

section

variable {d e f : UInt8}

theorem exists_eq_of_two (hb : 0xC2 ≤ b.toNat ∧ b.toNat < 0xE0)
    (hd : 0x80 ≤ d.toNat ∧ d.toNat ≤ 0xBF) : ∃ c, [b, d] = String.utf8EncodeChar c := by
  generalize hn : (b.toNat - 0xC0) * 0x40 + (d.toNat - 0x80) = n
  refine ⟨_, eq_of_map_toNat (n := n) (.inl (by omega)) ?_⟩
  rw [units, if_neg (by omega), if_pos (by omega)]
  simp only [List.map_cons, List.map_nil, List.cons.injEq, and_true]
  omega

theorem exists_eq_of_three (hb : 0xE0 ≤ b.toNat ∧ b.toNat < 0xF0)
    (hd : 0x80 ≤ d.toNat ∧ d.toNat ≤ 0xBF) (hlow : b.toNat = 0xE0 → 0xA0 ≤ d.toNat)
    (hhigh : b.toNat = 0xED → d.toNat ≤ 0x9F) (he : 0x80 ≤ e.toNat ∧ e.toNat ≤ 0xBF) :
    ∃ c, [b, d, e] = String.utf8EncodeChar c := by
  generalize hn : (b.toNat - 0xE0) * 0x1000 + (d.toNat - 0x80) * 0x40 + (e.toNat - 0x80) = n
  refine ⟨_, eq_of_map_toNat (n := n) ?_ ?_⟩
  · simp only [Nat.isValidChar]
    omega
  · rw [units, if_neg (by omega), if_neg (by omega), if_pos (by omega)]
    simp only [List.map_cons, List.map_nil, List.cons.injEq, and_true]
    omega

theorem exists_eq_of_four (hb : 0xF0 ≤ b.toNat ∧ b.toNat < 0xF5)
    (hd : 0x80 ≤ d.toNat ∧ d.toNat ≤ 0xBF) (hlow : b.toNat = 0xF0 → 0x90 ≤ d.toNat)
    (hhigh : b.toNat = 0xF4 → d.toNat ≤ 0x8F) (he : 0x80 ≤ e.toNat ∧ e.toNat ≤ 0xBF)
    (hf : 0x80 ≤ f.toNat ∧ f.toNat ≤ 0xBF) :
    ∃ c, [b, d, e, f] = String.utf8EncodeChar c := by
  generalize hn : (b.toNat - 0xF0) * 0x40000 + (d.toNat - 0x80) * 0x1000 +
    (e.toNat - 0x80) * 0x40 + (f.toNat - 0x80) = n
  refine ⟨_, eq_of_map_toNat (n := n) (.inr (by omega)) ?_⟩
  rw [units, if_neg (by omega), if_neg (by omega), if_neg (by omega)]
  simp only [List.map_cons, List.map_nil, List.cons.injEq, and_true]
  omega

/-- **Bytes within the bounds are an encoding**, together with the first byte that has the bounds. -/
theorem exists_eq_of_lead (h : lead b = .multiple p) {tail : Bytes}
    (hlength : tail.length = p.later + 1) (hhead : ∀ d ∈ tail.head?, p.low ≤ d ∧ d ≤ p.high)
    (htail : ∀ d ∈ tail.tail, 0x80 ≤ d ∧ d ≤ 0xBF) :
    ∃ c, b :: tail = String.utf8EncodeChar c := by
  simp only [UInt8.le_iff_toNat_le, UInt8.reduceToNat] at hhead htail
  simp only [lead, UInt8.lt_iff_toNat_lt, UInt8.reduceToNat, ← UInt8.toNat_inj] at h
  split at h
  · cases h
  split at h
  · cases h
  split at h
  · cases h
    obtain ⟨d, rfl⟩ := List.length_eq_one_iff.1 hlength
    exact exists_eq_of_two ⟨by omega, by omega⟩ (hhead d rfl)
  split at h
  · cases h
    obtain ⟨d, e, rfl⟩ := List.length_eq_two.1 hlength
    obtain ⟨hlow, hhigh⟩ := hhead d rfl
    have hbounds : (0x80 ≤ d.toNat ∧ d.toNat ≤ 0xBF) ∧ (b.toNat = 0xE0 → 0xA0 ≤ d.toNat) ∧
        (b.toNat = 0xED → d.toNat ≤ 0x9F) := by
      dsimp only at hlow hhigh
      split at hlow <;> split at hhigh <;> simp only [UInt8.reduceToNat] at hlow hhigh <;> omega
    obtain ⟨hd, hlow, hhigh⟩ := hbounds
    have he := htail e (List.mem_singleton_self e)
    exact exists_eq_of_three ⟨by omega, by omega⟩ hd hlow hhigh he
  split at h
  · cases h
    obtain ⟨d, e, f, rfl⟩ := List.length_eq_three.1 hlength
    obtain ⟨hlow, hhigh⟩ := hhead d rfl
    have hbounds : (0x80 ≤ d.toNat ∧ d.toNat ≤ 0xBF) ∧ (b.toNat = 0xF0 → 0x90 ≤ d.toNat) ∧
        (b.toNat = 0xF4 → d.toNat ≤ 0x8F) := by
      dsimp only at hlow hhigh
      split at hlow <;> split at hhigh <;> simp only [UInt8.reduceToNat] at hlow hhigh <;> omega
    obtain ⟨hd, hlow, hhigh⟩ := hbounds
    obtain ⟨he, hf⟩ := List.forall_mem_cons.1 htail
    have hf := hf f (List.mem_singleton_self f)
    exact exists_eq_of_four ⟨by omega, by omega⟩ hd hlow hhigh he hf
  · cases h

end

/-! ## Parts of encodings -/

/-- The part of a text that is read when some bytes of a character are pending. -/
structure Pending.Follows (p : Pending) (part : Bytes) : Prop where
  low_le_high : p.low ≤ p.high
  decodeFrom_append : ∀ rest, decodeFrom none (part ++ rest) = decodeFrom (some p) rest
  exists_eq : ∀ tail : Bytes, tail.length = p.later + 1 →
    (∀ d ∈ tail.head?, p.low ≤ d ∧ d ≤ p.high) → (∀ d ∈ tail.tail, 0x80 ≤ d ∧ d ≤ 0xBF) →
      ∃ c, part ++ tail = String.utf8EncodeChar c

theorem low_le_high_of_lead (h : lead b = .multiple p) : p.low ≤ p.high := by
  simp only [lead, UInt8.lt_iff_toNat_lt, UInt8.reduceToNat, ← UInt8.toNat_inj] at h
  rw [UInt8.le_iff_toNat_le]
  split at h
  · cases h
  split at h
  · cases h
  split at h
  · cases h
    simp only [UInt8.reduceToNat]
    omega
  split at h
  · cases h
    dsimp only
    split <;> split <;> simp only [UInt8.reduceToNat] <;> omega
  split at h
  · cases h
    dsimp only
    split <;> split <;> simp only [UInt8.reduceToNat] <;> omega
  · cases h

theorem follows_of_lead (h : lead b = .multiple p) : p.Follows [b] where
  low_le_high := low_le_high_of_lead h
  decodeFrom_append := decodeFrom_cons_of_lead h
  exists_eq _ := exists_eq_of_lead h

namespace Pending.Follows

variable (h : p.Follows part)
include h

theorem later {later : ℕ} (hlater : p.later = later + 1) (hb : p.low ≤ b ∧ b ≤ p.high) :
    Pending.Follows { later, bits := p.bits * 0x40 + b.toNat % 0x40 } (part ++ [b]) where
  low_le_high := (by decide : (0x80 : UInt8) ≤ 0xBF)
  decodeFrom_append rest := by
    rw [List.append_assoc, h.decodeFrom_append, List.singleton_append, decodeFrom, if_pos hb,
      hlater]
  exists_eq tail hlength hhead htail := by
    have htail' : ∀ d ∈ tail, 0x80 ≤ d ∧ d ≤ 0xBF := by
      cases tail with
      | nil => cases hlength
      | cons d tail => exact List.forall_mem_cons.2 ⟨hhead d rfl, htail⟩
    rw [List.append_assoc]
    refine h.exists_eq ([b] ++ tail) ?_ ?_ htail'
    · rw [List.length_append, hlength, hlater, Nat.add_comm]
      rfl
    · rintro _ ⟨⟩
      exact hb

/-- Some encoding goes on behind the part. -/
theorem exists_encoding : ∃ c tail, tail ≠ [] ∧ part ++ tail = String.utf8EncodeChar c := by
  obtain ⟨c, hc⟩ := h.exists_eq (p.low :: List.replicate p.later 0x80) (by simp)
    (by rintro _ ⟨⟩; exact ⟨UInt8.le_refl _, h.low_le_high⟩)
    (fun d hd => by rw [(List.mem_replicate.1 hd).2]; decide)
  exact ⟨c, _, List.cons_ne_nil _ _, hc⟩

theorem begins : Begins part := by
  obtain ⟨c, tail, -, hc⟩ := h.exists_encoding
  exact ⟨c, hc ▸ List.prefix_append part tail⟩

theorem ne_nil : part ≠ [] := by
  rintro rfl
  exact decodeFrom_some_ne_nil p [] (h.decodeFrom_append []).symm

/-- No encoding is complete in the part. -/
theorem not_prefix (c : Char) : ¬ String.utf8EncodeChar c <+: part := by
  intro hc
  obtain ⟨d, tail, htail, hd⟩ := h.exists_encoding
  have hprefix := hc.trans (hd ▸ List.prefix_append part tail)
  have hle := hc.length_le
  rw [(eq_of_prefix_utf8EncodeChar hprefix).2, ← hd, List.length_append] at hle
  have := List.length_pos_of_ne_nil htail
  omega

/-- **A byte that an encoding goes on with is within the bounds.** -/
theorem within (hb : Begins (part ++ [b])) : p.low ≤ b ∧ b ≤ p.high := by
  obtain ⟨c, more, hmore⟩ := hb
  by_contra hout
  have hc := decodeFrom_utf8EncodeChar c
  rw [← hmore, List.append_assoc, h.decodeFrom_append, List.singleton_append,
    decodeFrom_some_of_not hout] at hc
  exact decodeFrom_none_cons_ne_nil b more (List.cons.inj hc).2

end Pending.Follows

/-- No encoding begins with a byte that starts no character. -/
theorem not_begins_of_lead (h : lead b = .invalid) (more : Bytes) : ¬ Begins (b :: more) := by
  rintro ⟨c, rest, hrest⟩
  have hc := decodeFrom_utf8EncodeChar c
  rw [← hrest, List.cons_append, decodeFrom, h] at hc
  obtain ⟨rfl, hnone⟩ := List.cons.inj hc
  cases hmore : more ++ rest with
  | nil =>
    -- the replacement character takes more than one byte
    rw [List.cons_append, hmore] at hrest
    have hlength : ([b] : Bytes).length = 3 := congrArg List.length hrest
    cases hlength
  | cons d rest =>
    rw [hmore] at hnone
    exact decodeFrom_none_cons_ne_nil d rest hnone

theorem utf8EncodeChar_of_lead {c : Char} (h : lead b = .single c) :
    [b] = String.utf8EncodeChar c := by
  unfold lead at h
  split at h
  · next hb =>
    cases h
    have hlt : b.toNat < 0x80 := UInt8.lt_iff_toNat_lt.1 hb
    refine eq_of_map_toNat (.inl (by omega)) ?_
    rw [units, if_pos hlt]
    rfl
  all_goals repeat' split at h
  all_goals cases h

/-! ## Both ways to read a text -/

/-- A byte that starts no character is replaced. -/
theorem Decodes.of_lead (hlead : lead b = .invalid) (h : Decodes rest cs) :
    Decodes (b :: rest) (replacement :: cs) := by
  refine .replaced (List.cons_ne_nil b []) (.inl rfl) (fun d _ => not_begins_of_lead hlead [d])
    (fun c hc => ?_) h
  have hlength := List.length_pos_of_ne_nil (utf8EncodeChar_ne_nil c)
  have heq : String.utf8EncodeChar c = [b] := hc.eq_of_length_le hlength
  exact not_begins_of_lead hlead [] ⟨c, heq ▸ List.prefix_rfl⟩

/-- A part is replaced where no encoding goes on. -/
theorem Decodes.of_follows (hfollows : p.Follows part)
    (hrest : ∀ b ∈ rest.head?, ¬ (p.low ≤ b ∧ b ≤ p.high)) (h : Decodes rest cs) :
    Decodes (part ++ rest) (replacement :: cs) :=
  .replaced hfollows.ne_nil (.inr hfollows.begins)
    (fun b hb hbegins => hrest b hb (hfollows.within hbegins)) hfollows.not_prefix h

/-- **A text is decoded as it is read**, also behind the part of a character. -/
theorem decodes_decodeFrom (text : Bytes) :
    Decodes text (decodeFrom none text) ∧
      ∀ p part, Pending.Follows p part → Decodes (part ++ text) (decodeFrom (some p) text) := by
  induction text with
  | nil => exact ⟨.nil, fun p part h => .of_follows h (by simp) .nil⟩
  | cons b rest ih =>
    obtain ⟨hnone, hsome⟩ := ih
    have hcons : Decodes (b :: rest) (decodeFrom none (b :: rest)) := by
      rw [decodeFrom]
      split
      · next c hlead =>
        rw [← List.singleton_append, utf8EncodeChar_of_lead hlead]
        exact .character c hnone
      · next p hlead => exact hsome p [b] (follows_of_lead hlead)
      · next hlead => exact .of_lead hlead hnone
    refine ⟨hcons, fun p part h => ?_⟩
    by_cases hb : p.low ≤ b ∧ b ≤ p.high
    · rw [List.append_cons]
      cases hlater : p.later with
      | zero =>
        obtain ⟨c, hc⟩ := h.exists_eq [b] (by rw [hlater]; rfl) (by rintro _ ⟨⟩; exact hb) (by simp)
        have hread := h.decodeFrom_append (b :: rest)
        rw [List.append_cons, hc, decodeFrom_utf8EncodeChar_append] at hread
        rw [← hread, hc]
        exact .character c hnone
      | succ later =>
        rw [decodeFrom, if_pos hb, hlater]
        exact hsome _ _ (h.later hlater hb)
    · rw [decodeFrom_some_of_not hb]
      exact .of_follows h (by rintro _ ⟨⟩; exact hb) hcons

/-- No encoding begins where a part is replaced. -/
theorem not_prefix_append (hmaximal : ∀ b ∈ rest.head?, ¬ Begins (part ++ [b]))
    (hnone : ∀ c, ¬ String.utf8EncodeChar c <+: part) (c : Char) :
    ¬ String.utf8EncodeChar c <+: part ++ rest := by
  intro h
  obtain hshort | hlong := List.prefix_or_prefix_of_prefix h (List.prefix_append part rest)
  · exact hnone c hshort
  · obtain ⟨more, hmore⟩ := hlong
    rw [← hmore, List.prefix_append_right_inj] at h
    cases more with
    | nil =>
      rw [List.append_nil] at hmore
      exact hnone c (hmore ▸ List.prefix_rfl)
    | cons b more =>
      obtain ⟨later, rfl⟩ := h
      have hbegins : Begins ((part ++ [b]) ++ more) := ⟨c, by simp [← hmore]⟩
      exact hmaximal b rfl hbegins.of_append

/-- No longer part than the longest one is replaced. -/
theorem eq_nil_of_replaced {more : Bytes} (hne : part ≠ [])
    (hmaximal : ∀ b ∈ (more ++ rest).head?, ¬ Begins (part ++ [b]))
    (hpart : (part ++ more).length = 1 ∨ Begins (part ++ more)) : more = [] := by
  cases more with
  | nil => rfl
  | cons b more =>
    obtain hone | hbegins := hpart
    · have hpos := List.length_pos_of_ne_nil hne
      rw [List.length_append, List.length_cons] at hone
      omega
    · rw [List.append_cons] at hbegins
      exact absurd hbegins.of_append (hmaximal b rfl)

/-- **A text is decoded in one way only.** -/
theorem Decodes.unique {cs' : List Char} (h : Decodes text cs) (h' : Decodes text cs') :
    cs = cs' := by
  induction h generalizing cs' with
  | nil =>
    generalize htext : [] = text at h'
    cases h' with
    | nil => rfl
    | character c => exact absurd (List.append_eq_nil_iff.1 htext.symm).1 (utf8EncodeChar_ne_nil c)
    | replaced hne => exact absurd (List.append_eq_nil_iff.1 htext.symm).1 hne
  | @character c rest cs h ih =>
    generalize htext : String.utf8EncodeChar c ++ rest = text at h'
    cases h' with
    | nil => exact absurd (List.append_eq_nil_iff.1 htext).1 (utf8EncodeChar_ne_nil c)
    | character d h' =>
      have hread := congrArg (decodeFrom none) htext
      rw [decodeFrom_utf8EncodeChar_append, decodeFrom_utf8EncodeChar_append] at hread
      obtain rfl := (List.cons.inj hread).1
      rw [ih (List.append_cancel_left htext ▸ h')]
    | replaced _ _ hmaximal hnone =>
      exact absurd ⟨rest, htext⟩ (not_prefix_append hmaximal hnone c)
  | @replaced part rest cs hne hpart hmaximal hnone h ih =>
    generalize htext : part ++ rest = text at h'
    cases h' with
    | nil => exact absurd (List.append_eq_nil_iff.1 htext).1 hne
    | @character c rest' => exact absurd ⟨rest', htext.symm⟩ (not_prefix_append hmaximal hnone c)
    | @replaced part' rest' _ hne' hpart' hmaximal' _ h' =>
      obtain ⟨more, rfl, rfl⟩ | ⟨more, rfl, rfl⟩ := List.append_eq_append_iff.1 htext
      · obtain rfl := eq_nil_of_replaced hne hmaximal hpart'
        rw [ih h']
      · obtain rfl := eq_nil_of_replaced hne' hmaximal' hpart
        rw [ih h']

/-- **Bytes are read as the characters that they encode.** What encodes none is replaced. -/
theorem decodes_iff (text : Bytes) (cs : List Char) : Decodes text cs ↔ decode text = cs :=
  ⟨fun h => (decodes_decodeFrom text).1.unique h, fun h => h ▸ (decodes_decodeFrom text).1⟩

end CPreprocessor.Utf8
