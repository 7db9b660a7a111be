import CPreprocessor.CharacterConstant.Value
import CPreprocessor.Proofs.Token.Spelling
import Mathlib.Algebra.Group.Nat.Even
import Mathlib.Data.List.DropRight

/-!
# Universal character names in tokens

A backslash in a token opens an escape sequence or a universal character name, unless it is taken by
a backslash before it. So of the backslashes in a row, every other one does. The automata of the
tokens that may have a name in them are in a state of their own behind such a backslash
(`Automaton.FollowsEscapes`), and from there they go through a name only if it is acceptable.

What is acceptable includes the surrogates, which the standard forbids. This is the only difference:
a name in a token may stand where it does exactly if it names no surrogate
(`Token.isAllowed_iff_not_isSurrogate`). When a character constant is evaluated, the surrogates are
refused as well (`CharacterConstant.isNameable_iff`).
-/

namespace CPreprocessor

namespace Lexeme

open Ascii Automaton

/-- The mark and the digits of a universal character name. -/
def SpellsName (mark : UInt8) (digits : Bytes) : Prop :=
  (mark = lowerU ∧ digits.length = 4 ∨ mark = upperU ∧ digits.length = 8) ∧
    ∀ d ∈ digits, isHexDigit d = true

instance (mark : UInt8) (digits : Bytes) : Decidable (SpellsName mark digits) :=
  inferInstanceAs (Decidable (_ ∧ _))

/-- A universal character name in a text. The backslash that it begins with is not taken by one
before it. -/
structure NameIn (text : Bytes) where
  before : Bytes
  mark : UInt8
  digits : Bytes
  after : Bytes
  text_eq : text = before ++ backslash :: mark :: (digits ++ after)
  even_backslashes : Even (before.rtakeWhile (· == backslash)).length
  spells : SpellsName mark digits

/-- The code point that a universal character name stands for. -/
def NameIn.codePoint {text : Bytes} (name : NameIn text) : ℕ := Ascii.number 16 name.digits

/-! ## Behind a backslash -/

theorem SpellsName.isAcceptable {mark : UInt8} {digits after : Bytes}
    (h : SpellsName mark digits) {language : Language UInt8}
    (hmem : mark :: (digits ++ after) ∈ universalRest .backslash * language) :
    UniversalName.isAcceptable (Ascii.number 16 digits) = true := by
  obtain ⟨name, hname, rest, -, hsplit⟩ := Language.mem_mul.1 hmem
  cases name with
  | nil => exact absurd hname (nil_notMem_universalRest .backslash)
  | cons mark' digits' =>
    obtain ⟨hlength, -, hacceptable⟩ := cons_mem_universalRest_backslash.1 hname
    obtain ⟨rfl, hdigits⟩ := List.cons.inj hsplit
    have hsame : digits'.length = digits.length := by
      have hmarks : lowerU ≠ upperU := by decide
      rcases hlength with ⟨rfl, hlength⟩ | ⟨rfl, hlength⟩ <;>
        rcases h.1 with ⟨hmark, hlength'⟩ | ⟨hmark, hlength'⟩
      · rw [hlength, hlength']
      · exact absurd hmark hmarks
      · exact absurd hmark.symm hmarks
      · rw [hlength, hlength']
    rwa [(List.append_inj hdigits hsame).1] at hacceptable

variable {σ : Type} {a : Automaton σ} {language : σ → Language UInt8} {escaped : σ → Prop}

/-- An automaton is in certain states exactly behind a backslash that opens something, and in these
states it takes only acceptable names. -/
structure Automaton.FollowsEscapes (a : Automaton σ) (language : σ → Language UInt8)
    (escaped : σ → Prop) : Prop where
  recognizes : a.Recognizes language
  start : ¬ escaped a.start
  step {s s' : σ} {b : UInt8} (h : a.step s b = some s') :
    escaped s' ↔ b = backslash ∧ ¬ escaped s
  isAcceptable {s : σ} (hs : escaped s) {mark : UInt8} {digits after : Bytes}
    (hspells : SpellsName mark digits) (h : mark :: (digits ++ after) ∈ language s) :
    UniversalName.isAcceptable (Ascii.number 16 digits) = true

theorem Automaton.run_concat (s : σ) (text : Bytes) (b : UInt8) :
    a.run s (text ++ [b]) = (a.run s text).bind (a.step · b) := by
  induction text generalizing s with
  | nil => simp [run]
  | cons c text ih =>
    rw [List.cons_append, run, run]
    cases a.step s c with
    | none => rfl
    | some s' => exact ih s'

namespace Automaton.FollowsEscapes

/-- The backslashes at the end tell which state is reached. -/
theorem escaped_iff (h : a.FollowsEscapes language escaped) {before : Bytes} {s : σ}
    (hrun : a.run a.start before = some s) :
    escaped s ↔ ¬ Even (before.rtakeWhile (· == backslash)).length := by
  induction before using List.reverseRecOn generalizing s with
  | nil =>
    obtain rfl : a.start = s := Option.some.inj hrun
    exact iff_of_false h.start (by simp)
  | append_singleton before b ih =>
    rw [run_concat] at hrun
    obtain ⟨s', hrun, hstep⟩ := Option.bind_eq_some_iff.1 hrun
    rw [h.step hstep, ih hrun, List.rtakeWhile_concat]
    by_cases hb : b = backslash
    · simp [hb, Nat.even_add_one]
    · simp [hb]

/-- **Only acceptable names are in a text that is accepted.** -/
theorem isAcceptable_of_mem (h : a.FollowsEscapes language escaped) {text : Bytes}
    (htext : text ∈ language a.start) (name : NameIn text) :
    UniversalName.isAcceptable name.codePoint = true := by
  rw [name.text_eq] at htext
  obtain ⟨s, hrun, hrest⟩ := h.recognizes.append_mem_iff.1 htext
  obtain ⟨s', hstep, hrest⟩ := h.recognizes.cons_mem_iff.1 hrest
  have hopens : ¬ escaped s := fun hs => (h.escaped_iff hrun).1 hs name.even_backslashes
  exact h.isAcceptable ((h.step hstep).2 ⟨rfl, hopens⟩) name.spells hrest

end Automaton.FollowsEscapes

/-! ## The automata -/

theorem UniversalName.step_backslash (progress : UniversalName.Progress) :
    UniversalName.step progress backslash = none := by
  cases progress <;> rfl

/-- A name that goes on goes on with digits. -/
theorem UniversalName.exists_digits_of_step {progress progress' : UniversalName.Progress}
    {b : UInt8} (h : UniversalName.step progress b = some (.inl progress')) :
    ∃ later value, progress' = .digits later value := by
  cases progress with
  | backslash =>
    by_cases hl : b = lowerU
    · rw [hl] at h
      cases h
      exact ⟨_, _, rfl⟩
    by_cases hu : b = upperU
    · rw [hu] at h
      cases h
      exact ⟨_, _, rfl⟩
    · rw [step_backslash_eq_none hl hu] at h
      cases h
  | digits later value =>
    rw [step] at h
    split_ifs at h
    cases later with
    | zero => cases h
    | succ later =>
      cases h
      exact ⟨_, _, rfl⟩

/-- A byte of a name is no backslash, and behind it there are digits or the end of the name. -/
theorem UniversalName.of_feed {inside : UniversalName.Progress → σ} {after s : σ}
    {progress : UniversalName.Progress} {b : UInt8}
    (h : UniversalName.feed inside after progress b = some s) :
    b ≠ backslash ∧ (s = after ∨ ∃ later value, s = inside (.digits later value)) := by
  rw [feed] at h
  cases hstep : step progress b with
  | none =>
    rw [hstep] at h
    cases h
  | some next =>
    refine ⟨fun hb => ?_, ?_⟩
    · rw [hb, step_backslash] at hstep
      cases hstep
    rw [hstep] at h
    cases next with
    | inl progress' =>
      obtain ⟨later, value, rfl⟩ := exists_digits_of_step hstep
      exact .inr ⟨later, value, (Option.some.inj h).symm⟩
    | inr codePoint =>
      dsimp only at h
      split_ifs at h
      exact .inl (Option.some.inj h).symm

/-- Identifiers have no other escapes than names. -/
theorem followsEscapes_identifier :
    identifier.FollowsEscapes Identifier.State.language (· = .universal .backslash) where
  recognizes := recognizes_identifier
  start := nofun
  step {s s' b} h := by
    replace h : Identifier.step s b = some s' := h
    cases s with
    | universal progress =>
      obtain ⟨hb, rfl | ⟨later, value, rfl⟩⟩ := UniversalName.of_feed h
      · simp [hb]
      · simp [hb]
    | start =>
      rw [Identifier.step_start] at h
      split_ifs at h <;> cases h <;> simp [*]
    | name =>
      rw [Identifier.step_name] at h
      split_ifs at h <;> cases h <;> simp [*]
  isAcceptable hs _ _ _ hspells h := by
    subst hs
    exact hspells.isAcceptable h

/-- Numbers have no other escapes than names. -/
theorem followsEscapes_number :
    Lexeme.number.FollowsEscapes Number.State.language (· = .universal .backslash) where
  recognizes := recognizes_number
  start := nofun
  step {s s' b} h := by
    replace h : Number.step s b = some s' := h
    by_cases hb : b = backslash
    · subst hb
      cases s with
      | universal progress => exact absurd rfl (UniversalName.of_feed h).1
      | _ => cases h <;> simp
    · cases s with
      | universal progress =>
        obtain ⟨-, rfl | ⟨later, value, rfl⟩⟩ := UniversalName.of_feed h
        · simp [hb]
        · simp [hb]
      | _ =>
        simp only [Number.step, Number.extend, beq_iff_eq, hb, if_false] at h
        split_ifs at h <;> cases h <;> simp [hb]
  isAcceptable hs _ _ _ hspells h := by
    subst hs
    exact hspells.isAcceptable h

theorem Quoted.eq_escape_iff_of_step {quote b : UInt8} (hquote : IsQuote quote)
    {s s' : Quoted.State} (h : Quoted.step quote s b = some s') :
    s' = .escape ↔ b = backslash ∧ ¬ s = .escape := by
  by_cases hb : b = backslash
  · subst hb
    rcases hquote with rfl | rfl
    all_goals
      cases s with
      | octal more => cases more <;> cases h <;> simp
      | universal progress => exact absurd rfl (UniversalName.of_feed h).1
      | _ => cases h <;> simp
  · cases s with
    | escape =>
      simp only [Quoted.step, beq_iff_eq] at h
      split_ifs at h
      · cases h
        simp [hb]
      · cases h
        simp [hb]
      · cases h
        simp [hb]
      · obtain ⟨-, rfl | ⟨later, value, rfl⟩⟩ := UniversalName.of_feed h <;> simp [hb]
    | universal progress =>
      obtain ⟨-, rfl | ⟨later, value, rfl⟩⟩ := UniversalName.of_feed h <;> simp [hb]
    | octal more =>
      cases more <;> simp only [Quoted.step, Quoted.character, beq_iff_eq, hb, if_false] at h
      all_goals split_ifs at h <;> cases h <;> simp [hb]
    | closed => cases h
    | _ =>
      simp only [Quoted.step, Quoted.character, beq_iff_eq, hb, if_false] at h
      split_ifs at h <;> cases h <;> simp [hb]

theorem followsEscapes_quoted {quote : UInt8} (hquote : IsQuote quote) :
    (quoted quote).FollowsEscapes (Quoted.State.language quote) (· = .escape) where
  recognizes := recognizes_quoted hquote
  start := nofun
  step h := Quoted.eq_escape_iff_of_step hquote h
  isAcceptable hs mark digits after hspells h := by
    subst hs
    have hstep : (quoted quote).step .escape mark =
        UniversalName.feed Quoted.State.universal .body .backslash mark := by
      rcases hspells.1 with ⟨rfl, -⟩ | ⟨rfl, -⟩ <;> rfl
    have hquotient : (Quoted.State.language quote .escape).leftQuotient [mark] =
        (universalRest .backslash * Quoted.rest quote).leftQuotient [mark] := by
      rw [(recognizes_quoted hquote).leftQuotient_eq, hstep,
        Language.leftQuotient_mul_of_nil_notMem (nil_notMem_universalRest _)]
      exact (leftQuotient_universalRest_mul (Quoted.State.language quote) .universal .body
        (fun _ => rfl) .backslash mark).symm
    have hmem : digits ++ after ∈ (Quoted.State.language quote .escape).leftQuotient [mark] := h
    rw [hquotient] at hmem
    exact hspells.isAcceptable hmem

/-! ## Code points -/

/-- The code points that are no characters, but halves of one. -/
def IsSurrogate (codePoint : ℕ) : Prop := 0xD800 ≤ codePoint ∧ codePoint ≤ 0xDFFF

/-- The code points that the standard lets a universal character name stand for. -/
def UniversalName.IsAllowed (codePoint : ℕ) : Prop :=
  (codePoint ∈ [0x24, 0x40, 0x60] ∨ 0xA0 ≤ codePoint) ∧ ¬ IsSurrogate codePoint ∧
    codePoint ≤ 0x10FFFF

theorem UniversalName.isAllowed_iff_of_isAcceptable {codePoint : ℕ}
    (h : isAcceptable codePoint = true) : IsAllowed codePoint ↔ ¬ IsSurrogate codePoint := by
  simp only [isAcceptable, Bool.or_eq_true, Bool.and_eq_true, beq_iff_eq, decide_eq_true_eq] at h
  simp only [IsAllowed, IsSurrogate, List.mem_cons, List.not_mem_nil, or_false]
  omega

end Lexeme

/-- The value of a constant is held to the standard: there, no surrogate may be named. -/
theorem CharacterConstant.isNameable_iff (codePoint : ℕ) :
    isNameable codePoint = true ↔ Lexeme.UniversalName.IsAllowed codePoint := by
  simp only [isNameable, Lexeme.UniversalName.isAcceptable, Lexeme.UniversalName.IsAllowed,
    Lexeme.IsSurrogate, Bool.or_eq_true, Bool.and_eq_true, Bool.not_eq_true', Bool.and_eq_false_iff,
    beq_iff_eq, decide_eq_true_eq, decide_eq_false_iff_not, List.mem_cons, List.not_mem_nil,
    or_false]
  omega

namespace Token

open Ascii Lexeme

variable {source : Bytes} {text : Source.Text} {line : List Token} {t : Token}

/-- **Names in tokens are allowed, but for surrogates.** A universal character name in an
identifier, a number, a character constant or a string literal stands for a code point that the
standard lets it stand for exactly if that is no surrogate. -/
theorem isAllowed_iff_not_isSurrogate (hline : line ∈ linesOf source text) (ht : t ∈ line)
    (hkind : t.kind ∈ [Kind.identifier, .number, .character, .string]) (name : NameIn t.text) :
    UniversalName.IsAllowed name.codePoint ↔ ¬ IsSurrogate name.codePoint := by
  have hmem := mem_language_of_mem_linesOf hline ht
  refine UniversalName.isAllowed_iff_of_isAcceptable ?_
  generalize t.kind = kind at hkind hmem
  cases kind with
  | identifier => exact followsEscapes_identifier.isAcceptable_of_mem hmem name
  | number => exact followsEscapes_number.isAcceptable_of_mem hmem name
  | character =>
    exact (followsEscapes_quoted (.inl rfl)).isAcceptable_of_mem
      (mem_literals_singleQuote.1 hmem) name
  | string =>
    exact (followsEscapes_quoted (.inr rfl)).isAcceptable_of_mem
      (mem_literals_doubleQuote.1 hmem) name
  | header | punctuator | other | comment => exact absurd hkind (by decide)

/-- Of the three backslashes in this literal the second is taken by the first, and the third begins
a name. -/
theorem isAllowed_escapedBackslash :
    ∃ t ∈ lex (Bytes.ofString "\"\\\\\\u00e9\""), t.kind = .string ∧
      ∃ name : NameIn t.text, name.codePoint = 0xE9 ∧ UniversalName.IsAllowed name.codePoint := by
  let source := Bytes.ofString "\"\\\\\\u00e9\""
  let t : Token := { kind := .string, text := source, position := ⟨1, 1⟩ }
  have hlines : linesOf source (.ofSource source) = [[t]] := by decide +kernel
  have hline : [t] ∈ linesOf source (.ofSource source) := hlines ▸ List.mem_singleton_self [t]
  let name : NameIn t.text :=
    { before := Bytes.ofString "\"\\\\", mark := lowerU, digits := Bytes.ofString "00e9",
      after := Bytes.ofString "\"", text_eq := rfl, even_backslashes := by decide +kernel,
      spells := by decide +kernel }
  have hcode : name.codePoint = 0xE9 := by decide +kernel
  refine ⟨t, List.mem_flatten_of_mem hline (List.mem_singleton_self t), rfl, name, hcode, ?_⟩
  exact (isAllowed_iff_not_isSurrogate hline (List.mem_singleton_self t) (by decide) name).2
    (by rw [hcode]; exact fun h => absurd h.1 (by decide))

/-- **A surrogate may be named in a token.** -/
theorem not_forall_isAllowed :
    ¬ ∀ (source : Bytes) (text : Source.Text), ∀ line ∈ linesOf source text, ∀ t ∈ line,
      t.kind ∈ [Kind.identifier, .number, .character, .string] →
        ∀ name : NameIn t.text, UniversalName.IsAllowed name.codePoint := by
  intro h
  let source := Bytes.ofString "a\\uD800"
  let t : Token := { kind := .identifier, text := source, position := ⟨1, 1⟩ }
  have hlines : linesOf source (.ofSource source) = [[t]] := by decide +kernel
  let name : NameIn t.text :=
    { before := Bytes.ofString "a", mark := lowerU, digits := Bytes.ofString "D800", after := [],
      text_eq := rfl, even_backslashes := by decide +kernel, spells := by decide +kernel }
  have hallowed := h source (.ofSource source) [t] (hlines ▸ List.mem_singleton_self [t]) t
    (List.mem_singleton_self t) (by decide) name
  have hcode : name.codePoint = 0xD800 := by decide +kernel
  rw [hcode] at hallowed
  exact hallowed.2.1 ⟨by decide, by decide⟩

end Token

end CPreprocessor
