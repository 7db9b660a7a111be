import CPreprocessor.Proofs.Lexeme.Delimited

/-!
# The next token is the longest one

The search of an automaton stops at the first byte that leads to no state. No longer prefix is
missed by that, since such a byte continues no text of the language (`longest_isLongest`). So the
next token of a text is its longest prefix in any of the classes of tokens, of the first class that
has it (`munch_isNext`).
-/

namespace CPreprocessor.Lexeme

open Ascii Automaton

/-! ## The longest prefix in a language -/

/-- The length of the longest non-empty prefix of a text that is in a language, if there is one. -/
def IsLongest (language : Language UInt8) (text : Bytes) : Option Nat → Prop
  | none => ∀ t ∈ language, t <+: text → t = []
  | some length =>
    0 < length ∧ length ≤ text.length ∧ text.take length ∈ language ∧
      ∀ t ∈ language, t <+: text → t.length ≤ length

section

variable {language next : Language UInt8} {b : UInt8} {rest : Bytes}

theorem isLongest_nil (language : Language UInt8) : IsLongest language [] none :=
  fun _ _ h => List.prefix_nil.1 h

/-- A character that starts no text of the language. -/
theorem isLongest_none_cons (h : language.leftQuotient [b] = 0) :
    IsLongest language (b :: rest) none := by
  intro t ht hfront
  cases t with
  | nil => rfl
  | cons c t =>
    obtain ⟨rfl, -⟩ := List.cons_prefix_cons.1 hfront
    have : t ∈ language.leftQuotient [c] := ht
    rw [h] at this
    exact absurd this (Language.notMem_zero t)

/-- The longest prefix behind the first character is the longest one with it. -/
theorem IsLongest.cons {length : Nat} (h : language.leftQuotient [b] = next)
    (hrest : IsLongest next rest (some length)) :
    IsLongest language (b :: rest) (some (length + 1)) := by
  obtain ⟨-, hlength, hmem, hmax⟩ := hrest
  subst h
  refine ⟨by omega, by simpa using hlength, hmem, fun t ht hfront => ?_⟩
  cases t with
  | nil => exact Nat.zero_le _
  | cons c t =>
    obtain ⟨rfl, hbehind⟩ := List.cons_prefix_cons.1 hfront
    exact Nat.succ_le_succ (hmax t ht hbehind)

/-- Nothing can follow the first character, which is in the language or not. -/
theorem IsLongest.cons_none (h : language.leftQuotient [b] = next)
    (hrest : IsLongest next rest none) :
    ([] ∈ next → IsLongest language (b :: rest) (some 1)) ∧
      ([] ∉ next → IsLongest language (b :: rest) none) := by
  subst h
  have htail : ∀ t, b :: t ∈ language → t <+: rest → t = [] := fun t ht => hrest t ht
  refine ⟨fun hnil => ⟨Nat.one_pos, by simp, hnil, fun t ht hfront => ?_⟩,
    fun hnil t ht hfront => ?_⟩
  · cases t with
    | nil => exact Nat.zero_le _
    | cons c t =>
      obtain ⟨rfl, hbehind⟩ := List.cons_prefix_cons.1 hfront
      rw [htail t ht hbehind]
      rfl
  · cases t with
    | nil => rfl
    | cons c t =>
      obtain ⟨rfl, hbehind⟩ := List.cons_prefix_cons.1 hfront
      rw [htail t ht hbehind] at ht
      exact absurd ht hnil

end

section

variable {σ : Type} {a : Automaton σ} {language : σ → Language UInt8}

/-- A search keeps its best prefix or finds a longer one. -/
theorem Automaton.Recognizes.longestFrom_eq (h : a.Recognizes language) (s : σ) (length : Nat)
    (best : Option Nat) (text : Bytes) :
    ∃ found, IsLongest (language s) text found ∧
      a.longestFrom s length best text = (found.map (length + ·)).or best := by
  induction text generalizing s length best with
  | nil => exact ⟨none, isLongest_nil _, rfl⟩
  | cons b rest ih =>
    have hquotient := h.leftQuotient_eq s b
    rw [longestFrom]
    cases hs : a.step s b with
    | none =>
      rw [hs] at hquotient
      exact ⟨none, isLongest_none_cons hquotient, rfl⟩
    | some s' =>
      rw [hs] at hquotient
      obtain ⟨found, hfound, heq⟩ :=
        ih s' (length + 1) (if a.accepting s' then some (length + 1) else best)
      simp only [heq]
      cases found with
      | some further =>
        refine ⟨some (further + 1), hfound.cons hquotient, ?_⟩
        simp [Nat.add_right_comm, Nat.add_assoc]
      | none =>
        have hlast := hfound.cons_none hquotient
        by_cases hacc : a.accepting s' = true
        · refine ⟨some 1, hlast.1 ((h.accepting_iff s').1 hacc), ?_⟩
          simp [hacc]
        · refine ⟨none, hlast.2 (fun hnil => hacc ((h.accepting_iff s').2 hnil)), ?_⟩
          simp [hacc]

/-- **The search of an automaton finds the longest prefix in its language.** -/
theorem Automaton.Recognizes.longest_isLongest (h : a.Recognizes language) (text : Bytes) :
    IsLongest (language a.start) text (a.longest text) := by
  obtain ⟨found, hfound, heq⟩ := h.longestFrom_eq a.start 0 none text
  rw [Automaton.longest, heq]
  simpa using hfound

end

/-! ## The classes of tokens -/

theorem start_quoted (quote : UInt8) : (quoted quote).start = .start := rfl

theorem isLongest_other (text : Bytes) :
    IsLongest Kind.other.language text (Kind.other.longest text) := by
  cases text with
  | nil => exact isLongest_nil _
  | cons b rest =>
    have hquotient : Kind.other.language.leftQuotient [b] = if !isBlank b then 1 else 0 :=
      leftQuotient_oneOf _ b
    simp only [Kind.longest]
    by_cases hb : isBlank b = true
    · rw [if_pos hb]
      exact isLongest_none_cons (by simp [hquotient, hb])
    · rw [if_neg hb]
      rw [if_pos (by simpa using hb)] at hquotient
      have hnone : IsLongest 1 rest none := fun t ht _ => ht
      exact (hnone.cons_none hquotient).1 rfl

/-- Each class of tokens is searched for its own longest prefix. -/
theorem Kind.longest_isLongest (kind : Kind) (text : Bytes) :
    IsLongest kind.language text (kind.longest text) := by
  cases kind with
  | header => exact recognizes_headerName.longest_isLongest text
  | identifier => exact recognizes_identifier.longest_isLongest text
  | number => exact recognizes_number.longest_isLongest text
  | character =>
    have h := (recognizes_quoted (.inl rfl)).longest_isLongest text
    rwa [start_quoted, Quoted.language_start_singleQuote] at h
  | string =>
    have h := (recognizes_quoted (.inr rfl)).longest_isLongest text
    rwa [start_quoted, Quoted.language_start_doubleQuote] at h
  | punctuator => exact recognizes_punctuator.longest_isLongest text
  | other => exact isLongest_other text
  | comment => exact recognizes_comment.longest_isLongest text

/-! ## The longest of several classes -/

/-- A token is the longest prefix of a text in any of the given classes, and of the first class that
has it. -/
structure IsNext (kinds : List Kind) (text : Bytes) (kind : Kind) (token : Bytes) : Prop where
  front : token <+: text
  ne_nil : token ≠ []
  mem : token ∈ kind.language
  length_le : ∀ k ∈ kinds, ∀ t ∈ k.language, t <+: text → t.length ≤ token.length
  first : ∃ earlier later, kinds = earlier ++ kind :: later ∧ ∀ k ∈ earlier, token ∉ k.language

/-- The classes of tokens, the one that wins a tie first. -/
def Kind.classes (header : Bool) : List Kind := Kind.order header ++ [.other]

section

variable {kinds : List Kind} {text : Bytes} {candidate : Kind × Nat}

/-- The choice between a further class and the best candidate of the others. -/
theorem isNext_prefer (kind : Kind) (hlength : candidate.2 ≤ text.length)
    (h : IsNext kinds text candidate.1 (text.take candidate.2)) :
    (prefer text kind candidate).2 ≤ text.length ∧
      IsNext (kind :: kinds) text (prefer text kind candidate).1
        (text.take (prefer text kind candidate).2) := by
  have htake : (text.take candidate.2).length = candidate.2 := List.length_take_of_le hlength
  obtain ⟨earlier, later, hkinds, hearlier⟩ := h.first
  have hlongest := kind.longest_isLongest text
  -- The candidate stays if it is longer than all of the further class.
  have hkeep (hmax : ∀ t ∈ kind.language, t <+: text → t.length ≤ candidate.2)
      (hnot : text.take candidate.2 ∉ kind.language) :
      IsNext (kind :: kinds) text candidate.1 (text.take candidate.2) :=
    { front := h.front
      ne_nil := h.ne_nil
      mem := h.mem
      length_le := List.forall_mem_cons.2 ⟨by rwa [htake], h.length_le⟩
      first := ⟨kind :: earlier, later, by rw [hkinds]; rfl,
        List.forall_mem_cons.2 ⟨hnot, hearlier⟩⟩ }
  unfold prefer
  cases hfound : kind.longest text with
  | none =>
    rw [hfound] at hlongest
    refine ⟨hlength, hkeep (fun t ht hfront => ?_) fun hmem => ?_⟩
    · rw [hlongest t ht hfront]
      exact Nat.zero_le _
    · exact h.ne_nil (hlongest _ hmem h.front)
  | some length =>
    rw [hfound] at hlongest
    obtain ⟨hpos, hle, hmem, hmax⟩ := hlongest
    dsimp only
    by_cases hprefer : candidate.2 ≤ length
    · rw [if_pos hprefer]
      have hlen : (text.take length).length = length := List.length_take_of_le hle
      refine ⟨hle, List.take_prefix length text, fun hnil => ?_, hmem,
        List.forall_mem_cons.2 ⟨?_, fun k hk t ht hfront => ?_⟩, [], kinds, rfl,
        List.forall_mem_nil _⟩
      · rw [hnil, List.length_nil] at hlen
        omega
      · rw [hlen]
        exact hmax
      · have := h.length_le k hk t ht hfront
        rw [htake] at this
        rw [hlen]
        exact this.trans hprefer
    · rw [if_neg hprefer]
      refine ⟨hlength, hkeep (fun t ht hfront => ?_) fun hmem => ?_⟩
      · have := hmax t ht hfront
        omega
      · have := hmax _ hmem h.front
        omega

end

/-- **The next token is the longest prefix in any class, of the first class that has it.** -/
theorem munch_isNext (header : Bool) {b : UInt8} (hb : isBlank b = false) (rest : Bytes) :
    (munch header (b :: rest)).2 ≤ (b :: rest).length ∧
      IsNext (Kind.classes header) (b :: rest) (munch header (b :: rest)).1
        ((b :: rest).take (munch header (b :: rest)).2) := by
  rw [munch, Kind.classes]
  induction Kind.order header with
  | nil =>
    refine ⟨by simp, ?_⟩
    have hlongest := isLongest_other (b :: rest)
    simp only [Kind.longest, hb, Bool.false_eq_true, if_false] at hlongest
    obtain ⟨-, -, hmem, hmax⟩ := hlongest
    exact
      { front := List.take_prefix 1 _
        ne_nil := by simp
        mem := hmem
        length_le := List.forall_mem_singleton.2 hmax
        first := ⟨[], [], rfl, List.forall_mem_nil _⟩ }
  | cons kind kinds ih => exact isNext_prefer kind ih.1 ih.2

/-! ## The class of a token -/

/-- Whether a text is of the given kind. -/
def Kind.accepts : Kind → Bytes → Bool
  | .header, text => headerName.accepts text
  | .identifier, text => Lexeme.identifier.accepts text
  | .number, text => Lexeme.number.accepts text
  | .character, text => characterConstant.accepts text
  | .string, text => stringLiteral.accepts text
  | .punctuator, text => Lexeme.punctuator.accepts text
  | .comment, text => Lexeme.comment.accepts text
  | .other, text => text.length == 1 && text.all (!isBlank ·)

theorem Kind.accepts_iff (kind : Kind) (text : Bytes) :
    kind.accepts text = true ↔ text ∈ kind.language := by
  cases kind with
  | header => exact recognizes_headerName.accepts_iff text
  | identifier => exact recognizes_identifier.accepts_iff text
  | number => exact recognizes_number.accepts_iff text
  | character =>
    have h := (recognizes_quoted (.inl rfl)).accepts_iff text
    rwa [start_quoted, Quoted.language_start_singleQuote] at h
  | string =>
    have h := (recognizes_quoted (.inr rfl)).accepts_iff text
    rwa [start_quoted, Quoted.language_start_doubleQuote] at h
  | punctuator => exact recognizes_punctuator.accepts_iff text
  | comment => exact recognizes_comment.accepts_iff text
  | other =>
    rw [Kind.accepts, Bool.and_eq_true, beq_iff_eq, List.length_eq_one_iff]
    constructor
    · rintro ⟨⟨b, rfl⟩, hall⟩
      exact ⟨b, by simpa using hall, rfl⟩
    · rintro ⟨b, hb, rfl⟩
      exact ⟨⟨b, rfl⟩, by simpa using hb⟩

/-- The texts of a kind are decidable. -/
instance (kind : Kind) (text : Bytes) : Decidable (text ∈ kind.language) :=
  decidable_of_iff _ (kind.accepts_iff text)

/-- The classes come in one order, so the text of a token determines its kind. -/
theorem IsNext.kind_eq {kinds : List Kind} {text token : Bytes} {kind : Kind}
    (h : IsNext kinds text kind token) : kinds.find? (·.accepts token) = some kind := by
  obtain ⟨earlier, later, rfl, hearlier⟩ := h.first
  refine List.find?_eq_some_iff_append.2 ⟨(kind.accepts_iff token).2 h.mem, earlier, later, rfl, ?_⟩
  intro k hk
  rw [Bool.not_eq_true', ← Bool.not_eq_true, Kind.accepts_iff]
  exact hearlier k hk

end CPreprocessor.Lexeme
