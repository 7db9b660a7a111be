import CPreprocessor.Proofs.CharacterConstant.Scan
import CPreprocessor.Proofs.CharacterConstant.Tree
import CPreprocessor.Proofs.Grammar.Cover
import CPreprocessor.Proofs.Lexeme.Growth
import CPreprocessor.Proofs.Lexeme.Munch

/-!
# The language of character constants

The grammar of character constants and the automaton that finds them in a text agree but for
universal character names, of which the automaton takes only the acceptable ones. If a text has a
parse tree, then it is accepted if and only if all names of the tree are acceptable
(`mem_characterConstants_iff`), because what may follow a character does not depend on it
(`append_mem_rest_iff`). And whatever is accepted has a parse tree (`derivesFrom_constant`): a
sequence of characters that can go on with a digit takes it into the escape sequence at its end.
-/

namespace CPreprocessor.CharacterConstant

open Ascii Grammar GrammarSymbol
open Lexeme (isPlain recognizes_quoted characterConstants quotedCharacters escapeSequences)
open Lexeme.Quoted (State step character rest)
open Lexeme.UniversalName (isAcceptable)
open scoped Computability

/-! ## The code points that a tree names -/

mutual

/-- The code points of the universal character names of a tree. -/
def names : ConstantTree → List Nat
  | .leaf _ => []
  | .node _ .universal _ _ children => [Ascii.number 16 ((Tree.leavesOfList children).drop 2)]
  | .node _ _ _ _ children => namesOfList children

/-- The code points of the universal character names of a list of trees. -/
def namesOfList : List ConstantTree → List Nat
  | [] => []
  | tree :: trees => names tree ++ namesOfList trees

end

@[simp] theorem namesOfList_append (trees trees' : List ConstantTree) :
    namesOfList (trees ++ trees') = namesOfList trees ++ namesOfList trees' := by
  induction trees with
  | nil => rfl
  | cons tree trees ih => rw [List.cons_append, namesOfList, namesOfList, ih, List.append_assoc]

@[simp] theorem namesOfList_map_leaf (text : Bytes) : namesOfList (text.map .leaf) = [] := by
  induction text with
  | nil => rfl
  | cons b text ih => rw [List.map_cons, namesOfList, ih, names, List.append_nil]

/-! ## What may follow a character -/

variable {b : UInt8} {text digits v : Bytes}

theorem cons_mem_language_iff {s : State} :
    b :: v ∈ s.language singleQuote ↔
      ∃ s', step singleQuote s b = some s' ∧ v ∈ s'.language singleQuote :=
  (recognizes_quoted (.inl rfl)).cons_mem_iff

/-- The state after a byte decides what may follow it. -/
theorem cons_mem_language_iff_of_step {s s' : State} (h : step singleQuote s b = some s') :
    b :: v ∈ s.language singleQuote ↔ v ∈ s'.language singleQuote := by
  rw [cons_mem_language_iff, h]
  simp

theorem step_body_of_isPlain (h : isPlain singleQuote b = true) :
    step singleQuote .body b = some .body := by
  simp only [isPlain, Bool.and_eq_true, bne_iff_ne] at h
  simp [step, character, h]

theorem append_mem_rest_iff_of_isPlain (h : ∀ b ∈ text, isPlain singleQuote b = true) :
    text ++ v ∈ rest singleQuote ↔ v ∈ rest singleQuote := by
  induction text with
  | nil => exact Iff.rfl
  | cons b text ih =>
    obtain ⟨hb, htext⟩ := List.forall_mem_cons.1 h
    have hstep := cons_mem_language_iff_of_step (v := text ++ v) (step_body_of_isPlain hb)
    exact hstep.trans (ih htext)

theorem append_mem_rest_iff_of_isHexDigit (h : ∀ d ∈ text, isHexDigit d = true) :
    text ++ v ∈ rest singleQuote ↔ v ∈ rest singleQuote :=
  append_mem_rest_iff_of_isPlain fun d hd => Lexeme.Quoted.isPlain_of_isHexDigit (.inl rfl) (h d hd)

/-- After a backslash comes what makes an escape sequence. -/
theorem backslash_cons_mem_rest_iff {s : State} (h : step singleQuote .escape b = some s) :
    backslash :: b :: v ∈ rest singleQuote ↔ v ∈ s.language singleQuote := by
  have hbackslash : backslash :: b :: v ∈ rest singleQuote ↔
      b :: v ∈ State.language singleQuote .escape :=
    cons_mem_language_iff_of_step (s := .body) rfl
  exact hbackslash.trans (cons_mem_language_iff_of_step h)

/-- The digits of a name are followed by anything if the name is acceptable. -/
theorem append_mem_universal_iff {later value : Nat} (hlength : digits.length = later + 1)
    (hdigits : ∀ d ∈ digits, isHexDigit d = true) :
    digits ++ v ∈ State.language singleQuote (.universal (.digits later value)) ↔
      isAcceptable (digits.foldl (fun n d => n * 16 + digitValue d) value) = true ∧
        v ∈ rest singleQuote := by
  induction later generalizing digits value with
  | zero =>
    obtain ⟨d, rfl⟩ := List.length_eq_one_iff.1 hlength
    have hd := hdigits d (.head _)
    rw [List.singleton_append, cons_mem_language_iff]
    simp only [step, Lexeme.UniversalName.feed, Lexeme.UniversalName.step, hd, if_true,
      List.foldl_cons, List.foldl_nil]
    split
    · next h => simp [h, State.language]
    · next h => simp [h]
  | succ later ih =>
    obtain ⟨d, digits, rfl⟩ := List.exists_cons_of_length_eq_add_one hlength
    obtain ⟨hd, hdigits⟩ := List.forall_mem_cons.1 hdigits
    have hstep : step singleQuote (.universal (.digits (later + 1) value)) d =
        some (.universal (.digits later (value * 16 + digitValue d))) := by
      simp [step, Lexeme.UniversalName.feed, Lexeme.UniversalName.step, hd]
    rw [List.cons_append, cons_mem_language_iff_of_step hstep]
    exact ih (Nat.succ.inj hlength) hdigits

/-- **What may follow a character is the same for all of them.** -/
theorem append_mem_rest_iff_of_isCharacter {tree : ConstantTree} (h : IsCharacter tree text) :
    text ++ v ∈ rest singleQuote ↔
      (∀ c ∈ names tree, isAcceptable c = true) ∧ v ∈ rest singleQuote := by
  induction h with
  | next _ ih =>
    rw [ih]
    simp [names, namesOfList]
  | plain h =>
    rw [append_mem_rest_iff_of_isPlain (by simpa using h)]
    simp [names, namesOfList]
  | simple h =>
    have hstep : step singleQuote .escape _ = some .body := if_pos h
    rw [List.cons_append, List.singleton_append, backslash_cons_mem_rest_iff hstep]
    simp [names, namesOfList, State.language]
  | @octal _ _ _ digits hne _ hdigits =>
    obtain ⟨d, digits, rfl⟩ := List.exists_cons_of_ne_nil hne
    obtain ⟨hd, hdigits⟩ := List.forall_mem_cons.1 hdigits
    have hsimple : ¬ Lexeme.Quoted.isSimpleEscape d = true := fun hsimple => by
      rw [(Lexeme.Quoted.step_universalName_of_isSimpleEscape hsimple).1] at hd
      contradiction
    have hstep : step singleQuote .escape d = some (.octal 2) := by simp [step, hsimple, hd]
    have hrest := append_mem_rest_iff_of_isHexDigit (v := v) fun d hd =>
      Lexeme.Quoted.isHexDigit_of_isOctalDigit (hdigits d hd)
    rw [List.cons_append, List.cons_append, backslash_cons_mem_rest_iff hstep]
    simpa [names, namesOfList, State.language] using hrest
  | @hex _ _ _ _ _ digits hne hdigits =>
    obtain ⟨d, digits, rfl⟩ := List.exists_cons_of_ne_nil hne
    obtain ⟨hd, hdigits⟩ := List.forall_mem_cons.1 hdigits
    have hmark : step singleQuote .escape lowerX = some .hexMark := rfl
    have hstep : step singleQuote .hexMark d = some .hex := if_pos hd
    have hrest := append_mem_rest_iff_of_isHexDigit (v := v) hdigits
    rw [List.cons_append, List.cons_append, backslash_cons_mem_rest_iff hmark, List.cons_append,
      cons_mem_language_iff_of_step hstep]
    simpa [names, namesOfList, State.language] using hrest
  | @universal _ _ _ mark digits hmark hdigits =>
    obtain ⟨n, hlength, hstep⟩ : ∃ n, digits.length = n + 1 ∧
        step singleQuote .escape mark = some (.universal (.digits n 0)) := by
      obtain ⟨rfl, hlength⟩ | ⟨rfl, hlength⟩ := hmark
      · exact ⟨3, hlength, rfl⟩
      · exact ⟨7, hlength, rfl⟩
    rw [List.cons_append, List.cons_append, backslash_cons_mem_rest_iff hstep,
      append_mem_universal_iff hlength hdigits]
    simp [names, Tree.leavesOfList, Tree.leaves, Ascii.number]

/-- What may follow a sequence of characters. -/
theorem append_mem_rest_iff_of_isSequence {tree : ConstantTree} (h : IsSequence tree text) :
    text ++ v ∈ rest singleQuote ↔
      (∀ c ∈ names tree, isAcceptable c = true) ∧ v ∈ rest singleQuote := by
  induction h generalizing v with
  | next _ ih =>
    rw [ih]
    simp [names, namesOfList]
  | first h =>
    rw [append_mem_rest_iff_of_isCharacter h]
    simp [names, namesOfList]
  | more _ hcharacter ih =>
    rw [List.append_assoc, ih, append_mem_rest_iff_of_isCharacter hcharacter, ← and_assoc,
      ← List.forall_mem_append]
    simp [names, namesOfList]

/-! ## Accepted trees -/

/-- No character begins with the quote. -/
theorem IsCharacter.exists_cons {tree : ConstantTree} (h : IsCharacter tree text) :
    ∃ b text', text = b :: text' ∧ b ≠ singleQuote := by
  induction h with
  | next _ ih => exact ih
  | @plain _ _ _ b h =>
    refine ⟨b, [], rfl, ?_⟩
    rintro rfl
    exact absurd h (by decide)
  | simple | octal | hex | universal => exact ⟨backslash, _, rfl, by decide⟩

theorem IsSequence.exists_cons {tree : ConstantTree} (h : IsSequence tree text) :
    ∃ b text', text = b :: text' ∧ b ≠ singleQuote := by
  induction h with
  | next _ ih => exact ih
  | first h => exact h.exists_cons
  | more _ _ ih =>
    obtain ⟨b, text', rfl, hb⟩ := ih
    exact ⟨b, _, rfl, hb⟩

/-- **A parsed text is a character constant if its tree names acceptable code points.** -/
theorem mem_characterConstants_iff {tree : ConstantTree} (h : IsConstant tree text) :
    text ∈ characterConstants ↔ ∀ c ∈ names tree, isAcceptable c = true := by
  obtain @⟨encoding, start, stop, before, sequence, text, hbefore, hsequence⟩ := h
  have hopen : ∀ before ∈ prefixes,
      (Lexeme.quoted singleQuote).run .start (before ++ [singleQuote]) = some .opened := by decide
  obtain ⟨b, text', rfl, hb⟩ := hsequence.exists_cons
  -- directly behind the opening quote there is a character as anywhere else
  have hopened : b :: text' ++ [singleQuote] ∈ State.language singleQuote .opened ↔
      b :: text' ++ [singleQuote] ∈ rest singleQuote := by
    have hstep : step singleQuote .opened b = step singleQuote .body b := by simp [step, hb]
    exact cons_mem_language_iff.trans (hstep ▸ cons_mem_language_iff (s := .body)).symm
  have hclose : [singleQuote] ∈ rest singleQuote := by
    have hstep : step singleQuote .body singleQuote = some .closed := rfl
    exact (cons_mem_language_iff_of_step hstep).2 rfl
  have hbegin : before ++ singleQuote :: (b :: text' ++ [singleQuote]) ∈
      State.language singleQuote .start ↔
        b :: text' ++ [singleQuote] ∈ State.language singleQuote .opened := by
    rw [← List.singleton_append, ← List.append_assoc,
      (recognizes_quoted (.inl rfl)).append_mem_iff, hopen before hbefore]
    simp
  rw [← Lexeme.Quoted.language_start_singleQuote, hbegin, hopened,
    append_mem_rest_iff_of_isSequence hsequence]
  simp [names, namesOfList, hclose]

/-! ## What the grammar derives -/

theorem derives_replicate {n : Nat} {predicate : UInt8 → Bool} (hlength : text.length = n)
    (h : ∀ b ∈ text, predicate b = true) :
    grammar.Derives (List.replicate n (such predicate)) text := by
  induction n generalizing text with
  | zero =>
    obtain rfl := List.length_eq_zero_iff.1 hlength
    exact .nil
  | succ n ih =>
    obtain ⟨b, text, rfl⟩ := List.exists_cons_of_length_eq_add_one hlength
    obtain ⟨hb, htext⟩ := List.forall_mem_cons.1 h
    exact .terminal hb (ih (Nat.succ.inj hlength) htext)

theorem derives_nonterminal {r : Part} {symbols : List (GrammarSymbol Part UInt8)}
    (h : grammar.DerivesFrom r text) (hsymbols : grammar.Derives symbols v) :
    grammar.Derives (.nonterminal r :: symbols) (text ++ v) := by
  obtain ⟨p, hp, htext⟩ := derivesFrom_iff.1 h
  exact .nonterminal hp htext hsymbols

/-- A part can stand for the whole. -/
theorem derivesFrom_oneOf {r part : Part} {parts : List Part}
    (hrule : (rule r).productions = oneOf parts) (hpart : part ∈ parts)
    (h : grammar.DerivesFrom part text) : grammar.DerivesFrom r text := by
  refine derivesFrom_iff.2 ⟨⟨.next, [nonterminal part]⟩, ?_, h⟩
  change _ ∈ (rule r).productions
  rw [hrule]
  exact List.mem_map_of_mem hpart

theorem derivesFrom_hexDigits (hne : text ≠ []) (h : ∀ d ∈ text, isHexDigit d = true) :
    grammar.DerivesFrom .hexDigits text := by
  induction text using List.reverseRecOn with
  | nil => exact absurd rfl hne
  | append_singleton text d ih =>
    obtain ⟨htext, hd⟩ := List.forall_mem_append.1 h
    have hlast := derives_replicate (n := 1) rfl hd
    by_cases hempty : text = []
    · subst hempty
      exact derivesFrom_iff.2 ⟨⟨.next, [such isHexDigit]⟩, .tail _ (.head _), hlast⟩
    · exact derivesFrom_iff.2 ⟨⟨.next, [nonterminal .hexDigits, such isHexDigit]⟩, .head _,
        derives_nonterminal (ih hempty htext) hlast⟩

theorem derivesFrom_hex (hne : digits ≠ []) (h : ∀ d ∈ digits, isHexDigit d = true) :
    grammar.DerivesFrom .hex (backslash :: lowerX :: digits) :=
  derivesFrom_iff.2 ⟨⟨.hex, [spelled "\\", spelled "x", nonterminal .hexDigits]⟩, .head _,
    .terminal rfl (.terminal rfl (derivesFrom_hexDigits hne h))⟩

theorem derivesFrom_shortOctal (hne : digits ≠ []) (hlength : digits.length ≤ 2)
    (h : ∀ d ∈ digits, isOctalDigit d = true) :
    grammar.DerivesFrom .shortOctal (backslash :: digits) := by
  have hpos := List.length_pos_iff.2 hne
  obtain hone | htwo : digits.length = 1 ∨ digits.length = 2 := by omega
  · exact derivesFrom_iff.2 ⟨⟨.octal, [spelled "\\", such isOctalDigit]⟩, .head _,
      .terminal rfl (derives_replicate hone h)⟩
  · exact derivesFrom_iff.2 ⟨⟨.octal, [spelled "\\", such isOctalDigit, such isOctalDigit]⟩,
      .tail _ (.head _), .terminal rfl (derives_replicate htwo h)⟩

theorem derivesFrom_octal (hlength : digits.length = 3)
    (h : ∀ d ∈ digits, isOctalDigit d = true) :
    grammar.DerivesFrom .escape (backslash :: digits) :=
  derivesFrom_iff.2 ⟨⟨.octal, spelled "\\" :: List.replicate 3 (such isOctalDigit)⟩,
    .tail _ (.head _), .terminal rfl (derives_replicate hlength h)⟩

theorem derivesFrom_simple (h : Lexeme.Quoted.isSimpleEscape b = true) :
    grammar.DerivesFrom .escape [backslash, b] :=
  derivesFrom_iff.2 ⟨⟨.simple, [spelled "\\", such Lexeme.Quoted.isSimpleEscape]⟩, .head _,
    .terminal rfl (.terminal h .nil)⟩

theorem derivesFrom_universal {mark : UInt8}
    (hmark : mark = lowerU ∧ digits.length = 4 ∨ mark = upperU ∧ digits.length = 8)
    (hdigits : ∀ d ∈ digits, isHexDigit d = true) :
    grammar.DerivesFrom .escape (backslash :: mark :: digits) := by
  obtain ⟨rfl, hlength⟩ | ⟨rfl, hlength⟩ := hmark
  · exact derivesFrom_iff.2 ⟨universalName "u" 4, .tail _ (.tail _ (.head _)),
      .terminal rfl (.terminal rfl (derives_replicate hlength hdigits))⟩
  · exact derivesFrom_iff.2 ⟨universalName "U" 8, .tail _ (.tail _ (.tail _ (.head _))),
      .terminal rfl (.terminal rfl (derives_replicate hlength hdigits))⟩

/-! ### Characters that stand for themselves -/

theorem derivesFrom_itself {r : Part} {predicate : UInt8 → Bool}
    (hrule : (rule r).productions = itself predicate) (h : predicate b = true) :
    grammar.DerivesFrom r [b] := by
  refine derivesFrom_iff.2 ⟨⟨.plain, [such predicate]⟩, ?_, .terminal h .nil⟩
  change _ ∈ (rule r).productions
  rw [hrule]
  exact .head _

theorem derivesFrom_plain (hb : isPlain singleQuote b = true) (hhex : isHexDigit b = false) :
    grammar.DerivesFrom .plain [b] := by
  simp only [isPlain, Bool.and_eq_true, bne_iff_ne] at hb
  exact derivesFrom_itself rfl (by simp [hb, hhex])

theorem derivesFrom_notHex (hb : isPlain singleQuote b = true) (hhex : isHexDigit b = false) :
    grammar.DerivesFrom .notHex [b] :=
  derivesFrom_oneOf rfl (.head _) (derivesFrom_plain hb hhex)

theorem derivesFrom_notOctal (hb : isPlain singleQuote b = true) (hoctal : isOctalDigit b = false) :
    grammar.DerivesFrom .notOctal [b] := by
  cases hhex : isHexDigit b with
  | false => exact derivesFrom_oneOf rfl (.head _) (derivesFrom_plain hb hhex)
  | true =>
    exact derivesFrom_oneOf rfl (.tail _ (.head _))
      (derivesFrom_itself rfl (by simp [hhex, hoctal]))

theorem derivesFrom_anyCharacter (hb : isPlain singleQuote b = true) :
    grammar.DerivesFrom .anyCharacter [b] := by
  cases hoctal : isOctalDigit b with
  | true =>
    exact derivesFrom_oneOf rfl (.tail _ (.tail _ (.head _))) (derivesFrom_itself rfl hoctal)
  | false =>
    cases hhex : isHexDigit b with
    | false => exact derivesFrom_oneOf rfl (.head _) (derivesFrom_plain hb hhex)
    | true =>
      exact derivesFrom_oneOf rfl (.tail _ (.head _))
        (derivesFrom_itself rfl (by simp [hhex, hoctal]))

/-! ## Sequences of characters -/

theorem derivesFrom_first {r last : Part} {sequences : List (Part × Part)}
    (hrule : (rule r).productions = sequencesEndingIn last sequences)
    (h : grammar.DerivesFrom last text) : grammar.DerivesFrom r text := by
  refine derivesFrom_iff.2 ⟨⟨.first, [nonterminal last]⟩, ?_, h⟩
  change _ ∈ (rule r).productions
  rw [hrule]
  exact .head _

theorem derivesFrom_more {r before first last : Part} {sequences : List (Part × Part)}
    (hrule : (rule r).productions = sequencesEndingIn first sequences)
    (hmem : (before, last) ∈ sequences) (h : grammar.DerivesFrom before text)
    (hlast : grammar.DerivesFrom last v) : grammar.DerivesFrom r (text ++ v) := by
  refine derivesFrom_iff.2
    ⟨⟨.more, [nonterminal before, nonterminal last]⟩, ?_, derives_nonterminal h hlast⟩
  change _ ∈ (rule r).productions
  rw [hrule]
  exact .tail _ (List.mem_map.2 ⟨(before, last), hmem, rfl⟩)

/-- What a character can stand after: nothing, or a sequence of characters. -/
def IsFront (text : Bytes) : Prop :=
  text = [] ∨ ∃ before ∈ [Part.free, .afterOctal, .afterHex], grammar.DerivesFrom before text

/-- A character that can stand after every sequence ends a sequence. -/
theorem IsFront.derivesFrom_append {r first : Part} {sequences : List (Part × Part)}
    (h : IsFront text) (hrule : (rule r).productions = sequencesEndingIn first sequences)
    (hfirst : grammar.DerivesFrom first v)
    (hmore : ∀ before ∈ [Part.free, .afterOctal, .afterHex], ∃ last,
      (before, last) ∈ sequences ∧ grammar.DerivesFrom last v) :
    grammar.DerivesFrom r (text ++ v) := by
  obtain rfl | ⟨before, hbefore, h⟩ := h
  · exact derivesFrom_first hrule hfirst
  · obtain ⟨last, hmem, hlast⟩ := hmore before hbefore
    exact derivesFrom_more hrule hmem h hlast

theorem IsFront.append_escape (h : IsFront text) (hv : grammar.DerivesFrom .escape v) :
    grammar.DerivesFrom .free (text ++ v) := by
  have hany : grammar.DerivesFrom .anyCharacter v := derivesFrom_oneOf rfl (by decide) hv
  have hnotOctal : grammar.DerivesFrom .notOctal v := derivesFrom_oneOf rfl (by decide) hv
  have hnotHex : grammar.DerivesFrom .notHex v := derivesFrom_oneOf rfl (by decide) hv
  refine h.derivesFrom_append rfl hany ?_
  simp [hany, hnotOctal, hnotHex]

theorem IsFront.append_shortOctal (h : IsFront text) (hv : grammar.DerivesFrom .shortOctal v) :
    grammar.DerivesFrom .afterOctal (text ++ v) :=
  h.derivesFrom_append rfl hv (by simp [hv])

theorem IsFront.append_hex (h : IsFront text) (hv : grammar.DerivesFrom .hex v) :
    grammar.DerivesFrom .afterHex (text ++ v) :=
  h.derivesFrom_append rfl hv (by simp [hv])

/-- How a sequence of characters can end. An escape sequence that is open at its end can take in a
digit. -/
inductive Ends : Bytes → Prop
  | free {text : Bytes} (h : grammar.DerivesFrom .free text) : Ends text
  | octal {text digits : Bytes} (h : IsFront text) (hne : digits ≠ []) (hlength : digits.length ≤ 2)
      (hdigits : ∀ d ∈ digits, isOctalDigit d = true) : Ends (text ++ backslash :: digits)
  | hex {text digits : Bytes} (h : IsFront text) (hne : digits ≠ [])
      (hdigits : ∀ d ∈ digits, isHexDigit d = true) : Ends (text ++ backslash :: lowerX :: digits)

namespace Ends

theorem isFront (h : Ends text) : IsFront text := by
  cases h with
  | free h => exact .inr ⟨.free, by decide, h⟩
  | octal h hne hlength hdigits =>
    have hshort := derivesFrom_shortOctal hne hlength hdigits
    exact .inr ⟨.afterOctal, by decide, h.append_shortOctal hshort⟩
  | hex h hne hdigits =>
    exact .inr ⟨.afterHex, by decide, h.append_hex (derivesFrom_hex hne hdigits)⟩

theorem append_plain (h : text = [] ∨ Ends text) (hb : isPlain singleQuote b = true) :
    Ends (text ++ [b]) := by
  obtain rfl | h := h
  · exact .free (derivesFrom_first rfl (derivesFrom_anyCharacter hb))
  cases h with
  | free h => exact .free (derivesFrom_more rfl (.head _) h (derivesFrom_anyCharacter hb))
  | @octal text digits h hne hlength hdigits =>
    cases hoctal : isOctalDigit b with
    | false =>
      have hbefore := h.append_shortOctal (derivesFrom_shortOctal hne hlength hdigits)
      exact .free (derivesFrom_more rfl (.tail _ (.head _)) hbefore
        (derivesFrom_notOctal hb hoctal))
    | true =>
      have hall : ∀ d ∈ digits ++ [b], isOctalDigit d = true :=
        List.forall_mem_append.2 ⟨hdigits, by simpa using hoctal⟩
      rw [List.append_assoc, List.cons_append]
      obtain hone | htwo : digits.length + 1 ≤ 2 ∨ digits.length + 1 = 3 := by omega
      · exact .octal h (by simp) (by simpa using hone) hall
      · exact .free (h.append_escape (derivesFrom_octal (by simpa using htwo) hall))
  | @hex text digits h hne hdigits =>
    cases hhex : isHexDigit b with
    | false =>
      have hbefore := h.append_hex (derivesFrom_hex hne hdigits)
      exact .free (derivesFrom_more rfl (.tail _ (.tail _ (.head _))) hbefore
        (derivesFrom_notHex hb hhex))
    | true =>
      rw [List.append_assoc, List.cons_append, List.cons_append]
      exact .hex h (by simp) (List.forall_mem_append.2 ⟨hdigits, by simpa using hhex⟩)

/-- **A sequence of characters goes on with any character.** -/
theorem append_character {c : Character} (h : text = [] ∨ Ends text) (hc : c.IsWritten) :
    Ends (text ++ c.spelling) := by
  have hfront : IsFront text := h.elim .inl isFront
  cases hc with
  | plain hb => exact append_plain h hb
  | simple hb => exact .free (hfront.append_escape (derivesFrom_simple hb))
  | octal hne hlength hdigits =>
    obtain hthree | htwo := Nat.eq_or_lt_of_le hlength
    · exact .free (hfront.append_escape (derivesFrom_octal hthree hdigits))
    · exact .octal hfront hne (Nat.le_of_lt_succ htwo) hdigits
  | hex hne hdigits => exact .hex hfront hne hdigits
  | universal hmark hdigits =>
    exact .free (hfront.append_escape (derivesFrom_universal hmark hdigits))

end Ends

/-- One or more characters are a sequence, however they are taken apart. -/
theorem derivesFrom_sequence {cs : List Character} (hne : cs ≠ []) (hcs : ∀ c ∈ cs, c.IsWritten) :
    grammar.DerivesFrom .sequence (cs.flatMap Character.spelling) := by
  have hends : ∀ {text : Bytes}, Ends text → Ends (text ++ cs.tail.flatMap Character.spelling) := by
    replace hcs : ∀ c ∈ cs.tail, c.IsWritten := fun c hc => hcs c (List.mem_of_mem_tail hc)
    generalize cs.tail = cs at hcs
    induction cs with
    | nil =>
      intro text h
      rwa [List.flatMap_nil, List.append_nil]
    | cons c cs ih =>
      intro text h
      obtain ⟨hc, hcs⟩ := List.forall_mem_cons.1 hcs
      rw [List.flatMap_cons, ← List.append_assoc]
      exact ih hcs (.append_character (.inr h) hc)
  obtain ⟨c, cs, rfl⟩ := List.exists_cons_of_ne_nil hne
  have hc := hcs c (.head _)
  obtain hnil | ⟨before, hbefore, hderives⟩ := (hends (.append_character (.inl rfl) hc)).isFront
  · rw [List.nil_append, List.append_eq_nil_iff] at hnil
    exact absurd hnil.1 hc.ne_nil
  · exact derivesFrom_oneOf rfl hbefore hderives

/-- What can stand between quotes is a character. -/
theorem exists_isWritten_of_mem (hv : v ∈ quotedCharacters singleQuote) :
    ∃ c : Character, c.IsWritten ∧ c.spelling = v := by
  obtain ⟨b, hb, rfl⟩ | ((hsimple | hoctal) | hhex) | huniversal := hv
  · exact ⟨_, .plain hb, rfl⟩
  · obtain ⟨_, rfl, _, ⟨b, hb, rfl⟩, rfl⟩ := hsimple
    exact ⟨_, .simple hb, rfl⟩
  · obtain ⟨_, rfl, digits, (hv | hv) | hv, rfl⟩ := hoctal
    · obtain ⟨d, hd, rfl⟩ := hv
      exact ⟨_, .octal (List.cons_ne_nil d []) (by simp) (by simpa using hd), rfl⟩
    · obtain ⟨_, ⟨d, hd, rfl⟩, _, ⟨d', hd', rfl⟩, rfl⟩ := hv
      exact ⟨_, .octal (List.cons_ne_nil d [d']) (by simp) (by simp_all), rfl⟩
    · obtain ⟨_, ⟨_, ⟨d, hd, rfl⟩, _, ⟨d', hd', rfl⟩, rfl⟩, _, ⟨d'', hd'', rfl⟩, rfl⟩ := hv
      exact ⟨_, .octal (List.cons_ne_nil d [d', d'']) (by simp) (by simp_all), rfl⟩
  · obtain ⟨_, ⟨_, rfl, _, rfl, rfl⟩, _, ⟨_, ⟨d, hd, rfl⟩, ds, hds, rfl⟩, rfl⟩ := hhex
    have hall := Lexeme.uses_oneOf (fun _ h => h) |>.kstar ds hds
    exact ⟨_, .hex (List.cons_ne_nil d ds) (List.forall_mem_cons.2 ⟨hd, hall⟩), rfl⟩
  · obtain ⟨mark, digits, rfl, hmark, hdigits, -⟩ := huniversal
    exact ⟨_, .universal hmark hdigits, rfl⟩

theorem exists_isWritten_of_forall_mem {words : List Bytes}
    (h : ∀ v ∈ words, v ∈ quotedCharacters singleQuote) :
    ∃ cs : List Character, (∀ c ∈ cs, c.IsWritten) ∧ cs.map Character.spelling = words := by
  induction words with
  | nil => exact ⟨[], nofun, rfl⟩
  | cons word words ih =>
    obtain ⟨hword, hwords⟩ := List.forall_mem_cons.1 h
    obtain ⟨c, hc, rfl⟩ := exists_isWritten_of_mem hword
    obtain ⟨cs, hcs, rfl⟩ := ih hwords
    exact ⟨c :: cs, List.forall_mem_cons.2 ⟨hc, hcs⟩, rfl⟩

theorem derives_map_spelled {literals : List String} {before : Bytes}
    (hliterals : List.Forall₂ (fun literal b => Bytes.ofString literal = [b]) literals before)
    {symbols : List (GrammarSymbol Part UInt8)} (h : grammar.Derives symbols v) :
    grammar.Derives (literals.map spelled ++ symbols) (before ++ v) := by
  induction hliterals with
  | nil => exact h
  | cons hliteral _ ih => exact .terminal (beq_iff_eq.2 hliteral) ih

theorem derivesFrom_quotedAfter {encoding : Encoding} {literals : List String} {before : Bytes}
    (hmem : quotedAfter encoding literals ∈ (rule .constant).productions)
    (hliterals : List.Forall₂ (fun literal b => Bytes.ofString literal = [b]) literals before)
    (h : grammar.DerivesFrom .sequence text) :
    grammar.DerivesFrom .constant (before ++ singleQuote :: (text ++ [singleQuote])) :=
  derivesFrom_iff.2 ⟨_, hmem, derives_map_spelled hliterals <|
    .terminal rfl (derives_nonterminal h (.terminal rfl .nil))⟩

/-- A constant is a sequence of characters between quotes, with any of the prefixes. -/
theorem derivesFrom_quoted {before : Bytes} (hbefore : before ∈ prefixes)
    (h : grammar.DerivesFrom .sequence text) :
    grammar.DerivesFrom .constant (before ++ singleQuote :: (text ++ [singleQuote])) := by
  simp only [prefixes, List.mem_cons, List.not_mem_nil, or_false] at hbefore
  obtain rfl | rfl | rfl | rfl | rfl := hbefore
  · exact derivesFrom_quotedAfter (.head _) .nil h
  · exact derivesFrom_quotedAfter (.tail _ (.head _)) (.cons rfl .nil) h
  · exact derivesFrom_quotedAfter (.tail _ (.tail _ (.head _))) (.cons rfl (.cons rfl .nil)) h
  · exact derivesFrom_quotedAfter (.tail _ (.tail _ (.tail _ (.head _)))) (.cons rfl .nil) h
  · exact derivesFrom_quotedAfter (.tail _ (.tail _ (.tail _ (.tail _ (.head _))))) (.cons rfl .nil) h

/-- What is scanned is derived. -/
theorem derivesFrom_of_scan? {encoding : Encoding} {cs : List Character}
    (h : scan? text = some (encoding, cs)) : grammar.DerivesFrom .constant text := by
  obtain ⟨rest, hopening, hcs, hne⟩ := exists_of_scan? h
  obtain ⟨rfl, hwritten⟩ := eq_of_characters? hcs
  have hsequence := derivesFrom_sequence hne hwritten
  unfold opening? at hopening
  split at hopening <;> cases hopening
  · exact derivesFrom_quoted (by decide : [] ∈ prefixes) hsequence
  · exact derivesFrom_quoted (by decide : [upperL] ∈ prefixes) hsequence
  · exact derivesFrom_quoted (by decide : [lowerU, eight] ∈ prefixes) hsequence
  · exact derivesFrom_quoted (by decide : [lowerU] ∈ prefixes) hsequence
  · exact derivesFrom_quoted (by decide : [upperU] ∈ prefixes) hsequence

/-- Every character but those that stand for themselves is an escape sequence. -/
theorem derivesFrom_escapeSequence {c : Character} (hc : c.IsWritten) (hkind : c.kind ≠ .plain) :
    grammar.DerivesFrom .escapeSequence c.spelling := by
  cases hc with
  | plain => exact absurd rfl hkind
  | simple hb => exact derivesFrom_oneOf rfl (.head _) (derivesFrom_simple hb)
  | octal hne hlength hdigits =>
    obtain hthree | htwo := Nat.eq_or_lt_of_le hlength
    · exact derivesFrom_oneOf rfl (.head _) (derivesFrom_octal hthree hdigits)
    · exact derivesFrom_oneOf rfl (.tail _ (.head _))
        (derivesFrom_shortOctal hne (Nat.le_of_lt_succ htwo) hdigits)
  | hex hne hdigits =>
    exact derivesFrom_oneOf rfl (.tail _ (.tail _ (.head _))) (derivesFrom_hex hne hdigits)
  | universal hmark hdigits =>
    exact derivesFrom_oneOf rfl (.head _) (derivesFrom_universal hmark hdigits)

/-- **The grammar derives every text that the automaton accepts.** -/
theorem derivesFrom_constant (h : text ∈ characterConstants) :
    grammar.DerivesFrom .constant text := by
  obtain ⟨before, hbefore, _, ⟨_, rfl, _, ⟨first, hfirst, _, ⟨more, hmore, _, rfl, rfl⟩, rfl⟩, rfl⟩,
    rfl⟩ := h
  obtain ⟨words, rfl, hwords⟩ := Language.mem_kstar.1 hmore
  obtain ⟨cs, hcs, hspelling⟩ :=
    exists_isWritten_of_forall_mem (List.forall_mem_cons.2 ⟨hfirst, hwords⟩)
  have hne : cs ≠ [] := by
    rintro rfl
    cases hspelling
  have hsequence := derivesFrom_sequence hne hcs
  rw [List.flatMap_def, hspelling, List.flatten_cons] at hsequence
  dsimp only
  rw [List.singleton_append, ← List.append_assoc first]
  refine derivesFrom_quoted ?_ hsequence
  obtain (((rfl | rfl) | ⟨_, rfl, _, rfl, rfl⟩) | rfl) | rfl := hbefore <;> decide

/-- **The automaton and the grammar agree.** A text is a character constant if and only if it has a
parse tree, the code points of which are all acceptable. -/
theorem accepts_iff_exists_parse (text : Bytes) :
    Lexeme.characterConstant.accepts text = true ↔
      ∃ tree, grammar.parse .constant text = some tree ∧
        ∀ c ∈ names tree, isAcceptable c = true := by
  have haccepts : Lexeme.characterConstant.accepts text = true ↔ text ∈ characterConstants :=
    Lexeme.Kind.accepts_iff .character text
  rw [haccepts]
  constructor
  · intro h
    obtain ⟨tree, htree⟩ := exists_parse (derivesFrom_constant h)
    exact ⟨tree, htree, (mem_characterConstants_iff (isConstant_of_parse htree)).1 h⟩
  · rintro ⟨tree, htree, hnames⟩
    exact (mem_characterConstants_iff (isConstant_of_parse htree)).2 hnames

end CPreprocessor.CharacterConstant
