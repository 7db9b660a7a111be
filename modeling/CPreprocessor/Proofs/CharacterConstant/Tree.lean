import CPreprocessor.CharacterConstant.Value
import CPreprocessor.Proofs.Grammar.Tree
import CPreprocessor.Proofs.Lexeme.Quoted

/-!
# The trees of character constants

The parse tree of a character constant says which bytes are characters and what each of them is
(`IsConstant`, `IsSequence`, `IsCharacter`). Every tree that is parsed is of this form
(`describes_of_parse`), since every production puts together parts of the forms that their
nonterminals stand for (`describes_node`).
-/

namespace CPreprocessor.CharacterConstant

open Ascii Grammar GrammarSymbol

abbrev ConstantTree := Tree Part UInt8 Form

/-! ## What trees describe -/

/-- A tree of a character, and the bytes of the character. -/
inductive IsCharacter : ConstantTree → Bytes → Prop
  | next {r start stop character text} (h : IsCharacter character text) :
      IsCharacter (.node r .next start stop [character]) text
  | plain {r start stop b} (h : Lexeme.isPlain singleQuote b = true) :
      IsCharacter (.node r .plain start stop [.leaf b]) [b]
  | simple {r start stop b} (h : Lexeme.Quoted.isSimpleEscape b = true) :
      IsCharacter (.node r .simple start stop [.leaf backslash, .leaf b]) [backslash, b]
  | octal {r start stop digits} (hne : digits ≠ []) (hlength : digits.length ≤ 3)
      (hdigits : ∀ d ∈ digits, isOctalDigit d = true) :
      IsCharacter (.node r .octal start stop (.leaf backslash :: digits.map .leaf))
        (backslash :: digits)
  | hex {r start stop start' stop' digits} (hne : digits ≠ [])
      (hdigits : ∀ d ∈ digits, isHexDigit d = true) :
      IsCharacter (.node r .hex start stop
        [.leaf backslash, .leaf lowerX, .node .hexDigits .next start' stop' (digits.map .leaf)])
        (backslash :: lowerX :: digits)
  | universal {r start stop mark digits}
      (hmark : mark = lowerU ∧ digits.length = 4 ∨ mark = upperU ∧ digits.length = 8)
      (hdigits : ∀ d ∈ digits, isHexDigit d = true) :
      IsCharacter (.node r .universal start stop
        (.leaf backslash :: .leaf mark :: digits.map .leaf)) (backslash :: mark :: digits)

/-- A tree of one or more characters. -/
inductive IsSequence : ConstantTree → Bytes → Prop
  | next {r start stop sequence text} (h : IsSequence sequence text) :
      IsSequence (.node r .next start stop [sequence]) text
  | first {r start stop character text} (h : IsCharacter character text) :
      IsSequence (.node r .first start stop [character]) text
  | more {r start stop sequence character u v} (hsequence : IsSequence sequence u)
      (hcharacter : IsCharacter character v) :
      IsSequence (.node r .more start stop [sequence, character]) (u ++ v)

/-- A tree of hexadecimal digits. -/
inductive IsDigits : ConstantTree → Bytes → Prop
  | intro {start stop digits} (hne : digits ≠ []) (hdigits : ∀ d ∈ digits, isHexDigit d = true) :
      IsDigits (.node .hexDigits .next start stop (digits.map .leaf)) digits

/-- What can stand before the opening quote. -/
def prefixes : List Bytes := [[], [upperL], [lowerU, eight], [lowerU], [upperU]]

/-- A tree of a character constant. -/
inductive IsConstant : ConstantTree → Bytes → Prop
  | intro {encoding start stop before sequence text} (hbefore : before ∈ prefixes)
      (h : IsSequence sequence text) :
      IsConstant (.node .constant (.constant encoding) start stop
        (before.map .leaf ++ [.leaf singleQuote, sequence, .leaf singleQuote]))
        (before ++ singleQuote :: (text ++ [singleQuote]))

/-- What the trees of a nonterminal are. -/
def Describes : Part → ConstantTree → Bytes → Prop
  | .constant => IsConstant
  | .sequence | .free | .afterOctal | .afterHex => IsSequence
  | .hexDigits => IsDigits
  | .anyCharacter | .notOctal | .notHex | .plain | .plainHex | .plainOctal | .escape | .shortOctal
  | .hex | .escapeSequence => IsCharacter

/-- Trees of the symbols of a list, and the bytes of all of them. -/
inductive Covered : List (GrammarSymbol Part UInt8) → List ConstantTree → Bytes → Prop
  | nil : Covered [] [] []
  | terminal {t b symbols trees text} (accepts : Terminal.accepts t b = true)
      (rest : Covered symbols trees text) :
      Covered (.terminal t :: symbols) (.leaf b :: trees) (b :: text)
  | nonterminal {r tree symbols trees u v} (first : Describes r tree u)
      (rest : Covered symbols trees v) :
      Covered (.nonterminal r :: symbols) (tree :: trees) (u ++ v)

namespace Covered

variable {symbols : List (GrammarSymbol Part UInt8)} {trees : List ConstantTree} {text : Bytes}

theorem exists_of_spelled {literal : String} {b : UInt8} (hliteral : Bytes.ofString literal = [b])
    (h : Covered (spelled literal :: symbols) trees text) :
    ∃ trees' text', trees = .leaf b :: trees' ∧ text = b :: text' ∧
      Covered symbols trees' text' := by
  cases h with
  | @terminal _ b' _ trees' text' accepts rest =>
    have hb : Bytes.ofString literal = [b'] := eq_of_beq accepts
    obtain rfl : b = b' := List.head_eq_of_cons_eq (hliteral.symm.trans hb)
    exact ⟨trees', text', rfl, rfl, rest⟩

theorem exists_of_map_spelled {literals : List String} {before : Bytes}
    (hliterals : List.Forall₂ (fun literal b => Bytes.ofString literal = [b]) literals before)
    (h : Covered (literals.map spelled ++ symbols) trees text) :
    ∃ trees' text', trees = before.map .leaf ++ trees' ∧ text = before ++ text' ∧
      Covered symbols trees' text' := by
  induction hliterals generalizing trees text with
  | nil => exact ⟨trees, text, rfl, rfl, h⟩
  | cons hliteral _ ih =>
    obtain ⟨trees₁, text₁, rfl, rfl, h₁⟩ := exists_of_spelled hliteral h
    obtain ⟨trees', text', rfl, rfl, h'⟩ := ih h₁
    exact ⟨trees', text', rfl, rfl, h'⟩

theorem exists_of_nonterminal {r : Part} (h : Covered (.nonterminal r :: symbols) trees text) :
    ∃ tree trees' u v, trees = tree :: trees' ∧ text = u ++ v ∧ Describes r tree u ∧
      Covered symbols trees' v := by
  cases h with
  | nonterminal first rest => exact ⟨_, _, _, _, rfl, rfl, first, rest⟩

theorem eq_of_nil (h : Covered [] trees text) : trees = [] ∧ text = [] := by
  cases h
  exact ⟨rfl, rfl⟩

theorem exists_of_single {r : Part} (h : Covered [.nonterminal r] trees text) :
    ∃ tree, trees = [tree] ∧ Describes r tree text := by
  obtain ⟨tree, _, u, _, rfl, rfl, htree, hnil⟩ := h.exists_of_nonterminal
  obtain ⟨rfl, rfl⟩ := hnil.eq_of_nil
  rw [List.append_nil]
  exact ⟨tree, rfl, htree⟩

/-- Digits are their own trees. -/
theorem eq_of_replicate {n : Nat} {predicate : UInt8 → Bool}
    (h : Covered (List.replicate n (such predicate)) trees text) :
    trees = text.map .leaf ∧ text.length = n ∧ ∀ d ∈ text, predicate d = true := by
  induction n generalizing trees text with
  | zero =>
    obtain ⟨rfl, rfl⟩ := h.eq_of_nil
    exact ⟨rfl, rfl, nofun⟩
  | succ n ih =>
    cases h with
    | terminal accepts rest =>
      obtain ⟨rfl, rfl, hall⟩ := ih rest
      exact ⟨rfl, rfl, List.forall_mem_cons.2 ⟨accepts, hall⟩⟩

end Covered

/-! ## Every production describes what its nonterminal does -/

section

variable {p : Production Part UInt8 Form} {start stop : Nat} {trees : List ConstantTree}
  {text : Bytes}

theorem isCharacter_of_oneOf {r : Part} {parts : List Part} (hp : p ∈ oneOf parts)
    (hparts : ∀ part ∈ parts, Describes part = IsCharacter) (h : Covered p.symbols trees text) :
    IsCharacter (.node r p.tag start stop trees) text := by
  obtain ⟨part, hpart, rfl⟩ := List.mem_map.1 hp
  obtain ⟨tree, rfl, htree⟩ := h.exists_of_single
  rw [hparts part hpart] at htree
  exact .next htree

theorem isSequence_of_oneOf {r : Part} {parts : List Part} (hp : p ∈ oneOf parts)
    (hparts : ∀ part ∈ parts, Describes part = IsSequence) (h : Covered p.symbols trees text) :
    IsSequence (.node r p.tag start stop trees) text := by
  obtain ⟨part, hpart, rfl⟩ := List.mem_map.1 hp
  obtain ⟨tree, rfl, htree⟩ := h.exists_of_single
  rw [hparts part hpart] at htree
  exact .next htree

theorem isSequence_of_sequencesEndingIn {r character : Part} {sequences : List (Part × Part)}
    (hp : p ∈ sequencesEndingIn character sequences)
    (hcharacter : Describes character = IsCharacter)
    (hsequences : ∀ pair ∈ sequences,
      Describes pair.1 = IsSequence ∧ Describes pair.2 = IsCharacter)
    (h : Covered p.symbols trees text) : IsSequence (.node r p.tag start stop trees) text := by
  obtain rfl | hp := List.mem_cons.1 hp
  · obtain ⟨tree, rfl, htree⟩ := h.exists_of_single
    rw [hcharacter] at htree
    exact .first htree
  · obtain ⟨⟨before, last⟩, hpair, rfl⟩ := List.mem_map.1 hp
    obtain ⟨hbefore, hlast⟩ := hsequences _ hpair
    obtain ⟨tree, _, u, v, rfl, rfl, htree, hrest⟩ := h.exists_of_nonterminal
    obtain ⟨tree', rfl, htree'⟩ := hrest.exists_of_single
    rw [hbefore] at htree
    rw [hlast] at htree'
    exact .more htree htree'

theorem isCharacter_of_itself {r : Part} {predicate : UInt8 → Bool} (hp : p ∈ itself predicate)
    (hplain : ∀ b, predicate b = true → Lexeme.isPlain singleQuote b = true)
    (h : Covered p.symbols trees text) : IsCharacter (.node r p.tag start stop trees) text := by
  obtain rfl := List.mem_singleton.1 hp
  obtain ⟨rfl, hlength, hall⟩ := Covered.eq_of_replicate (n := 1) h
  obtain ⟨b, rfl⟩ := List.length_eq_one_iff.1 hlength
  exact .plain (hplain b (hall b (.head _)))

theorem isConstant_of_quotedAfter {encoding : Encoding} {spelling : List String} {before : Bytes}
    (hspelling : List.Forall₂ (fun literal b => Bytes.ofString literal = [b]) spelling before)
    (hbefore : before ∈ prefixes)
    (h : Covered (quotedAfter encoding spelling).symbols trees text) :
    IsConstant (.node .constant (.constant encoding) start stop trees) text := by
  obtain ⟨_, _, rfl, rfl, h₁⟩ := Covered.exists_of_map_spelled hspelling h
  obtain ⟨_, _, rfl, rfl, h₂⟩ := h₁.exists_of_spelled (b := singleQuote) (by decide)
  obtain ⟨sequence, _, text', _, rfl, rfl, hsequence, h₃⟩ := h₂.exists_of_nonterminal
  obtain ⟨_, _, rfl, rfl, h₄⟩ := h₃.exists_of_spelled (b := singleQuote) (by decide)
  obtain ⟨rfl, rfl⟩ := h₄.eq_of_nil
  exact .intro hbefore hsequence

theorem isCharacter_of_universalName {r : Part} {letter : String} {mark : UInt8} {count : Nat}
    (hletter : Bytes.ofString letter = [mark])
    (hmark : mark = lowerU ∧ count = 4 ∨ mark = upperU ∧ count = 8)
    (h : Covered (universalName letter count).symbols trees text) :
    IsCharacter (.node r .universal start stop trees) text := by
  obtain ⟨_, _, rfl, rfl, h₁⟩ := h.exists_of_spelled (b := backslash) (by decide)
  obtain ⟨_, digits, rfl, rfl, h₂⟩ := h₁.exists_of_spelled hletter
  obtain ⟨rfl, rfl, hall⟩ := h₂.eq_of_replicate
  exact .universal hmark hall

theorem isCharacter_of_octal {r : Part} {n : Nat} (hpos : 0 < n) (hle : n ≤ 3)
    (h : Covered (spelled "\\" :: List.replicate n (such isOctalDigit)) trees text) :
    IsCharacter (.node r .octal start stop trees) text := by
  obtain ⟨_, digits, rfl, rfl, h₁⟩ := h.exists_of_spelled (b := backslash) (by decide)
  obtain ⟨rfl, rfl, hall⟩ := h₁.eq_of_replicate
  exact .octal (List.ne_nil_of_length_pos hpos) hle hall

theorem isCharacter_of_escape {r : Part} (hp : p ∈ (rule .escape).productions)
    (h : Covered p.symbols trees text) : IsCharacter (.node r p.tag start stop trees) text := by
  simp only [rule, List.mem_cons, List.not_mem_nil, or_false] at hp
  obtain rfl | rfl | rfl | rfl := hp
  · obtain ⟨_, _, rfl, rfl, h₁⟩ := h.exists_of_spelled (b := backslash) (by decide)
    obtain ⟨rfl, hlength, hall⟩ := Covered.eq_of_replicate (n := 1) h₁
    obtain ⟨b, rfl⟩ := List.length_eq_one_iff.1 hlength
    exact .simple (hall b (.head _))
  · exact isCharacter_of_octal (by decide) (by decide) h
  · exact isCharacter_of_universalName (by decide) (.inl ⟨rfl, rfl⟩) h
  · exact isCharacter_of_universalName (by decide) (.inr ⟨rfl, rfl⟩) h

theorem isCharacter_of_shortOctal {r : Part} (hp : p ∈ (rule .shortOctal).productions)
    (h : Covered p.symbols trees text) : IsCharacter (.node r p.tag start stop trees) text := by
  simp only [rule, List.mem_cons, List.not_mem_nil, or_false] at hp
  obtain rfl | rfl := hp
  · exact isCharacter_of_octal (n := 1) (by decide) (by decide) h
  · exact isCharacter_of_octal (n := 2) (by decide) (by decide) h

theorem isCharacter_of_hex {r : Part} (hp : p ∈ (rule .hex).productions)
    (h : Covered p.symbols trees text) : IsCharacter (.node r p.tag start stop trees) text := by
  simp only [rule, List.mem_cons, List.not_mem_nil, or_false] at hp
  subst hp
  obtain ⟨_, _, rfl, rfl, h₁⟩ := h.exists_of_spelled (b := backslash) (by decide)
  obtain ⟨_, _, rfl, rfl, h₂⟩ := h₁.exists_of_spelled (b := lowerX) (by decide)
  obtain ⟨tree, rfl, htree⟩ := h₂.exists_of_single
  cases htree with
  | intro hne hdigits => exact .hex hne hdigits

/-- The list of digits goes on with one more. -/
theorem isDigits_listNode (hp : p ∈ (rule .hexDigits).productions)
    (h : Covered p.symbols trees text) :
    IsDigits (listNode .hexDigits p start stop trees) text := by
  simp only [rule, List.mem_cons, List.not_mem_nil, or_false] at hp
  obtain rfl | rfl := hp
  · obtain ⟨tree, _, u, v, rfl, rfl, htree, h₁⟩ := h.exists_of_nonterminal
    obtain ⟨rfl, hlength, hall⟩ := Covered.eq_of_replicate (n := 1) h₁
    obtain ⟨b, rfl⟩ := List.length_eq_one_iff.1 hlength
    cases htree with
    | intro hne hdigits =>
      have hnode : IsDigits (.node .hexDigits .next start stop ((u ++ [b]).map .leaf)) (u ++ [b]) :=
        .intro (by simp) (List.forall_mem_append.2 ⟨hdigits, hall⟩)
      rwa [List.map_append] at hnode
  · obtain ⟨rfl, hlength, hall⟩ := Covered.eq_of_replicate (n := 1) h
    rw [listNode_of_head_ne (by simp [such])]
    obtain ⟨b, rfl⟩ := List.length_eq_one_iff.1 hlength
    exact .intro (List.cons_ne_nil b []) hall

/-- The node of a production describes what its nonterminal does. -/
theorem describes_node {r : Part} (hr : r ≠ .hexDigits) (hp : p ∈ (rule r).productions)
    (h : Covered p.symbols trees text) : Describes r (.node r p.tag start stop trees) text := by
  have hhex {b : UInt8} (hb : isHexDigit b = true) : Lexeme.isPlain singleQuote b = true :=
    Lexeme.Quoted.isPlain_of_isHexDigit (.inl rfl) hb
  have hoctal {b : UInt8} (hb : isOctalDigit b = true) : Lexeme.isPlain singleQuote b = true :=
    hhex (Lexeme.Quoted.isHexDigit_of_isOctalDigit hb)
  cases r with
  | constant =>
    simp only [rule, List.mem_cons, List.not_mem_nil, or_false] at hp
    obtain rfl | rfl | rfl | rfl | rfl := hp
    · exact isConstant_of_quotedAfter .nil (by decide) h
    · exact isConstant_of_quotedAfter (.cons rfl .nil) (by decide) h
    · exact isConstant_of_quotedAfter (.cons rfl (.cons rfl .nil)) (by decide) h
    · exact isConstant_of_quotedAfter (.cons rfl .nil) (by decide) h
    · exact isConstant_of_quotedAfter (.cons rfl .nil) (by decide) h
  | sequence => exact isSequence_of_oneOf hp (by simp [Describes]) h
  | free | afterOctal | afterHex =>
    exact isSequence_of_sequencesEndingIn hp rfl (by simp [Describes]) h
  | anyCharacter | notOctal | notHex | escapeSequence =>
    exact isCharacter_of_oneOf hp (by simp [Describes]) h
  | plain => exact isCharacter_of_itself hp (by simp +contextual [Lexeme.isPlain]) h
  | plainHex => exact isCharacter_of_itself hp (fun b hb => hhex (by simp_all)) h
  | plainOctal => exact isCharacter_of_itself hp (fun b => hoctal) h
  | escape => exact isCharacter_of_escape hp h
  | shortOctal => exact isCharacter_of_shortOctal hp h
  | hex => exact isCharacter_of_hex hp h
  | hexDigits => exact absurd rfl hr

end

/-! ## Parse trees -/

/-- The trees of derivations describe what the symbols do. -/
theorem covered_of_fits {input : Bytes} {symbols : List (GrammarSymbol Part UInt8)}
    {start stop : Nat} {children : List (Derivation Part UInt8 Form)}
    (h : grammar.Fits input symbols start stop children) :
    ∃ text, Covered symbols (grammar.treesOfList children) text ∧
      input.drop start = text ++ input.drop stop := by
  induction h with
  | nil start => exact ⟨[], .nil, rfl⟩
  | @terminal t b symbols start stop children get accepts _ ih =>
    obtain ⟨text, hcovered, hdrop⟩ := ih
    refine ⟨b :: text, .terminal accepts hcovered, ?_⟩
    rw [List.drop_eq_getElem?_toList_append, get, hdrop]
    rfl
  | @nonterminal r p symbols start middle stop inner children mem _ _ ih₁ ih₂ =>
    obtain ⟨u, hu, hdrop₁⟩ := ih₁
    obtain ⟨v, hv, hdrop₂⟩ := ih₂
    refine ⟨u ++ v, .nonterminal ?_ hv, by rw [hdrop₁, hdrop₂, List.append_assoc]⟩
    rw [tree]
    by_cases hr : r = .hexDigits
    · subst hr
      exact isDigits_listNode mem hu
    · have hlist : (rule r).isList = false := by cases r <;> first | rfl | exact absurd rfl hr
      rw [if_neg (by simp [grammar, hlist])]
      exact describes_node hr mem hu

/-- **Every parse tree is of the form described.** -/
theorem describes_of_parse {r : Part} {text : Bytes} {tree : ConstantTree}
    (h : grammar.parse r text = some tree) : Describes r tree text := by
  obtain ⟨d, hd, rfl⟩ := Option.map_eq_some_iff.1 h
  obtain ⟨text', hcovered, hdrop⟩ := covered_of_fits (fits_of_derive? hd)
  rw [List.drop_zero, List.drop_length, List.append_nil] at hdrop
  subst hdrop
  obtain ⟨tree, htree, hdescribes⟩ := hcovered.exists_of_single
  rw [treesOfList, treesOfList] at htree
  rw [(List.cons.inj htree).1]
  exact hdescribes

theorem isConstant_of_parse {text : Bytes} {tree : ConstantTree}
    (h : grammar.parse .constant text = some tree) : IsConstant tree text :=
  describes_of_parse h

end CPreprocessor.CharacterConstant
