import CPreprocessor.Proofs.CharacterConstant.Scan
import CPreprocessor.Proofs.CharacterConstant.Tree
import CPreprocessor.Proofs.Grammar.Cover

/-!
# The grammar reads character constants greedily

The characters of a parse tree are those that a scan from left to right finds. This is what the
nonterminal of constants says of its trees (`Reads`), and every production keeps what nonterminals
say (`reads_nodeOf`): a character stands behind another one only where that one is complete, because
the end of a sequence decides what may follow it (`isCompleteBefore_of_mayFollow`).
-/

namespace CPreprocessor.CharacterConstant

open Ascii Grammar GrammarSymbol
open Lexeme (isPlain)

/-! ## The characters of a tree -/

/-- The kind of the characters that a form is of. -/
def Form.kind? : Form → Option CharacterKind
  | .plain => some .plain
  | .simple => some .simple
  | .octal => some .octal
  | .hex => some .hex
  | .universal => some .universal
  | .constant _ | .next | .first | .more => none

mutual

/-- The characters of a tree, from left to right. -/
def characters : ConstantTree → List Character
  | .leaf _ => []
  | .node _ form _ _ children =>
    match form.kind? with
    | some kind => [⟨kind, Tree.leavesOfList children⟩]
    | none => charactersOfList children

/-- The characters of a list of trees. -/
def charactersOfList : List ConstantTree → List Character
  | [] => []
  | tree :: trees => characters tree ++ charactersOfList trees

end

/-- The encoding of a constant. -/
def encoding? : ConstantTree → Option Encoding
  | .node _ (.constant encoding) _ _ _ => some encoding
  | _ => none

variable {r : Part} {form : Form} {start stop : Nat} {tree : ConstantTree}
  {trees : List ConstantTree} {text v : Bytes} {c c₀ : Character} {b : UInt8}

theorem encoding?_eq_some_iff {encoding : Encoding} :
    encoding? (.node r form start stop trees) = some encoding ↔ form = .constant encoding := by
  cases form <;> simp [encoding?]

theorem characters_of_kind {kind : CharacterKind} (h : form.kind? = some kind) :
    characters (.node r form start stop trees) = [⟨kind, Tree.leavesOfList trees⟩] := by
  rw [characters, h]

theorem characters_of_kind_eq_none (h : form.kind? = none) :
    characters (.node r form start stop trees) = charactersOfList trees := by
  rw [characters, h]

theorem charactersOfList_singleton : charactersOfList [tree] = characters tree := by
  rw [charactersOfList, charactersOfList, List.append_nil]

theorem charactersOfList_append (trees trees' : List ConstantTree) :
    charactersOfList (trees ++ trees') = charactersOfList trees ++ charactersOfList trees' := by
  induction trees with
  | nil => rfl
  | cons tree trees ih =>
    rw [List.cons_append, charactersOfList, charactersOfList, ih, List.append_assoc]

theorem charactersOfList_map_leaf (text : Bytes) : charactersOfList (text.map .leaf) = [] := by
  induction text with
  | nil => rfl
  | cons b text ih => rw [List.map_cons, charactersOfList, characters, ih, List.append_nil]

/-! ## Where characters stand -/

/-- The nonterminal that only characters like this one are derived from. -/
def Character.part (c : Character) : Part :=
  match c.kind with
  | .plain =>
    if c.spelling.any isOctalDigit then .plainOctal
    else if c.spelling.any isHexDigit then .plainHex
    else .plain
  | .octal => if c.spelling.length = 4 then .escape else .shortOctal
  | .hex => .hex
  | .simple | .universal => .escape

/-- The nonterminals of characters. -/
def characterParts : List Part :=
  [.plain, .plainHex, .plainOctal, .escape, .shortOctal, .hex, .anyCharacter, .notOctal, .notHex,
    .escapeSequence]

/-- The nonterminals of the characters that a nonterminal stands for. -/
def membersOf : Part → List Part
  | .anyCharacter => [.plain, .plainHex, .plainOctal, .escape]
  | .notOctal => [.plain, .plainHex, .escape]
  | .notHex => [.plain, .escape]
  | .escapeSequence => [.escape, .shortOctal, .hex]
  | r => [r]

/-- The nonterminal of the sequences that end with a character of a nonterminal. -/
def sequenceEnding : Part → Part
  | .shortOctal => .afterOctal
  | .hex => .afterHex
  | _ => .free

/-- Whether a character of a nonterminal may stand behind a sequence. -/
def mayFollow : (before last : Part) → Bool
  | .afterOctal, .plainOctal => false
  | .afterHex, .plainOctal => false
  | .afterHex, .plainHex => false
  | _, _ => true

/-- Only characters that stand for themselves begin with a digit. -/
theorem head_of_isWritten (hc : c.IsWritten) (hb : b ∈ (c.spelling ++ v).head?) :
    (c.part ≠ .plainOctal → isOctalDigit b = false) ∧
      (c.part ≠ .plainOctal → c.part ≠ .plainHex → isHexDigit b = false) := by
  cases hc with
  | @plain b' _ =>
    obtain rfl : b' = b := by simpa using hb
    cases hoctal : isOctalDigit b' <;> cases hhex : isHexDigit b' <;>
      simp [Character.part, hoctal, hhex]
  | simple | octal | hex | universal =>
    obtain rfl : backslash = b := by simpa using hb
    exact ⟨fun _ => by decide, fun _ _ => by decide⟩

/-- A character that may stand behind a sequence shows that the last one of it is complete. -/
theorem isCompleteBefore_of_mayFollow (hc : c.IsWritten)
    (h : mayFollow (sequenceEnding c₀.part) c.part = true) :
    c₀.IsCompleteBefore (c.spelling ++ v) := by
  unfold Character.IsCompleteBefore
  split
  · next hkind =>
    by_cases hlength : c₀.spelling.length = 4
    · exact .inl hlength
    · have hpart : c₀.part = .shortOctal := by simp [Character.part, hkind, hlength]
      rw [hpart] at h
      refine .inr fun b hb => (head_of_isWritten hc hb).1 fun hoctal => ?_
      rw [hoctal] at h
      cases h
  · next hkind =>
    have hpart : c₀.part = .hex := by simp [Character.part, hkind]
    rw [hpart] at h
    refine fun b hb => (head_of_isWritten hc hb).2 (fun hoctal => ?_) fun hhex => ?_
    · rw [hoctal] at h
      cases h
    · rw [hhex] at h
      cases h
  · trivial

/-! ## What nonterminals say of their trees -/

/-- A tree of one character that the nonterminal stands for. -/
def ReadsCharacter (r : Part) (tree : ConstantTree) (text : Bytes) : Prop :=
  ∃ c : Character, characters tree = [c] ∧ c.spelling = text ∧ c.IsWritten ∧ c.part ∈ membersOf r

/-- A tree of characters. Where the last one is complete, the text is scanned as these. -/
def ReadsSequence (tree : ConstantTree) (text : Bytes) (before : List Character) (last : Character) :
    Prop :=
  characters tree = before ++ [last] ∧
    ∀ v, last.IsCompleteBefore v →
      characters? (text ++ v) = (before ++ last :: ·) <$> characters? v

/-- What a nonterminal says of a tree and the bytes that it covers. -/
def Reads : Part → ConstantTree → Bytes → Prop
  | .constant, tree, text => ∃ encoding,
    encoding? tree = some encoding ∧ scan? text = some (encoding, characters tree)
  | .sequence, tree, text => ∃ before last, ReadsSequence tree text before last
  | .hexDigits, tree, text =>
    tree.leaves = text ∧ text ≠ [] ∧ ∀ d ∈ text, isHexDigit d = true
  | .free, tree, text => ∃ before last,
    ReadsSequence tree text before last ∧ sequenceEnding last.part = .free
  | .afterOctal, tree, text => ∃ before last,
    ReadsSequence tree text before last ∧ sequenceEnding last.part = .afterOctal
  | .afterHex, tree, text => ∃ before last,
    ReadsSequence tree text before last ∧ sequenceEnding last.part = .afterHex
  | r, tree, text => ReadsCharacter r tree text

theorem reads_of_mem_characterParts (hr : r ∈ characterParts) (h : Reads r tree text) :
    ReadsCharacter r tree text := by
  simp only [characterParts, List.mem_cons, List.not_mem_nil, or_false] at hr
  obtain rfl | rfl | rfl | rfl | rfl | rfl | rfl | rfl | rfl | rfl := hr <;> exact h

/-- Any sequence ends with a character that says what may follow. -/
theorem exists_readsSequence (hr : r ∈ [Part.free, .afterOctal, .afterHex])
    (h : Reads r tree text) :
    ∃ before last, ReadsSequence tree text before last ∧ sequenceEnding last.part = r := by
  simp only [List.mem_cons, List.not_mem_nil, or_false] at hr
  obtain rfl | rfl | rfl := hr <;> exact h

/-! ### Characters -/

variable {p : Production Part UInt8 Form}

theorem accepts_spelled {literal : String} {b' : UInt8} (h : Bytes.ofString literal = [b]) :
    Terminal.accepts (.literal (Bytes.ofString literal)) b' = true ↔ b' = b := by
  change (Bytes.ofString literal == [b']) = true ↔ _
  rw [h, beq_iff_eq, List.cons.injEq, eq_comm]
  exact and_iff_left rfl

theorem covers_spelled_iff {describes : Part → ConstantTree → Bytes → Prop} {literal : String}
    (h : Bytes.ofString literal = [b]) {symbols : List (GrammarSymbol Part UInt8)} :
    Covers describes (spelled literal :: symbols) trees text ↔
      ∃ trees' text', trees = .leaf b :: trees' ∧ text = b :: text' ∧
        Covers describes symbols trees' text' := by
  rw [spelled, covers_terminal_iff]
  simp [accepts_spelled h]

theorem readsCharacter_of_oneOf {parts : List Part} (hp : p ∈ oneOf parts)
    (hparts : ∀ part ∈ parts, part ∈ characterParts ∧ membersOf part ⊆ membersOf r)
    (h : Covers Reads p.symbols trees text) :
    ReadsCharacter r (.node r p.tag start stop trees) text := by
  obtain ⟨part, hpart, rfl⟩ := List.mem_map.1 hp
  obtain ⟨tree, rfl, htree⟩ := covers_nonterminal_singleton_iff.1 h
  obtain ⟨hmem, hsubset⟩ := hparts part hpart
  obtain ⟨c, hcharacters, htext, hc, hpart⟩ := reads_of_mem_characterParts hmem htree
  refine ⟨c, ?_, htext, hc, hsubset hpart⟩
  rw [characters_of_kind_eq_none rfl, charactersOfList_singleton, hcharacters]

theorem readsCharacter_of_itself {predicate : UInt8 → Bool} (hp : p ∈ itself predicate)
    (hplain : ∀ b, predicate b = true →
      isPlain singleQuote b = true ∧ Character.part ⟨.plain, [b]⟩ ∈ membersOf r)
    (h : Covers Reads p.symbols trees text) :
    ReadsCharacter r (.node r p.tag start stop trees) text := by
  obtain rfl := List.mem_singleton.1 hp
  obtain ⟨b, rfl, rfl, hb⟩ := covers_terminal_singleton_iff.1 h
  exact ⟨⟨.plain, [b]⟩, rfl, rfl, .plain (hplain b hb).1, (hplain b hb).2⟩

theorem readsCharacter_of_universalName {letter : String} {mark : UInt8} {count : Nat}
    (hr : .escape ∈ membersOf r) (hletter : Bytes.ofString letter = [mark])
    (hmark : mark = lowerU ∧ count = 4 ∨ mark = upperU ∧ count = 8)
    (h : Covers Reads (universalName letter count).symbols trees text) :
    ReadsCharacter r (.node r .universal start stop trees) text := by
  obtain ⟨_, _, rfl, rfl, h₁⟩ := (covers_spelled_iff (b := backslash) (by decide)).1 h
  obtain ⟨_, digits, rfl, rfl, h₂⟩ := (covers_spelled_iff hletter).1 h₁
  obtain ⟨rfl, rfl, hdigits⟩ := covers_replicate_iff.1 h₂
  refine ⟨⟨.universal, backslash :: mark :: digits⟩, ?_, rfl, .universal hmark hdigits, hr⟩
  rw [characters_of_kind rfl]
  simp [Tree.leavesOfList, Tree.leaves]

theorem readsCharacter_of_octal {n : Nat} (hpos : 0 < n) (hle : n ≤ 3)
    (hr : (if n = 3 then .escape else .shortOctal) ∈ membersOf r)
    (h : Covers Reads (spelled "\\" :: List.replicate n (such isOctalDigit)) trees text) :
    ReadsCharacter r (.node r .octal start stop trees) text := by
  obtain ⟨_, digits, rfl, rfl, h₁⟩ := (covers_spelled_iff (b := backslash) (by decide)).1 h
  obtain ⟨rfl, rfl, hdigits⟩ := covers_replicate_iff.1 h₁
  refine ⟨⟨.octal, backslash :: digits⟩, ?_, rfl,
    .octal (List.ne_nil_of_length_pos hpos) hle hdigits, ?_⟩
  · rw [characters_of_kind rfl]
    simp [Tree.leavesOfList, Tree.leaves]
  · simpa [Character.part] using hr

theorem readsCharacter_of_escape (hp : p ∈ (rule .escape).productions)
    (h : Covers Reads p.symbols trees text) :
    ReadsCharacter .escape (.node .escape p.tag start stop trees) text := by
  simp only [rule, List.mem_cons, List.not_mem_nil, or_false] at hp
  obtain rfl | rfl | rfl | rfl := hp
  · obtain ⟨_, _, rfl, rfl, h₁⟩ := (covers_spelled_iff (b := backslash) (by decide)).1 h
    obtain ⟨b, rfl, rfl, hb⟩ := covers_terminal_singleton_iff.1 h₁
    exact ⟨⟨.simple, [backslash, b]⟩, rfl, rfl, .simple hb, .head _⟩
  · exact readsCharacter_of_octal (by decide) (by decide) (.head _) h
  · exact readsCharacter_of_universalName (.head _) (by decide) (.inl ⟨rfl, rfl⟩) h
  · exact readsCharacter_of_universalName (.head _) (by decide) (.inr ⟨rfl, rfl⟩) h

theorem readsCharacter_of_shortOctal (hp : p ∈ (rule .shortOctal).productions)
    (h : Covers Reads p.symbols trees text) :
    ReadsCharacter .shortOctal (.node .shortOctal p.tag start stop trees) text := by
  simp only [rule, List.mem_cons, List.not_mem_nil, or_false] at hp
  obtain rfl | rfl := hp
  · exact readsCharacter_of_octal (n := 1) (by decide) (by decide) (.head _) h
  · exact readsCharacter_of_octal (n := 2) (by decide) (by decide) (.head _) h

theorem readsCharacter_of_hex (hp : p ∈ (rule .hex).productions)
    (h : Covers Reads p.symbols trees text) :
    ReadsCharacter .hex (.node .hex p.tag start stop trees) text := by
  simp only [rule, List.mem_cons, List.not_mem_nil, or_false] at hp
  subst hp
  obtain ⟨_, _, rfl, rfl, h₁⟩ := (covers_spelled_iff (b := backslash) (by decide)).1 h
  obtain ⟨_, _, rfl, rfl, h₂⟩ := (covers_spelled_iff (b := lowerX) (by decide)).1 h₁
  obtain ⟨tree, rfl, rfl, hne, hdigits⟩ := covers_nonterminal_singleton_iff.1 h₂
  refine ⟨⟨.hex, backslash :: lowerX :: tree.leaves⟩, ?_, rfl, .hex hne hdigits, .head _⟩
  rw [characters_of_kind rfl]
  simp [Tree.leavesOfList, Tree.leaves]

/-! ### Digits -/

/-- A list of digits goes on with one more. -/
theorem reads_listNode (hp : p ∈ (rule .hexDigits).productions)
    (h : Covers Reads p.symbols trees text) :
    Reads .hexDigits (listNode .hexDigits p start stop trees) text := by
  simp only [rule, List.mem_cons, List.not_mem_nil, or_false] at hp
  obtain rfl | rfl := hp
  · obtain ⟨tree, trees, u, v, rfl, rfl, ⟨hleaves, hne, hdigits⟩, h₁⟩ := covers_nonterminal_iff.1 h
    obtain ⟨b, rfl, rfl, hb⟩ := covers_terminal_singleton_iff.1 h₁
    refine ⟨?_, by simp, List.forall_mem_append.2 ⟨hdigits, List.forall_mem_singleton.2 hb⟩⟩
    subst hleaves
    cases tree <;>
      simp [listNode, elementsOf, isLiteral, such, Tree.leaves, Tree.leavesOfList,
        Tree.leavesOfList_append]
  · obtain ⟨b, rfl, rfl, hb⟩ := covers_terminal_singleton_iff.1 h
    exact ⟨rfl, List.cons_ne_nil b [], List.forall_mem_singleton.2 hb⟩

/-! ### Sequences of characters -/

theorem characters?_of_isCompleteBefore (hc : c.IsWritten) (hv : c.IsCompleteBefore v) :
    characters? (c.spelling ++ v) = (c :: ·) <$> characters? v :=
  characters?_append (character?_append hc hv)

theorem exists_readsSequence_of_oneOf {parts : List Part} (hp : p ∈ oneOf parts)
    (hparts : parts ⊆ [.free, .afterOctal, .afterHex]) (h : Covers Reads p.symbols trees text) :
    ∃ before last, ReadsSequence (.node r p.tag start stop trees) text before last := by
  obtain ⟨part, hpart, rfl⟩ := List.mem_map.1 hp
  obtain ⟨tree, rfl, htree⟩ := covers_nonterminal_singleton_iff.1 h
  obtain ⟨before, last, ⟨hcharacters, hscan⟩, -⟩ := exists_readsSequence (hparts hpart) htree
  refine ⟨before, last, ?_, hscan⟩
  rw [characters_of_kind_eq_none rfl, charactersOfList_singleton, hcharacters]

/-- A sequence ends with a character that may stand behind what comes before it. -/
theorem exists_readsSequence_of_sequencesEndingIn {character : Part}
    {sequences : List (Part × Part)} (hp : p ∈ sequencesEndingIn character sequences)
    (hcharacter : character ∈ characterParts ∧
      ∀ part ∈ membersOf character, sequenceEnding part = r)
    (hsequences : ∀ pair ∈ sequences,
      pair.1 ∈ [Part.free, .afterOctal, .afterHex] ∧ pair.2 ∈ characterParts ∧
        ∀ part ∈ membersOf pair.2, sequenceEnding part = r ∧ mayFollow pair.1 part = true)
    (h : Covers Reads p.symbols trees text) :
    ∃ before last, ReadsSequence (.node r p.tag start stop trees) text before last ∧
      sequenceEnding last.part = r := by
  obtain rfl | hp := List.mem_cons.1 hp
  · obtain ⟨tree, rfl, htree⟩ := covers_nonterminal_singleton_iff.1 h
    obtain ⟨c, hcharacters, rfl, hc, hmem⟩ := reads_of_mem_characterParts hcharacter.1 htree
    refine ⟨[], c, ⟨?_, fun v hv => characters?_of_isCompleteBefore hc hv⟩, hcharacter.2 _ hmem⟩
    rw [characters_of_kind_eq_none rfl, charactersOfList_singleton, hcharacters, List.nil_append]
  · obtain ⟨⟨part, last⟩, hpair, rfl⟩ := List.mem_map.1 hp
    obtain ⟨hpart, hlast, hmembers⟩ := hsequences _ hpair
    obtain ⟨sequence, _, u, w, rfl, rfl, hsequence, h₁⟩ := covers_nonterminal_iff.1 h
    obtain ⟨tree, rfl, htree⟩ := covers_nonterminal_singleton_iff.1 h₁
    obtain ⟨before, c₀, ⟨hbefore, hscan⟩, hending⟩ := exists_readsSequence hpart hsequence
    obtain ⟨c, hcharacters, rfl, hc, hmem⟩ := reads_of_mem_characterParts hlast htree
    obtain ⟨hr, hfollow⟩ := hmembers _ hmem
    refine ⟨before ++ [c₀], c, ⟨?_, fun v hv => ?_⟩, hr⟩
    · rw [characters_of_kind_eq_none rfl, charactersOfList, charactersOfList_singleton, hbefore,
        hcharacters]
    · rw [List.append_assoc, hscan _ (isCompleteBefore_of_mayFollow hc (hending ▸ hfollow)),
        characters?_of_isCompleteBefore hc hv]
      simp [Function.comp_def]

/-! ### Constants -/

theorem covers_map_spelled_iff {describes : Part → ConstantTree → Bytes → Prop}
    {literals : List String} {before : Bytes}
    (h : List.Forall₂ (fun literal b => Bytes.ofString literal = [b]) literals before)
    {symbols : List (GrammarSymbol Part UInt8)} :
    Covers describes (literals.map spelled ++ symbols) trees text ↔
      ∃ trees' text', trees = before.map .leaf ++ trees' ∧ text = before ++ text' ∧
        Covers describes symbols trees' text' := by
  induction h generalizing trees text with
  | nil => simp
  | cons hliteral _ ih =>
    rw [List.map_cons, List.cons_append, covers_spelled_iff hliteral]
    simp [ih]

/-- A constant is scanned as its prefix and the characters between its quotes. -/
theorem reads_quotedAfter {encoding : Encoding} {spelling : List String} {before : Bytes}
    (hspelling : List.Forall₂ (fun literal b => Bytes.ofString literal = [b]) spelling before)
    (hopening : ∀ rest, opening? (before ++ singleQuote :: rest) = some (encoding, rest))
    (h : Covers Reads (quotedAfter encoding spelling).symbols trees text) :
    Reads .constant (.node .constant (.constant encoding) start stop trees) text := by
  obtain ⟨_, _, rfl, rfl, h₁⟩ := (covers_map_spelled_iff hspelling).1 h
  obtain ⟨_, _, rfl, rfl, h₂⟩ := (covers_spelled_iff (b := singleQuote) (by decide)).1 h₁
  obtain ⟨sequence, _, u, _, rfl, rfl, hsequence, h₃⟩ := covers_nonterminal_iff.1 h₂
  obtain ⟨_, _, rfl, rfl, h₄⟩ := (covers_spelled_iff (b := singleQuote) (by decide)).1 h₃
  obtain ⟨rfl, rfl⟩ := covers_nil_iff.1 h₄
  obtain ⟨cs, last, hcharacters, hscan⟩ := hsequence
  have hlast : last.IsCompleteBefore [singleQuote] := by
    unfold Character.IsCompleteBefore
    split
    · right
      rintro _ ⟨⟩
      rfl
    · rintro _ ⟨⟩
      rfl
    · trivial
  have hall : characters? (u ++ [singleQuote]) = some (cs ++ [last]) := by
    rw [hscan _ hlast, characters?_quote]
    rfl
  refine ⟨encoding, rfl, ?_⟩
  rw [characters_of_kind_eq_none rfl, charactersOfList_append, charactersOfList_map_leaf]
  simp [scan?, hopening, hall, charactersOfList, characters, hcharacters]

/-! ## Parse trees -/

/-- **Every production keeps what nonterminals say of their trees.** -/
theorem reads_nodeOf (r : Part) (p : Production Part UInt8 Form) (hp : p ∈ (rule r).productions)
    (start stop : Nat) (trees : List ConstantTree) (text : Bytes)
    (h : Covers Reads p.symbols trees text) :
    Reads r (grammar.nodeOf r p start stop trees) text := by
  have hplain : ∀ b, isHexDigit b = true → isPlain singleQuote b = true :=
    fun _ => Lexeme.Quoted.isPlain_of_isHexDigit (.inl rfl)
  have hhex : ∀ b, isHexDigit b = false → isOctalDigit b = false := fun b hb =>
    Bool.eq_false_iff.2 fun hoctal => by
      rw [Lexeme.Quoted.isHexDigit_of_isOctalDigit hoctal] at hb
      cases hb
  cases r with
  | constant =>
    simp only [rule, List.mem_cons, List.not_mem_nil, or_false] at hp
    obtain rfl | rfl | rfl | rfl | rfl := hp
    · exact reads_quotedAfter .nil (fun _ => rfl) h
    · exact reads_quotedAfter (.cons rfl .nil) (fun _ => rfl) h
    · exact reads_quotedAfter (.cons rfl (.cons rfl .nil)) (fun _ => rfl) h
    · exact reads_quotedAfter (.cons rfl .nil) (fun _ => rfl) h
    · exact reads_quotedAfter (.cons rfl .nil) (fun _ => rfl) h
  | sequence => exact exists_readsSequence_of_oneOf hp (List.Subset.refl _) h
  | free | afterOctal | afterHex =>
    exact exists_readsSequence_of_sequencesEndingIn hp (by decide) (by decide) h
  | anyCharacter | notOctal | notHex | escapeSequence =>
    exact readsCharacter_of_oneOf hp (by decide) h
  | plain =>
    refine readsCharacter_of_itself hp (fun b hb => ?_) h
    simp_all [isPlain, Character.part, membersOf]
  | plainHex =>
    refine readsCharacter_of_itself hp (fun b hb => ?_) h
    simp_all [Character.part, membersOf]
  | plainOctal =>
    refine readsCharacter_of_itself hp (fun b hb => ?_) h
    have := hplain b (Lexeme.Quoted.isHexDigit_of_isOctalDigit hb)
    simp_all [Character.part, membersOf]
  | escape => exact readsCharacter_of_escape hp h
  | shortOctal => exact readsCharacter_of_shortOctal hp h
  | hex => exact readsCharacter_of_hex hp h
  | hexDigits => exact reads_listNode hp h

end CPreprocessor.CharacterConstant
