import CPreprocessor.Proofs.CharacterConstant.Greedy
import CPreprocessor.Proofs.CharacterConstant.Language

/-!
# Character constants have one derivation

A derivation is known from where it begins and from its characters: the kind and the length of a
character tell its production (`eq_of_characters_of_character`), and the last character of a sequence
tells which sequences it ends (`eq_of_characters_of_ending`). As the characters are those that a scan
finds, a text has at most one derivation as a character constant (`constant_unique`), and at most one
as an escape sequence (`escapeSequence_unique`).
-/

namespace CPreprocessor.CharacterConstant

open Ascii Grammar GrammarSymbol

abbrev ConstantDerivation := Derivation Part UInt8 Form

variable {input : Bytes} {r r' : Part} {p p' : Production Part UInt8 Form}
  {start stop stop' : Nat} {d d' : ConstantDerivation} {children children' : List ConstantDerivation}
  {symbols : List (GrammarSymbol Part UInt8)}

/-- The characters of a derivation. -/
def charactersOf (d : ConstantDerivation) : List Character := characters (grammar.tree d)

theorem tree_node (hr : r ≠ .hexDigits) :
    grammar.tree (.node r p start stop children) =
      .node r p.tag start stop (grammar.treesOfList children) := by
  have hlist : (rule r).isList = false := by cases r <;> first | rfl | exact absurd rfl hr
  rw [tree, if_neg]
  exact Bool.eq_false_iff.1 hlist

/-- What a derivation covers is what its tree reads. -/
theorem exists_reads_of_fits (h : grammar.Fits input [nonterminal r] start stop [d]) :
    ∃ word, Reads r (grammar.tree d) word ∧ stop = start + word.length ∧
      input.drop start = word ++ input.drop stop := by
  obtain ⟨word, hcovers, hstop, hdrop⟩ := exists_covers_of_fits reads_nodeOf h
  obtain ⟨tree, htree, hreads⟩ := covers_nonterminal_singleton_iff.1 hcovers
  obtain rfl := List.head_eq_of_cons_eq htree
  exact ⟨word, hreads, hstop, hdrop⟩

theorem stop_eq_of_fits (h : grammar.Fits input [nonterminal r] start stop [d])
    (h' : grammar.Fits input [nonterminal r'] start stop' [d]) : stop = stop' := by
  cases h with
  | nonterminal _ _ rest =>
    cases rest
    cases h' with
    | nonterminal _ _ rest =>
      cases rest
      rfl

/-! ## Hexadecimal digits -/

/-- Digits are a single one, or digits and one more. -/
theorem digits_cases (h : grammar.Fits input [nonterminal .hexDigits] start stop [d]) :
    (∃ x, input[start]? = some x ∧ stop = start + 1 ∧
      d = .node .hexDigits ⟨.next, [such isHexDigit]⟩ start stop [.leaf x]) ∨
    ∃ d₁ x middle, grammar.Fits input [nonterminal .hexDigits] start middle [d₁] ∧
      start < middle ∧ input[middle]? = some x ∧ stop = middle + 1 ∧
        d = .node .hexDigits ⟨.next, [nonterminal .hexDigits, such isHexDigit]⟩ start stop
          [d₁, .leaf x] := by
  cases h with
  | nonterminal mem first rest =>
    cases rest
    change _ ∈ (rule .hexDigits).productions at mem
    simp only [rule, List.mem_cons, List.not_mem_nil, or_false] at mem
    obtain rfl | rfl := mem
    · cases first with
      | nonterminal mem inner last =>
        have hdigits := Fits.nonterminal mem inner (.nil _)
        cases last with
        | terminal get _ rest =>
          cases rest
          exact .inr ⟨_, _, _, hdigits, hdigits.length_le, get, rfl, rfl⟩
    · cases first with
      | terminal get _ rest =>
        cases rest
        exact .inl ⟨_, get, rfl, rfl⟩

/-- The number of digits tells the derivation. -/
theorem digits_unique (h : grammar.Fits input [nonterminal .hexDigits] start stop [d])
    (h' : grammar.Fits input [nonterminal .hexDigits] start stop [d']) : d = d' := by
  induction stop using Nat.strong_induction_on generalizing d d' with
  | _ stop ih =>
    obtain ⟨x, hx, rfl, rfl⟩ | ⟨d₁, x, middle, h₁, hlt, hx, rfl, rfl⟩ := digits_cases h
    · obtain ⟨x', hx', -, rfl⟩ | ⟨_, _, middle, _, hlt, _, hstop, -⟩ := digits_cases h'
      · rw [Option.some.inj (hx.symm.trans hx')]
      · omega
    · obtain ⟨_, _, hstop, -⟩ | ⟨d₁', x', middle', h₁', _, hx', hstop, rfl⟩ := digits_cases h'
      · omega
      · obtain rfl := Nat.succ.inj hstop
        rw [Option.some.inj (hx.symm.trans hx'), ih middle (Nat.lt_succ_self _) h₁ h₁']

/-! ## Productions -/

def isTerminal : GrammarSymbol Part UInt8 → Bool
  | .terminal _ => true
  | .nonterminal _ => false

theorem filter_eq_nil_of_terminals (h : symbols.all isTerminal = true) :
    symbols.filter (fun s => !isTerminal s) = [] := by
  simpa [List.filter_eq_nil_iff] using h

theorem charactersOfList_of_terminals (h : grammar.Fits input symbols start stop children)
    (hsymbols : symbols.all isTerminal = true) :
    charactersOfList (grammar.treesOfList children) = [] := by
  induction h with
  | nil => rfl
  | terminal _ _ _ ih => exact ih (by simpa [isTerminal] using hsymbols)
  | nonterminal => simp [isTerminal] at hsymbols

/-- Children of a production with one nonterminal at most are known from the characters, if those of
the nonterminal are. -/
theorem eq_of_fits
    (hsymbols : (symbols.filter fun s => !isTerminal s).length ≤ 1)
    (hunique : ∀ q, nonterminal q ∈ symbols → ∀ {start stop stop' d d'},
      grammar.Fits input [nonterminal q] start stop [d] →
        grammar.Fits input [nonterminal q] start stop' [d'] →
          charactersOf d = charactersOf d' → d = d')
    (h : grammar.Fits input symbols start stop children)
    (h' : grammar.Fits input symbols start stop' children')
    (hcharacters : charactersOfList (grammar.treesOfList children) =
      charactersOfList (grammar.treesOfList children')) : children = children' ∧ stop = stop' := by
  induction h generalizing stop' children' with
  | nil =>
    cases h'
    exact ⟨rfl, rfl⟩
  | terminal get _ _ ih =>
    cases h' with
    | terminal get' _ rest' =>
      obtain rfl := Option.some.inj (get.symm.trans get')
      have hrest := ih (by simpa [isTerminal] using hsymbols)
        (fun q hq => hunique q (.tail _ hq)) rest' hcharacters
      exact ⟨congrArg _ hrest.1, hrest.2⟩
  | @nonterminal q _ symbols _ _ _ _ _ mem first rest _ ih =>
    cases h' with
    | nonterminal mem' first' rest' =>
      -- the one nonterminal has all of the characters
      have hterminals : symbols.all isTerminal = true := by
        simpa [isTerminal, List.filter_eq_nil_iff] using hsymbols
      simp only [treesOfList, charactersOfList, charactersOfList_of_terminals rest hterminals,
        charactersOfList_of_terminals rest' hterminals, List.append_nil] at hcharacters
      have hd := hunique q (.head _) (.nonterminal mem first (.nil _))
        (.nonterminal mem' first' (.nil _)) hcharacters
      injection hd with _ hp _ hmiddle hinner
      subst hp hmiddle hinner
      have hnil := filter_eq_nil_of_terminals hterminals
      have hrest := ih (by simp [hnil]) (fun q hq => hunique q (.tail _ hq)) rest' <| by
        rw [charactersOfList_of_terminals rest hterminals,
          charactersOfList_of_terminals rest' hterminals]
      exact ⟨congrArg _ hrest.1, hrest.2⟩

/-! ## Characters -/

/-- The nonterminals of characters whose productions consist of terminals. -/
def spelledParts : List Part := [.plain, .plainHex, .plainOctal, .escape, .shortOctal]

theorem isTerminal_of_mem_spelledParts (hr : r ∈ spelledParts) (hp : p ∈ (rule r).productions) :
    p.symbols.all isTerminal = true := by
  have hcheck : ∀ r ∈ spelledParts, ∀ p ∈ (rule r).productions, p.symbols.all isTerminal = true := by
    decide
  exact hcheck r hr p hp

theorem isSome_kind?_of_mem_spelledParts (hr : r ∈ spelledParts) (hp : p ∈ (rule r).productions) :
    ∃ kind, p.tag.kind? = some kind := by
  have hcheck : ∀ r ∈ spelledParts, ∀ p ∈ (rule r).productions, p.tag.kind?.isSome = true := by
    decide
  exact Option.isSome_iff_exists.1 (hcheck r hr p hp)

/-- The form and the length of such a character tell its production. -/
theorem production_unique (hr : r ∈ spelledParts) (hp : p ∈ (rule r).productions)
    (hp' : p' ∈ (rule r).productions) (htag : p.tag = p'.tag)
    (hlength : p.symbols.length = p'.symbols.length) : p = p' := by
  have hcheck : ∀ r ∈ spelledParts,
      ((rule r).productions.map fun p => (p.tag, p.symbols.length)).Nodup := by decide
  exact List.inj_on_of_nodup_map (hcheck r hr) hp hp' (Prod.ext htag hlength)

theorem Form.kind?_injective {form form' : Form} {kind : CharacterKind}
    (h : form.kind? = some kind) (h' : form'.kind? = some kind) : form = form' := by
  cases form <;> cases h <;> cases form' <;> first | rfl | cases h'

/-- The leaves of derivations from terminals are as many as these. -/
theorem length_of_terminals (h : grammar.Fits input symbols start stop children)
    (hsymbols : symbols.all isTerminal = true) :
    (Tree.leavesOfList (grammar.treesOfList children)).length = symbols.length := by
  induction h with
  | nil => rfl
  | terminal _ _ _ ih =>
    have hrest := ih (by simpa [isTerminal] using hsymbols)
    simp [treesOfList, tree, Tree.leavesOfList, Tree.leaves, hrest]
  | nonterminal => simp [isTerminal] at hsymbols

theorem eq_of_characters_of_spelled (hr : r ∈ spelledParts)
    (h : grammar.Fits input [nonterminal r] start stop [d])
    (h' : grammar.Fits input [nonterminal r] start stop' [d'])
    (hcharacters : charactersOf d = charactersOf d') : d = d' := by
  have hlist : r ≠ .hexDigits := by
    rintro rfl
    exact absurd hr (by decide)
  cases h with
  | @nonterminal _ p _ _ _ _ _ _ mem first rest =>
    cases rest
    cases h' with
    | @nonterminal _ p' _ _ _ _ _ _ mem' first' rest' =>
      cases rest'
      obtain ⟨kind, hkind⟩ := isSome_kind?_of_mem_spelledParts hr mem
      obtain ⟨kind', hkind'⟩ := isSome_kind?_of_mem_spelledParts hr mem'
      have hsymbols := isTerminal_of_mem_spelledParts hr mem
      have hsymbols' := isTerminal_of_mem_spelledParts hr mem'
      simp only [charactersOf, tree_node hlist, characters_of_kind hkind,
        characters_of_kind hkind', List.cons.injEq, Character.mk.injEq, and_true] at hcharacters
      obtain ⟨rfl, hleaves⟩ := hcharacters
      obtain rfl := production_unique hr mem mem' (Form.kind?_injective hkind hkind') <| by
        rw [← length_of_terminals first hsymbols, hleaves, length_of_terminals first' hsymbols']
      have hnil := filter_eq_nil_of_terminals hsymbols
      obtain ⟨rfl, rfl⟩ := eq_of_fits (by simp [hnil])
        (fun q hq => nomatch List.all_eq_true.1 hsymbols _ hq) first first' <| by
          rw [charactersOfList_of_terminals first hsymbols,
            charactersOfList_of_terminals first' hsymbols]
      rfl

theorem stop_eq_of_characters (hr : r ∈ characterParts)
    (h : grammar.Fits input [nonterminal r] start stop [d])
    (h' : grammar.Fits input [nonterminal r] start stop' [d'])
    (hcharacters : charactersOf d = charactersOf d') : stop = stop' := by
  obtain ⟨word, hreads, rfl, -⟩ := exists_reads_of_fits h
  obtain ⟨word', hreads', rfl, -⟩ := exists_reads_of_fits h'
  obtain ⟨c, hc, rfl, -⟩ := reads_of_mem_characterParts hr hreads
  obtain ⟨c', hc', rfl, -⟩ := reads_of_mem_characterParts hr hreads'
  rw [List.head_eq_of_cons_eq (hc.symm.trans (hcharacters.trans hc'))]

theorem exists_of_fits_hex (h : grammar.Fits input [nonterminal .hex] start stop [d]) :
    ∃ d₁, grammar.Fits input [nonterminal .hexDigits] (start + 2) stop [d₁] ∧
      d = .node .hex ⟨.hex, [spelled "\\", spelled "x", nonterminal .hexDigits]⟩ start stop
        [.leaf backslash, .leaf lowerX, d₁] := by
  cases h with
  | nonterminal mem first rest =>
    cases rest
    obtain rfl := List.mem_singleton.1 mem
    cases first with
    | terminal _ haccepts rest =>
      obtain rfl := (accepts_spelled (b := backslash) (by decide)).1 haccepts
      cases rest with
      | terminal _ haccepts rest =>
        obtain rfl := (accepts_spelled (b := lowerX) (by decide)).1 haccepts
        cases rest with
        | nonterminal mem inner last =>
          cases last
          exact ⟨_, .nonterminal mem inner (.nil _), rfl⟩

theorem eq_of_characters_of_hex (h : grammar.Fits input [nonterminal .hex] start stop [d])
    (h' : grammar.Fits input [nonterminal .hex] start stop' [d'])
    (hcharacters : charactersOf d = charactersOf d') : d = d' := by
  obtain rfl := stop_eq_of_characters (by decide) h h' hcharacters
  obtain ⟨d₁, h₁, rfl⟩ := exists_of_fits_hex h
  obtain ⟨d₁', h₁', rfl⟩ := exists_of_fits_hex h'
  rw [digits_unique h₁ h₁']

/-- The production of a part that stands for the whole. -/
theorem exists_of_fits_oneOf {parts : List Part} (hrule : (rule r).productions = oneOf parts)
    (h : grammar.Fits input [nonterminal r] start stop [d]) :
    ∃ q ∈ parts, ∃ d₁, grammar.Fits input [nonterminal q] start stop [d₁] ∧
      d = .node r ⟨.next, [nonterminal q]⟩ start stop [d₁] := by
  cases h with
  | nonterminal mem first rest =>
    cases rest
    change _ ∈ (rule r).productions at mem
    rw [hrule] at mem
    obtain ⟨q, hq, rfl⟩ := List.mem_map.1 mem
    cases first with
    | nonterminal mem inner last =>
      cases last
      exact ⟨q, hq, _, .nonterminal mem inner (.nil _), rfl⟩

theorem charactersOf_next {q : Part} (hr : r ≠ .hexDigits) :
    charactersOf (.node r ⟨.next, [nonterminal q]⟩ start stop [d]) = charactersOf d := by
  rw [charactersOf, tree_node hr, characters_of_kind_eq_none rfl, treesOfList, treesOfList,
    charactersOfList_singleton, charactersOf]

/-- The character tells which of its parts a nonterminal stands for. -/
theorem eq_of_characters_of_oneOf {parts : List Part} (hrule : (rule r).productions = oneOf parts)
    (hr : r ≠ .hexDigits) (hparts : ∀ q ∈ parts, q ∈ .hex :: spelledParts)
    (h : grammar.Fits input [nonterminal r] start stop [d])
    (h' : grammar.Fits input [nonterminal r] start stop' [d'])
    (hcharacters : charactersOf d = charactersOf d') : d = d' := by
  have hmembers : ∀ q ∈ Part.hex :: spelledParts, q ∈ characterParts ∧ membersOf q = [q] := by decide
  obtain ⟨q, hq, d₁, h₁, rfl⟩ := exists_of_fits_oneOf hrule h
  obtain ⟨q', hq', d₁', h₁', rfl⟩ := exists_of_fits_oneOf hrule h'
  rw [charactersOf_next hr, charactersOf_next hr] at hcharacters
  obtain ⟨word, hreads, -⟩ := exists_reads_of_fits h₁
  obtain ⟨word', hreads', -⟩ := exists_reads_of_fits h₁'
  obtain ⟨hmem, hself⟩ := hmembers q (hparts q hq)
  obtain ⟨hmem', hself'⟩ := hmembers q' (hparts q' hq')
  obtain ⟨c, hc, -, -, hpart⟩ := reads_of_mem_characterParts hmem hreads
  obtain ⟨c', hc', -, -, hpart'⟩ := reads_of_mem_characterParts hmem' hreads'
  obtain rfl := List.head_eq_of_cons_eq (hc.symm.trans (hcharacters.trans hc'))
  rw [hself, List.mem_singleton] at hpart
  rw [hself', List.mem_singleton] at hpart'
  obtain rfl : q = q' := hpart.symm.trans hpart'
  obtain rfl := stop_eq_of_characters hmem h₁ h₁' hcharacters
  obtain rfl | hspelled := List.mem_cons.1 (hparts q hq)
  · rw [eq_of_characters_of_hex h₁ h₁' hcharacters]
  · rw [eq_of_characters_of_spelled hspelled h₁ h₁' hcharacters]

/-- **A character is known from where it begins and how it is written.** -/
theorem eq_of_characters_of_character (hr : r ∈ characterParts)
    (h : grammar.Fits input [nonterminal r] start stop [d])
    (h' : grammar.Fits input [nonterminal r] start stop' [d'])
    (hcharacters : charactersOf d = charactersOf d') : d = d' := by
  cases r with
  | plain | plainHex | plainOctal | escape | shortOctal =>
    exact eq_of_characters_of_spelled (by decide) h h' hcharacters
  | hex => exact eq_of_characters_of_hex h h' hcharacters
  | anyCharacter | notOctal | notHex | escapeSequence =>
    refine eq_of_characters_of_oneOf rfl ?_ ?_ h h' hcharacters <;> decide
  | constant | sequence | free | afterOctal | afterHex | hexDigits => exact absurd hr (by decide)

/-! ## Sequences -/

/-- The nonterminals of sequences, by how they end. -/
def endings : List Part := [.free, .afterOctal, .afterHex]

/-- The nonterminal of the last character of a sequence, if it is the only one. -/
def firstOf : Part → Part
  | .afterOctal => .shortOctal
  | .afterHex => .hex
  | _ => .anyCharacter

/-- The nonterminal of the last character of a sequence behind another one. -/
def lastOf (r before : Part) : Part :=
  match r, before with
  | .free, .afterOctal => .notOctal
  | .free, .afterHex => .notHex
  | r, _ => firstOf r

theorem productions_of_mem_endings (hr : r ∈ endings) :
    (rule r).productions =
      sequencesEndingIn (firstOf r) (endings.map fun before => (before, lastOf r before)) := by
  simp only [endings, List.mem_cons, List.not_mem_nil, or_false] at hr
  obtain rfl | rfl | rfl := hr <;> rfl

/-- A sequence is a character, or a sequence and one more character. -/
theorem exists_of_fits_ending (hr : r ∈ endings)
    (h : grammar.Fits input [nonterminal r] start stop [d]) :
    (∃ d₁, grammar.Fits input [nonterminal (firstOf r)] start stop [d₁] ∧
      d = .node r ⟨.first, [nonterminal (firstOf r)]⟩ start stop [d₁]) ∨
    ∃ before ∈ endings, ∃ d₁ d₂ middle,
      grammar.Fits input [nonterminal before] start middle [d₁] ∧
        grammar.Fits input [nonterminal (lastOf r before)] middle stop [d₂] ∧
          d = .node r ⟨.more, [nonterminal before, nonterminal (lastOf r before)]⟩ start stop
            [d₁, d₂] := by
  cases h with
  | nonterminal mem first rest =>
    cases rest
    change _ ∈ (rule r).productions at mem
    rw [productions_of_mem_endings hr] at mem
    obtain rfl | mem := List.mem_cons.1 mem
    · cases first with
      | nonterminal mem inner last =>
        cases last
        exact .inl ⟨_, .nonterminal mem inner (.nil _), rfl⟩
    · simp only [List.map_map, List.mem_map, Function.comp_apply] at mem
      obtain ⟨before, hbefore, rfl⟩ := mem
      cases first with
      | nonterminal mem inner last =>
        cases last with
        | nonterminal mem' inner' nil =>
          cases nil
          exact .inr ⟨before, hbefore, _, _, _, .nonterminal mem inner (.nil _),
            .nonterminal mem' inner' (.nil _), rfl⟩

theorem firstOf_mem_characterParts (hr : r ∈ endings) : firstOf r ∈ characterParts := by
  have hcheck : ∀ r ∈ endings, firstOf r ∈ characterParts := by decide
  exact hcheck r hr

theorem lastOf_mem_characterParts {before : Part} (hr : r ∈ endings) (hbefore : before ∈ endings) :
    lastOf r before ∈ characterParts := by
  have hcheck : ∀ r ∈ endings, ∀ before ∈ endings, lastOf r before ∈ characterParts := by decide
  exact hcheck r hr before hbefore

theorem ne_hexDigits_of_mem_endings (hr : r ∈ endings) : r ≠ .hexDigits := by
  rintro rfl
  exact absurd hr (by decide)

theorem charactersOf_first (hr : r ∈ endings) {q : Part} :
    charactersOf (.node r ⟨.first, [nonterminal q]⟩ start stop [d]) = charactersOf d := by
  rw [charactersOf, tree_node (ne_hexDigits_of_mem_endings hr), characters_of_kind_eq_none rfl,
    treesOfList, treesOfList, charactersOfList_singleton, charactersOf]

theorem charactersOf_more (hr : r ∈ endings) {q q' : Part} :
    charactersOf (.node r ⟨.more, [nonterminal q, nonterminal q']⟩ start stop [d, d']) =
      charactersOf d ++ charactersOf d' := by
  rw [charactersOf, tree_node (ne_hexDigits_of_mem_endings hr), characters_of_kind_eq_none rfl,
    treesOfList, treesOfList, treesOfList, charactersOfList, charactersOfList_singleton,
    charactersOf, charactersOf]

/-- A character of a derivation stands alone. -/
theorem exists_charactersOf_eq (hr : r ∈ characterParts)
    (h : grammar.Fits input [nonterminal r] start stop [d]) : ∃ c, charactersOf d = [c] := by
  obtain ⟨word, hreads, -⟩ := exists_reads_of_fits h
  obtain ⟨c, hc, -⟩ := reads_of_mem_characterParts hr hreads
  exact ⟨c, hc⟩

/-- The last character of a sequence says how it ends. -/
theorem exists_charactersOf_eq_append (hr : r ∈ endings)
    (h : grammar.Fits input [nonterminal r] start stop [d]) :
    ∃ before last, charactersOf d = before ++ [last] ∧ sequenceEnding last.part = r := by
  obtain ⟨word, hreads, -⟩ := exists_reads_of_fits h
  obtain ⟨before, last, ⟨hcharacters, -⟩, hending⟩ := exists_readsSequence hr hreads
  exact ⟨before, last, hcharacters, hending⟩

theorem ending_unique (hr : r ∈ endings) (hr' : r' ∈ endings)
    (h : grammar.Fits input [nonterminal r] start stop [d])
    (h' : grammar.Fits input [nonterminal r'] start stop' [d'])
    (hcharacters : charactersOf d = charactersOf d') : r = r' := by
  obtain ⟨before, last, hd, rfl⟩ := exists_charactersOf_eq_append hr h
  obtain ⟨before', last', hd', rfl⟩ := exists_charactersOf_eq_append hr' h'
  rw [hd, hd'] at hcharacters
  rw [List.singleton_injective (List.append_inj' hcharacters rfl).2]

/-- A single character is not as much as a sequence and one more. -/
theorem ne_of_fits_more {before : Part} {start' middle : Nat} {d₁ d₂ : ConstantDerivation}
    (hr : r ∈ endings) (hbefore : before ∈ endings)
    (h : grammar.Fits input [nonterminal (firstOf r)] start stop [d])
    (h₁ : grammar.Fits input [nonterminal before] start' middle [d₁])
    (h₂ : grammar.Fits input [nonterminal (lastOf r before)] middle stop' [d₂]) :
    charactersOf d ≠ charactersOf d₁ ++ charactersOf d₂ := by
  obtain ⟨c, hc⟩ := exists_charactersOf_eq (firstOf_mem_characterParts hr) h
  obtain ⟨cs, last, hcs, -⟩ := exists_charactersOf_eq_append hbefore h₁
  obtain ⟨c₂, hc₂⟩ := exists_charactersOf_eq (lastOf_mem_characterParts hr hbefore) h₂
  intro heq
  have hlength := congrArg List.length heq
  simp [hc, hcs, hc₂] at hlength

/-- **A sequence is known from where it begins and its characters.** -/
theorem eq_of_characters_of_ending (hr : r ∈ endings)
    (h : grammar.Fits input [nonterminal r] start stop [d])
    (h' : grammar.Fits input [nonterminal r] start stop' [d'])
    (hcharacters : charactersOf d = charactersOf d') : d = d' := by
  induction hn : (charactersOf d).length generalizing r stop stop' d d' with
  | zero =>
    obtain ⟨before, last, hd, -⟩ := exists_charactersOf_eq_append hr h
    simp [hd] at hn
  | succ n ih =>
    obtain ⟨d₁, h₁, rfl⟩ | ⟨before, hbefore, d₁, d₂, middle, h₁, h₂, rfl⟩ :=
        exists_of_fits_ending hr h <;>
      obtain ⟨d₁', h₁', rfl⟩ | ⟨before', hbefore', d₁', d₂', middle', h₁', h₂', rfl⟩ :=
        exists_of_fits_ending hr h' <;>
      simp only [charactersOf_first hr, charactersOf_more hr] at hcharacters hn
    · have hmem := firstOf_mem_characterParts hr
      obtain rfl := stop_eq_of_characters hmem h₁ h₁' hcharacters
      rw [eq_of_characters_of_character hmem h₁ h₁' hcharacters]
    · exact absurd hcharacters (ne_of_fits_more hr hbefore' h₁ h₁' h₂')
    · exact absurd hcharacters.symm (ne_of_fits_more hr hbefore h₁' h₁ h₂)
    · have hmem := lastOf_mem_characterParts hr hbefore
      obtain ⟨c, hc⟩ := exists_charactersOf_eq hmem h₂
      obtain ⟨c', hc'⟩ := exists_charactersOf_eq (lastOf_mem_characterParts hr hbefore') h₂'
      rw [hc, hc'] at hcharacters
      obtain ⟨hbegin, hlast⟩ := List.append_inj' hcharacters rfl
      obtain rfl := ending_unique hbefore hbefore' h₁ h₁' hbegin
      obtain rfl := ih hbefore h₁ h₁' hbegin (by simpa [hc] using hn)
      obtain rfl := stop_eq_of_fits h₁ h₁'
      replace hlast : charactersOf d₂ = charactersOf d₂' := by rw [hc, hc', hlast]
      obtain rfl := stop_eq_of_characters hmem h₂ h₂' hlast
      rw [eq_of_characters_of_character hmem h₂ h₂' hlast]

theorem eq_of_characters_of_sequence (h : grammar.Fits input [nonterminal .sequence] start stop [d])
    (h' : grammar.Fits input [nonterminal .sequence] start stop' [d'])
    (hcharacters : charactersOf d = charactersOf d') : d = d' := by
  obtain ⟨q, hq, d₁, h₁, rfl⟩ := exists_of_fits_oneOf rfl h
  obtain ⟨q', hq', d₁', h₁', rfl⟩ := exists_of_fits_oneOf rfl h'
  rw [charactersOf_next (by decide), charactersOf_next (by decide)] at hcharacters
  obtain rfl := ending_unique hq hq' h₁ h₁' hcharacters
  obtain rfl := eq_of_characters_of_ending hq h₁ h₁' hcharacters
  obtain rfl := stop_eq_of_fits h₁ h₁'
  rfl

/-! ## Constants -/

/-- A derivation of all of the input. -/
theorem reads_of_fits (h : grammar.Fits input [nonterminal r] 0 input.length [d]) :
    Reads r (grammar.tree d) input := by
  obtain ⟨word, hreads, -, hdrop⟩ := exists_reads_of_fits h
  rw [List.drop_zero, List.drop_length, List.append_nil] at hdrop
  rwa [hdrop]

theorem of_mem_quoted (hp : p ∈ (rule .constant).productions) :
    (p.symbols.filter fun s => !isTerminal s).length ≤ 1 ∧
      ∀ q, nonterminal q ∈ p.symbols → q = .sequence := by
  simp only [rule, List.mem_cons, List.not_mem_nil, or_false] at hp
  obtain rfl | rfl | rfl | rfl | rfl := hp <;>
    exact ⟨by decide, by simp [quotedAfter, spelled]⟩

/-- The encoding tells the production of a constant. -/
theorem quoted_unique {encoding : Encoding} (hp : p ∈ (rule .constant).productions)
    (hp' : p' ∈ (rule .constant).productions) (h : p.tag = .constant encoding)
    (h' : p'.tag = .constant encoding) : p = p' := by
  have hcheck : ((rule .constant).productions.map (·.tag)).Nodup := by decide
  exact List.inj_on_of_nodup_map hcheck hp hp' (h.trans h'.symm)

/-- **A text has at most one derivation as a character constant.** -/
theorem constant_unique (h : grammar.Fits input [nonterminal .constant] 0 input.length [d])
    (h' : grammar.Fits input [nonterminal .constant] 0 input.length [d']) : d = d' := by
  obtain ⟨encoding, hencoding, hscan⟩ := reads_of_fits h
  obtain ⟨encoding', hencoding', hscan'⟩ := reads_of_fits h'
  obtain ⟨rfl, hcharacters⟩ := Prod.mk.inj (Option.some.inj (hscan.symm.trans hscan'))
  cases h with
  | nonterminal mem first rest =>
    cases rest
    cases h' with
    | nonterminal mem' first' rest' =>
      cases rest'
      rw [tree_node (by decide)] at hencoding hencoding' hcharacters
      rw [tree_node (by decide)] at hcharacters
      have htag := encoding?_eq_some_iff.1 hencoding
      have htag' := encoding?_eq_some_iff.1 hencoding'
      obtain rfl := quoted_unique mem mem' htag htag'
      rw [htag, characters_of_kind_eq_none rfl, characters_of_kind_eq_none rfl] at hcharacters
      obtain ⟨hsymbols, hsequence⟩ := of_mem_quoted mem
      obtain ⟨rfl, -⟩ := eq_of_fits hsymbols (fun q hq => hsequence q hq ▸
        eq_of_characters_of_sequence) first first' hcharacters
      rfl

/-! ## Escape sequences -/

theorem kind_ne_plain {c : Character} (h : c.part ∈ membersOf .escapeSequence) :
    c.kind ≠ .plain := by
  intro hkind
  simp only [Character.part, hkind] at h
  split_ifs at h <;> exact absurd h (by decide)

/-- An escape sequence is the first character of its text. -/
theorem charactersOf_escapeSequence
    (h : grammar.Fits input [nonterminal .escapeSequence] 0 input.length [d]) :
    ∃ c : Character, charactersOf d = [c] ∧ character? input = some c ∧ c.spelling = input ∧
      c.kind ≠ .plain ∧ c.IsWritten := by
  obtain ⟨c, hcharacters, rfl, hc, hpart⟩ := reads_of_fits h
  exact ⟨c, hcharacters, character?_spelling hc, rfl, kind_ne_plain hpart, hc⟩

/-- **A text has at most one derivation as an escape sequence.** -/
theorem escapeSequence_unique
    (h : grammar.Fits input [nonterminal .escapeSequence] 0 input.length [d])
    (h' : grammar.Fits input [nonterminal .escapeSequence] 0 input.length [d']) : d = d' := by
  obtain ⟨c, hd, hc, -⟩ := charactersOf_escapeSequence h
  obtain ⟨c', hd', hc', -⟩ := charactersOf_escapeSequence h'
  obtain rfl := Option.some.inj (hc.symm.trans hc')
  exact eq_of_characters_of_character (by decide) h h' (hd.trans hd'.symm)

/-- What is derived as an escape sequence is a character. -/
theorem exists_isWritten_of_derivesFrom {word : Bytes}
    (h : grammar.DerivesFrom .escapeSequence word) :
    ∃ c : Character, c.IsWritten ∧ c.spelling = word := by
  obtain ⟨d, hd, -⟩ := exists_fits h
  obtain ⟨c, -, -, hspelling, -, hc⟩ := charactersOf_escapeSequence hd
  exact ⟨c, hc, hspelling⟩

/-- What can be compared of a symbol. -/
def shapeOf : GrammarSymbol Part UInt8 → Option (Part ⊕ Bytes)
  | nonterminal r => some (.inl r)
  | terminal (.literal word) => some (.inr word)
  | terminal (.satisfying _) => none

/-- A derivation tells its production by the tag and the symbols, which no two of a rule share. -/
theorem nodup_productions (r : Part) : (rule r).productions.Nodup := by
  have hcheck : ∀ r ∈ parts,
      ((rule r).productions.map fun p => (p.tag, p.symbols.map shapeOf)).Nodup := by
    decide +kernel
  exact List.Nodup.of_map _ (hcheck r (mem_parts r))

/-- **Every text has one parse at most, and it is the greedy one.** The characters of a constant are
those of a scan from left to right, which takes the longest escape sequence everywhere. -/
theorem constant_unambiguous_greedy (text : Bytes) :
    (∀ d, grammar.Fits text [nonterminal .constant] 0 text.length [d] →
      (∀ d', grammar.Fits text [nonterminal .constant] 0 text.length [d'] → d' = d) ∧
        grammar.parse .constant text = some (grammar.tree d) ∧
          ∃ encoding, encoding? (grammar.tree d) = some encoding ∧
            scan? text = some (encoding, charactersOf d)) ∧
    ((scan? text).isSome → ∃ d, grammar.Fits text [nonterminal .constant] 0 text.length [d]) ∧
    (∀ d, grammar.Fits text [nonterminal .escapeSequence] 0 text.length [d] →
      (∀ d', grammar.Fits text [nonterminal .escapeSequence] 0 text.length [d'] → d' = d) ∧
        grammar.parse .escapeSequence text = some (grammar.tree d) ∧
          ∃ c, charactersOf d = [c] ∧ character? text = some c ∧ c.spelling = text) ∧
    (∀ c, character? text = some c → c.spelling = text → c.kind ≠ .plain →
      ∃ d, grammar.Fits text [nonterminal .escapeSequence] 0 text.length [d]) ∧
    (∀ c, character? text = some c → c.spelling <+: text ∧
      ∀ word, word <+: text → grammar.DerivesFrom .escapeSequence word →
        word.length ≤ c.spelling.length) ∧
    ∀ r, (rule r).productions.Nodup := by
  refine ⟨fun d hd => ⟨fun _ hd' => constant_unique hd' hd, ?_, reads_of_fits hd⟩, fun h => ?_,
    fun d hd => ⟨fun _ hd' => escapeSequence_unique hd' hd, ?_, ?_⟩,
    fun c hc hspelling hkind => ?_, fun c hc => ?_, nodup_productions⟩
  · exact parse_eq_of_unique hd fun _ hd' => constant_unique hd' hd
  · obtain ⟨⟨encoding, cs⟩, hscan⟩ := Option.isSome_iff_exists.1 h
    obtain ⟨d, hd, -⟩ := exists_fits (derivesFrom_of_scan? hscan)
    exact ⟨d, hd⟩
  · exact parse_eq_of_unique hd fun _ hd' => escapeSequence_unique hd' hd
  · obtain ⟨c, hcharacters, hc, hspelling, -⟩ := charactersOf_escapeSequence hd
    exact ⟨c, hcharacters, hc, hspelling⟩
  · obtain ⟨-, -, hwritten, -⟩ := character?_eq_some_iff.1 hc
    obtain ⟨d, hd, -⟩ := exists_fits (hspelling ▸ derivesFrom_escapeSequence hwritten hkind)
    exact ⟨d, hd⟩
  · obtain ⟨v, rfl, -, -⟩ := character?_eq_some_iff.1 hc
    refine ⟨List.prefix_append _ _, fun word hword hderives => ?_⟩
    obtain ⟨v', hv'⟩ := hword
    obtain ⟨c', hc', rfl⟩ := exists_isWritten_of_derivesFrom hderives
    exact length_le_of_character? hc hc' hv'

/-- A fourth octal digit stands for itself, and so does a letter that is no hexadecimal digit. -/
example : scan? (Bytes.ofString "L'\\1234\\x4fg'") =
    some (.wide, [⟨.octal, Bytes.ofString "\\123"⟩, ⟨.plain, Bytes.ofString "4"⟩,
      ⟨.hex, Bytes.ofString "\\x4f"⟩, ⟨.plain, Bytes.ofString "g"⟩]) := by
  decide +kernel

end CPreprocessor.CharacterConstant
