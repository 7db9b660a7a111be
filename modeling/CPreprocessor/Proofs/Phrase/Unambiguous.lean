import CPreprocessor.Proofs.Grammar.LeftCorner
import CPreprocessor.Proofs.Lexeme.Adjacent
import CPreprocessor.Proofs.Phrase.Level
import CPreprocessor.Proofs.Phrase.TypeName
import CPreprocessor.Proofs.Token
import Mathlib.Tactic.IntervalCases

/-!
# Constant expressions have one derivation

Expressions can be read from the left corner (`prediction`). The word behind a corner and the
lookahead tell the production, and the levels of the word tell whether the corner ends before it.
So the tokens have at most one derivation from a constant expression, and the parse tree is the tree
of that.

This is not true of identifiers that read as punctuators, but no text contains such a token.
-/

namespace CPreprocessor.Phrase

open Grammar GrammarSymbol Nonterminal

/-- No identifier reads as a punctuator. -/
def WellKinded (input : List Token) : Prop :=
  ∀ t ∈ input, t.kind = .identifier → t.text ∉ Lexeme.punctuators

instance (input : List Token) : Decidable (WellKinded input) :=
  inferInstanceAs (Decidable (∀ t ∈ input, t.kind = .identifier → t.text ∉ Lexeme.punctuators))

/-- Identifiers are spelled as such in texts, and in what macro expansion makes of these. -/
theorem wellKinded_of_isProper {input : List Token} (h : ∀ t ∈ input, t.IsProper) :
    WellKinded input := by
  intro t ht hkind hpunctuator
  have hmem : t.text ∈ t.kind.language := (h t ht).mem (by simp [hkind])
  rw [hkind] at hmem
  cases htext : t.text with
  | nil =>
    rw [htext] at hpunctuator
    exact absurd hpunctuator (by decide)
  | cons b rest =>
    rw [htext] at hmem hpunctuator
    obtain ⟨hword, -, hbackslash, -⟩ := Lexeme.head_of_mem_punctuators hpunctuator
    obtain hb | rfl := Lexeme.head_of_mem_identifiers hmem
    · rw [Lexeme.isWord_of_isNondigit hb] at hword
      contradiction
    · exact hbackslash rfl

/-! ## Words -/

variable {input : List Token} {t : Token} {word : Bytes} {k start stop : Nat}

/-- What a token reads as if it is an identifier or a punctuator. -/
def wordOf (t : Token) : Option Bytes :=
  if t.kind = .identifier || t.kind = .punctuator then some t.canonical else none

theorem isSpelled_iff : t.isSpelled word = true ↔ wordOf t = some word := by
  simp [Token.isSpelled, wordOf]

theorem wordOf_of_isTypeSpecifier (h : t.isTypeSpecifier = true) :
    ∃ word ∈ Token.typeSpecifiers, wordOf t = some word := by
  obtain ⟨hkind, htext⟩ := isTypeSpecifier_iff.1 h
  exact ⟨t.text, htext, by simp [wordOf, Token.canonical, hkind]⟩

/-- No operand reads as a reserved word. -/
theorem operand?_eq_none (ht : t.kind = .identifier → t.text ∉ Lexeme.punctuators)
    (hword : wordOf t = some word) (hreserved : isReserved word = true) : operand? t = none := by
  simp only [wordOf, Bool.or_eq_true, decide_eq_true_eq, Option.ite_none_right_eq_some,
    Option.some.injEq] at hword
  obtain ⟨hkind, rfl⟩ := hword
  have hoperand : t.isOperand = false := by
    cases hkind with
    | inl hkind =>
      have htext : t.canonical = t.text := by simp [Token.canonical, hkind]
      have hkeyword : t.text = Bytes.ofString "sizeof" ∨ t.text = Bytes.ofString "_Alignof" := by
        simpa [isReserved, htext, ht hkind] using hreserved
      rcases hkeyword with hkeyword | hkeyword <;>
        simp [Token.isOperand, Token.isKeyword, Token.isIdentifier, hkind, hkeyword]
    | inr hkind => simp [Token.isOperand, Token.isIdentifier, hkind]
  obtain hkind | hkind := hkind <;>
    simp [operand?, hoperand, Token.isNumber, Token.isCharacter, Token.isString, hkind]

theorem isTypeSpecifier_eq_false (h : operand? t ≠ none) : t.isTypeSpecifier = false := by
  refine Bool.eq_false_iff.2 fun hspecifier => h ?_
  have hkind := (isTypeSpecifier_iff.1 hspecifier).1
  simp [operand?, Token.isOperand, Token.isKeyword, hspecifier, Token.isNumber, Token.isCharacter,
    Token.isString, hkind]

/-- The word at a position. -/
def wordAt (input : List Token) (k : Nat) : Option Bytes := input[k]?.bind wordOf

/-- The lookahead at a position. -/
def aheadAt (input : List Token) (k : Nat) : Lookahead := .ofTokens (input.drop k)

theorem drop_of_getElem? (h : input[k]? = some t) : input.drop k = t :: input.drop (k + 1) := by
  rw [List.drop_eq_getElem?_toList_append, h]
  rfl

/-! ## What is ahead of a derivation -/

namespace Lookahead

variable {rest : List Token} {symbols : Symbols}

theorem ofTokens_of_close (h : wordOf t = some (Bytes.ofString ")")) :
    ofTokens (t :: rest) = close := by
  rw [ofTokens, if_pos (isSpelled_iff.2 h)]

theorem ofTokens_of_specifier (h : t.isTypeSpecifier = true) :
    ofTokens (t :: rest) = specifier := by
  have hclose : ¬ t.isSpelled (Bytes.ofString ")") = true := by
    rw [isSpelled_close_eq_false (.inl h)]
    exact Bool.false_ne_true
  rw [ofTokens, if_neg hclose, if_pos h]

theorem ofTokens_eq_specifier_iff :
    ofTokens rest = specifier ↔ rest.head?.any Token.isTypeSpecifier = true := by
  cases rest with
  | nil => simp [ofTokens]
  | cons t rest =>
    rw [List.head?_cons, Option.any_some]
    refine ⟨fun h => ?_, ofTokens_of_specifier⟩
    by_contra hspecifier
    simp only [ofTokens, if_neg hspecifier] at h
    grind

/-- Besides a closing parenthesis and a specifier, only an open parenthesis matters. -/
theorem ofTokens_of_ne (hclose : wordOf t ≠ some (Bytes.ofString ")"))
    (hspecifier : t.isTypeSpecifier = false) :
    ofTokens (t :: rest) =
      if wordOf t = some (Bytes.ofString "(") ∧ ofTokens rest = specifier then openSpecifier
      else other := by
  rw [ofTokens, if_neg (mt isSpelled_iff.1 hclose), if_neg (by simp [hspecifier])]
  simp only [Bool.and_eq_true, isSpelled_iff, ofTokens_eq_specifier_iff]

theorem allows_open (ht : wordOf t = some (Bytes.ofString "("))
    (hrest : (ofTokens rest).allows symbols = true) :
    (ofTokens (t :: rest)).allows (spelled "(" :: symbols) = true := by
  have hclose : wordOf t ≠ some (Bytes.ofString ")") := by
    rw [ht]
    decide
  have hspecifier : t.isTypeSpecifier = false := by
    refine Bool.eq_false_iff.2 fun hspecifier => ?_
    obtain ⟨word, hmem, hword⟩ := wordOf_of_isTypeSpecifier hspecifier
    obtain rfl := Option.some.inj (ht.symm.trans hword)
    exact absurd hmem (by decide)
  match symbols with
  | [] => rfl
  | terminal _ :: _ => rfl
  | nonterminal r :: symbols =>
    have hcheck : ∀ ahead ∈ all, ∀ r ∈ nonterminals, ahead.allows [nonterminal r] = true →
        (if ahead = specifier then openSpecifier else other).allows [spelled "(", nonterminal r] =
          true := by decide +kernel
    rw [ofTokens_of_ne hclose hspecifier]
    simp only [ht, true_and]
    exact hcheck _ (mem_all _) r (mem_nonterminals r) hrest

/-- A word and what some symbols derive can begin what the word and the symbols derive. -/
theorem allows_literal (ht : wordOf t = some word)
    (hrest : (ofTokens rest).allows symbols = true) :
    (ofTokens (t :: rest)).allows (terminal (.literal word) :: symbols) = true := by
  by_cases hclose : word = Bytes.ofString ")"
  · rw [hclose] at ht
    simp [allows, hclose, ofTokens_of_close ht]
  by_cases hopen : word = Bytes.ofString "("
  · subst hopen
    exact allows_open ht hrest
  by_cases hspecifier : t.isTypeSpecifier = true
  · obtain ⟨word', hmem, hword'⟩ := wordOf_of_isTypeSpecifier hspecifier
    obtain rfl := Option.some.inj (ht.symm.trans hword')
    simp [allows, hclose, hopen, hmem]
  · have hne : wordOf t ≠ some (Bytes.ofString ")") := by simpa [ht] using hclose
    rw [ofTokens_of_ne hne (by simpa using hspecifier), if_neg (by simp [ht, hopen])]
    simp [allows, hclose, hopen]

theorem ofTokens_of_operand (ht : t.kind = .identifier → t.text ∉ Lexeme.punctuators)
    (h : operand? t ≠ none) : ofTokens (t :: rest) = other := by
  have hne (spelling : String) (hreserved : isReserved (Bytes.ofString spelling) = true) :
      wordOf t ≠ some (Bytes.ofString spelling) :=
    fun hword => h (operand?_eq_none ht hword hreserved)
  rw [ofTokens_of_ne (hne ")" (by decide)) (isTypeSpecifier_eq_false h),
    if_neg fun hopen => hne "(" (by decide) hopen.1]

end Lookahead

/-- An expression that begins with an operand can have anything around it. -/
theorem allows_of_operand {r : Nonterminal} (hr : r ∈ expressions) {symbols : Symbols} :
    Lookahead.other.allows (nonterminal r :: symbols) = true := by
  have hcheck : ∀ r ∈ expressions, Lookahead.other.allows [nonterminal r] = true := by decide
  exact hcheck r hr

/-- What a production of an expression derives looks like the expression. -/
theorem allows_expression (hinput : WellKinded input) {r : Nonterminal} (hr : r ∈ expressions)
    {p : Production Nonterminal Token Tag} (hp : p ∈ (rule r).productions)
    {children : List (Derivation Nonterminal Token Tag)}
    (h : grammar.Fits input p.symbols start stop children)
    (hahead : (aheadAt input start).allows p.symbols = true) {symbols : Symbols} :
    (aheadAt input start).allows (nonterminal r :: symbols) = true := by
  obtain ⟨n, hn⟩ := List.mem_iff_getElem?.1 hp
  match hsymbols : p.symbols with
  | [] => exact absurd hsymbols ((rule r).symbols_ne_nil p hp)
  | terminal (.satisfying accepts) :: _ =>
    rw [hsymbols] at h
    cases h with
    | terminal get haccepts _ =>
      have hoperand := operand?_eq hr hn hsymbols haccepts
      rw [aheadAt, drop_of_getElem? get, Lookahead.ofTokens_of_operand
        (hinput _ (List.mem_of_getElem? get)) (by simp [hoperand])]
      exact allows_of_operand hr
  | terminal (.literal _) :: _ => exact allows_nonterminal hr hn hsymbols nofun hahead
  | nonterminal _ :: _ => exact allows_nonterminal hr hn hsymbols nofun hahead

/-- **What is ahead of a derivation is what its symbols allow.** -/
theorem allows_of_fits (hinput : WellKinded input) {symbols : Symbols}
    {children : List (Derivation Nonterminal Token Tag)}
    (h : grammar.Fits input symbols start stop children) :
    (aheadAt input start).allows symbols = true := by
  induction h with
  | nil start => rfl
  | @terminal t x symbols start stop children get accepts rest ih =>
    cases t with
    | literal word =>
      rw [aheadAt, drop_of_getElem? get]
      exact Lookahead.allows_literal (isSpelled_iff.1 accepts) ih
    | satisfying predicate => rfl
  | @nonterminal r p symbols start middle stop inner children mem first rest ih₁ ih₂ =>
    by_cases hr : r ∈ expressions
    · exact allows_expression hinput hr mem first ih₁
    · change p ∈ (rule r).productions at mem
      cases r with
      | typeName =>
        simp only [rule, List.mem_cons, List.not_mem_nil, or_false] at mem
        obtain rfl | rfl := mem
        · exact ih₁
        · exact ih₁
      | specifierQualifierList =>
        simp only [rule, sequenceOf, List.mem_cons, List.not_mem_nil, or_false] at mem
        obtain rfl | rfl := mem
        · exact ih₁
        · cases first with
          | terminal get accepts _ =>
            rw [aheadAt, drop_of_getElem? get, Lookahead.ofTokens_of_specifier accepts]
            rfl
      | directive | tokens | identifierList | replacementList | pointer => rfl
      | _ => exact absurd (by decide) hr

/-! ## Reading expressions from the left corner -/

/-- The production that begins at a position: that of the operand or the word there. -/
def beginsAt (input : List Token) (k : Nat) :
    Option (Nonterminal × Production Nonterminal Token Tag) := do
  let t ← input[k]?
  let place ← operand? t <|> (wordOf t).bind fun word => predict? none word (aheadAt input (k + 1))
  productionAt place

/-- The production of a part of a goal of which a corner ends at a position: that of the word there,
if it is in the goal, and otherwise one that the corner is alone in. -/
def continuesAt (input : List Token) (goal corner : Nonterminal) (k : Nat) :
    Option (Nonterminal × Production Nonterminal Token Tag) := do
  let behind := (wordAt input k).bind fun word =>
    (predict? (some corner) word (aheadAt input (k + 1))).filter (within goal ·.1)
  let place ← behind <|> unit? goal corner
  productionAt place

/-- Whether a corner may end at a position: the word there does not go on behind a smaller corner
to a part of the goal. -/
def MayEnd (input : List Token) (goal corner : Nonterminal) (k : Nat) : Prop :=
  ∀ word levels, wordAt input k = some word → span? word = some levels →
    level corner ≤ levels.1 ∨ level goal < levels.2

/-- Whether a goal may be complete at a position: the word there does not go on to a part of the
goal. Behind a type name there is a closing parenthesis. -/
def MayComplete (input : List Token) (goal : Nonterminal) (k : Nat) : Prop :=
  goal = typeName ∧ wordAt input k = some (Bytes.ofString ")") ∨
    goal ∈ expressions ∧ ∀ word levels, wordAt input k = some word → span? word = some levels →
      level goal < levels.2

theorem wordAt_of_getElem? (h : input[k]? = some t) (ht : t.isSpelled word = true) :
    wordAt input k = some word := by
  rw [wordAt, h]
  exact isSpelled_iff.1 ht

variable {goal r corner : Nonterminal} {p : Production Nonterminal Token Tag} {symbols : Symbols}
  {children : List (Derivation Nonterminal Token Tag)}

theorem productionAt_eq {n : Nat} (h : (rule r).productions[n]? = some p) :
    productionAt (r, n) = some (r, p) := by
  rw [productionAt, h]
  rfl

theorem beginsAt_eq (hinput : WellKinded input) (hr : r ∈ expressions)
    (hp : p ∈ (rule r).productions) {t : Terminal Token}
    (hsymbols : p.symbols = terminal t :: symbols)
    (h : grammar.Fits input p.symbols start stop children) :
    beginsAt input start = some (r, p) := by
  obtain ⟨n, hn⟩ := List.mem_iff_getElem?.1 hp
  rw [hsymbols] at h
  cases h with
  | @terminal _ x _ _ _ children get accepts rest =>
    rw [beginsAt, get]
    cases t with
    | satisfying accepts' =>
      simp only [operand?_eq hr hn hsymbols accepts, Option.bind_eq_bind, Option.bind_some]
      exact productionAt_eq hn
    | literal word =>
      have hword := isSpelled_iff.1 accepts
      have hoperand := operand?_eq_none (hinput x (List.mem_of_getElem? get)) hword
        (isReserved_of_head hr hn hsymbols)
      have hgoes : goesOn none word (aheadAt input (start + 1)) p.symbols = true := by
        simp [hsymbols, goesOn, allows_of_fits hinput rest]
      simp [hoperand, hword, predict?_goesOn hr hn hgoes, productionAt_eq hn]

/-- What is looked up behind a corner is no part of a goal whose level is below that of the word. -/
theorem filter_predict?_eq_none {ahead : Lookahead}
    (h : ∀ levels, span? word = some levels → levels.1 = level corner → level goal < levels.2) :
    (predict? (some corner) word ahead).filter (within goal ·.1) = none := by
  refine Option.filter_eq_none_iff.2 fun place hplace hwithin => ?_
  have hlevel := h _ (span?_of_predict? hplace) rfl
  exact absurd (level_le_of_within hwithin) (Nat.not_le_of_lt hlevel)

theorem continuesAt_eq (hinput : WellKinded input) (hwithin : within goal r = true)
    (hp : p ∈ (rule r).productions) (hsymbols : p.symbols = nonterminal corner :: symbols)
    (h : grammar.Fits input symbols k stop children) (hends : MayEnd input goal r stop) :
    continuesAt input goal corner k = some (r, p) := by
  obtain ⟨n, hn⟩ := List.mem_iff_getElem?.1 hp
  have hr := (mem_of_within hwithin).2
  obtain ⟨rfl, hlevel⟩ | ⟨word, rest, rfl, -⟩ := corner_cases hr hn hsymbols
  · cases h
    -- the word behind a corner that is alone goes on from a higher level
    have hbehind : (wordAt input k).bind (fun word =>
        (predict? (some corner) word (aheadAt input (k + 1))).filter (within goal ·.1)) = none := by
      refine Option.bind_eq_none_iff.2 fun word hword => ?_
      refine filter_predict?_eq_none fun levels hlevels hcorner => ?_
      have := hends word levels hword hlevels
      omega
    simp [continuesAt, hbehind, unit?_eq hwithin hn hsymbols, productionAt_eq hn]
  · cases h with
    | terminal get accepts rest =>
      have hgoes : goesOn (some corner) word (aheadAt input (k + 1)) p.symbols = true := by
        simp [hsymbols, goesOn, allows_of_fits hinput rest]
      simp [continuesAt, wordAt_of_getElem? get accepts, predict?_goesOn hr hn hgoes,
        Option.filter_some, hwithin, productionAt_eq hn]

theorem mayEnd_corner (hr : r ∈ expressions) (hp : p ∈ (rule r).productions)
    (hsymbols : p.symbols = nonterminal corner :: symbols)
    (h : grammar.Fits input symbols k stop children) (hends : MayEnd input goal r stop) :
    MayEnd input goal corner k := by
  obtain ⟨n, hn⟩ := List.mem_iff_getElem?.1 hp
  obtain ⟨rfl, hlevel⟩ | ⟨word, rest, rfl, hspan⟩ := corner_cases hr hn hsymbols
  · cases h
    intro word levels hword hlevels
    have := hends word levels hword hlevels
    omega
  · cases h with
    | terminal get accepts rest =>
      intro word' levels hword hlevels
      obtain rfl := Option.some.inj ((wordAt_of_getElem? get accepts).symm.trans hword)
      obtain rfl := Option.some.inj (hspan.symm.trans hlevels)
      exact .inl (Nat.le_refl _)

/-- The parts of a production after the first one are complete where they end. -/
theorem mayComplete_of_closes (hwithin : within goal r = true)
    (h : grammar.Fits input symbols k stop children) (hcloses : closes r symbols = true)
    (hends : MayEnd input goal r stop) :
    List.Forall₂ (EndsWith (MayComplete input)) symbols children := by
  induction h with
  | nil => exact .nil
  | terminal _ _ _ ih => exact .cons trivial (ih (by simpa [closes] using hcloses) hends)
  | @nonterminal q p symbols start middle stop inner children mem first rest ih₁ ih₂ =>
    match symbols, rest with
    | [], .nil _ =>
      simp only [closes, Bool.and_eq_true, decide_eq_true_eq] at hcloses
      refine .cons (.inr ⟨hcloses.1, fun word levels hword hlevels => ?_⟩) .nil
      have hgoal := level_le_of_within hwithin
      have hlevel := hends word levels hword hlevels
      have hspan := List.all_eq_true.1 hcloses.2 (word, levels) (mem_spans hlevels)
      refine of_decide_eq_true hspan ?_
      simp only [Bool.or_eq_true, decide_eq_true_eq]
      omega
    | terminal (.literal word) :: symbols, rest =>
      simp only [closes, Bool.and_eq_true] at hcloses
      refine .cons ?_ (ih₂ (by simpa [closes] using hcloses.2) hends)
      cases rest with
      | terminal get accepts rest =>
        have hword := wordAt_of_getElem? get accepts
        obtain ⟨hq, -⟩ := hcloses
        split at hq
        · next htype => exact .inl ⟨htype, by simpa [of_decide_eq_true hq] using hword⟩
        · simp only [Bool.and_eq_true, decide_eq_true_eq, Option.isNone_iff_eq_none] at hq
          refine .inr ⟨hq.1, fun word' levels hword' hlevels => ?_⟩
          obtain rfl := Option.some.inj (hword.symm.trans hword')
          rw [hq.2] at hlevels
          contradiction
    | terminal (.satisfying _) :: _, _ => simp [closes] at hcloses
    | nonterminal _ :: _, _ => simp [closes] at hcloses

theorem continuesAt_of_mayComplete (hgoal : goal ∈ expressions)
    (h : MayComplete input goal k) : continuesAt input goal goal k = none := by
  obtain ⟨rfl, -⟩ | ⟨-, h⟩ := h
  · exact absurd hgoal (by decide)
  · have hbehind : (wordAt input k).bind (fun word =>
        (predict? (some goal) word (aheadAt input (k + 1))).filter (within goal ·.1)) = none :=
      Option.bind_eq_none_iff.2 fun word hword =>
        filter_predict?_eq_none fun levels hlevels _ => h word levels hword hlevels
    simp [continuesAt, hbehind, unit?_self hgoal]

theorem mayEnd_of_mayComplete (hgoal : goal ∈ expressions) (h : MayComplete input goal k) :
    MayEnd input goal goal k := by
  obtain ⟨rfl, -⟩ | ⟨-, h⟩ := h
  · exact absurd hgoal (by decide)
  · exact fun word levels hword hlevels => .inr (h word levels hword hlevels)

/-- Only type names are complete besides expressions, where a closing parenthesis follows. -/
theorem typeName_of_mayComplete (hr : r ∉ expressions) (h : MayComplete input r k) :
    r = typeName ∧ ∃ t, input[k]? = some t ∧ t.isSpelled (Bytes.ofString ")") = true := by
  obtain ⟨rfl, hword⟩ | ⟨hmem, -⟩ := h
  · obtain ⟨t, ht, hword⟩ := Option.bind_eq_some_iff.1 hword
    exact ⟨rfl, t, ht, isSpelled_iff.2 hword⟩
  · exact absurd hmem hr

/-- Expressions are read from the left corner, and type names at once. -/
def prediction (hinput : WellKinded input) : grammar.Prediction input where
  IsAtom r := r ∉ expressions
  Within goal r := within goal r = true
  begins _ k := beginsAt input k
  continues := continuesAt input
  Ends := MayEnd input
  Completes := MayComplete input
  within_self atom := by simp [within, not_not.1 atom]
  not_isAtom within := not_not.2 (mem_of_within within).1
  within_corner within mem eq := by
    obtain ⟨n, hn⟩ := List.mem_iff_getElem?.1 mem
    exact within_corner within hn eq
  begins_eq within mem eq fits := beginsAt_eq hinput (mem_of_within within).2 mem eq fits
  continues_eq within mem eq fits ends := continuesAt_eq hinput within mem eq fits ends
  ends_corner within mem eq fits ends := mayEnd_corner (mem_of_within within).2 mem eq fits ends
  completes_inner within mem eq fits ends := by
    obtain ⟨n, hn⟩ := List.mem_iff_getElem?.1 mem
    exact mayComplete_of_closes within fits (closes_tail (mem_of_within within).2 hn eq) ends
  ends_of_completes atom completes := mayEnd_of_mayComplete (not_not.1 atom) completes
  continues_of_completes atom completes := continuesAt_of_mayComplete (not_not.1 atom) completes
  atom_unique atom fits fits' completes completes' := by
    obtain ⟨rfl, hclose⟩ := typeName_of_mayComplete atom completes
    exact fits_typeName_unique fits fits' hclose (typeName_of_mayComplete atom completes').2

/-- **An expression has at most one derivation from all of the tokens.** -/
theorem fits_unique (hinput : WellKinded input) (hr : r ∈ expressions)
    {d d' : Derivation Nonterminal Token Tag}
    (h : grammar.Fits input [nonterminal r] start input.length [d])
    (h' : grammar.Fits input [nonterminal r] start input.length [d']) : d = d' := by
  have hcomplete : MayComplete input r input.length := by
    refine .inr ⟨hr, fun word levels hword _ => ?_⟩
    rw [wordAt, List.getElem?_eq_none (Nat.le_refl _)] at hword
    contradiction
  exact (prediction hinput).fits_unique h h' hcomplete hcomplete

/-- **The parser finds the derivation of an expression.** -/
theorem parse_eq_of_fits (hinput : WellKinded input) (hr : r ∈ expressions)
    {d : Derivation Nonterminal Token Tag}
    (h : grammar.Fits input [nonterminal r] 0 input.length [d]) :
    grammar.parse r input = some (grammar.tree d) :=
  parse_eq_of_unique h fun _ h' => fits_unique hinput hr h' h

/-- What can be compared of a symbol. -/
def shapeOf : GrammarSymbol Nonterminal Token → Option (Nonterminal ⊕ Bytes)
  | nonterminal r => some (.inl r)
  | terminal (.literal word) => some (.inr word)
  | terminal (.satisfying _) => none

/-- A derivation tells its production by the tag and the symbols, which no two of a rule share. -/
theorem nodup_productions (r : Nonterminal) : (rule r).productions.Nodup := by
  have hcheck : ∀ r ∈ nonterminals,
      ((rule r).productions.map fun p => (p.tag, p.symbols.map shapeOf)).Nodup := by
    decide +kernel
  exact List.Nodup.of_map _ (hcheck r (mem_nonterminals r))

/-- **The grammar of constant expressions is unambiguous.** The parse tree is that of the only
derivation, whichever the parser comes upon first. -/
theorem constantExpression_unambiguous {input : List Token} (hinput : WellKinded input) :
    (∀ d d', grammar.Fits input [nonterminal constantExpression] 0 input.length [d] →
      grammar.Fits input [nonterminal constantExpression] 0 input.length [d'] → d = d') ∧
    ∀ d, grammar.Fits input [nonterminal constantExpression] 0 input.length [d] →
      grammar.parse constantExpression input = some (grammar.tree d) :=
  ⟨fun _ _ h h' => fits_unique hinput (by decide) h h',
    fun _ h => parse_eq_of_fits hinput (by decide) h⟩

/-! ## From level to level -/

/-- The expressions of each level from 1 on. -/
def expressionAt : Nat → Nonterminal
  | 1 => primaryExpression
  | 2 => postfixExpression
  | 3 => unaryExpression
  | 4 => castExpression
  | 5 => multiplicativeExpression
  | 6 => additiveExpression
  | 7 => shiftExpression
  | 8 => relationalExpression
  | 9 => equalityExpression
  | 10 => andExpression
  | 11 => exclusiveOrExpression
  | 12 => inclusiveOrExpression
  | 13 => logicalAndExpression
  | 14 => logicalOrExpression
  | 15 => conditionalExpression
  | 16 => assignmentExpression
  | 17 => expression
  | _ => constantExpression

theorem isList_expressionAt (n : Nat) : (rule (expressionAt n)).isList = false := by
  unfold expressionAt
  split <;> rfl

/-- An expression is one of the next level. -/
theorem next_mem {n : Nat} (h : 1 ≤ n) (hn : n < 18) :
    ⟨.next, [nonterminal (expressionAt n)]⟩ ∈ (rule (expressionAt (n + 1))).productions := by
  interval_cases n <;> exact List.mem_of_mem_head? rfl

/-- A derivation of an expression as one of a higher level. -/
def lift (n : Nat) (start stop : Nat) (d : Derivation Nonterminal Token Tag) :
    Nat → Derivation Nonterminal Token Tag
  | 0 => d
  | k + 1 => .node (expressionAt (n + k + 1)) ⟨.next, [nonterminal (expressionAt (n + k))]⟩
      start stop [lift n start stop d k]

theorem fits_lift {n : Nat} (hn : 1 ≤ n) {d : Derivation Nonterminal Token Tag}
    (h : grammar.Fits input [nonterminal (expressionAt n)] start stop [d]) {k : Nat}
    (hk : n + k ≤ 18) :
    grammar.Fits input [nonterminal (expressionAt (n + k))] start stop
      [lift n start stop d k] := by
  induction k with
  | zero => exact h
  | succ k ih =>
    have hmem := next_mem (n := n + k) (by omega) (by omega)
    exact .nonterminal hmem (ih (by omega)) (.nil stop)

/-- In `sizeof(int)` the parentheses enclose a type name, whatever else they may enclose. -/
theorem constantExpression_unambiguous_sizeof :
    let input : List Token :=
      [{ kind := .identifier, text := Bytes.ofString "sizeof" },
        { kind := .punctuator, text := Bytes.ofString "(" },
        { kind := .identifier, text := Bytes.ofString "int" },
        { kind := .punctuator, text := Bytes.ofString ")" }]
    WellKinded input ∧ ∃ d, grammar.Fits input [nonterminal constantExpression] 0 4 [d] ∧
      (∀ d', grammar.Fits input [nonterminal constantExpression] 0 4 [d'] → d' = d) ∧
        grammar.parse constantExpression input = some (grammar.tree d) := by
  intro input
  have hinput : WellKinded input := by decide
  obtain ⟨_, hsizeof⟩ : ∃ d, grammar.Fits input [nonterminal unaryExpression] 0 4 [d] :=
    ⟨_, .nonterminal (List.mem_of_getElem? (i := 4) rfl)
      (.terminal rfl rfl <| .terminal rfl rfl <|
        .nonterminal (List.mem_of_getElem? (i := 0) rfl)
          (.nonterminal (List.mem_of_getElem? (i := 1) rfl) (.terminal rfl rfl (.nil 3)) (.nil 3))
          (.terminal rfl rfl (.nil 4)))
      (.nil 4)⟩
  have hd := fits_lift (n := 3) (k := 15) (by decide) hsizeof (by decide)
  obtain ⟨hunique, hparse⟩ := constantExpression_unambiguous hinput
  exact ⟨hinput, _, hd, fun d' hd' => hunique d' _ hd' hd, hparse _ hd⟩

end CPreprocessor.Phrase
