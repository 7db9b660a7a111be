import CPreprocessor.Proofs.CharacterConstant.Value
import CPreprocessor.Proofs.Expression.Errors
import CPreprocessor.Proofs.Expression.Tree
import CPreprocessor.Proofs.Macro.Characters

/-!
# Internal errors

Some causes of errors would be a fault of the preprocessor and not of the source: a tree without a
part that its production has, a character constant that is not one, a `##` without an operand, a
construction without a name, an operation without a result (`Cause.isInternal`). No expression
fails with one of them that is parsed from tokens without operands that are identifiers, in which
character constants are spelled as such (`Expression.failsOnly_of_parse`).
-/

namespace CPreprocessor

/-- Whether a cause is one that no source has. -/
def Cause.isInternal : Cause → Bool
  | .missingPart _ | .invalidCharacterConstant _ | .pasteAtEdge | .undefined _ => true
  | .disallowed construction => construction = "identifier" || construction = "this construct"
  | _ => false

/-- A token that an expression may contain when it is parsed. -/
structure Token.IsEvaluable (t : Token) : Prop where
  isOperand : t.isOperand = false
  spellsCharacter : t.SpellsCharacter

/-- A character constant that is spelled as one has a parse tree. -/
theorem Token.SpellsCharacter.exists_parse {t : Token} (h : t.SpellsCharacter)
    (hkind : t.kind = .character) :
    ∃ tree, CharacterConstant.grammar.parse .constant t.text = some tree := by
  have haccepts := (Lexeme.Kind.accepts_iff .character t.text).2 (h hkind)
  obtain ⟨tree, htree, -⟩ := (CharacterConstant.accepts_iff_exists_parse t.text).1 haccepts
  exact ⟨tree, htree⟩

namespace Expression

open Phrase (grammar)

variable {input : List Token} {r : Nonterminal} {tag : Tag} {i j start stop : Nat}
  {children : List ExpressionTree}

/-! ## Productions of expressions -/

/-- The productions of expressions that have no value have a name, and an identifier is an
operand. -/
theorem isInternal_missingValue {p : Production Nonterminal Token Tag}
    (hr : isExpressionRule r = true) (hp : p ∈ (Phrase.rule r).productions)
    (hparts : parts? p.tag = none) (htag : p.tag ≠ .identifier) :
    (missingValue p.tag).isInternal = false := by
  have h : ∀ p ∈ (Phrase.rule r).productions,
      parts? p.tag = none → p.tag ≠ .identifier → (missingValue p.tag).isInternal = false := by
    cases r <;> first | exact absurd hr Bool.false_ne_true | decide
  exact h p hp hparts htag

/-- Identifiers and character constants are single tokens of their classes. -/
theorem symbols_of_mem {p : Production Nonterminal Token Tag}
    (hr : isExpressionRule r = true) (hp : p ∈ (Phrase.rule r).productions) :
    (p.tag = .identifier → p.symbols = [.such Token.isOperand]) ∧
      (p.tag = .character → p.symbols = [.such Token.isCharacter]) := by
  by_cases hprimary : r = .primaryExpression
  · subst hprimary
    rcases hp with _ | ⟨_, _ | ⟨_, _ | ⟨_, _ | ⟨_, _ | ⟨_, ⟨⟩⟩⟩⟩⟩⟩
    case head => exact ⟨fun _ => rfl, nofun⟩
    case tail.tail.head => exact ⟨nofun, fun _ => rfl⟩
    all_goals exact ⟨nofun, nofun⟩
  · have htag : ∀ p ∈ (Phrase.rule r).productions, p.tag ≠ .identifier ∧ p.tag ≠ .character := by
      cases r <;>
        first | exact absurd hr Bool.false_ne_true | exact absurd rfl hprimary | decide
    exact ⟨fun h => absurd h (htag p hp).1, fun h => absurd h (htag p hp).2⟩

/-! ## Trees of rules of expressions -/

/-- A tree that a rule of expressions derives from some of the tokens. -/
def IsDerived (input : List Token) (tree : ExpressionTree) : Prop :=
  ∃ r start stop, isExpressionRule r = true ∧ grammar.IsTree input (.nonterminal r) start stop tree

/-- The children of a node are derived from the symbols of a production with its tag. -/
theorem IsDerived.exists_production (h : IsDerived input (.node r tag i j children)) :
    ∃ r' p start stop, isExpressionRule r' = true ∧ p ∈ (Phrase.rule r').productions ∧
      p.tag = tag ∧ grammar.AreTrees input p.symbols start stop children := by
  obtain ⟨r', start, stop, hr, htree⟩ := h
  cases htree with
  | node notList mem trees => exact ⟨_, _, _, _, hr, mem, rfl, trees⟩
  | list isList chain => exact absurd isList (by simp [grammar, isList_of_isExpressionRule hr])

theorem forall₂_isDerived {symbols : List (GrammarSymbol Nonterminal Token)}
    (h : grammar.AreTrees input symbols start stop children) :
    List.Forall₂ (fun part tree => part = .operand → IsDerived input tree) (symbols.map partOf)
      children := by
  induction children generalizing symbols start with
  | nil =>
    cases h
    exact .nil
  | cons tree children ih =>
    cases h with
    | @cons s symbols _ middle _ _ _ first rest =>
      refine .cons (fun hpart => ?_) (ih rest)
      cases s with
      | terminal t => cases hpart
      | nonterminal r =>
        refine ⟨r, start, middle, ?_, first⟩
        by_contra hr
        simp [partOf, hr] at hpart

/-- The operands of a construction are trees of rules of expressions again. -/
theorem IsDerived.operands (h : IsDerived input (.node r tag i j children)) {parts : List Part}
    (hparts : parts? tag = some parts) :
    List.Forall₂ (fun part tree => part = .operand → IsDerived input tree) parts children := by
  obtain ⟨r', p, start, stop, hr, hp, rfl, htrees⟩ := h.exists_production
  rw [← parts?_of_mem hr hp hparts]
  exact forall₂_isDerived htrees

/-- A child that stands for a terminal is one of the tokens, which the terminal accepts. -/
theorem exists_of_areTrees_such {accepts : Token → Bool}
    (h : grammar.AreTrees input [.such accepts] start stop children) :
    ∃ token ∈ input, accepts token = true ∧ children = [.leaf token] := by
  cases h with
  | cons first rest =>
    cases rest
    cases first with
    | leaf get haccepts => exact ⟨_, List.mem_of_getElem? get, haccepts, rfl⟩

/-! ## Evaluation -/

variable {directive : Location} {tree : ExpressionTree}

theorem isInternal_number {text : Bytes} {cause : Cause}
    (h : IntegerConstant.evaluate text = .error cause) : cause.isInternal = false := by
  obtain ⟨-, rfl⟩ | rfl | rfl := IntegerConstant.cause_of_evaluate h
  · decide
  · rfl
  · rfl

theorem isInternal_character {token : Token} (hkind : token.kind = .character)
    (h : token.SpellsCharacter) {cause : Cause}
    (hcause : (CharacterConstant.evaluate token.text).2 = .error cause) :
    cause.isInternal = false := by
  obtain ⟨tree, htree⟩ := h.exists_parse hkind
  obtain rfl | rfl := CharacterConstant.evaluate_of_parse htree hcause <;> rfl

/-- A construction that has no value is refused by its name. -/
theorem evaluate_of_parts?_eq_none (live : Bool) (htag : parts? tag = none) :
    evaluate directive live (.node r tag i j children) =
      placed directive (.node r tag i j children) (.error (missingValue tag)) := by
  cases tag <;> first | rfl | cases htag

/-- **No expression fails with an internal error.** -/
theorem failsOnly_of_isDerived (hinput : ∀ t ∈ input, t.IsEvaluable) (h : IsExpression tree)
    (hderived : IsDerived input tree) (live : Bool) :
    Diagnosed.FailsOnly (·.isInternal = false) (evaluate directive live tree) := by
  induction h generalizing live with
  | next h ih =>
    obtain _ | ⟨hoperand, -⟩ := hderived.operands rfl
    simp only [evaluate]
    exact ih (hoperand rfl) live
  | parenthesized h ih =>
    obtain _ | ⟨-, _ | ⟨hoperand, -⟩⟩ := hderived.operands rfl
    simp only [evaluate]
    exact ih (hoperand rfl) live
  | number =>
    simp only [evaluate]
    exact failsOnly_placed _ _ fun _ => isInternal_number
  | @character r i j token =>
    obtain ⟨r', p, start, stop, hr, hp, htag, htrees⟩ := hderived.exists_production
    rw [(symbols_of_mem hr hp).2 htag] at htrees
    obtain ⟨token', hmem, hcharacter, hleaf⟩ := exists_of_areTrees_such htrees
    cases hleaf
    simp only [evaluate]
    exact failsOnly_evaluateCharacter _ _ fun _ =>
      isInternal_character (of_decide_eq_true hcharacter) (hinput token hmem).spellsCharacter
  | @unary r operator i j a operand h ih =>
    obtain _ | ⟨-, _ | ⟨hoperand, -⟩⟩ := hderived.operands rfl
    simp only [evaluate]
    cases happly : operator.apply? with
    | some apply => exact (ih (hoperand rfl) live).map apply
    | none =>
      refine failsOnly_placed _ _ ?_
      rintro _ ⟨⟩
      cases operator <;> first | decide | cases happly
  | binary hleft hright ihl ihr =>
    obtain _ | ⟨hleft, _ | ⟨-, _ | ⟨hright, -⟩⟩⟩ := hderived.operands rfl
    simp only [evaluate]
    refine (ihl (hleft rfl) live).bind fun a => (ihr (hright rfl) _).bind fun b => ?_
    refine failsOnly_placed _ _ fun cause hcause => ?_
    obtain ⟨-, rfl⟩ := cause_of_combine hcause
    rfl
  | conditional hcondition hyes hno ihc ihy ihn =>
    obtain _ | ⟨hcondition, _ | ⟨-, _ | ⟨hyes, _ | ⟨-, _ | ⟨hno, -⟩⟩⟩⟩⟩ := hderived.operands rfl
    simp only [evaluate]
    exact (ihc (hcondition rfl) live).bind fun c => (ihy (hyes rfl) _).bind fun a =>
      (ihn (hno rfl) _).bind fun b => .pure _
  | @disallowed r tag i j children hparts =>
    obtain ⟨r', p, start, stop, hr, hp, rfl, htrees⟩ := hderived.exists_production
    rw [evaluate_of_parts?_eq_none live hparts]
    refine failsOnly_placed _ _ ?_
    rintro _ ⟨⟩
    refine isInternal_missingValue hr hp hparts fun htag => ?_
    rw [(symbols_of_mem hr hp).1 htag] at htrees
    obtain ⟨token, hmem, hoperand, -⟩ := exists_of_areTrees_such htrees
    rw [(hinput token hmem).isOperand] at hoperand
    cases hoperand

theorem isDerived_of_parse {root : Nonterminal} (hroot : isExpressionRule root = true)
    (h : grammar.parse root input = some tree) : IsDerived input tree := by
  obtain ⟨d, hd, rfl⟩ := Option.map_eq_some_iff.1 h
  cases Grammar.areTrees_of_fits (Grammar.fits_of_derive? hd) with
  | cons first rest => exact ⟨root, _, _, hroot, first⟩

theorem failsOnly_of_parse {root : Nonterminal} (hroot : isExpressionRule root = true)
    (hinput : ∀ t ∈ input, t.IsEvaluable) (h : grammar.parse root input = some tree)
    (live : Bool) : Diagnosed.FailsOnly (·.isInternal = false) (evaluate directive live tree) :=
  failsOnly_of_isDerived hinput (isExpression_of_parse hroot h) (isDerived_of_parse hroot h) live

end Expression

end CPreprocessor
