import CPreprocessor.Proofs.Expression.Internal
import CPreprocessor.Proofs.Expression.Machine
import CPreprocessor.Proofs.Macro.Characters
import CPreprocessor.Session.Condition

/-!
# Conditions

A condition fails only for what is wrong with its source (`Condition.holds_not_internal`): what is
prepared for the evaluation has no operands that are identifiers, its character constants are
spelled as such, and the macros that are expanded have no `##` without an operand.
-/

namespace CPreprocessor.Condition

open Expander (FailsWith failsOnly_expand keepsCharacters)

variable {macros : MacroTable} {file : SourceFile}

/-! ## The operator `defined` -/

theorem failsOnly_replaceDefined (tokens : List Token) :
    FailsOnly (· = .definedWithoutIdentifier) (replaceDefined macros file tokens) := by
  fun_induction replaceDefined macros file tokens with
  | case1 => exact .ok _
  | case2 => exact .located _ rfl
  | case3 t rest _ name after _ ih => exact ih.bind fun _ _ => .ok _
  | case4 t rest _ ih => exact ih.bind fun _ _ => .ok _

/-- A number is no character constant. -/
theorem spellsCharacter_digit (t : Token) (one : Bool) : (digit t one).SpellsCharacter := nofun

theorem suffix_of_operand {tokens rest : List Token} {name : Token}
    (h : operand tokens = some (name, rest)) : rest <:+ tokens := by
  unfold operand at h
  split at h
  · split at h
    · cases h
      exact List.suffix_cons _ _
    · split at h
      · split at h
        · split at h
          · cases h
            exact ((List.suffix_cons _ _).trans (List.suffix_cons _ _)).trans (List.suffix_cons _ _)
          · cases h
        · cases h
      · cases h
  · cases h

/-- Without `defined`, there are the tokens that there were, and numbers in the place of some. -/
theorem exists_of_mem_replaceDefined {tokens output : List Token}
    (h : replaceDefined macros file tokens = .ok output) :
    ∀ u ∈ output, ∃ t ∈ tokens, u = t ∨ ∃ one, u = digit t one := by
  fun_induction replaceDefined macros file tokens generalizing output with
  | case1 =>
    cases h
    exact List.forall_mem_nil _
  | case2 => cases h
  | case3 t rest _ name after hoperand ih =>
    obtain ⟨replaced, hreplaced, houtput⟩ := exists_of_bind_eq_ok h
    cases houtput
    refine List.forall_mem_cons.2 ⟨⟨t, List.mem_cons_self, .inr ⟨_, rfl⟩⟩, fun u hu => ?_⟩
    obtain ⟨v, hv, huv⟩ := ih hreplaced u hu
    exact ⟨v, List.mem_cons_of_mem t ((suffix_of_operand hoperand).subset hv), huv⟩
  | case4 t rest _ ih =>
    obtain ⟨replaced, hreplaced, houtput⟩ := exists_of_bind_eq_ok h
    cases houtput
    refine List.forall_mem_cons.2 ⟨⟨t, List.mem_cons_self, .inl rfl⟩, fun u hu => ?_⟩
    obtain ⟨v, hv, huv⟩ := ih hreplaced u hu
    exact ⟨v, List.mem_cons_of_mem t hv, huv⟩

theorem spellsCharacter_replaceDefined {tokens output : List Token}
    (htokens : ∀ t ∈ tokens, t.SpellsCharacter)
    (h : replaceDefined macros file tokens = .ok output) : ∀ t ∈ output, t.SpellsCharacter := by
  intro u hu
  obtain ⟨t, ht, rfl | ⟨one, rfl⟩⟩ := exists_of_mem_replaceDefined h u hu
  · exact htokens u ht
  · exact spellsCharacter_digit t one

/-! ## The tokens that are evaluated -/

theorem isEvaluable_replaceIdentifier {t : Token} (h : t.SpellsCharacter) :
    (replaceIdentifier t).IsEvaluable := by
  unfold replaceIdentifier
  split
  · exact ⟨rfl, spellsCharacter_digit t false⟩
  · next hoperand => exact ⟨Bool.eq_false_iff.2 hoperand, h⟩

variable {tokens : List Token}

/-- What a condition is prepared to has no operands that are identifiers, and its character
constants are spelled as such. -/
theorem isEvaluable_of_prepare (hproper : macros.IsProper) {prepared : List Token}
    (htokens : ∀ t ∈ tokens, t.SpellsCharacter)
    (h : prepare macros file tokens = .ok prepared) : ∀ t ∈ prepared, t.IsEvaluable := by
  obtain ⟨replaced, hreplaced, h⟩ := exists_of_bind_eq_ok h
  obtain ⟨expanded, hexpanded, h⟩ := exists_of_bind_eq_ok h
  obtain ⟨again, hagain, h⟩ := exists_of_bind_eq_ok h
  cases h
  have hkeeps := keepsCharacters (e := { file.expander macros with keepDefined := true })
    (fun m hm t ht => (hproper m hm t ht).spellsCharacter) replaced
  have hexpanded := hkeeps (spellsCharacter_replaceDefined htokens hreplaced) expanded hexpanded
  exact List.forall_mem_map.2 fun t ht =>
    isEvaluable_replaceIdentifier (spellsCharacter_replaceDefined hexpanded hagain t ht)

/-! ## What conditions fail with -/

section

variable {p : Cause → Prop} (hdefined : p .definedWithoutIdentifier)
  (hexpand : ∀ cause, FailsWith ((file.expander macros).Overflows tokens)
    (∃ m ∈ macros.macros, m.pastesAtEdge = true) cause → p cause)
include hdefined hexpand

theorem failsOnly_prepare : FailsOnly p (prepare macros file tokens) := by
  have hreplace (tokens : List Token) : FailsOnly p (replaceDefined macros file tokens) := by
    refine (failsOnly_replaceDefined tokens).mono ?_
    rintro _ rfl
    exact hdefined
  refine (hreplace tokens).bind fun replaced hreplaced => ?_
  refine ((failsOnly_expand _ replaced).mono fun cause h => hexpand cause (h.mono ?_ id)).bind
    fun _ _ => (hreplace _).bind fun _ _ => .ok _
  rintro ⟨u, hu, hoverflow⟩
  obtain ⟨t, ht, rfl | ⟨one, rfl⟩⟩ := exists_of_mem_replaceDefined hreplaced u hu
  · exact ⟨u, ht, hoverflow⟩
  · exact ⟨t, ht, hoverflow⟩

/-- A condition fails with what the parts of its evaluation fail with. -/
theorem failsOnly_holds (hmissing : p .missingExpression) (hparse : p .unparseableExpression)
    (directive : Location) (hevaluate : ∀ prepared tree,
      prepare macros file tokens = .ok prepared →
      Phrase.grammar.parse .constantExpression prepared = some tree →
        Diagnosed.FailsOnly p (Expression.evaluate directive true tree)) :
    Diagnosed.FailsOnly p (holds macros file directive tokens) := by
  rw [holds]
  refine .bind_lift (failsOnly_prepare hdefined hexpand) fun prepared hprepared => ?_
  dsimp only
  split
  · exact .throw _ hmissing
  · split
    · exact .throw _ hparse
    · next tree htree => exact (hevaluate prepared tree hprepared htree).bind fun _ => .pure _

end

/-- Expansion with a table that directives lead to does not fail with an internal error. -/
theorem isInternal_of_failsWith (hmacros : macros.IsReachable) {overflow : Prop} {cause : Cause}
    (h : FailsWith overflow (∃ m ∈ macros.macros, m.pastesAtEdge = true) cause) :
    cause.isInternal = false := by
  cases h with
  | pasteAtEdge hedge =>
    obtain ⟨m, hm, hedge⟩ := hedge
    rw [hmacros.pastesAtEdge_eq_false m hm] at hedge
    cases hedge
  | _ => rfl

open Expression.Machine in
/-- **Conditions do not fail with internal errors.** For every table that directives lead to and all
tokens, where those of the replacement lists and of the condition are of their kinds, as the tokens
of a source are: a condition does not fail with an internal error. What is prepared for the
evaluation has no operands that are identifiers, every character constant in it has a parse tree,
and the machine that evaluates its parse tree halts without an internal error, so that it never
misses a value on its stack or a child of the tree. -/
theorem holds_not_internal (hmacros : macros.IsReachable) (hproper : macros.IsProper)
    (htokens : ∀ t ∈ tokens, t.IsProper) (directive : Location) :
    Diagnosed.FailsOnly (·.isInternal = false) (holds macros file directive tokens) ∧
    ∀ prepared, prepare macros file tokens = .ok prepared →
      (∀ t ∈ prepared, t.isOperand = false ∧ (t.kind = .character →
        ∃ tree, CharacterConstant.grammar.parse .constant t.text = some tree)) ∧
      ∀ tree, Phrase.grammar.parse .constantExpression prepared = some tree → ∀ warnings,
        ∃ outcome, StateTransition.eval (step directive) (start tree warnings) =
            Part.some (.done outcome) ∧
          FailsOnly (·.isInternal = false) outcome.1 := by
  have hspells : ∀ t ∈ tokens, t.SpellsCharacter := fun t ht => (htokens t ht).spellsCharacter
  refine ⟨failsOnly_holds (p := (·.isInternal = false)) rfl
    (fun _ => isInternal_of_failsWith hmacros) rfl rfl directive
    fun prepared tree hprepared htree => Expression.failsOnly_of_parse rfl
      (isEvaluable_of_prepare hproper hspells hprepared) htree true, fun prepared hprepared => ?_⟩
  have hevaluable := isEvaluable_of_prepare hproper hspells hprepared
  refine ⟨fun t ht => ⟨(hevaluable t ht).isOperand, (hevaluable t ht).spellsCharacter.exists_parse⟩,
    fun tree htree warnings => ⟨_, eval_start_of_isExpression
      (Expression.isExpression_of_parse rfl htree) warnings, ?_⟩⟩
  exact Expression.failsOnly_of_parse rfl hevaluable htree true warnings

/-- `WIDE(c)` glues an `L` in front of a character constant. -/
def wideMacro : Macro :=
  ⟨Bytes.ofString "WIDE", .function [Bytes.ofString "c"] false, Token.lex (Bytes.ofString "L ## c")⟩

/-- A character constant that is glued together, and an identifier that no macro replaces. -/
theorem holds_not_internal_wide :
    let macros := MacroTable.predefined.insert wideMacro
    let tokens := Token.lex (Bytes.ofString "WIDE('a') == NAME")
    MacroTable.predefined.define wideMacro = .ok macros ∧
      ∀ warnings, FailsOnly (·.isInternal = false) ((holds macros ⟨"main.c", none, none, 0⟩
        ⟨"main.c", 1, 1, 22⟩ tokens).run.run warnings).1 := by
  intro macros tokens
  have hdefine : MacroTable.predefined.define wideMacro = .ok macros := by decide +kernel
  have hproper : macros.IsProper :=
    MacroTable.isProper_predefined.define (fun _ => Token.isProper_of_mem_lex) hdefine
  exact ⟨hdefine, (holds_not_internal (.define .predefined hdefine) hproper
    (fun _ => Token.isProper_of_mem_lex) ⟨"main.c", 1, 1, 22⟩).1⟩

end CPreprocessor.Condition
