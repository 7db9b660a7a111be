import CPreprocessor.Proofs.Macro.Errors
import CPreprocessor.Proofs.Macro.Tokens

/-!
# Expansion keeps character constants

A character constant in the result of an expansion is one of the tokens that were expanded or of a
replacement list, or it is glued together, which gives a token as a source has it. So it is spelled
as a character constant if those are (`Expander.keepsCharacters`).
-/

namespace CPreprocessor

open Prosser (names_of_reading_object opens_of_reading reading_of_names reading_of_forall_not_names)

/-- If a token is a character constant, it is spelled as one. -/
def Token.SpellsCharacter (t : Token) : Prop :=
  t.kind = .character → t.text ∈ Lexeme.Kind.character.language

namespace Token

variable {t u : Token}

theorem SpellsCharacter.of_eq (h : t.SpellsCharacter) (hkind : u.kind = t.kind)
    (htext : u.text = t.text) : u.SpellsCharacter := by
  rw [SpellsCharacter, hkind, htext]
  exact h

theorem IsProper.spellsCharacter (h : t.IsProper) : t.SpellsCharacter := by
  intro hkind
  rw [← hkind]
  exact h.mem (by simp [hkind])

end Token

/-- The token of a piece, if it has one, is spelled as a character constant if it is one. -/
def Piece.SpellsCharacter (piece : Piece) : Prop := ∀ t ∈ piece.token?, t.SpellsCharacter

namespace Expander

/-! ## Replacements -/

theorem spellsCharacter_of {t : Token} (h : t.SpellsCharacter) : (Piece.of t).SpellsCharacter := by
  unfold Piece.of
  split <;> exact fun u hu => Option.some.inj hu ▸ h

theorem spellsCharacter_paste {site : Location} {left right piece : Piece}
    (hleft : left.SpellsCharacter) (hright : right.SpellsCharacter)
    (h : paste site left right = .ok piece) : piece.SpellsCharacter := by
  unfold paste at h
  split at h
  · cases h
    exact hright
  · cases h
    exact hleft
  all_goals
    dsimp only at h
    split at h
    · next u hlex =>
      split at h
      · next htext =>
        cases h
        rintro _ ⟨⟩
        have hproper : u.IsProper :=
          Token.isProper_of_mem_lex (by rw [hlex]; exact List.mem_cons_self)
        exact hproper.spellsCharacter.of_eq rfl htext.symm
      · cases h
    · cases h

theorem spellsCharacter_pasteAfter {site : Location} {left : Option Piece}
    {pieces result : List Piece} (hleft : ∀ piece ∈ left, piece.SpellsCharacter)
    (hpieces : ∀ piece ∈ pieces, piece.SpellsCharacter)
    (h : pasteAfter site left pieces = .ok result) : ∀ piece ∈ result, piece.SpellsCharacter := by
  fun_induction pasteAfter site left pieces generalizing result with
  | case1 left =>
    cases h
    exact fun piece hmem => hleft piece (Option.mem_toList.1 hmem)
  | case2 left mark right rest ih =>
    obtain ⟨-, hright, hrest⟩ := by simpa only [List.forall_mem_cons] using hpieces
    obtain ⟨piece, hpaste, h⟩ := exists_of_bind_eq_ok h
    refine ih piece ?_ hrest h
    rintro _ ⟨⟩
    exact spellsCharacter_paste (hleft left rfl) hright hpaste
  | case3 => cases h
  | case4 left piece rest _ _ ih =>
    obtain ⟨hpiece, hrest⟩ := List.forall_mem_cons.1 hpieces
    obtain ⟨pasted, hafter, h⟩ := exists_of_bind_eq_ok h
    cases h
    intro other hmem
    rcases List.mem_append.1 hmem with hmem | hmem
    · exact hleft other (Option.mem_toList.1 hmem)
    · refine ih ?_ hrest hafter other hmem
      rintro _ ⟨⟩
      exact hpiece

theorem spellsCharacter_argumentPieces {parameter : Token} {operand : Bool} {tokens : List Token}
    (h : ∀ t ∈ tokens, t.SpellsCharacter) :
    ∀ piece ∈ argumentPieces parameter operand tokens, piece.SpellsCharacter := by
  intro piece hmem t ht
  cases tokens with
  | nil =>
    cases operand with
    | true =>
      rw [List.mem_singleton.1 hmem] at ht
      cases ht
    | false => cases hmem
  | cons first rest =>
    obtain ⟨hfirst, hrest⟩ := List.forall_mem_cons.1 h
    rcases List.mem_cons.1 hmem with rfl | hmem
    · cases ht
      exact hfirst.of_eq rfl rfl
    · obtain ⟨u, hu, rfl⟩ := List.mem_map.1 hmem
      cases ht
      exact hrest t hu

variable {m : Macro} {argument : Nat → List Token} {expanded : Nat → Except Fault (List Token)}

theorem spellsCharacter_substitute (hargument : ∀ index, ∀ t ∈ argument index, t.SpellsCharacter)
    (hexpanded : ∀ index tokens, expanded index = .ok tokens → ∀ t ∈ tokens, t.SpellsCharacter)
    {afterPaste : Bool} {list : List Token} {pieces : List Piece}
    (hlist : ∀ t ∈ list, t.SpellsCharacter)
    (h : substitute m argument expanded afterPaste list = .ok pieces) :
    ∀ piece ∈ pieces, piece.SpellsCharacter := by
  induction hn : list.length using Nat.strong_induction_on generalizing afterPaste list pieces with
  | _ n ih =>
    subst hn
    cases list with
    | nil =>
      cases h
      exact List.forall_mem_nil _
    | cons t rest =>
      obtain ⟨ht, hrest⟩ := List.forall_mem_cons.1 hlist
      rcases exists_of_substitute_cons h with ⟨index, more, rfl, hmore⟩ | ⟨more, rfl, hmore⟩ |
        ⟨index, tokens, more, -, htokens, rfl, hmore⟩
      · refine List.forall_mem_cons.2 ⟨?_, ih _ ?_ (fun u hu => hrest u (List.mem_of_mem_tail hu))
          hmore rfl⟩
        · rintro _ ⟨⟩
          exact nofun
        · simp only [List.length_tail, List.length_cons]
          omega
      · exact List.forall_mem_cons.2
          ⟨spellsCharacter_of ht, ih _ (Nat.lt_succ_self _) hrest hmore rfl⟩
      · refine List.forall_mem_append.2
          ⟨spellsCharacter_argumentPieces ?_, ih _ (Nat.lt_succ_self _) hrest hmore rfl⟩
        rcases htokens with rfl | hok
        · exact hargument index
        · exact hexpanded index tokens hok

theorem spellsCharacter_finish {pieces : List Piece} {hidden : HideSet} {site : Token}
    (h : ∀ piece ∈ pieces, piece.SpellsCharacter) :
    ∀ t ∈ finish pieces hidden site, t.SpellsCharacter := by
  have hplaced : ∀ t ∈ (pieces.filterMap Piece.token?).map fun u =>
      { u with hidden := u.hidden.union hidden, position := site.position },
      t.SpellsCharacter := by
    intro t ht
    obtain ⟨u, hu, rfl⟩ := List.mem_map.1 ht
    obtain ⟨piece, hpiece, htoken⟩ := List.mem_filterMap.1 hu
    exact (h piece hpiece u htoken).of_eq rfl rfl
  unfold finish
  dsimp only
  split
  · exact List.forall_mem_nil _
  · next first rest heq =>
    rw [heq] at hplaced
    obtain ⟨hfirst, hrest⟩ := List.forall_mem_cons.1 hplaced
    exact List.forall_mem_cons.2 ⟨hfirst.of_eq rfl rfl, hrest⟩

/-! ## Expansion -/

variable {e : Expander}

/-- What is not expanded any further is what it was, or the number of a line, or the name of a
file. -/
theorem spellsCharacter_of_reading {t t' : Token} {rest : List Token} (ht : t.SpellsCharacter)
    (h : e.reading t rest = .plain t') : t'.SpellsCharacter := by
  by_cases hnames : ∃ m, Prosser.Names e.macros t m
  · obtain ⟨m, hm⟩ := hnames
    rw [reading_of_names hm] at h
    split at h
    · split at h
      · cases h
        intro hkind
        cases hkind
      · cases h
    · cases h
      intro hkind
      cases hkind
    · cases h
    · split at h
      · cases h
      · cases h
        exact ht
  · rw [reading_of_forall_not_names (not_exists.1 hnames)] at h
    cases h
    exact ht

/-- Expansion of some tokens gives character constants that are spelled as such if theirs are. -/
def KeepsCharacters (e : Expander) (tokens : List Token) : Prop :=
  (∀ t ∈ tokens, t.SpellsCharacter) →
    ∀ output, e.expand tokens = .ok output → ∀ t ∈ output, t.SpellsCharacter

theorem keepsCharacters_nil : e.KeepsCharacters [] := by
  intro _ output h
  rw [expand_nil] at h
  cases h
  exact List.forall_mem_nil _

/-- **Character constants of an expansion are spelled as such**, if those that are expanded and
those of the replacement lists are. -/
theorem keepsCharacters (hmacros : ∀ m ∈ e.macros.macros, ∀ t ∈ m.replacement, t.SpellsCharacter)
    (tokens : List Token) : e.KeepsCharacters tokens := by
  induction tokens using e.expand_induction with
  | nil => exact keepsCharacters_nil
  | kept t rest hk ih =>
    intro htokens output h
    obtain ⟨ht, hrest⟩ := List.forall_mem_cons.1 htokens
    rw [e.expand_kept hk] at h
    obtain ⟨expanded, hexpanded, houtput⟩ := exists_of_bind_eq_ok h
    cases houtput
    refine List.forall_mem_cons.2 ⟨ht, List.forall_mem_append.2
      ⟨fun u hu => hrest u (List.mem_of_mem_take hu), ih ?_ _ hexpanded⟩⟩
    exact fun u hu => hrest u (List.mem_of_mem_drop hu)
  | plain t rest t' hk hread ih =>
    intro htokens output h
    obtain ⟨ht, hrest⟩ := List.forall_mem_cons.1 htokens
    rw [e.expand_plain hk hread] at h
    obtain ⟨expanded, hexpanded, houtput⟩ := exists_of_bind_eq_ok h
    cases houtput
    exact List.forall_mem_cons.2 ⟨spellsCharacter_of_reading ht hread, ih hrest _ hexpanded⟩
  | overflow t rest hk hread =>
    intro _ output h
    rw [e.expand_overflow hk hread] at h
    cases h
  | object t rest m hk hread ih =>
    intro htokens output h
    obtain ⟨-, hrest⟩ := List.forall_mem_cons.1 htokens
    rw [e.expand_object hk hread] at h
    obtain ⟨pieces, hpaste, hrescan⟩ := exists_of_bind_eq_ok h
    have hm := hmacros m (MacroTable.lookup_eq_some (names_of_reading_object hread).1.lookup).2
    have hpieces := spellsCharacter_pasteAfter (by simp)
      (List.forall_mem_map.2 fun u hu => spellsCharacter_of (hm u hu)) hpaste
    exact ih pieces (List.forall_mem_append.2 ⟨spellsCharacter_finish hpieces, hrest⟩) _ hrescan
  | unterminated t rest m parameters variadic hk hread hi =>
    intro _ output h
    rw [e.expand_unterminated hk hread hi] at h
    cases h
  | miscounted t rest m parameters variadic i hk hread hi hfit =>
    intro _ output h
    rw [e.expand_miscounted hk hread hi hfit] at h
    cases h
  | function t rest m parameters variadic i arguments hk hread hi hfit iha ih =>
    intro htokens output h
    obtain ⟨-, hrest⟩ := List.forall_mem_cons.1 htokens
    rw [e.expand_function hk hread hi hfit] at h
    obtain ⟨substituted, hsubstitute, h⟩ := exists_of_bind_eq_ok h
    obtain ⟨pieces, hpaste, hrescan⟩ := exists_of_bind_eq_ok h
    obtain ⟨names, rfl, hopens⟩ := opens_of_reading hread
    have hm := hmacros m (MacroTable.lookup_eq_some hopens.lookup).2
    obtain ⟨hafter, harguments⟩ := Prosser.Invokes.subset ⟨hopens, hi, hfit⟩
    have hargument (index : Nat) : ∀ u ∈ Expander.argument arguments index, u.SpellsCharacter :=
      fun u hu => hrest u (harguments index hu)
    have hexpanded (index : Nat) :=
      argument_of_forall keepsCharacters_nil iha index (hargument index)
    have hpieces := spellsCharacter_pasteAfter (by simp)
      (spellsCharacter_substitute hargument hexpanded hm hsubstitute) hpaste
    exact ih pieces (List.forall_mem_append.2 ⟨spellsCharacter_finish hpieces,
      fun u hu => hrest u (hafter hu)⟩) _ hrescan

end Expander

end CPreprocessor
