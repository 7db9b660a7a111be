import CPreprocessor.Proofs.Diagnostic
import CPreprocessor.Proofs.Macro.Adequacy
import CPreprocessor.Proofs.Macro.WellFormed

/-!
# What macro expansion fails with

An invocation can be unterminated or have the wrong number of arguments, and what `##` pastes
together may be no token. The number of a line is too large to be computed only if one of the tokens
is on such a line, since a replacement is where the macro name was. That a `##` has no operand is an
error only if some macro has one at an end of its replacement list (`Expander.failsOnly_expand`),
which no definition can have (`MacroTable.IsReachable.pastesAtEdge_eq_false`): an argument next to
`##` always leaves a piece, be it a placemarker.
-/

namespace CPreprocessor

open Prosser (isOperator isOperator_of_mem_argumentPieces names_of_reading_object opens_of_reading)

/-- Whether a replacement list has a `##` at an end. -/
def Macro.pastesAtEdge (m : Macro) : Bool :=
  m.replacement.head?.any Token.isPaste || m.replacement.getLast?.any Token.isPaste

/-- No macro of a table that directives lead to has a `##` at an end. -/
theorem MacroTable.IsReachable.pastesAtEdge_eq_false {table : MacroTable} (h : table.IsReachable) :
    ∀ m ∈ table.macros, m.pastesAtEdge = false := by
  have hpredefined : ∀ m ∈ MacroTable.predefined.macros, m.pastesAtEdge = false := by
    decide +kernel
  intro m hm
  by_cases hmem : m ∈ MacroTable.predefined.macros
  · exact hpredefined m hmem
  · have hwell := h.isSound.isWellFormed m hm hmem
    rw [Macro.pastesAtEdge, Bool.or_eq_false_iff, Option.any_eq_false, Option.any_eq_false]
    simpa using ⟨hwell.isPaste_head, hwell.isPaste_getLast⟩

/-- What macro expansion fails with, given whether a line with too large a number and whether a `##`
at an end are possible. -/
inductive Expander.FailsWith (overflow edge : Prop) : Cause → Prop
  | lineOverflow (h : overflow) : FailsWith overflow edge .lineOverflow
  | unterminatedInvocation (name : String) : FailsWith overflow edge (.unterminatedInvocation name)
  | argumentCount (name : String) (given expected : Nat) :
      FailsWith overflow edge (.argumentCount name given expected)
  | invalidPaste (left right : String) : FailsWith overflow edge (.invalidPaste left right)
  | pasteAtEdge (h : edge) : FailsWith overflow edge .pasteAtEdge

namespace Expander

variable {overflow overflow' edge edge' : Prop}

theorem FailsWith.mono (hoverflow : overflow → overflow') (hedge : edge → edge') {cause : Cause}
    (h : FailsWith overflow edge cause) : FailsWith overflow' edge' cause := by
  cases h with
  | lineOverflow h => exact .lineOverflow (hoverflow h)
  | pasteAtEdge h => exact .pasteAtEdge (hedge h)
  | _ => constructor

/-! ## Pasting -/

theorem failsOnly_paste (site : Location) (left right : Piece) :
    FailsOnly (FailsWith overflow edge) (paste site left right) := by
  unfold paste
  split
  · exact .ok _
  · exact .ok _
  all_goals
    dsimp only
    split
    · split
      · exact .ok _
      · exact .located site (.invalidPaste _ _)
    · exact .located site (.invalidPaste _ _)

theorem any_getLast?_cons {α : Type} {p : α → Bool} {l : List α} (h : l.getLast?.any p = true)
    (a : α) : (a :: l).getLast?.any p = true := by
  cases l with
  | nil => cases h
  | cons b l => rwa [List.getLast?_cons_cons]

/-- A `##` without an operand is the first piece or the last one. -/
theorem failsOnly_pasteAfter (site : Location) (left : Option Piece) (pieces : List Piece) :
    FailsOnly (FailsWith overflow (left = none ∧ pieces.head?.any isOperator = true ∨
      pieces.getLast?.any isOperator = true)) (pasteAfter site left pieces) := by
  fun_induction pasteAfter site left pieces with
  | case1 => exact .ok _
  | case2 left mark right rest ih =>
    refine (failsOnly_paste site left right).bind fun piece _ =>
      (ih piece).mono fun _ => .mono id ?_
    rintro (⟨⟨⟩, -⟩ | hlast)
    exact .inr (any_getLast?_cons (any_getLast?_cons hlast _) _)
  | case3 left mark rest hno =>
    refine .located site (.pasteAtEdge ?_)
    cases left with
    | none => exact .inl ⟨rfl, rfl⟩
    | some piece =>
      cases rest with
      | nil => exact .inr rfl
      | cons right rest => exact (hno piece right rest rfl rfl).elim
  | case4 left piece rest _ _ ih =>
    refine (ih.mono fun _ => .mono id ?_).bind fun _ _ => .ok _
    rintro (⟨⟨⟩, -⟩ | hlast)
    exact .inr (any_getLast?_cons hlast _)

/-! ## Arguments -/

variable {m : Macro} {argument : Nat → List Token} {expanded : Nat → Except Fault (List Token)}

theorem failsOnly_substitute {p : Cause → Prop} (h : ∀ index, FailsOnly p (expanded index))
    (afterPaste : Bool) (list : List Token) :
    FailsOnly p (substitute m argument expanded afterPaste list) := by
  induction hn : list.length using Nat.strong_induction_on generalizing afterPaste list with
  | _ n ih =>
    subst hn
    cases list with
    | nil => exact .ok _
    | cons t rest =>
      have hrest (afterPaste : Bool) :
          FailsOnly p (substitute m argument expanded afterPaste rest) :=
        ih _ (Nat.lt_succ_self _) afterPaste rest rfl
      have htail : FailsOnly p (substitute m argument expanded false rest.tail) :=
        ih _ (by simp only [List.length_tail, List.length_cons]; omega) false rest.tail rfl
      rw [substitute_cons]
      split
      · exact htail.bind fun _ _ => .ok _
      · split
        · exact (hrest _).bind fun _ _ => .ok _
        · split
          · exact (hrest _).bind fun _ _ => .ok _
          · exact (h _).bind fun _ _ => (hrest _).bind fun _ _ => .ok _

/-- What the first token of a replacement list leaves: a string literal, itself, or an argument. -/
theorem exists_of_substitute_cons {afterPaste : Bool} {t : Token} {rest : List Token}
    {pieces : List Piece}
    (h : substitute m argument expanded afterPaste (t :: rest) = .ok pieces) :
    (∃ index more, pieces = .token (stringize t (argument index)) :: more ∧
      substitute m argument expanded false rest.tail = .ok more) ∨
    (∃ more, pieces = .of t :: more ∧
      substitute m argument expanded t.isPaste rest = .ok more) ∨
    ∃ index tokens more, m.parameter? t = some index ∧
      (tokens = argument index ∨ expanded index = .ok tokens) ∧
      pieces = argumentPieces t (afterPaste || rest.head?.any Token.isPaste) tokens ++ more ∧
      substitute m argument expanded false rest = .ok more := by
  rw [substitute_cons] at h
  split at h
  · next index hindex =>
    obtain ⟨more, hmore, hpieces⟩ := exists_of_bind_eq_ok h
    exact .inl ⟨index, more, (Except.ok.inj hpieces).symm, hmore⟩
  · split at h
    · obtain ⟨more, hmore, hpieces⟩ := exists_of_bind_eq_ok h
      exact .inr (.inl ⟨more, (Except.ok.inj hpieces).symm, hmore⟩)
    · next index hindex =>
      refine .inr (.inr ⟨index, ?_⟩)
      split at h
      · next hoperand =>
        obtain ⟨more, hmore, hpieces⟩ := exists_of_bind_eq_ok h
        rw [hoperand]
        exact ⟨_, more, hindex, .inl rfl, (Except.ok.inj hpieces).symm, hmore⟩
      · next hoperand =>
        obtain ⟨tokens, htokens, h⟩ := exists_of_bind_eq_ok h
        obtain ⟨more, hmore, hpieces⟩ := exists_of_bind_eq_ok h
        rw [Bool.eq_false_iff.2 hoperand]
        exact ⟨tokens, more, hindex, .inr htokens, (Except.ok.inj hpieces).symm, hmore⟩

theorem isOperator_of (t : Token) : isOperator (.of t) = t.isPaste := by
  unfold Piece.of
  cases t.isPaste <;> rfl

theorem argumentPieces_ne_nil (parameter : Token) (tokens : List Token) :
    argumentPieces parameter true tokens ≠ [] := by
  cases tokens <;> exact List.cons_ne_nil _ _

/-- What the first token leaves has a `##` only if the token is one, and is nothing only if the
token is no operand of one. -/
theorem exists_append_of_substitute_cons {afterPaste : Bool} {t : Token} {rest : List Token}
    {pieces : List Piece}
    (h : substitute m argument expanded afterPaste (t :: rest) = .ok pieces) :
    ∃ front more list afterPaste', pieces = front ++ more ∧ list <:+ rest ∧
      substitute m argument expanded afterPaste' list = .ok more ∧
      (∀ piece ∈ front, isOperator piece = true →
        t.isPaste = true ∧ afterPaste' = true ∧ list = rest) ∧
      (front = [] → afterPaste = false ∧ rest.head?.any Token.isPaste = false ∧ list = rest) := by
  rcases exists_of_substitute_cons h with ⟨index, more, rfl, hmore⟩ | ⟨more, rfl, hmore⟩ |
    ⟨index, tokens, more, -, -, rfl, hmore⟩
  · refine ⟨[_], more, rest.tail, false, rfl, List.tail_suffix rest, hmore, fun piece hpiece => ?_,
      nofun⟩
    rw [List.mem_singleton.1 hpiece]
    exact nofun
  · refine ⟨[_], more, rest, t.isPaste, rfl, List.suffix_rfl, hmore,
      fun piece hpiece hoperator => ?_, nofun⟩
    rw [List.mem_singleton.1 hpiece, isOperator_of] at hoperator
    exact ⟨hoperator, hoperator, rfl⟩
  · refine ⟨_, more, rest, false, rfl, List.suffix_rfl, hmore, fun piece hpiece hoperator => ?_,
      fun hnil => ?_⟩
    · rw [isOperator_of_mem_argumentPieces hpiece] at hoperator
      cases hoperator
    · have hoperand : (afterPaste || rest.head?.any Token.isPaste) = false := by
        by_contra hoperand
        rw [Bool.not_eq_false] at hoperand
        rw [hoperand] at hnil
        exact argumentPieces_ne_nil t tokens hnil
      exact ⟨(Bool.or_eq_false_iff.1 hoperand).1, (Bool.or_eq_false_iff.1 hoperand).2, rfl⟩

/-- An operand of `##` leaves a piece, and so the pieces of a replacement list have a `##` at an end
only where the list has one. -/
theorem edges_of_substitute {afterPaste : Bool} {list : List Token} {pieces : List Piece}
    (h : substitute m argument expanded afterPaste list = .ok pieces) :
    (afterPaste = true → pieces = [] → list = []) ∧
    (pieces.head?.any isOperator = true → list.head?.any Token.isPaste = true) ∧
    (pieces.getLast?.any isOperator = true → list.getLast?.any Token.isPaste = true) := by
  induction hn : list.length using Nat.strong_induction_on generalizing afterPaste list pieces with
  | _ n ih =>
    subst hn
    cases list with
    | nil =>
      cases h
      exact ⟨fun _ _ => rfl, id, id⟩
    | cons t rest =>
      obtain ⟨front, more, list, afterPaste', rfl, hsuffix, hmore, hfront, hnil⟩ :=
        exists_append_of_substitute_cons h
      obtain ⟨hempty, hhead, hlast⟩ := ih _ (Nat.lt_succ_of_le hsuffix.length_le) hmore rfl
      refine ⟨fun hpaste heq => ?_, fun hany => ?_, fun hany => ?_⟩
      · rw [(hnil (List.append_eq_nil_iff.1 heq).1).1] at hpaste
        cases hpaste
      · cases front with
        | nil =>
          obtain ⟨-, hno, rfl⟩ := hnil rfl
          rw [hhead hany] at hno
          cases hno
        | cons piece front => exact (hfront piece List.mem_cons_self hany).1
      · cases more with
        | nil =>
          -- the last piece is that of the first token, which then is the only one
          rw [List.append_nil] at hany
          obtain ⟨piece, hpiece, hoperator⟩ := (Option.any_eq_true _ _).1 hany
          obtain ⟨ht, rfl, rfl⟩ := hfront piece (List.mem_of_getLast? hpiece) hoperator
          rw [hempty rfl rfl]
          exact ht
        | cons piece more =>
          rw [List.getLast?_append_of_ne_nil _ (List.cons_ne_nil piece more)] at hany
          obtain ⟨init, rfl⟩ := hsuffix
          have hne : list ≠ [] := by
            rintro rfl
            cases hlast hany
          rw [← List.cons_append, List.getLast?_append_of_ne_nil _ hne]
          exact hlast hany

/-! ## Expansion -/

/-- Pasting fails for want of an operand only if the macro has a `##` at an end. -/
theorem failsOnly_pasteAll {macros : MacroTable} (hm : m ∈ macros.macros) (site : Location)
    {pieces : List Piece}
    (hhead : pieces.head?.any isOperator = true → m.replacement.head?.any Token.isPaste = true)
    (hlast : pieces.getLast?.any isOperator = true →
      m.replacement.getLast?.any Token.isPaste = true) :
    FailsOnly (FailsWith overflow (∃ m ∈ macros.macros, m.pastesAtEdge = true))
      (pasteAll site pieces) :=
  (failsOnly_pasteAfter site none pieces).mono fun _ => .mono id fun hedge =>
    ⟨m, hm, Bool.or_eq_true_iff.2 (hedge.imp (fun h => hhead h.2) hlast)⟩

variable (e : Expander)

/-- What holds of no tokens and of the arguments holds of an argument that there may not be. -/
theorem argument_of_forall {P : List Token → Prop} (nil : P []) {arguments : List (List Token)}
    (h : ∀ a ∈ arguments, P a) (index : Nat) : P (Expander.argument arguments index) := by
  rw [Expander.argument]
  cases hget : arguments[index]? with
  | none => exact nil
  | some a => exact h a (List.mem_of_getElem? hget)

/-- Some of the tokens are on lines whose numbers are too large. -/
def Overflows (tokens : List Token) : Prop :=
  ∃ t ∈ tokens, ¬ IsInt64 (t.position.line + e.lineDelta)

theorem Overflows.subset {e : Expander} {tokens tokens' : List Token} (h : e.Overflows tokens)
    (hsubset : tokens ⊆ tokens') : e.Overflows tokens' :=
  h.imp fun _ => And.imp_left (hsubset ·)

/-- A replacement and what follows it are on the lines of the macro name and of what follows it. -/
theorem Overflows.of_finish {e : Expander} {pieces : List Piece} {hidden : HideSet} {t : Token}
    {after rest : List Token} (h : e.Overflows (finish pieces hidden t ++ after))
    (hafter : after ⊆ rest) : e.Overflows (t :: rest) := by
  obtain ⟨u, hu, hoverflow⟩ := h
  rcases List.mem_append.1 hu with hu | hu
  · exact ⟨t, List.mem_cons_self, position_of_mem_finish hu ▸ hoverflow⟩
  · exact ⟨u, List.mem_cons_of_mem t (hafter hu), hoverflow⟩

/-- **What macro expansion fails with.** -/
theorem failsOnly_expand (tokens : List Token) :
    FailsOnly (FailsWith (e.Overflows tokens) (∃ m ∈ e.macros.macros, m.pastesAtEdge = true))
      (e.expand tokens) := by
  induction tokens using e.expand_induction with
  | nil =>
    rw [expand_nil]
    exact .ok []
  | kept t rest hk ih =>
    rw [e.expand_kept hk]
    have hsubset := List.subset_cons_of_subset t (List.drop_subset (operandLength rest) rest)
    exact (ih.mono fun _ => .mono (·.subset hsubset) id).bind fun _ _ => .ok _
  | plain t rest t' hk h ih =>
    rw [e.expand_plain hk h]
    have hsubset := List.subset_cons_self t rest
    exact (ih.mono fun _ => .mono (·.subset hsubset) id).bind fun _ _ => .ok _
  | overflow t rest hk h =>
    rw [e.expand_overflow hk h]
    obtain ⟨_, -, -, hoverflow⟩ := Prosser.exists_of_reading_overflow h
    exact .located _ (.lineOverflow ⟨t, List.mem_cons_self, hoverflow⟩)
  | object t rest m hk h ih =>
    rw [e.expand_object hk h]
    have hm := (MacroTable.lookup_eq_some (names_of_reading_object h).1.lookup).2
    refine (failsOnly_pasteAll hm _ ?_ ?_).bind fun pieces _ =>
      (ih pieces).mono fun _ => .mono (·.of_finish (List.Subset.refl rest)) id
    · simp only [List.head?_map, Option.any_map, isOperator_of, imp_self]
    · simp only [List.getLast?_map, Option.any_map, isOperator_of, imp_self]
  | unterminated t rest m parameters variadic hk h hi =>
    rw [e.expand_unterminated hk h hi]
    exact .located _ (.unterminatedInvocation _)
  | miscounted t rest m parameters variadic i hk h hi hfit =>
    rw [e.expand_miscounted hk h hi hfit]
    exact .located _ (.argumentCount _ _ _)
  | function t rest m parameters variadic i arguments hk h hi hfit iha ih =>
    rw [e.expand_function hk h hi hfit]
    obtain ⟨names, -, hopens⟩ := opens_of_reading h
    have hm := (MacroTable.lookup_eq_some hopens.lookup).2
    obtain ⟨opening, inside, rfl, hinside⟩ := exists_of_readInvocation hi
    have harguments : ∀ a ∈ arguments, FailsOnly (FailsWith
        (e.Overflows (t :: opening :: (inside ++ i.close :: i.after)))
        (∃ m ∈ e.macros.macros, m.pastesAtEdge = true)) (e.expand a) := by
      intro a ha
      refine (iha a ha).mono fun _ => .mono (·.subset fun u hu => ?_) id
      have hu : u ∈ inside := by
        rcases mem_fitArguments hfit ha with hmem | rfl
        · exact (hinside a hmem).subset hu
        · cases hu
      simp [hu]
    have hargument := argument_of_forall (by rw [expand_nil]; exact .ok []) harguments
    refine (failsOnly_substitute hargument false m.replacement).bind fun pieces hpieces => ?_
    obtain ⟨-, hhead, hlast⟩ := edges_of_substitute hpieces
    refine (failsOnly_pasteAll hm _ hhead hlast).bind fun pieces _ =>
      (ih pieces).mono fun _ => .mono (·.of_finish ?_) id
    intro u hu
    simp [hu]

end Expander

end CPreprocessor
