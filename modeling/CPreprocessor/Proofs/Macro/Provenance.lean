import CPreprocessor.Proofs.Macro.Congruence

/-!
# Where expanded tokens come from

Tokens that are expanded may carry labels along (`Expander.Carries`): a token that is left alone
keeps its label, and all that replaces an invocation gets the label of the macro name. Since this
goes on while the replacement is scanned again, a token that comes out has the label of itself or of
the outermost macro name that it comes from.

Labels are of no influence on expansion (`Expander.exists_carries`). What comes out has the labels
in the order in which they went in (`Expander.Carries.pairwise`), and each token is where the token
with its label was (`Expander.Carries.position_eq`), since a replacement is moved to the macro name.
-/

namespace CPreprocessor

/-- A replacement is finished pieces. -/
theorem Macro.exists_eq_finish {m : Macro} {site : Location} {argument : Nat → List Token}
    {expanded : Nat → Except Fault (List Token)} {hidden : HideSet} {t : Token}
    {tokens : List Token} (h : m.replace site argument expanded hidden t = .ok tokens) :
    ∃ pieces, tokens = finish pieces hidden t := by
  obtain ⟨_, _, h⟩ := exists_of_bind_eq_ok h
  obtain ⟨pieces, _, h⟩ := exists_of_bind_eq_ok h
  cases h
  exact ⟨pieces, rfl⟩

namespace Expander

variable {e : Expander}

theorem position_of_reading {t t' : Token} {rest : List Token}
    (h : e.reading t rest = .plain t') : t'.position = t.position := by
  unfold reading at h
  split at h
  · cases h
    rfl
  · split at h
    · cases h
      rfl
    · split at h
      · split at h
        · cases h
          rfl
        · cases h
      · cases h
        rfl
      · cases h
      · split at h
        · cases h
        · cases h
          rfl

/-- Tokens that are expanded, each with a label, and the labels that the tokens have that they are
expanded to. -/
inductive Carries {α : Type} (e : Expander) : List (Token × α) → List (Token × α) → Prop
  | nil : Carries e [] []
  | kept {t : Token} {label : α} {rest output : List (Token × α)} (hk : e.isKeptDefined t = true)
      (others : Carries e (rest.drop (operandLength (rest.map Prod.fst))) output) :
      Carries e ((t, label) :: rest)
        ((t, label) :: (rest.take (operandLength (rest.map Prod.fst)) ++ output))
  | plain {t t' : Token} {label : α} {rest output : List (Token × α)}
      (hk : e.isKeptDefined t = false) (reading : e.reading t (rest.map Prod.fst) = .plain t')
      (others : Carries e rest output) : Carries e ((t, label) :: rest) ((t', label) :: output)
  /-- The replacement gets the label of the name. -/
  | object {t : Token} {label : α} {rest output : List (Token × α)} {m : Macro}
      {tokens : List Token} (hk : e.isKeptDefined t = false)
      (reading : e.reading t (rest.map Prod.fst) = .object m)
      (replace : m.replace (e.locationOf t) (fun _ => []) (fun _ => .ok [])
        (t.hidden.insert m.name) t = .ok tokens)
      (others : Carries e (tokens.map (·, label) ++ rest) output) :
      Carries e ((t, label) :: rest) output
  /-- The replacement gets the label of the name, and so do the arguments in it. -/
  | function {t : Token} {label : α} {rest after output : List (Token × α)} {m : Macro}
      {parameters : Nat} {variadic : Bool} {i : Invocation} {arguments : List (List Token)}
      {tokens : List Token} (hk : e.isKeptDefined t = false)
      (reading : e.reading t (rest.map Prod.fst) = .function m parameters variadic)
      (invocation : invocation? parameters variadic (rest.map Prod.fst) = some i)
      (arguments_eq : fitArguments parameters variadic i.arguments = some arguments)
      (suffix : after <:+ rest) (after_eq : after.map Prod.fst = i.after)
      (replace : m.replace (e.locationOf t) (argument arguments)
        (fun index => e.expand (argument arguments index)) (hiddenIn m t i) t = .ok tokens)
      (others : Carries e (tokens.map (·, label) ++ after) output) :
      Carries e ((t, label) :: rest) output

section

variable {α : Type} {tokens output : List (Token × α)}

theorem map_fst_labelled (label : α) (tokens : List Token) (rest : List (Token × α)) :
    (tokens.map (·, label) ++ rest).map Prod.fst = tokens ++ rest.map Prod.fst := by
  simp [Function.comp_def]

/-- **Labels are of no influence on expansion.** -/
theorem Carries.expand_eq (h : Carries e tokens output) :
    e.expand (tokens.map Prod.fst) = .ok (output.map Prod.fst) := by
  induction h with
  | nil => exact e.expand_nil
  | @kept t label rest output hk _ ih =>
    rw [List.map_drop] at ih
    rw [List.map_cons, e.expand_kept hk, ih, List.map_cons, List.map_append, List.map_take]
    rfl
  | plain hk reading _ ih =>
    rw [List.map_cons, e.expand_plain hk reading, ih]
    rfl
  | object hk reading replace _ ih =>
    rw [map_fst_labelled] at ih
    rw [List.map_cons, expand_object_eq_replace hk reading, replace]
    exact ih
  | function hk reading invocation arguments_eq suffix after_eq replace _ ih =>
    rw [map_fst_labelled, after_eq] at ih
    rw [List.map_cons, expand_function_eq_replace hk reading invocation arguments_eq, replace]
    exact ih

/-- What follows an invocation has the labels that it had. -/
theorem exists_suffix {parameters : Nat} {variadic : Bool} {i : Invocation}
    {rest : List (Token × α)} (h : invocation? parameters variadic (rest.map Prod.fst) = some i) :
    ∃ after, after <:+ rest ∧ after.map Prod.fst = i.after := by
  obtain ⟨opening, inside, hrest, -⟩ := exists_of_readInvocation h
  rw [List.append_cons, ← List.cons_append, ← List.cons_append] at hrest
  obtain ⟨before, after, rfl, -, hafter⟩ := List.map_eq_append_iff.1 hrest
  exact ⟨after, List.suffix_append before after, hafter⟩

/-- Whatever can be expanded can carry labels along. -/
theorem exists_carries {expanded : List Token}
    (h : e.expand (tokens.map Prod.fst) = .ok expanded) : ∃ output, Carries e tokens output := by
  induction hall : tokens.map Prod.fst using e.expand_induction generalizing tokens expanded with
  | nil =>
    rw [List.map_eq_nil_iff.1 hall]
    exact ⟨[], .nil⟩
  | kept t rest hk ih =>
    obtain ⟨⟨_, label⟩, others, rfl, rfl, rfl⟩ := List.map_eq_cons_iff.1 hall
    rw [hall, e.expand_kept hk] at h
    obtain ⟨_, hothers, -⟩ := exists_of_bind_eq_ok h
    rw [← List.map_drop] at hothers
    obtain ⟨output, hcarries⟩ := ih hothers List.map_drop
    exact ⟨_, .kept hk hcarries⟩
  | plain t rest t' hk hread ih =>
    obtain ⟨⟨_, label⟩, others, rfl, rfl, rfl⟩ := List.map_eq_cons_iff.1 hall
    rw [hall, e.expand_plain hk hread] at h
    obtain ⟨_, hothers, -⟩ := exists_of_bind_eq_ok h
    obtain ⟨output, hcarries⟩ := ih hothers rfl
    exact ⟨_, .plain hk hread hcarries⟩
  | overflow t rest hk hread =>
    rw [hall, e.expand_overflow hk hread] at h
    cases h
  | object t rest m hk hread ih =>
    obtain ⟨⟨_, label⟩, others, rfl, rfl, rfl⟩ := List.map_eq_cons_iff.1 hall
    rw [hall, expand_object_eq_replace hk hread] at h
    obtain ⟨replacement, hreplace, hothers⟩ := exists_of_bind_eq_ok h
    obtain ⟨pieces, rfl⟩ := Macro.exists_eq_finish hreplace
    rw [← map_fst_labelled label] at hothers
    obtain ⟨output, hcarries⟩ := ih pieces hothers (map_fst_labelled label _ _)
    exact ⟨output, .object hk hread hreplace hcarries⟩
  | unterminated t rest m parameters variadic hk hread hi =>
    rw [hall, e.expand_unterminated hk hread hi] at h
    cases h
  | miscounted t rest m parameters variadic i hk hread hi hfit =>
    rw [hall, e.expand_miscounted hk hread hi hfit] at h
    cases h
  | function t rest m parameters variadic i arguments hk hread hi hfit _ ih =>
    obtain ⟨⟨_, label⟩, others, rfl, rfl, rfl⟩ := List.map_eq_cons_iff.1 hall
    obtain ⟨after, hsuffix, hafter⟩ := exists_suffix hi
    rw [hall, expand_function_eq_replace hk hread hi hfit] at h
    obtain ⟨replacement, hreplace, hothers⟩ := exists_of_bind_eq_ok h
    obtain ⟨pieces, rfl⟩ := Macro.exists_eq_finish hreplace
    rw [← hafter, ← map_fst_labelled label] at hothers
    obtain ⟨output, hcarries⟩ := ih pieces hothers (by rw [map_fst_labelled, hafter])
    exact ⟨output, .function hk hread hi hfit hsuffix hafter hreplace hcarries⟩

/-- What holds of a token with its label, and of what a replacement is made of, holds of all that
comes out. -/
theorem Carries.forall_mem {P : Token → α → Prop}
    (hplain : ∀ t t' rest label, e.reading t rest = .plain t' → P t label → P t' label)
    (hfinish : ∀ pieces hidden t label, P t label → ∀ u ∈ finish pieces hidden t, P u label)
    (h : Carries e tokens output) (htokens : ∀ x ∈ tokens, P x.1 x.2) :
    ∀ x ∈ output, P x.1 x.2 := by
  have hreplaced {t : Token} {label : α} {rest : List (Token × α)} {replacement : List Token}
      {m : Macro} {site : Location} {given : Nat → List Token}
      {expanded : Nat → Except Fault (List Token)} {hidden : HideSet} (ht : P t label)
      (hrest : ∀ x ∈ rest, P x.1 x.2)
      (hreplace : m.replace site given expanded hidden t = .ok replacement) :
      ∀ x ∈ replacement.map (·, label) ++ rest, P x.1 x.2 := by
    obtain ⟨pieces, rfl⟩ := Macro.exists_eq_finish hreplace
    exact List.forall_mem_append.2
      ⟨List.forall_mem_map.2 (hfinish pieces hidden t label ht), hrest⟩
  induction h with
  | nil => exact List.forall_mem_nil _
  | kept hk _ ih =>
    obtain ⟨ht, hrest⟩ := List.forall_mem_cons.1 htokens
    exact List.forall_mem_cons.2 ⟨ht, List.forall_mem_append.2
      ⟨fun x hx => hrest x (List.mem_of_mem_take hx),
        ih fun x hx => hrest x (List.mem_of_mem_drop hx)⟩⟩
  | plain hk reading _ ih =>
    obtain ⟨ht, hrest⟩ := List.forall_mem_cons.1 htokens
    exact List.forall_mem_cons.2 ⟨hplain _ _ _ _ reading ht, ih hrest⟩
  | object hk reading replace _ ih =>
    obtain ⟨ht, hrest⟩ := List.forall_mem_cons.1 htokens
    exact ih (hreplaced ht hrest replace)
  | function hk reading invocation arguments_eq suffix after_eq replace _ ih =>
    obtain ⟨ht, hrest⟩ := List.forall_mem_cons.1 htokens
    exact ih (hreplaced ht (fun x hx => hrest x (suffix.subset hx)) replace)

/-- Each token is where the token with its label was. -/
theorem Carries.position_eq (position : α → Source.Position) (h : Carries e tokens output)
    (htokens : ∀ x ∈ tokens, x.1.position = position x.2) :
    ∀ x ∈ output, x.1.position = position x.2 :=
  h.forall_mem (P := fun t label => t.position = position label)
    (fun _ _ _ _ hread ht => (position_of_reading hread).trans ht)
    (fun _ _ _ _ ht _ hu => (position_of_mem_finish hu).trans ht) htokens

/-- No label comes out that did not go in. -/
theorem Carries.exists_label_eq (h : Carries e tokens output) :
    ∀ x ∈ output, ∃ y ∈ tokens, y.2 = x.2 :=
  h.forall_mem (P := fun _ label => ∃ y ∈ tokens, y.2 = label) (fun _ _ _ _ _ ht => ht)
    (fun _ _ _ _ ht _ _ => ht) fun x hx => ⟨x, hx, rfl⟩

/-- **Labels come out in order**, those of a replacement next to each other. -/
theorem Carries.pairwise {r : α → α → Prop} (hrefl : ∀ a, r a a) (h : Carries e tokens output)
    (htokens : tokens.Pairwise fun x y => r x.2 y.2) : output.Pairwise fun x y => r x.2 y.2 := by
  have hreplaced {t : Token} {label : α} {rest after : List (Token × α)} (replacement : List Token)
      (htokens : ((t, label) :: rest).Pairwise fun x y => r x.2 y.2) (hafter : after.Sublist rest) :
      (replacement.map (·, label) ++ after).Pairwise fun x y => r x.2 y.2 := by
    obtain ⟨hlabel, hrest⟩ := List.pairwise_cons.1 htokens
    refine List.pairwise_append.2 ⟨?_, hrest.sublist hafter, List.forall_mem_map.2
      fun _ _ y hy => hlabel y (hafter.subset hy)⟩
    exact List.pairwise_map.2 (List.pairwise_of_forall fun _ _ => hrefl label)
  induction h with
  | nil => exact .nil
  | @kept t label rest output hk others ih =>
    obtain ⟨hlabel, hrest⟩ := List.pairwise_cons.1 htokens
    rw [← List.take_append_drop (operandLength (rest.map Prod.fst)) rest] at hlabel hrest
    obtain ⟨htake, hdrop, hbetween⟩ := List.pairwise_append.1 hrest
    refine List.pairwise_cons.2 ⟨List.forall_mem_append.2 ⟨fun x hx => ?_, fun x hx => ?_⟩,
      List.pairwise_append.2 ⟨htake, ih hdrop, fun x hx y hy => ?_⟩⟩
    · exact hlabel x (List.mem_append_left _ hx)
    · obtain ⟨y, hy, heq⟩ := others.exists_label_eq x hx
      exact heq ▸ hlabel y (List.mem_append_right _ hy)
    · obtain ⟨z, hz, heq⟩ := others.exists_label_eq y hy
      exact heq ▸ hbetween x hx z hz
  | plain hk reading others ih =>
    obtain ⟨hlabel, hrest⟩ := List.pairwise_cons.1 htokens
    refine List.pairwise_cons.2 ⟨fun x hx => ?_, ih hrest⟩
    obtain ⟨y, hy, heq⟩ := others.exists_label_eq x hx
    exact heq ▸ hlabel y hy
  | object hk reading replace _ ih =>
    exact ih (hreplaced _ htokens (List.Sublist.refl _))
  | function hk reading invocation arguments_eq suffix after_eq replace _ ih =>
    exact ih (hreplaced _ htokens suffix.sublist)

/-- Tokens with labels are expanded in one way only. -/
theorem Carries.unique {output' : List (Token × α)} (h : Carries e tokens output)
    (h' : Carries e tokens output') : output = output' := by
  induction h generalizing output' with
  | nil =>
    cases h'
    rfl
  | kept hk _ ih =>
    cases h' with
    | kept _ others => rw [ih others]
    | plain hk' | object hk' | function hk' => exact absurd (hk.symm.trans hk') (by decide)
  | plain hk reading _ ih =>
    cases h' with
    | kept hk' => exact absurd (hk.symm.trans hk') (by decide)
    | plain _ reading' others =>
      cases reading.symm.trans reading'
      rw [ih others]
    | object _ reading' | function _ reading' => cases reading.symm.trans reading'
  | object hk reading replace _ ih =>
    cases h' with
    | kept hk' => exact absurd (hk.symm.trans hk') (by decide)
    | plain _ reading' | function _ reading' => cases reading.symm.trans reading'
    | object _ reading' replace' others =>
      cases reading.symm.trans reading'
      cases replace.symm.trans replace'
      exact ih others
  | function hk reading invocation arguments_eq suffix after_eq replace _ ih =>
    cases h' with
    | kept hk' => exact absurd (hk.symm.trans hk') (by decide)
    | plain _ reading' | object _ reading' => cases reading.symm.trans reading'
    | function _ reading' invocation' arguments_eq' suffix' after_eq' replace' others =>
      cases reading.symm.trans reading'
      cases invocation.symm.trans invocation'
      cases arguments_eq.symm.trans arguments_eq'
      cases replace.symm.trans replace'
      have hlength := congrArg List.length (after_eq.trans after_eq'.symm)
      rw [List.length_map, List.length_map] at hlength
      obtain rfl := (List.suffix_of_suffix_length_le suffix suffix' hlength.le).eq_of_length hlength
      exact ih others

end

end Expander

end CPreprocessor
