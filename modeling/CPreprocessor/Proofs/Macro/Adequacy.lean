import CPreprocessor.Proofs.Macro.Replacement

/-!
# Expansion is Prosser's algorithm

The expander gives what the recursive specification says, the same tokens with the same hide sets or
the same error, if the specification lets a token glued together hide what the left one of its two
parts hides (`expands_iff_expand_eq`). One direction is by induction along the expansion. The other
one follows because the rules give at most one result (`Expands.unique`), whatever a token glued
together hides.

In Prosser's algorithm, a token glued together hides only what both parts hide. The difference shows
where the two parts come from different replacements (`expands_inter_openCat`).
-/

namespace CPreprocessor.Prosser

open Expander

/-! ## What a token is -/

section

variable {e : Expander} {t : Token} {rest : List Token} {m : Macro}

theorem reading_of_names (h : Names e.macros t m) :
    e.reading t rest =
      match m.kind with
      | .line =>
        if IsInt64 (t.position.line + e.lineDelta) then
          .plain { t with
            kind := .number
            text := Bytes.ofString (toString (t.position.line + e.lineDelta)) }
        else .overflow
      | .file => .plain { t with kind := .string, text := quote (Bytes.ofString e.file) }
      | .object => .object m
      | .function parameters variadic =>
        if rest.head?.any Token.isOpen then .function m parameters.length variadic
        else .plain t := by
  have hnot : ¬ (!t.isIdentifier ∨ t.text ∈ t.hidden) := by
    simp [h.isIdentifier, h.notHidden]
  cases hkind : m.kind <;> simp only [reading, if_neg hnot, h.lookup, hkind]

theorem reading_of_forall_not_names (h : ∀ m, ¬ Names e.macros t m) :
    e.reading t rest = .plain t := by
  unfold reading
  split
  · rfl
  · next hnot =>
    simp only [not_or, Bool.not_eq_true', Bool.not_eq_false] at hnot
    cases hlookup : e.macros.lookup t.text with
    | none => rfl
    | some m => exact absurd ⟨hnot.1, hnot.2, hlookup⟩ (h m)

theorem Opens.reading_eq {parameters : List Bytes} {variadic : Bool}
    (h : Opens e.macros t rest m parameters variadic) :
    e.reading t rest = .function m parameters.length variadic := by
  rw [reading_of_names h.toNames, h.kind]
  exact if_pos h.isOpen

theorem opens_of_reading {n : Nat} {variadic : Bool}
    (h : e.reading t rest = .function m n variadic) :
    ∃ parameters, n = parameters.length ∧ Opens e.macros t rest m parameters variadic := by
  by_cases hnames : ∃ m, Names e.macros t m
  · obtain ⟨m', hm'⟩ := hnames
    rw [reading_of_names hm'] at h
    cases hkind : m'.kind with
    | line =>
      rw [hkind] at h
      dsimp only at h
      split at h <;> cases h
    | file | object => rw [hkind] at h; cases h
    | function parameters variadic' =>
      rw [hkind] at h
      dsimp only at h
      split at h
      · next hopen =>
        cases h
        exact ⟨parameters, rfl, hm', hkind, hopen⟩
      · cases h
  · rw [reading_of_forall_not_names (not_exists.1 hnames)] at h
    cases h

theorem names_of_reading_object (h : e.reading t rest = .object m) :
    Names e.macros t m ∧ m.kind = .object := by
  by_cases hnames : ∃ m, Names e.macros t m
  · obtain ⟨m', hm'⟩ := hnames
    rw [reading_of_names hm'] at h
    cases hkind : m'.kind with
    | file => rw [hkind] at h; cases h
    | object =>
      rw [hkind] at h
      cases h
      exact ⟨hm', hkind⟩
    | line | function parameters variadic =>
      rw [hkind] at h
      dsimp only at h
      split at h <;> cases h
  · rw [reading_of_forall_not_names (not_exists.1 hnames)] at h
    cases h

/-- A number is too large to be computed only where a token names the macro of line numbers. -/
theorem exists_of_reading_overflow (h : e.reading t rest = .overflow) :
    ∃ m, Names e.macros t m ∧ m.kind = .line ∧ ¬ IsInt64 (t.position.line + e.lineDelta) := by
  by_cases hnames : ∃ m, Names e.macros t m
  · obtain ⟨m, hm⟩ := hnames
    rw [reading_of_names hm] at h
    cases hkind : m.kind with
    | line =>
      rw [hkind] at h
      dsimp only at h
      split at h
      · cases h
      · next hfits => exact ⟨m, hm, hkind, hfits⟩
    | file | object => rw [hkind] at h; cases h
    | function parameters variadic =>
      rw [hkind] at h
      dsimp only at h
      split at h <;> cases h
  · rw [reading_of_forall_not_names (not_exists.1 hnames)] at h
    cases h

theorem Names.eq {m' : Macro} (h : Names e.macros t m) (h' : Names e.macros t m') : m = m' :=
  Option.some.inj (h.lookup.symm.trans h'.lookup)

/-- A token that is not expanded any further stays in front of what comes after it. -/
theorem expands_of_reading_plain {hide : HideSet → HideSet → HideSet} {t' : Token}
    {result : Except Fault (List Token)} (h : e.reading t rest = .plain t')
    (others : Expands hide e rest result) :
    Expands hide e (t :: rest) (result.map (t' :: ·)) := by
  by_cases hnames : ∃ m, Names e.macros t m
  · obtain ⟨m, hm⟩ := hnames
    rw [reading_of_names hm] at h
    cases hkind : m.kind with
    | line =>
      rw [hkind] at h
      dsimp only at h
      split at h
      · next hfits =>
        cases h
        exact .line hm hkind hfits others
      · cases h
    | file =>
      rw [hkind] at h
      cases h
      exact .file hm hkind others
    | object => rw [hkind] at h; cases h
    | function parameters variadic =>
      rw [hkind] at h
      dsimp only at h
      split at h
      · cases h
      · next hopen =>
        cases h
        refine .other (fun m' hm' => ?_) others
        obtain rfl := hm.eq hm'
        exact ⟨by rw [Macro.isFunctionLike, hkind], Bool.eq_false_iff.2 hopen⟩
  · rw [reading_of_forall_not_names (not_exists.1 hnames)] at h
    cases h
    exact .other (fun m hm => absurd ⟨m, hm⟩ hnames) others

theorem reading_of_other
    (h : ∀ m, Names e.macros t m → m.isFunctionLike = true ∧ rest.head?.any Token.isOpen = false) :
    e.reading t rest = .plain t := by
  by_cases hnames : ∃ m, Names e.macros t m
  · obtain ⟨m, hm⟩ := hnames
    obtain ⟨hlike, hopen⟩ := h m hm
    rw [reading_of_names hm]
    cases hkind : m.kind with
    | line | file | object => rw [Macro.isFunctionLike, hkind] at hlike; cases hlike
    | function parameters variadic => exact if_neg (Bool.eq_false_iff.1 hopen)
  · exact reading_of_forall_not_names (not_exists.1 hnames)

end

/-! ## One result -/

section

variable {hide : HideSet → HideSet → HideSet} {e : Expander} {t : Token} {rest : List Token}
  {result : Except Fault (List Token)}

theorem Operand.value_congr {given expanded expanded' : Nat → List Token} {o : Operand}
    (h : ∀ j, o.demand? = some j → expanded j = expanded' j) :
    o.value given expanded = o.value given expanded' := by
  cases o with
  | token | string => rfl
  | argument parameter index pasted =>
    cases pasted with
    | false => simp only [value, h index rfl]
    | true => rfl

theorem assemble_congr {site : Location} {value value' : Operand → Sequence} :
    ∀ {parts : List Operand} (before : Sequence), (∀ o ∈ parts, value o = value' o) →
      assemble hide site value before parts = assemble hide site value' before parts
  | [], before, _ => rfl
  | [o], before, h => by rw [assemble, assemble, h o List.mem_cons_self]
  | o :: right :: rest, before, h => by
    obtain ⟨ho, hmore⟩ := List.forall_mem_cons.1 h
    obtain ⟨hright, hrest⟩ := List.forall_mem_cons.1 hmore
    rw [assemble, assemble, ho, hright]
    split
    · congr 1
      funext glued
      exact assemble_congr glued hrest
    · exact assemble_congr _ hmore

/-- Only the arguments that have to be expanded matter as expanded ones. -/
theorem assemble_value_congr {site : Location} {m : Macro}
    {given expanded expanded' : Nat → List Token} (h : ∀ j ∈ demands m, expanded j = expanded' j) :
    assemble hide site (Operand.value given expanded) [] (operands m false m.replacement) =
      assemble hide site (Operand.value given expanded') [] (operands m false m.replacement) :=
  assemble_congr [] fun o ho =>
    Operand.value_congr fun j hj => h j (List.mem_filterMap.2 ⟨o, ho, hj⟩)

/-- The result follows from the replacement of a macro in front of other tokens. -/
def Replaces (hide : HideSet → HideSet → HideSet) (e : Expander) (site : Token) (m : Macro)
    (given expanded : Nat → List Token) (hidden : HideSet) (after : List Token)
    (result : Except Fault (List Token)) : Prop :=
  match assemble hide (e.locationOf site) (Operand.value given expanded) []
    (operands m false m.replacement) with
  | .error fault => result = .error fault
  | .ok sequence => Expands hide e (placed site hidden sequence ++ after) result

/-- The result follows from an invocation with the given arguments. -/
def Calls (hide : HideSet → HideSet → HideSet) (e : Expander) (site : Token) (m : Macro)
    (i : Invocation) (arguments : List (List Token)) (result : Except Fault (List Token)) : Prop :=
  (∃ earlier index later fault, demands m = earlier ++ index :: later ∧
    (∀ j ∈ earlier, ∃ tokens, Expands hide e (argument arguments j) (.ok tokens)) ∧
      Expands hide e (argument arguments index) (.error fault) ∧ result = .error fault) ∨
  ∃ expanded : Nat → List Token,
    (∀ j ∈ demands m, Expands hide e (argument arguments j) (.ok (expanded j))) ∧
      Replaces hide e site m (argument arguments) expanded
        ((site.hidden.inter i.close.hidden).insert m.name) i.after result

/-- The result follows from what the first token is. -/
def Derives (hide : HideSet → HideSet → HideSet) (e : Expander) (t : Token) (rest : List Token)
    (result : Except Fault (List Token)) : Reading → Prop
  | .plain t' => ∃ others, Expands hide e rest others ∧ result = others.map (t' :: ·)
  | .overflow => result = .error (.located (e.locationOf t) .lineOverflow)
  | .object m =>
    Replaces hide e t m (fun _ => []) (fun _ => []) (t.hidden.insert m.name) rest result
  | .function m n variadic =>
    match invocation? n variadic rest with
    | none => result = .error (.located (e.locationOf t) (.unterminatedInvocation t.spelling))
    | some i =>
      match fitArguments n variadic i.arguments with
      | none => result = .error (.located (e.locationOf t)
          (.argumentCount t.spelling i.arguments.length n))
      | some arguments => Calls hide e t m i arguments result

theorem derives_of_invokes {m : Macro} {parameters : List Bytes} {variadic : Bool} {i : Invocation}
    {arguments : List (List Token)} (invokes : Invokes e.macros t rest m parameters variadic i
      arguments) :
    Derives hide e t rest result (e.reading t rest) ↔ Calls hide e t m i arguments result := by
  rw [invokes.reading_eq, Derives, invokes.invocation]
  dsimp only
  rw [invokes.arguments]

/-- **What a token is says which rule its expansion follows from.** -/
theorem Expands.derives (h : Expands hide e (t :: rest) result) :
    Derives hide e t rest result (e.reading t rest) := by
  cases h with
  | other h others => rw [reading_of_other h]; exact ⟨_, others, rfl⟩
  | line names kind fits others =>
    rw [reading_of_names names, kind]
    dsimp only
    rw [if_pos fits]
    exact ⟨_, others, rfl⟩
  | lineFault names kind overflows =>
    rw [reading_of_names names, kind]
    dsimp only
    rw [if_neg overflows]
    rfl
  | file names kind others => rw [reading_of_names names, kind]; exact ⟨_, others, rfl⟩
  | object names kind assembled others =>
    rw [reading_of_names names, kind, Derives, Replaces, assembled]
    exact others
  | objectFault names kind assembled =>
    rw [reading_of_names names, kind, Derives, Replaces, assembled]
  | unterminated opens invocation => rw [opens.reading_eq, Derives, invocation]
  | miscounted opens invocation arguments =>
    rw [opens.reading_eq, Derives, invocation]
    dsimp only
    rw [arguments]
  | argumentFault invokes demanded expands fails =>
    exact (derives_of_invokes invokes).2 (.inl
      ⟨_, _, _, _, demanded, fun j hj => ⟨_, expands j hj⟩, fails, rfl⟩)
  | function invokes expands assembled others =>
    refine (derives_of_invokes invokes).2 (.inr ⟨_, expands, ?_⟩)
    rw [Replaces, assembled]
    exact others
  | functionFault invokes expands assembled =>
    refine (derives_of_invokes invokes).2 (.inr ⟨_, expands, ?_⟩)
    rw [Replaces, assembled]

theorem Expands.of_reading_plain {t' : Token} (h : Expands hide e (t :: rest) result)
    (hread : e.reading t rest = .plain t') :
    ∃ others, Expands hide e rest others ∧ result = others.map (t' :: ·) := by
  have hderives := h.derives
  rwa [hread] at hderives

/-- If each argument that has to be expanded has one result only, what follows from an invocation
follows from the replacement with these results. -/
theorem Calls.replaces {m : Macro} {i : Invocation} {arguments : List (List Token)}
    (h : Calls hide e t m i arguments result) {expanded : Nat → List Token}
    (hunique : ∀ j ∈ demands m, ∀ r,
      Expands hide e (argument arguments j) r → .ok (expanded j) = r) :
    Replaces hide e t m (argument arguments) expanded
      ((t.hidden.inter i.close.hidden).insert m.name) i.after result := by
  obtain ⟨earlier, index, later, fault, demanded, -, fails, -⟩ | ⟨expanded', expands, hreplaces⟩ := h
  · cases hunique index (demanded ▸ List.mem_append_cons_self) _ fails
  · have heq : ∀ j ∈ demands m, expanded j = expanded' j := fun j hj =>
      Except.ok.inj (hunique j hj _ (expands j hj))
    rwa [Replaces, ← assemble_value_congr heq] at hreplaces

/-- Two elements of a list are the same one if neither of them is before the other. -/
theorem eq_of_append_cons_eq {earlier earlier' later later' : List Nat} {i j : Nat}
    (h : earlier ++ i :: later = earlier' ++ j :: later') (hi : i ∉ earlier') (hj : j ∉ earlier) :
    i = j := by
  obtain ⟨middle, rfl, htail⟩ | ⟨middle, rfl, htail⟩ := List.append_eq_append_iff.1 h
  · cases middle with
    | nil => exact (List.cons.inj htail).1
    | cons first middle =>
      obtain rfl := (List.cons.inj htail).1
      exact absurd List.mem_append_cons_self hi
  · cases middle with
    | nil => exact (List.cons.inj htail).1.symm
    | cons first middle =>
      obtain rfl := (List.cons.inj htail).1
      exact absurd List.mem_append_cons_self hj

/-- **The rules give at most one result**, whatever a token glued together hides. -/
theorem Expands.unique {tokens : List Token} {result' : Except Fault (List Token)}
    (h : Expands hide e tokens result) (h' : Expands hide e tokens result') : result = result' := by
  induction h generalizing result' with
  | nil => cases h'; rfl
  | other h others ih =>
    obtain ⟨others', hothers, rfl⟩ := h'.of_reading_plain (reading_of_other h)
    rw [ih hothers]
  | line names kind fits others ih =>
    obtain ⟨others', hothers, rfl⟩ := h'.of_reading_plain
      (by rw [reading_of_names names, kind]; exact if_pos fits)
    rw [ih hothers]
  | lineFault names kind overflows =>
    have hderives := h'.derives
    rw [reading_of_names names, kind] at hderives
    dsimp only at hderives
    rw [if_neg overflows] at hderives
    exact hderives.symm
  | file names kind others ih =>
    obtain ⟨others', hothers, rfl⟩ := h'.of_reading_plain (by rw [reading_of_names names, kind])
    rw [ih hothers]
  | object names kind assembled others ih =>
    have hderives := h'.derives
    rw [reading_of_names names, kind, Derives, Replaces, assembled] at hderives
    exact ih hderives
  | objectFault names kind assembled =>
    have hderives := h'.derives
    rw [reading_of_names names, kind, Derives, Replaces, assembled] at hderives
    exact hderives.symm
  | unterminated opens invocation =>
    have hderives := h'.derives
    rw [opens.reading_eq, Derives, invocation] at hderives
    exact hderives.symm
  | miscounted opens invocation arguments =>
    have hderives := h'.derives
    rw [opens.reading_eq, Derives, invocation] at hderives
    dsimp only at hderives
    rw [arguments] at hderives
    exact hderives.symm
  | argumentFault invokes demanded expands fails ihs ih =>
    obtain ⟨earlier', index', later', fault', demanded', expands', fails', rfl⟩ |
      ⟨expanded', expands', -⟩ := (derives_of_invokes invokes).1 h'.derives
    · obtain rfl := eq_of_append_cons_eq (demanded.symm.trans demanded')
        (fun hmem => by obtain ⟨tokens, htokens⟩ := expands' _ hmem; cases ih htokens)
        (fun hmem => by cases ihs _ hmem fails')
      exact ih fails'
    · cases ih (expands' _ (demanded ▸ List.mem_append_cons_self))
  | function invokes expands assembled others ihs ih =>
    have replaces := ((derives_of_invokes invokes).1 h'.derives).replaces fun j hj _ => ihs j hj
    rw [Replaces, assembled] at replaces
    exact ih replaces
  | functionFault invokes expands assembled ihs =>
    have replaces := ((derives_of_invokes invokes).1 h'.derives).replaces fun j hj _ => ihs j hj
    rw [Replaces, assembled] at replaces
    exact replaces.symm

end

/-! ## The equations of expansion over assembled replacements -/

section

variable {e : Expander} (hk : e.keepDefined = false) {t : Token} {rest : List Token} {m : Macro}
include hk

theorem isKeptDefined_eq_false (t : Token) : e.isKeptDefined t = false := by
  rw [isKeptDefined, hk]
  rfl

theorem expand_of_reading_plain {t' : Token} (h : e.reading t rest = .plain t') :
    e.expand (t :: rest) = (e.expand rest).map (t' :: ·) := by
  rw [e.expand_plain (isKeptDefined_eq_false hk t) h]
  cases e.expand rest <;> rfl

theorem expand_of_object (names : Names e.macros t m) (kind : m.kind = .object) :
    e.expand (t :: rest) = (do
      let sequence ← assemble hideLeft (e.locationOf t)
        (Operand.value (fun _ => []) (fun _ => [])) [] (operands m false m.replacement)
      e.expand (placed t (t.hidden.insert m.name) sequence ++ rest)) := by
  rw [e.expand_object (isKeptDefined_eq_false hk t) (by rw [reading_of_names names, kind]),
    ← pasteAll_replacement kind]
  simp only [finish_eq_placed]
  cases pasteAll (e.locationOf t) (m.replacement.map .of) <;> rfl

section

variable {parameters : List Bytes} {variadic : Bool} {i : Invocation}
  {arguments : List (List Token)}
  (invokes : Invokes e.macros t rest m parameters variadic i arguments)
include invokes

theorem expand_of_invokes {expanded : Nat → List Token}
    (h : ∀ j ∈ demands m, e.expand (argument arguments j) = .ok (expanded j)) :
    e.expand (t :: rest) = (do
      let sequence ← assemble hideLeft (e.locationOf t)
        (Operand.value (argument arguments) expanded) [] (operands m false m.replacement)
      e.expand
        (placed t ((t.hidden.inter i.close.hidden).insert m.name) sequence ++ i.after)) := by
  rw [e.expand_function (isKeptDefined_eq_false hk t) invokes.reading_eq invokes.invocation
    invokes.arguments, ← substitute_bind_pasteAll h, ← bind_assoc]
  simp only [finish_eq_placed]
  cases (substitute m (argument arguments) (fun j => e.expand (argument arguments j)) false
    m.replacement >>= pasteAll (e.locationOf t)) <;> rfl

theorem expand_of_argument_fault {earlier later : List Nat} {index : Nat} {fault : Fault}
    (demanded : demands m = earlier ++ index :: later)
    (hearlier : ∀ j ∈ earlier, ∃ tokens, e.expand (argument arguments j) = .ok tokens)
    (hindex : e.expand (argument arguments index) = .error fault) :
    e.expand (t :: rest) = .error fault := by
  rw [e.expand_function (isKeptDefined_eq_false hk t) invokes.reading_eq invokes.invocation
    invokes.arguments, substitute_of_fault demanded hearlier hindex]
  rfl

end

end

/-! ## The expander obeys the rules -/

/-- Either all of some arguments can be expanded, or there is a first one that cannot. -/
theorem forall_ok_or_exists_error (f : Nat → Except Fault (List Token)) (indices : List Nat) :
    ∃ value : Nat → List Token,
      (∀ j ∈ indices, f j = .ok (value j)) ∨
        ∃ earlier index later fault, indices = earlier ++ index :: later ∧
          (∀ j ∈ earlier, f j = .ok (value j)) ∧ f index = .error fault := by
  refine ⟨fun j => (f j).toOption.getD [], ?_⟩
  induction indices with
  | nil => exact .inl (List.forall_mem_nil _)
  | cons i indices ih =>
    cases hi : f i with
    | error fault => exact .inr ⟨[], i, indices, fault, rfl, List.forall_mem_nil _, hi⟩
    | ok tokens =>
      have hvalue : f i = .ok ((f i).toOption.getD []) := by rw [hi]; rfl
      obtain h | ⟨earlier, index, later, fault, rfl, hearlier, hfault⟩ := ih
      · exact .inl (List.forall_mem_cons.2 ⟨hvalue, h⟩)
      · exact .inr ⟨i :: earlier, index, later, fault, rfl,
          List.forall_mem_cons.2 ⟨hvalue, hearlier⟩, hfault⟩

theorem exists_outcome_eq (sequence : Sequence) : ∃ pieces, outcome pieces = sequence := by
  refine ⟨sequence.map fun o => o.elim .placemarker .token, ?_⟩
  rw [outcome, List.map_map]
  refine List.map_id'' (fun o => ?_) sequence
  cases o <;> rfl

/-- **What the expander gives follows from the rules.** -/
theorem expands_expand {e : Expander} (hk : e.keepDefined = false) (tokens : List Token) :
    Expands hideLeft e tokens (e.expand tokens) := by
  induction tokens using e.expand_induction with
  | nil =>
    rw [expand_nil]
    exact .nil
  | kept t rest hkept ih => rw [isKeptDefined_eq_false hk] at hkept; cases hkept
  | plain t rest t' hkept hread ih =>
    rw [expand_of_reading_plain hk hread]
    exact expands_of_reading_plain hread ih
  | overflow t rest hkept hread =>
    obtain ⟨m, names, kind, overflows⟩ := exists_of_reading_overflow hread
    rw [e.expand_overflow hkept hread]
    exact .lineFault names kind overflows
  | object t rest m hkept hread ih =>
    obtain ⟨names, kind⟩ := names_of_reading_object hread
    rw [expand_of_object hk names kind]
    cases hassembled : assemble hideLeft (e.locationOf t)
        (Operand.value (fun _ => []) (fun _ => [])) [] (operands m false m.replacement) with
    | error fault => exact .objectFault names kind hassembled
    | ok sequence =>
      obtain ⟨pieces, rfl⟩ := exists_outcome_eq sequence
      have others := ih pieces
      rw [finish_eq_placed] at others
      exact .object names kind hassembled others
  | unterminated t rest m n variadic hkept hread hi =>
    obtain ⟨parameters, rfl, opens⟩ := opens_of_reading hread
    rw [e.expand_unterminated hkept hread hi]
    exact .unterminated opens hi
  | miscounted t rest m n variadic i hkept hread hi hfit =>
    obtain ⟨parameters, rfl, opens⟩ := opens_of_reading hread
    rw [e.expand_miscounted hkept hread hi hfit]
    exact .miscounted opens hi hfit
  | function t rest m n variadic i arguments hkept hread hi hfit harguments ih =>
    obtain ⟨parameters, rfl, opens⟩ := opens_of_reading hread
    have invokes : Invokes e.macros t rest m parameters variadic i arguments := ⟨opens, hi, hfit⟩
    have hargument (j : Nat) : Expands hideLeft e (argument arguments j)
        (e.expand (argument arguments j)) := by
      unfold argument
      cases hget : arguments[j]? with
      | none => rw [Option.getD_none, expand_nil]; exact .nil
      | some a => exact harguments a (List.mem_of_getElem? hget)
    obtain ⟨expanded, hexpanded | ⟨earlier, index, later, fault, demanded, hearlier, hfault⟩⟩ :=
      forall_ok_or_exists_error (fun j => e.expand (argument arguments j)) (demands m)
    · have expands : ∀ j ∈ demands m,
          Expands hideLeft e (argument arguments j) (.ok (expanded j)) :=
        fun j hj => hexpanded j hj ▸ hargument j
      rw [expand_of_invokes hk invokes hexpanded]
      cases hassembled : assemble hideLeft (e.locationOf t)
          (Operand.value (argument arguments) expanded) [] (operands m false m.replacement) with
      | error fault => exact .functionFault invokes expands hassembled
      | ok sequence =>
        obtain ⟨pieces, rfl⟩ := exists_outcome_eq sequence
        have others := ih pieces
        rw [finish_eq_placed] at others
        exact .function invokes expands hassembled others
    · rw [expand_of_argument_fault hk invokes demanded (fun j hj => ⟨_, hearlier j hj⟩) hfault]
      exact .argumentFault invokes demanded (fun j hj => hearlier j hj ▸ hargument j)
        (hfault ▸ hargument index)

/-- **What follows from the rules is what the expander gives.** -/
theorem expand_eq_of_expands {e : Expander} (hk : e.keepDefined = false) {tokens : List Token}
    {result : Except Fault (List Token)} (h : Expands hideLeft e tokens result) :
    e.expand tokens = result :=
  (expands_expand hk tokens).unique h

/-- **Macro expansion is Prosser's algorithm**, but for what a token glued together hides. For any
table of macros and any tokens, the expander gives the tokens or the error that the recursive
specification says, with the hide set of the left part on every token glued together. -/
theorem expands_iff_expand_eq (macros : MacroTable) (file : String) (lineDelta : Int)
    (tokens : List Token) (result : Except Fault (List Token)) :
    Expands hideLeft { macros, file, lineDelta } tokens result ↔
      Expander.expand { macros, file, lineDelta } tokens = result :=
  ⟨expand_eq_of_expands rfl, fun h => h ▸ expands_expand rfl tokens⟩

/-! ## Where the hide set of the right part matters -/

section

/-- An identifier that hides the macros of the given names. -/
def word (text : String) (hidden : List String) : Token :=
  { kind := .identifier
    text := Bytes.ofString text
    hidden := hidden.foldr (fun name => HideSet.insert (Bytes.ofString name)) ∅ }

/-- A punctuator that hides the macros of the given names. -/
def mark (text : String) (hidden : List String) : Token :=
  { word text hidden with kind := .punctuator }

/-- The macro `CAT(a, b)`, which is `a##b`. -/
def cat : Macro :=
  ⟨Bytes.ofString "CAT", .function [Bytes.ofString "a", Bytes.ofString "b"] false,
    [word "a" [], mark "##" [], word "b" []]⟩

/-- The macro `AB`, which is `CAT(A,`. -/
def openCat : Macro :=
  ⟨Bytes.ofString "AB", .object, [word "CAT" [], mark "(" [], word "A" [], mark "," []]⟩

def openCatExpander : Expander := { macros := ⟨[openCat, cat]⟩, file := "main.c" }

variable {hide : HideSet → HideSet → HideSet}

/-- The replacement of `AB` has nothing to be glued. -/
theorem assemble_openCat (site : Location) :
    assemble hide site (Operand.value (fun _ => []) (fun _ => [])) []
      (operands openCat false openCat.replacement) =
        .ok [some (word "CAT" []), some (mark "(" []), some (word "A" []), some (mark "," [])] :=
  rfl

theorem lex_ab : Token.lex (Bytes.ofString "AB") =
    [{ kind := .identifier, text := Bytes.ofString "AB", position := ⟨1, 1⟩ }] := by
  decide +kernel

theorem glueTokens_ab {site : Location} {hidden : List String}
    (hhide : hide (word "A" ["AB"]).hidden (word "B" []).hidden = (word "" hidden).hidden) :
    glueTokens hide site (word "A" ["AB"]) (word "B" []) = .ok (word "AB" hidden) := by
  have htext : (word "A" ["AB"]).text ++ (word "B" []).text = Bytes.ofString "AB" := rfl
  simp only [glueTokens, htext, lex_ab, if_true, hhide]
  rfl

/-- A token that stays is in front of what the others become. -/
theorem Expands.other_ok {e : Expander} {t : Token} {rest tokens : List Token}
    (h : ∀ m, Names e.macros t m → m.isFunctionLike = true ∧ rest.head?.any Token.isOpen = false)
    (others : Expands hide e rest (.ok tokens)) : Expands hide e (t :: rest) (.ok (t :: tokens)) :=
  .other h others

/-- The replacement of `AB` begins an invocation whose last argument comes after it. -/
theorem expands_openCat (hidden : List String) {result : Except Fault (List Token)}
    (hhide : hide (word "A" ["AB"]).hidden (word "B" []).hidden = (word "" hidden).hidden)
    (others : Expands hide openCatExpander
      (placed (word "CAT" ["AB"]) (word "" ["CAT"]).hidden [some (word "AB" hidden)]) result) :
    Expands hide openCatExpander [word "AB" [], word "B" [], mark ")" []] result := by
  have assembled (site : Location) :
      assemble hide site
        (Operand.value (argument [[word "A" ["AB"]], [word "B" []]]) fun _ => []) []
        (operands cat false cat.replacement) = .ok [some (word "AB" hidden)] := by
    show (glue hide site [some (word "A" ["AB"])] [some (word "B" [])] >>= Except.ok) = _
    rw [glue, join, glueTokens_ab hhide]
    rfl
  refine .object (m := openCat) ⟨rfl, by decide, rfl⟩ rfl (assemble_openCat _) ?_
  exact .function (m := cat) (i := ⟨[word "A" ["AB"]], [[word "B" []]], mark ")" [], []⟩)
    ⟨⟨⟨rfl, by decide, rfl⟩, rfl, rfl⟩, rfl, rfl⟩ (fun j hj => absurd hj List.not_mem_nil)
    (assembled _) others

/-- If `AB` hides itself, then it stays. -/
theorem expand_openCat : openCatExpander.expand [word "AB" [], word "B" [], mark ")" []] =
    .ok [word "AB" ["AB", "CAT"]] := by
  refine expand_eq_of_expands rfl (expands_openCat ["AB"] rfl ?_)
  exact .other (fun m h => absurd h.notHidden (by decide)) .nil

/-- **Prosser's algorithm hides less.** Both macros meet the constraint on definitions. The token
`AB` that `CAT` glues together of an `A` from the replacement of `AB` and a `B` from outside of it
would be expanded once more if it hid only what both hide. -/
theorem expands_inter_openCat :
    ((∅ : MacroTable).define cat >>= (·.define openCat)) = .ok openCatExpander.macros ∧
      (∀ result,
        Expands HideSet.inter openCatExpander [word "AB" [], word "B" [], mark ")" []] result ↔
          result = .ok [word "CAT" ["AB", "CAT"], mark "(" ["AB", "CAT"], word "A" ["AB", "CAT"],
            mark "," ["AB", "CAT"]]) ∧
      openCatExpander.expand [word "AB" [], word "B" [], mark ")" []] =
        .ok [word "AB" ["AB", "CAT"]] := by
  have hexpands : Expands HideSet.inter openCatExpander [word "AB" [], word "B" [], mark ")" []]
      (.ok [word "CAT" ["AB", "CAT"], mark "(" ["AB", "CAT"], word "A" ["AB", "CAT"],
        mark "," ["AB", "CAT"]]) := by
    refine expands_openCat [] rfl ?_
    refine .object (m := openCat) ⟨rfl, by decide, rfl⟩ rfl (assemble_openCat _) ?_
    refine .other_ok (fun m h => absurd h.notHidden (by decide)) ?_
    refine .other_ok (fun m h => absurd h.isIdentifier (by decide)) ?_
    refine .other_ok (fun m h => nomatch (show none = some m from h.lookup)) ?_
    exact .other_ok (fun m h => absurd h.isIdentifier (by decide)) .nil
  exact ⟨rfl, fun result => ⟨fun h => h.unique hexpands, fun h => h ▸ hexpands⟩, expand_openCat⟩

end

end CPreprocessor.Prosser
