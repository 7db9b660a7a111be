import CPreprocessor.Proofs.Macro.Table
import Mathlib.Data.List.Nodup

/-!
# Well-formed macros

What replacement relies on: the parameters of a macro are distinct, the variable arguments are named
only where there are any, no `##` is without an operand, and in a function-like macro neither is a
`#`. These are the macros that pass the check on definitions (`Macro.check_eq_ok_iff`).

A table that directives lead to has well-formed macros only, besides the predefined ones, and finds
each under its own name (`MacroTable.IsReachable.isSound`).
-/

namespace CPreprocessor

namespace Macro

variable {m : Macro}

/-- A token of the replacement list stands for an argument. -/
def IsParameter (m : Macro) (t : Token) : Prop :=
  t.isIdentifier = true ∧ (t.text ∈ m.parameters ∨ m.isVariadic = true ∧ t.text = variableArguments)

/-- Replacement can rely on a macro. -/
structure IsWellFormed (m : Macro) : Prop where
  nodup_parameters : m.parameters.Nodup
  variableArguments_notMem : variableArguments ∉ m.parameters
  isPaste_head : ∀ t ∈ m.replacement.head?, t.isPaste = false
  isPaste_getLast : ∀ t ∈ m.replacement.getLast?, t.isPaste = false
  isVariadic_of_mem : ∀ t ∈ m.replacement, isVariableArguments t = true → m.isVariadic = true
  isParameter_of_hash : m.isFunctionLike = true → ∀ before hash after,
    m.replacement = before ++ hash :: after → hash.isHash = true → ∃ t ∈ after.head?, m.IsParameter t

/-! ## The check -/

theorem checkParameters_cons (before : List Bytes) (name : Bytes) (rest : List Bytes) :
    checkParameters before (name :: rest) =
      if name = variableArguments then .error .invalidVariableArguments
      else if name ∈ before then .error (.duplicateParameter name.toText)
      else checkParameters (name :: before) rest :=
  rfl

/-- Nothing is wrong with parameters exactly if they are distinct, from each other and from those
before them, and have other names than the variable arguments. -/
theorem checkParameters_eq_ok_iff (before names : List Bytes) :
    checkParameters before names = .ok () ↔
      names.Nodup ∧ variableArguments ∉ names ∧ ∀ name ∈ names, name ∉ before := by
  induction names generalizing before with
  | nil => exact iff_of_true rfl ⟨List.nodup_nil, List.not_mem_nil, List.forall_mem_nil _⟩
  | cons name rest ih =>
    rw [checkParameters_cons]
    by_cases hvariable : name = variableArguments
    · simp [hvariable]
    rw [if_neg hvariable]
    by_cases hbefore : name ∈ before
    · simp [hbefore]
    rw [if_neg hbefore, ih, List.nodup_cons, List.forall_mem_cons]
    simp only [List.mem_cons, not_or]
    constructor
    · rintro ⟨hnodup, hrest, hnames⟩
      exact ⟨⟨fun hmem => (hnames name hmem).1 rfl, hnodup⟩, ⟨Ne.symm hvariable, hrest⟩, hbefore,
        fun other hother => (hnames other hother).2⟩
    · rintro ⟨⟨hname, hnodup⟩, ⟨-, hrest⟩, -, hnames⟩
      exact ⟨hnodup, hrest, fun other hother => ⟨ne_of_mem_of_not_mem hother hname,
        hnames other hother⟩⟩

/-- A token of a function-like macro has an index among the arguments if it stands for one. -/
theorem isSome_parameter?_iff (hfunction : m.isFunctionLike = true) (t : Token) :
    (m.parameter? t).isSome = true ↔ m.IsParameter t := by
  rw [parameter?, IsParameter, parameters, isVariadic]
  rw [isFunctionLike] at hfunction
  cases hkind : m.kind with
  | function names variadic =>
    cases t.isIdentifier with
    | false => simp
    | true =>
      cases variadic with
      | false => simp
      | true =>
        by_cases htext : t.text = variableArguments <;> simp [htext]
  | _ =>
    rw [hkind] at hfunction
    cases hfunction

/-- Every `#` of a list is before a parameter exactly if it is so wherever the list is split at a
`#`. -/
theorem stringizesParameters_iff (tokens : List Token) :
    m.stringizesParameters tokens = true ↔ ∀ before hash after, tokens = before ++ hash :: after →
      hash.isHash = true → ∃ t ∈ after.head?, (m.parameter? t).isSome = true := by
  induction tokens with
  | nil => simp [stringizesParameters]
  | cons t rest ih =>
    rw [stringizesParameters, Bool.and_eq_true, ih]
    constructor
    · rintro ⟨hfirst, hrest⟩ before hash after heq hhash
      cases before with
      | nil =>
        obtain ⟨rfl, rfl⟩ := List.cons.inj heq
        rw [hhash, Bool.not_true, Bool.false_or] at hfirst
        simpa [Option.isSome_bind, Option.any_eq_true] using hfirst
      | cons first before => exact hrest before hash after (List.cons.inj heq).2 hhash
    · refine fun h => ⟨?_, fun before hash after heq => h (t :: before) hash after (heq ▸ rfl)⟩
      cases hhash : t.isHash with
      | false => rfl
      | true =>
        obtain ⟨u, hu, hparameter⟩ := h [] t rest rfl hhash
        rw [Option.mem_def.1 hu, Option.bind_some, hparameter]
        rfl

/-- The check refuses nothing but what one of its tests finds. -/
theorem check_eq_ok_iff_tests (m : Macro) :
    m.check = .ok () ↔ checkParameters [] m.parameters = .ok () ∧
      (m.replacement.head?.any Token.isPaste || m.replacement.getLast?.any Token.isPaste) = false ∧
      (!m.isVariadic && m.replacement.any isVariableArguments) = false ∧
      (m.isFunctionLike && !m.stringizesParameters m.replacement) = false := by
  rw [check]
  generalize (m.replacement.head?.any Token.isPaste || m.replacement.getLast?.any Token.isPaste) =
    edge
  generalize (!m.isVariadic && m.replacement.any isVariableArguments) = unpaired
  generalize (m.isFunctionLike && !m.stringizesParameters m.replacement) = hash
  cases checkParameters [] m.parameters with
  | error cause => exact ⟨nofun, fun h => nomatch h.1⟩
  | ok _ =>
    cases edge with
    | true => exact ⟨nofun, fun h => nomatch h.2.1⟩
    | false =>
      cases unpaired with
      | true => exact ⟨nofun, fun h => nomatch h.2.2.1⟩
      | false =>
        cases hash with
        | true => exact ⟨nofun, fun h => nomatch h.2.2.2⟩
        | false => exact ⟨fun _ => ⟨rfl, rfl, rfl, rfl⟩, fun _ => rfl⟩

/-- **The check lets exactly the well-formed macros pass.** -/
theorem check_eq_ok_iff (m : Macro) : m.check = .ok () ↔ m.IsWellFormed := by
  rw [check_eq_ok_iff_tests, checkParameters_eq_ok_iff]
  simp only [Bool.or_eq_false_iff, Bool.and_eq_false_iff, Bool.not_eq_false', List.any_eq_false,
    Option.any_eq_false, Bool.not_eq_true, List.not_mem_nil, not_false_iff, implies_true, and_true]
  constructor
  · rintro ⟨⟨hnodup, hnames⟩, ⟨hhead, hlast⟩, hvariadic, hhash⟩
    refine ⟨hnodup, hnames, hhead, hlast, fun t ht hvariable => ?_, fun hfunction before hash after
      heq hisHash => ?_⟩
    · refine hvariadic.resolve_right fun hnone => ?_
      rw [hnone t ht] at hvariable
      cases hvariable
    · have hall := hhash.resolve_left (by simp [hfunction])
      obtain ⟨t, ht, hparameter⟩ := (stringizesParameters_iff _).1 hall before hash after heq hisHash
      exact ⟨t, ht, (isSome_parameter?_iff hfunction t).1 hparameter⟩
  · intro h
    refine ⟨⟨h.nodup_parameters, h.variableArguments_notMem⟩, ⟨h.isPaste_head, h.isPaste_getLast⟩,
      ?_, ?_⟩
    · cases hvariadic : m.isVariadic with
      | true => exact .inl rfl
      | false =>
        refine .inr fun t ht => Bool.eq_false_iff.2 fun hvariable => ?_
        exact absurd (h.isVariadic_of_mem t ht hvariable) (by simp [hvariadic])
    · cases hfunction : m.isFunctionLike with
      | false => exact .inl rfl
      | true =>
        refine .inr ((stringizesParameters_iff _).2 fun before hash after heq hisHash => ?_)
        obtain ⟨t, ht, hparameter⟩ := h.isParameter_of_hash hfunction before hash after heq hisHash
        exact ⟨t, ht, (isSome_parameter?_iff hfunction t).2 hparameter⟩

end Macro

/-! ## Tables -/

namespace MacroTable

variable {table table' : MacroTable} {m : Macro}

/-- Expansion can rely on a table. -/
structure IsSound (table : MacroTable) : Prop where
  /-- The predefined macros are as they were defined. -/
  lookup_predefined : ∀ m ∈ MacroTable.predefined.macros, table.lookup m.name = some m
  /-- No macro is named `defined`. -/
  lookup_defined : table.lookup (Bytes.ofString "defined") = none
  /-- A macro is found under its own name, and under no other. -/
  lookup_eq_some_iff : ∀ name m, table.lookup name = some m ↔ m.name = name ∧ m ∈ table.macros
  isWellFormed : ∀ m ∈ table.macros, m ∉ MacroTable.predefined.macros → m.IsWellFormed

/-- A definition is entered only if it passes the check. -/
theorem isWellFormed_of_define (h : table.define m = .ok table') : m.IsWellFormed := by
  rw [← Macro.check_eq_ok_iff]
  rw [define] at h
  cases hcheck : m.check with
  | ok _ => rfl
  | error cause =>
    rw [hcheck] at h
    split at h <;> cases h

theorem nodup_names_insert (h : table.names.Nodup) (m : Macro) : (table.insert m).names.Nodup := by
  refine List.nodup_cons.2 ⟨fun hmem => ?_, h.sublist (List.filter_sublist.map _)⟩
  obtain ⟨other, hother, hname⟩ := List.mem_map.1 hmem
  exact absurd hname (by simpa using (List.mem_filter.1 hother).2)

/-- Macros with distinct names are found under their names. -/
theorem lookup_eq_of_mem (h : table.names.Nodup) (hm : m ∈ table.macros) :
    table.lookup m.name = some m := by
  rw [lookup, List.find?_eq_some_iff_append]
  obtain ⟨before, after, hsplit⟩ := List.append_of_mem hm
  refine ⟨decide_eq_true rfl, before, after, hsplit, fun other hother => ?_⟩
  rw [names, hsplit, List.map_append, List.nodup_append] at h
  have hne := h.2.2 other.name (List.mem_map_of_mem hother) m.name List.mem_cons_self
  simpa using hne

theorem IsReachable.nodup_names (h : table.IsReachable) : table.names.Nodup := by
  induction h with
  | predefined => decide +kernel
  | define h hdefine ih =>
    rw [eq_insert_of_define hdefine]
    exact nodup_names_insert ih _
  | undefine h hundefine ih =>
    rw [eq_erase_of_undefine hundefine]
    exact ih.sublist (List.filter_sublist.map _)

/-- **Expansion can rely on every table that directives lead to.** -/
theorem IsReachable.isSound (h : table.IsReachable) : table.IsSound where
  lookup_predefined m hm := by
    have hreserved : ∀ m ∈ MacroTable.predefined.macros, m.name ∈ reservedNames := by decide +kernel
    rw [h.lookup_eq (hreserved m hm), lookup_eq_of_mem IsReachable.predefined.nodup_names hm]
  lookup_defined := (h.lookup_eq (by decide)).trans (by decide +kernel)
  lookup_eq_some_iff name m :=
    ⟨lookup_eq_some, fun ⟨hname, hm⟩ => hname ▸ lookup_eq_of_mem h.nodup_names hm⟩
  isWellFormed := by
    induction h with
    | predefined => exact fun m hm hnot => absurd hm hnot
    | define h hdefine ih =>
      rw [eq_insert_of_define hdefine]
      rintro m (_ | ⟨_, hm⟩)
      · exact fun _ => isWellFormed_of_define hdefine
      · exact ih m (List.mem_of_mem_filter hm)
    | undefine h hundefine ih =>
      rw [eq_erase_of_undefine hundefine]
      exact fun m hm => ih m (List.mem_of_mem_filter hm)

/-! ## Checked tables -/

/-- All macros of a table meet the constraint on definitions. -/
def IsChecked (table : MacroTable) : Prop := ∀ m ∈ table.macros, m.check = .ok ()

theorem IsChecked.erase (h : table.IsChecked) (name : Bytes) : (table.erase name).IsChecked :=
  fun m hm => h m (List.mem_of_mem_filter hm)

theorem IsChecked.define (h : table.IsChecked) (hdefine : table.define m = .ok table') :
    table'.IsChecked := by
  rw [eq_insert_of_define hdefine]
  exact List.forall_mem_cons.2
    ⟨(Macro.check_eq_ok_iff m).2 (isWellFormed_of_define hdefine), h.erase m.name⟩

/-- Directives lead to checked tables only. -/
theorem IsReachable.isChecked (h : table.IsReachable) : table.IsChecked := by
  induction h with
  | predefined =>
    have hpredefined : ∀ m ∈ MacroTable.predefined.macros, m.check = .ok () := by decide +kernel
    exact hpredefined
  | define h hdefine ih => exact ih.define hdefine
  | undefine h hundefine ih =>
    rw [eq_erase_of_undefine hundefine]
    exact ih.erase _

end MacroTable

end CPreprocessor
