import CPreprocessor.Macro.Table
import Mathlib.Data.List.Basic

/-!
# Macro tables

What a definition and a removal do to the macros of other names. The tables that directives lead to
(`MacroTable.IsReachable`) have the macros of the reserved names as they are predefined
(`MacroTable.IsReachable.lookup_eq`).
-/

namespace CPreprocessor.MacroTable

variable (table : MacroTable) {table' : MacroTable} {m : Macro} {name other : Bytes}

/-! ## Lookup -/

theorem lookup_erase_of_ne (h : other ≠ name) :
    (table.erase name).lookup other = table.lookup other := by
  rw [lookup, erase, List.find?_filter, lookup]
  congr 1
  funext m
  by_cases hm : m.name = other
  · simp [hm, h]
  · simp [hm]

theorem lookup_insert (m : Macro) : (table.insert m).lookup m.name = some m :=
  List.find?_cons_of_pos (decide_eq_true rfl)

theorem lookup_insert_of_ne (h : other ≠ m.name) :
    (table.insert m).lookup other = table.lookup other := by
  rw [← table.lookup_erase_of_ne h]
  exact List.find?_cons_of_neg (by simpa using h.symm)

/-! ## Definitions and removals -/

variable {table}

theorem name_notMem_of_define (h : table.define m = .ok table') : m.name ∉ reservedNames := by
  intro hmem
  rw [define, List.contains_iff_mem.2 hmem] at h
  cases h

/-- A definition that is accepted is entered. -/
theorem eq_insert_of_define (h : table.define m = .ok table') : table' = table.insert m := by
  have hreserved : reservedNames.contains m.name = false := by
    rw [← Bool.not_eq_true, List.contains_iff_mem]
    exact name_notMem_of_define h
  rw [define, hreserved, if_neg Bool.false_ne_true] at h
  cases hcheck : m.check with
  | error cause =>
    rw [hcheck] at h
    cases h
  | ok _ =>
    rw [hcheck] at h
    cases hlookup : table.lookup m.name with
    | none =>
      rw [hlookup] at h
      cases h
      rfl
    | some previous =>
      rw [hlookup] at h
      cases hsame : previous.sameDefinition m with
      | true =>
        simp only [hsame] at h
        cases h
        rfl
      | false =>
        simp only [hsame] at h
        cases h

theorem name_notMem_of_undefine (h : table.undefine name = .ok table') : name ∉ reservedNames := by
  intro hmem
  rw [undefine, if_pos (List.contains_iff_mem.2 hmem)] at h
  cases h

theorem eq_erase_of_undefine (h : table.undefine name = .ok table') : table' = table.erase name := by
  rw [undefine] at h
  split at h
  · cases h
  · cases h
    rfl

/-! ## Reachable tables -/

/-- The tables that the predefined macros become by definitions and removals that are accepted. -/
inductive IsReachable : MacroTable → Prop
  | predefined : IsReachable MacroTable.predefined
  | define {table table' : MacroTable} {m : Macro} (h : IsReachable table)
      (hdefine : table.define m = .ok table') : IsReachable table'
  | undefine {table table' : MacroTable} {name : Bytes} (h : IsReachable table)
      (hundefine : table.undefine name = .ok table') : IsReachable table'

/-- **Reserved names keep their meaning.** -/
theorem IsReachable.lookup_eq (h : table.IsReachable) (hname : name ∈ reservedNames) :
    table.lookup name = MacroTable.predefined.lookup name := by
  induction h with
  | predefined => rfl
  | define h hdefine ih =>
    have hne := ne_of_mem_of_not_mem hname (name_notMem_of_define hdefine)
    rw [eq_insert_of_define hdefine, lookup_insert_of_ne _ hne, ih]
  | undefine h hundefine ih =>
    have hne := ne_of_mem_of_not_mem hname (name_notMem_of_undefine hundefine)
    rw [eq_erase_of_undefine hundefine, lookup_erase_of_ne _ hne, ih]

/-- The name of the macro that is replaced by the number of its line. -/
def lineName : Bytes := Bytes.ofString "__LINE__"

theorem IsReachable.lookup_lineName (h : table.IsReachable) :
    table.lookup lineName = some ⟨lineName, .line, []⟩ :=
  h.lookup_eq (by decide)

/-- The name of the macro that is replaced by the name of its file. -/
def fileName : Bytes := Bytes.ofString "__FILE__"

theorem IsReachable.lookup_fileName (h : table.IsReachable) :
    table.lookup fileName = some ⟨fileName, .file, []⟩ :=
  h.lookup_eq (by decide)

/-- No macro that takes arguments is predefined. -/
theorem isFunctionLike_of_mem_predefined :
    ∀ m ∈ MacroTable.predefined.macros, m.isFunctionLike = false := by
  decide +kernel

end CPreprocessor.MacroTable
