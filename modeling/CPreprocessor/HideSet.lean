import CPreprocessor.Ascii

/-!
# Hide sets

A hide set is a finite set of macro names. It is kept as a strictly increasing list, so that two
hide sets with the same names are equal (`HideSet.ext`). Every operation is given by its names:
`mem_insert`, `mem_union`, `mem_inter`.
-/

namespace CPreprocessor

/-- A finite set of macro names. -/
structure HideSet where
  names : List Bytes
  sorted : names.Pairwise (· < ·)
  deriving DecidableEq

namespace HideSet

instance : Membership Bytes HideSet := ⟨fun set name => name ∈ set.names⟩

instance (name : Bytes) (set : HideSet) : Decidable (name ∈ set) :=
  inferInstanceAs (Decidable (name ∈ set.names))

instance : EmptyCollection HideSet := ⟨⟨[], .nil⟩⟩

theorem mem_iff {name : Bytes} {set : HideSet} : name ∈ set ↔ name ∈ set.names := Iff.rfl

@[simp] theorem not_mem_empty (name : Bytes) : name ∉ (∅ : HideSet) := by
  simp only [mem_iff]
  exact List.not_mem_nil

theorem lt_trichotomy (a b : Bytes) : a < b ∨ a = b ∨ b < a :=
  Std.Trichotomous.rel_or_eq_or_rel_swap

/-- Puts a name into an increasing list. -/
def insertName (name : Bytes) : List Bytes → List Bytes
  | [] => [name]
  | n :: rest =>
    if name < n then name :: n :: rest
    else if name = n then n :: rest
    else n :: insertName name rest

theorem mem_insertName {name n : Bytes} {names : List Bytes} :
    n ∈ insertName name names ↔ n = name ∨ n ∈ names := by
  induction names with
  | nil => simp [insertName]
  | cons m rest ih =>
    rw [insertName]
    split
    · simp
    · split
      · next h => subst h; simp
      · simp [ih, or_left_comm]

theorem sorted_insertName {name : Bytes} {names : List Bytes} (h : names.Pairwise (· < ·)) :
    (insertName name names).Pairwise (· < ·) := by
  induction names with
  | nil => simp [insertName]
  | cons m rest ih =>
    rw [List.pairwise_cons] at h
    rw [insertName]
    split
    · next hlt =>
      refine List.pairwise_cons.2 ⟨fun n hn => ?_, List.pairwise_cons.2 h⟩
      rcases List.mem_cons.1 hn with rfl | hn
      · exact hlt
      · exact List.lt_trans hlt (h.1 n hn)
    · next hlt =>
      split
      · exact List.pairwise_cons.2 h
      · next hne =>
        refine List.pairwise_cons.2 ⟨fun n hn => ?_, ih h.2⟩
        rcases mem_insertName.1 hn with rfl | hn
        · exact (lt_trichotomy n m).elim (absurd · hlt) (·.elim (absurd · hne) id)
        · exact h.1 n hn

/-- A set with one more name. -/
def insert (name : Bytes) (set : HideSet) : HideSet :=
  ⟨insertName name set.names, sorted_insertName set.sorted⟩

@[simp] theorem mem_insert {name n : Bytes} {set : HideSet} :
    n ∈ set.insert name ↔ n = name ∨ n ∈ set := mem_insertName

/-- The names in either set. -/
def union (s t : HideSet) : HideSet := s.names.foldr insert t

@[simp] theorem mem_union {name : Bytes} {s t : HideSet} :
    name ∈ s.union t ↔ name ∈ s ∨ name ∈ t := by
  rw [union, @mem_iff name s]
  induction s.names with
  | nil => simp
  | cons n rest ih => simp [ih, or_assoc]

/-- The names in both sets. -/
def inter (s t : HideSet) : HideSet := ⟨s.names.filter (· ∈ t), s.sorted.filter _⟩

@[simp] theorem mem_inter {name : Bytes} {s t : HideSet} :
    name ∈ s.inter t ↔ name ∈ s ∧ name ∈ t := by
  simp [inter, mem_iff]

theorem names_ext {as bs : List Bytes} (ha : as.Pairwise (· < ·)) (hb : bs.Pairwise (· < ·))
    (h : ∀ n, n ∈ as ↔ n ∈ bs) : as = bs := by
  induction as generalizing bs with
  | nil =>
    cases bs with
    | nil => rfl
    | cons b bs => exact absurd ((h b).2 List.mem_cons_self) List.not_mem_nil
  | cons a as ih =>
    cases bs with
    | nil => exact absurd ((h a).1 List.mem_cons_self) List.not_mem_nil
    | cons b bs =>
      rw [List.pairwise_cons] at ha hb
      have hab : a = b := by
        rcases List.mem_cons.1 ((h a).1 List.mem_cons_self) with e | hab
        · exact e
        · rcases List.mem_cons.1 ((h b).2 List.mem_cons_self) with e | hba
          · exact e.symm
          · exact absurd (hb.1 a hab) (List.lt_asymm (ha.1 b hba))
      subst hab
      congr 1
      refine ih ha.2 hb.2 fun n => ⟨fun hn => ?_, fun hn => ?_⟩
      · rcases List.mem_cons.1 ((h n).1 (List.mem_cons_of_mem a hn)) with rfl | hn'
        · exact absurd (ha.1 n hn) (List.lt_irrefl n)
        · exact hn'
      · rcases List.mem_cons.1 ((h n).2 (List.mem_cons_of_mem a hn)) with rfl | hn'
        · exact absurd (hb.1 n hn) (List.lt_irrefl n)
        · exact hn'

/-- **A hide set is determined by its names.** -/
@[ext] theorem ext {s t : HideSet} (h : ∀ n, n ∈ s ↔ n ∈ t) : s = t := by
  cases s with
  | mk names sorted =>
    cases t with
    | mk names' sorted' =>
      have : names = names' := names_ext sorted sorted' h
      subst this
      rfl

end HideSet

end CPreprocessor
