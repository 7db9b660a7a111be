import CPreprocessor.Proofs.Grammar.Chart
import Mathlib.Data.List.Perm.Subperm

/-!
# The closure of a chart

`Grammar.close` goes through the items of a chart, adds what they lead to, and stops after as many
items as `Grammar.chartBound` says. That is far enough: a chart of sound items with distinct keys
has no more items than there are keys (`size_le_chartBound`), so every item of the closed chart has
been gone through and whatever it leads to is in the chart (`closed_close`).
-/

namespace CPreprocessor.Grammar

variable {ν σ τ : Type} {g : Grammar ν σ τ} {position : Nat}

/-! ## The number of items -/

/-- The keys that items of a chart can have whose productions are the given ones, numbered from
`start` on. -/
def keysOf (position : Nat) (r : ν) (productions : List (Production ν σ τ)) (start : Nat) :
    List (ν × Nat × Nat × Nat) :=
  (productions.zipIdx start).flatMap fun (p, index) =>
    (List.range (p.symbols.length + 1)).flatMap fun dot =>
      (List.range (position + 1)).map fun origin => (r, index, dot, origin)

/-- The keys that items of the chart at a position can have. -/
def possibleKeys (g : Grammar ν σ τ) (position : Nat) : List (ν × Nat × Nat × Nat) :=
  g.nonterminals.flatMap fun r => keysOf position r (g.rule r).productions 0

/-- The number of productions with a place marked in them, added to a number. -/
theorem foldr_marked (productions : List (Production ν σ τ)) (n : Nat) :
    productions.foldr (fun p count => p.symbols.length + 1 + count) n =
      productions.foldr (fun p count => p.symbols.length + 1 + count) 0 + n := by
  induction productions with
  | nil => simp
  | cons p productions ih =>
    rw [List.foldr_cons, List.foldr_cons, ih]
    omega

theorem length_keysOf (r : ν) (productions : List (Production ν σ τ)) (start : Nat) :
    (keysOf position r productions start).length =
      productions.foldr (fun p count => p.symbols.length + 1 + count) 0 * (position + 1) := by
  induction productions generalizing start with
  | nil => simp [keysOf]
  | cons p productions ih =>
    have h := ih (start + 1)
    simp only [keysOf] at h
    simp only [keysOf, List.zipIdx_cons, List.flatMap_cons, List.length_append, h, List.foldr_cons,
      List.length_flatMap, List.length_map, List.length_range, List.map_const',
      List.sum_replicate_nat]
    simp [Nat.add_mul]

theorem length_possibleKeys (g : Grammar ν σ τ) (position : Nat) :
    (g.possibleKeys position).length = g.chartBound position := by
  unfold possibleKeys chartBound markedProductions
  induction g.nonterminals with
  | nil => simp
  | cons r nonterminals ih =>
    simp only [List.flatMap_cons, List.length_append, ih, length_keysOf, List.foldr_append]
    rw [foldr_marked _ (List.foldr _ _ _), Nat.add_mul]

theorem mem_possibleKeys {r : ν} {index dot origin : Nat} {p : Production ν σ τ}
    (hget : (g.rule r).productions[index]? = some p) (hdot : dot ≤ p.symbols.length)
    (horigin : origin ≤ position) : (r, index, dot, origin) ∈ g.possibleKeys position := by
  have hr : r ∈ g.nonterminals := by
    by_contra h
    rw [g.productions_eq_nil r h] at hget
    simp at hget
  refine List.mem_flatMap.2 ⟨r, hr, List.mem_flatMap.2 ⟨(p, index), ?_, ?_⟩⟩
  · exact List.mem_zipIdx_iff_getElem?.2 hget
  · refine List.mem_flatMap.2 ⟨dot, List.mem_range.2 (by omega), ?_⟩
    exact List.mem_map.2 ⟨origin, List.mem_range.2 (by omega), rfl⟩

/-- **A chart of sound items with distinct keys is no larger than the bound.** -/
theorem size_le_chartBound [Spelled σ] {input : List σ} {chart : Chart ν σ τ}
    (hsound : ∀ item ∈ chart, item.Sound g input position)
    (hnodup : chart.keys.Nodup) : chart.size ≤ g.chartBound position := by
  have hsub : chart.keys ⊆ g.possibleKeys position := by
    intro key hkey
    obtain ⟨item, hmem, rfl⟩ := List.mem_map.1 hkey
    have h := hsound item (Array.mem_toList_iff.1 hmem)
    exact mem_possibleKeys h.get h.length_le h.origin_le
  have hle := (List.subperm_of_subset hnodup hsub).length_le
  rwa [length_possibleKeys, Chart.keys, List.length_map, Array.length_toList] at hle

/-! ## Closing -/

variable [DecidableEq ν] {earlier : Array (Chart ν σ τ)} {chart : Chart ν σ τ}

theorem nodup_closeFrom (count index : Nat) (h : chart.keys.Nodup) :
    (g.closeFrom earlier position count index chart).keys.Nodup := by
  induction count generalizing index chart with
  | zero => exact h
  | succ count ih =>
    rw [closeFrom]
    split
    · exact h
    · exact ih _ (Chart.nodup_foldl_insert h _)

theorem prefix_closeFrom (count index : Nat) (chart : Chart ν σ τ) :
    chart.toList <+: (g.closeFrom earlier position count index chart).toList := by
  induction count generalizing index chart with
  | zero => exact List.prefix_rfl
  | succ count ih =>
    rw [closeFrom]
    split
    · exact List.prefix_rfl
    · exact (Chart.prefix_foldl_insert _ _).trans (ih _ _)

/-- An item has been gone through: what it leads to is in the chart. -/
def Exhausted (g : Grammar ν σ τ) (earlier : Array (Chart ν σ τ)) (position : Nat)
    (chart : Chart ν σ τ) (item : Item ν σ τ) : Prop :=
  ∀ c ∈ g.consequences earlier position item, chart.Has c

theorem exhausted_closeFrom (count index : Nat)
    (hdone : ∀ j < index, ∀ item, chart[j]? = some item → g.Exhausted earlier position chart item)
    (hsize : (g.closeFrom earlier position count index chart).size ≤ index + count) :
    ∀ item ∈ g.closeFrom earlier position count index chart,
      g.Exhausted earlier position (g.closeFrom earlier position count index chart) item := by
  induction count generalizing index chart with
  | zero =>
    intro item hitem
    obtain ⟨j, hj, rfl⟩ := Array.mem_iff_getElem.1 hitem
    exact hdone j (Nat.lt_of_lt_of_le hj hsize) _ (Array.getElem?_eq_getElem hj)
  | succ count ih =>
    rw [closeFrom] at hsize ⊢
    split
    · next hget =>
      intro item hitem
      obtain ⟨j, hj, rfl⟩ := Array.mem_iff_getElem.1 hitem
      exact hdone j (Nat.lt_of_lt_of_le hj (Array.getElem?_eq_none_iff.1 hget)) _
        (Array.getElem?_eq_getElem hj)
    · next item hget =>
      simp only [hget] at hsize
      refine ih (index + 1) (fun j hj b hb => ?_) (by omega)
      -- what was gone through stays where it was, and now `item` has been gone through too
      have hsub := Chart.prefix_foldl_insert chart (g.consequences earlier position item)
      have hindex := (Array.getElem?_eq_some_iff.1 hget).1
      have hold : chart[j]? = some b := by
        have hlt : j < chart.toList.length := by
          rw [Array.length_toList]
          omega
        rw [← Array.getElem?_toList] at hb ⊢
        rw [← hb, List.prefix_iff_getElem?.1 hsub j hlt, List.getElem?_eq_getElem hlt]
      rcases Nat.lt_succ_iff_lt_or_eq.1 hj with hj | rfl
      · exact fun c hc => (hdone j hj b hold c hc).mono hsub
      · obtain rfl : item = b := Option.some.inj (hget.symm.trans hold)
        exact fun c hc => Chart.has_foldl_insert hc

variable [Spelled σ] {input : List σ}

theorem sound_closeFrom (hearlier : ∀ k, ∀ item ∈ earlier.getD k #[], item.Sound g input k)
    (count index : Nat) (hsound : ∀ item ∈ chart, item.Sound g input position) :
    ∀ item ∈ g.closeFrom earlier position count index chart, item.Sound g input position := by
  induction count generalizing index chart with
  | zero => exact hsound
  | succ count ih =>
    rw [closeFrom]
    split
    · exact hsound
    · next item hget =>
      refine ih _ fun c hc => ?_
      rcases Chart.mem_foldl_insert hc with hc | hc
      · exact hsound c hc
      · exact sound_of_mem_consequences hearlier (hsound item (Array.mem_of_getElem? hget)) hc

/-- **A closed chart holds whatever its items lead to.** -/
theorem closed_close
    (hearlier : ∀ k, ∀ item ∈ earlier.getD k #[], item.Sound g input k)
    (hsound : ∀ item ∈ chart, item.Sound g input earlier.size) (hnodup : chart.keys.Nodup) :
    ∀ item ∈ g.close earlier chart,
      g.Exhausted earlier earlier.size (g.close earlier chart) item := by
  refine exhausted_closeFrom _ 0 (fun j hj => absurd hj (Nat.not_lt_zero j)) ?_
  rw [Nat.zero_add]
  exact size_le_chartBound (sound_closeFrom hearlier _ 0 hsound) (nodup_closeFrom _ 0 hnodup)

end CPreprocessor.Grammar
