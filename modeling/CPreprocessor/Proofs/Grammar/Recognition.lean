import CPreprocessor.Proofs.Grammar.Closure

/-!
# The parser recognizes the language of its grammar

`Grammar.charts` are the charts of all positions of an input. Every one of them is sound and closed,
and has what the symbol before it moves on (`Saturated`, which one more chart preserves, see
`Saturated.push`). In such charts the symbols after the place that an item has come to can be read
off: if they derive a word that follows in the input, then there is a complete item behind the word
(`Saturated.exists_complete`). With the soundness of the items this gives
`isSome_parse_iff_derivesFrom`.
-/

namespace CPreprocessor.Grammar

variable {ν σ τ : Type}

section

variable {cs : Array (Chart ν σ τ)} {chart : Chart ν σ τ} {k : Nat}

theorem getD_push_of_lt (h : k < cs.size) : (cs.push chart).getD k #[] = cs.getD k #[] := by
  simp [Array.getD_eq_getD_getElem?, Array.getElem?_push, Nat.ne_of_lt h]

theorem getD_push_size : (cs.push chart).getD cs.size #[] = chart := by
  simp [Array.getD_eq_getD_getElem?]

theorem getD_push_of_gt (h : cs.size < k) : (cs.push chart).getD k #[] = #[] := by
  have hk : (cs.push chart).size ≤ k := by
    rw [Array.size_push]
    omega
  rw [Array.getD_eq_getD_getElem?, Array.getElem?_eq_none hk, Option.getD_none]

end

variable [DecidableEq ν]

theorem close_empty (g : Grammar ν σ τ) (earlier : Array (Chart ν σ τ)) :
    g.close earlier #[] = #[] := by
  unfold close
  cases g.chartBound earlier.size with
  | zero => rfl
  | succ count => rfl

/-! ## The charts of an input -/

variable [Spelled σ] (g : Grammar ν σ τ)

/-- The charts of all positions, those after an empty one included. The charts of all positions
before the current one are given. -/
def chartsFrom (earlier : Array (Chart ν σ τ)) (chart : Chart ν σ τ) :
    List σ → Array (Chart ν σ τ)
  | [] => earlier.push chart
  | x :: rest =>
    chartsFrom (earlier.push chart) (g.close (earlier.push chart) (scan chart x)) rest

/-- The charts of all positions of an input. -/
def charts (root : ν) (input : List σ) : Array (Chart ν σ τ) :=
  g.chartsFrom #[] (g.close #[] (g.predict root 0).toArray) input

variable {g} {input rest : List σ} {cs earlier : Array (Chart ν σ τ)} {chart items : Chart ν σ τ}

theorem getD_chartsFrom {k : Nat} (h : k ≤ earlier.size) :
    (g.chartsFrom earlier chart rest).getD k #[] = (earlier.push chart).getD k #[] := by
  induction rest generalizing earlier chart with
  | nil => rfl
  | cons x rest ih =>
    have hk : k < (earlier.push chart).size := by
      rw [Array.size_push]
      omega
    rw [chartsFrom, ih (Nat.le_of_lt hk), getD_push_of_lt hk]

theorem size_chartsFrom (earlier : Array (Chart ν σ τ)) (chart : Chart ν σ τ) (rest : List σ) :
    (g.chartsFrom earlier chart rest).size = earlier.size + rest.length + 1 := by
  induction rest generalizing earlier chart with
  | nil => exact Array.size_push _
  | cons x rest ih =>
    rw [chartsFrom, ih, Array.size_push, List.length_cons]
    omega

/-- After an empty chart there are only empty ones. -/
theorem getD_chartsFrom_empty (earlier : Array (Chart ν σ τ)) (rest : List σ) :
    (g.chartsFrom earlier #[] rest).getD (earlier.size + rest.length) #[] = #[] := by
  induction rest generalizing earlier with
  | nil => exact getD_push_size
  | cons x rest ih =>
    have h := ih (earlier.push #[])
    rw [Array.size_push, Nat.add_right_comm, Nat.add_assoc] at h
    rw [chartsFrom, show scan (#[] : Chart ν σ τ) x = #[] from rfl, close_empty, List.length_cons,
      h]

/-- It makes no difference that the parser stops at an empty chart. -/
theorem getD_lastChart (g : Grammar ν σ τ) (earlier : Array (Chart ν σ τ)) (chart : Chart ν σ τ)
    (rest : List σ) :
    (g.lastChart earlier chart rest).getD #[] =
      (g.chartsFrom earlier chart rest).getD (earlier.size + rest.length) #[] := by
  induction rest generalizing earlier chart with
  | nil => exact getD_push_size.symm
  | cons x rest ih =>
    have hsize : earlier.size + (x :: rest).length = (earlier.push chart).size + rest.length := by
      rw [Array.size_push, List.length_cons]
      omega
    rw [lastChart, chartsFrom, hsize]
    dsimp only
    split
    · next hempty =>
      rw [Array.isEmpty_iff.1 hempty, close_empty, getD_chartsFrom_empty]
      rfl
    · exact ih _ _

/-- What an item leads to depends on the charts of earlier positions alone. -/
theorem consequences_congr {cs' : Array (Chart ν σ τ)} {k : Nat} {item : Item ν σ τ}
    (hsound : item.Sound g input k) (h : ∀ j < k, cs.getD j #[] = cs'.getD j #[]) :
    g.consequences cs k item = g.consequences cs' k item := by
  unfold consequences
  split
  · rfl
  · rfl
  · next hnext => rw [h _ (hsound.origin_lt hnext)]

/-! ## Saturation -/

/-- Charts are saturated if their items are sound and told apart by their keys, and whatever their
items lead to is there. -/
structure Saturated (g : Grammar ν σ τ) (input : List σ) (cs : Array (Chart ν σ τ)) : Prop where
  sound : ∀ k, ∀ item ∈ cs.getD k #[], item.Sound g input k
  nodup : ∀ k, (cs.getD k #[]).keys.Nodup
  closed : ∀ k, ∀ item ∈ cs.getD k #[], g.Exhausted cs k (cs.getD k #[]) item
  scanned : ∀ k x, input[k]? = some x → k + 1 < cs.size → ∀ item ∈ scan (cs.getD k #[]) x,
    (cs.getD (k + 1) #[]).Has item

theorem saturated_empty : g.Saturated input #[] where
  sound k item h := absurd h (by simp [Array.getD_eq_getD_getElem?])
  nodup k := by simp [Array.getD_eq_getD_getElem?, Chart.keys]
  closed k item h := absurd h (by simp [Array.getD_eq_getD_getElem?])
  scanned k x _ h := absurd h (Nat.not_lt_zero _)

/-- **One more chart keeps charts saturated.** -/
theorem Saturated.push (h : g.Saturated input cs)
    (hsound : ∀ item ∈ items, item.Sound g input cs.size) (hnodup : items.keys.Nodup)
    (hscan : ∀ k x, k + 1 = cs.size → input[k]? = some x → ∀ item ∈ scan (cs.getD k #[]) x,
      items.Has item) :
    g.Saturated input (cs.push (g.close cs items)) := by
  have hlast : ∀ item ∈ g.close cs items, item.Sound g input cs.size :=
    sound_closeFrom h.sound _ 0 hsound
  constructor
  · intro k item hitem
    rcases Nat.lt_trichotomy k cs.size with hk | rfl | hk
    · rw [getD_push_of_lt hk] at hitem
      exact h.sound k item hitem
    · rw [getD_push_size] at hitem
      exact hlast item hitem
    · rw [getD_push_of_gt hk] at hitem
      exact absurd hitem (Array.not_mem_empty _)
  · intro k
    rcases Nat.lt_trichotomy k cs.size with hk | rfl | hk
    · rw [getD_push_of_lt hk]
      exact h.nodup k
    · rw [getD_push_size]
      exact nodup_closeFrom _ 0 hnodup
    · rw [getD_push_of_gt hk]
      exact List.nodup_nil
  · intro k item hitem
    rcases Nat.lt_trichotomy k cs.size with hk | rfl | hk
    · rw [getD_push_of_lt hk] at hitem ⊢
      intro c hc
      refine h.closed k item hitem c ?_
      rwa [consequences_congr (h.sound k item hitem) fun j hj =>
        (getD_push_of_lt (Nat.lt_trans hj hk)).symm]
    · rw [getD_push_size] at hitem ⊢
      intro c hc
      refine closed_close h.sound hsound hnodup item hitem c ?_
      rwa [consequences_congr (hlast item hitem) fun j hj => (getD_push_of_lt hj).symm]
    · rw [getD_push_of_gt hk] at hitem
      exact absurd hitem (Array.not_mem_empty _)
  · intro k x hget hk item hitem
    rw [Array.size_push] at hk
    rw [getD_push_of_lt (by omega)] at hitem
    rcases Nat.lt_or_eq_of_le (Nat.le_of_lt_succ hk) with hk | hk
    · rw [getD_push_of_lt hk]
      exact h.scanned k x hget hk item hitem
    · rw [hk, getD_push_size]
      exact (hscan k x hk hget item hitem).mono (prefix_closeFrom _ 0 _)

theorem saturated_chartsFrom (h : g.Saturated input (earlier.push chart))
    (hrest : input.drop earlier.size = rest) :
    g.Saturated input (g.chartsFrom earlier chart rest) := by
  induction rest generalizing earlier chart with
  | nil => exact h
  | cons x rest ih =>
    have hget : input[earlier.size]? = some x := by
      rw [← List.head?_drop, hrest, List.head?_cons]
    have hchart : ∀ item ∈ chart, item.Sound g input earlier.size := fun item hitem =>
      h.sound earlier.size item (by rwa [getD_push_size])
    have hnodup : chart.keys.Nodup := by
      have := h.nodup earlier.size
      rwa [getD_push_size] at this
    refine ih (h.push (fun c hc => ?_) (nodup_scan hnodup) ?_) ?_
    · rw [Array.size_push]
      exact sound_of_mem_scan hget hchart hc
    · intro k y hk hget' item hitem
      obtain rfl : k = earlier.size := by
        rw [Array.size_push] at hk
        omega
      rw [getD_push_size] at hitem
      obtain rfl : x = y := Option.some.inj (hget.symm.trans hget')
      exact Chart.has_of_mem hitem
    · rw [Array.size_push, ← List.drop_drop, hrest, List.drop_one, List.tail_cons]

/-- **The charts of an input are saturated.** -/
theorem saturated_charts (root : ν) (input : List σ) :
    g.Saturated input (g.charts root input) := by
  refine saturated_chartsFrom (saturated_empty.push (fun item hitem => ?_) (nodup_predict root 0)
    fun k x hk => absurd hk (Nat.succ_ne_zero k)) rfl
  exact sound_of_mem_predict (List.mem_toArray.1 hitem)

/-! ## Completeness -/

section

variable {k stop : Nat} {item c : Item ν σ τ}

/-- What a chart has in place of an item that moved on. -/
theorem Saturated.exists_advance (h : g.Saturated input cs) {d : Derivation ν σ τ}
    (hhas : (cs.getD stop #[]).Has (item.advance d)) (hsound : item.Sound g input k) :
    ∃ b ∈ cs.getD stop #[], b.rule = item.rule ∧ b.origin = item.origin ∧
      b.production = item.production ∧ b.children.length = item.children.length + 1 := by
  obtain ⟨b, hmem, hkey⟩ := hhas.exists
  simp only [Item.key, Item.advance, List.length_append, List.length_singleton,
    Prod.mk.injEq] at hkey
  obtain ⟨hrule, hindex, hlength, horigin⟩ := hkey
  have hproduction := (h.sound stop b hmem).get
  rw [hrule, hindex, hsound.get] at hproduction
  exact ⟨b, hmem, hrule, horigin, (Option.some.inj hproduction).symm, hlength⟩

/-- What a chart has in place of an item that has just begun. -/
theorem Saturated.exists_of_has (h : g.Saturated input cs) {r : ν} {index : Nat}
    {p : Production ν σ τ} (hget : (g.rule r).productions[index]? = some p)
    (hhas : (cs.getD k #[]).Has ⟨r, index, p, k, []⟩) :
    ∃ b ∈ cs.getD k #[], b.rule = r ∧ b.origin = k ∧ b.production = p ∧ b.children = [] := by
  obtain ⟨b, hmem, hkey⟩ := hhas.exists
  simp only [Item.key, Prod.mk.injEq, List.length_nil, List.length_eq_zero_iff] at hkey
  obtain ⟨hrule, hindex, hchildren, horigin⟩ := hkey
  have hproduction := (h.sound k b hmem).get
  rw [hrule, hindex, hget] at hproduction
  exact ⟨b, hmem, hrule, horigin, (Option.some.inj hproduction).symm, hchildren⟩

/-- A production of a nonterminal that an item waits for begins at the position of the item. -/
theorem Saturated.exists_predict (h : g.Saturated input cs) (hmem : item ∈ cs.getD k #[])
    {r : ν} (hnext : item.next? = some (.nonterminal r)) {p : Production ν σ τ}
    (hp : p ∈ (g.rule r).productions) :
    ∃ b ∈ cs.getD k #[], b.rule = r ∧ b.origin = k ∧ b.production = p ∧ b.children = [] := by
  obtain ⟨index, hget⟩ := List.mem_iff_getElem?.1 hp
  exact h.exists_of_has hget (h.closed k item hmem _
    ((mem_consequences_predict hnext).2 (mem_predict.2 ⟨index, p, hget, rfl⟩)))

/-- A production of the root begins at the first position. -/
theorem exists_begin (input : List σ) {root : ν} {p : Production ν σ τ}
    (hp : p ∈ (g.rule root).productions) :
    ∃ b ∈ (g.charts root input).getD 0 #[], b.rule = root ∧ b.origin = 0 ∧ b.production = p ∧
      b.children = [] := by
  obtain ⟨index, hget⟩ := List.mem_iff_getElem?.1 hp
  have hfirst : (g.charts root input).getD 0 #[] = g.close #[] (g.predict root 0).toArray := by
    rw [charts, getD_chartsFrom (Nat.zero_le _)]
    exact getD_push_size
  have hpredict : Chart.Has (g.predict root 0).toArray ⟨root, index, p, 0, []⟩ :=
    Chart.has_of_mem (List.mem_toArray.2 (mem_predict.2 ⟨index, p, hget, rfl⟩))
  have hhas : ((g.charts root input).getD 0 #[]).Has ⟨root, index, p, 0, []⟩ := by
    rw [hfirst]
    exact hpredict.mono (prefix_closeFrom _ 0 _)
  exact (saturated_charts root input).exists_of_has hget hhas

/-- **An item reaches its end over any word that its remaining symbols derive.** -/
theorem Saturated.exists_complete (h : g.Saturated input cs) (hsize : input.length < cs.size)
    {symbols : List (GrammarSymbol ν σ)} {word : List σ} (hd : g.Derives symbols word) {k : Nat}
    {item : Item ν σ τ} (hmem : item ∈ cs.getD k #[])
    (hsymbols : item.production.symbols.drop item.children.length = symbols) {rest : List σ}
    (hinput : input.drop k = word ++ rest) :
    ∃ b ∈ cs.getD (k + word.length) #[], b.rule = item.rule ∧ b.origin = item.origin ∧
      b.next? = none := by
  induction hd generalizing k item rest with
  | nil =>
    exact ⟨item, hmem, rfl, rfl, List.getElem?_eq_none_iff.2 (List.drop_eq_nil_iff.1 hsymbols)⟩
  | @terminal t x symbols word haccepts _ ih =>
    have hnext : item.next? = some (.terminal t) := by
      rw [Item.next?, ← List.head?_drop, hsymbols, List.head?_cons]
    have hget : input[k]? = some x := by
      rw [← List.head?_drop, hinput, List.cons_append, List.head?_cons]
    have hlt := (List.getElem?_eq_some_iff.1 hget).1
    have hscan := h.scanned k x hget (by omega) _
      (mem_scan.2 ⟨item, hmem, t, hnext, haccepts, rfl⟩)
    obtain ⟨b, hb, hrule, horigin, hproduction, hlength⟩ :=
      h.exists_advance hscan (h.sound k item hmem)
    obtain ⟨c, hc, hrule', horigin', hcomplete⟩ := ih hb
      (by rw [hproduction, hlength, ← List.drop_drop, hsymbols, List.drop_one, List.tail_cons])
      (by rw [← List.drop_drop, hinput, List.cons_append, List.drop_one, List.tail_cons])
    refine ⟨c, ?_, hrule'.trans hrule, horigin'.trans horigin, hcomplete⟩
    rwa [List.length_cons, Nat.add_comm word.length, ← Nat.add_assoc]
  | @nonterminal r p symbols u v hp _ _ ih₁ ih₂ =>
    have hnext : item.next? = some (.nonterminal r) := by
      rw [Item.next?, ← List.head?_drop, hsymbols, List.head?_cons]
    -- a derivation of the nonterminal is found from where it is predicted, and completes it
    obtain ⟨b₀, hb₀, hrule₀, horigin₀, hproduction₀, hchildren₀⟩ := h.exists_predict hmem hnext hp
    obtain ⟨b, hb, hrule, horigin, hcomplete⟩ := ih₁ hb₀
      (by rw [hproduction₀, hchildren₀, List.length_nil, List.drop_zero])
      (by rw [hinput, List.append_assoc])
    rw [hrule₀] at hrule
    rw [horigin₀] at horigin
    have hwaits : item.waitsFor b.rule = true := by
      rw [Item.waitsFor, hnext, hrule]
      exact decide_eq_true rfl
    have hadvance := h.closed _ b hb _ ((mem_consequences_complete hcomplete).2
      ⟨item, by rwa [horigin], hwaits, rfl⟩)
    obtain ⟨c, hc, hrule', horigin', hproduction', hlength'⟩ :=
      h.exists_advance hadvance (h.sound k item hmem)
    obtain ⟨e, he, hrule'', horigin'', hcomplete''⟩ := ih₂ hc
      (by rw [hproduction', hlength', ← List.drop_drop, hsymbols, List.drop_one, List.tail_cons])
      (by rw [← List.drop_drop, hinput, List.append_assoc, List.drop_left])
    refine ⟨e, ?_, hrule''.trans hrule', horigin''.trans horigin', hcomplete''⟩
    rwa [List.length_append, ← Nat.add_assoc]

end

/-! ## Derivations of the input -/

/-- The chart after all of the input. -/
def finalChart (g : Grammar ν σ τ) (root : ν) (input : List σ) : Chart ν σ τ :=
  (g.charts root input).getD input.length #[]

theorem derive?_eq (root : ν) (input : List σ) :
    g.derive? root input =
      ((g.finalChart root input).find? (·.isRoot root)).map (·.derivation input.length) := by
  have h := getD_lastChart g #[] (g.close #[] (g.predict root 0).toArray) input
  rw [Array.size_empty, Nat.zero_add] at h
  rw [finalChart, charts, ← h, derive?]
  cases g.lastChart #[] (g.close #[] (g.predict root 0).toArray) input with
  | none => rfl
  | some chart =>
    show (chart.find? (·.isRoot root)).bind _ = (chart.find? (·.isRoot root)).map _
    cases chart.find? (·.isRoot root) with
    | none => rfl
    | some item => rfl

/-- **What the parser derives fits the input.** -/
theorem fits_of_derive? {root : ν} {input : List σ} {d : Derivation ν σ τ}
    (h : g.derive? root input = some d) :
    g.Fits input [.nonterminal root] 0 input.length [d] := by
  rw [derive?_eq, Option.map_eq_some_iff] at h
  obtain ⟨item, hfind, rfl⟩ := h
  obtain ⟨rfl, horigin, hcomplete⟩ := Item.isRoot_iff.1 (Array.find?_some hfind)
  have hsound := (saturated_charts item.rule input).sound _ item (Array.mem_of_find?_eq_some hfind)
  have hfits := hsound.derivation hcomplete
  rwa [horigin] at hfits

/-- A derivation of the whole input leaves a complete item of the root in the last chart. -/
theorem exists_isRoot {root : ν} {input : List σ} (h : g.DerivesFrom root input) :
    ∃ item ∈ g.finalChart root input, item.isRoot root = true := by
  obtain ⟨p, hp, hd⟩ := derivesFrom_iff.1 h
  obtain ⟨b, hb, hrule, horigin, hproduction, hchildren⟩ := exists_begin input hp
  have hsize : input.length < (g.charts root input).size := by
    rw [charts, size_chartsFrom]
    exact Nat.lt_succ_of_le (Nat.le_add_left _ _)
  obtain ⟨item, hmem, hrule', horigin', hcomplete⟩ :=
    (saturated_charts root input).exists_complete hsize hd hb
      (by rw [hproduction, hchildren, List.length_nil, List.drop_zero])
      (show input.drop 0 = input ++ [] by rw [List.drop_zero, List.append_nil])
  rw [Nat.zero_add] at hmem
  exact ⟨item, hmem, Item.isRoot_iff.2 ⟨hrule'.trans hrule, horigin'.trans horigin, hcomplete⟩⟩

/-- What a nonterminal derives has a parse tree. -/
theorem exists_parse {root : ν} {input : List σ} (h : g.DerivesFrom root input) :
    ∃ tree, g.parse root input = some tree := by
  rw [← Option.isSome_iff_exists, parse, Option.isSome_map, derive?_eq, Option.isSome_map,
    Array.find?_isSome]
  exact exists_isRoot h

/-- What a nonterminal derives has a derivation. -/
theorem exists_fits {root : ν} {input : List σ} (h : g.DerivesFrom root input) :
    ∃ d, g.Fits input [.nonterminal root] 0 input.length [d] ∧
      g.parse root input = some (g.tree d) := by
  obtain ⟨tree, htree⟩ := exists_parse h
  obtain ⟨d, hd, rfl⟩ := Option.map_eq_some_iff.1 htree
  exact ⟨d, fits_of_derive? hd, htree⟩

/-- The parser finds a derivation that is the only one. -/
theorem parse_eq_of_unique {root : ν} {input : List σ} {d : Derivation ν σ τ}
    (h : g.Fits input [.nonterminal root] 0 input.length [d])
    (hunique : ∀ d', g.Fits input [.nonterminal root] 0 input.length [d'] → d' = d) :
    g.parse root input = some (g.tree d) := by
  obtain ⟨d', hd', hparse⟩ := exists_fits h.derivesFrom
  rw [hparse, hunique d' hd']

/-- **The parser recognizes exactly the language of the root.** -/
theorem isSome_parse_iff_derivesFrom (root : ν) (input : List σ) :
    (g.parse root input).isSome ↔ g.DerivesFrom root input := by
  rw [parse, Option.isSome_map]
  constructor
  · intro h
    obtain ⟨d, hd⟩ := Option.isSome_iff_exists.1 h
    exact (fits_of_derive? hd).derivesFrom
  · intro h
    rw [derive?_eq, Option.isSome_map, Array.find?_isSome]
    exact exists_isRoot h

end CPreprocessor.Grammar
