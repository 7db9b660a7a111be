import CPreprocessor.Token

/-!
# Why macro expansion ends

An invocation is replaced by tokens that hide the macro, but the number of tokens may grow, and the
names that a token hides may be fewer than those that the invocation hid. What shrinks is seen from
the right. A position of a list of tokens is as exposed as the number of macro names that some token
up to it does not hide. The tokens that replace an invocation are less exposed than the parenthesis
that closed it, and no token after them is more exposed than before. So, for some degree, fewer
positions are that exposed than before, and for no higher degree are there more of them: the numbers
of positions of each degree descend (`Profile`, `profile_replace`), and they cannot do so for ever.
The same measure descends from a list of tokens to the rest of it and to an argument in it
(`profile_sublist`).
-/

namespace CPreprocessor

/-! ## The order -/

/-- For every degree up to a bound, a number. -/
structure Profile (bound : Nat) where
  counts : Nat → Nat

namespace Profile

/-- One number descends, and none of a higher degree ascends. -/
def Descends (bound : Nat) (f g : Nat → Nat) : Prop :=
  ∃ d, d ≤ bound ∧ f d < g d ∧ ∀ e, d < e → e ≤ bound → f e ≤ g e

theorem descends_wf : ∀ bound, WellFounded (Descends bound)
  | 0 => by
    refine Subrelation.wf ?_ (InvImage.wf (fun f : Nat → Nat => f 0) Nat.lt_wfRel.wf)
    rintro f g ⟨d, hd, hlt, -⟩
    obtain rfl := Nat.le_zero.1 hd
    exact hlt
  | bound + 1 => by
    refine Subrelation.wf ?_ (InvImage.wf (fun f : Nat → Nat => (f (bound + 1), f))
      (Prod.lex Nat.lt_wfRel ⟨_, descends_wf bound⟩).wf)
    rintro f g ⟨d, hd, hlt, hle⟩
    rcases Nat.lt_or_ge (f (bound + 1)) (g (bound + 1)) with h | h
    · exact Prod.Lex.left _ _ h
    · have hd' : d ≤ bound := by
        rcases Nat.lt_or_ge bound d with h' | h'
        · obtain rfl : d = bound + 1 := by omega
          omega
        · exact h'
      have heq : f (bound + 1) = g (bound + 1) :=
        Nat.le_antisymm (hle (bound + 1) (by omega) (Nat.le_refl _)) h
      show Prod.Lex _ _ (f (bound + 1), f) (g (bound + 1), g)
      rw [heq]
      exact Prod.Lex.right _ ⟨d, hd', hlt, fun e h₁ h₂ => hle e h₁ (by omega)⟩

instance (bound : Nat) : WellFoundedRelation (Profile bound) where
  rel f g := Descends bound f.counts g.counts
  wf := InvImage.wf Profile.counts (descends_wf bound)

end Profile

/-! ## The measure -/

/-- Whether a macro of the given name can be expanded in a token. -/
def Token.exposes (t : Token) (name : Bytes) : Bool := !decide (name ∈ t.hidden)

/-- The names that some token exposes, besides those seen before. -/
def exposedIn (seen : Bytes → Bool) (tokens : List Token) (name : Bytes) : Bool :=
  seen name || tokens.any (·.exposes name)

/-- The number of positions of a list at which at least so many names (`degree`) have been exposed,
by a token up to there or before the list. -/
def weight (names : List Bytes) (degree : Nat) (seen : Bytes → Bool) : List Token → Nat
  | [] => 0
  | t :: rest =>
    let seen := exposedIn seen [t]
    (if degree ≤ names.countP seen then 1 else 0) + weight names degree seen rest

/-- The measure by which macro expansion descends. -/
def profile (names : List Bytes) (tokens : List Token) : Profile names.length :=
  ⟨fun degree => weight names degree (fun _ => false) tokens⟩

section

variable {names : List Bytes} {degree : Nat} {seen seen' : Bytes → Bool}

theorem countP_mono (names : List Bytes) (h : ∀ n, seen n = true → seen' n = true) :
    names.countP seen ≤ names.countP seen' :=
  List.countP_mono_left fun n _ => h n

theorem countP_lt (h : ∀ n, seen n = true → seen' n = true) {name : Bytes} (hname : name ∈ names)
    (hseen : seen name = false) (hseen' : seen' name = true) :
    names.countP seen < names.countP seen' := by
  induction names with
  | nil => exact absurd hname List.not_mem_nil
  | cons n rest ih =>
    rw [List.countP_cons, List.countP_cons]
    rcases List.mem_cons.1 hname with rfl | hname
    · have := countP_mono rest h
      simp only [hseen, hseen', if_true, Bool.false_eq_true, if_false]
      omega
    · have := ih hname
      have hn := h n
      split <;> split <;> simp_all
      omega

theorem exposedIn_mono (h : ∀ n, seen n = true → seen' n = true) (tokens : List Token) (n : Bytes)
    (hn : exposedIn seen tokens n = true) : exposedIn seen' tokens n = true := by
  simp only [exposedIn, Bool.or_eq_true] at hn ⊢
  exact hn.imp_left (h n)

theorem exposedIn_append (as bs : List Token) :
    exposedIn seen (as ++ bs) = exposedIn (exposedIn seen as) bs := by
  funext n
  simp [exposedIn, Bool.or_assoc]

theorem weight_mono (h : ∀ n, seen n = true → seen' n = true) (tokens : List Token) :
    weight names degree seen tokens ≤ weight names degree seen' tokens := by
  induction tokens generalizing seen seen' with
  | nil => exact Nat.le_refl _
  | cons t rest ih =>
    have h' := exposedIn_mono h [t]
    have hcount := countP_mono names h'
    have hrest := ih h'
    simp only [weight]
    split <;> split <;> omega

theorem weight_append (as bs : List Token) :
    weight names degree seen (as ++ bs) =
      weight names degree seen as + weight names degree (exposedIn seen as) bs := by
  induction as generalizing seen with
  | nil =>
    have h : exposedIn seen [] = seen := funext fun n => by simp [exposedIn]
    rw [h, List.nil_append, weight, Nat.zero_add]
  | cons a as ih =>
    rw [List.cons_append, weight, weight, ih, ← exposedIn_append, List.singleton_append,
      Nat.add_assoc]

theorem weight_sublist {as bs : List Token} (h : as.Sublist bs) :
    weight names degree seen as ≤ weight names degree seen bs := by
  induction h generalizing seen with
  | slnil => exact Nat.le_refl _
  | cons b _ ih =>
    refine Nat.le_trans ih (Nat.le_trans (weight_mono (fun n hn => ?_) _) (Nat.le_add_left _ _))
    simp [exposedIn, hn]
  | cons_cons b _ ih => exact Nat.add_le_add_left ih _

theorem weight_zero (tokens : List Token) : weight names 0 seen tokens = tokens.length := by
  induction tokens generalizing seen with
  | nil => rfl
  | cons t rest ih => simp [weight, ih, Nat.add_comm]

/-- Positions are less exposed than a degree that the names exposed in the list do not reach. -/
theorem weight_eq_zero {p : Bytes → Bool} (hp : names.countP p < degree) {tokens : List Token}
    (hseen : ∀ n, seen n = true → p n = true)
    (h : ∀ t ∈ tokens, ∀ n, t.exposes n = true → p n = true) :
    weight names degree seen tokens = 0 := by
  induction tokens generalizing seen with
  | nil => rfl
  | cons t rest ih =>
    have h' : ∀ n, exposedIn seen [t] n = true → p n = true := by
      intro n hn
      simp only [exposedIn, Bool.or_eq_true, List.any_cons, List.any_nil, Bool.or_false] at hn
      exact hn.elim (hseen n) (h t List.mem_cons_self n)
    have hcount := countP_mono names h'
    rw [weight, ih h' fun u hu => h u (List.mem_cons_of_mem _ hu)]
    simp only [Nat.add_zero, ite_eq_right_iff]
    omega

/-- The last position of a list is as exposed as the list. -/
theorem weight_pos {tokens : List Token} (hne : tokens ≠ [])
    (h : degree ≤ names.countP (exposedIn seen tokens)) : 0 < weight names degree seen tokens := by
  rw [← List.dropLast_concat_getLast hne] at h ⊢
  rw [exposedIn_append] at h
  rw [weight_append]
  simp only [weight, h, if_true]
  omega

end

/-! ## It descends -/

/-- **The measure descends to a shorter list of tokens in the same order.** -/
theorem profile_sublist {names : List Bytes} {as bs : List Token} (h : as.Sublist bs)
    (hlt : as.length < bs.length) :
    WellFoundedRelation.rel (profile names as) (profile names bs) :=
  ⟨0, Nat.zero_le _, by simpa only [profile, weight_zero] using hlt,
    fun _ _ _ => weight_sublist h⟩

/-- **The measure descends when tokens are replaced by ones that expose fewer names.** The names
that the new tokens may expose are given by a predicate. -/
theorem profile_replace {names : List Bytes} (p : Bytes → Bool) (front : List Token)
    {body after : List Token} (hbody : ∀ t ∈ body, ∀ n, t.exposes n = true → p n = true)
    (hfront : ∀ n, p n = true → front.any (·.exposes n) = true)
    {name : Bytes} (hname : name ∈ names) (hp : p name = false)
    (hexposed : front.any (·.exposes name) = true) :
    WellFoundedRelation.rel (profile names (body ++ after)) (profile names (front ++ after)) := by
  have hsub : ∀ n, p n = true → exposedIn (fun _ => false) front n = true := fun n hn => by
    simpa [exposedIn] using hfront n hn
  have hlt : names.countP p < names.countP (exposedIn (fun _ => false) front) :=
    countP_lt hsub hname hp (by simpa [exposedIn] using hexposed)
  have hne : front ≠ [] := by
    rintro rfl
    simp at hexposed
  have hzero : ∀ degree, names.countP (exposedIn (fun _ => false) front) ≤ degree →
      weight names degree (fun _ => false) body = 0 := fun degree hdegree =>
    weight_eq_zero (Nat.lt_of_lt_of_le hlt hdegree) (fun _ h => by simp at h) hbody
  have hafter : ∀ degree, weight names degree (exposedIn (fun _ => false) body) after ≤
      weight names degree (exposedIn (fun _ => false) front) after := fun degree =>
    weight_mono (fun n hn => by
      simp only [exposedIn, Bool.false_or, List.any_eq_true] at hn
      obtain ⟨t, ht, hn⟩ := hn
      exact hsub n (hbody t ht n hn)) after
  refine ⟨names.countP (exposedIn (fun _ => false) front), List.countP_le_length, ?_,
    fun degree hdegree _ => ?_⟩
  · have hpos : 0 < weight names (names.countP (exposedIn (fun _ => false) front))
        (fun _ => false) front := weight_pos hne (Nat.le_refl _)
    simp only [profile, weight_append, hzero _ (Nat.le_refl _)]
    have := hafter (names.countP (exposedIn (fun _ => false) front))
    omega
  · simp only [profile, weight_append, hzero _ (Nat.le_of_lt hdegree)]
    have := hafter degree
    omega

end CPreprocessor
