import CPreprocessor.Lexeme.Automaton
import Mathlib.Computability.MyhillNerode
import Mathlib.Order.CompletePartialOrder

/-!
# Automata and left quotients

The left quotient of a language by a character is what can follow that character in its texts. An
automaton recognizes a language for every state if the language of a state, so to speak, takes the
same step as the state does (`Automaton.Recognizes`): its left quotient by a character is the
language of the next state, and empty if there is none. Then a text leads from the start to an
accepting state exactly if it is in the language of the start (`Recognizes.accepts_iff`).

The first part is how left quotients go with the operations on languages.
-/

open scoped Computability

namespace Language

variable {α : Type} {L M : Language α} {a : α}

@[simp] theorem leftQuotient_zero (x : List α) : (0 : Language α).leftQuotient x = 0 := rfl

@[simp] theorem leftQuotient_one (a : α) : (1 : Language α).leftQuotient [a] = 0 := by
  ext w
  simp

@[simp] theorem leftQuotient_add (L M : Language α) (x : List α) :
    (L + M).leftQuotient x = L.leftQuotient x + M.leftQuotient x := rfl

@[simp] theorem nil_mem_add : [] ∈ L + M ↔ [] ∈ L ∨ [] ∈ M := Iff.rfl

@[simp] theorem nil_mem_mul : [] ∈ L * M ↔ [] ∈ L ∧ [] ∈ M := by
  rw [mem_mul]
  constructor
  · rintro ⟨u, hu, v, hv, h⟩
    obtain ⟨rfl, rfl⟩ := List.append_eq_nil_iff.1 h
    exact ⟨hu, hv⟩
  · rintro ⟨hL, hM⟩
    exact ⟨[], hL, [], hM, rfl⟩

theorem leftQuotient_mul_of_nil_notMem (h : [] ∉ L) (M : Language α) (a : α) :
    (L * M).leftQuotient [a] = L.leftQuotient [a] * M := by
  ext w
  rw [mem_leftQuotient, mem_mul, mem_mul]
  constructor
  · rintro ⟨u, hu, v, hv, huv⟩
    cases u with
    | nil => exact absurd hu h
    | cons c u =>
      obtain ⟨rfl, rfl⟩ := List.cons.inj huv
      exact ⟨u, hu, v, hv, rfl⟩
  · rintro ⟨u, hu, v, hv, rfl⟩
    exact ⟨a :: u, hu, v, hv, rfl⟩

theorem leftQuotient_mul_of_nil_mem (h : [] ∈ L) (M : Language α) (a : α) :
    (L * M).leftQuotient [a] = L.leftQuotient [a] * M + M.leftQuotient [a] := by
  ext w
  rw [mem_leftQuotient, mem_mul, mem_add, mem_mul]
  constructor
  · rintro ⟨u, hu, v, hv, huv⟩
    cases u with
    | nil =>
      obtain rfl : v = a :: w := huv
      exact .inr hv
    | cons c u =>
      obtain ⟨rfl, rfl⟩ := List.cons.inj huv
      exact .inl ⟨u, hu, v, hv, rfl⟩
  · rintro (⟨u, hu, v, hv, rfl⟩ | hw)
    · exact ⟨a :: u, hu, v, hv, rfl⟩
    · exact ⟨[], h, a :: w, hw, rfl⟩

theorem leftQuotient_one_add_mul (h : [] ∉ L) (M : Language α) (a : α) :
    ((1 + L) * M).leftQuotient [a] = M.leftQuotient [a] + L.leftQuotient [a] * M := by
  rw [add_mul, one_mul, leftQuotient_add, leftQuotient_mul_of_nil_notMem h]

theorem leftQuotient_kstar (L : Language α) (a : α) :
    L∗.leftQuotient [a] = L.leftQuotient [a] * L∗ := by
  ext w
  rw [mem_leftQuotient, mem_mul]
  constructor
  · intro hw
    obtain ⟨words, hflat, hwords⟩ := mem_kstar_iff_exists_nonempty.1 hw
    cases words with
    | nil => simp at hflat
    | cons first rest =>
      obtain ⟨hfirst, hne⟩ := hwords first List.mem_cons_self
      cases first with
      | nil => exact absurd rfl hne
      | cons c first =>
        obtain ⟨rfl, rfl⟩ := List.cons.inj hflat
        exact ⟨first, hfirst, rest.flatten,
          join_mem_kstar fun v hv => (hwords v (List.mem_cons_of_mem _ hv)).1, rfl⟩
  · rintro ⟨u, hu, v, hv, rfl⟩
    obtain ⟨words, rfl, hwords⟩ := mem_kstar.1 hv
    refine mem_kstar.2 ⟨(a :: u) :: words, rfl, fun x hx => ?_⟩
    rcases List.mem_cons.1 hx with rfl | hx
    · exact hu
    · exact hwords x hx

theorem leftQuotient_kstar_mul (L M : Language α) (a : α) :
    (L∗ * M).leftQuotient [a] = L.leftQuotient [a] * (L∗ * M) + M.leftQuotient [a] := by
  rw [leftQuotient_mul_of_nil_mem (nil_mem_kstar L), leftQuotient_kstar, mul_assoc]

/-- A text of a language can be put in front of repetitions of a greater one. -/
theorem mul_kstar_le (h : L ≤ M) : L * M∗ ≤ M∗ :=
  le_trans (mul_le_mul_left h _) (le_trans le_add_self (one_add_self_mul_kstar_eq_kstar M).le)

end Language

namespace CPreprocessor.Lexeme.Automaton

variable {σ : Type} {a : Automaton σ} {language : σ → Language UInt8}

/-- Every state of an automaton accepts a language. -/
structure Recognizes (a : Automaton σ) (language : σ → Language UInt8) : Prop where
  accepting_iff : ∀ s, a.accepting s = true ↔ [] ∈ language s
  leftQuotient_eq : ∀ s b, (language s).leftQuotient [b] = (a.step s b).elim 0 language

theorem Recognizes.run_iff (h : a.Recognizes language) (s : σ) (text : Bytes) :
    (a.run s text).any a.accepting = true ↔ text ∈ language s := by
  induction text generalizing s with
  | nil => exact h.accepting_iff s
  | cons b rest ih =>
    have hstep : b :: rest ∈ language s ↔ rest ∈ (a.step s b).elim 0 language := by
      rw [← h.leftQuotient_eq s b]
      rfl
    rw [hstep, run]
    cases a.step s b with
    | none => simp
    | some s' => exact ih s'

/-- **An automaton accepts exactly the language of its start.** -/
theorem Recognizes.accepts_iff (h : a.Recognizes language) (text : Bytes) :
    a.accepts text = true ↔ text ∈ language a.start :=
  h.run_iff a.start text

end CPreprocessor.Lexeme.Automaton
