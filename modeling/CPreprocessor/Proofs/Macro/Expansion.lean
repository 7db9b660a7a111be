import CPreprocessor.Macro.Expansion

/-!
# The equations of macro expansion

What `Expander.expand` does with the first token, by what the token is: kept, plain, a number that
is too large to be computed, the name of an object-like macro, or the beginning of an invocation,
which can be unterminated, have the wrong number of arguments, or be replaced.
`Expander.expand_induction` is the induction that goes with the equations: whatever replaces an
invocation, and whatever its arguments are, a property of them may be assumed to show it of the
tokens with the invocation.
-/

namespace CPreprocessor

/-- What putting the arguments in a replacement list does with its first token. -/
theorem substitute_cons (m : Macro) (argument : Nat → List Token)
    (expanded : Nat → Except Fault (List Token)) (afterPaste : Bool) (t : Token)
    (rest : List Token) :
    substitute m argument expanded afterPaste (t :: rest) =
      match (if t.isHash then rest.head?.bind m.parameter? else none) with
      | some index => do
        return .token (stringize t (argument index)) ::
          (← substitute m argument expanded false rest.tail)
      | none =>
        match m.parameter? t with
        | none => do return .of t :: (← substitute m argument expanded t.isPaste rest)
        | some index =>
          if afterPaste || rest.head?.any Token.isPaste then do
            return argumentPieces t true (argument index) ++
              (← substitute m argument expanded false rest)
          else (do
            let tokens ← expanded index
            return argumentPieces t false tokens ++
              (← substitute m argument expanded false rest)) := by
  cases rest with
  | nil =>
    simp only [substitute, List.head?_nil, Option.bind_none, ite_self, Option.any_none,
      Bool.or_false]
    cases m.parameter? t with
    | none => rfl
    | some index =>
      cases afterPaste with
      | true => exact congrArg Except.ok (List.append_nil _).symm
      | false =>
        simp only [Bool.false_eq_true, if_false]
        cases expanded index with
        | error fault => rfl
        | ok tokens => exact congrArg Except.ok (List.append_nil _).symm
  | cons next rest =>
    simp only [substitute, List.head?_cons, Option.bind_some, Option.any_some, List.tail_cons]
    cases (if t.isHash = true then m.parameter? next else none) with
    | some index => rfl
    | none =>
      cases m.parameter? t with
      | none => rfl
      | some index =>
        dsimp only
        by_cases h : (afterPaste || next.isPaste) = true
        · simp only [h, if_true]
          rfl
        · rw [Bool.not_eq_true] at h
          simp only [h, Bool.false_eq_true, if_false]

/-- The tokens that replace an invocation are where it was. -/
theorem position_of_mem_finish {pieces : List Piece} {hidden : HideSet} {site t : Token}
    (h : t ∈ finish pieces hidden site) : t.position = site.position := by
  have hplaced : ∀ u ∈ (pieces.filterMap Piece.token?).map fun u =>
      { u with hidden := u.hidden.union hidden, position := site.position : Token },
      u.position = site.position := by
    intro u hu
    obtain ⟨v, -, rfl⟩ := List.mem_map.1 hu
    rfl
  unfold finish at h
  dsimp only at h
  split at h
  · exact absurd h List.not_mem_nil
  · next first rest hlist =>
    rw [hlist] at hplaced
    obtain ⟨hfirst, hrest⟩ := List.forall_mem_cons.1 hplaced
    rcases List.mem_cons.1 h with rfl | h
    · exact hfirst
    · exact hrest t h

namespace Expander

variable (e : Expander) {t t' : Token} {rest : List Token} {m : Macro} {parameters : Nat}
  {variadic : Bool} {i : Invocation} {arguments : List (List Token)}

/-- Reads the invocation of a macro that begins with the name before the given tokens. -/
def invocation? (parameters : Nat) (variadic : Bool) (rest : List Token) : Option Invocation :=
  readInvocation 0 (if variadic then some parameters else none) rest.tail

/-- What the tokens that replace the invocation of a function-like macro hide. -/
def hiddenIn (m : Macro) (t : Token) (i : Invocation) : HideSet :=
  (t.hidden.inter i.close.hidden).insert m.name

/-- The argument of an index; it is empty if there is none. -/
def argument (arguments : List (List Token)) (index : Nat) : List Token :=
  (arguments[index]?).getD []

/-! ## Equations -/

@[simp] theorem expand_nil : e.expand [] = .ok [] := by rw [expand]

/-- An argument that there is not is as good as an empty one. -/
theorem expand_argument (arguments : List (List Token)) (index : Nat) :
    e.expand (argument arguments index) =
      match _h : arguments[index]? with
      | none => .ok []
      | some tokens => e.expand tokens := by
  unfold argument
  split
  · next h => rw [h, Option.getD_none, expand_nil]
  · next h => rw [h, Option.getD_some]

theorem expand_kept (hk : e.isKeptDefined t = true) :
    e.expand (t :: rest) = (do
      let expanded ← e.expand (rest.drop (operandLength rest))
      return t :: (rest.take (operandLength rest) ++ expanded)) := by
  rw [expand, if_pos hk]

/-- Expansion of a token that is not kept, and of those after it. -/
theorem expand_cons (hk : e.isKeptDefined t = false) :
    e.expand (t :: rest) =
      match e.reading t rest with
      | .plain t' => do return t' :: (← e.expand rest)
      | .overflow => .error (.located (e.locationOf t) .lineOverflow)
      | .object m => do
        let pieces ← pasteAll (e.locationOf t) (m.replacement.map .of)
        e.expand (finish pieces (t.hidden.insert m.name) t ++ rest)
      | .function m parameters variadic =>
        match invocation? parameters variadic rest with
        | none => .error (.located (e.locationOf t) (.unterminatedInvocation t.spelling))
        | some i =>
          match fitArguments parameters variadic i.arguments with
          | none =>
            .error (.located (e.locationOf t)
              (.argumentCount t.spelling i.arguments.length parameters))
          | some arguments => (do
            let pieces ← substitute m (argument arguments)
              (fun index => e.expand (argument arguments index)) false m.replacement
            let pieces ← pasteAll (e.locationOf t) pieces
            e.expand (finish pieces (hiddenIn m t i) t ++ i.after)) := by
  rw [expand, if_neg (by simp [hk])]
  split
  · next h => rw [h]
  · next h => rw [h]
  · next h => rw [h]
  · next m parameters variadic h =>
    rw [h]
    simp only [invocation?]
    split
    · next hi => rw [hi]
    · next i hi =>
      rw [hi]
      dsimp only
      split
      · next hfit => rw [hfit]
      · next arguments hfit =>
        rw [hfit]
        simp only [expand_argument]
        rfl

theorem expand_plain (hk : e.isKeptDefined t = false) (h : e.reading t rest = .plain t') :
    e.expand (t :: rest) = (do return t' :: (← e.expand rest)) := by
  rw [e.expand_cons hk, h]

theorem expand_overflow (hk : e.isKeptDefined t = false) (h : e.reading t rest = .overflow) :
    e.expand (t :: rest) = .error (.located (e.locationOf t) .lineOverflow) := by
  rw [e.expand_cons hk, h]

theorem expand_object (hk : e.isKeptDefined t = false) (h : e.reading t rest = .object m) :
    e.expand (t :: rest) = (do
      let pieces ← pasteAll (e.locationOf t) (m.replacement.map .of)
      e.expand (finish pieces (t.hidden.insert m.name) t ++ rest)) := by
  rw [e.expand_cons hk, h]

section

variable (hk : e.isKeptDefined t = false) (h : e.reading t rest = .function m parameters variadic)
include hk h

theorem expand_unterminated (hi : invocation? parameters variadic rest = none) :
    e.expand (t :: rest) =
      .error (.located (e.locationOf t) (.unterminatedInvocation t.spelling)) := by
  simp only [e.expand_cons hk, h, hi]

theorem expand_miscounted (hi : invocation? parameters variadic rest = some i)
    (hfit : fitArguments parameters variadic i.arguments = none) :
    e.expand (t :: rest) =
      .error (.located (e.locationOf t)
        (.argumentCount t.spelling i.arguments.length parameters)) := by
  simp only [e.expand_cons hk, h, hi, hfit]

theorem expand_function (hi : invocation? parameters variadic rest = some i)
    (hfit : fitArguments parameters variadic i.arguments = some arguments) :
    e.expand (t :: rest) = (do
      let pieces ← substitute m (argument arguments)
        (fun index => e.expand (argument arguments index)) false m.replacement
      let pieces ← pasteAll (e.locationOf t) pieces
      e.expand (finish pieces (hiddenIn m t i) t ++ i.after)) := by
  simp only [e.expand_cons hk, h, hi, hfit]

end

/-! ## Induction -/

/-- **Induction along expansion.** -/
theorem expand_induction {P : List Token → Prop} (nil : P [])
    (kept : ∀ t rest, e.isKeptDefined t = true → P (rest.drop (operandLength rest)) →
      P (t :: rest))
    (plain : ∀ t rest t', e.isKeptDefined t = false → e.reading t rest = .plain t' → P rest →
      P (t :: rest))
    (overflow : ∀ t rest, e.isKeptDefined t = false → e.reading t rest = .overflow → P (t :: rest))
    (object : ∀ t rest m, e.isKeptDefined t = false → e.reading t rest = .object m →
      (∀ pieces, P (finish pieces (t.hidden.insert m.name) t ++ rest)) → P (t :: rest))
    (unterminated : ∀ t rest m parameters variadic, e.isKeptDefined t = false →
      e.reading t rest = .function m parameters variadic →
      invocation? parameters variadic rest = none → P (t :: rest))
    (miscounted : ∀ t rest m parameters variadic i, e.isKeptDefined t = false →
      e.reading t rest = .function m parameters variadic →
      invocation? parameters variadic rest = some i →
      fitArguments parameters variadic i.arguments = none → P (t :: rest))
    (function : ∀ t rest m parameters variadic i arguments, e.isKeptDefined t = false →
      e.reading t rest = .function m parameters variadic →
      invocation? parameters variadic rest = some i →
      fitArguments parameters variadic i.arguments = some arguments →
      (∀ a ∈ arguments, P a) → (∀ pieces, P (finish pieces (hiddenIn m t i) t ++ i.after)) →
      P (t :: rest))
    (tokens : List Token) : P tokens := by
  refine WellFounded.induction (C := P) (InvImage.wf e.measure WellFoundedRelation.wf) tokens
    fun tokens ih => ?_
  replace ih : ∀ as, WellFoundedRelation.rel (e.measure as) (e.measure tokens) → P as := ih
  cases tokens with
  | nil => exact nil
  | cons t rest =>
    cases hk : e.isKeptDefined t with
    | true => exact kept t rest hk (ih _ (e.measure_drop t rest _))
    | false =>
      cases h : e.reading t rest with
      | plain t' => exact plain t rest t' hk h (ih _ (e.measure_tail t rest))
      | overflow => exact overflow t rest hk h
      | object m => exact object t rest m hk h fun pieces => ih _ (e.measure_object h pieces)
      | function m parameters variadic =>
        cases hi : invocation? parameters variadic rest with
        | none => exact unterminated t rest m parameters variadic hk h hi
        | some i =>
          cases hfit : fitArguments parameters variadic i.arguments with
          | none => exact miscounted t rest m parameters variadic i hk h hi hfit
          | some arguments =>
            exact function t rest m parameters variadic i arguments hk h hi hfit
              (fun a ha => ih a (e.measure_argument hi hfit ha))
              (fun pieces => ih _ (e.measure_function h hi pieces))

end Expander

end CPreprocessor
