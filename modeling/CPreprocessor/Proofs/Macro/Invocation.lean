import CPreprocessor.Proofs.Directive
import CPreprocessor.Proofs.Macro.Expansion

/-!
# Argument lists

What the arguments of an invocation are, said of the tokens between two parentheses that belong
together (`IsEnclosed`): every argument is balanced, and the commas between the arguments are all
that are outside of further parentheses, or the first ones of them if only so many may separate
arguments (`Separates`).

Reading from left to right, with the depth of the parentheses, finds exactly these arguments
(`readInvocation_eq_some_iff`). With the count of the arguments, this says for all tokens what the
expander makes of them (`Expander.readArguments_spec`), so that whatever replaces an invocation has
as many arguments as it asks for.
-/

namespace CPreprocessor

/-! ## Parentheses -/

/-- Tokens in which every parenthesis has its counterpart. The flag tells whether there may be a
comma outside of parentheses. -/
inductive IsBalanced : Bool → List Token → Prop
  | nil {commas : Bool} : IsBalanced commas []
  | token {commas : Bool} {t : Token} {rest : List Token} (hopen : t.isOpen = false)
      (hclose : t.isClose = false) (hcomma : t.isComma = true → commas = true)
      (hrest : IsBalanced commas rest) : IsBalanced commas (t :: rest)
  | group {commas : Bool} {opening close : Token} {inside rest : List Token}
      (hopen : opening.isOpen = true) (hinside : IsBalanced true inside)
      (hclose : close.isClose = true) (hrest : IsBalanced commas rest) :
      IsBalanced commas (opening :: (inside ++ close :: rest))

namespace IsBalanced

variable {commas : Bool} {as bs : List Token}

theorem mono (h : IsBalanced commas as) : IsBalanced true as := by
  induction h with
  | nil => exact .nil
  | token hopen hclose _ _ ih => exact .token hopen hclose (fun _ => rfl) ih
  | group hopen hinside hclose _ _ ih => exact .group hopen hinside hclose ih

theorem append (ha : IsBalanced commas as) (hb : IsBalanced commas bs) :
    IsBalanced commas (as ++ bs) := by
  induction ha with
  | nil => exact hb
  | token hopen hclose hcomma _ ih => exact .token hopen hclose hcomma (ih hb)
  | @group _ opening close inside rest hopen hinside hclose _ _ ih =>
    have h := IsBalanced.group hopen hinside hclose (ih hb)
    rwa [List.cons_append, List.append_assoc, List.cons_append]

theorem singleton {t : Token} (hopen : t.isOpen = false) (hclose : t.isClose = false)
    (hcomma : t.isComma = true → commas = true) : IsBalanced commas [t] :=
  .token hopen hclose hcomma .nil

end IsBalanced

theorem isOpen_eq_false_of_isClose {t : Token} (h : t.isClose = true) : t.isOpen = false :=
  Directive.isPunctuator_eq_false h (by decide)

theorem isOpen_eq_false_of_isComma {t : Token} (h : t.isComma = true) : t.isOpen = false :=
  Directive.isPunctuator_eq_false h (by decide)

theorem isClose_eq_false_of_isComma {t : Token} (h : t.isComma = true) : t.isClose = false :=
  Directive.isPunctuator_eq_false h (by decide)

/-- Tokens that follow an opening parenthesis: what is inside, its counterpart, and the others. -/
structure IsEnclosed (rest inside : List Token) (close : Token) (after : List Token) : Prop where
  eq_append : rest = inside ++ close :: after
  isBalanced : IsBalanced true inside
  isClose : close.isClose = true

/-- Tokens that close so many parentheses which were opened before them. -/
inductive Closes : Nat → List Token → Prop
  | none {tokens : List Token} (h : IsBalanced true tokens) : Closes 0 tokens
  | one {depth : Nat} {inside rest : List Token} {close : Token} (h : IsBalanced true inside)
      (hclose : close.isClose = true) (hrest : Closes depth rest) :
      Closes (depth + 1) (inside ++ close :: rest)

namespace Closes

variable {depth : Nat} {as bs : List Token}

theorem append (ha : IsBalanced true as) (hb : Closes depth bs) : Closes depth (as ++ bs) := by
  cases hb with
  | none h => exact .none (ha.append h)
  | one h hclose hrest =>
    rw [← List.append_assoc]
    exact .one (ha.append h) hclose hrest

/-- An opening parenthesis is one of those that are closed. -/
theorem cons {opening : Token} (hopen : opening.isOpen = true) (h : Closes (depth + 1) as) :
    Closes depth (opening :: as) := by
  cases h with
  | @one _ inside rest close hinside hclose hrest =>
    have hgroup := append (.group hopen hinside hclose .nil) hrest
    rwa [List.cons_append, List.append_assoc, List.cons_append, List.nil_append] at hgroup

end Closes

/-! ## Separating commas -/

/-- How tokens are separated into arguments by so many commas at most; none stands for any number.
All commas outside of parentheses separate, up to that number. -/
inductive Separates : Option Nat → List Token → List (List Token) → Prop
  | last {commas : Option Nat} {argument : List Token}
      (h : IsBalanced (decide (commas = some 0)) argument) : Separates commas argument [argument]
  | comma {commas : Option Nat} {argument rest : List Token} {comma : Token}
      {arguments : List (List Token)} (hcommas : commas ≠ some 0) (h : IsBalanced false argument)
      (hcomma : comma.isComma = true) (hrest : Separates (commas.map (· - 1)) rest arguments) :
      Separates commas (argument ++ comma :: rest) (argument :: arguments)

namespace Separates

variable {commas : Option Nat} {inside front : List Token} {arguments : List (List Token)}

/-- There is always an argument. -/
theorem ne_nil (h : Separates commas inside arguments) : arguments ≠ [] := by
  cases h <;> exact List.cons_ne_nil _ _

theorem length_le {n : Nat} (h : Separates (some n) inside arguments) :
    arguments.length ≤ n + 1 := by
  generalize hcommas : some n = commas at h
  induction h generalizing n with
  | last h =>
    rw [List.length_singleton]
    omega
  | comma hne h hcomma hrest ih =>
    subst hcommas
    have hrest := ih (n := n - 1) rfl
    have hpos : n ≠ 0 := fun hzero => hne (congrArg some hzero)
    rw [List.length_cons]
    omega

theorem exists_append (hfront : IsBalanced (decide (commas = some 0)) front)
    (h : Separates commas inside arguments) :
    ∃ arguments, Separates commas (front ++ inside) arguments := by
  cases h with
  | last h => exact ⟨_, .last (hfront.append h)⟩
  | comma hcommas h hcomma hrest =>
    rw [decide_eq_false hcommas] at hfront
    rw [← List.append_assoc]
    exact ⟨_, .comma hcommas (hfront.append h) hcomma hrest⟩

end Separates

/-- Balanced tokens can be separated. -/
theorem IsBalanced.exists_separates {flag : Bool} {inside : List Token}
    (h : IsBalanced flag inside) (commas : Option Nat) :
    ∃ arguments, Separates commas inside arguments := by
  induction h generalizing commas with
  | nil => exact ⟨_, .last .nil⟩
  | @token flag t rest hopen hclose _ _ ih =>
    by_cases hseparates : t.isComma = true ∧ commas ≠ some 0
    · obtain ⟨arguments, hrest⟩ := ih (commas.map (· - 1))
      exact ⟨_, .comma hseparates.2 .nil hseparates.1 hrest⟩
    · obtain ⟨arguments, hrest⟩ := ih commas
      have hcomma (h : t.isComma = true) : decide (commas = some 0) = true :=
        decide_eq_true (not_not.1 fun hcommas => hseparates ⟨h, hcommas⟩)
      exact hrest.exists_append (.singleton hopen hclose hcomma)
  | @group flag opening close inside rest hopen hinside hclose _ _ ih =>
    obtain ⟨arguments, hrest⟩ := ih commas
    have hgroup := hrest.exists_append (.group hopen hinside hclose .nil)
    rwa [List.cons_append, List.append_assoc, List.cons_append, List.nil_append] at hgroup

/-! ## Reading from left to right -/

/-- Puts tokens in front of the first argument. -/
def Invocation.prepend (tokens : List Token) (i : Invocation) : Invocation :=
  { i with first := tokens ++ i.first }

section

variable {t : Token} {rest : List Token} {depth : Nat} {commas : Option Nat}

theorem readInvocation_open (h : t.isOpen = true) :
    readInvocation depth commas (t :: rest) =
      (readInvocation (depth + 1) commas rest).map (.push t) := by
  rw [readInvocation.eq_def]
  exact if_pos h

theorem readInvocation_close (h : t.isClose = true) :
    readInvocation 0 commas (t :: rest) = some ⟨[], [], t, rest⟩ := by
  rw [readInvocation, if_neg (Bool.eq_false_iff.1 (isOpen_eq_false_of_isClose h)), if_pos h]

theorem readInvocation_close_succ (h : t.isClose = true) :
    readInvocation (depth + 1) commas (t :: rest) =
      (readInvocation depth commas rest).map (.push t) := by
  rw [readInvocation, if_neg (Bool.eq_false_iff.1 (isOpen_eq_false_of_isClose h)), if_pos h]

theorem readInvocation_comma (h : t.isComma = true) (hcommas : commas ≠ some 0) :
    readInvocation 0 commas (t :: rest) =
      (readInvocation 0 (commas.map (· - 1)) rest).map .split := by
  rw [readInvocation, if_neg (Bool.eq_false_iff.1 (isOpen_eq_false_of_isComma h)),
    if_neg (Bool.eq_false_iff.1 (isClose_eq_false_of_isComma h)), if_pos ⟨h, rfl, hcommas⟩]

theorem readInvocation_other (hopen : t.isOpen = false) (hclose : t.isClose = false)
    (hcomma : ¬ (t.isComma = true ∧ depth = 0 ∧ commas ≠ some 0)) :
    readInvocation depth commas (t :: rest) =
      (readInvocation depth commas rest).map (.push t) := by
  rw [readInvocation.eq_def]
  dsimp only
  rw [if_neg (Bool.eq_false_iff.1 hopen), if_neg (Bool.eq_false_iff.1 hclose), if_neg hcomma]

/-- Balanced tokens belong to one argument if the commas outside of their parentheses do not
separate. -/
theorem readInvocation_isBalanced {flag : Bool} {front : List Token} (h : IsBalanced flag front)
    (hflag : flag = true → depth ≠ 0 ∨ commas = some 0) (rest : List Token) :
    readInvocation depth commas (front ++ rest) =
      (readInvocation depth commas rest).map (.prepend front) := by
  induction h generalizing depth rest with
  | nil =>
    have hid : Invocation.prepend [] = id := rfl
    rw [List.nil_append, hid, Option.map_id_fun, id]
  | token hopen hclose hcomma _ ih =>
    have hother : ¬ (_ ∧ depth = 0 ∧ commas ≠ some 0) := fun ⟨h, hdepth, hcommas⟩ =>
      (hflag (hcomma h)).elim (· hdepth) hcommas
    rw [List.cons_append, readInvocation_other hopen hclose hother, ih hflag, Option.map_map]
    rfl
  | group hopen _ hclose _ ihinside ih =>
    have hinside (rest : List Token) :=
      @ihinside (depth + 1) (fun _ => .inl (Nat.succ_ne_zero depth)) rest
    rw [List.cons_append, List.append_assoc, List.cons_append, readInvocation_open hopen, hinside,
      readInvocation_close_succ hclose, ih hflag, Option.map_map, Option.map_map, Option.map_map]
    refine congrArg (Option.map · _) (funext fun i => ?_)
    simp [Invocation.prepend, Invocation.push]

/-- Arguments that are separated by commas are read. -/
theorem exists_of_separates {inside : List Token} {arguments : List (List Token)}
    (h : Separates commas inside arguments) {close : Token} (hclose : close.isClose = true)
    (after : List Token) :
    ∃ i, readInvocation 0 commas (inside ++ close :: after) = some i ∧
      i.arguments = arguments ∧ i.close = close ∧ i.after = after := by
  induction h with
  | last h =>
    rw [readInvocation_isBalanced h (fun hflag => .inr (of_decide_eq_true hflag)),
      readInvocation_close hclose]
    refine ⟨_, rfl, ?_, rfl, rfl⟩
    simp [Invocation.arguments, Invocation.prepend]
  | comma hcommas h hcomma _ ih =>
    obtain ⟨i, hi, rfl, hiclose, hiafter⟩ := ih
    rw [List.append_assoc, List.cons_append,
      readInvocation_isBalanced h (absurd · Bool.false_ne_true),
      readInvocation_comma hcomma hcommas, hi]
    refine ⟨_, rfl, ?_, hiclose, hiafter⟩
    simp [Invocation.arguments, Invocation.prepend, Invocation.split]

/-- Reading stops at the counterpart of the parenthesis before the tokens. -/
theorem exists_closes_of_readInvocation {tokens : List Token} {i : Invocation}
    (h : readInvocation depth commas tokens = some i) :
    ∃ inside, tokens = inside ++ i.close :: i.after ∧ i.close.isClose = true ∧
      Closes depth inside := by
  induction tokens generalizing depth commas i with
  | nil => cases h
  | cons t rest ih =>
    by_cases hopen : t.isOpen = true
    · rw [readInvocation_open hopen] at h
      obtain ⟨j, hj, rfl⟩ := Option.map_eq_some_iff.1 h
      obtain ⟨inside, rfl, hclose, hinside⟩ := ih hj
      exact ⟨t :: inside, rfl, hclose, hinside.cons hopen⟩
    rw [Bool.not_eq_true] at hopen
    by_cases hclose : t.isClose = true
    · cases depth with
      | zero =>
        rw [readInvocation_close hclose] at h
        cases h
        exact ⟨[], rfl, hclose, .none .nil⟩
      | succ depth =>
        rw [readInvocation_close_succ hclose] at h
        obtain ⟨j, hj, rfl⟩ := Option.map_eq_some_iff.1 h
        obtain ⟨inside, rfl, hj, hinside⟩ := ih hj
        exact ⟨t :: inside, rfl, hj, .one .nil hclose hinside⟩
    rw [Bool.not_eq_true] at hclose
    have hsingle : IsBalanced true [t] := .singleton hopen hclose fun _ => rfl
    by_cases hcomma : t.isComma = true ∧ depth = 0 ∧ commas ≠ some 0
    · obtain ⟨hcomma, rfl, hcommas⟩ := hcomma
      rw [readInvocation_comma hcomma hcommas] at h
      obtain ⟨j, hj, rfl⟩ := Option.map_eq_some_iff.1 h
      obtain ⟨inside, rfl, hclose, hinside⟩ := ih hj
      exact ⟨t :: inside, rfl, hclose, hinside.append hsingle⟩
    · rw [readInvocation_other hopen hclose hcomma] at h
      obtain ⟨j, hj, rfl⟩ := Option.map_eq_some_iff.1 h
      obtain ⟨inside, rfl, hclose, hinside⟩ := ih hj
      exact ⟨t :: inside, rfl, hclose, hinside.append hsingle⟩

end

/-- **Reading finds the arguments between two parentheses that belong together.** -/
theorem readInvocation_eq_some_iff {commas : Option Nat} {rest : List Token} {i : Invocation} :
    readInvocation 0 commas rest = some i ↔
      ∃ inside, IsEnclosed rest inside i.close i.after ∧ Separates commas inside i.arguments := by
  constructor
  · intro h
    obtain ⟨inside, rfl, hclose, hinside⟩ := exists_closes_of_readInvocation h
    cases hinside with
    | none hbalanced =>
      obtain ⟨arguments, hseparates⟩ := hbalanced.exists_separates commas
      obtain ⟨j, hj, rfl, -, -⟩ := exists_of_separates hseparates hclose i.after
      obtain rfl := Option.some.inj (h.symm.trans hj)
      exact ⟨inside, ⟨rfl, hbalanced, hclose⟩, hseparates⟩
  · rintro ⟨inside, ⟨rfl, -, hclose⟩, hseparates⟩
    obtain ⟨j, hj, harguments, hjclose, hjafter⟩ := exists_of_separates hseparates hclose i.after
    rw [hj]
    obtain ⟨first, others, close, after⟩ := i
    obtain ⟨jfirst, jothers, jclose, jafter⟩ := j
    cases hjclose
    cases hjafter
    cases harguments
    rfl

/-- Reading goes on past the end of the tokens only if the parenthesis before them is never
closed. -/
theorem readInvocation_eq_none_iff {commas : Option Nat} {rest : List Token} :
    readInvocation 0 commas rest = none ↔
      ¬ ∃ inside close after, IsEnclosed rest inside close after := by
  constructor
  · rintro h ⟨inside, close, after, rfl, hbalanced, hclose⟩
    obtain ⟨arguments, hseparates⟩ := hbalanced.exists_separates commas
    obtain ⟨i, hi, -⟩ := exists_of_separates hseparates hclose after
    rw [h] at hi
    cases hi
  · intro h
    cases hi : readInvocation 0 commas rest with
    | none => rfl
    | some i =>
      obtain ⟨inside, henclosed, -⟩ := readInvocation_eq_some_iff.1 hi
      exact absurd ⟨inside, i.close, i.after, henclosed⟩ h

/-! ## The number of arguments -/

/-- Which arguments a macro with so many parameters is given, and the arguments that it is replaced
with: a lone empty argument is none where no parameter asks for it, and variable arguments that are
missing are empty. -/
inductive Fits (parameters : Nat) : Bool → List (List Token) → List (List Token) → Prop
  | each {given : List (List Token)} (h : given.length = parameters) :
      Fits parameters false given given
  | none (h : parameters = 0) : Fits parameters false [[]] []
  | all {given : List (List Token)} (h : given.length = parameters + 1) :
      Fits parameters true given given
  | missing {given : List (List Token)} (h : given.length = parameters) :
      Fits parameters true given (given ++ [[]])

/-- There is an argument for each parameter, and one for the variable arguments. -/
theorem Fits.length_eq {parameters : Nat} {variadic : Bool} {given fitted : List (List Token)}
    (h : Fits parameters variadic given fitted) :
    fitted.length = parameters + variadic.toNat := by
  cases h with
  | each h => exact h
  | none h => exact h.symm
  | all h => exact h
  | missing h => rw [List.length_append, h]; rfl

theorem fitArguments_eq_some_iff {parameters : Nat} {variadic : Bool}
    {given fitted : List (List Token)} (hne : given ≠ [])
    (hle : variadic = true → given.length ≤ parameters + 1) :
    fitArguments parameters variadic given = some fitted ↔
      Fits parameters variadic given fitted := by
  have hpos : given.length ≠ 0 := fun h => hne (List.length_eq_zero_iff.1 h)
  constructor
  · intro h
    unfold fitArguments at h
    split at h
    · next hvariadic =>
      subst hvariadic
      split at h
      · cases h
      · split at h
        · next heq =>
          cases h
          exact .missing heq
        · cases h
          have := hle rfl
          exact .all (by omega)
    · next hvariadic =>
      rw [Bool.not_eq_true] at hvariadic
      subst hvariadic
      split at h
      · next hnone =>
        cases h
        rw [hnone.2]
        exact .none hnone.1
      · split at h
        · next heq =>
          cases h
          exact .each heq
        · cases h
  · intro h
    cases h with
    | each h =>
      have hnone : ¬ (parameters = 0 ∧ given = [[]]) := fun hnone => hpos (h.trans hnone.1)
      rw [fitArguments, if_neg Bool.false_ne_true, if_neg hnone, if_pos h]
    | none h => rw [fitArguments, if_neg Bool.false_ne_true, if_pos ⟨h, rfl⟩]
    | all h => rw [fitArguments, if_pos rfl, if_neg (by omega), if_neg (by omega)]
    | missing h => rw [fitArguments, if_pos rfl, if_neg (by omega), if_pos h]

/-- How many commas may separate the arguments of a macro. -/
def separators (parameters : Nat) (variadic : Bool) : Option Nat :=
  if variadic then some parameters else none

theorem Separates.fitArguments_eq_some_iff {parameters : Nat} {variadic : Bool}
    {inside : List Token} {given : List (List Token)}
    (h : Separates (separators parameters variadic) inside given) (fitted : List (List Token)) :
    fitArguments parameters variadic given = some fitted ↔
      Fits parameters variadic given fitted := by
  refine CPreprocessor.fitArguments_eq_some_iff h.ne_nil fun hvariadic => ?_
  rw [hvariadic] at h
  exact h.length_le

/-! ## What the expander makes of the arguments -/

namespace Expander

variable (e : Expander) {t : Token} {rest : List Token} {parameters : Nat} {variadic : Bool}

/-- The arguments that an invocation is replaced with are as many as the macro asks for. -/
theorem length_of_fitArguments {i : Invocation} {arguments : List (List Token)}
    (hi : invocation? parameters variadic rest = some i)
    (hfit : fitArguments parameters variadic i.arguments = some arguments) :
    arguments.length = parameters + variadic.toNat := by
  obtain ⟨inside, -, hseparates⟩ := readInvocation_eq_some_iff.1 hi
  exact ((hseparates.fitArguments_eq_some_iff arguments).1 hfit).length_eq

/-- Reads the arguments of the macro that a token names from the tokens after it, of which the first
is a parenthesis: the arguments, the parenthesis that closes them, and what follows. -/
def readArguments (name : Token) (parameters : Nat) (variadic : Bool) (tokens : List Token) :
    Except Fault (List (List Token) × Token × List Token) :=
  match invocation? parameters variadic tokens with
  | none => .error (.located (e.locationOf name) (.unterminatedInvocation name.spelling))
  | some i =>
    match fitArguments parameters variadic i.arguments with
    | none =>
      .error (.located (e.locationOf name)
        (.argumentCount name.spelling i.arguments.length parameters))
    | some arguments => .ok (arguments, i.close, i.after)

/-- The expander reads the arguments of an invocation and goes on with what it is replaced by. -/
theorem expand_eq_readArguments {m : Macro} (hk : e.isKeptDefined t = false)
    (h : e.reading t rest = .function m parameters variadic) :
    e.expand (t :: rest) = (do
      let (arguments, close, after) ← e.readArguments t parameters variadic rest
      let pieces ← substitute m (argument arguments)
        (fun index => e.expand (argument arguments index)) false m.replacement
      let pieces ← pasteAll (e.locationOf t) pieces
      e.expand (finish pieces ((t.hidden.inter close.hidden).insert m.name) t ++ after)) := by
  rw [readArguments]
  cases hi : invocation? parameters variadic rest with
  | none =>
    rw [e.expand_unterminated hk h hi]
    rfl
  | some i =>
    dsimp only
    cases hfit : fitArguments parameters variadic i.arguments with
    | none =>
      rw [e.expand_miscounted hk h hi hfit]
      rfl
    | some arguments =>
      rw [e.expand_function hk h hi hfit]
      rfl

section

variable (name opening : Token) {inside after : List Token} {close : Token}
  {given : List (List Token)}

/-- The arguments between two parentheses are those that are counted. -/
theorem readArguments_of_separates (henclosed : IsEnclosed rest inside close after)
    (hseparates : Separates (separators parameters variadic) inside given) :
    (∀ arguments, Fits parameters variadic given arguments →
      e.readArguments name parameters variadic (opening :: rest) = .ok (arguments, close, after)) ∧
    ((∀ arguments, ¬ Fits parameters variadic given arguments) →
      e.readArguments name parameters variadic (opening :: rest) =
        .error (.located (e.locationOf name)
          (.argumentCount name.spelling given.length parameters))) := by
  obtain ⟨i, hi, rfl, rfl, rfl⟩ := exists_of_separates hseparates henclosed.isClose after
  rw [← henclosed.eq_append] at hi
  have hinvocation : invocation? parameters variadic (opening :: rest) = some i := hi
  have hfit := hseparates.fitArguments_eq_some_iff
  rw [readArguments, hinvocation]
  dsimp only
  constructor
  · intro arguments hfits
    rw [(hfit arguments).2 hfits]
  · intro hno
    have hnone : fitArguments parameters variadic i.arguments = none :=
      Option.eq_none_iff_forall_ne_some.2 fun fitted h => hno fitted ((hfit fitted).1 h)
    rw [hnone]

/-- Without a counterpart of the parenthesis, an invocation is unterminated. -/
theorem readArguments_of_not_isEnclosed
    (h : ¬ ∃ inside close after, IsEnclosed rest inside close after) :
    e.readArguments name parameters variadic (opening :: rest) =
      .error (.located (e.locationOf name) (.unterminatedInvocation name.spelling)) := by
  have hinvocation : invocation? parameters variadic (opening :: rest) = none :=
    readInvocation_eq_none_iff.2 h
  rw [readArguments, hinvocation]

/-- Reading the arguments ends in one of three ways. -/
theorem readArguments_cases (rest : List Token) (parameters : Nat) (variadic : Bool) :
    (¬ ∃ inside close after, IsEnclosed rest inside close after) ∧
      e.readArguments name parameters variadic (opening :: rest) =
        .error (.located (e.locationOf name) (.unterminatedInvocation name.spelling)) ∨
    ∃ inside close after given, IsEnclosed rest inside close after ∧
      Separates (separators parameters variadic) inside given ∧
      ((∃ arguments, Fits parameters variadic given arguments ∧
        e.readArguments name parameters variadic (opening :: rest) =
          .ok (arguments, close, after)) ∨
      (∀ arguments, ¬ Fits parameters variadic given arguments) ∧
        e.readArguments name parameters variadic (opening :: rest) =
          .error (.located (e.locationOf name)
            (.argumentCount name.spelling given.length parameters))) := by
  by_cases h : ∃ inside close after, IsEnclosed rest inside close after
  · obtain ⟨inside, close, after, henclosed⟩ := h
    obtain ⟨given, hseparates⟩ :=
      henclosed.isBalanced.exists_separates (separators parameters variadic)
    obtain ⟨hok, herror⟩ := e.readArguments_of_separates name opening henclosed hseparates
    refine .inr ⟨inside, close, after, given, henclosed, hseparates, ?_⟩
    by_cases hfits : ∃ arguments, Fits parameters variadic given arguments
    · obtain ⟨arguments, hfits⟩ := hfits
      exact .inl ⟨arguments, hfits, hok arguments hfits⟩
    · rw [not_exists] at hfits
      exact .inr ⟨hfits, herror hfits⟩
  · exact .inl ⟨h, e.readArguments_of_not_isEnclosed name opening h⟩

end

/-- **The arguments of an invocation are what is between its parentheses.** They are read exactly if
the parenthesis after the name of the macro has a counterpart and the number of the arguments fits;
then there are as many as the macro has parameters, with one more for variable arguments. An
invocation is unterminated exactly if there is no counterpart, and in all other cases the number of
the arguments is wrong. -/
theorem readArguments_spec (name opening : Token) (rest : List Token) (parameters : Nat)
    (variadic : Bool) :
    (∀ arguments close after,
      e.readArguments name parameters variadic (opening :: rest) = .ok (arguments, close, after) ↔
        ∃ inside given, IsEnclosed rest inside close after ∧
          Separates (separators parameters variadic) inside given ∧
          Fits parameters variadic given arguments) ∧
    (∀ fault, e.readArguments name parameters variadic (opening :: rest) = .error fault ↔
      (¬ ∃ inside close after, IsEnclosed rest inside close after) ∧
        fault = .located (e.locationOf name) (.unterminatedInvocation name.spelling) ∨
      ∃ inside close after given, IsEnclosed rest inside close after ∧
        Separates (separators parameters variadic) inside given ∧
        (∀ arguments, ¬ Fits parameters variadic given arguments) ∧
        fault = .located (e.locationOf name)
          (.argumentCount name.spelling given.length parameters)) ∧
    ∀ arguments close after,
      e.readArguments name parameters variadic (opening :: rest) = .ok (arguments, close, after) →
        arguments.length = parameters + variadic.toNat := by
  have hok (arguments : List (List Token)) (close : Token) (after : List Token) :
      e.readArguments name parameters variadic (opening :: rest) = .ok (arguments, close, after) ↔
        ∃ inside given, IsEnclosed rest inside close after ∧
          Separates (separators parameters variadic) inside given ∧
          Fits parameters variadic given arguments := by
    constructor
    · intro h
      rcases e.readArguments_cases name opening rest parameters variadic with
        ⟨-, hresult⟩ | ⟨inside, close', after', given, henclosed, hseparates,
          ⟨arguments', hfits, hresult⟩ | ⟨-, hresult⟩⟩
      · cases h.symm.trans hresult
      · cases h.symm.trans hresult
        exact ⟨inside, given, henclosed, hseparates, hfits⟩
      · cases h.symm.trans hresult
    · rintro ⟨inside, given, henclosed, hseparates, hfits⟩
      exact (e.readArguments_of_separates name opening henclosed hseparates).1 arguments hfits
  refine ⟨hok, fun fault => ⟨fun h => ?_, ?_⟩, fun arguments close after h => ?_⟩
  · rcases e.readArguments_cases name opening rest parameters variadic with
      ⟨hnone, hresult⟩ | ⟨inside, close, after, given, henclosed, hseparates,
        ⟨arguments, -, hresult⟩ | ⟨hno, hresult⟩⟩
    · cases h.symm.trans hresult
      exact .inl ⟨hnone, rfl⟩
    · cases h.symm.trans hresult
    · cases h.symm.trans hresult
      exact .inr ⟨inside, close, after, given, henclosed, hseparates, hno, rfl⟩
  · rintro (⟨hnone, rfl⟩ | ⟨inside, close, after, given, henclosed, hseparates, hno, rfl⟩)
    · exact e.readArguments_of_not_isEnclosed name opening hnone
    · exact (e.readArguments_of_separates name opening henclosed hseparates).2 hno
  · obtain ⟨inside, given, -, -, hfits⟩ := (hok arguments close after).1 h
    exact hfits.length_eq

end Expander

end CPreprocessor
