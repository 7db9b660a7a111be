import CPreprocessor.Macro.Basic

/-!
# Invocations of function-like macros

The arguments of an invocation stand between parentheses and are separated by the commas that are
inside no further parentheses. `readInvocation` cuts them out and loses no token
(`readInvocation_eq_some`); `fitArguments` checks their number.
-/

namespace CPreprocessor

/-- The arguments of an invocation, the parenthesis that closes it, and what follows. -/
structure Invocation where
  first : List Token
  others : List (List Token)
  close : Token
  after : List Token

namespace Invocation

/-- The arguments; there is always one, which may be empty. -/
def arguments (i : Invocation) : List (List Token) := i.first :: i.others

/-- Puts a token in front of the first argument. -/
def push (t : Token) (i : Invocation) : Invocation := { i with first := t :: i.first }

/-- Begins a new argument in front of the others. -/
def split (i : Invocation) : Invocation := { i with first := [], others := i.first :: i.others }

end Invocation

/-- Reads the arguments of an invocation up to the parenthesis that closes it. So many further
parentheses are open (`depth`), and so many commas may still separate arguments (`commas`); none
stands for any number. -/
def readInvocation (depth : Nat) (commas : Option Nat) : List Token → Option Invocation
  | [] => none
  | t :: rest =>
    if t.isOpen then (readInvocation (depth + 1) commas rest).map (.push t)
    else if t.isClose then
      match depth with
      | 0 => some ⟨[], [], t, rest⟩
      | depth + 1 => (readInvocation depth commas rest).map (.push t)
    else if t.isComma ∧ depth = 0 ∧ commas ≠ some 0 then
      (readInvocation depth (commas.map (· - 1)) rest).map .split
    else (readInvocation depth commas rest).map (.push t)

/-- The arguments of a macro with the given parameters, if their number is right. A lone empty
argument is none for a macro without parameters, and variable arguments that are missing are
empty. -/
def fitArguments (parameters : Nat) (variadic : Bool) (arguments : List (List Token)) :
    Option (List (List Token)) :=
  if variadic then
    if arguments.length < parameters then none
    else if arguments.length = parameters then some (arguments ++ [[]])
    else some arguments
  else if parameters = 0 ∧ arguments = [[]] then some []
  else if arguments.length = parameters then some arguments
  else none

theorem readInvocation_eq_some {depth : Nat} {commas : Option Nat} {tokens : List Token}
    {i : Invocation} (h : readInvocation depth commas tokens = some i) :
    ∃ inside, tokens = inside ++ i.close :: i.after ∧ ∀ a ∈ i.arguments, a.Sublist inside := by
  induction tokens generalizing depth commas i with
  | nil => simp [readInvocation] at h
  | cons t rest ih =>
    have push : ∀ {depth commas}, (readInvocation depth commas rest).map (.push t) = some i →
        ∃ inside, t :: rest = inside ++ i.close :: i.after ∧
          ∀ a ∈ i.arguments, a.Sublist inside := by
      intro depth commas h
      obtain ⟨j, hj, rfl⟩ := Option.map_eq_some_iff.1 h
      obtain ⟨inside, rfl, hsub⟩ := ih hj
      refine ⟨t :: inside, rfl, fun a ha => ?_⟩
      rcases List.mem_cons.1 ha with rfl | ha
      · exact (hsub _ List.mem_cons_self).cons_cons t
      · exact (hsub a (List.mem_cons_of_mem _ ha)).cons t
    unfold readInvocation at h
    split at h
    · exact push h
    · split at h
      · split at h
        · cases h
          exact ⟨[], rfl, by simp [Invocation.arguments]⟩
        · exact push h
      · split at h
        · obtain ⟨j, hj, rfl⟩ := Option.map_eq_some_iff.1 h
          obtain ⟨inside, rfl, hsub⟩ := ih hj
          refine ⟨t :: inside, rfl, fun a ha => ?_⟩
          rcases List.mem_cons.1 ha with rfl | ha
          · exact List.nil_sublist _
          · exact (hsub a ha).cons t
        · exact push h

theorem mem_fitArguments {parameters : Nat} {variadic : Bool} {arguments fitted : List (List Token)}
    (h : fitArguments parameters variadic arguments = some fitted) {a : List Token}
    (ha : a ∈ fitted) : a ∈ arguments ∨ a = [] := by
  unfold fitArguments at h
  split at h
  · split at h
    · simp at h
    · split at h
      · cases h
        simpa using ha
      · cases h
        exact .inl ha
  · split at h
    · cases h
      simp at ha
    · split at h
      · cases h
        exact .inl ha
      · simp at h

end CPreprocessor
