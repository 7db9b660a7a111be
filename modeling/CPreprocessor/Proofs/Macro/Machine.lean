import CPreprocessor.Proofs.Macro.Expansion
import Mathlib.Logic.Function.Iterate

/-!
# The expansion machine

Expansion as the loop that it is: a machine that looks at one token of its input at a time and puts
what replaces an invocation back in front of the rest of the input, to be scanned again. The
replacement list of a function-like macro is gone through token by token too. When an argument has
to be expanded on its own, the machine begins with it from scratch and keeps what it was doing on a
stack.

Nothing in the machine says that it stops. It does, with the result of `Expander.expand`, after
finitely many steps and therefore after finitely many replacements (`exists_run_eq_done`): from any
tokens it comes to the end of them (`reaches_returned`), by induction along the expansion.
-/

namespace CPreprocessor.Expander

namespace Machine

/-- An invocation of a function-like macro in whose replacement list the arguments are put. -/
structure Call where
  site : Token
  callee : Macro
  arguments : List (List Token)
  /-- What the tokens that replace the invocation hide. -/
  hidden : HideSet
  /-- The tokens after the invocation. -/
  after : List Token
  /-- What the tokens before it were expanded to. -/
  output : List Token

/-- What waits for an argument to be expanded. -/
structure Frame where
  call : Call
  /-- The pieces of the replacement list so far. -/
  pieces : List Piece
  /-- The parameter that stands for the argument. -/
  parameter : Token
  /-- The replacement list after the parameter. -/
  rest : List Token

/-- Configurations. -/
inductive Cfg
  /-- Scanning tokens, after those that led to the output. -/
  | scan (input output : List Token) (stack : List Frame)
  /-- Going through the rest of a replacement list; the flag tells whether it comes after `##`. -/
  | substitute (call : Call) (pieces : List Piece) (afterPaste : Bool) (rest : List Token)
      (stack : List Frame)
  | done (result : Except Fault (List Token))

variable (e : Expander)

/-- Puts the pieces of a replacement list in front of what follows the invocation. -/
def rescan (site : Token) (hidden : HideSet) (pieces : List Piece) (after output : List Token)
    (stack : List Frame) : Cfg :=
  match pasteAll (e.locationOf site) pieces with
  | .error fault => .done (.error fault)
  | .ok pieces => .scan (finish pieces hidden site ++ after) output stack

/-- A step on the next token of the input. -/
def scanToken (t : Token) (rest output : List Token) (stack : List Frame) : Cfg :=
  if e.isKeptDefined t then
    .scan (rest.drop (operandLength rest)) (output ++ t :: rest.take (operandLength rest)) stack
  else
    match e.reading t rest with
    | .plain t' => .scan rest (output ++ [t']) stack
    | .overflow => .done (.error (.located (e.locationOf t) .lineOverflow))
    | .object m =>
      rescan e t (t.hidden.insert m.name) (m.replacement.map .of) rest output stack
    | .function m parameters variadic =>
      match invocation? parameters variadic rest with
      | none =>
        .done (.error (.located (e.locationOf t) (.unterminatedInvocation t.spelling)))
      | some i =>
        match fitArguments parameters variadic i.arguments with
        | none =>
          .done (.error (.located (e.locationOf t)
            (.argumentCount t.spelling i.arguments.length parameters)))
        | some arguments =>
          .substitute ⟨t, m, arguments, hiddenIn m t i, i.after, output⟩ [] false m.replacement
            stack

/-- A step on the next token of a replacement list. -/
def substituteToken (call : Call) (pieces : List Piece) (afterPaste : Bool) (t : Token)
    (rest : List Token) (stack : List Frame) : Cfg :=
  match (if t.isHash then rest.head?.bind call.callee.parameter? else none) with
  | some index =>
    let literal := stringize t (argument call.arguments index)
    .substitute call (pieces ++ [.token literal]) false rest.tail stack
  | none =>
    match call.callee.parameter? t with
    | none => .substitute call (pieces ++ [.of t]) t.isPaste rest stack
    | some index =>
      if afterPaste || rest.head?.any Token.isPaste then
        let operand := argumentPieces t true (argument call.arguments index)
        .substitute call (pieces ++ operand) false rest stack
      else .scan (argument call.arguments index) [] (⟨call, pieces, t, rest⟩ :: stack)

/-- One step of the machine. It stays where it is done. -/
def step : Cfg → Cfg
  | .scan (t :: rest) output stack => scanToken e t rest output stack
  | .scan [] output [] => .done (.ok output)
  | .scan [] output (⟨call, pieces, parameter, rest⟩ :: stack) =>
    .substitute call (pieces ++ argumentPieces parameter false output) false rest stack
  | .substitute call pieces afterPaste (t :: rest) stack =>
    substituteToken call pieces afterPaste t rest stack
  | .substitute call pieces _ [] stack =>
    rescan e call.site call.hidden pieces call.after call.output stack
  | .done result => .done result

/-- The machine leads from one configuration to another. -/
def Reaches (c c' : Cfg) : Prop := ∃ n, (step e)^[n] c = c'

namespace Reaches

variable {e} {c c' c'' : Cfg}

theorem refl (c : Cfg) : Reaches e c c := ⟨0, rfl⟩

theorem trans (h : Reaches e c c') (h' : Reaches e c' c'') : Reaches e c c'' := by
  obtain ⟨m, rfl⟩ := h
  obtain ⟨n, rfl⟩ := h'
  exact ⟨n + m, Function.iterate_add_apply _ _ _ _⟩

theorem head (h : Reaches e (step e c) c') : Reaches e c c' := by
  obtain ⟨n, rfl⟩ := h
  exact ⟨n + 1, rfl⟩

end Reaches

/-! ## Replacement lists -/

/-- Where the machine is when some tokens have been expanded. -/
def returned (output : List Token) (stack : List Frame) : Except Fault (List Token) → Cfg
  | .ok tokens => .scan [] (output ++ tokens) stack
  | .error fault => .done (.error fault)

/-- Where the machine is when the arguments have been put in the rest of a replacement list. -/
def substituted (call : Call) (pieces : List Piece) (stack : List Frame) :
    Except Fault (List Piece) → Cfg
  | .ok more =>
    rescan e call.site call.hidden (pieces ++ more) call.after call.output stack
  | .error fault => .done (.error fault)

variable {call : Call}

/-- Pieces can be added to those so far or put in front of those to come. -/
theorem substituted_append (pieces front : List Piece) (stack : List Frame)
    (more : Except Fault (List Piece)) :
    substituted e call (pieces ++ front) stack more =
      substituted e call pieces stack (do return front ++ (← more)) := by
  cases more with
  | error fault => rfl
  | ok more =>
    show rescan e _ _ ((pieces ++ front) ++ more) _ _ _ =
      rescan e _ _ (pieces ++ (front ++ more)) _ _ _
    rw [List.append_assoc]

/-- If the machine comes to the end of every argument, then it comes to the end of the replacement
list. -/
theorem reaches_substituted
    (hargs : ∀ index output stack, Reaches e (.scan (argument call.arguments index) output stack)
      (returned output stack (e.expand (argument call.arguments index)))) :
    ∀ (rest : List Token) (pieces : List Piece) (afterPaste : Bool) (stack : List Frame),
      Reaches e (.substitute call pieces afterPaste rest stack)
        (substituted e call pieces stack (CPreprocessor.substitute call.callee
          (argument call.arguments) (fun index => e.expand (argument call.arguments index))
          afterPaste rest))
  | [], pieces, afterPaste, stack => by
    refine .head ?_
    simp only [CPreprocessor.substitute, substituted, List.append_nil]
    exact .refl _
  | t :: rest, pieces, afterPaste, stack => by
    refine .head ?_
    rw [substitute_cons]
    simp only [step, substituteToken]
    cases (if t.isHash = true then rest.head?.bind call.callee.parameter? else none) with
    | some index =>
      have h := reaches_substituted hargs rest.tail
        (pieces ++ [.token (stringize t (argument call.arguments index))]) false stack
      rwa [substituted_append] at h
    | none =>
      cases call.callee.parameter? t with
      | none =>
        have h := reaches_substituted hargs rest (pieces ++ [.of t]) t.isPaste stack
        rwa [substituted_append] at h
      | some index =>
        cases afterPaste || rest.head?.any Token.isPaste with
        | true =>
          have h := reaches_substituted hargs rest
            (pieces ++ argumentPieces t true (argument call.arguments index)) false stack
          rwa [substituted_append] at h
        | false =>
          -- the machine expands the argument before it goes on with the replacement list
          refine (hargs index [] (⟨call, pieces, t, rest⟩ :: stack)).trans ?_
          simp only [Bool.false_eq_true, if_false]
          cases e.expand (argument call.arguments index) with
          | error fault => exact .refl _
          | ok tokens =>
            have h := reaches_substituted hargs rest (pieces ++ argumentPieces t false tokens)
              false stack
            rw [substituted_append] at h
            exact .head h
termination_by rest => rest.length
decreasing_by
  all_goals simp only [List.length_cons, List.length_tail]; omega

/-! ## The input -/

/-- Tokens in front of the expanded ones can be added to the output. -/
theorem returned_append (output front : List Token) (stack : List Frame)
    (result : Except Fault (List Token)) :
    returned (output ++ front) stack result =
      returned output stack (do return front ++ (← result)) := by
  cases result with
  | error fault => rfl
  | ok tokens =>
    show Cfg.scan [] ((output ++ front) ++ tokens) stack =
      Cfg.scan [] (output ++ (front ++ tokens)) stack
    rw [List.append_assoc]

/-- If the machine comes to the end of what replaces an invocation, then it comes to the end of the
tokens that begin with the invocation. -/
theorem reaches_rescan {site : Token} {hidden : HideSet} {after output : List Token}
    {stack : List Frame}
    (h : ∀ pieces, Reaches e (.scan (finish pieces hidden site ++ after) output stack)
      (returned output stack (e.expand (finish pieces hidden site ++ after))))
    (pieces : List Piece) :
    Reaches e (rescan e site hidden pieces after output stack)
      (returned output stack (do
        let pieces ← pasteAll (e.locationOf site) pieces
        e.expand (finish pieces hidden site ++ after))) := by
  unfold rescan
  cases pasteAll (e.locationOf site) pieces with
  | error fault => exact .refl _
  | ok pieces => exact h pieces

/-- There is an argument for every index if an empty one counts. -/
theorem reaches_argument {arguments : List (List Token)}
    (h : ∀ a ∈ arguments, ∀ output stack,
      Reaches e (.scan a output stack) (returned output stack (e.expand a)))
    (index : Nat) (output : List Token) (stack : List Frame) :
    Reaches e (.scan (argument arguments index) output stack)
      (returned output stack (e.expand (argument arguments index))) := by
  unfold argument
  cases hget : arguments[index]? with
  | none =>
    simp only [Option.getD_none, expand_nil, returned, List.append_nil]
    exact .refl _
  | some a => exact h a (List.mem_of_getElem? hget) output stack

/-- **The machine comes to the end of any tokens.** -/
theorem reaches_returned (tokens output : List Token) (stack : List Frame) :
    Reaches e (.scan tokens output stack) (returned output stack (e.expand tokens)) := by
  induction tokens using e.expand_induction generalizing output stack with
  | nil =>
    simp only [expand_nil, returned, List.append_nil]
    exact .refl _
  | kept t rest hk ih =>
    refine .head ?_
    rw [e.expand_kept hk]
    simp only [step, scanToken, hk, if_true]
    have h := ih (output ++ t :: rest.take (operandLength rest)) stack
    rwa [returned_append] at h
  | plain t rest t' hk hread ih =>
    refine .head ?_
    rw [e.expand_plain hk hread]
    simp only [step, scanToken, hk, Bool.false_eq_true, if_false, hread]
    have h := ih (output ++ [t']) stack
    rwa [returned_append] at h
  | overflow t rest hk hread =>
    refine .head ?_
    rw [e.expand_overflow hk hread]
    simp only [step, scanToken, hk, Bool.false_eq_true, if_false, hread]
    exact .refl _
  | object t rest m hk hread ih =>
    refine .head ?_
    rw [e.expand_object hk hread]
    simp only [step, scanToken, hk, Bool.false_eq_true, if_false, hread]
    exact reaches_rescan e (fun pieces => ih pieces output stack) _
  | unterminated t rest m parameters variadic hk hread hi =>
    refine .head ?_
    rw [e.expand_unterminated hk hread hi]
    simp only [step, scanToken, hk, Bool.false_eq_true, if_false, hread, hi]
    exact .refl _
  | miscounted t rest m parameters variadic i hk hread hi hfit =>
    refine .head ?_
    rw [e.expand_miscounted hk hread hi hfit]
    simp only [step, scanToken, hk, Bool.false_eq_true, if_false, hread, hi, hfit]
    exact .refl _
  | function t rest m parameters variadic i arguments hk hread hi hfit harguments ih =>
    refine .head ?_
    rw [e.expand_function hk hread hi hfit]
    simp only [step, scanToken, hk, Bool.false_eq_true, if_false, hread, hi, hfit]
    refine (reaches_substituted e (reaches_argument e harguments) _ _ _ _).trans ?_
    cases CPreprocessor.substitute m (argument arguments)
        (fun index => e.expand (argument arguments index)) false m.replacement with
    | error fault => exact .refl _
    | ok pieces => exact reaches_rescan e (fun pieces => ih pieces output stack) pieces

end Machine

open Machine in
/-- **Macro expansion ends.** Whatever macros there are and whatever the tokens hide, the machine
that starts with the tokens is done after finitely many steps, with what they are expanded to. -/
theorem exists_run_eq_done (tokens : List Token) :
    ∃ n, (step e)^[n] (.scan tokens [] []) = .done (e.expand tokens) := by
  have h : Reaches e (.scan tokens [] []) (.done (e.expand tokens)) := by
    refine (reaches_returned e tokens [] []).trans ?_
    cases e.expand tokens with
    | error fault => exact .refl _
    | ok tokens => exact .head (.refl _)
  exact h

end CPreprocessor.Expander
