import CPreprocessor.Proofs.Session.Selection

/-!
# The stack of conditionals

`processFrom` is in the middle between the lines and their outline: it processes an outline, with a
stack of conditionals that are open around it. After a line that opens a conditional, what it does
is told by the state of that conditional alone (`processFrom_skipped`, `processFrom_taken`,
`processFrom_taking`, `processFrom_waiting`): it processes or skips the first group, does the same
as the recursive definition with what is after that, and goes on from the end of the conditional
with the stack as it was before. So nothing has to be said of the conditionals further down.
-/

namespace CPreprocessor

namespace SessionM

theorem ofExcept_ok {α : Type} (a : α) : SessionM.ofExcept (.ok a) = (pure a : SessionM α) := rfl

theorem ofExcept_bind {α β : Type} (x : Except Fault α) (k : α → Except Fault β) :
    SessionM.ofExcept (x >>= k) =
      (do let a ← SessionM.ofExcept x; SessionM.ofExcept (k a)) := by
  cases x with
  | error fault => rfl
  | ok a => rw [ofExcept_ok, pure_bind]; rfl

end SessionM

namespace Session

open SessionM

variable (session : Session) (nested : Option Inclusion)

/-! ## Groups within conditionals -/

/-- Processes a group, or skips it if the conditionals around it say so. -/
def processWithin (group : LineGroup) (p : Progress) : SessionM (List OutputLine × Progress) := do
  if p.live then
    let (output, file) ← processGroup session nested group p.file
    return (output, { p with file })
  else
    SessionM.ofExcept (skipGroup p.file group)
    return ([], p)

/-- Goes on from a group to what is after it. -/
def atBoundary : Boundary → Location → List Token → Progress → SessionM Progress
  | .elifGroup => atElif
  | .elseGroup => atElse
  | .endIf => atEndIf

/-- Processes an outline with some conditionals open. -/
def processFrom : Outline → Progress → SessionM (List OutputLine)
  | .last group, p => do
    let (output, p) ← processWithin session nested group p
    match p.conditionals with
    | [] => return output
    | c :: _ => fail .unterminatedConditional c.location
  | .upTo group boundary hash line after, p => do
    let (output, p) ← processWithin session nested group p
    let p ← atBoundary boundary (p.file.locationOf hash) (line.drop 2) p
    let more ← processFrom after p
    return output ++ more

variable {session nested}

theorem processWithin_of_live {group : LineGroup} {p : Progress} (h : p.live = true) :
    processWithin session nested group p = (do
      let (output, file) ← processGroup session nested group p.file
      return (output, { p with file })) := by
  rw [processWithin, if_pos h]

theorem processWithin_of_not_live {group : LineGroup} {p : Progress} (h : p.live = false) :
    processWithin session nested group p = (do
      SessionM.ofExcept (skipGroup p.file group)
      return ([], p)) := by
  rw [processWithin, if_neg (by rw [h]; decide)]

theorem processWithin_nil (p : Progress) :
    processWithin session nested .nil p = pure ([], p) := by
  cases h : p.live with
  | true => 
    rw [processWithin_of_live h, processGroup, pure_bind]
  | false =>
    rw [processWithin_of_not_live h, skipGroup, ofExcept_ok, pure_bind]

/-- What is done for the beginning of a group is done before the rest of the outline. -/
theorem processFrom_mapGroup {f : LineGroup → LineGroup} {o : Outline} {p : Progress}
    {step : SessionM (List OutputLine × Progress)}
    (h : processWithin session nested (f o.first) p = (do
      let (output, p) ← step
      let (more, p) ← processWithin session nested o.first p
      return (output ++ more, p))) :
    processFrom session nested (o.mapGroup f) p = (do
      let (output, p) ← step
      let more ← processFrom session nested o p
      return output ++ more) := by
  cases o with
  | last group =>
    rw [Outline.first] at h
    simp only [Outline.mapGroup, processFrom, h, bind_assoc, pure_bind]
    refine bind_congr fun x => bind_congr fun y => ?_
    split
    · rw [pure_bind]
    · rfl
  | upTo group boundary hash line after =>
    rw [Outline.first] at h
    simp only [Outline.mapGroup, processFrom, h, bind_assoc, pure_bind, List.append_assoc]

theorem processFrom_mapGroup_of_live {f : LineGroup → LineGroup} {o : Outline} {p : Progress}
    {step : SessionM (List OutputLine × SourceFile)} (hlive : p.live = true)
    (h : processGroup session nested (f o.first) p.file = (do
      let (output, file) ← step
      let (more, file) ← processGroup session nested o.first file
      return (output ++ more, file))) :
    processFrom session nested (o.mapGroup f) p = (do
      let (output, file) ← step
      let more ← processFrom session nested o { p with file }
      return output ++ more) := by
  have hlive' (file : SourceFile) : ({ p with file } : Progress).live = true := hlive
  have hstep : processWithin session nested (f o.first) p = (do
      let (output, p) ← (do
        let (output, file) ← step
        return (output, { p with file }))
      let (more, p) ← processWithin session nested o.first p
      return (output ++ more, p)) := by
    simp only [processWithin_of_live hlive, processWithin_of_live (hlive' _), h, bind_assoc,
      pure_bind]
  simp only [processFrom_mapGroup hstep, bind_assoc, pure_bind]

theorem processFrom_mapGroup_of_not_live {f : LineGroup → LineGroup} {o : Outline} {p : Progress}
    {step : Except Fault Unit} (hlive : p.live = false)
    (h : skipGroup p.file (f o.first) = (do step; skipGroup p.file o.first)) :
    processFrom session nested (o.mapGroup f) p = (do
      SessionM.ofExcept step
      processFrom session nested o p) := by
  have hstep : processWithin session nested (f o.first) p = (do
      let (output, p) ← (do
        SessionM.ofExcept step
        return (([] : List OutputLine), p))
      let (more, p) ← processWithin session nested o.first p
      return (output ++ more, p)) := by
    simp only [processWithin_of_not_live hlive, h, ofExcept_bind, bind_assoc, pure_bind,
      List.nil_append]
  simp only [processFrom_mapGroup hstep, bind_assoc, pure_bind, List.nil_append, bind_pure]

theorem processFrom_mapGroup_of_skipGroup_eq {f : LineGroup → LineGroup} {o : Outline}
    {p : Progress} (hlive : p.live = false)
    (h : skipGroup p.file (f o.first) = skipGroup p.file o.first) :
    processFrom session nested (o.mapGroup f) p = processFrom session nested o p := by
  have hstep : skipGroup p.file (f o.first) = (.ok () >>= fun _ => skipGroup p.file o.first) := h
  rw [processFrom_mapGroup_of_not_live hlive hstep, ofExcept_ok, pure_bind]

/-! ## Boundaries -/

theorem atElif_push {c : Conditional} (h : c.seenElse = false) (location : Location)
    (expression : List Token) (p : Progress) :
    atElif location expression (p.push c) = (match c.state with
      | .taking => pure (p.push { c with state := .taken })
      | .waiting => do
        if ← condition p.file location expression then
          return p.push { c with state := .taking }
        else return p.push c
      | .taken | .skipped => pure (p.push c)) := by
  obtain ⟨state, seenElse, location'⟩ := c
  obtain rfl : seenElse = false := h
  cases state <;> rfl

theorem atElse_push {c : Conditional} (h : c.seenElse = false) (location : Location)
    (tail : List Token) (p : Progress) :
    atElse location tail (p.push c) = (do
      if c.state ≠ .skipped then warnExtraTokens p.file "else" tail
      return p.push c.atElse) := by
  simp only [atElse, Progress.push, h, Bool.false_eq_true, if_false]

theorem atEndIf_push (c : Conditional) (location : Location) (tail : List Token) (p : Progress) :
    atEndIf location tail (p.push c) = (do
      if c.state ≠ .skipped then warnExtraTokens p.file "endif" tail
      return p) := rfl

/-! ## Conditionals

How an outline is processed after a line that opens a conditional depends on the state of the
conditional. -/

/-- Nothing is processed in a conditional that is skipped. -/
theorem processFrom_skipped (o : Outline) (p : Progress) (seenElse : Bool) (location : Location) :
    processFrom session nested o (p.push ⟨.skipped, seenElse, location⟩) = (do
      SessionM.ofExcept (skipGroup p.file o.first)
      SessionM.ofExcept (skipChain p.file location seenElse o.chain)
      processFrom session nested o.rest p) := by
  have hlive (seenElse : Bool) : (p.push ⟨.skipped, seenElse, location⟩).live = false := rfl
  induction o generalizing seenElse with
  | last group =>
    simp only [processFrom, processWithin_of_not_live (hlive _), bind_assoc, pure_bind]
    rfl
  | upTo group boundary hash line after ih =>
    simp only [processFrom, processWithin_of_not_live (hlive _), bind_assoc, pure_bind,
      List.nil_append, bind_pure]
    refine bind_congr fun _ => ?_
    cases boundary with
    | elifGroup =>
      cases seenElse with
      | true => rfl
      | false =>
        simp only [atBoundary, atElif_push, pure_bind, ih, Outline.chain, Outline.rest, skipChain,
          ofExcept_bind, Bool.false_eq_true, if_false, bind_assoc]
    | elseGroup =>
      cases seenElse with
      | true => rfl
      | false =>
        simp only [atBoundary, atElse_push, ne_eq, not_true, if_false, Conditional.atElse,
          pure_bind, ih, Outline.chain, Outline.rest, skipChain, ofExcept_bind,
          Bool.false_eq_true, bind_assoc]
    | endIf =>
      simp only [atBoundary, atEndIf_push, ne_eq, not_true, if_false, pure_bind, Outline.chain,
        Outline.rest, skipChain, ofExcept_ok]

/-- After a group that was processed, no other is. -/
theorem processFrom_taken (o : Outline) (p : Progress) (seenElse : Bool) (location : Location) :
    processFrom session nested o (p.push ⟨.taken, seenElse, location⟩) = (do
      SessionM.ofExcept (skipGroup p.file o.first)
      passChain p.file location seenElse o.chain
      processFrom session nested o.rest p) := by
  have hlive (seenElse : Bool) : (p.push ⟨.taken, seenElse, location⟩).live = false := rfl
  induction o generalizing seenElse with
  | last group =>
    simp only [processFrom, processWithin_of_not_live (hlive _), bind_assoc, pure_bind]
    rfl
  | upTo group boundary hash line after ih =>
    simp only [processFrom, processWithin_of_not_live (hlive _), bind_assoc, pure_bind,
      List.nil_append, bind_pure]
    refine bind_congr fun _ => ?_
    cases boundary with
    | elifGroup =>
      cases seenElse with
      | true => rfl
      | false =>
        simp only [atBoundary, atElif_push, pure_bind, ih, Outline.chain, Outline.rest, passChain,
          Bool.false_eq_true, if_false, bind_assoc]
    | elseGroup =>
      cases seenElse with
      | true => rfl
      | false =>
        simp only [atBoundary, atElse_push, ne_eq, reduceCtorEq, not_false_iff, if_true,
          Conditional.atElse, pure_bind, ih, Outline.chain, Outline.rest, passChain,
          Bool.false_eq_true, if_false, bind_assoc]
    | endIf =>
      simp only [atBoundary, atEndIf_push, ne_eq, reduceCtorEq, not_false_iff, if_true, pure_bind,
        Outline.chain, Outline.rest, passChain, bind_assoc]

/-- In the group that is processed, what is after it is passed. -/
theorem processFrom_taking (o : Outline) (p : Progress) (seenElse : Bool) (location : Location) :
    processFrom session nested o (p.push ⟨.taking, seenElse, location⟩) = (do
      let (output, file) ← processGroup session nested o.first p.file
      passChain file location seenElse o.chain
      let more ← processFrom session nested o.rest { p with file }
      return output ++ more) := by
  have hlive : (p.push ⟨.taking, seenElse, location⟩).live = true := rfl
  have hpush (file : SourceFile) : { p.push ⟨.taking, seenElse, location⟩ with file } =
      { p with file }.push ⟨.taking, seenElse, location⟩ := rfl
  cases o with
  | last group =>
    simp only [processFrom, processWithin_of_live hlive, bind_assoc, pure_bind]
    rfl
  | upTo group boundary hash line after =>
    simp only [processFrom, processWithin_of_live hlive, hpush, bind_assoc, pure_bind]
    refine bind_congr fun x => ?_
    cases boundary with
    | elifGroup =>
      cases seenElse with
      | true => rfl
      | false =>
        simp only [atBoundary, atElif_push, pure_bind, processFrom_taken, Outline.chain,
          Outline.rest, passChain, Bool.false_eq_true, if_false, bind_assoc]
    | elseGroup =>
      cases seenElse with
      | true => rfl
      | false =>
        simp only [atBoundary, atElse_push, ne_eq, reduceCtorEq, not_false_iff, if_true,
          Conditional.atElse, pure_bind, processFrom_taken, Outline.chain, Outline.rest, passChain,
          Bool.false_eq_true, if_false, bind_assoc]
    | endIf =>
      simp only [atBoundary, atEndIf_push, ne_eq, reduceCtorEq, not_false_iff, if_true, pure_bind,
        Outline.chain, Outline.rest, passChain, bind_assoc]

/-- Before any group was processed, the next one may be. -/
theorem processFrom_waiting (o : Outline) (p : Progress) (location : Location) :
    processFrom session nested o (p.push ⟨.waiting, false, location⟩) = (do
      SessionM.ofExcept (skipGroup p.file o.first)
      let (output, file) ← processChain session nested location o.chain p.file
      let more ← processFrom session nested o.rest { p with file }
      return output ++ more) := by
  have hlive : (p.push ⟨.waiting, false, location⟩).live = false := rfl
  induction o with
  | last group =>
    simp only [processFrom, processWithin_of_not_live hlive, bind_assoc, pure_bind]
    rfl
  | upTo group boundary hash line after ih =>
    simp only [processFrom, processWithin_of_not_live hlive, bind_assoc, pure_bind,
      List.nil_append, bind_pure]
    refine bind_congr fun _ => ?_
    cases boundary with
    | elifGroup =>
      simp only [atBoundary, atElif_push, Outline.chain, Outline.rest, processChain, bind_assoc]
      refine bind_congr fun holds => ?_
      cases holds with
      | true =>
        simp only [if_true, pure_bind, processFrom_taking, bind_assoc]
      | false =>
        simp only [Bool.false_eq_true, if_false, pure_bind, ih, bind_assoc]
    | elseGroup =>
      simp only [atBoundary, atElse_push, ne_eq, reduceCtorEq, not_false_iff, if_true,
        Conditional.atElse, pure_bind, processFrom_taking, Outline.chain, Outline.rest,
        processChain, bind_assoc]
    | endIf =>
      simp only [atBoundary, atEndIf_push, ne_eq, reduceCtorEq, not_false_iff, if_true, pure_bind,
        Outline.chain, Outline.rest, processChain, bind_assoc, List.nil_append, bind_pure]

end Session

end CPreprocessor
