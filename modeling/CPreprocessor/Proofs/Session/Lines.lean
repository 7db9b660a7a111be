import CPreprocessor.Proofs.Macro.Expansion
import CPreprocessor.Proofs.Session.Stack

/-!
# Lines and their outline

The lines of a file are processed one by one, with a stack of conditionals. The recursive definition
of conditional inclusion processes their outline, without a stack. Both are the same for all lines,
whatever conditionals they open, continue and close, and in whatever order
(`processToEnd_eq_processOutline`): the same groups are processed, in the same state, and the same
errors end the file.
-/

namespace CPreprocessor.Session

open SessionM

variable {session : Session} {nested : Option Inclusion}

/-! ## Directives -/

theorem obey_directive (boundary : Boundary) (operand : List Token) (location : Location)
    (lastLine : Nat) (p : Progress) :
    obey session nested (boundary.directive operand) location lastLine p = (do
      let p ← atBoundary boundary location operand p
      return ([], p)) := by
  cases boundary <;> rfl

/-- A directive that belongs to no conditional changes nothing about the progress but the file. -/
theorem obey_alone {directive : Directive} (hopens : directive.opensConditional = false)
    (hboundary : directive.boundary? = none) (location : Location) (lastLine : Nat)
    (p : Progress) :
    obey session nested directive location lastLine p = (do
      let (output, q) ← obey session nested directive location lastLine { file := p.file }
      return (output, { p with file := q.file })) := by
  cases directive with
  | ifExpression | ifDefined | ifNotDefined => contradiction
  | elifExpression | elseGroup | endIf => contradiction
  | inclusion | defineObject | defineFunction | undefine | pragma =>
    simp only [obey, bind_assoc, pure_bind]
  | line operand =>
    simp only [obey, lineControl, bind_assoc]
    refine bind_congr fun tokens => ?_
    cases LineControl.ofTokens tokens with
    | none => rfl
    | some control => rfl
  | error | null | nonDirective => rfl

/-- The steps at a boundary change nothing about the progress but the conditionals. -/
theorem atBoundary_bind_congr {α : Type} {k k' : Progress → SessionM α} {p : Progress}
    (h : ∀ conditionals, k { p with conditionals } = k' { p with conditionals })
    (boundary : Boundary) (location : Location) (operand : List Token) :
    (atBoundary boundary location operand p >>= k) =
      (atBoundary boundary location operand p >>= k') := by
  obtain ⟨file, conditionals, pending⟩ := p
  cases conditionals with
  | nil => cases boundary <;> rfl
  | cons c outer =>
    obtain ⟨state, seenElse, location'⟩ := c
    cases boundary with
    | elifGroup =>
      cases seenElse with
      | true => rfl
      | false =>
        simp only [atBoundary, atElif]
        cases state with
        | taking => exact h _
        | waiting =>
          simp only [Bool.false_eq_true, if_false, bind_assoc]
          refine bind_congr fun holds => ?_
          cases holds with
          | true => exact h _
          | false => exact h _
        | taken => exact h _
        | skipped => exact h _
    | elseGroup =>
      cases seenElse with
      | true => rfl
      | false =>
        simp only [atBoundary, atElse, Bool.false_eq_true, if_false]
        split
        · simp only [bind_assoc, pure_bind]
          exact bind_congr fun _ => h _
        · exact h _
    | endIf =>
      simp only [atBoundary, atEndIf]
      split
      · simp only [bind_assoc, pure_bind]
        exact bind_congr fun _ => h _
      · exact h _

theorem processDirective_of_begins {hash : Token} {line : List Token} {p : Progress}
    (h : Directive.beginsConditional line = true) (hlive : p.live = true) :
    processDirective session nested hash line p = (do
      let location := p.file.locationOf hash
      let holds ← opens p.file location line
      return ([], p.push (.begin holds location))) := by
  simp only [processDirective, hlive, true_or, if_true, opens]
  cases hd : Directive.ofTokens line with
  | none => rfl
  | some d =>
    have hopens := (Directive.opensConditional_eq hd).trans h
    cases d with
    | ifExpression => rfl
    | ifDefined | ifNotDefined => simp only [obey, bind_assoc, pure_bind]
    | _ => contradiction

theorem processDirective_of_begins_not_live {hash : Token} {line : List Token} {p : Progress}
    (h : Directive.beginsConditional line = true) (hlive : p.live = false) :
    processDirective session nested hash line p =
      pure ([], p.push (.beginSkipped (p.file.locationOf hash))) := by
  simp only [processDirective, hlive, Directive.any_continuesConditional,
    Directive.boundaryOf_eq_none h, Option.isSome_none, Bool.false_eq_true, or_false, if_false, h,
    if_true]

theorem processDirective_of_boundary {hash : Token} {line : List Token} {boundary : Boundary}
    (h : Directive.boundaryOf line = some boundary) (p : Progress) :
    processDirective session nested hash line p = (do
      let p ← atBoundary boundary (p.file.locationOf hash) (line.drop 2) p
      return ([], p)) := by
  have hread := Directive.ofTokens_of_boundaryOf h
  have hany := Directive.any_continuesConditional line
  rw [h, hread, Option.isSome_some] at hany
  simp only [processDirective, hread, hany, or_true, if_true, obey_directive]

theorem processDirective_alone {hash : Token} {line : List Token} {p : Progress}
    (hbegins : Directive.beginsConditional line = false)
    (hboundary : Directive.boundaryOf line = none) (hlive : p.live = true) :
    processDirective session nested hash line p = (do
      let (output, file) ← obeyAlone session nested p.file hash line
      return (output, { p with file })) := by
  unfold Directive.boundaryOf at hboundary
  simp only [processDirective, hlive, true_or, if_true, obeyAlone]
  cases hd : Directive.ofTokens line with
  | none => rfl
  | some d =>
    rw [hd, Option.bind_some] at hboundary
    have hopens := (Directive.opensConditional_eq hd).trans hbegins
    simp only [obey_alone hopens hboundary _ _ p, bind_assoc, pure_bind]

theorem processDirective_alone_not_live {hash : Token} {line : List Token} {p : Progress}
    (hbegins : Directive.beginsConditional line = false)
    (hboundary : Directive.boundaryOf line = none) (hlive : p.live = false) :
    processDirective session nested hash line p = pure ([], p) := by
  simp only [processDirective, hlive, Directive.any_continuesConditional, hboundary,
    Option.isSome_none, Bool.false_eq_true, or_false, if_false, hbegins]

/-- A directive that can be read is obeyed where it is processed. -/
theorem processDirective_of_live {hash : Token} {line : List Token} {p : Progress} {d : Directive}
    (hread : Directive.ofTokens line = some d) (hlive : p.live = true) :
    processDirective session nested hash line p =
      obey session nested d (p.file.locationOf hash) (line.getLast?.getD hash).position.line p := by
  simp only [processDirective, hlive, true_or, if_true, hread]

/-! ## Lines -/

theorem flush_eq (p : Progress) :
    flush p = (do
      let text ← processText p.file p.pending.reverse
      return (text, { p with pending := [] })) := by
  simp only [flush, processText, bind_assoc, pure_bind]

theorem processText_nil (file : SourceFile) : processText file [] = pure [] := by
  have hexpand : expand file [] = pure [] := by
    simp only [expand, Expander.expand_nil, ofExcept_ok]
    rfl
  simp only [processText, List.flatten_nil, hexpand, pure_bind]
  rfl

theorem processToEnd_cons (line : List Token) (rest : List (List Token)) (p : Progress) :
    processToEnd session nested (line :: rest) p = (do
      let (output, p) ← processLine session nested line p
      let more ← processToEnd session nested rest p
      return output ++ more) := by
  simp only [processToEnd, processLines, bind_assoc, pure_bind]
  refine bind_congr fun x => bind_congr fun y => bind_congr fun z => ?_
  split
  · rw [pure_bind, List.append_assoc]
  · rfl

theorem processToEnd_nil (p : Progress) :
    processToEnd session nested [] p = (do
      let text ← processText p.file p.pending.reverse
      match p.conditionals with
      | [] => return text
      | c :: _ => fail .unterminatedConditional c.location) := by
  simp only [processToEnd, processLines, flush_eq, pure_bind, bind_assoc]
  refine bind_congr fun text => ?_
  cases p.conditionals <;> rfl

theorem processToEnd_blank (rest : List (List Token)) (p : Progress) :
    processToEnd session nested ([] :: rest) p = processToEnd session nested rest p := by
  simp only [processToEnd_cons, processLine, List.head?_nil, pure_bind, List.nil_append, bind_pure]

theorem processToEnd_hash {hash : Token} (hhash : hash.isHash = true) (tokens : List Token)
    (rest : List (List Token)) (p : Progress) :
    processToEnd session nested ((hash :: tokens) :: rest) p = (do
      let text ← processText p.file p.pending.reverse
      let (output, p) ← processDirective session nested hash (hash :: tokens)
        { p with pending := [] }
      let more ← processToEnd session nested rest p
      return text ++ (output ++ more)) := by
  simp only [processToEnd_cons, processLine, List.head?_cons, hhash, if_true, flush_eq, bind_assoc,
    pure_bind, List.append_assoc]

theorem processToEnd_text {first : Token} (hfirst : first.isHash = false) (tokens : List Token)
    (rest : List (List Token)) {p : Progress} (hlive : p.live = true) :
    processToEnd session nested ((first :: tokens) :: rest) p =
      processToEnd session nested rest
        { p with pending := (first :: tokens) :: p.pending } := by
  simp only [processToEnd_cons, processLine, List.head?_cons, hfirst, Bool.false_eq_true, if_false,
    hlive, if_true, pure_bind, List.nil_append, bind_pure]

theorem processToEnd_text_not_live {first : Token} (hfirst : first.isHash = false)
    (tokens : List Token) (rest : List (List Token)) {p : Progress} (hlive : p.live = false) :
    processToEnd session nested ((first :: tokens) :: rest) p =
      processToEnd session nested rest p := by
  simp only [processToEnd_cons, processLine, List.head?_cons, hfirst, hlive, Bool.false_eq_true,
    if_false, pure_bind, List.nil_append, bind_pure]

/-! ## Text -/

/-- Text before a group that does not begin with text is expanded on its own. -/
theorem processFrom_prependText {o : Outline} {lines : List (List Token)} {p : Progress}
    (ho : ∀ more rest, o.first ≠ .text more rest) (hlive : lines ≠ [] → p.live = true) :
    processFrom session nested (o.mapGroup (.prependText lines)) p = (do
      let text ← processText p.file lines
      let more ← processFrom session nested o p
      return text ++ more) := by
  cases lines with
  | nil =>
    rw [Outline.mapGroup_prependText_nil, processText_nil, pure_bind]
    simp only [List.nil_append, bind_pure]
  | cons line lines =>
    have hne := List.cons_ne_nil line lines
    have hstep : processGroup session nested (o.first.prependText (line :: lines)) p.file = (do
        let (text, file) ← (do
          let text ← processText p.file (line :: lines)
          return (text, p.file))
        let (more, file) ← processGroup session nested o.first file
        return (text ++ more, file)) := by
      rw [LineGroup.prependText_eq ho hne, processGroup]
      simp only [bind_assoc, pure_bind]
    rw [processFrom_mapGroup_of_live (hlive hne) hstep]
    simp only [bind_assoc, pure_bind]

theorem skipGroup_prependText (file : SourceFile) (lines : List (List Token))
    (group : LineGroup) :
    skipGroup file (group.prependText lines) = skipGroup file group := by
  unfold LineGroup.prependText
  split
  · rw [skipGroup, skipGroup]
  · split
    · rfl
    · rw [skipGroup]

/-! ## The whole run -/

variable (session nested) in
/-- Processes a conditional, given whether the condition of its first group holds. -/
def processSelected (holds : Bool) (location : Location) (first : LineGroup) (chain : GroupChain)
    (file : SourceFile) : SessionM (List OutputLine × SourceFile) :=
  match holds with
  | true => do
    let (output, file) ← processGroup session nested first file
    passChain file location false chain
    return (output, file)
  | false => do
    SessionM.ofExcept (skipGroup file first)
    processChain session nested location chain file

theorem processGroup_conditional (hash : Token) (line : List Token) (first rest : LineGroup)
    (chain : GroupChain) (file : SourceFile) :
    processGroup session nested (.conditional hash line first chain rest) file = (do
      let (output, file) ← (do
        let holds ← opens file (file.locationOf hash) line
        processSelected session nested holds (file.locationOf hash) first chain file)
      let (more, file) ← processGroup session nested rest file
      return (output ++ more, file)) := by
  rw [processGroup, bind_assoc]
  refine bind_congr fun holds => ?_
  cases holds with
  | true => simp only [if_true, processSelected, bind_assoc, pure_bind]
  | false => simp only [Bool.false_eq_true, if_false, processSelected, bind_assoc]

theorem processFrom_begin (o : Outline) (p : Progress) (holds : Bool) (location : Location) :
    processFrom session nested o (p.push (.begin holds location)) = (do
      let (output, file) ← processSelected session nested holds location o.first o.chain p.file
      let more ← processFrom session nested o.rest { p with file }
      return output ++ more) := by
  cases holds with
  | true =>
    rw [Conditional.begin, if_pos rfl, processFrom_taking]
    simp only [processSelected, bind_assoc, pure_bind]
  | false =>
    rw [Conditional.begin, if_neg Bool.false_ne_true, processFrom_waiting]
    simp only [processSelected, bind_assoc]

/-- A line that begins with `#` is processed as the outline says, if those after it are. -/
theorem processFrom_outline_hash {hash : Token} {tokens : List Token} {rest : List (List Token)}
    {p : Progress} (hhash : hash.isHash = true)
    (ih : ∀ q : Progress, q.pending = p.pending →
      processToEnd session nested rest q = processFrom session nested (outline rest) q) :
    processFrom session nested (outline ((hash :: tokens) :: rest)) p = (do
      let (output, p) ← processDirective session nested hash (hash :: tokens) p
      let more ← processToEnd session nested rest p
      return output ++ more) := by
  rw [outline_hash hhash]
  cases hbegins : Directive.beginsConditional (hash :: tokens) with
  | true =>
    rw [if_pos rfl]
    have hpush (c : Conditional) := ih (p.push c) rfl
    cases hlive : p.live with
    | true =>
      rw [processDirective_of_begins hbegins hlive,
        processFrom_mapGroup_of_live hlive (processGroup_conditional _ _ _ _ _ _)]
      simp only [bind_assoc, pure_bind, List.nil_append, bind_pure, hpush, processFrom_begin]
    | false =>
      have hskip : skipGroup p.file (.conditional hash (hash :: tokens) (outline rest).first
          (outline rest).chain (outline rest).rest.first) = (do
            (do
              skipGroup p.file (outline rest).first
              skipChain p.file (p.file.locationOf hash) false (outline rest).chain)
            skipGroup p.file (outline rest).rest.first) := by
        rw [skipGroup, bind_assoc]
      rw [processDirective_of_begins_not_live hbegins hlive,
        processFrom_mapGroup_of_not_live hlive hskip]
      simp only [pure_bind, List.nil_append, bind_pure, hpush, Conditional.beginSkipped,
        processFrom_skipped, ofExcept_bind, bind_assoc]
  | false =>
    rw [if_neg Bool.false_ne_true]
    cases hboundary : Directive.boundaryOf (hash :: tokens) with
    | some boundary =>
      rw [processDirective_of_boundary hboundary]
      simp only [processFrom, processWithin_nil, pure_bind, List.nil_append, bind_pure, bind_assoc]
      exact atBoundary_bind_congr (fun conditionals => (ih { p with conditionals } rfl).symm) _ _ _
    | none =>
      dsimp only
      cases hlive : p.live with
      | true =>
        have hfile (file : SourceFile) := ih { p with file } rfl
        rw [processDirective_alone hbegins hboundary hlive,
          processFrom_mapGroup_of_live hlive (by rw [processGroup])]
        simp only [bind_assoc, pure_bind, hfile]
      | false =>
        rw [processDirective_alone_not_live hbegins hboundary hlive,
          processFrom_mapGroup_of_skipGroup_eq hlive (by rw [skipGroup])]
        simp only [pure_bind, List.nil_append, bind_pure, ih p rfl]

/-- Lines are processed as their outline says, with the conditionals that are open and the text that
is not expanded yet. Text is gathered only where it is processed. -/
theorem processToEnd_eq_processFrom (lines : List (List Token)) (p : Progress)
    (hp : p.pending ≠ [] → p.live = true) :
    processToEnd session nested lines p =
      processFrom session nested ((outline lines).mapGroup (.prependText p.pending.reverse))
        { p with pending := [] } := by
  have hp' : p.pending.reverse ≠ [] → ({ p with pending := [] } : Progress).live = true :=
    fun h => hp (List.reverse_ne_nil_iff.1 h)
  induction lines generalizing p with
  | nil =>
    have hfirst (more : List (List Token)) (rest : LineGroup) :
        (outline []).first ≠ .text more rest := LineGroup.noConfusion
    rw [processFrom_prependText hfirst hp', processToEnd_nil]
    simp only [outline, processFrom, processWithin_nil, pure_bind]
    refine bind_congr fun text => ?_
    cases p.conditionals with
    | nil => simp only [pure_bind, List.append_nil]
    | cons c outer => rfl
  | cons line rest ih =>
    cases line with
    | nil =>
      rw [processToEnd_blank]
      exact ih p hp hp'
    | cons first tokens =>
      cases hfirst : first.isHash with
      | true =>
        have ih' (q : Progress) (hq : q.pending = []) :
            processToEnd session nested rest q = processFrom session nested (outline rest) q := by
          have hq' : { q with pending := [] } = q := by rw [← hq]
          rw [ih q (absurd hq) fun h => absurd (congrArg List.reverse hq) h, hq, List.reverse_nil,
            Outline.mapGroup_prependText_nil, hq']
        rw [processFrom_prependText (Outline.first_outline_ne_text hfirst _ _) hp',
          processToEnd_hash hfirst, processFrom_outline_hash hfirst ih']
        simp only [bind_assoc, pure_bind]
      | false =>
        rw [outline_text hfirst, Outline.mapGroup_mapGroup]
        cases hlive : p.live with
        | true =>
          have hf : LineGroup.prependText p.pending.reverse ∘ LineGroup.prependText
              [first :: tokens] = .prependText ((first :: tokens) :: p.pending).reverse := by
            funext group
            rw [List.reverse_cons]
            exact LineGroup.prependText_prependText _ _ _
          rw [processToEnd_text hfirst _ _ hlive, hf]
          exact ih { p with pending := (first :: tokens) :: p.pending } (fun _ => hlive)
            fun _ => hlive
        | false =>
          have hlive' : ({ p with pending := [] } : Progress).live = false := hlive
          have hskip : skipGroup p.file ((LineGroup.prependText p.pending.reverse ∘
              LineGroup.prependText [first :: tokens]) (outline rest).first) =
              skipGroup p.file (outline rest).first := by
            simp only [Function.comp, skipGroup_prependText]
          rw [processToEnd_text_not_live hfirst _ _ hlive, ih p hp hp',
            processFrom_mapGroup_of_skipGroup_eq hlive' hskip,
            processFrom_mapGroup_of_skipGroup_eq hlive' (skipGroup_prependText _ _ _)]

theorem processFrom_eq_processOutline (o : Outline) (file : SourceFile) :
    processFrom session nested o { file } = processOutline session nested file o := by
  have hlive : ({ file } : Progress).live = true := rfl
  cases o with
  | last group =>
    simp only [processFrom, processOutline, processWithin_of_live hlive, bind_assoc, pure_bind]
  | upTo group boundary hash line after =>
    simp only [processFrom, processOutline, processWithin_of_live hlive, bind_assoc, pure_bind]
    refine bind_congr fun x => ?_
    cases boundary <;> rfl

/-- Lines are processed as their outline says from the beginning of a file on. -/
theorem processToEnd_eq (lines : List (List Token)) (file : SourceFile) :
    processToEnd session nested lines { file } =
      processFrom session nested (outline lines) { file } := by
  rw [processToEnd_eq_processFrom _ _ fun h => absurd rfl h, List.reverse_nil,
    Outline.mapGroup_prependText_nil]

/-- **The lines of a file are processed as their outline says**, without a stack of conditionals. -/
theorem processToEnd_eq_processOutline (lines : List (List Token)) (file : SourceFile) :
    processToEnd session nested lines { file } =
      processOutline session nested file (outline lines) := by
  rw [processToEnd_eq, processFrom_eq_processOutline]

/-- What a file means is told by its outline. -/
theorem processFile_eq_processOutline (file : SourceFile) (source : Bytes) :
    processFile session nested file source = (do
      let text := Source.normalize source session.config.replaceTrigraphs
      warnUnterminatedComment file source text
      processOutline session nested file (outline (Token.linesOf source text))) := by
  simp only [processFile, processToEnd_eq, processFrom_eq_processOutline]

end CPreprocessor.Session
