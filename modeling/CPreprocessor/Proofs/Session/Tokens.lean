import CPreprocessor.Proofs.Directive
import CPreprocessor.Proofs.Macro.Table
import CPreprocessor.Proofs.Macro.Tokens
import CPreprocessor.Proofs.Output
import CPreprocessor.Proofs.Session.WellFormed
import CPreprocessor.Proofs.Source.Lines
import CPreprocessor.Session.Basic
import Mathlib.Data.List.SplitBy

/-!
# Tokens of the output

Whatever a session does, the tokens in its macros and those that it gives out are of their kinds
(`Session.keeps_preprocessBytes`). Every step of a session keeps the macros so (`SessionM.Keeps`).
The lines of a file keep numbers that are not below zero, since `#line` numbers the line after it
and the tokens that follow are on that line or below (`Progress.IsNext.isPlaced`).
-/

namespace CPreprocessor

/-! ## Steps of a session -/

namespace SessionM

open Session

variable {α β : Type} {x : SessionM α} {p : α → Prop}

/-- Whether a step fails or not, all tokens in macros stay of their kinds. What it returns has the
given property. -/
def Keeps (x : SessionM α) (p : α → Prop) : Prop :=
  ∀ s : State, s.macros.IsProper →
    (x.run.run s).2.macros.IsProper ∧ ∀ a, (x.run.run s).1 = .ok a → p a

theorem Keeps.pure {a : α} (h : p a) : Keeps (Pure.pure a) p := by
  intro s hs
  refine ⟨hs, fun a' ha' => ?_⟩
  cases ha'
  exact h

theorem Keeps.bind {q : α → Prop} {k : α → SessionM β} {p : β → Prop} (hx : x.Keeps q)
    (hk : ∀ a, q a → (k a).Keeps p) : (x >>= k).Keeps p := by
  intro s hs
  obtain ⟨hmiddle, hq⟩ := hx s hs
  rw [ExceptT.run_bind, StateT.run_bind]
  cases hrun : x.run.run s with
  | mk result middle =>
    rw [hrun] at hmiddle hq
    cases result with
    | error fault => exact ⟨hmiddle, nofun⟩
    | ok a => exact hk a (hq a rfl) middle hmiddle

theorem keeps_get : (get : SessionM State).Keeps fun s => s.macros.IsProper := by
  intro s hs
  refine ⟨hs, fun a ha => ?_⟩
  cases ha
  exact hs

theorem keeps_throw (fault : Fault) : (throw fault : SessionM α).Keeps p :=
  fun _ hs => ⟨hs, nofun⟩

theorem keeps_fail (cause : Cause) (location : Location) :
    (fail cause location : SessionM α).Keeps p :=
  keeps_throw _

theorem keeps_fail_bind (cause : Cause) (location : Location) (k : β → SessionM α) :
    (fail cause location >>= k).Keeps p :=
  .bind (q := fun _ => False) (keeps_fail cause location) fun _ h => h.elim

theorem keeps_modify {f : State → State} (h : ∀ s, s.macros.IsProper → (f s).macros.IsProper) :
    (modify f : SessionM Unit).Keeps fun _ => True :=
  fun s hs => ⟨h s hs, fun _ _ => trivial⟩

theorem keeps_ofExcept {result : Except Fault α} (h : ∀ a, result = .ok a → p a) :
    (ofExcept result).Keeps p := by
  cases result with
  | error fault => exact keeps_throw fault
  | ok a => exact .pure (h a rfl)

theorem keeps_warn (location : Location) (cause : WarningCause) :
    (warn location cause).Keeps fun _ => True :=
  keeps_modify fun _ hs => hs

theorem keeps_ofDiagnosed (computation : Diagnosed α) :
    (ofDiagnosed computation).Keeps fun _ => True := by
  rw [ofDiagnosed]
  cases computation.run.run [] with
  | mk result warnings =>
    exact .bind (keeps_modify fun _ hs => hs) fun _ _ => keeps_ofExcept fun _ _ => trivial

theorem keeps_updateMacros (location : Location) {change : MacroTable → Except Cause MacroTable}
    (h : ∀ table table' : MacroTable, table.IsProper → change table = .ok table' →
      table'.IsProper) :
    (updateMacros location change).Keeps fun _ => True := by
  rw [updateMacros]
  refine keeps_get.bind fun s hs => ?_
  split
  · next table' hchange => exact keeps_modify fun _ _ => h _ _ hs hchange
  · exact keeps_fail _ _

theorem keeps_expand (file : SourceFile) {tokens : List Token}
    (h : ∀ t ∈ tokens, t.IsPlaced file.lineDelta) :
    (expand file tokens).Keeps fun output => ∀ t ∈ output, t.IsPlaced file.lineDelta := by
  rw [expand]
  refine keeps_get.bind fun s hs => keeps_ofExcept fun output houtput => ?_
  have hexpands := Prosser.expands_expand (e := file.expander s.macros) rfl tokens
  exact Prosser.isPlaced_of_expands hs hexpands h output houtput

theorem keeps_expand_of_any (file : SourceFile) (tokens : List Token) :
    (expand file tokens).Keeps fun _ => True := by
  rw [expand]
  exact keeps_get.bind fun _ _ => keeps_ofExcept fun _ _ => trivial

theorem keeps_firstFile (files : FileSystem) (paths : List Path) :
    (firstFile files paths).Keeps fun _ => True := by
  induction paths with
  | nil => exact .pure trivial
  | cons path rest ih =>
    rw [firstFile]
    refine .bind (keeps_modify fun _ hs => hs) fun _ _ => ?_
    split
    · exact .pure trivial
    · exact ih

/-- The lines of a file that is read begin with their physical numbers. -/
theorem keeps_readFile (files : FileSystem) (path : Path) :
    (readFile files path).Keeps fun r => r.1.lineDelta = 0 := by
  rw [readFile]
  refine .bind (keeps_modify fun _ hs => hs) fun _ _ => ?_
  split
  · exact keeps_throw _
  · refine keeps_get.bind fun s _ => ?_
    split
    · exact .pure rfl
    · exact .bind (keeps_modify fun _ hs => hs) fun _ _ => .pure rfl

end SessionM

/-! ## Running through a file -/

/-- All tokens of some lines of output are of their kinds. -/
def Output.IsProper (lines : List OutputLine) : Prop := ∀ line ∈ lines, ∀ t ∈ line, t.IsProper

/-- A step through a directive that ends on the given line: the gathered text stays as it is, and
the numbers of the lines after the directive are not below zero if they are changed. -/
structure Progress.IsNext (lastLine : Nat) (p q : Progress) : Prop where
  pending : q.pending = p.pending
  lineDelta : q.file.lineDelta = p.file.lineDelta ∨ 0 ≤ (lastLine : Int) + 1 + q.file.lineDelta

/-- The tokens of the lines that are gathered and of those that are still to come are of their kinds
and on lines with numbers. -/
def Progress.IsPlaced (p : Progress) (lines : List (List Token)) : Prop :=
  ∀ line ∈ p.pending ++ lines, ∀ t ∈ line, t.IsPlaced p.file.lineDelta

theorem Progress.IsPlaced.tail {p : Progress} {line : List Token} {lines : List (List Token)}
    (h : p.IsPlaced (line :: lines)) : p.IsPlaced lines := by
  intro line' hline'
  refine h line' ?_
  rcases List.mem_append.1 hline' with hpending | hlines
  · exact List.mem_append_left _ hpending
  · exact List.mem_append_right _ (List.mem_cons_of_mem line hlines)

/-- After a directive the numbers of the lines that follow are still not below zero. -/
theorem Progress.IsNext.isPlaced {p q : Progress} {line : List Token} {lines : List (List Token)}
    {hash : Token} (h : { p with pending := [] }.IsNext (line.getLast?.getD hash).position.line q)
    (hhash : hash ∈ line) (hp : p.IsPlaced (line :: lines))
    (horder : Token.InOrder (line :: lines)) : q.IsPlaced lines := by
  have hlast : line.getLast?.getD hash ∈ line := by
    rw [List.getLast?_eq_some_getLast (List.ne_nil_of_mem hhash)]
    exact List.getLast_mem _
  intro line' hline' t ht
  rw [h.pending, List.nil_append] at hline'
  have hplaced := hp.tail line' (List.mem_append_right _ hline') t ht
  refine ⟨hplaced.toIsProper, ?_⟩
  -- what follows the directive is below its last line
  have hlater := (List.pairwise_cons.1 horder).1 line' hline' _ hlast t ht
  have hnonneg := hplaced.nonneg
  rcases h.lineDelta with heq | hle
  · rw [heq]
    exact hnonneg
  · omega

namespace Session

open SessionM

section

variable {location : Location} {lastLine : Nat} {p : Progress}

theorem keeps_warnExtraTokens (file : SourceFile) (directive : String) (tail : List Token) :
    (warnExtraTokens file directive tail).Keeps fun _ => True := by
  rw [warnExtraTokens]
  split
  · exact keeps_warn _ _
  · exact .pure trivial

theorem keeps_condition (file : SourceFile) (tokens : List Token) :
    (condition file location tokens).Keeps fun _ => True := by
  rw [condition]
  exact keeps_get.bind fun _ _ => keeps_ofDiagnosed _

theorem isNext_conditionals (conditionals : List Conditional) :
    p.IsNext lastLine { p with conditionals } :=
  ⟨rfl, .inl rfl⟩

theorem keeps_atElif (expression : List Token) :
    (atElif location expression p).Keeps (p.IsNext lastLine) := by
  rw [atElif]
  cases p.conditionals with
  | nil => exact keeps_fail _ _
  | cons c outer =>
    obtain ⟨state, seenElse, opened⟩ := c
    cases seenElse with
    | true => exact keeps_fail_bind _ _ _
    | false =>
      cases state with
      | taking => exact .pure (isNext_conditionals _)
      | waiting =>
        refine .bind (keeps_condition _ _) fun holds _ => ?_
        cases holds with
        | true => exact .pure (isNext_conditionals _)
        | false => exact .pure (isNext_conditionals _)
      | taken => exact .pure (isNext_conditionals _)
      | skipped => exact .pure (isNext_conditionals _)

theorem keeps_atElse (tail : List Token) :
    (atElse location tail p).Keeps (p.IsNext lastLine) := by
  rw [atElse]
  cases p.conditionals with
  | nil => exact keeps_fail _ _
  | cons c outer =>
    obtain ⟨state, seenElse, opened⟩ := c
    cases seenElse with
    | true => exact keeps_fail_bind _ _ _
    | false =>
      simp only [Bool.false_eq_true, if_false]
      split
      · exact .bind (keeps_warnExtraTokens _ _ _) fun _ _ => .pure (isNext_conditionals _)
      · exact .pure (isNext_conditionals _)

theorem keeps_atEndIf (tail : List Token) :
    (atEndIf location tail p).Keeps (p.IsNext lastLine) := by
  rw [atEndIf]
  cases p.conditionals with
  | nil => exact keeps_fail _ _
  | cons c outer =>
    dsimp only
    split
    · exact .bind (keeps_warnExtraTokens _ _ _) fun _ _ => .pure (isNext_conditionals _)
    · exact .pure (isNext_conditionals _)

theorem keeps_defineObject (file : SourceFile) (name : Token) {replacement : List Token}
    (h : ∀ t ∈ replacement, t.IsProper) :
    (defineObject file location name replacement).Keeps fun _ => True := by
  have hdefine : (updateMacros location
      (·.define ⟨name.text, .object, replacement⟩)).Keeps fun _ => True :=
    keeps_updateMacros _ fun _ _ htable => htable.define h
  rw [defineObject]
  split
  · split
    · exact (keeps_warn _ _).bind fun _ _ => hdefine
    · exact hdefine
  · exact hdefine

theorem keeps_pragma (file : SourceFile) (text : List Token) :
    (pragma file text).Keeps fun _ => True := by
  unfold pragma
  split
  · split
    · exact keeps_modify fun _ hs => hs
    · exact .pure trivial
  · exact .pure trivial

/-- The lines after a `#line` have numbers that are not below the one that it gives. -/
theorem keeps_lineControl (operand : List Token) :
    (lineControl location lastLine operand p).Keeps (p.IsNext lastLine) := by
  rw [lineControl]
  refine (keeps_expand_of_any _ _).bind fun tokens _ => ?_
  split
  · exact keeps_fail _ _
  · next control _ =>
    refine .pure ⟨rfl, .inr ?_⟩
    show 0 ≤ (lastLine : Int) + 1 + ((control.number : Int) - ((lastLine : Int) + 1))
    omega

/-- The lines that an expansion is grouped into have its tokens. -/
theorem flatten_group (starts : List Nat) (tokens : List Token) :
    (Output.group starts tokens).flatten = tokens :=
  List.flatten_splitBy _ _

theorem keeps_flush {lines : List (List Token)} (h : p.IsPlaced lines) :
    (flush p).Keeps fun r => Output.IsProper r.1 ∧ r.2 = { p with pending := [] } := by
  have hpending : ∀ t ∈ p.pending.reverse.flatten, t.IsPlaced p.file.lineDelta := by
    intro t ht
    obtain ⟨line, hline, ht⟩ := List.mem_flatten.1 ht
    exact h line (List.mem_append_left lines (List.mem_reverse.1 hline)) t ht
  rw [flush]
  refine (keeps_expand p.file hpending).bind fun tokens htokens => .pure ⟨?_, rfl⟩
  intro line hline t ht
  refine (htokens t ?_).toIsProper
  rw [← flatten_group _ tokens]
  exact List.mem_flatten_of_mem hline ht

end

/-! ## Directives -/

section

variable {session : Session} {nested : Option Inclusion}
  (hnested : ∀ run, nested = some run → ∀ file source, file.lineDelta = 0 →
    (run file source).Keeps Output.IsProper)
include hnested

theorem keeps_includeFile (file : SourceFile) (location : Location) (operand : List Token) :
    (includeFile session nested file location operand).Keeps Output.IsProper := by
  have hoperand : (includeOperand file operand).Keeps fun _ => True := by
    rw [includeOperand]
    split
    · exact .pure trivial
    · exact keeps_expand_of_any _ _
  rw [includeFile]
  refine hoperand.bind fun tokens _ => ?_
  split
  · exact keeps_fail _ _
  · exact keeps_fail _ _
  · next header run _ =>
    refine (keeps_firstFile _ _).bind fun path _ => ?_
    split
    · exact keeps_fail _ _
    · refine (keeps_readFile _ _).bind fun r hr => ?_
      obtain ⟨included, contents⟩ := r
      refine keeps_get.bind fun s _ => ?_
      split
      · exact .pure (List.forall_mem_nil _)
      · exact hnested run rfl _ contents hr

/-- The macro that a directive defines has to be made of proper tokens. -/
theorem keeps_obey {directive : Directive} (h : ∀ t ∈ directive.replacement, t.IsProper)
    (location : Location) (lastLine : Nat) (p : Progress) :
    (obey session nested directive location lastLine p).Keeps fun r =>
      Output.IsProper r.1 ∧ p.IsNext lastLine r.2 := by
  have hsilent {x : SessionM Progress} (hx : x.Keeps (p.IsNext lastLine)) :
      (do return (([], ← x) : List OutputLine × Progress) : SessionM _).Keeps fun r =>
        Output.IsProper r.1 ∧ p.IsNext lastLine r.2 :=
    hx.bind fun q hq => .pure ⟨List.forall_mem_nil _, hq⟩
  have hnext {conditionals : List Conditional} :
      Output.IsProper [] ∧ p.IsNext lastLine { p with conditionals } :=
    ⟨List.forall_mem_nil _, isNext_conditionals _⟩
  cases directive with
  | ifExpression expression => exact (keeps_condition _ _).bind fun _ _ => .pure hnext
  | ifDefined name tail =>
    exact (keeps_warnExtraTokens _ _ _).bind fun _ _ => keeps_get.bind fun _ _ => .pure hnext
  | ifNotDefined name tail =>
    exact (keeps_warnExtraTokens _ _ _).bind fun _ _ => keeps_get.bind fun _ _ => .pure hnext
  | elifExpression expression => exact hsilent (keeps_atElif _)
  | elseGroup tail => exact hsilent (keeps_atElse _)
  | endIf tail => exact hsilent (keeps_atEndIf _)
  | inclusion operand =>
    exact (keeps_includeFile hnested _ _ _).bind fun output houtput =>
      .pure ⟨houtput, isNext_conditionals _⟩
  | defineObject name replacement =>
    exact (keeps_defineObject _ _ h).bind fun _ _ => .pure hnext
  | defineFunction name parameters variadic replacement =>
    exact (keeps_updateMacros _ fun _ _ htable => htable.define h).bind fun _ _ => .pure hnext
  | undefine name tail =>
    exact (keeps_warnExtraTokens _ _ _).bind fun _ _ =>
      (keeps_updateMacros _ fun _ _ htable => htable.undefine).bind fun _ _ => .pure hnext
  | line operand => exact hsilent (keeps_lineControl _)
  | error text => exact keeps_fail _ _
  | pragma text => exact (keeps_pragma _ _).bind fun _ _ => .pure hnext
  | null => exact .pure hnext
  | nonDirective text => exact keeps_fail _ _

theorem keeps_processDirective {line : List Token} (h : ∀ t ∈ line, t.IsProper) (hash : Token)
    (p : Progress) :
    (processDirective session nested hash line p).Keeps fun r =>
      Output.IsProper r.1 ∧ p.IsNext (line.getLast?.getD hash).position.line r.2 := by
  have hnext {conditionals : List Conditional} : Output.IsProper [] ∧
      p.IsNext (line.getLast?.getD hash).position.line { p with conditionals } :=
    ⟨List.forall_mem_nil _, isNext_conditionals _⟩
  rw [processDirective]
  split
  · split
    · exact keeps_fail _ _
    · next directive hread =>
      exact keeps_obey hnested (fun t ht => h t (Directive.replacement_subset hread ht)) _ _ p
  · split
    · exact .pure hnext
    · exact .pure hnext

/-! ## Lines -/

theorem keeps_processLine {line : List Token} {lines : List (List Token)} {p : Progress}
    (h : p.IsPlaced (line :: lines)) (horder : Token.InOrder (line :: lines)) :
    (processLine session nested line p).Keeps fun r =>
      Output.IsProper r.1 ∧ r.2.IsPlaced lines := by
  cases line with
  | nil => exact .pure ⟨List.forall_mem_nil _, h.tail⟩
  | cons first rest =>
    have hline : ∀ t ∈ first :: rest, t.IsPlaced p.file.lineDelta := h _ (by simp)
    rw [processLine]
    simp only [List.head?_cons]
    split
    · refine (keeps_flush h).bind fun r hr => ?_
      obtain ⟨text, q⟩ := r
      obtain ⟨htext, rfl⟩ := hr
      refine (keeps_processDirective hnested (fun t ht => (hline t ht).toIsProper) _ _).bind
        fun r hr => .pure ⟨List.forall_mem_append.2 ⟨htext, hr.1⟩, ?_⟩
      exact hr.2.isPlaced List.mem_cons_self h horder
    · split
      · refine .pure ⟨List.forall_mem_nil _, fun line hline => h line ?_⟩
        simpa [or_comm, or_assoc, or_left_comm] using hline
      · exact .pure ⟨List.forall_mem_nil _, h.tail⟩

theorem keeps_processLines {lines : List (List Token)} {p : Progress} (h : p.IsPlaced lines)
    (horder : Token.InOrder lines) :
    (processLines session nested lines p).Keeps fun r =>
      Output.IsProper r.1 ∧ r.2.IsPlaced [] := by
  induction lines generalizing p with
  | nil => exact .pure ⟨List.forall_mem_nil _, h⟩
  | cons line lines ih =>
    rw [processLines]
    refine (keeps_processLine hnested h horder).bind fun r hr => ?_
    refine (ih hr.2 (List.pairwise_cons.1 horder).2).bind fun r' hr' => ?_
    exact .pure ⟨List.forall_mem_append.2 ⟨hr.1, hr'.1⟩, hr'.2⟩

theorem keeps_processToEnd {lines : List (List Token)} {p : Progress} (h : p.IsPlaced lines)
    (horder : Token.InOrder lines) :
    (processToEnd session nested lines p).Keeps Output.IsProper := by
  rw [processToEnd]
  refine (keeps_processLines hnested h horder).bind fun r hr => ?_
  refine (keeps_flush hr.2).bind fun r' hr' => ?_
  dsimp only
  split
  · exact .pure (List.forall_mem_append.2 ⟨hr.1, hr'.1⟩)
  · exact keeps_fail _ _

theorem keeps_processFile {file : SourceFile} (hfile : file.lineDelta = 0) (source : Bytes) :
    (processFile session nested file source).Keeps Output.IsProper := by
  rw [processFile]
  have hwarn (text : Source.Text) :
      (warnUnterminatedComment file source text).Keeps fun _ => True := by
    rw [warnUnterminatedComment]
    split
    · exact keeps_warn _ _
    · exact .pure trivial
  refine (hwarn _).bind fun _ _ => keeps_processToEnd hnested (fun line hline t ht => ?_)
    (Token.inOrder_linesOf (Source.isFrom_normalize _ _))
  refine ⟨Token.isProper_of_mem_linesOf hline ht, ?_⟩
  show 0 ≤ (t.position.line : Int) + file.lineDelta
  omega

end

/-! ## Sources -/

theorem keeps_runSource (session : Session) (depth : Nat) {file : SourceFile}
    (hfile : file.lineDelta = 0) (source : Bytes) :
    (session.runSource depth file source).Keeps Output.IsProper := by
  induction depth generalizing file source with
  | zero =>
    rw [runSource]
    exact keeps_processFile (fun _ hrun => absurd hrun (by simp)) hfile source
  | succ depth ih =>
    rw [runSource]
    refine keeps_processFile (fun run hrun file source hfile => ?_) hfile source
    rw [← Option.some.inj hrun]
    exact ih hfile source

/-- **All tokens that come out of a source are of their kinds.** -/
theorem keeps_preprocessBytes (session : Session) (name : String) (source : Bytes) :
    (session.preprocessBytes name source).Keeps Output.IsProper :=
  keeps_runSource session _ rfl source

theorem keeps_preprocessFile (session : Session) (path : Path) :
    (session.preprocessFile path).Keeps Output.IsProper := by
  rw [preprocessFile]
  refine (keeps_readFile _ _).bind fun r hr => ?_
  obtain ⟨file, source⟩ := r
  have hfile : { file with directory := path.parent }.lineDelta = 0 := hr
  exact keeps_runSource session _ hfile source

theorem keeps_start (session : Session) : session.start.Keeps fun _ => True :=
  .bind (keeps_preprocessBytes _ _ _) fun _ _ => .pure trivial

theorem isProper_of_preprocess {files : FileSystem} {source : Bytes} {output : List OutputLine}
    (h : preprocess files source = .ok output) : Output.IsProper output := by
  have hkeeps := (keeps_start { files }).bind fun _ _ =>
    keeps_preprocessBytes { files } inputName source
  exact (hkeeps {} MacroTable.isProper_predefined).2 output h

end Session

end CPreprocessor
