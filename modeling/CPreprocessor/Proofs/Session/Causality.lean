import CPreprocessor.Proofs.Session.Lines
import CPreprocessor.Proofs.Session.Reading
import CPreprocessor.Proofs.Token.Append

/-!
# Causality

What comes out of a source does not depend on what is behind a directive. A source `A` in front of
a source `B` that begins with a directive gives out what it gives out alone, and fails as it fails
alone (`preprocessBytes_append`). Its lines are the same (`Token.linesOf_append`), and the text that
is left at its end is expanded before the directive is obeyed, as it is at the end of a source
(`exists_processToEnd_eq`).

`B` may have a comment that is not closed. The warning of it comes before anything else, but no step
reads warnings (`isStable_agreesButWarnings`).
-/

namespace CPreprocessor

open Ascii

namespace SessionM

variable {α β : Type}

/-- What a step returns, or fails with. -/
def outcome (x : SessionM α) (s : Session.State) : Except Fault α := (x.run.run s).1

theorem outcome_bind (x : SessionM α) (k : α → SessionM β) (s : Session.State) :
    (x >>= k).outcome s = match x.run.run s with
      | (.ok a, s') => (k a).outcome s'
      | (.error fault, _) => .error fault := by
  rw [outcome, ExceptT.run_bind, StateT.run_bind]
  cases x.run.run s with
  | mk result s' => cases result <;> rfl

theorem outcome_map (x : SessionM α) (f : α → β) (s : Session.State) :
    (do return f (← x) : SessionM β).outcome s = (x.outcome s).map f := by
  rw [outcome_bind, outcome]
  cases x.run.run s with
  | mk result s' => cases result <;> rfl

end SessionM

namespace Session

open SessionM

/-- What comes out of the first part of a source stands at the beginning of what comes out of the
whole. If the first part fails, other than for a conditional that is still open, so does the whole. -/
def Precedes (first whole : Except Fault (List OutputLine)) : Prop :=
  match first with
  | .ok output => ∀ output', whole = .ok output' → output <+: output'
  | .error fault =>
    (∀ location, fault ≠ .located location .unterminatedConditional) → whole = .error fault

/-- What came out before stands in front of both. -/
theorem Precedes.append_left {first whole : Except Fault (List OutputLine)}
    (h : Precedes first whole) (output : List OutputLine) :
    Precedes (first.map (output ++ ·)) (whole.map (output ++ ·)) := by
  cases first with
  | ok more =>
    intro output' houtput'
    cases whole with
    | ok more' =>
      cases houtput'
      exact (List.prefix_append_right_inj output).2 (h more' rfl)
    | error fault => cases houtput'
  | error fault =>
    intro hne
    rw [h hne]
    rfl

/-! ## Lines in two parts -/

/-- The first line that has tokens, if there is one, is a directive. -/
def BeginsWithDirective (lines : List (List Token)) : Prop :=
  ∀ line ∈ lines.find? (· ≠ []), line.head?.any Token.isHash = true

section

variable {session : Session} {nested : Option Inclusion}

/-- Lines are processed one after the other. -/
theorem processToEnd_append (lines later : List (List Token)) (p : Progress) :
    processToEnd session nested (lines ++ later) p = (do
      let (output, p) ← processLines session nested lines p
      let more ← processToEnd session nested later p
      return output ++ more) := by
  induction lines generalizing p with
  | nil => simp only [List.nil_append, processLines, pure_bind, bind_pure]
  | cons line lines ih =>
    simp only [List.cons_append, processToEnd_cons, processLines, ih, bind_assoc, pure_bind,
      List.append_assoc]

/-- The text that is left is expanded before the first directive, as at the end of a source. -/
theorem exists_processToEnd_eq {lines : List (List Token)} (h : BeginsWithDirective lines)
    (p : Progress) :
    ∃ next : SessionM (List OutputLine), processToEnd session nested lines p = (do
      let text ← processText p.file p.pending.reverse
      let more ← next
      return text ++ more) := by
  induction lines with
  | nil =>
    rw [processToEnd_nil]
    cases p.conditionals with
    | nil => exact ⟨pure [], by simp only [pure_bind, List.append_nil]⟩
    | cons c outer => exact ⟨fail .unterminatedConditional c.location, rfl⟩
  | cons line lines ih =>
    cases line with
    | nil =>
      rw [processToEnd_blank]
      exact ih h
    | cons first tokens =>
      have hfirst : first.isHash = true := h (first :: tokens) rfl
      refine ⟨do
        let (output, p) ← processDirective session nested first (first :: tokens)
          { p with pending := [] }
        let more ← processToEnd session nested lines p
        return output ++ more, ?_⟩
      rw [processToEnd_hash hfirst]
      simp only [bind_assoc, pure_bind]

/-- What is processed before a directive gives the beginning of the output, or the error. -/
theorem precedes_processToEnd {later : List (List Token)} (h : BeginsWithDirective later)
    (lines : List (List Token)) (p : Progress) (s : State) :
    Precedes ((processToEnd session nested (lines ++ [[]]) p).outcome s)
      ((processToEnd session nested (lines ++ later) p).outcome s) := by
  rw [processToEnd_append, processToEnd_append, outcome_bind, outcome_bind]
  rcases processLines session nested lines p |>.run.run s with ⟨fault | ⟨output, q⟩, s'⟩
  · exact fun _ => rfl
  · obtain ⟨next, hnext⟩ := @exists_processToEnd_eq session nested _ h q
    dsimp only
    rw [outcome_map, outcome_map]
    refine Precedes.append_left ?_ output
    -- both expand the text that is left, in the same state
    rw [hnext, processToEnd_blank, processToEnd_nil, outcome_bind, outcome_bind]
    rcases processText q.file q.pending.reverse |>.run.run s' with ⟨fault | text, s''⟩
    · exact fun _ => rfl
    · cases q.conditionals with
      | nil =>
        intro output' houtput'
        dsimp only at houtput'
        rw [outcome_map] at houtput'
        cases hmore : next.outcome s'' with
        | error fault =>
          rw [hmore] at houtput'
          cases houtput'
        | ok more =>
          rw [hmore] at houtput'
          cases houtput'
          exact List.prefix_append text more
      | cons c outer => exact fun hne => absurd rfl (hne c.location)

end

/-! ## Warnings -/

/-- The states are equal but for the warnings. -/
def AgreesButWarnings (s t : State) : Prop := ∃ warnings, t = { s with warnings }

theorem isStable_agreesButWarnings : IsStable AgreesButWarnings where
  macros_eq := by rintro s _ ⟨ws, rfl⟩; rfl
  names_eq := by rintro s _ ⟨ws, rfl⟩; rfl
  once_eq := by rintro s _ ⟨ws, rfl⟩; rfl
  warnings := by rintro s _ ⟨ws, rfl⟩ more; exact ⟨ws ++ more, rfl⟩
  names := by rintro s _ ⟨ws, rfl⟩ entry; exact ⟨ws, rfl⟩
  once := by rintro s _ ⟨ws, rfl⟩ paths; exact ⟨ws, rfl⟩
  consulted := by rintro s _ ⟨ws, rfl⟩ path; exact ⟨ws, rfl⟩
  define := by rintro s _ ⟨ws, rfl⟩ m macros -; exact ⟨ws, rfl⟩
  undefine := by rintro s _ ⟨ws, rfl⟩ name macros -; exact ⟨ws, rfl⟩

section

variable {session : Session} {nested : Option Inclusion}
  (hnested : ∀ run, nested = some run → ∀ file source, (run file source).Respects AgreesButWarnings)
include hnested

/-- A file is processed as its lines are; the warning about it changes nothing. -/
theorem outcome_processFile (file : SourceFile) (source : Bytes) (s : State) :
    (processFile session nested file source).outcome s =
      (processToEnd session nested (Token.linesOf source
        (Source.normalize source session.config.replaceTrigraphs)) { file }).outcome s := by
  have hwarn (text : Source.Text) :
      ∃ t, (warnUnterminatedComment file source text).run.run s = (.ok (), t) ∧
        AgreesButWarnings s t := by
    rw [warnUnterminatedComment]
    cases Lexeme.unterminatedComment text with
    | none => exact ⟨s, rfl, s.warnings, rfl⟩
    | some origin => exact ⟨_, rfl, _, rfl⟩
  obtain ⟨t, hrun, hst⟩ := hwarn (Source.normalize source session.config.replaceTrigraphs)
  rw [processFile, outcome_bind, hrun]
  exact (respects_processToEnd isStable_agreesButWarnings hnested _ _ s t hst).1.symm

end

/-! ## Sources in two parts -/

theorem isHash_eq_of_word_eq {t u : Token} (h : t.word = u.word) : t.isHash = u.isHash := by
  obtain ⟨hkind, htext⟩ := Prod.mk.inj h
  rw [Token.isHash, Token.isHash, Token.isPunctuator, Token.isPunctuator, Token.canonical,
    Token.canonical, hkind, htext]

/-- Whether lines begin with a directive does not depend on the places of their tokens. -/
theorem BeginsWithDirective.of_words {lines lines' : List (List Token)}
    (h : BeginsWithDirective lines)
    (hwords : lines'.map (List.map Token.word) = lines.map (List.map Token.word)) :
    BeginsWithDirective lines' := by
  induction lines generalizing lines' with
  | nil =>
    obtain rfl := List.map_eq_nil_iff.1 hwords
    exact h
  | cons line lines ih =>
    obtain ⟨line', rest, rfl, hline, hrest⟩ := List.map_eq_cons_iff.1 hwords
    cases line with
    | nil =>
      obtain rfl := List.map_eq_nil_iff.1 hline
      have hlater : BeginsWithDirective rest := ih h hrest
      exact hlater
    | cons first tokens =>
      obtain ⟨first', tokens', rfl, hfirst, -⟩ := List.map_eq_cons_iff.1 hline
      intro line hline
      obtain rfl := Option.some.inj hline
      rw [List.head?_cons, Option.any_some, isHash_eq_of_word_eq hfirst]
      exact h (first :: tokens) rfl

/-- **Preprocessing is causal at directives.** A source that ends in a new-line, which is not
spliced away, and that leaves no comment open, gives out the same in front of a source that begins
with a directive, and fails with the same error. -/
theorem preprocessBytes_append (session : Session) (name : String) (s : State)
    {source source' : Bytes} (hend : [newline] <:+ source)
    (hsplice : ∀ splice ∈ Source.splices session.config.replaceTrigraphs, ¬ splice <:+ source)
    (hcomment : Lexeme.unterminatedComment
      (Source.normalize source session.config.replaceTrigraphs) = none)
    (hdirective : BeginsWithDirective (Token.linesOf source'
      (Source.normalize source' session.config.replaceTrigraphs))) :
    Precedes ((session.preprocessBytes name source).outcome s)
      ((session.preprocessBytes name (source ++ source')).outcome s) := by
  obtain ⟨source, rfl⟩ := hend
  obtain ⟨lines, later, hlines, hwhole, hlater⟩ :=
    @Token.linesOf_append _ source' _ hsplice (.inl hcomment)
  have hnested := respects_inclusion isStable_agreesButWarnings session session.config.maximumDepth
  rw [List.append_assoc, List.singleton_append, preprocessBytes, preprocessBytes, runSource_eq,
    runSource_eq, outcome_processFile hnested, outcome_processFile hnested, hlines, hwhole]
  exact precedes_processToEnd (hdirective.of_words (Token.map_word_of_shape hlater)) lines _ s

/-! ## A definition behind the text -/

/-- A line with a name that is not defined yet. -/
def useOfX : Bytes := Bytes.ofString "x\n"

/-- A definition of the name, and another use of it. -/
def definitionOfX : Bytes := Bytes.ofString "#define x y\nx\n"

def tokenX : Token := tokenAt .identifier "x" false 1 1

theorem outcome_useOfX (files : FileSystem) :
    (preprocessBytes { files } inputName useOfX).outcome {} = .ok [[tokenX]] := by
  have hexpand : (SourceFile.expander { name := inputName } .predefined).expand [tokenX] =
      .ok [tokenX] :=
    Prosser.expand_eq_of_expands rfl
      (.other_ok (fun m h => nomatch (show none = some m from h.lookup)) .nil)
  have hlines : Token.linesOf useOfX (Source.normalize useOfX true) = [[tokenX], []] := by
    decide +kernel
  have hcomment : Lexeme.unterminatedComment (Source.normalize useOfX true) = none := by
    decide +kernel
  have hrun (nested : Option Inclusion) :
      (processLines { files } nested [[tokenX], []] { file := { name := inputName } }).Returns {}
        ([], { file := { name := inputName }, pending := [[tokenX]] }) {} := rfl
  exact congrArg Prod.fst (returns_preprocessBytes { files } hlines hcomment hrun hexpand rfl)

/-- The definition comes too late for the first line. -/
theorem preprocessBytes_append_definitionOfX :
    (preprocessBytes { files := noFiles } inputName useOfX).outcome {} = .ok [[tokenX]] ∧
      ∀ output,
        (preprocessBytes { files := noFiles } inputName (useOfX ++ definitionOfX)).outcome {} =
          .ok output → [[tokenX]] <+: output := by
  have hdirective : BeginsWithDirective
      (Token.linesOf definitionOfX (Source.normalize definitionOfX true)) := by
    intro line hline
    have hfind : (Token.linesOf definitionOfX (Source.normalize definitionOfX true)).find?
        (· ≠ []) = some [tokenAt .punctuator "#" false 1 1, tokenAt .identifier "define" false 1 2,
          tokenAt .identifier "x" true 1 9, tokenAt .identifier "y" true 1 11] := by decide +kernel
    obtain rfl := Option.some.inj (hfind.symm.trans hline)
    decide
  have hprecedes : Precedes ((preprocessBytes { files := noFiles } inputName useOfX).outcome {})
      ((preprocessBytes { files := noFiles } inputName (useOfX ++ definitionOfX)).outcome {}) :=
    preprocessBytes_append _ _ _ ⟨Bytes.ofString "x", by decide⟩
      (Source.not_splice_suffix (by decide) []) (by decide +kernel) hdirective
  rw [outcome_useOfX] at hprecedes
  exact ⟨outcome_useOfX noFiles, hprecedes⟩

end Session

end CPreprocessor
