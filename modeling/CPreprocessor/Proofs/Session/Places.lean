import CPreprocessor.Proofs.Session.Causality

/-!
# Places in a run

The lines of a source are processed in order, so a run comes to every line with a progress and a
state that the lines before it determine (`Session.ComesTo`). A line that it comes to in a group that
is processed is a `Session.Place`.

From one place to a later one the presumed name and the line numbers of the file change only if a
`#line` is processed in between, whatever files are included (`Session.Place.file_eq`). The text at a
place is expanded together with the lines of text around it (`Session.Place.exists_expand_eq`).
-/

namespace CPreprocessor

open Source (normalize)

namespace SessionM

variable {α : Type} {x : SessionM α} {s s' s'' : Session.State} {a b : α}

theorem Returns.unique (h : x.Returns s a s') (h' : x.Returns s b s'') : a = b ∧ s' = s'' := by
  obtain ⟨hresult, hstate⟩ := Prod.mk.inj (h.symm.trans h')
  exact ⟨Except.ok.inj hresult, hstate⟩

theorem Returns.eq_ok_of_expand {file : SourceFile} {tokens output : List Token}
    (h : (expand file tokens).Returns s output s') :
    (file.expander s.macros).expand tokens = .ok output ∧ s' = s := by
  obtain ⟨_, _, hget, h⟩ := h.exists_of_bind
  cases hget
  have hok := h.eq_ok
  rw [hok] at h
  cases h
  exact ⟨hok, rfl⟩

end SessionM

namespace Session

open SessionM

variable {session : Session} {nested : Option Inclusion} {s s' s'' : State} {p q : Progress}

/-! ## Lines that change nothing about the file -/

/-- A line is a `#line` with the given operand. -/
structure IsLineControl (line operand : List Token) : Prop where
  isHash : line.head?.any Token.isHash = true
  ofTokens_eq : Directive.ofTokens line = some (.line operand)

theorem file_of_atBoundary {boundary : Boundary} {location : Location} {operand : List Token}
    (h : (atBoundary boundary location operand p).Returns s q s') : q.file = p.file := by
  have hfile := @atBoundary_bind_congr _ (fun q => pure q.file) (fun _ => pure p.file) p
    (fun _ => rfl) boundary location operand
  have hreturns : (do return (← atBoundary boundary location operand p).file).Returns s
      q.file s' := h.bind rfl
  rw [hfile] at hreturns
  obtain ⟨_, _, _, hreturn⟩ := hreturns.exists_of_bind
  exact (hreturn.unique rfl).1

/-- No directive but `#line` changes anything about the file. -/
theorem file_of_obey {directive : Directive} (hline : ∀ operand, directive ≠ .line operand)
    {location : Location} {lastLine : Nat} {output : List OutputLine}
    (h : (obey session nested directive location lastLine p).Returns s (output, q) s') :
    q.file = p.file := by
  cases directive with
  | ifExpression | inclusion | defineObject | defineFunction | pragma =>
    obtain ⟨_, _, _, h⟩ := h.exists_of_bind
    cases h
    rfl
  | ifDefined | ifNotDefined | undefine =>
    obtain ⟨_, _, _, h⟩ := h.exists_of_bind
    obtain ⟨_, _, _, h⟩ := h.exists_of_bind
    cases h
    rfl
  | elifExpression =>
    obtain ⟨_, _, hboundary, h⟩ := h.exists_of_bind
    cases h
    exact @file_of_atBoundary _ _ _ _ .elifGroup _ _ hboundary
  | elseGroup =>
    obtain ⟨_, _, hboundary, h⟩ := h.exists_of_bind
    cases h
    exact @file_of_atBoundary _ _ _ _ .elseGroup _ _ hboundary
  | endIf =>
    obtain ⟨_, _, hboundary, h⟩ := h.exists_of_bind
    cases h
    exact @file_of_atBoundary _ _ _ _ .endIf _ _ hboundary
  | line operand => exact absurd rfl (hline operand)
  | error | nonDirective => exact absurd h not_returns_fail
  | null =>
    cases h
    rfl

theorem file_of_processDirective {hash : Token} {line : List Token} {output : List OutputLine}
    (hline : p.live = true → ∀ operand, Directive.ofTokens line ≠ some (.line operand))
    (h : (processDirective session nested hash line p).Returns s (output, q) s') :
    q.file = p.file := by
  rw [processDirective] at h
  split at h
  · next hprocessed =>
    cases hread : Directive.ofTokens line with
    | none =>
      rw [hread] at h
      exact absurd h not_returns_fail
    | some directive =>
      rw [hread] at h hprocessed
      refine file_of_obey (fun operand heq => ?_) h
      rcases hprocessed with hlive | hcontinues
      · exact hline hlive operand (heq ▸ hread)
      · rw [heq] at hcontinues
        cases hcontinues
  · split at h
    · cases h
      rfl
    · cases h
      rfl

/-- A line changes something about the file only if it is a `#line` that is processed. -/
theorem file_of_processLine {line : List Token} {output : List OutputLine}
    (hline : p.live = true → ∀ operand, ¬ IsLineControl line operand)
    (h : (processLine session nested line p).Returns s (output, q) s') : q.file = p.file := by
  rw [processLine] at h
  cases hhead : line.head? with
  | none =>
    rw [hhead] at h
    cases h
    rfl
  | some first =>
    rw [hhead] at h
    dsimp only at h
    split at h
    · next hhash =>
      rw [flush_eq] at h
      obtain ⟨_, _, hflush, h⟩ := h.exists_of_bind
      obtain ⟨_, _, _, hflush⟩ := hflush.exists_of_bind
      cases hflush
      obtain ⟨_, _, hdirective, h⟩ := h.exists_of_bind
      cases h
      refine @file_of_processDirective _ _ _ _ { p with pending := [] } _ _ _ _ ?_ hdirective
      exact fun hlive operand hread => hline hlive operand ⟨by rw [hhead]; exact hhash, hread⟩
    · split at h
      · cases h
        rfl
      · cases h
        rfl

/-! ## Runs over some lines -/

theorem processLines_append (lines later : List (List Token)) (p : Progress) :
    processLines session nested (lines ++ later) p = (do
      let (output, p) ← processLines session nested lines p
      let (more, p) ← processLines session nested later p
      return (output ++ more, p)) := by
  induction lines generalizing p with
  | nil =>
    simp only [List.nil_append, processLines, pure_bind]
    exact (bind_pure _).symm
  | cons line lines ih =>
    simp only [List.cons_append, processLines, ih, bind_assoc, pure_bind, List.append_assoc]

theorem processLines_singleton (line : List Token) (p : Progress) :
    processLines session nested [line] p = processLine session nested line p := by
  simp only [processLines, pure_bind, List.append_nil]
  exact bind_pure _

/-- The lines before the first directive. -/
def textLines (lines : List (List Token)) : List (List Token) :=
  lines.takeWhile fun line => !line.head?.any Token.isHash

/-- A line without tokens is no text. -/
theorem processText_append_nil_cons (file : SourceFile) (lines later : List (List Token)) :
    processText file (lines ++ [] :: later) = processText file (lines ++ later) := by
  simp only [processText, List.filterMap_append, List.filterMap_cons, List.head?_nil,
    Option.map_none, List.flatten_append, List.flatten_cons, List.nil_append]

/-- The text before the next directive, or before the end, is expanded with what is gathered. -/
theorem exists_text_of_processToEnd {lines : List (List Token)} {output : List OutputLine}
    (hlive : p.live = true) (h : (processToEnd session nested lines p).Returns s output s') :
    ∃ text rest middle, output = text ++ rest ∧
      (processText p.file (p.pending.reverse ++ textLines lines)).Returns s text middle := by
  induction lines generalizing p with
  | nil =>
    rw [processToEnd_nil] at h
    obtain ⟨text, middle, htext, h⟩ := h.exists_of_bind
    cases hconditionals : p.conditionals with
    | nil =>
      rw [hconditionals] at h
      cases h
      exact ⟨_, [], _, (List.append_nil _).symm, by rwa [textLines, List.takeWhile_nil,
        List.append_nil]⟩
    | cons c outer =>
      rw [hconditionals] at h
      exact absurd h not_returns_fail
  | cons line lines ih =>
    cases line with
    | nil =>
      rw [processToEnd_blank] at h
      obtain ⟨text, rest, middle, hsplit, htext⟩ := ih hlive h
      refine ⟨text, rest, middle, hsplit, ?_⟩
      rw [textLines, List.takeWhile_cons_of_pos rfl, processText_append_nil_cons]
      exact htext
    | cons first tokens =>
      cases hhash : first.isHash with
      | true =>
        rw [processToEnd_hash hhash] at h
        obtain ⟨text, middle, htext, h⟩ := h.exists_of_bind
        obtain ⟨_, _, _, h⟩ := h.exists_of_bind
        obtain ⟨_, _, _, h⟩ := h.exists_of_bind
        cases h
        refine ⟨text, _, middle, rfl, ?_⟩
        rwa [textLines, List.takeWhile_cons_of_neg (by simp [hhash]), List.append_nil]
      | false =>
        rw [processToEnd_text hhash tokens lines hlive] at h
        obtain ⟨text, rest, middle, hsplit, htext⟩ :=
          @ih { p with pending := (first :: tokens) :: p.pending } hlive h
        refine ⟨text, rest, middle, hsplit, ?_⟩
        rw [textLines, List.takeWhile_cons_of_pos (by simp [hhash])]
        rwa [List.reverse_cons, List.append_assoc] at htext

/-! ## Places -/

/-- A run of a source comes to the given progress and state after some lines at its beginning. -/
def ComesTo (session : Session) (depth : Nat) (file : SourceFile) (source : Bytes) (s : State)
    (lines : List (List Token)) (p : Progress) (s' : State) : Prop :=
  ∃ output, (do
    warnUnterminatedComment file source (normalize source session.config.replaceTrigraphs)
    processLines session (session.inclusion depth) lines { file } : SessionM _).Returns s
      (output, p) s'

/-- A line of a source that a run comes to in a group that is processed. -/
structure Place (session : Session) (depth : Nat) (file : SourceFile) (source : Bytes)
    (s : State) where
  before : List (List Token)
  line : List Token
  after : List (List Token)
  lines_eq : Token.linesOf source (normalize source session.config.replaceTrigraphs) =
    before ++ line :: after
  progress : Progress
  state : State
  comesTo : ComesTo session depth file source s before progress state
  live : progress.live = true

variable {depth : Nat} {file : SourceFile} {source : Bytes}

namespace ComesTo

variable {lines more : List (List Token)}

theorem unique (h : ComesTo session depth file source s lines p s')
    (h' : ComesTo session depth file source s lines q s'') : p = q ∧ s' = s'' := by
  obtain ⟨_, h⟩ := h
  obtain ⟨_, h'⟩ := h'
  obtain ⟨heq, hstate⟩ := h.unique h'
  exact ⟨(Prod.mk.inj heq).2, hstate⟩

/-- A run that comes to some lines comes to those after them on the same way. -/
theorem exists_of_append (h : ComesTo session depth file source s (lines ++ more) q s'') :
    ∃ p s' output, ComesTo session depth file source s lines p s' ∧
      (processLines session (session.inclusion depth) more p).Returns s' (output, q) s'' := by
  obtain ⟨_, h⟩ := h
  rw [processLines_append] at h
  obtain ⟨_, _, hwarn, h⟩ := h.exists_of_bind
  obtain ⟨_, _, hlines, h⟩ := h.exists_of_bind
  obtain ⟨_, _, hmore, h⟩ := h.exists_of_bind
  cases h
  exact ⟨_, _, _, ⟨_, hwarn.bind hlines⟩, hmore⟩

theorem isReachable (h : ComesTo session depth file source s lines p s')
    (hmacros : s.macros.IsReachable) : s'.macros.IsReachable := by
  obtain ⟨output, h⟩ := h
  have hlines := @respects_processLines _ isStable_sharesReachable session _
    (respects_inclusion isStable_sharesReachable session depth) lines { file }
  have hrespects := (respects_warnUnterminatedComment isStable_sharesReachable file source
    (normalize source session.config.replaceTrigraphs)).bind fun _ => hlines
  have hshares := (hrespects s s ⟨rfl, hmacros⟩).2
  unfold Returns at h
  rw [h] at hshares
  exact hshares.2

end ComesTo

namespace Place

/-- The number of lines before a place. -/
def index (a : Place session depth file source s) : ℕ := a.before.length

/-- The lines of text that the one at a place is expanded together with, and itself. -/
def text (a : Place session depth file source s) : List (List Token) :=
  a.progress.pending.reverse ++ a.line :: textLines a.after

/-- What the macros in the text at a place are expanded by. -/
def expander (a : Place session depth file source s) : Expander :=
  a.progress.file.expander a.state.macros

theorem prefix_before (a : Place session depth file source s) {lines later : List (List Token)}
    (hlines : Token.linesOf source (normalize source session.config.replaceTrigraphs) =
      lines ++ later) (hle : lines.length ≤ a.index) : lines <+: a.before := by
  refine List.prefix_of_prefix_length_le (List.prefix_append lines later) ?_ hle
  rw [← hlines, a.lines_eq]
  exact List.prefix_append _ _

/-- On the way from one place to a later one, the line at the first is processed. -/
theorem exists_returns_of_lt {a b : Place session depth file source s} (h : a.index < b.index) :
    ∃ q s' output more,
      (processLine session (session.inclusion depth) a.line a.progress).Returns a.state
        (output, q) s' ∧
      ComesTo session depth file source s (a.before ++ [a.line]) q s' ∧
      b.before = (a.before ++ [a.line]) ++ more := by
  have hlines := a.lines_eq
  rw [List.append_cons] at hlines
  obtain ⟨more, hmore⟩ := b.prefix_before hlines (by rw [List.length_append]; exact h)
  obtain ⟨q, s', _, hq, -⟩ := (hmore ▸ b.comesTo).exists_of_append
  obtain ⟨p, _, output, hp, hline⟩ := hq.exists_of_append
  obtain ⟨hprogress, hstate⟩ := a.comesTo.unique hp
  rw [processLines_singleton, ← hprogress, ← hstate] at hline
  exact ⟨q, s', output, more, hline, hq, hmore.symm⟩

/-- The file is as it was after some lines if no `#line` is processed since. -/
theorem file_eq_of_comesTo {lines more : List (List Token)}
    (h : ComesTo session depth file source s lines p s') (a : Place session depth file source s)
    (ha : a.before = lines ++ more)
    (hnone : ∀ b : Place session depth file source s, lines.length ≤ b.index → b.index < a.index →
      ∀ operand, ¬ IsLineControl b.line operand) :
    a.progress.file = p.file := by
  induction more generalizing lines p s' with
  | nil =>
    rw [List.append_nil] at ha
    rw [(a.comesTo.unique (ha ▸ h)).1]
  | cons line more ih =>
    have hlines := a.lines_eq
    have hindex : a.index = lines.length + (more.length + 1) := by
      rw [index, ha, List.length_append, List.length_cons]
    rw [ha, List.append_assoc, List.cons_append] at hlines
    rw [List.append_cons] at ha
    obtain ⟨q, s'', _, hq, -⟩ := (ha ▸ a.comesTo).exists_of_append
    obtain ⟨p', _, _, hp', hline⟩ := hq.exists_of_append
    obtain ⟨rfl, rfl⟩ := h.unique hp'
    rw [processLines_singleton] at hline
    have hfile : q.file = p.file := by
      refine file_of_processLine (fun hlive operand => ?_) hline
      -- the line would be such a place
      refine hnone ⟨lines, line, _, hlines, p, s', h, hlive⟩ (Nat.le_refl _) ?_ operand
      rw [hindex]
      exact Nat.lt_add_of_pos_right (Nat.succ_pos _)
    rw [← hfile]
    refine ih hq ha fun b hle => hnone b ?_
    rw [List.length_append] at hle
    exact (Nat.le_add_right _ _).trans hle

/-- **Included files change nothing about the file that includes them.** The name and the line
numbers of a file are the same at two places if no `#line` of the file is processed in between. -/
theorem file_eq {a b : Place session depth file source s} (h : a.index ≤ b.index)
    (hnone : ∀ c : Place session depth file source s, a.index ≤ c.index → c.index < b.index →
      ∀ operand, ¬ IsLineControl c.line operand) :
    b.progress.file = a.progress.file := by
  have hprefix := b.prefix_before a.lines_eq h
  obtain ⟨more, hmore⟩ := hprefix
  exact file_eq_of_comesTo a.comesTo b hmore.symm hnone

/-- **The text at a place is expanded** by the macros and with the file there. -/
theorem exists_expand_eq (a : Place session depth file source s)
    (htext : a.line.head?.any Token.isHash = false) {output : List OutputLine}
    (h : (session.runSource depth file source).Returns s output s') :
    ∃ tokens before after, a.expander.expand a.text.flatten = .ok tokens ∧
      output = before ++
        Output.group (a.text.filterMap fun line => line.head?.map (·.position.line)) tokens ++
          after := by
  rw [runSource_eq, processFile] at h
  obtain ⟨_, _, hwarn, h⟩ := h.exists_of_bind
  rw [a.lines_eq, processToEnd_append] at h
  obtain ⟨⟨before, p⟩, _, hlines, h⟩ := h.exists_of_bind
  obtain ⟨rfl, rfl⟩ := a.comesTo.unique ⟨_, hwarn.bind hlines⟩
  obtain ⟨_, _, hrest, h⟩ := h.exists_of_bind
  cases h
  obtain ⟨text, rest, _, rfl, htextRun⟩ := exists_text_of_processToEnd a.live hrest
  rw [textLines, List.takeWhile_cons_of_pos (by simp [htext])] at htextRun
  obtain ⟨tokens, _, hexpand, hgroup⟩ := htextRun.exists_of_bind
  refine ⟨tokens, before, rest, hexpand.eq_ok_of_expand.1, ?_⟩
  cases hgroup
  rw [List.append_assoc]
  rfl

end Place

end Session

end CPreprocessor
