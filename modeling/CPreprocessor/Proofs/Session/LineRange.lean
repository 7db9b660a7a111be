import CPreprocessor.Proofs.Session.LineNumbers
import CPreprocessor.Proofs.Session.Overflow

/-!
# The range of line numbers

The number that a `#line` gives is below 2^63, and so is every physical line of a source that is no
longer than that. So the difference of the two always fits in 64 bits. The number of a later line is
the given one and the distance to that line, and nothing keeps this sum below 2^63: a `__LINE__`
behind a `#line` fits exactly if the given number leaves room for it
(`Session.rangeOfLineNumbers`).
-/

namespace CPreprocessor

open Ascii
open Source (normalize spellings IsPositionOf)

theorem LineControl.number_lt_of_ofTokens {tokens : List Token} {control : LineControl}
    (h : LineControl.ofTokens tokens = some control) : control.number < 2 ^ 63 := by
  have hlimit {text : Bytes} {n : ℕ} (h : numberOf text = some n) : n < 2 ^ 63 := by
    unfold numberOf at h
    split at h
    · next hdigits =>
      cases h
      exact hdigits.2.2
    · cases h
  unfold ofTokens at h
  split at h
  · obtain ⟨n, hn, h⟩ := Option.bind_eq_some_iff.1 h
    cases h
    exact hlimit hn
  · obtain ⟨_, _, h⟩ := Option.bind_eq_some_iff.1 h
    obtain ⟨n, hn, h⟩ := Option.bind_eq_some_iff.1 h
    cases h
    exact hlimit hn
  · cases h

/-! ## Physical lines -/

/-- There are no more lines than bytes before an offset, and the one at it. -/
theorem Source.IsPositionOf.line_le {source : Bytes} {offset : ℕ} {p : Position}
    (h : IsPositionOf source offset p) : p.line ≤ offset + 1 := by
  have hcount := (List.count_le_length (a := newline) (l := source.take offset)).trans
    (List.length_take_le offset source)
  rw [h.line]
  omega

/-- A byte that is no new-line makes no line. -/
theorem Source.IsPositionOf.line_le_of_ne_newline {source : Bytes} {offset i : ℕ} {p : Position}
    (h : IsPositionOf source offset p) {c : UInt8} (hc : source[i]? = some c) (hne : c ≠ newline)
    (hlt : i < offset) : p.line ≤ offset := by
  have hmem : c ∈ source.take offset :=
    List.mem_of_getElem? (i := i) (by rw [List.getElem?_take_of_lt hlt, hc])
  have hcount := (List.count_lt_length_iff.2 ⟨c, hmem, hne⟩).trans_le
    (List.length_take_le offset source)
  rw [h.line]
  omega

/-- What is written for a byte that is no new-line does not begin with one. -/
theorem Source.exists_head?_of_spelling {trigraphs : Bool} {b : UInt8} (hb : b ≠ newline)
    {spelling text : Bytes} (hspelling : spelling ∈ spellings trigraphs b)
    (hfront : spelling <+: text) : ∃ c, text.head? = some c ∧ c ≠ newline := by
  obtain ⟨rest, rfl⟩ := hfront
  rcases hspelling with rfl | ⟨-, c, -, rfl⟩
  · exact ⟨b, rfl, hb⟩
  · exact ⟨question, rfl, by decide⟩

namespace Token

variable {source : Bytes} {trigraphs : Bool} {line : List Token}

/-- A `#` can be written in two ways. -/
theorem text_of_isHash {t : Token} (h : t.isHash = true) :
    t.text = Bytes.ofString "#" ∨ t.text = Bytes.ofString "%:" := by
  simp only [isHash, isPunctuator, Bool.and_eq_true, decide_eq_true_eq] at h
  obtain ⟨hkind, hspelling⟩ := h
  rw [canonical, if_pos hkind, plainSpelling] at hspelling
  by_cases hdigraph : t.text = Bytes.ofString "%:"
  · exact .inr hdigraph
  · rw [if_neg hdigraph] at hspelling
    split_ifs at hspelling
    -- the other digraphs are no spellings of it
    all_goals first | exact .inl hspelling | exact absurd hspelling (by decide)

theorem line_le_length (hline : line ∈ linesOf source (normalize source trigraphs)) {t : Token}
    (ht : t ∈ line) : t.position.line ≤ source.length := by
  obtain ⟨lexemes, hlexemes, rfl⟩ := List.mem_map.1 hline
  obtain ⟨u, hu, rfl⟩ := List.mem_map.1 ht
  exact (Source.isPositionOf_positionOf source u.origin).line_le.trans
    (origin_lt_of_mem_logicalLines hlexemes hu)

/-- The `#` in front of a token takes room that no new-line has. -/
theorem line_lt_length {hash : Token} {rest : List Token}
    (hline : hash :: rest ∈ linesOf source (normalize source trigraphs))
    (hhash : hash.isHash = true) {t : Token} (ht : t ∈ rest) :
    t.position.line < source.length := by
  set text := normalize source trigraphs
  have hback : text.MapsBack source trigraphs := .of_normalize source trigraphs
  obtain ⟨lexemes, hlexemes, heq⟩ := List.mem_map.1 (linesOf_normalize source trigraphs ▸ hline)
  cases lexemes with
  | nil => cases heq
  | cons first others =>
    obtain ⟨rfl, rfl⟩ := List.cons_eq_cons.1 heq
    obtain ⟨u, hu, rfl⟩ := List.mem_map.1 ht
    have hmem : first ∈ (Lexeme.logicalLines (.ofSource text.bytes)).flatten :=
      List.mem_flatten_of_mem hlexemes List.mem_cons_self
    obtain ⟨b, hb, spelling, hspelling, hfront⟩ := (exists_beginsAt hback hmem).spelled
    have hne : b ≠ newline := by
      rintro rfl
      have htext : first.text = _ ∨ first.text = _ := text_of_isHash hhash
      rcases htext with htext | htext <;> rw [htext] at hb <;> exact absurd hb (by decide)
    obtain ⟨c, hc, hne⟩ := Source.exists_head?_of_spelling hne hspelling hfront
    rw [List.head?_drop] at hc
    have horder := (pairwise_placed hback).sublist
      ((List.sublist_flatten_of_mem hlexemes).map (Lexeme.placed text.positions))
    have hlt := (List.pairwise_cons.1 horder).1 _ (List.mem_map_of_mem hu)
    have hposition := Source.isPositionOf_positionOf source (Lexeme.placed text.positions u).origin
    have hplaced : (first :: others).map (Lexeme.placed text.positions) ∈
        Lexeme.logicalLines text := by
      rw [Lexeme.logicalLines_eq_map]
      exact List.mem_map_of_mem hlexemes
    exact (hposition.line_le_of_ne_newline hc hne hlt).trans_lt
      (origin_lt_of_mem_logicalLines hplaced
        (List.mem_map_of_mem (List.mem_cons_of_mem first hu)))

end Token

/-- After a step that succeeds, the next one decides. -/
theorem SessionM.Returns.outcome_bind {α β : Type} {x : SessionM α} {k : α → SessionM β} {a : α}
    {s s' : Session.State} (h : x.Returns s a s') : (x >>= k).outcome s = (k a).outcome s' := by
  rw [SessionM.outcome_bind, show x.run.run s = _ from h]

namespace Session

open SessionM Expander.Machine

variable {session : Session} {depth : ℕ} {file : SourceFile} {source : Bytes} {s s' : State}
  {p : Progress}

/-! ## The `#line` that numbers a line -/

namespace Visit

/-- The number of lines before a line that a run comes to. -/
def index (v : Visit session depth file source s) : ℕ := v.before.length

theorem getElem?_linesOf (v : Visit session depth file source s) :
    (Token.linesOf source (normalize source session.config.replaceTrigraphs))[v.index]? =
      some v.line := by
  rw [v.lines_eq, index, List.getElem?_append_right (Nat.le_refl _), Nat.sub_self,
    List.getElem?_cons_zero]

end Visit

/-- A `#line` that is processed at a place gives a number. -/
def Place.Gives (a : Place session depth file source s) (control : LineControl) : Prop :=
  ∃ operand tokens, IsLineControl a.line operand ∧ a.expander.expand operand = .ok tokens ∧
    LineControl.ofTokens tokens = some control

/-- No `#line` is processed from the given line on before another one. -/
def Unnumbered (session : Session) (depth : ℕ) (file : SourceFile) (source : Bytes) (s : State)
    (first last : ℕ) : Prop :=
  ∀ c : Place session depth file source s, first ≤ c.index → c.index < last →
    ∀ operand, ¬ IsLineControl c.line operand

/-- A `#line` at a place gives a number, and no other one is processed before a later line. -/
structure Governs (a : Place session depth file source s) (v : Visit session depth file source s)
    (control : LineControl) : Prop where
  gives : a.Gives control
  lt : a.index < v.index
  unnumbered : Unnumbered session depth file source s (a.index + 1) v.index

/-- A place where a run comes to some lines is where it is after those before. -/
theorem Place.eq_of_comesTo (c : Place session depth file source s)
    {lines later : List (List Token)} {line : List Token}
    (h : ComesTo session depth file source s lines p s')
    (hlines : Token.linesOf source (normalize source session.config.replaceTrigraphs) =
      lines ++ line :: later) (hindex : c.index = lines.length) :
    c.line = line ∧ c.progress = p := by
  obtain ⟨hbefore, hafter⟩ := List.append_inj (c.lines_eq.symm.trans hlines) hindex
  exact ⟨(List.cons_eq_cons.1 hafter).1, (c.comesTo.unique (hbefore ▸ h)).1⟩

/-- No `#line` is processed in one more line if it is none, or in a group that is skipped. -/
theorem Unnumbered.succ {lines later : List (List Token)} {line : List Token} {first : ℕ}
    (h : Unnumbered session depth file source s first lines.length)
    (hbefore : ComesTo session depth file source s lines p s')
    (hlines : Token.linesOf source (normalize source session.config.replaceTrigraphs) =
      lines ++ line :: later)
    (hline : p.live = true → ∀ operand, ¬ IsLineControl line operand) :
    Unnumbered session depth file source s first (lines.length + 1) := by
  intro c hfirst hlt operand hc
  rcases (Nat.lt_succ_iff.1 hlt).lt_or_eq with hlt | heq
  · exact h c hfirst hlt operand hc
  · obtain ⟨rfl, rfl⟩ := c.eq_of_comesTo hbefore hlines heq
    exact hline c.live operand hc

/-- The file is as it was at the beginning, or as the last `#line` made it. -/
theorem ComesTo.file_cases {lines later : List (List Token)}
    (h : ComesTo session depth file source s lines p s')
    (hlines : Token.linesOf source (normalize source session.config.replaceTrigraphs) =
      lines ++ later) :
    (Unnumbered session depth file source s 0 lines.length ∧ p.file = file) ∨
      ∃ (a : Place session depth file source s) (control : LineControl), a.Gives control ∧
        a.index < lines.length ∧
        Unnumbered session depth file source s (a.index + 1) lines.length ∧
        p.file = control.apply (Token.lastLine a.line) a.progress.file := by
  induction lines using List.reverseRecOn generalizing p s' later with
  | nil =>
    obtain ⟨_, h⟩ := h
    obtain ⟨_, _, _, h⟩ := h.exists_of_bind
    cases h
    exact .inl ⟨fun _ _ hlt => absurd hlt (Nat.not_lt_zero _), rfl⟩
  | append_singleton lines line ih =>
    rw [List.append_assoc, List.singleton_append] at hlines
    obtain ⟨q, s'', output, hbefore, hline⟩ := h.exists_of_append
    rw [processLines_singleton] at hline
    rw [List.length_append, List.length_singleton]
    by_cases hcontrol : q.live = true ∧ ∃ operand, IsLineControl line operand
    · obtain ⟨hlive, operand, hcontrol⟩ := hcontrol
      obtain ⟨tokens, control, hexpand, hgives, hfile⟩ :=
        exists_control_of_processLine hlive hcontrol hline
      let a : Place session depth file source s :=
        ⟨lines, line, later, hlines, q, s'', hbefore, hlive⟩
      exact .inr ⟨a, control, ⟨operand, tokens, hcontrol, hexpand, hgives⟩, Nat.lt_succ_self _,
        fun _ hle hlt => absurd hlt (Nat.not_lt.2 hle), hfile⟩
    · have hnone : q.live = true → ∀ operand, ¬ IsLineControl line operand :=
        fun hlive operand h => hcontrol ⟨hlive, operand, h⟩
      have hfile : p.file = q.file := file_of_processLine hnone hline
      rcases ih hbefore hlines with ⟨hunnumbered, hq⟩ | ⟨a, control, hgives, hlt, hunnumbered, hq⟩
      · exact .inl ⟨hunnumbered.succ hbefore hlines hnone, hfile.trans hq⟩
      · exact .inr ⟨a, control, hgives, Nat.lt_succ_of_lt hlt,
          hunnumbered.succ hbefore hlines hnone, hfile.trans hq⟩

/-- A line is below the last token of every one that a run comes to before it. -/
theorem Visit.lastLine_lt (v : Visit session depth file source s)
    (a : Place session depth file source s) (h : a.index < v.index) :
    ∀ t ∈ v.line, Token.lastLine a.line < t.position.line := by
  have hfrom := Source.isFrom_normalize source session.config.replaceTrigraphs
  have hlength := Token.length_linesOf hfrom
  have hv := (List.getElem?_eq_some_iff.1 v.getElem?_linesOf).1
  have hend := List.getElem?_eq_getElem (l := Token.endLines source
    (normalize source session.config.replaceTrigraphs)) (i := a.index) (by omega)
  exact fun t ht => (Token.lastLine_le_of_getElem? hfrom a.getElem?_linesOf hend).trans_lt
    (Token.lt_line_of_getElem? hfrom h v.getElem?_linesOf hend t ht)

/-! ## What fits -/

/-- The last token of a `#line` stands behind its `#`. -/
theorem Place.lastLine_lt_length {a : Place session depth file source s} {operand : List Token}
    (h : IsLineControl a.line operand) : Token.lastLine a.line < source.length := by
  obtain ⟨hhash, hread⟩ := h
  have hmem := List.mem_of_getElem? a.getElem?_linesOf
  rcases hline : a.line with _ | ⟨hash, _ | ⟨name, rest⟩⟩
  · rw [hline] at hhash
    cases hhash
  · rw [hline] at hread
    cases hread
  · rw [hline] at hhash hmem
    rw [Token.lastLine, List.getLast?_cons_cons,
      List.getLast?_eq_some_getLast (List.cons_ne_nil name rest)]
    exact Token.line_lt_length hmem hhash (List.getLast_mem _)

/-- Which of the numbers that a run of a source computes for its lines fit in 64 bits. -/
structure RangeOfLineNumbers (session : Session) (depth : ℕ) (file : SourceFile) (source : Bytes)
    (s : State) : Prop where
  /-- The difference that a `#line` makes always fits, and so does the line that it is taken to. -/
  difference_fits (a : Place session depth file source s) (control : LineControl) :
    a.Gives control → IsInt64 (Token.lastLine a.line + 1) ∧
      IsInt64 (control.number - (Token.lastLine a.line + 1))
  /-- Physical lines fit. -/
  line_fits (v : Visit session depth file source s) : ∀ t ∈ v.line, IsInt64 t.position.line
  /-- Every number fits before the first `#line`. Behind one, a number fits exactly if the given
  number and the distance to the line are less than 2^63 together. -/
  number_fits_iff (v : Visit session depth file source s) :
    (Unnumbered session depth file source s 0 v.index ∧
        ∀ t ∈ v.line, IsInt64 (t.position.line + v.progress.file.lineDelta)) ∨
      ∃ (a : Place session depth file source s) (control : LineControl), Governs a v control ∧
        ∀ t ∈ v.line, Token.lastLine a.line < t.position.line ∧
          (IsInt64 (t.position.line + v.progress.file.lineDelta) ↔
            control.number + (t.position.line - (Token.lastLine a.line + 1)) < 2 ^ 63)
  /-- The lines of an included file are numbered anew, so what is said here of the source holds of
  the file as well. -/
  lineDelta_included (v : Visit session depth file source s) (included : SourceFile)
    (contents : Bytes) (s' : State) : v.Includes included contents s' → included.lineDelta = 0
  /-- The run stops for a number that does not fit only if it comes to a line with such a number, in
  the source or in a file that it includes. -/
  meetsOverflow : (session.runSource depth file source).Overflows s →
    MeetsOverflow session depth file source s
  /-- A run that gives something out comes to no `__LINE__` in the text, outside of the arguments of
  any invocation, that has such a number. -/
  use_fits (b : Place session depth file source s) (u : LineUse b) (output : List OutputLine)
    (s' : State) : s.macros.IsReachable →
      (session.runSource depth file source).Returns s output s' →
        IsInt64 (u.token.position.line + b.progress.file.lineDelta)

/-- **Numbers of lines fit exactly if the given ones leave room for them.** -/
theorem rangeOfLineNumbers (hsource : source.length < 2 ^ 63) (hfile : file.lineDelta = 0) :
    RangeOfLineNumbers session depth file source s where
  difference_fits a control := by
    rintro ⟨operand, tokens, hcontrol, -, hgives⟩
    have hlast := Place.lastLine_lt_length hcontrol
    have hnumber := LineControl.number_lt_of_ofTokens hgives
    unfold IsInt64
    omega
  line_fits v t ht := by
    have hlength := Token.line_le_length (List.mem_of_getElem? v.getElem?_linesOf) ht
    unfold IsInt64
    omega
  number_fits_iff v := by
    rcases v.comesTo.file_cases v.lines_eq with
      ⟨hnone, heq⟩ | ⟨a, control, hgives, hlt, hnone, heq⟩
    · refine .inl ⟨hnone, fun t ht => ?_⟩
      have hlength := Token.line_le_length (List.mem_of_getElem? v.getElem?_linesOf) ht
      rw [heq, hfile]
      unfold IsInt64
      omega
    · refine .inr ⟨a, control, ⟨hgives, hlt, hnone⟩, fun t ht => ?_⟩
      have hbelow := v.lastLine_lt a hlt t ht
      refine ⟨hbelow, ?_⟩
      rw [heq]
      dsimp only [LineControl.apply, IsInt64]
      omega
  lineDelta_included v included contents s' := by
    rintro ⟨hash, operand, -, -, h⟩
    exact lineDelta_of_included h
  meetsOverflow := meetsOverflow_of_runSource
  use_fits b u _ _ hmacros hrun := u.isInt64 hmacros hrun

/-- A given number that leaves room for the line behind it. -/
theorem rangeOfLineNumbers_plainLineControl :
    plainLineControl.length < 2 ^ 63 ∧ ({ name := inputName } : SourceFile).lineDelta = 0 ∧
      IsInt64 ((lineUse linesOf_plainLineControl
          unterminatedComment_plainLineControl).token.position.line +
        (usePlace linesOf_plainLineControl
          unterminatedComment_plainLineControl).progress.file.lineDelta) := by
  have hlength : plainLineControl.length < 2 ^ 63 := by decide
  have hrange : RangeOfLineNumbers { files := noFiles } 200 { name := inputName }
    plainLineControl {} := rangeOfLineNumbers hlength rfl
  exact ⟨hlength, rfl, hrange.use_fits _ (lineUse linesOf_plainLineControl
    unterminatedComment_plainLineControl) _ _ .predefined (returns_runSource_lineControl
      linesOf_plainLineControl unterminatedComment_plainLineControl (by decide))⟩

/-! ## A number that leaves no room -/

/-- The largest number that can be given, with an empty line before the `__LINE__`. -/
def largestLineControl : Bytes := Bytes.ofString "#line 9223372036854775807\n\n__LINE__\n"

theorem linesOf_largestLineControl :
    Token.linesOf largestLineControl (normalize largestLineControl true) =
      [directiveOf "9223372036854775807", [], [lineToken 3], []] := by
  decide +kernel

theorem unterminatedComment_largestLineControl :
    Lexeme.unterminatedComment (normalize largestLineControl true) = none := by decide +kernel

theorem ofTokens_largest :
    LineControl.ofTokens [tokenAt .number "9223372036854775807" true 1 7] =
      some ⟨9223372036854775807, none⟩ := by decide +kernel

/-- The place of the line behind the empty one. -/
def largestPlace : Place { files := noFiles } 200 { name := inputName } largestLineControl {} where
  before := [directiveOf "9223372036854775807", []]
  line := [lineToken 3]
  after := [[]]
  lines_eq := linesOf_largestLineControl
  progress := { file := LineControl.apply ⟨9223372036854775807, none⟩ 1 { name := inputName } }
  state := {}
  comesTo := ⟨[], (returns_warnUnterminatedComment unterminatedComment_largestLineControl).bind
    ((returns_directiveOf ofTokens_largest _).bind rfl)⟩
  live := rfl

def largestUse : LineUse largestPlace where
  left := []
  token := lineToken 3
  right := []
  isText := rfl
  line_eq := rfl
  isIdentifier := rfl
  text_eq := rfl
  outside := not_inInvocation MacroTable.isFunctionLike_of_mem_predefined _ _

/-- The number is one more than the largest. -/
theorem expand_lineToken_largest :
    largestPlace.expander.expand [lineToken 3] =
      .error (.located ⟨inputName, 3, 1, 9⟩ .lineOverflow) := by
  have hread := Expander.reading_lineName (e := largestPlace.expander) .predefined
    (t := lineToken 3) rfl rfl rfl []
  rw [if_neg (by decide)] at hread
  rw [Expander.expand_overflow _ (Prosser.isKeptDefined_eq_false rfl _) hread]
  rfl

/-- The text that is left at the end is expanded, which may fail. -/
theorem outcome_preprocessBytes_of_expand {name : String} {lines : List (List Token)}
    {output : List OutputLine} {fault : Fault}
    (hlines : Token.linesOf source (normalize source session.config.replaceTrigraphs) = lines)
    (hcomment : Lexeme.unterminatedComment
      (normalize source session.config.replaceTrigraphs) = none)
    (hrun : ∀ nested, (processLines session nested lines { file := { name } }).Returns s
      (output, p) s')
    (hexpand : (p.file.expander s'.macros).expand p.pending.reverse.flatten = .error fault) :
    (preprocessBytes session name source).outcome s = .error fault := by
  have hfails : (expand p.file p.pending.reverse.flatten).run.run s' = (.error fault, s') := by
    rw [expand, run_bind]
    show (ofExcept ((p.file.expander s'.macros).expand _)).run.run s' = _
    rw [hexpand]
    rfl
  rw [preprocessBytes, runSource_eq, processFile, hlines,
    (returns_warnUnterminatedComment hcomment).outcome_bind, processToEnd, (hrun _).outcome_bind]
  simp only [flush, bind_assoc]
  rw [SessionM.outcome_bind, hfails]

theorem outcome_largestLineControl :
    (preprocessBytes { files := noFiles } inputName largestLineControl).outcome {} =
      .error (.located ⟨inputName, 3, 1, 9⟩ .lineOverflow) :=
  outcome_preprocessBytes_of_expand (p := { largestPlace.progress with pending := [[lineToken 3]] })
    linesOf_largestLineControl unterminatedComment_largestLineControl
    (fun nested => (returns_directiveOf ofTokens_largest nested).bind rfl) expand_lineToken_largest

/-- **Where the given number leaves no room, the run stops.** -/
theorem not_forall_isInt64_lineUse :
    (preprocessBytes { files := noFiles } inputName largestLineControl).outcome {} =
        .error (.located ⟨inputName, 3, 1, 9⟩ .lineOverflow) ∧
      ¬ ∀ (session : Session) (depth : ℕ) (file : SourceFile) (source : Bytes) (s : State),
        source.length < 2 ^ 63 → file.lineDelta = 0 →
        ∀ (b : Place session depth file source s) (u : LineUse b),
          IsInt64 (u.token.position.line + b.progress.file.lineDelta) := by
  refine ⟨outcome_largestLineControl, fun h => ?_⟩
  exact absurd (h { files := noFiles } 200 { name := inputName } largestLineControl {} (by decide)
    rfl largestPlace largestUse) (by decide)

end Session

end CPreprocessor
