import CPreprocessor.Proofs.Macro.Scan
import CPreprocessor.Proofs.Session.Places
import CPreprocessor.Proofs.Token.LineEnds

/-!
# Line numbers

`#line` numbers the lines behind it. The line that would get the given number is the physical one
below the last token of the directive, and those behind it get one more each
(`Session.comesOutAs_of_numbers`). If the directive goes on below its last token, as it does with a
comment at its end that has a new-line in it, then the line behind the directive gets a number that
is too large.
-/

namespace CPreprocessor

open Source (normalize)

namespace Token

theorem hidden_of_mem_linesOf {source : Bytes} {text : Source.Text} {line : List Token}
    (hline : line ∈ linesOf source text) {t : Token} (ht : t ∈ line) : t.hidden = ∅ := by
  rw [linesOf, List.mem_map] at hline
  obtain ⟨lexemes, -, rfl⟩ := hline
  obtain ⟨lexeme, -, rfl⟩ := List.mem_map.1 ht
  rfl

end Token

namespace Session

open SessionM Expander.Machine

variable {session : Session} {depth : Nat} {file : SourceFile} {source : Bytes} {s s' : State}

/-! ## Numbers of lines -/

theorem Place.getElem?_linesOf (a : Place session depth file source s) :
    (Token.linesOf source (normalize source session.config.replaceTrigraphs))[a.index]? =
      some a.line := by
  rw [a.lines_eq, Place.index, List.getElem?_append_right (Nat.le_refl _), Nat.sub_self,
    List.getElem?_cons_zero]

/-- A `#line` with the given operand is processed at one place, and no other one before another
place. -/
structure Numbers (a b : Place session depth file source s) (control : LineControl) : Prop where
  exists_operand : ∃ operand tokens, IsLineControl a.line operand ∧
    a.expander.expand operand = .ok tokens ∧ LineControl.ofTokens tokens = some control
  lt : a.index < b.index
  none_between (c : Place session depth file source s) (hac : a.index < c.index)
    (hcb : c.index < b.index) (operand : List Token) : ¬ IsLineControl c.line operand

/-- A `__LINE__` in the text at a place, outside of the arguments of any invocation. -/
structure LineUse (b : Place session depth file source s) where
  left : List Token
  token : Token
  right : List Token
  isText : b.line.head?.any Token.isHash = false
  line_eq : b.line = left ++ token :: right
  isIdentifier : token.isIdentifier = true
  text_eq : token.text = MacroTable.lineName
  outside : ¬ InInvocation b.expander (.scan b.text.flatten [] [])
    (token :: (right ++ (textLines b.after).flatten))

namespace LineUse

variable {b : Place session depth file source s}

/-- The token of a number in the place of a `__LINE__`. -/
def numbered (u : LineUse b) (number : ℕ) : Token :=
  { u.token with kind := .number, text := Bytes.ofString (toString number) }

/-- What comes out of a source has a number in the place of a `__LINE__`, in the lines that the text
around it is expanded to. -/
def ComesOutAs (u : LineUse b) (output : List OutputLine) (number : ℕ) : Prop :=
  ∃ before front back after,
    b.expander.expand b.text.flatten = .ok (front ++ u.numbered number :: back) ∧
      output = before ++
        Output.group (b.text.filterMap fun line => line.head?.map (·.position.line))
          (front ++ u.numbered number :: back) ++ after

theorem mem_line (u : LineUse b) : u.token ∈ b.line := by simp [u.line_eq]

theorem reading (u : LineUse b) (hmacros : s.macros.IsReachable) (rest : List Token) :
    b.expander.reading u.token rest =
      if IsInt64 (u.token.position.line + b.expander.lineDelta) then
        .plain { u.token with
          kind := .number
          text := Bytes.ofString (toString (u.token.position.line + b.expander.lineDelta)) }
      else .overflow :=
  Expander.reading_lineName (b.comesTo.isReachable hmacros) u.isIdentifier u.text_eq
    (Token.hidden_of_mem_linesOf (List.mem_of_getElem? b.getElem?_linesOf) u.mem_line) rest

theorem suffix_text (u : LineUse b) :
    u.token :: (u.right ++ (textLines b.after).flatten) <:+ b.text.flatten := by
  rw [Place.text, List.flatten_append, List.flatten_cons, u.line_eq]
  exact ⟨b.progress.pending.reverse.flatten ++ u.left, by simp⟩

end LineUse

section

variable {nested : Option Inclusion} {p q : Progress} {line operand : List Token}
  (hlive : p.live = true) (hline : IsLineControl line operand)
include hlive hline

/-- The text before a `#line` is expanded, and then its operand, which has to say a number. -/
theorem exists_processLine_eq :
    ∃ location, processLine session nested line p = (do
      let text ← expand p.file p.pending.reverse.flatten
      match LineControl.ofTokens (← expand p.file operand) with
      | none => fail .invalidLine location
      | some control =>
        return (p.grouped text,
          { p with file := control.apply (Token.lastLine line) p.file, pending := [] })) := by
  cases line with
  | nil => exact absurd hline.isHash (by simp)
  | cons hash rest =>
    have hlast : ((hash :: rest).getLast?.getD hash).position.line =
        Token.lastLine (hash :: rest) := by
      rw [Token.lastLine, List.getLast?_eq_some_getLast (List.cons_ne_nil hash rest)]
      rfl
    have hhash : hash.isHash = true := hline.isHash
    refine ⟨p.file.locationOf hash, ?_⟩
    simp only [processLine, List.head?_cons, hhash, if_true, flush, bind_assoc, pure_bind]
    refine bind_congr fun text => ?_
    rw [@processDirective_of_live _ _ _ _ { p with pending := [] } _ hline.ofTokens_eq hlive, hlast]
    simp only [obey, lineControl, bind_assoc, pure_bind]
    refine bind_congr fun tokens => ?_
    cases LineControl.ofTokens tokens with
    | none => rfl
    | some control =>
      simp only [pure_bind, List.append_nil]
      rfl

/-- A `#line` is processed only if it says a number, and then this is the number of the line behind
its last token. -/
theorem exists_control_of_processLine {output : List OutputLine}
    (h : (processLine session nested line p).Returns s (output, q) s') :
    ∃ tokens control, (p.file.expander s.macros).expand operand = .ok tokens ∧
      LineControl.ofTokens tokens = some control ∧
        q.file = control.apply (Token.lastLine line) p.file := by
  obtain ⟨location, heq⟩ := @exists_processLine_eq session nested p line operand hlive hline
  rw [heq] at h
  obtain ⟨_, _, htext, hrest⟩ := h.exists_of_bind
  obtain ⟨-, rfl⟩ := htext.eq_ok_of_expand
  obtain ⟨tokens, _, hoperand, happly⟩ := hrest.exists_of_bind
  obtain ⟨hexpand, rfl⟩ := hoperand.eq_ok_of_expand
  cases hcontrol : LineControl.ofTokens tokens with
  | none =>
    rw [hcontrol] at happly
    exact absurd happly not_returns_fail
  | some control =>
    rw [hcontrol] at happly
    cases happly
    exact ⟨tokens, control, hexpand, hcontrol, rfl⟩

/-- A `#line` that says a number is processed if the text before it can be expanded. -/
theorem returns_processLine_of_control {text tokens : List Token} {control : LineControl}
    (htext : (p.file.expander s.macros).expand p.pending.reverse.flatten = .ok text)
    (hoperand : (p.file.expander s.macros).expand operand = .ok tokens)
    (hcontrol : LineControl.ofTokens tokens = some control) :
    (processLine session nested line p).Returns s (p.grouped text,
      { p with file := control.apply (Token.lastLine line) p.file, pending := [] }) s := by
  obtain ⟨location, heq⟩ := @exists_processLine_eq session nested p line operand hlive hline
  rw [heq]
  refine (returns_expand htext).bind ((returns_expand hoperand).bind ?_)
  rw [hcontrol]
  rfl

end

theorem Numbers.file_eq {a b : Place session depth file source s} {control : LineControl}
    (h : Numbers a b control) :
    b.progress.file = control.apply (Token.lastLine a.line) a.progress.file := by
  obtain ⟨operand, tokens, hline, hexpand, hcontrol⟩ := h.exists_operand
  obtain ⟨q, _, _, more, hreturns, hq, hmore⟩ := Place.exists_returns_of_lt h.lt
  obtain ⟨_, _, hexpand', hcontrol', hfile⟩ := exists_control_of_processLine a.live hline hreturns
  obtain rfl := Except.ok.inj (hexpand.symm.trans hexpand')
  obtain rfl := Option.some.inj (hcontrol.symm.trans hcontrol')
  rw [← hfile]
  refine Place.file_eq_of_comesTo hq b hmore fun c hac hcb => h.none_between c ?_ hcb
  rw [List.length_append] at hac
  exact hac

/-- A line with another one behind it has an end. -/
theorem Place.exists_getElem?_endLines {a b : Place session depth file source s}
    (h : a.index < b.index) : ∃ p, (Token.endLines source
      (normalize source session.config.replaceTrigraphs))[a.index]? = some p := by
  have hlength := Token.length_linesOf
    (Source.isFrom_normalize source session.config.replaceTrigraphs)
  have hb := (List.getElem?_eq_some_iff.1 b.getElem?_linesOf).1
  exact ⟨_, List.getElem?_eq_getElem (by omega)⟩

/-- In a run that gives something out, the number of such a `__LINE__` fits. -/
theorem LineUse.isInt64 {b : Place session depth file source s} (u : LineUse b)
    (hmacros : s.macros.IsReachable) {output : List OutputLine}
    (hrun : (session.runSource depth file source).Returns s output s') :
    IsInt64 (u.token.position.line + b.expander.lineDelta) := by
  obtain ⟨_, _, _, hexpand, -⟩ := b.exists_expand_eq u.isText hrun
  by_contra hnot
  exact reading_ne_overflow_of_not_inInvocation b.expander rfl hexpand u.suffix_text u.outside
    ((u.reading hmacros _).trans (if_neg hnot))

/-- **`#line` numbers the lines behind it.** If the directive ends on the physical line `p`, a
`__LINE__` on the physical line `p + 1 + k` gets the given number and `k` more, and as many more as
there are physical lines from the last token of the directive to its end. A `#line` in another file
does not change the numbers. -/
theorem comesOutAs_of_numbers {output : List OutputLine} (hmacros : s.macros.IsReachable)
    (hrun : (session.runSource depth file source).Returns s output s') :
    (∀ (a b : Place session depth file source s) (control : LineControl) (u : LineUse b),
      Numbers a b control →
      ∃ p k, (Token.endLines source
          (normalize source session.config.replaceTrigraphs))[a.index]? = some p ∧
        u.token.position.line = p + 1 + k ∧ Token.lastLine a.line ≤ p ∧
        u.ComesOutAs output (control.number + k + (p - Token.lastLine a.line))) ∧
    ∀ a b : Place session depth file source s, a.index ≤ b.index →
      (∀ c : Place session depth file source s, a.index ≤ c.index → c.index < b.index →
        ∀ operand, ¬ IsLineControl c.line operand) →
      b.progress.file = a.progress.file := by
  refine ⟨fun a b control u hnumbers => ?_, fun a b => Place.file_eq⟩
  have hfrom := Source.isFrom_normalize source session.config.replaceTrigraphs
  obtain ⟨p, hend⟩ := Place.exists_getElem?_endLines hnumbers.lt
  have hlast := Token.lastLine_le_of_getElem? hfrom a.getElem?_linesOf hend
  have hbelow := Token.lt_line_of_getElem? hfrom hnumbers.lt b.getElem?_linesOf hend _ u.mem_line
  obtain ⟨k, hk⟩ := Nat.exists_eq_add_of_le (Nat.succ_le_of_lt hbelow)
  refine ⟨p, k, hend, hk, hlast, ?_⟩
  obtain ⟨expanded, before, after, hexpand, houtput⟩ := b.exists_expand_eq u.isText hrun
  obtain ⟨front, back, rfl⟩ := exists_eq_of_not_inInvocation b.expander rfl hexpand u.suffix_text
    u.outside ((u.reading hmacros _).trans (if_pos (u.isInt64 hmacros hrun)))
  have hnumber : (u.token.position.line : ℤ) + b.expander.lineDelta =
      ((control.number + k + (p - Token.lastLine a.line) : ℕ) : ℤ) := by
    have hdelta : b.expander.lineDelta =
        (control.number : ℤ) - ((Token.lastLine a.line : ℤ) + 1) := by
      rw [Place.expander, SourceFile.expander, hnumbers.file_eq]
      rfl
    omega
  rw [hnumber] at hexpand houtput
  exact ⟨before, front, back, after, hexpand, houtput⟩

/-! ## Two sources -/

/-- The line behind the directive gets the number that was given. -/
def plainLineControl : Bytes := Bytes.ofString "#line 100\n__LINE__\n"

/-- The directive ends with a comment that goes over a new-line. -/
def commentedLineControl : Bytes := Bytes.ofString "#line 100 /*\n*/\n__LINE__\n"

def lineDirective : List Token :=
  [tokenAt .punctuator "#" false 1 1, tokenAt .identifier "line" false 1 2,
    tokenAt .number "100" true 1 7]

def lineToken (n : ℕ) : Token := tokenAt .identifier "__LINE__" true n 1

/-- The file behind the directive. -/
def numberedFile : SourceFile := LineControl.apply ⟨100, none⟩ 1 { name := inputName }

theorem expand_lineToken {n : ℕ} (hn : IsInt64 ((n : ℤ) + 98)) :
    (numberedFile.expander .predefined).expand [lineToken n] = .ok [{ lineToken n with
      kind := .number
      text := Bytes.ofString (toString ((n : ℤ) + 98)) }] := by
  have hread := Expander.reading_lineName (e := numberedFile.expander .predefined) .predefined
    (t := lineToken n) rfl rfl rfl []
  rw [Expander.expand_plain _ (Prosser.isKeptDefined_eq_false rfl _) (hread.trans (if_pos hn)),
    Expander.expand_nil]
  rfl

/-- A `#line` with the given digits. -/
def directiveOf (digits : String) : List Token :=
  [tokenAt .punctuator "#" false 1 1, tokenAt .identifier "line" false 1 2,
    tokenAt .number digits true 1 7]

theorem isLineControl_directiveOf (digits : String) :
    IsLineControl (directiveOf digits) [tokenAt .number digits true 1 7] :=
  ⟨rfl, rfl⟩

theorem expand_digits (file : SourceFile) (digits : String) :
    (file.expander .predefined).expand [tokenAt .number digits true 1 7] =
      .ok [tokenAt .number digits true 1 7] :=
  Prosser.expand_eq_of_expands rfl
    (.other_ok (fun _ h => absurd h.isIdentifier (by simp [tokenAt, Token.isIdentifier])) .nil)

theorem returns_directiveOf {session : Session} {digits : String} {control : LineControl}
    (hgives : LineControl.ofTokens [tokenAt .number digits true 1 7] = some control)
    (nested : Option Inclusion) :
    (processLine session nested (directiveOf digits) { file := { name := inputName } }).Returns {}
      ([], { file := control.apply 1 { name := inputName } }) {} := by
  exact returns_processLine_of_control (p := { file := { name := inputName } }) rfl
    (isLineControl_directiveOf digits) (Expander.expand_nil _) (expand_digits _ digits) hgives

theorem ofTokens_hundred :
    LineControl.ofTokens [tokenAt .number "100" true 1 7] = some ⟨100, none⟩ := by decide +kernel

theorem returns_lineDirective {session : Session} (nested : Option Inclusion) :
    (processLine session nested lineDirective { file := { name := inputName } }).Returns {}
      ([], { file := numberedFile }) {} :=
  returns_directiveOf ofTokens_hundred nested

section

variable {source : Bytes} {n : ℕ}
  (hlines : Token.linesOf source (normalize source true) = [lineDirective, [lineToken n], []])
  (hcomment : Lexeme.unterminatedComment (normalize source true) = none)

/-- The place of the directive. -/
def directivePlace : Place { files := noFiles } 200 { name := inputName } source {} where
  before := []
  line := lineDirective
  after := [[lineToken n], []]
  lines_eq := hlines
  progress := { file := { name := inputName } }
  state := {}
  comesTo := ⟨[], (returns_warnUnterminatedComment hcomment).bind rfl⟩
  live := rfl

/-- The place of the line behind the directive. -/
def usePlace : Place { files := noFiles } 200 { name := inputName } source {} where
  before := [lineDirective]
  line := [lineToken n]
  after := [[]]
  lines_eq := hlines
  progress := { file := numberedFile }
  state := {}
  comesTo := ⟨[], (returns_warnUnterminatedComment hcomment).bind
    ((returns_lineDirective _).bind rfl)⟩
  live := rfl

def lineUse : LineUse (usePlace hlines hcomment) where
  left := []
  token := lineToken n
  right := []
  isText := rfl
  line_eq := rfl
  isIdentifier := rfl
  text_eq := rfl
  outside := not_inInvocation MacroTable.isFunctionLike_of_mem_predefined _ _

theorem numbers_directivePlace :
    Numbers (directivePlace hlines hcomment) (usePlace hlines hcomment) ⟨100, none⟩ where
  exists_operand := ⟨_, _, isLineControl_directiveOf "100", expand_digits _ _, ofTokens_hundred⟩
  lt := Nat.one_pos
  none_between _ hac hcb :=
    absurd (Nat.lt_of_lt_of_le hac (Nat.le_of_lt_succ hcb)) (Nat.lt_irrefl _)

include hlines hcomment

theorem returns_runSource_lineControl (hn : IsInt64 ((n : ℤ) + 98)) :
    (runSource { files := noFiles } 200 { name := inputName } source).Returns {}
      ([] ++ Progress.grouped { file := numberedFile, pending := [[lineToken n]] }
        [{ lineToken n with
          kind := .number
          text := Bytes.ofString (toString ((n : ℤ) + 98)) }]) {} := by
  have hprocess (nested : Option Inclusion) : (processLines { files := noFiles } nested
      [lineDirective, [lineToken n], []] { file := { name := inputName } }).Returns {}
        ([], { file := numberedFile, pending := [[lineToken n]] }) {} :=
    (returns_lineDirective nested).bind rfl
  have hrun : (preprocessBytes { files := noFiles } inputName source).Returns {} _ {} :=
    returns_preprocessBytes _ hlines hcomment hprocess (expand_lineToken hn) rfl
  exact hrun

end

theorem linesOf_plainLineControl :
    Token.linesOf plainLineControl (normalize plainLineControl true) =
      [lineDirective, [lineToken 2], []] := by decide +kernel

theorem linesOf_commentedLineControl :
    Token.linesOf commentedLineControl (normalize commentedLineControl true) =
      [lineDirective, [lineToken 3], []] := by decide +kernel

theorem unterminatedComment_plainLineControl :
    Lexeme.unterminatedComment (normalize plainLineControl true) = none := by decide +kernel

theorem unterminatedComment_commentedLineControl :
    Lexeme.unterminatedComment (normalize commentedLineControl true) = none := by decide +kernel

/-- The line behind a directive of one line gets the number that was given. -/
theorem comesOutAs_plainLineControl :
    ∃ output, (runSource { files := noFiles } 200 { name := inputName } plainLineControl).Returns {}
      output {} ∧ (lineUse linesOf_plainLineControl unterminatedComment_plainLineControl).ComesOutAs
        output 100 := by
  have hrun := returns_runSource_lineControl linesOf_plainLineControl
    unterminatedComment_plainLineControl (by decide)
  obtain ⟨p, k, hend, hk, -, hcomes⟩ := (comesOutAs_of_numbers .predefined hrun).1 _ _ _
    (lineUse linesOf_plainLineControl unterminatedComment_plainLineControl)
    (numbers_directivePlace linesOf_plainLineControl unterminatedComment_plainLineControl)
  have hfirst :
      (Token.endLines plainLineControl (normalize plainLineControl true))[0]? = some 1 := by
    decide +kernel
  obtain rfl : 1 = p := Option.some.inj (hfirst.symm.trans hend)
  obtain rfl : 0 = k := Nat.add_left_cancel hk
  exact ⟨_, hrun, hcomes⟩

/-- **A comment that goes over the end of the line makes the numbers too large.** -/
theorem not_forall_comesOutAs_of_numbers :
    ¬ ∀ (session : Session) (depth : ℕ) (file : SourceFile) (source : Bytes) (s s' : State)
      (output : List OutputLine), s.macros.IsReachable →
      (session.runSource depth file source).Returns s output s' →
      ∀ (a b : Place session depth file source s) (control : LineControl) (u : LineUse b) (p k : ℕ),
        Numbers a b control →
        (Token.endLines source (normalize source session.config.replaceTrigraphs))[a.index]? =
          some p →
        u.token.position.line = p + 1 + k → u.ComesOutAs output (control.number + k) := by
  intro h
  obtain ⟨_, front, back, _, hexpand, -⟩ := h { files := noFiles } 200 { name := inputName }
    commentedLineControl {} {} _ .predefined
    (returns_runSource_lineControl linesOf_commentedLineControl
      unterminatedComment_commentedLineControl (by decide)) _ _ _
    (lineUse linesOf_commentedLineControl unterminatedComment_commentedLineControl) 2 0
    (numbers_directivePlace linesOf_commentedLineControl unterminatedComment_commentedLineControl)
    (by decide +kernel) rfl
  -- the number that comes out is 101
  have hmem := (Except.ok.inj ((expand_lineToken (by decide)).symm.trans hexpand)).symm ▸
    List.mem_append_right front List.mem_cons_self
  have htext := congrArg Token.text (List.mem_singleton.1 hmem)
  exact absurd htext (by decide)

end Session

end CPreprocessor
