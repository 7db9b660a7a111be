import CPreprocessor.Proofs.Session.Relation
import CPreprocessor.Proofs.Session.Tokens

/-!
# Reading the output back

The tokens of a line of output are of their kinds, so a line that is printed is read back as its
tokens, but for the two exceptions that the printer does not see (`lex_spell_iff_of_preprocess`).
Both can come out of a source, since the replacement of a macro may stand next to anything.
-/

namespace CPreprocessor

open Lexeme Ascii

/-- A token that is printed as it is, and that is read back where it stands alone. A header name is
read after `#include` only, a quote that is a token of its own may open a literal with what follows
it, and a string literal that `#` made may have any text. -/
structure Token.IsPlain (t : Token) : Prop where
  isAscii : t.text.IsAscii
  ne_header : t.kind ≠ .header
  ne_quote : t.kind = .other → t.text ≠ [singleQuote] ∧ t.text ≠ [doubleQuote]
  mem_of_string : t.kind = .string → t.text ∈ Kind.string.language

/-- A quote is in no class but that of all other characters. -/
theorem Lexeme.eq_other_of_quote_mem {kind : Kind} {quote : UInt8} (hquote : IsQuote quote)
    (hcomment : kind ≠ .comment) (h : [quote] ∈ kind.language) : kind = .other := by
  have haccepts := (kind.accepts_iff [quote]).2 h
  rcases hquote with rfl | rfl <;> cases kind <;>
    first | rfl | exact absurd rfl hcomment | exact absurd haccepts (by decide)

theorem Token.IsProper.isPrintable {t : Token} (h : t.IsProper) (hplain : t.IsPlain) :
    Output.IsPrintable t := by
  have hmem : t.text ∈ t.kind.language := by
    by_cases hkind : t.kind = .string
    · rw [hkind]
      exact hplain.mem_of_string hkind
    · exact h.mem hkind
  have hclass : t.kind ∈ Kind.classes false := by
    have hheader := hplain.ne_header
    cases hkind : t.kind with
    | header => exact absurd hkind hheader
    | _ => decide
  refine ⟨⟨⟨t.kind, hclass, h.ne_comment, hmem⟩, fun htext => ?_, fun htext => ?_⟩,
    hplain.isAscii⟩
  · have hother := eq_other_of_quote_mem (.inl rfl) h.ne_comment (htext ▸ hmem)
    exact (hplain.ne_quote hother).1 htext
  · have hother := eq_other_of_quote_mem (.inr rfl) h.ne_comment (htext ▸ hmem)
    exact (hplain.ne_quote hother).2 htext

/-! ## Runs of a session -/

section

variable {α β : Type} {s s' s'' : Session.State}

theorem SessionM.Returns.bind {x : SessionM α} {k : α → SessionM β} {a : α} {b : β}
    (hx : x.Returns s a s') (hk : (k a).Returns s' b s'') : (x >>= k).Returns s b s'' := by
  unfold Returns at hx hk ⊢
  rw [ExceptT.run_bind, StateT.run_bind, hx]
  exact hk

end

/-- The lines that the expanded tokens of the gathered text are grouped into. -/
def Progress.grouped (p : Progress) (tokens : List Token) : List OutputLine :=
  Output.group (p.pending.reverse.filterMap fun line => line.head?.map (·.position.line)) tokens

namespace Session

open SessionM
open Output (spell spellAfter BeginsInclusion)

section

variable {files : FileSystem} {s s' : State} {p : Progress} {tokens : List Token}

theorem returns_expand {file : SourceFile} {output : List Token}
    (h : (file.expander s.macros).expand tokens = .ok output) :
    (expand file tokens).Returns s output s := by
  rw [expand]
  refine Returns.bind (a := s) rfl ?_
  rw [h]
  rfl

theorem returns_flush
    (h : (p.file.expander s.macros).expand p.pending.reverse.flatten = .ok tokens) :
    (flush p).Returns s (p.grouped tokens, { p with pending := [] }) s := by
  rw [flush]
  exact (returns_expand h).bind rfl

theorem returns_warnUnterminatedComment {file : SourceFile} {source : Bytes} {text : Source.Text}
    (h : unterminatedComment text = none) :
    (warnUnterminatedComment file source text).Returns s () s := by
  rw [warnUnterminatedComment, h]
  rfl

/-- A source is preprocessed line by line, and then the text that is left is expanded. -/
theorem returns_preprocessBytes (session : Session) {name : String} {source : Bytes}
    {lines : List (List Token)} {output : List OutputLine}
    (hlines : Token.linesOf source
      (Source.normalize source session.config.replaceTrigraphs) = lines)
    (hcomment : unterminatedComment
      (Source.normalize source session.config.replaceTrigraphs) = none)
    (hrun : ∀ nested, (processLines session nested lines { file := { name } }).Returns s
      (output, p) s')
    (hexpand : (p.file.expander s'.macros).expand p.pending.reverse.flatten = .ok tokens)
    (hclosed : p.conditionals = []) :
    (preprocessBytes session name source).Returns s (output ++ p.grouped tokens) s' := by
  rw [preprocessBytes, runSource_eq, processFile]
  refine (returns_warnUnterminatedComment hcomment).bind ?_
  rw [hlines, processToEnd]
  refine (hrun _).bind ((returns_flush hexpand).bind ?_)
  simp only [hclosed]
  rfl

/-- Without a configuration, a session starts as it is. -/
theorem returns_start (files : FileSystem) : (start { files }).Returns {} () {} := by
  have hlines : Token.linesOf [] (Source.normalize [] true) = [[]] := by decide +kernel
  have hcomment : unterminatedComment (Source.normalize [] true) = none := by decide +kernel
  have hrun (nested : Option Inclusion) : (processLines { files } nested [[]]
      { file := { name := configurationName } }).Returns {}
        ([], { file := { name := configurationName } }) {} := rfl
  have hempty : (preprocessBytes { files } configurationName []).Returns {} ([] ++ []) {} :=
    returns_preprocessBytes { files } hlines hcomment hrun (Expander.expand_nil _) rfl
  exact hempty.bind rfl

end

/-! ## A slash before a star -/

/-- A slash comes out of a macro and gets next to a star. -/
def slashStar : Bytes := Bytes.ofString "#define S /\nS* x */\n"

/-- There are no files. -/
def noFiles : FileSystem :=
  ⟨fun _ => .error .notFound, fun _ => false, fun _ => .error .notFound⟩

def tokenAt (kind : Kind) (text : String) (spaced : Bool) (line column : Nat) : Token :=
  { kind, text := Bytes.ofString text, spaced, position := ⟨line, column⟩ }

/-- The macro `S`, which is a slash. -/
def slashMacro : Macro := ⟨Bytes.ofString "S", .object, [tokenAt .punctuator "/" true 1 11]⟩

def slashMacros : MacroTable := MacroTable.predefined.insert slashMacro

def definitionLine : List Token :=
  [tokenAt .punctuator "#" false 1 1, tokenAt .identifier "define" false 1 2,
    tokenAt .identifier "S" true 1 9, tokenAt .punctuator "/" true 1 11]

/-- What stands after the `S`. -/
def starredTokens : List Token :=
  [tokenAt .punctuator "*" false 2 2, tokenAt .identifier "x" true 2 4,
    tokenAt .punctuator "*" true 2 6, tokenAt .punctuator "/" false 2 7]

def textLine : List Token := tokenAt .identifier "S" true 2 1 :: starredTokens

def printedLine : OutputLine :=
  { tokenAt .punctuator "/" true 2 1 with hidden := HideSet.insert (Bytes.ofString "S") ∅ } ::
    starredTokens

theorem expand_textLine (file : SourceFile) :
    (file.expander slashMacros).expand textLine = .ok printedLine := by
  refine Prosser.expand_eq_of_expands rfl ?_
  have hothers : Prosser.Expands Prosser.hideLeft (file.expander slashMacros) printedLine
      (.ok printedLine) := by
    refine .other_ok (fun m h => absurd h.isIdentifier (by decide)) ?_
    refine .other_ok (fun m h => absurd h.isIdentifier (by decide)) ?_
    refine .other_ok (fun m h => nomatch (show none = some m from h.lookup)) ?_
    refine .other_ok (fun m h => absurd h.isIdentifier (by decide)) ?_
    exact .other_ok (fun m h => absurd h.isIdentifier (by decide)) .nil
  have hassembled (site : Location) : Prosser.assemble Prosser.hideLeft site
      (Prosser.Operand.value (fun _ => []) (fun _ => [])) []
      (Prosser.operands slashMacro false slashMacro.replacement) =
        .ok (slashMacro.replacement.map some) := rfl
  exact .object (m := slashMacro) ⟨rfl, by decide, rfl⟩ rfl (hassembled _) hothers

theorem returns_definitionLine {session : Session} {nested : Option Inclusion}
    (file : SourceFile) : (processLine session nested definitionLine { file }).Returns {}
      ([], { file }) { macros := slashMacros } := by
  have hexpand : (file.expander MacroTable.predefined).expand [] = .ok [] := Expander.expand_nil _
  have hflush := returns_flush (p := { file }) (s := {}) hexpand
  rw [processLine]
  exact hflush.bind rfl

theorem preprocess_slashStar (files : FileSystem) :
    preprocess files slashStar = .ok [printedLine] := by
  have hlines : Token.linesOf slashStar (Source.normalize slashStar true) =
      [definitionLine, textLine, []] := by decide +kernel
  have hcomment : unterminatedComment (Source.normalize slashStar true) = none := by
    decide +kernel
  have hlinesRun (nested : Option Inclusion) : (processLines { files } nested
      [definitionLine, textLine, []] { file := { name := inputName } }).Returns {}
        ([], { file := { name := inputName }, pending := [textLine] }) { macros := slashMacros } :=
    (returns_definitionLine _).bind rfl
  have hrun : (preprocessBytes { files } inputName slashStar).Returns {} ([] ++ [printedLine])
      { macros := slashMacros } :=
    returns_preprocessBytes { files } hlines hcomment hlinesRun (expand_textLine _) rfl
  exact congrArg Prod.fst ((returns_start files).bind hrun)

theorem isPlain_of_mem_printedLine : ∀ t ∈ printedLine, t.IsPlain := by
  have hplain : ∀ t ∈ printedLine, (∀ b ∈ t.text, b < 0x80) ∧ t.kind ≠ .header ∧
      t.kind ≠ .other ∧ t.kind ≠ .string := by decide +kernel
  intro t ht
  obtain ⟨hascii, hheader, hother, hstring⟩ := hplain t ht
  exact ⟨hascii, hheader, fun h => absurd h hother, fun h => absurd h hstring⟩

theorem not_beginsInclusion_printedLine : ¬ BeginsInclusion (printedLine.map Token.text) := by
  rw [BeginsInclusion]
  decide

/-! ## Lines that are read back -/

/-- **A line of output is read back as its tokens exactly if nothing in it runs on.** -/
theorem lex_spell_iff_of_preprocess {files : FileSystem} {source : Bytes}
    {output : List OutputLine} (h : preprocess files source = .ok output) {line : OutputLine}
    (hline : line ∈ output) (hplain : ∀ t ∈ line, t.IsPlain)
    (hinclude : ¬ BeginsInclusion (line.map Token.text)) :
    (Token.lex (Bytes.ofString (spell line))).map Token.text = line.map Token.text ↔
      ∀ t rest, t :: rest <:+ line → ¬ RunsOn t.text (Bytes.ofString (spellAfter t rest)) := by
  refine Output.map_text_lex_spell_iff (fun t ht => ?_) hinclude
  exact (isProper_of_preprocess h line hline t ht).isPrintable (hplain t ht)

/-- The slash runs on to the end of the line, so the line is not read back. -/
theorem lex_spell_slashStar_ne :
    preprocess noFiles slashStar = .ok [printedLine] ∧
      (Token.lex (Bytes.ofString (spell printedLine))).map Token.text ≠
        printedLine.map Token.text := by
  have hprinted := preprocess_slashStar noFiles
  refine ⟨hprinted, fun hread => ?_⟩
  refine (lex_spell_iff_of_preprocess hprinted (List.mem_singleton_self _)
    isPlain_of_mem_printedLine not_beginsInclusion_printedLine).1 hread _ starredTokens
    List.suffix_rfl (.inr ⟨rfl, ?_⟩)
  decide +kernel

/-- **A space between any two tokens that need one is not enough.** Of the line that is printed here
nothing is left when it is read, since it is a comment. -/
theorem not_forall_lex_spell :
    ¬ ∀ files source output, preprocess files source = .ok output →
      (∀ line ∈ output, ∀ t ∈ line, t.IsPlain) →
        ∀ line ∈ output, ¬ BeginsInclusion (line.map Token.text) →
          (Token.lex (Bytes.ofString (spell line))).map Token.text = line.map Token.text := by
  intro h
  have hread := h noFiles slashStar _ (preprocess_slashStar noFiles)
    (List.forall_mem_singleton.2 isPlain_of_mem_printedLine) printedLine
    (List.mem_singleton_self _) not_beginsInclusion_printedLine
  have hcomment : Token.lex (Bytes.ofString (spell printedLine)) = [] := by decide +kernel
  rw [hcomment] at hread
  cases hread

end Session

end CPreprocessor
