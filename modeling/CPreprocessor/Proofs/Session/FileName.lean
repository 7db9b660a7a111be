import CPreprocessor.Proofs.Session.LineNumbers
import CPreprocessor.Proofs.Text.Quoted
import CPreprocessor.Proofs.Text.Utf8
import CPreprocessor.Proofs.Token.Spelling

/-!
# The presumed name of a file

`__FILE__` is replaced by the presumed name of the file, quoted, and a `#line` reads a name out of a
string literal. What is quoted reads as the text that it was (`unquote_quote`), and a name is a
string, so its bytes are read back as it is (`Bytes.toText_ofString`). So `#line` with `__FILE__`
gives the file the name that it has already, whatever that is (`Session.fileName_roundTrips`).
-/

namespace CPreprocessor

open Lexeme Ascii
open Source (normalize)

/-! ## A quoted text as a token -/

/-- A quoted text without a new-line is a single string literal. -/
theorem Token.exists_lex_quote {text : Bytes} (h : newline ∉ text) :
    ∃ t, lex (quote text) = [t] ∧ t.kind = .string ∧ t.text = quote text := by
  have hmem := between_mem_stringLiterals (escapeQuotes_mem_kstar h)
  have hkind : Kind.ofText? (quote text) = some .string :=
    List.find?_cons_of_pos ((Kind.string.accepts_iff _).2 hmem)
  exact exists_lex_eq_singleton (by decide) (by decide) hkind

/-- The name of a file is read out of its literal. -/
theorem LineControl.nameOf_quote (t : Token) (name : String) :
    nameOf { t with kind := .string, text := quote (Bytes.ofString name) } = some name := by
  rw [nameOf, if_pos ⟨rfl, rfl⟩, unquote_quote, Bytes.toText_ofString]

/-- The operand that says a number and the name of a file. -/
theorem LineControl.ofTokens_quote (number t : Token) (name : String) :
    ofTokens [number, { t with kind := .string, text := quote (Bytes.ofString name) }] =
      (numberOf number.text).map (⟨·, some name⟩) := by
  rw [ofTokens, nameOf_quote]
  cases numberOf number.text <;> rfl

/-! ## Lines that name their own file -/

/-- A line is `#line` with some digits and `__FILE__`. -/
structure NamesOwnFile (line : List Token) (digits : Bytes) : Prop where
  ne_nil : digits ≠ []
  isDigit : ∀ b ∈ digits, isDigit b = true
  exists_mark : ∃ mark ∈ [Bytes.ofString "#", Bytes.ofString "%:"],
    line.map Token.text = [mark, Bytes.ofString "line", digits, MacroTable.fileName]

namespace Token

variable {source : Bytes} {text : Source.Text} {line : List Token} {t : Token}

/-- The kind of a token can be told by its text if that is no header name. -/
theorem kind_eq_of_text (hline : line ∈ linesOf source text) (ht : t ∈ line) {spelling : Bytes}
    {kind : Kind} (htext : t.text = spelling) (hheader : spelling ∉ Kind.header.language)
    (hkind : Kind.ofText? spelling = some kind) : t.kind = kind := by
  have hne : t.kind ≠ .header := by
    intro heq
    have hmem := mem_language_of_mem_linesOf hline ht
    rw [heq, htext] at hmem
    exact hheader hmem
  have hof := ofText?_of_mem_linesOf hline ht hne
  rw [htext, hkind] at hof
  exact (Option.some.inj hof).symm

/-- Digits are no identifier. -/
theorem isIdentifier_eq_false_of_isDigit (hline : line ∈ linesOf source text) (ht : t ∈ line)
    (hne : t.text ≠ []) (hdigits : ∀ b ∈ t.text, isDigit b = true) : t.isIdentifier = false := by
  rw [isIdentifier, decide_eq_false_iff_not]
  intro hkind
  have hmem := mem_language_of_mem_linesOf hline ht
  rw [hkind] at hmem
  obtain ⟨b, rest, htext⟩ := List.exists_cons_of_ne_nil hne
  have hdigit := hdigits b (htext ▸ List.mem_cons_self)
  rw [htext] at hmem
  rcases head_of_mem_identifiers hmem with hb | rfl
  · rw [isDigit_eq_false_of_isNondigit b hb] at hdigit
    cases hdigit
  · exact absurd hdigit (by decide)

end Token

namespace NamesOwnFile

variable {source : Bytes} {text : Source.Text} {line : List Token} {digits : Bytes}

/-- Such a line of a source is a `#line` with two tokens as its operand. -/
theorem exists_operand (h : NamesOwnFile line digits) (hline : line ∈ Token.linesOf source text) :
    ∃ number name, Session.IsLineControl line [number, name] ∧
      (number.text = digits ∧ number.isIdentifier = false) ∧
      name.text = MacroTable.fileName ∧ name.isIdentifier = true ∧ name.hidden = ∅ := by
  obtain ⟨mark, hmark, htexts⟩ := h.exists_mark
  obtain ⟨hash, rest, rfl, hhash, hrest⟩ := List.map_eq_cons_iff.1 htexts
  obtain ⟨keyword, rest, rfl, hkeyword, hrest⟩ := List.map_eq_cons_iff.1 hrest
  obtain ⟨number, rest, rfl, hnumber, hrest⟩ := List.map_eq_cons_iff.1 hrest
  obtain ⟨name, rest, rfl, hname, hrest⟩ := List.map_eq_cons_iff.1 hrest
  obtain rfl := List.map_eq_nil_iff.1 hrest
  have hmarks : ∀ mark ∈ [Bytes.ofString "#", Bytes.ofString "%:"],
      mark ∉ Kind.header.language ∧ Kind.ofText? mark = some .punctuator ∧
        Token.plainSpelling mark = Bytes.ofString "#" := by decide
  obtain ⟨hheader, hpunctuator, hplain⟩ := hmarks mark hmark
  have hhashKind := Token.kind_eq_of_text hline (by simp) hhash hheader hpunctuator
  have hkeywordKind : keyword.kind = .identifier :=
    Token.kind_eq_of_text hline (by simp) hkeyword (by decide) (by decide)
  have hnameKind : name.kind = .identifier :=
    Token.kind_eq_of_text hline (by simp) hname (by decide) (by decide)
  have hisHash : hash.isHash = true := by
    simp [Token.isHash, Token.isPunctuator, Token.canonical, hhashKind, hhash, hplain]
  have hread : Directive.reader? keyword = some (Directive.withOperand .line) :=
    Directive.reader?_eq_of_mem (decide_eq_true hkeywordKind) (by simp [Directive.readers])
      hkeyword
  refine ⟨number, name, ⟨hisHash, ?_⟩, ⟨hnumber, ?_⟩, hname, decide_eq_true hnameKind,
    Token.hidden_of_mem_linesOf hline (by simp)⟩
  · rw [Directive.ofTokens, hread]
    rfl
  · exact Token.isIdentifier_eq_false_of_isDigit hline (by simp) (hnumber ▸ h.ne_nil)
      (hnumber ▸ h.isDigit)

end NamesOwnFile

/-- The operand of such a line is expanded to the digits and the quoted name of the file. -/
theorem Expander.expand_ownFile {e : Expander} (hk : e.keepDefined = false)
    (hmacros : e.macros.IsReachable) {number name : Token} (hnumber : number.isIdentifier = false)
    (htext : name.text = MacroTable.fileName) (hidentifier : name.isIdentifier = true)
    (hhidden : name.hidden = ∅) :
    e.expand [number, name] =
      .ok [number, { name with kind := .string, text := quote (Bytes.ofString e.file) }] := by
  have hread : e.reading number [name] = .plain number := by
    rw [reading, if_pos (.inl (by rw [hnumber]; rfl))]
  rw [e.expand_plain (Prosser.isKeptDefined_eq_false hk number) hread,
    e.expand_plain (Prosser.isKeptDefined_eq_false hk name)
      (reading_fileName hmacros hidentifier htext hhidden []), e.expand_nil]
  rfl

namespace Session

open SessionM

variable {session : Session} {depth : ℕ} {file : SourceFile} {source : Bytes} {s : State}

/-- **Quoting a name and reading it again gives the name.** Any text is read back from its literal,
which is one token if there is no new-line in the text. So a `#line` with a number and `__FILE__`
leaves the presumed name of the file as it is, wherever it stands. It is obeyed if the number is
small enough, and then it changes nothing but the numbers of the lines. -/
theorem fileName_roundTrips :
    (∀ text : Bytes, (unquote (quote text)).toText = text.toText) ∧
    (∀ text : Bytes, newline ∉ text →
      ∃ t, Token.lex (quote text) = [t] ∧ t.kind = .string ∧ t.text = quote text) ∧
    ∀ (session : Session) (depth : ℕ) (file : SourceFile) (source : Bytes) (s : State)
      (a : Place session depth file source s) (digits : Bytes),
      s.macros.IsReachable → NamesOwnFile a.line digits →
        (∀ output q s', (processLine session (session.inclusion depth) a.line a.progress).Returns
          a.state (output, q) s' → q.file.name = a.progress.file.name) ∧
        ∀ number text, LineControl.numberOf digits = some number →
          a.expander.expand a.progress.pending.reverse.flatten = .ok text →
            (processLine session (session.inclusion depth) a.line a.progress).Returns a.state
              (a.progress.grouped text,
                { a.progress with
                  file := { a.progress.file with
                    lineDelta := (number : ℤ) - ((Token.lastLine a.line : ℤ) + 1) }
                  pending := [] }) a.state := by
  refine ⟨fun text => by rw [unquote_quote], fun text => Token.exists_lex_quote,
    fun session depth file source s a digits hmacros hown => ?_⟩
  obtain ⟨number, name, hline, ⟨rfl, hnumber⟩, hname, hidentifier, hhidden⟩ :=
    hown.exists_operand (List.mem_of_getElem? a.getElem?_linesOf)
  have hexpand := Expander.expand_ownFile (e := a.expander) rfl (a.comesTo.isReachable hmacros)
    hnumber hname hidentifier hhidden
  have hcontrol := LineControl.ofTokens_quote number name a.progress.file.name
  refine ⟨fun output q s' h => ?_, fun n text hn htext => ?_⟩
  · obtain ⟨tokens, control, hexpand', hcontrol', hfile⟩ :=
      exists_control_of_processLine a.live hline h
    obtain rfl := Except.ok.inj (hexpand.symm.trans hexpand')
    obtain ⟨n, -, rfl⟩ := Option.map_eq_some_iff.1 (hcontrol.symm.trans hcontrol')
    rw [hfile]
    rfl
  · rw [hn] at hcontrol
    exact returns_processLine_of_control a.live hline htext hexpand hcontrol

/-! ## A name with quotes in it -/

/-- A file the name of which has a backslash and double quotes in it. -/
def quotedFile : SourceFile := { name := "a\\b \"c\".h" }

def ownFileSource : Bytes := Bytes.ofString "#line 5 __FILE__\n"

def ownFileLine : List Token :=
  [tokenAt .punctuator "#" false 1 1, tokenAt .identifier "line" false 1 2,
    tokenAt .number "5" true 1 7, tokenAt .identifier "__FILE__" true 1 9]

theorem linesOf_ownFileSource :
    Token.linesOf ownFileSource (normalize ownFileSource true) = [ownFileLine, []] := by
  decide +kernel

theorem unterminatedComment_ownFileSource :
    Lexeme.unterminatedComment (normalize ownFileSource true) = none := by decide +kernel

def ownFilePlace : Place { files := noFiles } 200 quotedFile ownFileSource {} where
  before := []
  line := ownFileLine
  after := [[]]
  lines_eq := linesOf_ownFileSource
  progress := { file := quotedFile }
  state := {}
  comesTo := ⟨[], (returns_warnUnterminatedComment unterminatedComment_ownFileSource).bind rfl⟩
  live := rfl

/-- The name is one token when it is quoted, and a `#line` with it changes only the numbers. -/
theorem fileName_roundTrips_quotes :
    NamesOwnFile ownFileLine (Bytes.ofString "5") ∧
      (∃ t, Token.lex (Bytes.ofString "\"a\\\\b \\\"c\\\".h\"") = [t] ∧ t.kind = .string ∧
        t.text = Bytes.ofString "\"a\\\\b \\\"c\\\".h\"") ∧
      (processLine { files := noFiles } (Session.inclusion { files := noFiles } 200) ownFileLine
        { file := quotedFile }).Returns {} ([], { file := { quotedFile with lineDelta := 3 } })
          {} := by
  have hown : NamesOwnFile ownFileLine (Bytes.ofString "5") :=
    ⟨by decide +kernel, by decide +kernel, _, List.mem_cons_self, rfl⟩
  obtain ⟨-, hlex, hname⟩ := fileName_roundTrips
  have hquote : quote (Bytes.ofString quotedFile.name) =
      Bytes.ofString "\"a\\\\b \\\"c\\\".h\"" := by decide +kernel
  have hnumber : LineControl.numberOf (Bytes.ofString "5") = some 5 := by decide +kernel
  refine ⟨hown, hquote ▸ hlex (Bytes.ofString quotedFile.name) (by decide +kernel), ?_⟩
  exact (hname _ _ _ _ _ ownFilePlace _ .predefined hown).2 5 [] hnumber (Expander.expand_nil _)

end Session

end CPreprocessor
