import CPreprocessor.Directive
import CPreprocessor.Output
import CPreprocessor.Session.Condition
import CPreprocessor.Session.Conditional
import CPreprocessor.Session.Inclusion
import CPreprocessor.Session.LineControl

/-!
# Running through a file

The lines of a file are processed in order. Lines of text are gathered until a directive or the end
of the file, and then expanded together, so that an invocation may span lines. In a group that is
not processed, text is dropped and of the directives only those of conditionals count.

A file may include others as deeply as the configuration allows. `runSource` recurses on the depth
that is left, so it ends whatever the files include.
-/

namespace CPreprocessor

/-- How far a file has been processed. -/
structure Progress where
  file : SourceFile
  /-- The conditionals that are open, the innermost one first. -/
  conditionals : List Conditional := []
  /-- The lines of text that are not expanded yet, the last one first. -/
  pending : List (List Token) := []

namespace Progress

/-- Whether the current group is processed. -/
def live (p : Progress) : Bool := Conditional.live p.conditionals

/-- Opens a conditional. -/
def push (p : Progress) (c : Conditional) : Progress :=
  { p with conditionals := c :: p.conditionals }

end Progress

namespace Session

open SessionM

/-- Warns of tokens after the operands of a directive. -/
def warnExtraTokens (file : SourceFile) (directive : String) (tail : List Token) :
    SessionM Unit := do
  if let some t := tail.head? then warn (file.locationOf t) (.extraTokens directive)

/-- Finds out whether the condition of the directive at a location holds. -/
def condition (file : SourceFile) (location : Location) (tokens : List Token) : SessionM Bool := do
  ofDiagnosed (Condition.holds (← get).macros file location tokens)

/-! ## Text -/

/-- Expands the gathered lines of text. -/
def flush (p : Progress) : SessionM (List OutputLine × Progress) := do
  let lines := p.pending.reverse
  let starts := lines.filterMap fun line => line.head?.map (·.position.line)
  return (Output.group starts (← expand p.file lines.flatten), { p with pending := [] })

/-! ## Conditionals -/

/-- Goes on to an `#elif` group. Its condition is evaluated only if no group was taken yet. -/
def atElif (location : Location) (expression : List Token) (p : Progress) : SessionM Progress := do
  match p.conditionals with
  | [] => fail (.unbalanced "elif") location
  | c :: outer =>
    if c.seenElse then fail (.afterElse "elif") location
    match c.state with
    | .taking => return { p with conditionals := { c with state := .taken } :: outer }
    | .waiting =>
      if ← condition p.file location expression then
        return { p with conditionals := { c with state := .taking } :: outer }
      else return p
    | .taken | .skipped => return p

/-- Goes on to the `#else` group. -/
def atElse (location : Location) (tail : List Token) (p : Progress) : SessionM Progress := do
  match p.conditionals with
  | [] => fail (.unbalanced "else") location
  | c :: outer =>
    if c.seenElse then fail (.afterElse "else") location
    if c.state ≠ .skipped then warnExtraTokens p.file "else" tail
    return { p with conditionals := c.atElse :: outer }

/-- Closes the innermost conditional. -/
def atEndIf (location : Location) (tail : List Token) (p : Progress) : SessionM Progress := do
  match p.conditionals with
  | [] => fail (.unbalanced "endif") location
  | c :: outer =>
    if c.state ≠ .skipped then warnExtraTokens p.file "endif" tail
    return { p with conditionals := outer }

/-! ## Other directives -/

/-- Defines an object-like macro. Its replacement should not touch its name. -/
def defineObject (file : SourceFile) (location : Location) (name : Token)
    (replacement : List Token) : SessionM Unit := do
  if let some first := replacement.head? then
    if !first.spaced then warn (file.locationOf first) .missingSpace
  updateMacros location (·.define ⟨name.text, .object, replacement⟩)

/-- Remembers not to include a file again. -/
def includeOnce (file : SourceFile) : SessionM Unit :=
  modify fun s => { s with once := file.path.toList ++ s.once }

/-- Obeys `#pragma`. Every pragma but `once` is ignored. -/
def pragma (file : SourceFile) (text : List Token) : SessionM Unit := do
  if let [t] := text then
    if t.isIdentifier ∧ t.text = Bytes.ofString "once" then includeOnce file

/-- Obeys `#line` on a directive that ends on the given physical line. -/
def lineControl (location : Location) (lastLine : Nat) (operand : List Token) (p : Progress) :
    SessionM Progress := do
  match LineControl.ofTokens (← expand p.file operand) with
  | none => fail .invalidLine location
  | some control => return { p with file := control.apply lastLine p.file }

section

/-- How an included file is processed. -/
abbrev Inclusion := SourceFile → Bytes → SessionM (List OutputLine)

-- Nothing is done with included files when they may not be nested any deeper.
variable (session : Session) (nested : Option Inclusion)

/-- The operand of `#include`, expanded unless it is a header name. -/
def includeOperand (file : SourceFile) (operand : List Token) : SessionM (List Token) :=
  if operand.map Token.kind = [.header] then pure operand else expand file operand

/-- Obeys `#include`. -/
def includeFile (file : SourceFile) (location : Location) (operand : List Token) :
    SessionM (List OutputLine) := do
  match HeaderName.ofTokens (← includeOperand file operand), nested with
  | none, _ => fail .invalidInclude location
  | some _, none => fail .includeTooDeep location
  | some header, some run =>
    match ← firstFile session.files (header.candidates file session.config) with
    | none => fail (.includeNotFound header.text) location
    | some path => do
      let (included, contents) ← readFile session.files path
      if included.path.any (· ∈ (← get).once) then return []
      run { included with directory := included.path.bind Path.parent } contents

/-- Obeys a directive of a group that is processed. -/
def obey (directive : Directive) (location : Location) (lastLine : Nat) (p : Progress) :
    SessionM (List OutputLine × Progress) := do
  match directive with
  | .ifExpression expression =>
    return ([], p.push (.begin (← condition p.file location expression) location))
  | .ifDefined name tail => do
    warnExtraTokens p.file "ifdef" tail
    return ([], p.push (.begin ((← get).macros.isDefined name.text) location))
  | .ifNotDefined name tail => do
    warnExtraTokens p.file "ifndef" tail
    return ([], p.push (.begin (!(← get).macros.isDefined name.text) location))
  | .elifExpression expression => return ([], ← atElif location expression p)
  | .elseGroup tail => return ([], ← atElse location tail p)
  | .endIf tail => return ([], ← atEndIf location tail p)
  | .inclusion operand => return (← includeFile session nested p.file location operand, p)
  | .defineObject name replacement => do
    defineObject p.file location name replacement
    return ([], p)
  | .defineFunction name parameters variadic replacement => do
    let kind := .function (parameters.map Token.text) variadic
    updateMacros location (·.define ⟨name.text, kind, replacement⟩)
    return ([], p)
  | .undefine name tail => do
    warnExtraTokens p.file "undef" tail
    updateMacros location (·.undefine name.text)
    return ([], p)
  | .line operand => return ([], ← lineControl location lastLine operand p)
  | .error text => fail (.errorDirective (Output.spell text)) location
  | .pragma text => do
    pragma p.file text
    return ([], p)
  | .null => return ([], p)
  | .nonDirective _ => fail .invalidDirective location

/-- Processes a directive. -/
def processDirective (hash : Token) (line : List Token) (p : Progress) :
    SessionM (List OutputLine × Progress) := do
  let location := p.file.locationOf hash
  let directive := Directive.ofTokens line
  if p.live ∨ directive.any Directive.continuesConditional then
    match directive with
    | none => fail .invalidDirective location
    | some directive =>
      obey session nested directive location (line.getLast?.getD hash).position.line p
  else if Directive.beginsConditional line then
    return ([], p.push (.beginSkipped location))
  else return ([], p)

/-! ## Lines -/

/-- Processes a line. -/
def processLine (line : List Token) (p : Progress) : SessionM (List OutputLine × Progress) := do
  match line.head? with
  | none => return ([], p)
  | some first =>
    if first.isHash then
      let (text, p) ← flush p
      let (output, p) ← processDirective session nested first line p
      return (text ++ output, p)
    else if p.live then return ([], { p with pending := line :: p.pending })
    else return ([], p)

/-- Processes lines in order. -/
def processLines : List (List Token) → Progress → SessionM (List OutputLine × Progress)
  | [], p => return ([], p)
  | line :: rest, p => do
    let (output, p) ← processLine session nested line p
    let (more, p) ← processLines rest p
    return (output ++ more, p)

/-- Warns of a comment that is not closed. -/
def warnUnterminatedComment (file : SourceFile) (source : Bytes) (text : Source.Text) :
    SessionM Unit := do
  if let some origin := Lexeme.unterminatedComment text then
    let place := Source.positionOf (Source.lineStarts source) origin
    warn ⟨file.name, place.line, place.column, place.column + 2⟩ .unterminatedComment

/-- Processes all lines up to the end of a file, where no conditional may be open. -/
def processToEnd (lines : List (List Token)) (p : Progress) : SessionM (List OutputLine) := do
  let (output, p) ← processLines session nested lines p
  let (last, p) ← flush p
  match p.conditionals with
  | [] => return output ++ last
  | c :: _ => fail .unterminatedConditional c.location

/-- Processes a whole file. -/
def processFile (file : SourceFile) (source : Bytes) : SessionM (List OutputLine) := do
  let text := Source.normalize source session.config.replaceTrigraphs
  warnUnterminatedComment file source text
  processToEnd session nested (Token.linesOf source text) { file }

end

/-- Processes a whole file in which included files may be nested to the given depth. -/
def runSource (session : Session) : Nat → SourceFile → Bytes → SessionM (List OutputLine)
  | 0 => session.processFile none
  | depth + 1 => session.processFile (some (session.runSource depth))

end Session

end CPreprocessor
