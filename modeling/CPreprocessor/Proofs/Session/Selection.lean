import CPreprocessor.Proofs.Session.Outline
import CPreprocessor.Session.Run

/-!
# Which groups are processed

The recursive definition of conditional inclusion, on the outline of a file: of the groups of a
conditional in a group that is processed, the first is processed whose condition holds, and
otherwise the `#else` group. There is no stack and no state of a conditional here.

A group that is not processed is skipped. Skipping (`skipGroup`) can only fail: it has no access to
macros and reports no warnings, and it looks only for conditionals that are not closed, and for
groups after an `#else` group.
-/

namespace CPreprocessor.Session

open SessionM

/-! ## Skipping -/

mutual

/-- Skips a group. -/
def skipGroup (file : SourceFile) : LineGroup → Except Fault Unit
  | .nil => .ok ()
  | .text _ rest => skipGroup file rest
  | .directive _ _ rest => skipGroup file rest
  | .conditional hash _ first chain rest => do
    skipGroup file first
    skipChain file (file.locationOf hash) false chain
    skipGroup file rest

/-- Skips what is after a group of a conditional that was opened at a location. The flag tells
whether that is the `#else` group. -/
def skipChain (file : SourceFile) (location : Location) (seenElse : Bool) :
    GroupChain → Except Fault Unit
  | .endOfFile => .error (.located location .unterminatedConditional)
  | .endIf _ _ => .ok ()
  | .elifGroup hash _ group next => do
    if seenElse then throw (.located (file.locationOf hash) (.afterElse "elif"))
    skipGroup file group
    skipChain file location seenElse next
  | .elseGroup hash _ group next => do
    if seenElse then throw (.located (file.locationOf hash) (.afterElse "else"))
    skipGroup file group
    skipChain file location true next

end

/-- Skips what is after the group of a conditional that was processed. Unlike in a conditional that
is skipped as a whole, tokens after the operands of its directives are reported. -/
def passChain (file : SourceFile) (location : Location) (seenElse : Bool) :
    GroupChain → SessionM Unit
  | .endOfFile => fail .unterminatedConditional location
  | .endIf _ line => warnExtraTokens file "endif" (line.drop 2)
  | .elifGroup hash _ group next => do
    if seenElse then fail (.afterElse "elif") (file.locationOf hash)
    SessionM.ofExcept (skipGroup file group)
    passChain file location seenElse next
  | .elseGroup hash line group next => do
    if seenElse then fail (.afterElse "else") (file.locationOf hash)
    warnExtraTokens file "else" (line.drop 2)
    SessionM.ofExcept (skipGroup file group)
    passChain file location true next

/-! ## Processing -/

/-- Expands lines of text together. -/
def processText (file : SourceFile) (lines : List (List Token)) : SessionM (List OutputLine) := do
  let starts := lines.filterMap fun line => line.head?.map (·.position.line)
  return Output.group starts (← expand file lines.flatten)

/-- Finds out whether the first group after a line that opens a conditional is processed. -/
def opens (file : SourceFile) (location : Location) (line : List Token) : SessionM Bool := do
  match Directive.ofTokens line with
  | some (.ifExpression expression) => condition file location expression
  | some (.ifDefined name tail) => do
    warnExtraTokens file "ifdef" tail
    return (← get).macros.isDefined name.text
  | some (.ifNotDefined name tail) => do
    warnExtraTokens file "ifndef" tail
    return !(← get).macros.isDefined name.text
  | _ => fail .invalidDirective location

section

variable (session : Session) (nested : Option Inclusion)

/-- Obeys a directive that belongs to no conditional. -/
def obeyAlone (file : SourceFile) (hash : Token) (line : List Token) :
    SessionM (List OutputLine × SourceFile) := do
  match Directive.ofTokens line with
  | none => fail .invalidDirective (file.locationOf hash)
  | some directive =>
    let lastLine := (line.getLast?.getD hash).position.line
    let (output, p) ← obey session nested directive (file.locationOf hash) lastLine { file }
    return (output, p.file)

mutual

/-- Processes a group. -/
def processGroup : LineGroup → SourceFile → SessionM (List OutputLine × SourceFile)
  | .nil, file => return ([], file)
  | .text lines rest, file => do
    let text ← processText file lines
    let (more, file) ← processGroup rest file
    return (text ++ more, file)
  | .directive hash line rest, file => do
    let (output, file) ← obeyAlone session nested file hash line
    let (more, file) ← processGroup rest file
    return (output ++ more, file)
  | .conditional hash line first chain rest, file => do
    let location := file.locationOf hash
    let (output, file) ←
      if ← opens file location line then do
        let (output, file) ← processGroup first file
        passChain file location false chain
        pure (output, file)
      else do
        SessionM.ofExcept (skipGroup file first)
        processChain location chain file
    let (more, file) ← processGroup rest file
    return (output ++ more, file)

/-- Processes what is after a group of a conditional that was opened at a location, no group of
which was processed yet. -/
def processChain (location : Location) :
    GroupChain → SourceFile → SessionM (List OutputLine × SourceFile)
  | .endOfFile, _ => fail .unterminatedConditional location
  | .endIf _ line, file => do
    warnExtraTokens file "endif" (line.drop 2)
    return ([], file)
  | .elifGroup hash line group next, file => do
    if ← condition file (file.locationOf hash) (line.drop 2) then
      let (output, file) ← processGroup group file
      passChain file location false next
      return (output, file)
    else
      SessionM.ofExcept (skipGroup file group)
      processChain location next file
  | .elseGroup _ line group next, file => do
    warnExtraTokens file "else" (line.drop 2)
    let (output, file) ← processGroup group file
    passChain file location true next
    return (output, file)

end

/-- Processes a whole file. A line that continues or closes a conditional cannot be at the end of
its outermost group. -/
def processOutline (file : SourceFile) : Outline → SessionM (List OutputLine)
  | .last group => do
    let (output, _) ← processGroup session nested group file
    return output
  | .upTo group boundary hash _ _ => do
    let (_, file) ← processGroup session nested group file
    fail (.unbalanced boundary.name) (file.locationOf hash)

end

end CPreprocessor.Session
