import CPreprocessor.Macro.Basic
import CPreprocessor.Text.Quoted

/-!
# Replacement lists

Before a replacement list takes the place of an invocation, the parameters in it are replaced by the
arguments, `#` turns an argument into a string literal, and `##` pastes the tokens on both its sides
together. An argument is expanded on its own first, except as an operand of `#` or `##`.

A replacement list in this state is a list of pieces. An empty argument next to `##` leaves a
placemarker, which pastes to whatever is on the other side.
-/

namespace CPreprocessor

/-- A part of a replacement list in which parameters are being replaced. -/
inductive Piece
  | token (t : Token)
  /-- A `##` that the replacement list itself contains. -/
  | paste (t : Token)
  /-- An empty argument that is an operand of `##`. -/
  | placemarker

namespace Piece

/-- The piece that a token of a replacement list is. -/
def of (t : Token) : Piece := if t.isPaste then .paste t else .token t

def token? : Piece → Option Token
  | .token t | .paste t => some t
  | .placemarker => none

end Piece

/-! ## Strings -/

/-- The text of a token inside a string literal. -/
def Token.textInString (t : Token) : Bytes :=
  if t.kind = .string ∨ t.kind = .character then escapeQuotes t.text else t.text

/-- The text of some tokens inside a string literal, with a space for every gap between them. -/
def textInString : List Token → Bytes
  | [] => []
  | first :: rest =>
    first.textInString ++ rest.flatMap fun t =>
      if t.spaced then Ascii.space :: t.textInString else t.textInString

/-- The string literal that `#` makes of an argument. -/
def stringize (mark : Token) (argument : List Token) : Token :=
  { mark with
    kind := .string
    text := Ascii.doubleQuote :: (textInString argument ++ [Ascii.doubleQuote]) }

/-! ## Pasting -/

/-- Pastes two pieces of a replacement list into one. The result has to be a token. -/
def paste (site : Location) : Piece → Piece → Except Fault Piece
  | .placemarker, right => .ok right
  | left, .placemarker => .ok left
  | .token left, .token right | .token left, .paste right
  | .paste left, .token right | .paste left, .paste right =>
    let text := left.text ++ right.text
    match Token.lex text with
    | [t] =>
      if t.text = text then .ok (.token { left with kind := t.kind, text })
      else .error (.located site (.invalidPaste left.spelling right.spelling))
    | _ => .error (.located site (.invalidPaste left.spelling right.spelling))

/-- Applies every `##` of a replacement list from left to right. The piece before the list, which
may be the left operand of the first one, is given. -/
def pasteAfter (site : Location) : Option Piece → List Piece → Except Fault (List Piece)
  | left, [] => .ok left.toList
  | some left, .paste _ :: right :: rest => do pasteAfter site (← paste site left right) rest
  | _, .paste _ :: _ => .error (.located site .pasteAtEdge)
  | left, piece :: rest => do return left.toList ++ (← pasteAfter site piece rest)

/-- Applies every `##` of a replacement list from left to right. -/
def pasteAll (site : Location) (pieces : List Piece) : Except Fault (List Piece) :=
  pasteAfter site none pieces

/-! ## Arguments -/

/-- The pieces of an argument in place of a parameter: they begin with the white-space that the
parameter has before it. -/
def argumentPieces (parameter : Token) (operand : Bool) : List Token → List Piece
  | [] => if operand then [.placemarker] else []
  | first :: rest => .token { first with spaced := parameter.spaced } :: rest.map .token

/-- Replaces the parameters in a part of the replacement list of a macro. The argument of an index
is given as it was written and, if it can be, fully expanded; the flag tells whether the token
before the part is `##`. -/
def substitute (m : Macro) (argument : Nat → List Token)
    (expanded : Nat → Except Fault (List Token)) (afterPaste : Bool) :
    List Token → Except Fault (List Piece)
  | [] => .ok []
  | [t] =>
    match m.parameter? t with
    | none => .ok [.of t]
    | some i => do
      let tokens ← if afterPaste then pure (argument i) else expanded i
      return argumentPieces t afterPaste tokens
  | t :: next :: rest =>
    match (if t.isHash then m.parameter? next else none) with
    | some i => do
      return .token (stringize t (argument i)) :: (← substitute m argument expanded false rest)
    | none =>
      match m.parameter? t with
      | none => do
        return .of t :: (← substitute m argument expanded t.isPaste (next :: rest))
      | some i => do
        let operand := afterPaste || next.isPaste
        let tokens ← if operand then pure (argument i) else expanded i
        return argumentPieces t operand tokens ++
          (← substitute m argument expanded false (next :: rest))

/-! ## The result -/

/-- The tokens that pieces leave in place of an invocation: they are where it was, begin with its
white-space, and hide the given names besides those that they hide already. -/
def finish (pieces : List Piece) (hidden : HideSet) (site : Token) : List Token :=
  let placed := (pieces.filterMap Piece.token?).map fun t =>
    { t with hidden := t.hidden.union hidden, position := site.position }
  match placed with
  | [] => []
  | first :: rest => { first with spaced := site.spaced } :: rest

theorem hidden_of_mem_finish {pieces : List Piece} {hidden : HideSet} {site t : Token}
    (h : t ∈ finish pieces hidden site) {name : Bytes} (hn : name ∈ hidden) : name ∈ t.hidden := by
  have all : ∀ u ∈ (pieces.filterMap Piece.token?).map fun t =>
      { t with hidden := t.hidden.union hidden, position := site.position },
      name ∈ u.hidden := by
    intro u hu
    obtain ⟨s, -, rfl⟩ := List.mem_map.1 hu
    exact HideSet.mem_union.2 (.inr hn)
  unfold finish at h
  dsimp only at h
  split at h
  · exact absurd h List.not_mem_nil
  · next first rest heq =>
    rw [heq] at all
    rcases List.mem_cons.1 h with rfl | h
    · exact all first List.mem_cons_self
    · exact all t (List.mem_cons_of_mem _ h)

end CPreprocessor
