import CPreprocessor.Ascii

/-!
# Automata over bytes

A class of tokens is the language of a deterministic automaton. A byte that no continuation of the
text could contain leads to no state, so the automaton stops at the first byte that makes the text
hopeless, and `Automaton.longest` finds the longest accepted prefix in one pass.
-/

namespace CPreprocessor.Lexeme

/-- A deterministic automaton whose step is partial. -/
structure Automaton (σ : Type) where
  start : σ
  step : σ → UInt8 → Option σ
  accepting : σ → Bool

namespace Automaton

variable {σ : Type} (a : Automaton σ)

/-- The state after some bytes, if there is one. -/
def run (s : σ) : Bytes → Option σ
  | [] => some s
  | b :: rest => (a.step s b).bind (run · rest)

/-- Whether the automaton accepts the whole text. -/
def accepts (text : Bytes) : Bool := (a.run a.start text).any a.accepting

/-- Continues a search for the longest accepted prefix, with the state reached, the number of bytes
read and the length of the longest prefix found so far. -/
def longestFrom (s : σ) (length : Nat) (best : Option Nat) : Bytes → Option Nat
  | [] => best
  | b :: rest =>
    match a.step s b with
    | none => best
    | some s' =>
      longestFrom s' (length + 1) (if a.accepting s' then some (length + 1) else best) rest

/-- The length of the longest non-empty prefix that the automaton accepts. -/
def longest (text : Bytes) : Option Nat := a.longestFrom a.start 0 none text

end Automaton

end CPreprocessor.Lexeme
