import CPreprocessor.Lexeme.Automaton

/-!
# Punctuators

The punctuators are a finite table. The state of their automaton is the list of what may still
follow: the rest of every punctuator that starts with the bytes read so far.
-/

namespace CPreprocessor.Lexeme

/-- Every punctuator. -/
def punctuators : List Bytes :=
  ["[", "]", "(", ")", "\x7b", "\x7d", ".", "->", "++", "--", "&", "*", "+", "-", "~", "!", "/",
    "%", "<<", ">>", "<", ">", "<=", ">=", "==", "!=", "^", "|", "&&", "||", "?", ":", ";", "...",
    "=", "*=", "/=", "%=", "+=", "-=", "<<=", ">>=", "&=", "^=", "|=", ",", "#", "##",
    "<:", ":>", "<%", "%>", "%:", "%:%:"].map Bytes.ofString

/-- The rests of the words that start with the given byte. -/
def restsAfter (b : UInt8) (words : List Bytes) : List Bytes :=
  words.filterMap fun
    | [] => none
    | first :: rest => if first = b then some rest else none

/-- The automaton of punctuators. -/
def punctuator : Automaton (List Bytes) where
  start := punctuators
  step words b :=
    match restsAfter b words with
    | [] => none
    | rests => some rests
  accepting words := words.contains []

end CPreprocessor.Lexeme
