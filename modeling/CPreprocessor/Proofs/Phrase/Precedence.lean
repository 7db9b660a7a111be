import CPreprocessor.Expression.Value
import CPreprocessor.Proofs.Phrase.Unambiguous

/-!
# Precedence and associativity

Arithmetic expressions are written with parentheses only around an operand whose level is above the
one that its position requires (`Arithmetic.write`). The levels are those of section 6.5 of C17:
every operator has the number of the subsection that defines it. What is written in this way is
parsed to a tree from which the same expression can be read (`parse_write`).

The derivation is built along the expression, which stands at its own level, or as a primary
expression if it is in parentheses, and is lifted from there to the level of its position. There is
no other derivation.
-/

namespace CPreprocessor

open Expression (ExpressionTree)

namespace BinaryOperator

/-- The subsection that defines an operator. -/
def level : BinaryOperator → Nat
  | multiply | divide | remainder => 5
  | add | subtract => 6
  | shiftLeft | shiftRight => 7
  | less | greater | lessEqual | greaterEqual => 8
  | equal | notEqual => 9
  | bitAnd => 10
  | bitXor => 11
  | bitOr => 12
  | logicalAnd => 13
  | logicalOr => 14

theorem level_bounds (operator : BinaryOperator) : 5 ≤ operator.level ∧ operator.level ≤ 14 := by
  cases operator <;> decide

def spelling : BinaryOperator → String
  | multiply => "*"
  | divide => "/"
  | remainder => "%"
  | add => "+"
  | subtract => "-"
  | shiftLeft => "<<"
  | shiftRight => ">>"
  | less => "<"
  | greater => ">"
  | lessEqual => "<="
  | greaterEqual => ">="
  | equal => "=="
  | notEqual => "!="
  | bitAnd => "&"
  | bitXor => "^"
  | bitOr => "|"
  | logicalAnd => "&&"
  | logicalOr => "||"

end BinaryOperator

def UnaryOperator.spelling : UnaryOperator → String
  | addressOf => "&"
  | dereference => "*"
  | plus => "+"
  | minus => "-"
  | complement => "~"
  | not => "!"

/-- The kind and the text of a token. -/
abbrev Word := Lexeme.Kind × Bytes

def Word.ofToken (t : Token) : Word := (t.kind, t.text)

/-- A punctuator. -/
def Word.symbol (spelling : String) : Word := (.punctuator, Bytes.ofString spelling)

/-- Expressions that have no parentheses, as they are trees. -/
inductive Arithmetic
  | number (text : Bytes)
  | character (text : Bytes)
  | unary (operator : UnaryOperator) (operand : Arithmetic)
  | binary (operator : BinaryOperator) (left right : Arithmetic)
  | conditional (condition yes no : Arithmetic)
  deriving DecidableEq

namespace Arithmetic

open Word

/-- The subsection that defines the outermost construction of an expression. -/
def level : Arithmetic → Nat
  | number _ | character _ => 1
  | unary _ _ => 3
  | binary operator _ _ => operator.level
  | conditional _ _ _ => 15

theorem one_le_level (e : Arithmetic) : 1 ≤ e.level := by
  cases e with
  | binary operator _ _ => exact Nat.le_trans (by decide) operator.level_bounds.1
  | _ => simp [level]

theorem level_le (e : Arithmetic) : e.level ≤ 15 := by
  cases e with
  | binary operator _ _ => exact Nat.le_trans operator.level_bounds.2 (by decide)
  | _ => simp [level]

/-- Words in parentheses if these are needed. -/
def enclosed (needed : Bool) (words : List Word) : List Word :=
  if needed then symbol "(" :: words ++ [symbol ")"] else words

/-- The tokens of an expression at a position for expressions up to a level. Binary operators
associate to the left. -/
def write (e : Arithmetic) (position : Nat) : List Word :=
  enclosed (position < e.level) <|
    match e with
    | number text => [(.number, text)]
    | character text => [(.character, text)]
    | unary operator operand => symbol operator.spelling :: operand.write 4
    | binary operator left right =>
      left.write operator.level ++ symbol operator.spelling :: right.write (operator.level - 1)
    | conditional condition yes no =>
      condition.write 14 ++ symbol "?" :: (yes.write 17 ++ symbol ":" :: no.write 15)

/-- The expression of a tree, without the nodes that have a single part and those of parentheses. -/
def ofTree : ExpressionTree → Option Arithmetic
  | .node _ .next _ _ [operand] => ofTree operand
  | .node _ .parenthesized _ _ [_, operand, _] => ofTree operand
  | .node _ .number _ _ [.leaf token] => some (.number token.text)
  | .node _ .character _ _ [.leaf token] => some (.character token.text)
  | .node _ (.unary operator) _ _ [_, operand] => return .unary operator (← ofTree operand)
  | .node _ (.binary operator) _ _ [left, _, right] =>
    return .binary operator (← ofTree left) (← ofTree right)
  | .node _ .conditional _ _ [condition, _, yes, _, no] =>
    return .conditional (← ofTree condition) (← ofTree yes) (← ofTree no)
  | _ => none

end Arithmetic

namespace Phrase

open Arithmetic Grammar GrammarSymbol Nonterminal

variable {input : List Token} {start middle stop : Nat} {words : List Word}

/-- The tokens from a position to another are the given words. -/
inductive Spells (input : List Token) : Nat → Nat → List Word → Prop
  | nil (stop : Nat) : Spells input stop stop []
  | cons {t : Token} {words : List Word} {start stop : Nat} (get : input[start]? = some t)
      (rest : Spells input (start + 1) stop words) :
      Spells input start stop (.ofToken t :: words)

theorem spells_append {more : List Word} (h : Spells input start stop (words ++ more)) :
    ∃ middle, Spells input start middle words ∧ Spells input middle stop more := by
  induction words generalizing start with
  | nil => exact ⟨start, .nil start, h⟩
  | cons word words ih =>
    cases h with
    | cons get rest =>
      obtain ⟨middle, hwords, hmore⟩ := ih rest
      exact ⟨middle, .cons get hwords, hmore⟩

theorem spells_of_append (before : List Token) {after : List Token}
    (h : input = before ++ after) :
    Spells input before.length input.length (after.map .ofToken) := by
  induction after generalizing before with
  | nil =>
    rw [h, List.append_nil]
    exact .nil _
  | cons t after ih =>
    refine .cons (by simp [h]) ?_
    have hrest := ih (before ++ [t]) (by simp [h])
    rwa [List.length_append] at hrest

/-- A derivation of an expression of a level, over tokens that are its words. -/
def IsParsed (input : List Token) (level start stop : Nat) (e : Arithmetic) : Prop :=
  ∃ d, grammar.Fits input [nonterminal (expressionAt level)] start stop [d] ∧
    ofTree (grammar.tree d) = some e

theorem ofTree_lift (n : Nat) (d : Derivation Nonterminal Token Tag) (k : Nat) :
    ofTree (grammar.tree (lift n start stop d k)) = ofTree (grammar.tree d) := by
  induction k with
  | zero => rfl
  | succ k ih =>
    rw [lift, tree, if_neg (by simp [grammar, isList_expressionAt])]
    exact ih

/-- An expression stands wherever a larger one can. -/
theorem IsParsed.mono {level level' : Nat} {e : Arithmetic}
    (h : IsParsed input level start stop e) (hlevel : 1 ≤ level) (hle : level ≤ level')
    (hlevel' : level' ≤ 18) : IsParsed input level' start stop e := by
  obtain ⟨d, hd, htree⟩ := h
  obtain ⟨k, rfl⟩ := Nat.exists_eq_add_of_le hle
  exact ⟨_, fits_lift hlevel hd hlevel', (ofTree_lift level d k).trans htree⟩

/-- Whether a punctuator is no digraph, so that it reads as it is spelled. -/
def IsPlain (spelling : String) : Prop :=
  Token.plainSpelling (Bytes.ofString spelling) = Bytes.ofString spelling

instance (spelling : String) : Decidable (IsPlain spelling) :=
  inferInstanceAs (Decidable (_ = _))

theorem exists_of_spells_symbol {spelling : String}
    (h : Spells input start stop (Word.symbol spelling :: words)) (hplain : IsPlain spelling) :
    ∃ t, input[start]? = some t ∧
      (Terminal.literal (Bytes.ofString spelling)).accepts t = true ∧
        Spells input (start + 1) stop words := by
  generalize hword : Word.symbol spelling = word at h
  cases h with
  | @cons t _ _ _ get rest =>
    obtain ⟨hkind, htext⟩ := Prod.mk.inj hword.symm
    refine ⟨t, get, ?_, rest⟩
    change t.isSpelled (Bytes.ofString spelling) = true
    rw [IsPlain] at hplain
    simp [Token.isSpelled, Token.canonical, hkind, htext, hplain]

theorem exists_of_spells_singleton {kind : Lexeme.Kind} {text : Bytes}
    (h : Spells input start stop [(kind, text)]) :
    ∃ t, input[start]? = some t ∧ t.kind = kind ∧ t.text = text ∧ stop = start + 1 := by
  generalize hword : (kind, text) = word at h
  cases h with
  | @cons t _ _ _ get rest =>
    cases rest
    obtain ⟨hkind, htext⟩ := Prod.mk.inj hword.symm
    exact ⟨t, get, hkind, htext, rfl⟩

/-- The expression that a production derives is that of its parts. -/
theorem isParsed_node {level : Nat} {p : Production Nonterminal Token Tag}
    (mem : p ∈ (rule (expressionAt level)).productions)
    {children : List (Derivation Nonterminal Token Tag)}
    (fits : grammar.Fits input p.symbols start stop children) {e : Arithmetic}
    (h : ofTree (.node (expressionAt level) p.tag start stop (grammar.treesOfList children)) =
      some e) : IsParsed input level start stop e := by
  refine ⟨_, .nonterminal mem fits (.nil stop), ?_⟩
  rwa [tree, if_neg (by simp [grammar, isList_expressionAt])]

/-! ## Every construction stands at its level -/

theorem isParsed_number {text : Bytes} (h : Spells input start stop [(.number, text)]) :
    IsParsed input 1 start stop (.number text) := by
  obtain ⟨t, get, hkind, rfl, rfl⟩ := exists_of_spells_singleton h
  have hmem : ⟨.number, [such Token.isNumber]⟩ ∈ (rule primaryExpression).productions :=
    .tail _ (.head _)
  have ht : (Terminal.satisfying Token.isNumber).accepts t = true := decide_eq_true hkind
  exact isParsed_node hmem (.terminal get ht (.nil _)) rfl

theorem isParsed_character {text : Bytes} (h : Spells input start stop [(.character, text)]) :
    IsParsed input 1 start stop (.character text) := by
  obtain ⟨t, get, hkind, rfl, rfl⟩ := exists_of_spells_singleton h
  have hmem : ⟨.character, [such Token.isCharacter]⟩ ∈ (rule primaryExpression).productions :=
    .tail _ (.tail _ (.head _))
  have ht : (Terminal.satisfying Token.isCharacter).accepts t = true := decide_eq_true hkind
  exact isParsed_node hmem (.terminal get ht (.nil _)) rfl

theorem isParsed_unary {operator : UnaryOperator} {e : Arithmetic}
    (h : Spells input start stop (Word.symbol operator.spelling :: words))
    (he : ∀ {start}, Spells input start stop words → IsParsed input 4 start stop e) :
    IsParsed input 3 start stop (.unary operator e) := by
  have hplain : IsPlain operator.spelling := by cases operator <;> decide
  have hmem : ⟨.unary operator, [spelled operator.spelling, nonterminal castExpression]⟩ ∈
      (rule unaryExpression).productions := by
    cases operator <;> simp [rule, unaryOperators, UnaryOperator.spelling]
  obtain ⟨t, get, ht, hwords⟩ := exists_of_spells_symbol h hplain
  obtain ⟨d, hd, htree⟩ := he hwords
  refine isParsed_node hmem (.terminal get ht hd) ?_
  simp [treesOfList, tree, ofTree, htree]

theorem isParsed_binary {operator : BinaryOperator} {l r : Arithmetic} {left right : List Word}
    (h : Spells input start stop (left ++ Word.symbol operator.spelling :: right))
    (hl : ∀ {stop}, Spells input start stop left →
      IsParsed input operator.level start stop l)
    (hr : ∀ {start}, Spells input start stop right →
      IsParsed input (operator.level - 1) start stop r) :
    IsParsed input operator.level start stop (.binary operator l r) := by
  have hplain : IsPlain operator.spelling := by cases operator <;> decide
  have hmem : ⟨.binary operator, [nonterminal (expressionAt operator.level),
      spelled operator.spelling, nonterminal (expressionAt (operator.level - 1))]⟩ ∈
        (rule (expressionAt operator.level)).productions := by
    cases operator <;>
      simp [rule, binaryLevel, expressionAt, BinaryOperator.level, BinaryOperator.spelling]
  obtain ⟨middle, hleft, hwords⟩ := spells_append h
  obtain ⟨t, get, ht, hright⟩ := exists_of_spells_symbol hwords hplain
  obtain ⟨d, hd, htree⟩ := hl hleft
  obtain ⟨d', hd', htree'⟩ := hr hright
  refine isParsed_node hmem (hd.append (.terminal get ht hd')) ?_
  simp [treesOfList, tree, ofTree, htree, htree']

theorem isParsed_conditional {c y n : Arithmetic} {condition yes no : List Word}
    (h : Spells input start stop
      (condition ++ Word.symbol "?" :: (yes ++ Word.symbol ":" :: no)))
    (hc : ∀ {stop}, Spells input start stop condition → IsParsed input 14 start stop c)
    (hy : ∀ {start stop}, Spells input start stop yes → IsParsed input 17 start stop y)
    (hn : ∀ {start}, Spells input start stop no → IsParsed input 15 start stop n) :
    IsParsed input 15 start stop (.conditional c y n) := by
  obtain ⟨middle, hcondition, hwords⟩ := spells_append h
  obtain ⟨t, get, ht, hwords⟩ := exists_of_spells_symbol hwords (by decide)
  obtain ⟨middle', hyes, hwords⟩ := spells_append hwords
  obtain ⟨t', get', ht', hno⟩ := exists_of_spells_symbol hwords (by decide)
  obtain ⟨d, hd, htree⟩ := hc hcondition
  obtain ⟨d', hd', htree'⟩ := hy hyes
  obtain ⟨d'', hd'', htree''⟩ := hn hno
  have hmem : ⟨.conditional, [nonterminal logicalOrExpression, spelled "?", nonterminal expression,
      spelled ":", nonterminal conditionalExpression]⟩ ∈
        (rule conditionalExpression).productions := .tail _ (.head _)
  refine isParsed_node hmem
    (hd.append (.terminal get ht (hd'.append (.terminal get' ht' hd'')))) ?_
  simp [treesOfList, tree, ofTree, htree, htree', htree'']

/-- Parentheses make a primary expression of any expression. -/
theorem isParsed_parenthesized {e : Arithmetic}
    (h : Spells input start stop (Word.symbol "(" :: words ++ [Word.symbol ")"]))
    (he : ∀ {start stop}, Spells input start stop words → IsParsed input 17 start stop e) :
    IsParsed input 1 start stop e := by
  rw [List.cons_append] at h
  obtain ⟨t, get, ht, hrest⟩ := exists_of_spells_symbol h (by decide)
  obtain ⟨middle, hwords, hclose⟩ := spells_append hrest
  obtain ⟨t', get', ht', hnil⟩ := exists_of_spells_symbol hclose (by decide)
  cases hnil
  obtain ⟨d, hd, htree⟩ := he hwords
  have hmem : ⟨.parenthesized, [spelled "(", nonterminal expression, spelled ")"]⟩ ∈
      (rule primaryExpression).productions := .tail _ (.tail _ (.tail _ (.tail _ (.head _))))
  refine isParsed_node hmem (.terminal get ht (hd.append (.terminal get' ht' (.nil _)))) ?_
  simp [treesOfList, tree, ofTree, htree]

/-! ## Every expression stands at every position -/

theorem isParsed_enclosed {e : Arithmetic} {position : Nat}
    (hposition : 1 ≤ position) (hle : position ≤ 17)
    (h : Spells input start stop (enclosed (position < e.level) words))
    (he : ∀ {start stop}, Spells input start stop words → IsParsed input e.level start stop e) :
    IsParsed input position start stop e := by
  unfold enclosed at h
  split at h
  · refine (isParsed_parenthesized h fun hwords => ?_).mono (Nat.le_refl 1) hposition (by omega)
    exact (he hwords).mono e.one_le_level (Nat.le_trans e.level_le (by decide)) (by decide)
  · next hneeded =>
    have hlevel : e.level ≤ position := by simpa using hneeded
    exact (he h).mono e.one_le_level hlevel (by omega)

/-- **An expression that is written at a position can be parsed there.** -/
theorem isParsed_write (e : Arithmetic) {position : Nat} (hposition : 1 ≤ position)
    (hle : position ≤ 17) (h : Spells input start stop (e.write position)) :
    IsParsed input position start stop e := by
  induction e generalizing position start stop with
  | number text => exact isParsed_enclosed hposition hle h isParsed_number
  | character text => exact isParsed_enclosed hposition hle h isParsed_character
  | unary operator e ih =>
    refine isParsed_enclosed hposition hle h fun hwords => ?_
    exact isParsed_unary hwords (ih (by decide) (by decide))
  | binary operator l r ihl ihr =>
    refine isParsed_enclosed hposition hle h fun hwords => ?_
    have ⟨hmin, hmax⟩ := operator.level_bounds
    exact isParsed_binary hwords (ihl (by omega) (by omega)) (ihr (by omega) (by omega))
  | conditional c y n ihc ihy ihn =>
    refine isParsed_enclosed hposition hle h fun hwords => ?_
    exact isParsed_conditional hwords (ihc (by decide) (by decide)) (ihy (by decide) (by decide))
      (ihn (by decide) (by decide))

theorem forall_kind_enclosed {needed : Bool} :
    (∀ word ∈ enclosed needed words, word.1 ≠ .identifier) ↔
      ∀ word ∈ words, word.1 ≠ .identifier := by
  cases needed with
  | false => exact Iff.rfl
  | true =>
    rw [enclosed, if_pos rfl, List.forall_mem_append, List.forall_mem_cons,
      List.forall_mem_singleton]
    exact ⟨fun h => h.1.2, fun h => ⟨⟨nofun, h⟩, nofun⟩⟩

/-- Expressions are written without identifiers. -/
theorem forall_kind_write (e : Arithmetic) (position : Nat) :
    ∀ word ∈ e.write position, word.1 ≠ .identifier := by
  induction e generalizing position with
  | number text | character text => exact forall_kind_enclosed.2 (by simp)
  | unary operator e ih =>
    exact forall_kind_enclosed.2 (List.forall_mem_cons.2 ⟨nofun, ih 4⟩)
  | binary operator l r ihl ihr =>
    refine forall_kind_enclosed.2 (List.forall_mem_append.2 ⟨ihl _, ?_⟩)
    exact List.forall_mem_cons.2 ⟨nofun, ihr _⟩
  | conditional c y n ihc ihy ihn =>
    refine forall_kind_enclosed.2 (List.forall_mem_append.2 ⟨ihc _, ?_⟩)
    refine List.forall_mem_cons.2 ⟨nofun, List.forall_mem_append.2 ⟨ihy _, ?_⟩⟩
    exact List.forall_mem_cons.2 ⟨nofun, ihn _⟩

/-- **Precedence and associativity are those of C.** An expression that is written with as few
parentheses as its operators allow is parsed, and its tree is that of the expression. -/
theorem parse_write (e : Arithmetic) {input : List Token}
    (h : input.map Word.ofToken = e.write 17) :
    ∃ tree, grammar.parse constantExpression input = some tree ∧ ofTree tree = some e := by
  have hinput : WellKinded input := fun t ht hkind =>
    absurd hkind (forall_kind_write e 17 (Word.ofToken t) (h ▸ List.mem_map_of_mem ht))
  have hspells : Spells input 0 input.length (e.write 17) := h ▸ spells_of_append [] rfl
  obtain ⟨d, hd, htree⟩ :=
    (isParsed_write e (by decide) (by decide) hspells).mono (by decide) (by decide) (Nat.le_refl 18)
  exact ⟨_, parse_eq_of_fits hinput (by decide) hd, htree⟩

/-- `1-2-(3-4)?5:~6*7`, of which only the difference on the right needs parentheses. -/
theorem parse_write_differences :
    let number (text : String) : Arithmetic := .number (Bytes.ofString text)
    let e : Arithmetic :=
      .conditional
        (.binary .subtract (.binary .subtract (number "1") (number "2"))
          (.binary .subtract (number "3") (number "4")))
        (number "5")
        (.binary .multiply (.unary .complement (number "6")) (number "7"))
    let input := Token.lex (Bytes.ofString "1-2-(3-4)?5:~6*7")
    input.map Word.ofToken = e.write 17 ∧
      ∃ tree, grammar.parse constantExpression input = some tree ∧ ofTree tree = some e := by
  intro number e input
  have h : input.map Word.ofToken = e.write 17 := by decide +kernel
  exact ⟨h, parse_write e h⟩

end Phrase

end CPreprocessor
