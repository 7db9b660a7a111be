import CPreprocessor.Proofs.Directive
import CPreprocessor.Proofs.Grammar.Cover
import CPreprocessor.Proofs.Phrase.Unambiguous

/-!
# The trees of directives

A directive can be taken from its parse tree (`Phrase.directiveOfTrees`): its tag is that of the
production, and its operands are the leaves of subtrees. Whatever the production is, the directive
is the one that is read from the line (`Phrase.isRead_of_mem`).

Most directives are members of one of three families: any tokens may follow their name, or an
identifier and any tokens, or at least one token. Only definitions of macros have forms of their
own.
-/

namespace CPreprocessor

open Grammar GrammarSymbol Nonterminal

namespace Directive

/-- The tag of the productions that a directive is derived by. -/
def tag : Directive → Tag
  | .ifExpression _ => .ifExpression
  | .elifExpression _ => .elifExpression
  | .ifDefined _ _ => .ifDefined
  | .ifNotDefined _ _ => .ifNotDefined
  | .elseGroup _ => .elseGroup
  | .endIf _ => .endIf
  | .inclusion _ => .inclusion
  | .defineObject _ _ => .defineObject
  | .defineFunction _ _ false _ => .defineFunction
  | .defineFunction _ _ true _ => .defineVariadic
  | .undefine _ _ => .undefine
  | .line _ => .line
  | .error _ => .error
  | .pragma _ => .pragma
  | .null => .null
  | .nonDirective _ => .nonDirective

/-- The operands and the tail of a directive without a parameter list. -/
def operands : Directive → List Token
  | .ifExpression text | .elifExpression text | .elseGroup text | .endIf text | .inclusion text
  | .line text | .error text | .pragma text | .nonDirective text => text
  | .ifDefined name tail | .ifNotDefined name tail | .undefine name tail
  | .defineObject name tail => name :: tail
  | .defineFunction name _ _ replacement => name :: replacement
  | .null => []

/-- A directive is made of the tokens of a line, none of which is left out or moved. -/
def TakesFrom (line : List Token) : Directive → Prop
  | .null => ∃ hash, line = [hash]
  | .nonDirective text => ∃ hash, line = hash :: text
  | .defineFunction name parameters variadic replacement => ∃ hash define opening word closing,
      line = hash :: define :: name :: opening :: (word ++ closing :: replacement) ∧
        IsParameterList word parameters variadic
  | d => ∃ hash name, line = hash :: name :: d.operands

end Directive

namespace Phrase

abbrev PhraseTree := Tree Nonterminal Token Tag

/-! ## Directives of parse trees -/

/-- The tokens of the subtree at an index, if there is one. -/
def subtree (trees : List PhraseTree) (i : Nat) : List Token :=
  match trees[i]? with
  | some (.node _ _ _ _ children) => Tree.leavesOfList children
  | _ => []

/-- The token at an index, if there is one. -/
def leafAt (trees : List PhraseTree) (i : Nat) : Option Token :=
  match trees[i]? with
  | some (.leaf t) => some t
  | _ => none

/-- Whether a tree is one of a nonterminal. -/
def isPart (r : Nonterminal) : PhraseTree → Bool
  | .leaf _ => false
  | .node r' _ _ _ _ => decide (r' = r)

/-- The tokens of the first subtree of a nonterminal, if there is one. -/
def partOf (r : Nonterminal) (trees : List PhraseTree) : List Token :=
  ((trees.find? (isPart r)).map Tree.leaves).getD []

/-- The directive that a parse tree with the given subtrees is. -/
def directiveOfTrees (trees : List PhraseTree) : Tag → Option Directive
  | .ifExpression => some (.ifExpression (subtree trees 2))
  | .elifExpression => some (.elifExpression (subtree trees 2))
  | .ifDefined => (leafAt trees 2).map fun name => .ifDefined name (subtree trees 3)
  | .ifNotDefined => (leafAt trees 2).map fun name => .ifNotDefined name (subtree trees 3)
  | .elseGroup => some (.elseGroup (subtree trees 2))
  | .endIf => some (.endIf (subtree trees 2))
  | .inclusion => some (.inclusion (subtree trees 2))
  | .defineObject =>
    (leafAt trees 2).map fun name => .defineObject name (partOf replacementList trees)
  | .defineFunction => (leafAt trees 2).map fun name =>
      .defineFunction name (partOf identifierList trees) false (partOf tokens trees)
  | .defineVariadic => (leafAt trees 2).map fun name =>
      .defineFunction name (partOf identifierList trees) true (partOf tokens trees)
  | .undefine => (leafAt trees 2).map fun name => .undefine name (subtree trees 3)
  | .line => some (.line (subtree trees 2))
  | .error => some (.error (subtree trees 2))
  | .pragma => some (.pragma (subtree trees 2))
  | .null => some .null
  | .nonDirective => (leafAt trees 1).map fun name => .nonDirective (name :: subtree trees 2)
  | _ => none

/-! ## Tokens by their spelling -/

section

variable {t : Token} (ht : t.IsProper)
include ht

theorem isPunctuator_of_isSpelled {word : Bytes} (hword : word ∈ Lexeme.punctuators)
    (h : t.isSpelled word = true) : t.isPunctuator word = true := by
  simp only [Token.isSpelled, Bool.and_eq_true, Bool.or_eq_true, decide_eq_true_eq] at h
  obtain ⟨hkind, rfl⟩ := h
  rcases hkind with hkind | hkind
  · have htext : t.canonical = t.text := by simp [Token.canonical, hkind]
    rw [htext] at hword
    exact absurd hword (wellKinded_of_isProper (List.forall_mem_singleton.2 ht) t
      List.mem_cons_self hkind)
  · simp [Token.isPunctuator, hkind]

theorem isIdentifier_of_isSpelled {word : Bytes}
    (hword : ∀ text ∈ Lexeme.punctuators, Token.plainSpelling text ≠ word)
    (h : t.isSpelled word = true) : t.isIdentifier = true ∧ t.text = word := by
  simp only [Token.isSpelled, Bool.and_eq_true, Bool.or_eq_true, decide_eq_true_eq] at h
  obtain ⟨hkind, rfl⟩ := h
  rcases hkind with hkind | hkind
  · exact ⟨by simp [Token.isIdentifier, hkind], by simp [Token.canonical, hkind]⟩
  · have hmem : t.text ∈ t.kind.language := ht.mem (by simp [hkind])
    rw [hkind] at hmem
    exact absurd (by simp [Token.canonical, hkind]) (hword t.text hmem)

end

theorem isSpelled_of_isIdentifier {t : Token} (h : t.isIdentifier = true) :
    t.isSpelled t.text = true := by
  have hkind : t.kind = .identifier := of_decide_eq_true h
  simp [Token.isSpelled, Token.canonical, hkind]

theorem isSpelled_of_isPunctuator {t : Token} {word : Bytes} (h : t.isPunctuator word = true) :
    t.isSpelled word = true := by
  simp only [Token.isPunctuator, Bool.and_eq_true, decide_eq_true_eq] at h
  simp [Token.isSpelled, h.1, h.2]

/-! ## Families of directives -/

/-- The directives that any tokens may follow. -/
def tailed : List (String × Tag × (List Token → Directive)) :=
  [("if", .ifExpression, .ifExpression), ("elif", .elifExpression, .elifExpression),
    ("else", .elseGroup, .elseGroup), ("endif", .endIf, .endIf), ("error", .error, .error),
    ("pragma", .pragma, .pragma)]

/-- The directives of an identifier that any tokens may follow. -/
def named : List (String × Tag × (Token → List Token → Directive)) :=
  [("ifdef", .ifDefined, .ifDefined), ("ifndef", .ifNotDefined, .ifNotDefined),
    ("undef", .undefine, .undefine)]

/-- The directives of at least one token. -/
def operated : List (String × Tag × (List Token → Directive)) :=
  [("include", .inclusion, .inclusion), ("line", .line, .line)]

/-- What can stand between the parentheses of a definition. -/
def parameterForms : List (Tag × Symbols) :=
  [(.defineFunction, []), (.defineFunction, [nonterminal identifierList]),
    (.defineVariadic, [spelled "..."]),
    (.defineVariadic, [nonterminal identifierList, spelled ",", spelled "..."])]

/-- The symbols after the name of a definition with parameters. -/
def afterDefine (inner : Symbols) : Symbols :=
  such Token.isIdentifier :: such Token.opensParameters :: (inner ++ [spelled ")"])

/-- The readers are those of the families and that of definitions. -/
theorem mem_readers_iff {name : String} {read : List Token → Option Directive} :
    (name, read) ∈ Directive.readers ↔
      (∃ tag f, (name, tag, f) ∈ tailed ∧ read = fun text => some (f text)) ∨
      (∃ tag f, (name, tag, f) ∈ named ∧
        read = Directive.withIdentifier fun t tail => some (f t tail)) ∨
      (∃ tag f, (name, tag, f) ∈ operated ∧ read = Directive.withOperand f) ∨
      name = "define" ∧ read = Directive.withIdentifier Directive.definition := by
  simp only [Directive.readers, tailed, named, operated, List.mem_cons, Prod.mk.injEq,
    List.not_mem_nil, or_false, or_and_right, exists_or, and_assoc, exists_and_left, exists_eq_left]
  rw [← eq_iff_iff]
  ac_rfl

/-- The productions are those of the families, those of definitions and those without a name. -/
theorem mem_directives_iff {p : Production Nonterminal Token Tag} :
    p ∈ directives ↔
      (∃ name tag f, (name, tag, f) ∈ tailed ∧ p ∈ directiveWithTail tag name []) ∨
      (∃ name tag f, (name, tag, f) ∈ named ∧
        p ∈ directiveWithTail tag name [such Token.isIdentifier]) ∨
      (∃ name tag f, (name, tag, f) ∈ operated ∧ p = directiveOf tag name [nonterminal tokens]) ∨
      p = directiveOf .defineObject "define" [such Token.isIdentifier] ∨
      p = directiveOf .defineObject "define"
        [such Token.isIdentifier, nonterminal replacementList] ∨
      (∃ tag inner, (tag, inner) ∈ parameterForms ∧
        p ∈ directiveWithTail tag "define" (afterDefine inner)) ∨
      p = ⟨.null, [spelled "#"]⟩ ∨
      p = ⟨.nonDirective, [spelled "#", such Token.isNoDirectiveName]⟩ ∨
      p = ⟨.nonDirective, [spelled "#", such Token.isNoDirectiveName, nonterminal tokens]⟩ := by
  simp only [directives, tailed, named, operated, parameterForms, afterDefine, List.mem_append,
    List.mem_cons, Prod.mk.injEq, List.not_mem_nil, or_false, or_and_right, exists_or, and_assoc,
    exists_and_left, exists_eq_left, List.cons_append, List.nil_append]
  rw [← eq_iff_iff]
  ac_rfl

theorem of_mem_tailed_append {name : String} {tag : Tag} {f : List Token → Directive}
    (mem : (name, tag, f) ∈ tailed ++ operated) (text : List Token) :
    (f text).tag = tag ∧ (∀ hash name, (f text).TakesFrom (hash :: name :: text)) ∧
      ∀ trees, directiveOfTrees trees tag = some (f (subtree trees 2)) := by
  simp only [tailed, operated, List.cons_append, List.nil_append, List.mem_cons, Prod.mk.injEq,
    List.not_mem_nil, or_false] at mem
  obtain ⟨-, rfl, rfl⟩ | ⟨-, rfl, rfl⟩ | ⟨-, rfl, rfl⟩ | ⟨-, rfl, rfl⟩ | ⟨-, rfl, rfl⟩ |
    ⟨-, rfl, rfl⟩ | ⟨-, rfl, rfl⟩ | ⟨-, rfl, rfl⟩ := mem <;>
    exact ⟨rfl, fun hash name => ⟨hash, name, rfl⟩, fun _ => rfl⟩

theorem of_mem_named {name : String} {tag : Tag} {f : Token → List Token → Directive}
    (mem : (name, tag, f) ∈ named) (t : Token) (tail : List Token) :
    (f t tail).tag = tag ∧ (∀ hash name, (f t tail).TakesFrom (hash :: name :: t :: tail)) ∧
      ∀ trees, directiveOfTrees trees tag =
        (leafAt trees 2).map fun t => f t (subtree trees 3) := by
  simp only [named, List.mem_cons, Prod.mk.injEq, List.not_mem_nil, or_false] at mem
  obtain ⟨-, rfl, rfl⟩ | ⟨-, rfl, rfl⟩ | ⟨-, rfl, rfl⟩ := mem <;>
    exact ⟨rfl, fun hash name => ⟨hash, name, rfl⟩, fun _ => rfl⟩

/-! ## The parts of directives -/

/-- A tree of a row of tokens. -/
def IsTokens (tree : PhraseTree) (word : List Token) : Prop :=
  word ≠ [] ∧ ∃ start stop, tree = .node tokens .next start stop (word.map .leaf)

/-- A tree of parameters, and the parameters with the commas between them. -/
def IsParameters (tree : PhraseTree) (word : List Token) : Prop :=
  ∃ names start stop, Directive.IsNames word names ∧
    tree = .node identifierList .next start stop (names.map .leaf)

/-- A tree of a replacement list. -/
def IsReplacement (tree : PhraseTree) (word : List Token) : Prop :=
  (∃ t rest, word = t :: rest ∧ t.opensParameters = false) ∧
    ∃ start stop trees, tree = .node replacementList .next start stop trees ∧
      Tree.leavesOfList trees = word

/-- What the trees of the parts of directives are. -/
def Describes : Nonterminal → PhraseTree → List Token → Prop
  | tokens => IsTokens
  | identifierList => fun tree word => (∀ t ∈ word, t.IsProper) → IsParameters tree word
  | replacementList => IsReplacement
  | _ => fun _ _ => True

section

variable {p : Production Nonterminal Token Tag} {start stop : Nat} {trees : List PhraseTree}
  {word line : List Token}

theorem isTokens_nodeOf (hp : p ∈ (rule tokens).productions)
    (h : Covers Describes p.symbols trees word) :
    IsTokens (grammar.nodeOf tokens p start stop trees) word := by
  simp only [rule, sequenceOf, List.mem_cons, List.not_mem_nil, or_false] at hp
  rw [nodeOf_eq_listNode rfl]
  obtain rfl | rfl := hp
  · obtain ⟨tree, _, u, _, rfl, rfl, ⟨hne, start', stop', rfl⟩, hlast⟩ :=
      covers_nonterminal_iff.1 h
    obtain ⟨t, rfl, rfl, -⟩ := covers_terminal_singleton_iff.1 hlast
    refine ⟨by simp, start, stop, ?_⟩
    rw [List.map_append]
    rfl
  · obtain ⟨t, rfl, rfl, -⟩ := covers_terminal_singleton_iff.1 h
    exact ⟨List.cons_ne_nil _ _, start, stop, listNode_of_head_ne (by simp [such])⟩

theorem isParameters_nodeOf (hword : ∀ t ∈ word, t.IsProper)
    (hp : p ∈ (rule identifierList).productions) (h : Covers Describes p.symbols trees word) :
    IsParameters (grammar.nodeOf identifierList p start stop trees) word := by
  simp only [rule, List.mem_cons, List.not_mem_nil, or_false] at hp
  rw [nodeOf_eq_listNode rfl]
  obtain rfl | rfl := hp
  · obtain ⟨tree, _, u, _, rfl, rfl, hlist, hlast⟩ := covers_nonterminal_iff.1 h
    obtain ⟨comma, _, _, rfl, rfl, hcomma, hlast⟩ := covers_terminal_iff.1 hlast
    obtain ⟨t, rfl, rfl, ht⟩ := covers_terminal_singleton_iff.1 hlast
    obtain ⟨hu, hlast⟩ := List.forall_mem_append.1 hword
    obtain ⟨names, start', stop', hnames, rfl⟩ := hlist hu
    refine ⟨names ++ [t], start, stop, hnames.append
      (isPunctuator_of_isSpelled (hlast comma List.mem_cons_self) (by decide) hcomma) ht, ?_⟩
    rw [List.map_append]
    rfl
  · obtain ⟨t, rfl, rfl, ht⟩ := covers_terminal_singleton_iff.1 h
    exact ⟨[t], start, stop, .one ht, listNode_of_head_ne (by simp [such])⟩

theorem isReplacement_nodeOf (hp : p ∈ (rule replacementList).productions)
    (h : Covers Describes p.symbols trees word) :
    IsReplacement (grammar.nodeOf replacementList p start stop trees) word := by
  have hopens {t : Token} (ht : (!t.opensParameters) = true) : t.opensParameters = false := by
    simpa using ht
  simp only [rule, List.mem_cons, List.not_mem_nil, or_false] at hp
  rw [nodeOf_eq_node rfl]
  obtain rfl | rfl := hp
  · obtain ⟨t, rfl, rfl, ht⟩ := covers_terminal_singleton_iff.1 h
    exact ⟨⟨t, [], rfl, hopens ht⟩, start, stop, _, rfl, rfl⟩
  · obtain ⟨t, _, _, rfl, rfl, ht, hrest⟩ := covers_terminal_iff.1 h
    obtain ⟨_, rfl, -, start', stop', rfl⟩ := covers_nonterminal_singleton_iff.1 hrest
    refine ⟨⟨t, _, rfl, hopens ht⟩, start, stop, _, rfl, ?_⟩
    simp [Tree.leavesOfList, Tree.leaves, Tree.leavesOfList_map_leaf]

/-- The node of a production is what the trees of its nonterminal are. -/
theorem describes_nodeOf {r : Nonterminal} (hp : p ∈ (rule r).productions)
    (h : Covers Describes p.symbols trees word) :
    Describes r (grammar.nodeOf r p start stop trees) word := by
  cases r with
  | tokens => exact isTokens_nodeOf hp h
  | identifierList => exact fun hword => isParameters_nodeOf hword hp h
  | replacementList => exact isReplacement_nodeOf hp h
  | _ => exact trivial

/-! ## The subtrees of a tree -/

/-- The trees of the tokens after the operands of a directive: one tree or none. -/
def IsTail (back : List PhraseTree) (tail : List Token) : Prop :=
  back = [] ∧ tail = [] ∨ ∃ tree, back = [tree] ∧ IsTokens tree tail

variable {front back : List PhraseTree} {tail : List Token} {r : Nonterminal}

theorem IsTail.subtree_append (h : IsTail back tail) (front : List PhraseTree) :
    subtree (front ++ back) front.length = tail := by
  obtain ⟨rfl, rfl⟩ | ⟨tree, rfl, -, start, stop, rfl⟩ := h
  · simp [subtree]
  · simp [subtree, Tree.leavesOfList_map_leaf]

theorem IsTail.partOf_eq (h : IsTail back tail) : partOf tokens back = tail := by
  obtain ⟨rfl, rfl⟩ | ⟨tree, rfl, -, start, stop, rfl⟩ := h
  · rfl
  · exact Tree.leavesOfList_map_leaf tail

theorem IsTail.isPart_eq_false (h : IsTail back tail) (hr : r ≠ tokens) :
    ∀ tree ∈ back, isPart r tree = false := by
  obtain ⟨rfl, rfl⟩ | ⟨tree, rfl, -, start, stop, rfl⟩ := h
  · exact nofun
  · exact List.forall_mem_singleton.2 (decide_eq_false hr.symm)

theorem partOf_append_left (h : ∀ tree ∈ back, isPart r tree = false) :
    partOf r (front ++ back) = partOf r front := by
  have hnone : back.find? (isPart r) = none := List.find?_eq_none.2 fun tree htree => by
    simp [h tree htree]
  rw [partOf, partOf, List.find?_append, hnone, Option.or_none]

theorem partOf_append_right (h : ∀ tree ∈ front, isPart r tree = false) :
    partOf r (front ++ back) = partOf r back := by
  have hnone : front.find? (isPart r) = none := List.find?_eq_none.2 fun tree htree => by
    simp [h tree htree]
  rw [partOf, partOf, List.find?_append, hnone, Option.none_or]

/-! ## Every production is read as the line is -/

/-- A line that is derived by a production is read as what the production says. -/
def IsRead (p : Production Nonterminal Token Tag) : Prop :=
  ∀ trees line, (∀ t ∈ line, t.IsProper) → Covers Describes p.symbols trees line →
    ∃ d, Directive.ofTokens line = some d ∧ d.tag = p.tag ∧ directiveOfTrees trees p.tag = some d ∧
      d.TakesFrom line

/-- No punctuator reads as the name of a directive. -/
theorem plainSpelling_ne {name : String} {read : List Token → Option Directive}
    (mem : (name, read) ∈ Directive.readers) :
    ∀ text ∈ Lexeme.punctuators, Token.plainSpelling text ≠ Bytes.ofString name := by
  have hall : ∀ name ∈ Directive.readers.map Prod.fst, ∀ text ∈ Lexeme.punctuators,
      Token.plainSpelling text ≠ Bytes.ofString name := by decide +kernel
  exact hall name (List.mem_map_of_mem mem)

variable {tag : Tag} {name : String} {symbols : Symbols} {read : List Token → Option Directive}

/-- The name of a directive tells how the line is read. -/
theorem exists_of_directiveOf (hline : ∀ t ∈ line, t.IsProper)
    (mem : (name, read) ∈ Directive.readers)
    (h : Covers Describes (directiveOf tag name symbols).symbols trees line) :
    ∃ hash first trees' after, trees = .leaf hash :: .leaf first :: trees' ∧
      line = hash :: first :: after ∧ Directive.ofTokens line = read after ∧
        Covers Describes symbols trees' after := by
  obtain ⟨hash, _, _, rfl, rfl, -, hrest⟩ := covers_terminal_iff.1 h
  obtain ⟨first, trees', after, rfl, rfl, hfirst, hafter⟩ := covers_terminal_iff.1 hrest
  obtain ⟨hident, htext⟩ := isIdentifier_of_isSpelled (hline first (by simp))
    (plainSpelling_ne mem) hfirst
  refine ⟨hash, first, trees', after, rfl, rfl, ?_, hafter⟩
  rw [Directive.ofTokens, Directive.reader?_eq_of_mem hident mem htext]

theorem exists_of_directiveWithTail (hline : ∀ t ∈ line, t.IsProper)
    (mem : (name, read) ∈ Directive.readers) (hp : p ∈ directiveWithTail tag name symbols)
    (h : Covers Describes p.symbols trees line) :
    p.tag = tag ∧ ∃ hash first front back u tail,
      trees = .leaf hash :: .leaf first :: (front ++ back) ∧ line = hash :: first :: (u ++ tail) ∧
        Directive.ofTokens line = read (u ++ tail) ∧ Covers Describes symbols front u ∧
          IsTail back tail := by
  simp only [directiveWithTail, List.mem_cons, List.not_mem_nil, or_false] at hp
  obtain rfl | rfl := hp
  · obtain ⟨hash, first, front, u, rfl, rfl, hread, hfront⟩ := exists_of_directiveOf hline mem h
    refine ⟨rfl, hash, first, front, [], u, [], ?_, ?_, ?_, hfront, .inl ⟨rfl, rfl⟩⟩
    · rw [List.append_nil]
    · rw [List.append_nil]
    · rw [List.append_nil, hread]
  · obtain ⟨hash, first, _, _, rfl, rfl, hread, hall⟩ := exists_of_directiveOf hline mem h
    obtain ⟨front, back, u, tail, rfl, rfl, hfront, hback⟩ := covers_append_iff.1 hall
    obtain ⟨tree, rfl, htree⟩ := covers_nonterminal_singleton_iff.1 hback
    exact ⟨rfl, hash, first, front, [tree], u, tail, rfl, rfl, hread, hfront,
      .inr ⟨tree, rfl, htree⟩⟩

theorem isRead_tailed {f : List Token → Directive} (mem : (name, tag, f) ∈ tailed)
    (hp : p ∈ directiveWithTail tag name []) : IsRead p := by
  intro trees line hline h
  obtain ⟨htag, hash, first, front, back, u, tail, rfl, rfl, hread, hfront, htail⟩ :=
    exists_of_directiveWithTail hline (mem_readers_iff.2 (.inl ⟨tag, f, mem, rfl⟩)) hp h
  obtain ⟨rfl, rfl⟩ := covers_nil_iff.1 hfront
  obtain ⟨hf, htakes, htrees⟩ := of_mem_tailed_append (List.mem_append_left _ mem) tail
  refine ⟨f tail, hread, hf.trans htag.symm, ?_, htakes hash first⟩
  rw [htag, htrees]
  exact congrArg (some <| f ·) (htail.subtree_append [.leaf hash, .leaf first])

theorem isRead_named {f : Token → List Token → Directive} (mem : (name, tag, f) ∈ named)
    (hp : p ∈ directiveWithTail tag name [such Token.isIdentifier]) : IsRead p := by
  intro trees line hline h
  obtain ⟨htag, hash, first, front, back, u, tail, rfl, rfl, hread, hfront, htail⟩ :=
    exists_of_directiveWithTail hline (mem_readers_iff.2 (.inr (.inl ⟨tag, f, mem, rfl⟩))) hp h
  obtain ⟨t, rfl, rfl, ht⟩ := covers_terminal_singleton_iff.1 hfront
  obtain ⟨hf, htakes, htrees⟩ := of_mem_named mem t tail
  refine ⟨f t tail, hread.trans (if_pos ht), hf.trans htag.symm, ?_, htakes hash first⟩
  rw [htag, htrees]
  exact congrArg (some <| f t ·) (htail.subtree_append [.leaf hash, .leaf first, .leaf t])

theorem isRead_operated {f : List Token → Directive} (mem : (name, tag, f) ∈ operated) :
    IsRead (directiveOf tag name [nonterminal tokens]) := by
  intro trees line hline h
  obtain ⟨hash, first, _, text, rfl, rfl, hread, hrest⟩ := exists_of_directiveOf hline
    (mem_readers_iff.2 (.inr (.inr (.inl ⟨tag, f, mem, rfl⟩)))) h
  obtain ⟨tree, rfl, htree⟩ := covers_nonterminal_singleton_iff.1 hrest
  obtain ⟨hf, htakes, htrees⟩ := of_mem_tailed_append (List.mem_append_right _ mem) text
  have htail : IsTail [tree] text := .inr ⟨tree, rfl, htree⟩
  have hoperand : Directive.withOperand f text = some (f text) := by
    cases text with
    | nil => exact absurd rfl htree.1
    | cons t rest => rfl
  refine ⟨f text, hread.trans hoperand, hf, ?_, htakes hash first⟩
  exact (htrees _).trans
    (congrArg (some <| f ·) (htail.subtree_append [.leaf hash, .leaf first]))

/-! ## Definitions -/

theorem mem_readers_define :
    ("define", Directive.withIdentifier Directive.definition) ∈ Directive.readers :=
  mem_readers_iff.2 (.inr (.inr (.inr ⟨rfl, rfl⟩)))

theorem isRead_defineName :
    IsRead (directiveOf .defineObject "define" [such Token.isIdentifier]) := by
  intro trees line hline h
  obtain ⟨hash, first, _, _, rfl, rfl, hread, hrest⟩ :=
    exists_of_directiveOf hline mem_readers_define h
  obtain ⟨t, rfl, rfl, ht⟩ := covers_terminal_singleton_iff.1 hrest
  exact ⟨.defineObject t [], hread.trans (if_pos ht), rfl, rfl, hash, first, rfl⟩

theorem isRead_defineObject : IsRead (directiveOf .defineObject "define"
    [such Token.isIdentifier, nonterminal replacementList]) := by
  intro trees line hline h
  obtain ⟨hash, first, _, _, rfl, rfl, hread, hrest⟩ :=
    exists_of_directiveOf hline mem_readers_define h
  obtain ⟨t, _, _, rfl, rfl, ht, hlist⟩ := covers_terminal_iff.1 hrest
  obtain ⟨_, rfl, htree⟩ := covers_nonterminal_singleton_iff.1 hlist
  obtain ⟨⟨u, rest, rfl, hopens⟩, start, stop, trees, rfl, hleaves⟩ := htree
  have hdefinition : Directive.definition t (u :: rest) = some (.defineObject t (u :: rest)) := by
    simp [Directive.definition, hopens]
  refine ⟨.defineObject t (u :: rest), ?_, rfl, ?_, hash, first, rfl⟩
  · exact hread.trans ((if_pos ht).trans hdefinition)
  · exact congrArg (fun replacement => some (Directive.defineObject t replacement)) hleaves

/-- The parameters come before everything else, and the replacement list comes last. -/
theorem directiveOfTrees_define {parameters tail : List Token} (variadic : Bool)
    (hparameters : partOf identifierList front = parameters)
    (hfront : ∀ tree ∈ front, isPart tokens tree = false) (htail : IsTail back tail)
    (hash first t opening closing : Token) :
    directiveOfTrees (.leaf hash :: .leaf first :: .leaf t :: .leaf opening ::
        (front ++ .leaf closing :: back)) (if variadic then .defineVariadic else .defineFunction) =
      some (.defineFunction t parameters variadic tail) := by
  have hfirst : partOf identifierList (front ++ .leaf closing :: back) = parameters := by
    rw [partOf_append_left (List.forall_mem_cons.2 ⟨rfl, htail.isPart_eq_false (by decide)⟩),
      hparameters]
  have hsecond : partOf tokens (front ++ .leaf closing :: back) = tail :=
    (partOf_append_right hfront).trans htail.partOf_eq
  have hdefine (trees : List PhraseTree) :
      directiveOfTrees trees (if variadic then .defineVariadic else .defineFunction) =
        (leafAt trees 2).map fun name =>
          .defineFunction name (partOf identifierList trees) variadic (partOf tokens trees) := by
    cases variadic <;> rfl
  rw [hdefine]
  change some (Directive.defineFunction t (partOf identifierList (front ++ .leaf closing :: back))
    variadic (partOf tokens (front ++ .leaf closing :: back))) = _
  rw [hfirst, hsecond]

/-- Every form of parameters is a parameter list. -/
theorem exists_of_mem_parameterForms {inner : Symbols} (mem : (tag, inner) ∈ parameterForms)
    (hword : ∀ t ∈ word, t.IsProper) (h : Covers Describes inner trees word) :
    ∃ parameters variadic, Directive.IsParameterList word parameters variadic ∧
      (tag = if variadic then .defineVariadic else .defineFunction) ∧
        partOf identifierList trees = parameters ∧ ∀ tree ∈ trees, isPart tokens tree = false := by
  simp only [parameterForms, List.mem_cons, Prod.mk.injEq, List.not_mem_nil, or_false] at mem
  obtain ⟨rfl, rfl⟩ | ⟨rfl, rfl⟩ | ⟨rfl, rfl⟩ | ⟨rfl, rfl⟩ := mem
  · obtain ⟨rfl, rfl⟩ := covers_nil_iff.1 h
    exact ⟨[], false, .empty, rfl, rfl, nofun⟩
  · obtain ⟨tree, rfl, hlist⟩ := covers_nonterminal_singleton_iff.1 h
    obtain ⟨names, start, stop, hnames, rfl⟩ := hlist hword
    exact ⟨names, false, .names hnames, rfl, Tree.leavesOfList_map_leaf names,
      List.forall_mem_singleton.2 rfl⟩
  · obtain ⟨dots, rfl, rfl, hdots⟩ := covers_terminal_singleton_iff.1 h
    have hdots := isPunctuator_of_isSpelled (hword dots List.mem_cons_self) (by decide) hdots
    exact ⟨[], true, .dots hdots, rfl, rfl, List.forall_mem_singleton.2 rfl⟩
  · obtain ⟨tree, _, u, _, rfl, rfl, hlist, hrest⟩ := covers_nonterminal_iff.1 h
    obtain ⟨comma, _, _, rfl, rfl, hcomma, hlast⟩ := covers_terminal_iff.1 hrest
    obtain ⟨dots, rfl, rfl, hdots⟩ := covers_terminal_singleton_iff.1 hlast
    obtain ⟨hu, hends⟩ := List.forall_mem_append.1 hword
    obtain ⟨names, start, stop, hnames, rfl⟩ := hlist hu
    have hcomma := isPunctuator_of_isSpelled (hends comma (by simp)) (by decide) hcomma
    have hdots := isPunctuator_of_isSpelled (hends dots (by simp)) (by decide) hdots
    refine ⟨names, true, .more hnames hcomma hdots, rfl, ?_, by simp [isPart]⟩
    exact Tree.leavesOfList_map_leaf names

theorem isRead_defineFunction {inner : Symbols} (mem : (tag, inner) ∈ parameterForms)
    (hp : p ∈ directiveWithTail tag "define" (afterDefine inner)) : IsRead p := by
  intro trees line hline h
  obtain ⟨htag, hash, first, _, back, _, tail, rfl, rfl, hread, hfront, htail⟩ :=
    exists_of_directiveWithTail hline mem_readers_define hp h
  obtain ⟨t, _, _, rfl, rfl, ht, hrest⟩ := covers_terminal_iff.1 hfront
  obtain ⟨opening, _, _, rfl, rfl, hopens, hrest⟩ := covers_terminal_iff.1 hrest
  obtain ⟨front, _, word, _, rfl, rfl, hinner, hlast⟩ := covers_append_iff.1 hrest
  obtain ⟨closing, rfl, rfl, hclosing⟩ := covers_terminal_singleton_iff.1 hlast
  obtain ⟨parameters, variadic, hlist, rfl, hparameters, hnot⟩ :=
    exists_of_mem_parameterForms mem (fun t ht => hline t (by simp [ht])) hinner
  have hclose : closing.isClose = true :=
    isPunctuator_of_isSpelled (hline closing (by simp)) (by decide) hclosing
  have heq : t :: opening :: (word ++ [closing]) ++ tail =
      t :: opening :: (word ++ closing :: tail) := by simp
  rw [heq] at hread ⊢
  refine ⟨.defineFunction t parameters variadic tail, ?_, ?_, ?_, hash, first, opening, word,
    closing, rfl, hlist⟩
  · exact hread.trans ((if_pos ht).trans ((Directive.definition_eq_some_iff hopens).2
      ⟨word, closing, parameters, variadic, tail, rfl, hclose, hlist, rfl⟩))
  · rw [htag]
    cases variadic <;> rfl
  · have hdefine :=
      directiveOfTrees_define variadic hparameters hnot htail hash first t opening closing
    rw [htag]
    simpa using hdefine

/-! ## Lines without the name of a directive -/

theorem isRead_null : IsRead ⟨.null, [spelled "#"]⟩ := by
  intro trees line hline h
  obtain ⟨hash, rfl, rfl, -⟩ := covers_terminal_singleton_iff.1 h
  exact ⟨.null, rfl, rfl, rfl, hash, rfl⟩

theorem ofTokens_of_isNoDirectiveName {t : Token} (ht : t.isNoDirectiveName = true) (hash : Token)
    (tail : List Token) :
    Directive.ofTokens (hash :: t :: tail) = some (.nonDirective (t :: tail)) := by
  rw [Directive.ofTokens, Directive.reader?_eq_none_iff.2 ht]

theorem isRead_nonDirective : IsRead ⟨.nonDirective, [spelled "#", such Token.isNoDirectiveName]⟩ := by
  intro trees line hline h
  obtain ⟨hash, _, _, rfl, rfl, -, hrest⟩ := covers_terminal_iff.1 h
  obtain ⟨t, rfl, rfl, ht⟩ := covers_terminal_singleton_iff.1 hrest
  exact ⟨.nonDirective [t], ofTokens_of_isNoDirectiveName ht hash [], rfl, rfl, hash, rfl⟩

theorem isRead_nonDirectiveTokens : IsRead
    ⟨.nonDirective, [spelled "#", such Token.isNoDirectiveName, nonterminal tokens]⟩ := by
  intro trees line hline h
  obtain ⟨hash, _, _, rfl, rfl, -, hrest⟩ := covers_terminal_iff.1 h
  obtain ⟨t, _, tail, rfl, rfl, ht, hrest⟩ := covers_terminal_iff.1 hrest
  obtain ⟨tree, rfl, htree⟩ := covers_nonterminal_singleton_iff.1 hrest
  have htail : IsTail [tree] tail := .inr ⟨tree, rfl, htree⟩
  refine ⟨.nonDirective (t :: tail), ofTokens_of_isNoDirectiveName ht hash tail, rfl, ?_, hash, rfl⟩
  exact congrArg (fun text => some (Directive.nonDirective (t :: text)))
    (htail.subtree_append [.leaf hash, .leaf t])

/-- **Every production is read as the line is.** -/
theorem isRead_of_mem (hp : p ∈ directives) : IsRead p := by
  obtain ⟨name, tag, f, mem, hp⟩ | ⟨name, tag, f, mem, hp⟩ | ⟨name, tag, f, mem, rfl⟩ | rfl | rfl |
    ⟨tag, inner, mem, hp⟩ | rfl | rfl | rfl := mem_directives_iff.1 hp
  · exact isRead_tailed mem hp
  · exact isRead_named mem hp
  · exact isRead_operated mem
  · exact isRead_defineName
  · exact isRead_defineObject
  · exact isRead_defineFunction mem hp
  · exact isRead_null
  · exact isRead_nonDirective
  · exact isRead_nonDirectiveTokens

end

end Phrase

end CPreprocessor
