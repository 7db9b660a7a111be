import CPreprocessor.Phrase.Grammar

/-!
# The levels of expressions

Every nonterminal of expressions has a level, the lower the tighter it binds. A production either
begins with a word or an operand, or it goes on behind a corner, which is a nonterminal of the same
level or a lower one: by itself (`unit?`) or with a word.

The grammar is a table from which the next production can be looked up, knowing the corner, the
word behind it and a little of what follows the word (`predict?`). That each production is found in
this way, and that a word goes on behind corners of a single level (`span?`), is checked by
computation, production by production. So is whatever else is said here about all productions.
-/

namespace CPreprocessor.Phrase

open GrammarSymbol Nonterminal

/-- The nonterminals of expressions. -/
def expressions : List Nonterminal :=
  [primaryExpression, postfixExpression, unaryExpression, castExpression, multiplicativeExpression,
    additiveExpression, shiftExpression, relationalExpression, equalityExpression, andExpression,
    exclusiveOrExpression, inclusiveOrExpression, logicalAndExpression, logicalOrExpression,
    conditionalExpression, assignmentExpression, expression, argumentExpressionList,
    constantExpression]

/-- The level of a nonterminal of expressions, which is the number of its subsection in section 6.5
of C17. -/
def level : Nonterminal → Nat
  | primaryExpression => 1
  | postfixExpression => 2
  | unaryExpression => 3
  | castExpression => 4
  | multiplicativeExpression => 5
  | additiveExpression => 6
  | shiftExpression => 7
  | relationalExpression => 8
  | equalityExpression => 9
  | andExpression => 10
  | exclusiveOrExpression => 11
  | inclusiveOrExpression => 12
  | logicalAndExpression => 13
  | logicalOrExpression => 14
  | conditionalExpression => 15
  | assignmentExpression => 16
  | expression | argumentExpressionList => 17
  | _ => 18

/-- Whether an expression of a nonterminal can stand at the beginning of one of a goal. Argument
lists stand only in calls. -/
def within (goal r : Nonterminal) : Bool :=
  goal ∈ expressions && r ∈ expressions &&
    (goal = r || level r < level goal && r ≠ argumentExpressionList)

theorem mem_of_within {goal r : Nonterminal} (h : within goal r = true) :
    goal ∈ expressions ∧ r ∈ expressions := by
  simp only [within, Bool.and_eq_true, decide_eq_true_eq] at h
  exact h.1

theorem level_le_of_within {goal r : Nonterminal} (h : within goal r = true) :
    level r ≤ level goal := by
  simp only [within, Bool.and_eq_true, Bool.or_eq_true, decide_eq_true_eq] at h
  obtain ⟨-, rfl | h⟩ := h
  · exact Nat.le_refl _
  · exact Nat.le_of_lt h.1

/-! ## What follows a word -/

/-- What the tokens behind a word can be told apart by. -/
inductive Lookahead
  | close
  | specifier
  /-- An open parenthesis and a specifier. -/
  | openSpecifier
  | other
  deriving DecidableEq

namespace Lookahead

def all : List Lookahead := [close, specifier, openSpecifier, other]

theorem mem_all (ahead : Lookahead) : ahead ∈ all := by cases ahead <;> decide

/-- The first tokens of a text. -/
def ofTokens : List Token → Lookahead
  | [] => other
  | t :: rest =>
    if t.isSpelled (Bytes.ofString ")") then close
    else if t.isTypeSpecifier then specifier
    else if t.isSpelled (Bytes.ofString "(") && rest.head?.any Token.isTypeSpecifier then
      openSpecifier
    else other

/-- Whether what some symbols derive can begin with such tokens. Only casts and what they are part
of begin with a type name in parentheses. -/
def allows (ahead : Lookahead) : Symbols → Bool
  | terminal (.literal word) :: rest =>
    if word = Bytes.ofString ")" then ahead = close
    else if word = Bytes.ofString "(" then
      match rest with
      | nonterminal r :: _ =>
        if r = typeName then ahead = openSpecifier else r ∉ expressions || ahead = other
      | _ => true
    else Token.typeSpecifiers.contains word || ahead = other
  | nonterminal r :: _ =>
    if r = typeName || r = specifierQualifierList then ahead = specifier
    else r ∉ expressions || ahead = other || ahead = openSpecifier && level castExpression ≤ level r
  | _ => true

end Lookahead

/-! ## Looking productions up -/

/-- Whether symbols are the given corner, if there is one, the given word, and others that allow
what is ahead. -/
def goesOn (corner : Option Nonterminal) (word : Bytes) (ahead : Lookahead) : Symbols → Bool
  | terminal (.literal spelling) :: rest => corner = none && spelling = word && ahead.allows rest
  | nonterminal r :: terminal (.literal spelling) :: rest =>
    corner = some r && spelling = word && ahead.allows rest
  | _ => false

/-- The place of a production: its nonterminal and its index. -/
abbrev Place := Nonterminal × Nat

/-- The production at a place. -/
def productionAt (place : Place) : Option (Nonterminal × Production Nonterminal Token Tag) :=
  ((rule place.1).productions[place.2]?).map (place.1, ·)

/-- The place of the production that goes on with a word behind a corner, or that begins with it. -/
def predict? (corner : Option Nonterminal) (word : Bytes) (ahead : Lookahead) : Option Place :=
  expressions.findSome? fun r =>
    ((rule r).productions.findIdx? fun p => goesOn corner word ahead p.symbols).map (r, ·)

/-- The place of the production that makes a corner a part of a goal by itself. -/
def unit? (goal corner : Nonterminal) : Option Place :=
  expressions.findSome? fun r =>
    if within goal r then
      ((rule r).productions.findIdx? fun p =>
        match p.symbols with
        | [nonterminal r'] => r' = corner
        | _ => false).map (r, ·)
    else none

/-- The words that go on behind a corner, each with the level of the corner and that of the larger
part. -/
def spans : List (Bytes × Nat × Nat) :=
  expressions.flatMap fun r => (rule r).productions.filterMap fun p =>
    match p.symbols with
    | nonterminal corner :: terminal (.literal word) :: _ => some (word, level corner, level r)
    | _ => none

/-- The level of the corners that a word goes on behind, and that of the larger parts. -/
def span? (word : Bytes) : Option (Nat × Nat) := spans.lookup word

/-! ## What holds of every production -/

/-- A property of all productions of expressions can be checked by computation. -/
theorem forall_of_check (check : Nonterminal → Production Nonterminal Token Tag → Nat → Bool)
    (h : (expressions.all fun r =>
      (rule r).productions.zipIdx.all fun p => check r p.1 p.2) = true)
    {r : Nonterminal} (hr : r ∈ expressions) {p : Production Nonterminal Token Tag} {n : Nat}
    (hp : (rule r).productions[n]? = some p) : check r p n = true := by
  have := List.all_eq_true.1 (List.all_eq_true.1 h r hr) (p, n)
    (List.mem_zipIdx_iff_getElem?.2 hp)
  exact this

/-- Whether the lookup finds the symbols of a production, if they go on with a word. -/
def isPredicted (r : Nonterminal) (n : Nat) : Symbols → Bool
  | terminal (.literal word) :: rest => Lookahead.all.all fun ahead =>
    !ahead.allows rest || predict? none word ahead = some (r, n)
  | nonterminal corner :: terminal (.literal word) :: rest => Lookahead.all.all fun ahead =>
    !ahead.allows rest || predict? (some corner) word ahead = some (r, n)
  | _ => true

/-- The lookup finds a production that goes on with a word. -/
theorem predict?_goesOn {r : Nonterminal} (hr : r ∈ expressions)
    {p : Production Nonterminal Token Tag} {n : Nat} (hp : (rule r).productions[n]? = some p)
    {corner : Option Nonterminal} {word : Bytes} {ahead : Lookahead}
    (h : goesOn corner word ahead p.symbols = true) : predict? corner word ahead = some (r, n) := by
  have hcheck := forall_of_check (fun r p n => isPredicted r n p.symbols) (by decide +kernel) hr hp
  unfold goesOn at h
  split at h
  · next spelling rest hsymbols =>
    simp only [hsymbols, isPredicted, Bool.and_eq_true, decide_eq_true_eq] at h hcheck
    obtain ⟨⟨rfl, rfl⟩, h⟩ := h
    have := List.all_eq_true.1 hcheck ahead (Lookahead.mem_all ahead)
    simpa [h] using this
  · next spelling rest hsymbols =>
    simp only [hsymbols, isPredicted, Bool.and_eq_true, decide_eq_true_eq] at h hcheck
    obtain ⟨⟨rfl, rfl⟩, h⟩ := h
    have := List.all_eq_true.1 hcheck ahead (Lookahead.mem_all ahead)
    simpa [h] using this
  · contradiction

/-- Whether the corner of some symbols, if they have one, is alone and on a lower level, or has a
word behind it that leads from its level to the given nonterminal's. -/
def isLevelled (r : Nonterminal) : Symbols → Bool
  | [nonterminal corner] => level corner < level r
  | nonterminal corner :: terminal (.literal word) :: _ =>
    span? word = some (level corner, level r)
  | nonterminal _ :: _ => false
  | _ => true

/-- A corner stands alone or has a word behind it. -/
theorem corner_cases {r : Nonterminal} (hr : r ∈ expressions)
    {p : Production Nonterminal Token Tag} {n : Nat} (hp : (rule r).productions[n]? = some p)
    {corner : Nonterminal} {symbols : Symbols} (h : p.symbols = nonterminal corner :: symbols) :
    (symbols = [] ∧ level corner < level r) ∨
      ∃ word rest, symbols = terminal (.literal word) :: rest ∧
        span? word = some (level corner, level r) := by
  have hcheck := forall_of_check (fun r p _ => isLevelled r p.symbols) (by decide +kernel) hr hp
  rw [h] at hcheck
  match symbols with
  | [] => exact .inl ⟨rfl, by simpa [isLevelled] using hcheck⟩
  | terminal (.literal word) :: rest =>
    exact .inr ⟨word, rest, rfl, by simpa [isLevelled] using hcheck⟩
  | terminal (.satisfying _) :: _ => simp [isLevelled] at hcheck
  | nonterminal _ :: _ => simp [isLevelled] at hcheck

/-- What is looked up behind a corner lies on the levels that the word says. -/
theorem span?_of_predict? {corner : Nonterminal} {word : Bytes} {ahead : Lookahead} {place : Place}
    (h : predict? (some corner) word ahead = some place) :
    span? word = some (level corner, level place.1) := by
  obtain ⟨r, hr, hfind⟩ := List.exists_of_findSome?_eq_some h
  obtain ⟨n, hn, rfl⟩ := Option.map_eq_some_iff.1 hfind
  obtain ⟨hlt, hgoes, -⟩ := List.findIdx?_eq_some_iff_getElem.1 hn
  have hp := List.getElem?_eq_getElem hlt
  unfold goesOn at hgoes
  split at hgoes
  · simp at hgoes
  · next q spelling rest hsymbols =>
    simp only [Bool.and_eq_true, decide_eq_true_eq] at hgoes
    obtain ⟨⟨hq, rfl⟩, -⟩ := hgoes
    obtain rfl := Option.some.inj hq
    obtain ⟨hnil, -⟩ | ⟨word, rest', heq, hspan⟩ := corner_cases hr hp hsymbols
    · contradiction
    · obtain ⟨hword, -⟩ := List.cons.inj heq
      injection hword with hword
      injection hword with hword
      rw [hword]
      exact hspan
  · contradiction

/-- The lookup finds a production with a corner alone. -/
theorem unit?_eq {goal r : Nonterminal} (hwithin : within goal r = true)
    {p : Production Nonterminal Token Tag} {n : Nat} (hp : (rule r).productions[n]? = some p)
    {corner : Nonterminal} (h : p.symbols = [nonterminal corner]) :
    unit? goal corner = some (r, n) := by
  have hmem := mem_of_within hwithin
  have hcheck := forall_of_check (fun r p n =>
    match p.symbols with
    | [nonterminal corner] =>
      expressions.all fun goal => !within goal r || unit? goal corner = some (r, n)
    | _ => true) (by decide +kernel) hmem.2 hp
  rw [h] at hcheck
  simpa [hwithin] using List.all_eq_true.1 hcheck goal hmem.1

theorem unit?_self {goal : Nonterminal} (h : goal ∈ expressions) : unit? goal goal = none := by
  have hcheck : (expressions.all fun goal => (unit? goal goal).isNone) = true := by decide +kernel
  simpa using List.all_eq_true.1 hcheck goal h

theorem within_corner {goal r : Nonterminal} (hwithin : within goal r = true)
    {p : Production Nonterminal Token Tag} {n : Nat} (hp : (rule r).productions[n]? = some p)
    {corner : Nonterminal} {symbols : Symbols} (h : p.symbols = nonterminal corner :: symbols) :
    within goal corner = true := by
  have hmem := mem_of_within hwithin
  have hcheck := forall_of_check (fun r p _ =>
    match p.symbols with
    | nonterminal corner :: _ => expressions.all fun goal => !within goal r || within goal corner
    | _ => true) (by decide +kernel) hmem.2 hp
  rw [h] at hcheck
  simpa [hwithin] using List.all_eq_true.1 hcheck goal hmem.1

/-! ### Where the parts of a production end -/

/-- Whether each nonterminal of the symbols after the first one of a production is complete where
the next symbol begins, or at the end of the production, if that is complete. -/
def closes (r : Nonterminal) : Symbols → Bool
  | nonterminal q :: terminal (.literal word) :: rest =>
    (if q = typeName then word = Bytes.ofString ")"
      else q ∈ expressions && (span? word).isNone) && closes r rest
  | [nonterminal q] => q ∈ expressions && spans.all fun (_, corner, whole) =>
    (level r ≤ corner || level r < whole) → level q < whole
  | nonterminal _ :: _ => false
  | terminal _ :: rest => closes r rest
  | [] => true

theorem closes_tail {r : Nonterminal} (hr : r ∈ expressions)
    {p : Production Nonterminal Token Tag} {n : Nat} (hp : (rule r).productions[n]? = some p)
    {s : GrammarSymbol Nonterminal Token} {symbols : Symbols} (h : p.symbols = s :: symbols) :
    closes r symbols = true := by
  have hcheck := forall_of_check (fun r p _ => closes r p.symbols.tail)
    (by decide +kernel) hr hp
  rwa [h] at hcheck

theorem mem_spans {word : Bytes} {levels : Nat × Nat} (h : span? word = some levels) :
    (word, levels) ∈ spans := by
  obtain ⟨before, after, heq, -⟩ := List.lookup_eq_some_iff.1 h
  rw [heq]
  exact List.mem_append_right _ (.head _)

/-! ### How productions begin -/

/-- Whether a word is a punctuator or a keyword of expressions, which is no operand. -/
def isReserved (word : Bytes) : Bool :=
  Lexeme.punctuators.contains word || word = Bytes.ofString "sizeof" ||
    word = Bytes.ofString "_Alignof"

/-- Whether the word that some symbols begin with, if there is one, is reserved. -/
def beginsReserved : Symbols → Bool
  | terminal (.literal word) :: _ => isReserved word
  | _ => true

theorem isReserved_of_head {r : Nonterminal} (hr : r ∈ expressions)
    {p : Production Nonterminal Token Tag} {n : Nat} (hp : (rule r).productions[n]? = some p)
    {word : Bytes} {symbols : Symbols} (h : p.symbols = terminal (.literal word) :: symbols) :
    isReserved word = true := by
  have hcheck := forall_of_check (fun _ p _ => beginsReserved p.symbols) (by decide +kernel) hr hp
  rwa [h] at hcheck

/-- The place of the production of an operand. -/
def operand? (t : Token) : Option Place :=
  if t.isOperand then some (primaryExpression, 0)
  else if t.isNumber then some (primaryExpression, 1)
  else if t.isCharacter then some (primaryExpression, 2)
  else if t.isString then some (primaryExpression, 3)
  else none

/-- Whether a place is that of an operand, if its symbols begin with no corner and no word. -/
def isOperandPlace (r : Nonterminal) (n : Nat) : Symbols → Bool
  | terminal (.satisfying _) :: _ => r = primaryExpression && n < 4
  | _ => true

/-- Whatever begins with no corner and no word is an operand. -/
theorem operand?_eq {r : Nonterminal} (hr : r ∈ expressions)
    {p : Production Nonterminal Token Tag} {n : Nat} (hp : (rule r).productions[n]? = some p)
    {accepts : Token → Bool} {symbols : Symbols}
    (h : p.symbols = terminal (.satisfying accepts) :: symbols) {t : Token}
    (ht : accepts t = true) : operand? t = some (r, n) := by
  have hcheck := forall_of_check (fun r p n => isOperandPlace r n p.symbols)
    (by decide +kernel) hr hp
  rw [h] at hcheck
  simp only [isOperandPlace, Bool.and_eq_true, decide_eq_true_eq] at hcheck
  obtain ⟨rfl, hn⟩ := hcheck
  have hoperand : t.kind ≠ .identifier → t.isOperand = false := fun hkind => by
    simp [Token.isOperand, Token.isIdentifier, hkind]
  match n, hn with
  | 0, _ =>
    obtain rfl := Option.some.inj hp
    obtain ⟨rfl, -⟩ : Token.isOperand = accepts ∧ _ := by simpa [such] using h
    simp [operand?, ht]
  | 1, _ =>
    obtain rfl := Option.some.inj hp
    obtain ⟨rfl, -⟩ : Token.isNumber = accepts ∧ _ := by simpa [such] using h
    have hkind : t.kind = .number := of_decide_eq_true ht
    simp [operand?, ht, hoperand, hkind]
  | 2, _ =>
    obtain rfl := Option.some.inj hp
    obtain ⟨rfl, -⟩ : Token.isCharacter = accepts ∧ _ := by simpa [such] using h
    have hkind : t.kind = .character := of_decide_eq_true ht
    simp [operand?, ht, hoperand, hkind, Token.isNumber]
  | 3, _ =>
    obtain rfl := Option.some.inj hp
    obtain ⟨rfl, -⟩ : Token.isString = accepts ∧ _ := by simpa [such] using h
    have hkind : t.kind = .string := of_decide_eq_true ht
    simp [operand?, ht, hoperand, hkind, Token.isNumber, Token.isCharacter]

/-- Whether a nonterminal allows what some symbols allow, unless they begin with an operand. -/
def allowsFront (r : Nonterminal) (ahead : Lookahead) : Symbols → Bool
  | terminal (.satisfying _) :: _ => true
  | symbols => !ahead.allows symbols || ahead.allows [nonterminal r]

/-- What a production can begin with, its nonterminal can. -/
theorem allows_nonterminal {r : Nonterminal} (hr : r ∈ expressions)
    {p : Production Nonterminal Token Tag} {n : Nat} (hp : (rule r).productions[n]? = some p)
    {s : GrammarSymbol Nonterminal Token} {symbols : Symbols} (h : p.symbols = s :: symbols)
    (hs : ∀ accepts, s ≠ terminal (.satisfying accepts)) {ahead : Lookahead}
    (hahead : ahead.allows p.symbols = true) {others : Symbols} :
    ahead.allows (nonterminal r :: others) = true := by
  have hcheck := forall_of_check
    (fun r p _ => Lookahead.all.all fun ahead => allowsFront r ahead p.symbols)
    (by decide +kernel) hr hp
  have hone := List.all_eq_true.1 hcheck ahead (Lookahead.mem_all ahead)
  rw [h] at hahead hone
  match s, hs with
  | terminal (.literal _), _ =>
    rw [allowsFront] at hone
    · rwa [hahead] at hone
    · simp
  | nonterminal _, _ =>
    rw [allowsFront] at hone
    · rwa [hahead] at hone
    · simp
  | terminal (.satisfying accepts), hs => exact absurd rfl (hs accepts)

end CPreprocessor.Phrase
