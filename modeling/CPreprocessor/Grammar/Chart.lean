import CPreprocessor.Grammar.Tree

/-!
# Parsing with charts

The parser keeps one chart for every position of the input. A chart holds the items that are alive
there: productions of which a first part of the symbols has derived the input between the position
where the item began (`Item.origin`) and the position of the chart.

A chart is closed under prediction, which begins the productions of a nonterminal that an item
waits for, and completion, which moves the items on that waited for a nonterminal that is now
derived. As no production is empty, a completed item began at an earlier position, whose chart is
closed already. An item enters a chart only if none with the same production, progress and origin is
there, so the first derivation found is kept, and a chart has at most `Grammar.chartBound` items.
-/

namespace CPreprocessor

/-- A production of which a first part has been matched. -/
structure Item (ν σ τ : Type) where
  rule : ν
  /-- The index of the production in its rule. -/
  index : Nat
  production : Production ν σ τ
  /-- The position at which the item began. -/
  origin : Nat
  /-- What the symbols matched so far derived. -/
  children : List (Derivation ν σ τ)

namespace Item

variable {ν σ τ : Type}

/-- The symbol that an item waits for; none if it is complete. -/
def next? (item : Item ν σ τ) : Option (GrammarSymbol ν σ) :=
  item.production.symbols[item.children.length]?

/-- The item with one more symbol matched. -/
def advance (item : Item ν σ τ) (child : Derivation ν σ τ) : Item ν σ τ :=
  { item with children := item.children ++ [child] }

/-- Whether two items have the same production, progress and origin. -/
def sameAs [DecidableEq ν] (a b : Item ν σ τ) : Bool :=
  a.origin == b.origin && a.index == b.index && a.children.length == b.children.length &&
    decide (a.rule = b.rule)

/-- Whether an item waits for a nonterminal. -/
def waitsFor [DecidableEq ν] (rule : ν) (item : Item ν σ τ) : Bool :=
  match item.next? with
  | some (.nonterminal r) => decide (r = rule)
  | _ => false

/-- What a complete item derived, up to the given position. -/
def derivation (item : Item ν σ τ) (stop : Nat) : Derivation ν σ τ :=
  .node item.rule item.production item.origin stop item.children

end Item

/-- The items that are alive at a position of the input, in the order in which they were found. -/
abbrev Chart (ν σ τ : Type) := Array (Item ν σ τ)

variable {ν σ τ : Type} [DecidableEq ν]

/-- Adds an item unless there is one with the same production, progress and origin. -/
def Chart.insert (chart : Chart ν σ τ) (item : Item ν σ τ) : Chart ν σ τ :=
  if chart.any item.sameAs then chart else chart.push item

namespace Grammar

variable (g : Grammar ν σ τ)

/-- The items that begin a rule at a position. -/
def predict (rule : ν) (position : Nat) : List (Item ν σ τ) :=
  (g.rule rule).productions.mapIdx fun index production => ⟨rule, index, production, position, []⟩

/-- The items that an item of the chart at a position leads to at the same position. The charts of
all earlier positions are given. -/
def consequences (earlier : Array (Chart ν σ τ)) (position : Nat) (item : Item ν σ τ) :
    List (Item ν σ τ) :=
  match item.next? with
  | some (.nonterminal rule) => g.predict rule position
  | some (.terminal _) => []
  | none =>
    (((earlier.getD item.origin #[]).filter (·.waitsFor item.rule)).map
      (·.advance (item.derivation position))).toList

/-- The number of productions with a place marked in them: before, between or after symbols. -/
def markedProductions : Nat :=
  let productions := g.nonterminals.flatMap fun r => (g.rule r).productions
  productions.foldr (fun p count => p.symbols.length + 1 + count) 0

/-- A bound on the number of items of the chart at a position. -/
def chartBound (position : Nat) : Nat := g.markedProductions * (position + 1)

/-- Adds the consequences of up to `count` items, those from the index on. -/
def closeFrom (earlier : Array (Chart ν σ τ)) (position : Nat) :
    (count index : Nat) → Chart ν σ τ → Chart ν σ τ
  | 0, _, chart => chart
  | count + 1, index, chart =>
    match chart[index]? with
    | none => chart
    | some item =>
      closeFrom earlier position count (index + 1)
        ((g.consequences earlier position item).foldl Chart.insert chart)

/-- The chart that the given items lead to. -/
def close (earlier : Array (Chart ν σ τ)) (items : Chart ν σ τ) : Chart ν σ τ :=
  g.closeFrom earlier earlier.size (g.chartBound earlier.size) 0 items

/-- The items of a chart that an input symbol moves on. -/
def scan [Spelled σ] (chart : Chart ν σ τ) (x : σ) : Chart ν σ τ :=
  chart.filterMap fun item =>
    match item.next? with
    | some (.terminal t) => if t.accepts x then some (item.advance (.leaf x)) else none
    | _ => none

/-- The chart after all of the input, if no chart on the way is empty. The charts of all positions
before the current one are given. -/
def lastChart [Spelled σ] (earlier : Array (Chart ν σ τ)) (chart : Chart ν σ τ) :
    List σ → Option (Chart ν σ τ)
  | [] => some chart
  | x :: rest =>
    let items := scan chart x
    if items.isEmpty then none
    else
      let earlier := earlier.push chart
      lastChart earlier (g.close earlier items) rest

/-- The derivation of an input from a nonterminal that is found first. -/
def derive? [Spelled σ] (root : ν) (input : List σ) : Option (Derivation ν σ τ) := do
  let chart ← g.lastChart #[] (g.close #[] (g.predict root 0).toArray) input
  let item ← chart.find? fun item =>
    decide (item.rule = root) && item.origin == 0 && item.next?.isNone
  return item.derivation input.length

/-- The parse tree of an input. -/
def parse [Spelled σ] (root : ν) (input : List σ) : Option (Tree ν σ τ) :=
  (g.derive? root input).map g.tree

end Grammar

end CPreprocessor
