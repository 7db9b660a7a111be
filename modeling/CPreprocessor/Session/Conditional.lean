import CPreprocessor.Diagnostic

/-!
# Conditional groups

A conditional is a chain of groups of lines, of which at most one is processed. The conditionals
that are open at a line form a stack, the innermost one first.
-/

namespace CPreprocessor

/-- Where a chain of groups is. -/
inductive GroupState
  /-- The current group is processed. -/
  | taking
  /-- A group before was. -/
  | taken
  /-- No group was yet. -/
  | waiting
  /-- The whole chain is in a group that is not. -/
  | skipped
  deriving DecidableEq

/-- A conditional that is open. -/
structure Conditional where
  state : GroupState
  seenElse : Bool := false
  /-- Where it was opened. -/
  location : Location
  deriving DecidableEq

namespace Conditional

/-- A conditional whose first group is processed if the condition holds. -/
def begin (holds : Bool) (location : Location) : Conditional :=
  { state := if holds then .taking else .waiting, location }

/-- A conditional in a group that is not processed. -/
def beginSkipped (location : Location) : Conditional := { state := .skipped, location }

/-- The conditional at its last group. -/
def atElse (c : Conditional) : Conditional :=
  { c with
    seenElse := true
    state := match c.state with
      | .waiting => .taking
      | .taking => .taken
      | state => state }

/-- Whether lines are processed within these conditionals. -/
def live (open_ : List Conditional) : Bool :=
  match open_ with
  | [] => true
  | c :: _ => c.state = .taking

end Conditional

end CPreprocessor
