import CPreprocessor.Proofs.Directive

/-!
# The outline of a file

The lines of a file are nested: a group is made up of text, of directives and of conditionals, and a
conditional of groups (`LineGroup`, `GroupChain`). `outline` finds the groups from the lines alone,
whether or not they are processed. A line that continues or closes a conditional ends its group, and
one that has no conditional to belong to ends the outermost group, so `Outline` is a group and the
line it ends with, if any, and what is after that.

The outline has every line that has tokens, in order (`lines_outline`).
-/

namespace CPreprocessor

mutual

/-- A group of lines. -/
inductive LineGroup
  | nil
  /-- Lines of text. -/
  | text (lines : List (List Token)) (rest : LineGroup)
  /-- A directive that belongs to no conditional, and its first token. -/
  | directive (hash : Token) (line : List Token) (rest : LineGroup)
  /-- A conditional: the line that opens it, its first group and what is after that. -/
  | conditional (hash : Token) (line : List Token) (first : LineGroup) (chain : GroupChain)
      (rest : LineGroup)

/-- What is after a group of a conditional. -/
inductive GroupChain
  /-- The file ends in the group. -/
  | endOfFile
  | endIf (hash : Token) (line : List Token)
  | elifGroup (hash : Token) (line : List Token) (group : LineGroup) (next : GroupChain)
  | elseGroup (hash : Token) (line : List Token) (group : LineGroup) (next : GroupChain)

end

/-- A group of lines up to the end of a file, or up to a boundary. -/
inductive Outline
  | last (group : LineGroup)
  | upTo (group : LineGroup) (boundary : Boundary) (hash : Token) (line : List Token)
      (after : Outline)

/-- The group with lines of text before it. -/
def LineGroup.prependText (lines : List (List Token)) : LineGroup → LineGroup
  | .text more rest => .text (lines ++ more) rest
  | group => if lines = [] then group else .text lines group

namespace Outline

/-- The outline with something done to its group. -/
def mapGroup (f : LineGroup → LineGroup) : Outline → Outline
  | .last group => .last (f group)
  | .upTo group boundary hash line after => .upTo (f group) boundary hash line after

/-! The outline of what is after a line that opens a conditional consists of the first group of the
conditional, the groups after that, and the outline of what is after the conditional. -/

def first : Outline → LineGroup
  | .last group => group
  | .upTo group _ _ _ _ => group

def chain : Outline → GroupChain
  | .last _ => .endOfFile
  | .upTo _ .elifGroup hash line after => .elifGroup hash line after.first after.chain
  | .upTo _ .elseGroup hash line after => .elseGroup hash line after.first after.chain
  | .upTo _ .endIf hash line _ => .endIf hash line

def rest : Outline → Outline
  | .last _ => .last .nil
  | .upTo _ .elifGroup _ _ after => after.rest
  | .upTo _ .elseGroup _ _ after => after.rest
  | .upTo _ .endIf _ _ after => after

end Outline

/-- The outline of lines. A line that has no tokens does not count. -/
def outline : List (List Token) → Outline
  | [] => .last .nil
  | [] :: rest => outline rest
  | (hash :: tokens) :: rest =>
    let line := hash :: tokens
    let after := outline rest
    if !hash.isHash then after.mapGroup (.prependText [line])
    else if Directive.beginsConditional line then
      after.rest.mapGroup (.conditional hash line after.first after.chain)
    else
      match Directive.boundaryOf line with
      | some boundary => .upTo .nil boundary hash line after
      | none => after.mapGroup (.directive hash line)

theorem outline_hash {hash : Token} (hhash : hash.isHash = true) (tokens : List Token)
    (rest : List (List Token)) :
    outline ((hash :: tokens) :: rest) =
      if Directive.beginsConditional (hash :: tokens) then
        (outline rest).rest.mapGroup
          (.conditional hash (hash :: tokens) (outline rest).first (outline rest).chain)
      else
        match Directive.boundaryOf (hash :: tokens) with
        | some boundary => .upTo .nil boundary hash (hash :: tokens) (outline rest)
        | none => (outline rest).mapGroup (.directive hash (hash :: tokens)) := by
  rw [outline, hhash, if_neg (by decide)]

theorem outline_text {first : Token} (hfirst : first.isHash = false) (tokens : List Token)
    (rest : List (List Token)) :
    outline ((first :: tokens) :: rest) =
      (outline rest).mapGroup (.prependText [first :: tokens]) := by
  rw [outline, hfirst, if_pos (by decide)]

/-! ## Text before a group -/

theorem LineGroup.prependText_nil (group : LineGroup) : group.prependText [] = group := by
  unfold prependText
  split
  · rfl
  · rw [if_pos rfl]

theorem LineGroup.prependText_eq {group : LineGroup} {lines : List (List Token)}
    (hgroup : ∀ more rest, group ≠ .text more rest) (hlines : lines ≠ []) :
    group.prependText lines = .text lines group := by
  unfold prependText
  split
  · exact absurd rfl (hgroup _ _)
  · rw [if_neg hlines]

theorem LineGroup.prependText_prependText (lines more : List (List Token)) (group : LineGroup) :
    (group.prependText more).prependText lines = group.prependText (lines ++ more) := by
  cases more with
  | nil => rw [prependText_nil, List.append_nil]
  | cons line more =>
    have hne : lines ++ line :: more ≠ [] := List.append_ne_nil_of_right_ne_nil _ (by simp)
    cases group with
    | text others rest => simp only [prependText, List.append_assoc]
    | nil | directive | conditional =>
      rw [prependText_eq (fun _ _ => LineGroup.noConfusion) hne,
        prependText_eq (fun _ _ => LineGroup.noConfusion) (List.cons_ne_nil _ _)]
      rfl

namespace Outline

theorem first_mapGroup (f : LineGroup → LineGroup) (o : Outline) :
    (o.mapGroup f).first = f o.first := by
  cases o <;> rfl

theorem mapGroup_mapGroup (f f' : LineGroup → LineGroup) (o : Outline) :
    (o.mapGroup f').mapGroup f = o.mapGroup (f ∘ f') := by
  cases o <;> rfl

theorem mapGroup_prependText_nil (o : Outline) : o.mapGroup (.prependText []) = o := by
  cases o with
  | last group => rw [mapGroup, LineGroup.prependText_nil]
  | upTo group boundary hash line after => rw [mapGroup, LineGroup.prependText_nil]

/-- A line that is not text ends the text before it. -/
theorem first_outline_ne_text {hash : Token} (hhash : hash.isHash = true) (tokens : List Token)
    (rest : List (List Token)) (lines : List (List Token)) (group : LineGroup) :
    (outline ((hash :: tokens) :: rest)).first ≠ .text lines group := by
  rw [outline_hash hhash]
  split
  · rw [first_mapGroup]
    exact LineGroup.noConfusion
  · split
    · exact LineGroup.noConfusion
    · rw [first_mapGroup]
      exact LineGroup.noConfusion

end Outline

/-! ## The lines of an outline -/

mutual

def LineGroup.lines : LineGroup → List (List Token)
  | .nil => []
  | .text lines rest => lines ++ rest.lines
  | .directive _ line rest => line :: rest.lines
  | .conditional _ line first chain rest => line :: (first.lines ++ chain.lines ++ rest.lines)

def GroupChain.lines : GroupChain → List (List Token)
  | .endOfFile => []
  | .endIf _ line => [line]
  | .elifGroup _ line group next => line :: (group.lines ++ next.lines)
  | .elseGroup _ line group next => line :: (group.lines ++ next.lines)

end

def Outline.lines : Outline → List (List Token)
  | .last group => group.lines
  | .upTo group _ _ line after => group.lines ++ line :: after.lines

theorem LineGroup.lines_prependText (lines : List (List Token)) (group : LineGroup) :
    (group.prependText lines).lines = lines ++ group.lines := by
  unfold prependText
  split
  · rw [LineGroup.lines, LineGroup.lines, List.append_assoc]
  · split
    · next h => rw [h, List.nil_append]
    · rw [LineGroup.lines]

theorem Outline.lines_mapGroup {f : LineGroup → LineGroup} (lines : List (List Token))
    (h : ∀ group, (f group).lines = lines ++ group.lines) (o : Outline) :
    (o.mapGroup f).lines = lines ++ o.lines := by
  cases o with
  | last group => exact h group
  | upTo group boundary hash line after =>
    rw [mapGroup, Outline.lines, h, List.append_assoc, Outline.lines]

theorem Outline.lines_eq (o : Outline) :
    o.lines = o.first.lines ++ o.chain.lines ++ o.rest.lines := by
  induction o with
  | last group =>
    simp only [Outline.lines, first, chain, rest, GroupChain.lines, LineGroup.lines,
      List.append_nil]
  | upTo group boundary hash line after ih =>
    cases boundary with
    | endIf =>
      simp only [Outline.lines, first, chain, rest, GroupChain.lines, List.append_assoc,
        List.singleton_append]
    | elifGroup =>
      simp only [Outline.lines, first, chain, rest, GroupChain.lines, ih, List.append_assoc,
        List.cons_append]
    | elseGroup =>
      simp only [Outline.lines, first, chain, rest, GroupChain.lines, ih, List.append_assoc,
        List.cons_append]

/-- **The outline has every line that has tokens**, in order. -/
theorem lines_outline (lines : List (List Token)) :
    (outline lines).lines = lines.filter (· ≠ []) := by
  induction lines with
  | nil => rfl
  | cons line rest ih =>
    cases line with
    | nil =>
      rw [outline, ih]
      rfl
    | cons hash tokens =>
      rw [outline, List.filter_cons_of_pos (by simp), ← ih]
      split
      · exact Outline.lines_mapGroup [hash :: tokens] (LineGroup.lines_prependText _) _
      · split
        · let after := outline rest
          have h : ∀ group, (LineGroup.conditional hash (hash :: tokens) after.first after.chain
              group).lines = (hash :: tokens) :: (after.first.lines ++ after.chain.lines) ++
                group.lines := fun _ => rfl
          rw [Outline.lines_mapGroup _ h, Outline.lines_eq (outline rest), List.cons_append]
        · split
          · rfl
          · exact Outline.lines_mapGroup [hash :: tokens] (fun _ => rfl) _

end CPreprocessor
