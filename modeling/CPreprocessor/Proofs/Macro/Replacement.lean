import CPreprocessor.Proofs.Macro.Prosser
import Mathlib.Data.List.Chain

/-!
# Replacement lists are assembled

The expander goes over a replacement list twice: it puts the arguments in it, which leaves pieces
(`substitute`), and then pastes the pieces (`pasteAll`). Together this is to assemble the parts of
the replacement list, where a token glued together hides what the left one does
(`substitute_bind_pasteAll`). Pasting is shown to be a loop with an output first (`pasteOnto`), so
that pieces can be gone through one part of the replacement list at a time.
-/

namespace CPreprocessor.Prosser

variable {site : Location}

/-! ## The loop of pasting -/

/-- Applies every `##` of a replacement list from left to right, after some output. -/
def pasteOnto (site : Location) (output pieces : List Piece) : Except Fault (List Piece) :=
  (pasteAfter site output.getLast? pieces).map (output.dropLast ++ ·)

theorem pasteOnto_nil (pieces : List Piece) : pasteOnto site [] pieces = pasteAll site pieces := by
  rw [pasteOnto, List.getLast?_nil, pasteAll]
  cases pasteAfter site none pieces <;> rfl

theorem dropLast_append_toList (output : List Piece) :
    output.dropLast ++ output.getLast?.toList = output := by
  rcases List.eq_nil_or_concat output with rfl | ⟨init, last, rfl⟩
  · rfl
  · simp

theorem pasteOnto_end (output : List Piece) : pasteOnto site output [] = .ok output := by
  rw [pasteOnto, pasteAfter]
  exact congrArg Except.ok (dropLast_append_toList output)

/-- Whether a piece is the operator `##`. -/
def isOperator : Piece → Bool
  | .paste _ => true
  | _ => false

theorem pasteOnto_cons {piece : Piece} (h : isOperator piece = false) (output pieces : List Piece) :
    pasteOnto site output (piece :: pieces) = pasteOnto site (output ++ [piece]) pieces := by
  have hafter : pasteAfter site output.getLast? (piece :: pieces) =
      (pasteAfter site piece pieces).map (output.getLast?.toList ++ ·) := by
    cases piece with
    | paste t => cases h
    | token t | placemarker =>
      cases output.getLast? <;> rw [pasteAfter] <;>
        first | rfl | simp
  rw [pasteOnto, pasteOnto, hafter, List.getLast?_concat, List.dropLast_concat]
  cases pasteAfter site piece pieces with
  | error fault => rfl
  | ok rest =>
    refine congrArg Except.ok ?_
    dsimp only
    rw [← List.append_assoc, dropLast_append_toList]

theorem pasteOnto_append {operands : List Piece} (h : ∀ piece ∈ operands, isOperator piece = false)
    (output pieces : List Piece) :
    pasteOnto site output (operands ++ pieces) = pasteOnto site (output ++ operands) pieces := by
  induction operands generalizing output with
  | nil => rw [List.append_nil]; rfl
  | cons piece operands ih =>
    obtain ⟨hpiece, hoperands⟩ := List.forall_mem_cons.1 h
    rw [List.cons_append, pasteOnto_cons hpiece, ih hoperands, List.append_assoc]
    rfl

theorem pasteOnto_operator (init : List Piece) (left right : Piece) (operator : Token)
    (pieces : List Piece) :
    pasteOnto site (init ++ [left]) (.paste operator :: right :: pieces) =
      (paste site left right >>= fun piece => pasteOnto site (init ++ [piece]) pieces) := by
  simp only [pasteOnto, List.getLast?_concat, List.dropLast_concat, pasteAfter]
  cases paste site left right <;> rfl

theorem pasteOnto_operator_end (output : List Piece) (operator : Token) :
    pasteOnto site output [.paste operator] = .error (.located site .pasteAtEdge) := by
  rw [pasteOnto]
  cases output.getLast? <;> rfl

theorem pasteOnto_operator_nil (operator : Token) (pieces : List Piece) :
    pasteOnto site [] (.paste operator :: pieces) = .error (.located site .pasteAtEdge) := by
  rw [pasteOnto, List.getLast?_nil]
  cases pieces <;> rfl

/-! ## Gluing is pasting -/

/-- What a piece is assembled to. -/
abbrev outcome (pieces : List Piece) : Sequence := pieces.map Piece.token?

/-- A token glued together hides what the left one does. -/
abbrev hideLeft (left _right : HideSet) : HideSet := left

theorem join_token? (left right : Piece) :
    join hideLeft site left.token? right.token? = (paste site left right).map Piece.token? := by
  have htokens (l r : Token) : (some <$> glueTokens hideLeft site l r) =
      (paste site (.token l) (.token r)).map Piece.token? := by
    simp only [glueTokens, paste]
    rcases Token.lex (l.text ++ r.text) with _ | ⟨t, _ | ⟨_, _⟩⟩
    · rfl
    · by_cases htext : t.text = l.text ++ r.text
      · simp only [htext, if_true]
        rfl
      · simp only [htext, if_false]
        rfl
    · rfl
  cases left with
  | placemarker => cases right <;> rfl
  | token l | paste l =>
    cases right with
    | placemarker => rfl
    | token r | paste r => exact htokens l r

theorem glue_concat {hide : HideSet → HideSet → HideSet} (init : Sequence)
    (left right : Option Token) (rights : Sequence) :
    glue hide site (init ++ [left]) (right :: rights) =
      (join hide site left right).map fun middle => init ++ middle :: rights := by
  induction init with
  | nil =>
    rw [List.nil_append, glue]
    cases join hide site left right <;> rfl
  | cons first init ih =>
    obtain ⟨next, lefts, h⟩ := List.exists_cons_of_ne_nil
      (List.append_ne_nil_of_right_ne_nil init (List.cons_ne_nil left []))
    rw [List.cons_append, h, glue, ← h, ih]
    cases join hide site left right <;> rfl

/-! ## The parts of a replacement list as pieces -/

/-- The pieces that stand for a part. -/
def Operand.pieces (given expanded : Nat → List Token) : Operand → List Piece
  | .token t => [.of t]
  | .string mark index => [.token (stringize mark (given index))]
  | .argument parameter index pasted =>
    argumentPieces parameter pasted (if pasted then given index else expanded index)

section

variable {given expanded : Nat → List Token}

theorem outcome_pieces (o : Operand) :
    outcome (o.pieces given expanded) = o.value given expanded := by
  cases o with
  | token t =>
    simp only [Operand.pieces, Operand.value, outcome, List.map_cons, List.map_nil, Piece.of]
    split <;> rfl
  | string mark index => rfl
  | argument parameter index pasted =>
    simp only [Operand.pieces, Operand.value]
    cases (if pasted then given index else expanded index) with
    | nil => cases pasted <;> rfl
    | cons first rest => simp [argumentPieces, Piece.token?]

theorem isOperator_of_mem_argumentPieces {parameter : Token} {pasted : Bool}
    {tokens : List Token} {piece : Piece} (h : piece ∈ argumentPieces parameter pasted tokens) :
    isOperator piece = false := by
  cases tokens with
  | nil =>
    cases pasted with
    | true => rw [List.mem_singleton.1 h]; rfl
    | false => exact absurd h List.not_mem_nil
  | cons first rest =>
    rcases List.mem_cons.1 h with rfl | h
    · rfl
    · obtain ⟨t, -, rfl⟩ := List.mem_map.1 h
      rfl

theorem isOperator_of_mem_pieces {o : Operand} (h : o.isOperator = false) {piece : Piece}
    (hpiece : piece ∈ o.pieces given expanded) : isOperator piece = false := by
  cases o with
  | token t =>
    rw [List.mem_singleton.1 hpiece, Piece.of, if_neg (by simpa [Operand.isOperator] using h)]
    rfl
  | string mark index => rw [List.mem_singleton.1 hpiece]; rfl
  | argument parameter index pasted => exact isOperator_of_mem_argumentPieces hpiece

variable (given expanded) in
theorem pieces_of_isOperator {o : Operand} (h : o.isOperator = true) :
    ∃ t, o.pieces given expanded = [.paste t] := by
  cases o with
  | token t =>
    have ht : t.isPaste = true := h
    exact ⟨t, by rw [Operand.pieces, Piece.of, if_pos ht]⟩
  | string mark index | argument parameter index pasted => cases h

variable (given expanded) in
/-- There is something to be glued where no argument has to be expanded. -/
theorem exists_pieces_eq_cons {o : Operand} (h : o.demand? = none) :
    ∃ piece rest, o.pieces given expanded = piece :: rest ∧
      ∀ p ∈ rest, isOperator p = false := by
  cases o with
  | token t => exact ⟨.of t, [], rfl, List.forall_mem_nil _⟩
  | string mark index => exact ⟨_, [], rfl, List.forall_mem_nil _⟩
  | argument parameter index pasted =>
    cases pasted with
    | false => cases h
    | true =>
      have hpieces : ∀ p ∈ Operand.pieces given expanded (.argument parameter index true),
          isOperator p = false := fun p hp => isOperator_of_mem_argumentPieces hp
      cases hp : Operand.pieces given expanded (.argument parameter index true) with
      | nil =>
        simp only [Operand.pieces, if_true] at hp
        cases hgiven : given index <;> rw [hgiven] at hp <;> cases hp
      | cons piece rest =>
        rw [hp] at hpieces
        exact ⟨piece, rest, rfl, (List.forall_mem_cons.1 hpieces).2⟩

/-- After an operator there is no argument that has to be expanded. -/
def IsPasted (parts : List Operand) : Prop :=
  parts.IsChain fun o right => o.isOperator = true → right.demand? = none

/-- Assembling is pasting the pieces of the parts. -/
theorem assemble_outcome (output : List Piece) : ∀ {parts : List Operand}, IsPasted parts →
    assemble hideLeft site (Operand.value given expanded) (outcome output) parts =
      (pasteOnto site output (parts.flatMap (Operand.pieces given expanded))).map outcome
  | [], _ => by
    rw [List.flatMap_nil, pasteOnto_end, assemble]
    rfl
  | [o], _ => by
    rw [List.flatMap_singleton, assemble]
    cases ho : o.isOperator with
    | true =>
      obtain ⟨t, ht⟩ := pieces_of_isOperator given expanded ho
      rw [if_pos rfl, ht, pasteOnto_operator_end]
      rfl
    | false =>
      rw [if_neg Bool.false_ne_true, ← List.append_nil (o.pieces given expanded),
        pasteOnto_append fun p => isOperator_of_mem_pieces ho, pasteOnto_end, ← outcome_pieces]
      exact congrArg Except.ok List.map_append.symm
  | o :: right :: rest, h => by
    obtain ⟨hright, hrest⟩ := List.isChain_cons_cons.1 h
    rw [assemble, List.flatMap_cons]
    cases ho : o.isOperator with
    | false =>
      rw [if_neg Bool.false_ne_true, pasteOnto_append fun p => isOperator_of_mem_pieces ho,
        ← assemble_outcome (output ++ o.pieces given expanded) hrest, ← outcome_pieces, outcome,
        outcome, outcome, List.map_append]
    | true =>
      obtain ⟨t, ht⟩ := pieces_of_isOperator given expanded ho
      obtain ⟨piece, more, hpieces, hmore⟩ :=
        exists_pieces_eq_cons given expanded (hright ho)
      rw [if_pos rfl, ht, List.singleton_append, List.flatMap_cons, ← outcome_pieces, hpieces]
      rcases List.eq_nil_or_concat output with rfl | ⟨init, left, rfl⟩
      · rw [pasteOnto_operator_nil]
        rfl
      · rw [List.concat_eq_append, List.cons_append, pasteOnto_operator]
        simp only [outcome, List.map_append, List.map_cons, List.map_nil]
        rw [glue_concat, join_token?]
        cases paste site left piece with
        | error fault => rfl
        | ok middle =>
          have hafter := assemble_outcome (init ++ [middle] ++ more) (List.IsChain.tail hrest)
          rw [← pasteOnto_append hmore, outcome, List.map_append, List.map_append,
            List.append_assoc] at hafter
          exact hafter

end

/-! ## Substitution -/

theorem demand?_of_head?_operands {m : Macro} {list : List Token} {o : Operand}
    (h : (operands m true list).head? = some o) : o.demand? = none := by
  match list with
  | [] => cases h
  | [t] =>
    rw [operands] at h
    split at h <;> cases h <;> rfl
  | t :: next :: rest =>
    rw [operands] at h
    split at h
    · cases h
      rfl
    · split at h <;> cases h <;> rfl

theorem isPasted_operands (m : Macro) (afterPaste : Bool) (list : List Token) :
    IsPasted (operands m afterPaste list) := by
  fun_induction operands m afterPaste list with
  | case1 => exact .nil
  | case2 | case3 => exact .singleton _
  | case4 afterPaste t next rest index h ih =>
    exact List.isChain_cons.2 ⟨fun _ _ ho => (Bool.false_ne_true ho).elim, ih⟩
  | case5 afterPaste t next rest h hparameter ih =>
    refine List.isChain_cons.2 ⟨fun right hright ho => ?_, ih⟩
    have ht : t.isPaste = true := ho
    rw [ht] at hright
    exact demand?_of_head?_operands hright
  | case6 afterPaste t next rest h index hparameter ih =>
    exact List.isChain_cons.2 ⟨fun _ _ ho => (Bool.false_ne_true ho).elim, ih⟩

/-- The pieces of a part, for which an argument may have to be expanded first. -/
def Operand.piecesOf (given : Nat → List Token) (expand : Nat → Except Fault (List Token))
    (o : Operand) : Except Fault (List Piece) :=
  match o.demand? with
  | none => .ok (o.pieces given fun _ => [])
  | some index => do
    let tokens ← expand index
    return o.pieces given fun _ => tokens

theorem Operand.piecesOf_argument (given : Nat → List Token)
    (expand : Nat → Except Fault (List Token)) (parameter : Token) (index : Nat) (pasted : Bool) :
    Operand.piecesOf given expand (.argument parameter index pasted) = (do
      let tokens ← if pasted then pure (given index) else expand index
      return argumentPieces parameter pasted tokens) := by
  cases pasted <;> rfl

/-- Substitution goes through the parts of a replacement list. -/
theorem substitute_eq_mapM (m : Macro) (given : Nat → List Token)
    (expand : Nat → Except Fault (List Token)) (afterPaste : Bool) (list : List Token) :
    substitute m given expand afterPaste list = (do
      let pieces ← (operands m afterPaste list).mapM (Operand.piecesOf given expand)
      return pieces.flatten) := by
  fun_induction operands m afterPaste list with
  | case1 => rfl
  | case2 afterPaste t hparameter =>
    rw [substitute, hparameter]
    rfl
  | case3 afterPaste t index hparameter =>
    rw [substitute, hparameter, List.mapM_cons, List.mapM_nil, Operand.piecesOf_argument]
    cases afterPaste <;>
      simp only [Bool.false_eq_true, if_true, if_false, bind_assoc, pure_bind, List.flatten_cons,
        List.flatten_nil, List.append_nil]
  | case4 afterPaste t next rest index h ih =>
    rw [substitute, h, List.mapM_cons]
    dsimp only
    rw [ih]
    simp only [bind_assoc, pure_bind]
    rfl
  | case5 afterPaste t next rest h hparameter ih =>
    rw [substitute, h, List.mapM_cons]
    dsimp only
    rw [hparameter]
    dsimp only
    rw [ih]
    simp only [bind_assoc, pure_bind]
    rfl
  | case6 afterPaste t next rest h index hparameter ih =>
    rw [substitute, h, List.mapM_cons]
    dsimp only
    rw [hparameter, Operand.piecesOf_argument]
    dsimp only
    rw [ih]
    cases afterPaste || next.isPaste <;>
      simp only [Bool.false_eq_true, if_true, if_false, bind_assoc, pure_bind, List.flatten_cons]

section

variable {given expanded : Nat → List Token} {expand : Nat → Except Fault (List Token)}

theorem pieces_of_demand? {o : Operand} {index : Nat} (h : o.demand? = some index) :
    (o.pieces given fun _ => expanded index) = o.pieces given expanded := by
  rcases o with _ | _ | ⟨parameter, i, _ | _⟩ <;> cases h
  rfl

theorem pieces_of_demand?_eq_none {o : Operand} (h : o.demand? = none) :
    (o.pieces given fun _ => []) = o.pieces given expanded := by
  rcases o with _ | _ | ⟨parameter, i, _ | _⟩ <;> first | rfl | cases h

/-- All arguments that have to be expanded can be. -/
theorem mapM_piecesOf {parts : List Operand}
    (h : ∀ j ∈ parts.filterMap Operand.demand?, expand j = .ok (expanded j)) :
    parts.mapM (Operand.piecesOf given expand) =
      .ok (parts.map (Operand.pieces given expanded)) := by
  induction parts with
  | nil => rfl
  | cons o parts ih =>
    rw [List.mapM_cons, Operand.piecesOf]
    cases ho : o.demand? with
    | none =>
      rw [List.filterMap_cons_none ho] at h
      rw [ih h, pieces_of_demand?_eq_none ho]
      rfl
    | some index =>
      rw [List.filterMap_cons_some ho] at h
      obtain ⟨hindex, hparts⟩ := List.forall_mem_cons.1 h
      dsimp only
      rw [ih hparts, hindex, List.map_cons, ← pieces_of_demand? ho]
      rfl

/-- The first argument that cannot be expanded, of those that have to be. -/
theorem mapM_piecesOf_of_fault {parts : List Operand} {earlier later : List Nat} {index : Nat}
    {fault : Fault} (hparts : parts.filterMap Operand.demand? = earlier ++ index :: later)
    (hearlier : ∀ j ∈ earlier, ∃ tokens, expand j = .ok tokens)
    (hindex : expand index = .error fault) :
    parts.mapM (Operand.piecesOf given expand) = .error fault := by
  induction parts generalizing earlier with
  | nil => simp at hparts
  | cons o parts ih =>
    rw [List.mapM_cons, Operand.piecesOf]
    cases ho : o.demand? with
    | none =>
      rw [List.filterMap_cons_none ho] at hparts
      rw [ih hparts hearlier]
      rfl
    | some i =>
      rw [List.filterMap_cons_some ho] at hparts
      cases earlier with
      | nil =>
        obtain ⟨rfl, -⟩ := List.cons.inj hparts
        dsimp only
        rw [hindex]
        rfl
      | cons j earlier =>
        obtain ⟨rfl, hrest⟩ := List.cons.inj hparts
        obtain ⟨⟨tokens, hi⟩, htail⟩ := List.forall_mem_cons.1 hearlier
        dsimp only
        rw [hi, ih hrest htail]
        rfl

end

/-! ## Whole replacements -/

section

variable {m : Macro} {given expanded : Nat → List Token}
  {expand : Nat → Except Fault (List Token)}

/-- **To substitute and to paste is to assemble.** -/
theorem substitute_bind_pasteAll (h : ∀ j ∈ demands m, expand j = .ok (expanded j)) :
    (substitute m given expand false m.replacement >>= pasteAll site).map outcome =
      assemble hideLeft site (Operand.value given expanded) []
        (operands m false m.replacement) := by
  rw [substitute_eq_mapM, mapM_piecesOf h]
  show (pasteAll site (List.flatten _)).map outcome = _
  rw [← pasteOnto_nil, ← List.flatMap_def,
    ← assemble_outcome [] (isPasted_operands m false m.replacement)]
  rfl

theorem substitute_of_fault {earlier later : List Nat} {index : Nat} {fault : Fault}
    (hdemands : demands m = earlier ++ index :: later)
    (hearlier : ∀ j ∈ earlier, ∃ tokens, expand j = .ok tokens)
    (hindex : expand index = .error fault) :
    substitute m given expand false m.replacement = .error fault := by
  rw [substitute_eq_mapM, mapM_piecesOf_of_fault hdemands hearlier hindex]
  rfl

theorem operands_of_object (h : m.kind = .object) (afterPaste : Bool) (list : List Token) :
    operands m afterPaste list = list.map .token := by
  have hparameter : ∀ t, m.parameter? t = none := fun t => by rw [Macro.parameter?, h]
  fun_induction operands m afterPaste list with
  | case1 => rfl
  | case2 => rfl
  | case3 afterPaste t index h | case6 afterPaste t next rest _ index h ih =>
    rw [hparameter] at h
    cases h
  | case4 afterPaste t next rest index h ih =>
    rw [hparameter, ite_self] at h
    cases h
  | case5 afterPaste t next rest _ _ ih =>
    rw [ih]
    rfl

/-- The replacement list of an object-like macro is only pasted. -/
theorem pasteAll_replacement (h : m.kind = .object) :
    (pasteAll site (m.replacement.map .of)).map outcome =
      assemble hideLeft site (Operand.value given expanded) []
        (operands m false m.replacement) := by
  have hpieces : (operands m false m.replacement).flatMap (Operand.pieces given expanded) =
      m.replacement.map .of := by
    rw [operands_of_object h, List.flatMap_map]
    exact List.map_eq_flatMap.symm
  rw [← pasteOnto_nil, ← hpieces, ← assemble_outcome [] (isPasted_operands m false m.replacement)]
  rfl

end

theorem finish_eq_placed (pieces : List Piece) (hidden : HideSet) (t : Token) :
    finish pieces hidden t = placed t hidden (outcome pieces) := by
  have hid : id ∘ Piece.token? = Piece.token? := rfl
  rw [placed, outcome, List.filterMap_map, hid, finish]
  cases (pieces.filterMap Piece.token?).map fun u =>
      { u with hidden := u.hidden.union hidden, position := t.position } with
  | nil => rfl
  | cons first rest => rfl

end CPreprocessor.Prosser
