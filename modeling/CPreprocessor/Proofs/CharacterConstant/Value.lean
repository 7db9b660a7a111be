import CPreprocessor.Proofs.CharacterConstant.Language
import CPreprocessor.Proofs.Token

/-!
# The value of a character constant

A text that has a parse tree as a character constant has a value, or else one of its escape
sequences is out of range or it is too long for its type (`evaluate_of_parse`). Nothing is ever
missing in the tree. As every token that is a character constant has a parse tree, no other error
comes from one.
-/

namespace CPreprocessor.CharacterConstant

open Ascii Grammar

/-- A result is some value with a property, or an escape sequence is out of range. -/
inductive InRange {α : Type} (p : α → Prop) : Except Cause α → Prop
  | ok {a : α} (h : p a) : InRange p (.ok a)
  | outOfRange : InRange p (.error .escapeOutOfRange)

namespace InRange

variable {α β : Type} {p : α → Prop} {q : β → Prop} {x : Except Cause α}

theorem cause_eq {cause : Cause} (h : InRange p x) (hx : x = .error cause) :
    cause = .escapeOutOfRange := by
  cases h with
  | ok => cases hx
  | outOfRange => exact (Except.error.inj hx).symm

theorem of_ok {a : α} (h : InRange p x) (hx : x = .ok a) : p a := by
  cases h with
  | ok h => exact Except.ok.inj hx ▸ h
  | outOfRange => cases hx

theorem bind {f : α → Except Cause β} (h : InRange p x) (hf : ∀ a, p a → InRange q (f a)) :
    InRange q (x >>= f) := by
  cases h with
  | ok h => exact hf _ h
  | outOfRange => exact .outOfRange

theorem map {f : α → β} (h : InRange p x) (hf : ∀ a, p a → q (f a)) : InRange q (f <$> x) := by
  cases h with
  | ok h => exact .ok (hf _ h)
  | outOfRange => exact .outOfRange

theorem mapM {γ : Type} {f : γ → Except Cause α} (hf : ∀ c, InRange (fun _ => True) (f c))
    (list : List γ) : InRange (fun result => result.length = list.length) (list.mapM f) := by
  induction list with
  | nil => exact .ok rfl
  | cons c list ih =>
    rw [List.mapM_cons]
    refine (hf c).bind fun a _ => ih.bind fun result hresult => ?_
    exact .ok (congrArg (· + 1) hresult)

end InRange

/-! ## Reading trees -/

variable {tree : ConstantTree} {text : Bytes}

theorem inRange_escapeValue (radix : Nat) (digits : Bytes) :
    InRange (fun _ => True) (escapeValue radix digits) := by
  unfold escapeValue
  dsimp only
  split
  · exact .ok trivial
  · exact .outOfRange

theorem inRange_unitOf (h : IsCharacter tree text) : InRange (fun _ => True) (unitOf tree) := by
  induction h with
  | next _ ih => exact ih
  | plain | simple => exact .ok trivial
  | octal | hex | universal => exact (inRange_escapeValue _ _).map fun _ _ => trivial

theorem inRange_unitsOf (h : IsSequence tree text) : InRange (· ≠ []) (unitsOf tree) := by
  induction h with
  | next _ ih => exact ih
  | first h => exact (inRange_unitOf h).bind fun unit _ => .ok (List.cons_ne_nil unit [])
  | more _ hcharacter ih =>
    refine ih.bind fun units hunits => (inRange_unitOf hcharacter).bind fun unit _ => .ok ?_
    exact List.append_ne_nil_of_left_ne_nil hunits [unit]

theorem inRange_check (unit : CharacterUnit) : InRange (fun _ => True) unit.check := by
  cases unit with
  | byte | numeric => exact .ok trivial
  | codePoint value =>
    unfold CharacterUnit.check
    dsimp only
    split
    · exact .ok trivial
    · exact .outOfRange

/-- The sequence is the first part of a constant that is no byte. -/
theorem sequence?_eq (before : Bytes) (h : IsSequence tree text) (after : List ConstantTree) :
    sequence? (before.map .leaf ++ .leaf singleQuote :: tree :: after) = some tree := by
  induction before with
  | nil => cases h <;> rfl
  | cons b before ih => exact ih

/-- A text with a parse tree is read as one unit or more. -/
theorem inRange_read (h : grammar.parse .constant text = some tree) :
    InRange (fun result => result.2 ≠ []) (read text) := by
  obtain @⟨encoding, _, _, before, sequence, _, _, hsequence⟩ := isConstant_of_parse h
  simp only [read, h, sequence?_eq before hsequence]
  refine (inRange_unitsOf hsequence).bind fun units hunits => ?_
  refine (InRange.mapM inRange_check units).bind fun checked hchecked => .ok ?_
  rw [← List.length_pos_iff, hchecked]
  exact List.length_pos_iff.2 hunits

/-! ## Values -/

theorem bytes_ne_nil (unit : CharacterUnit) : unit.bytes ≠ [] := by
  cases unit with
  | byte | numeric => exact List.cons_ne_nil _ _
  | codePoint value => exact String.utf8EncodeChar_ne_nil

theorem inRange_codeUnitsFrom (encoding : Encoding) (row : Bytes) (units : List CharacterUnit) :
    InRange (fun _ => True) (codeUnitsFrom encoding row units) := by
  induction units generalizing row with
  | nil => exact .ok trivial
  | cons unit units ih =>
    cases unit with
    | byte b => exact ih _
    | numeric value =>
      rw [codeUnitsFrom]
      split
      · exact .outOfRange
      · exact (ih []).bind fun _ _ => .ok trivial
    | codePoint value =>
      rw [codeUnitsFrom]
      exact (ih []).bind fun _ _ => .ok trivial

theorem plainValue_cause {units : List CharacterUnit} (hunits : units ≠ []) {cause : Cause}
    (h : (plainValue units).2 = .error cause) : cause = .characterConstantTooLong := by
  have hbytes : units.flatMap CharacterUnit.bytes ≠ [] := by
    obtain ⟨unit, units, rfl⟩ := List.exists_cons_of_ne_nil hunits
    rw [List.flatMap_cons]
    exact List.append_ne_nil_of_left_ne_nil (bytes_ne_nil unit) _
  unfold plainValue at h
  dsimp only at h
  split at h
  · contradiction
  · cases h
  · split at h
    · exact (Except.error.inj h).symm
    · cases h

theorem prefixedValue_cause {encoding : Encoding} {units : List CharacterUnit} {cause : Cause}
    (h : prefixedValue encoding units = .error cause) :
    cause = .escapeOutOfRange ∨ cause = .characterConstantTooLong := by
  have hunits := inRange_codeUnitsFrom encoding [] units
  unfold prefixedValue at h
  cases hcode : codeUnitsFrom encoding [] units with
  | error cause' =>
    rw [hcode] at h
    obtain rfl := Except.error.inj h
    exact .inl (hunits.cause_eq hcode)
  | ok codeUnits =>
    rw [hcode] at h
    match codeUnits, h with
    | [], h => exact .inr (Except.error.inj h).symm
    | [unit], h => cases h
    | _ :: _ :: _, h => exact .inr (Except.error.inj h).symm

/-- **Nothing is missing in a parse tree.** A text that has one has a value, or an escape sequence
is out of range or the constant too long. -/
theorem evaluate_of_parse (h : grammar.parse .constant text = some tree) {cause : Cause}
    (hcause : (evaluate text).2 = .error cause) :
    cause = .escapeOutOfRange ∨ cause = .characterConstantTooLong := by
  have hread := inRange_read h
  unfold evaluate at hcause
  split at hcause
  · next heq =>
    obtain rfl := Except.error.inj hcause
    exact .inl (hread.cause_eq heq)
  · next units heq => exact .inr (plainValue_cause (hread.of_ok heq) hcause)
  · exact prefixedValue_cause hcause

/-! ## Tokens -/

/-- **The automaton that finds character constants agrees with their grammar.** A text is accepted
if and only if it has a parse tree whose universal character names are acceptable, so no character
constant in a source is refused for its form. -/
theorem automaton_agrees_with_grammar :
    (∀ text : Bytes, Lexeme.characterConstant.accepts text = true ↔
      ∃ tree, grammar.parse .constant text = some tree ∧
        ∀ c ∈ names tree, Lexeme.UniversalName.isAcceptable c = true) ∧
    ∀ (source : Bytes) (text : Source.Text), ∀ line ∈ Token.linesOf source text, ∀ t ∈ line,
      t.kind = .character →
        (∀ spelling, (evaluate t.text).2 ≠ .error (.invalidCharacterConstant spelling)) ∧
        ∀ part, (evaluate t.text).2 ≠ .error (.missingPart part) := by
  refine ⟨accepts_iff_exists_parse, fun source text line hline t ht hkind => ?_⟩
  have hmem : t.text ∈ Lexeme.Kind.language .character :=
    hkind ▸ (Token.isProper_of_mem_linesOf hline ht).mem (by simp [hkind])
  have haccepts := (Lexeme.Kind.accepts_iff .character t.text).2 hmem
  obtain ⟨tree, htree, -⟩ := (accepts_iff_exists_parse t.text).1 haccepts
  constructor
  · intro spelling hcause
    cases evaluate_of_parse htree hcause <;> contradiction
  · intro part hcause
    cases evaluate_of_parse htree hcause <;> contradiction

/-- An octal and a hexadecimal escape sequence with characters behind them that are no digits of
theirs. -/
theorem automaton_agrees_with_grammar_escapes :
    let source := Bytes.ofString "'\\78\\x41g'"
    let t : Token := { kind := .character, text := source, position := ⟨1, 1⟩ }
    [t] ∈ Token.linesOf source (.ofSource source) ∧
      (∃ tree, grammar.parse .constant t.text = some tree) ∧
        ∀ part, (evaluate t.text).2 ≠ .error (.missingPart part) := by
  intro source t
  have hline : [t] ∈ Token.linesOf source (.ofSource source) := by decide +kernel
  have haccepts : Lexeme.characterConstant.accepts t.text = true := by decide +kernel
  obtain ⟨hiff, hevaluate⟩ := automaton_agrees_with_grammar
  obtain ⟨tree, htree, -⟩ := (hiff t.text).1 haccepts
  exact ⟨hline, ⟨tree, htree⟩, (hevaluate source _ [t] hline t (.head _) rfl).2⟩

end CPreprocessor.CharacterConstant
