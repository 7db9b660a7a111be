import CPreprocessor.Macro.Invocation
import CPreprocessor.Macro.Substitution
import CPreprocessor.Macro.Table
import CPreprocessor.Macro.Termination

/-!
# Macro expansion

Tokens are expanded from left to right. An invocation is replaced by its replacement list, which is
then scanned again together with what follows it, so that an invocation may begin in the replacement
and end beyond it. To keep a macro from being expanded within itself, the tokens of its replacement
hide its name: with what the macro name hides already, and for a function-like macro only so far as
the parenthesis that closes the invocation hides it too.

Expansion of any tokens with any table ends. The four steps of `Expander.expand` that lead to
other tokens descend in the sense of `CPreprocessor.Macro.Termination`.
-/

namespace CPreprocessor

/-- What macro expansion depends on, besides the tokens. -/
structure Expander where
  macros : MacroTable
  /-- The presumed name of the file. -/
  file : String
  /-- The difference between presumed and physical line numbers. -/
  lineDelta : Int := 0
  /-- Whether the operand of `defined` is left alone. -/
  keepDefined : Bool := false

/-- What a token is, given the tokens after it. -/
inductive Reading
  /-- The token is not expanded any further. -/
  | plain (t : Token)
  /-- The token invokes an object-like macro. -/
  | object (m : Macro)
  /-- The token begins the invocation of a function-like macro. -/
  | function (m : Macro) (parameters : Nat) (variadic : Bool)
  /-- The token stands for a number that is too large to be computed. -/
  | overflow

/-- Whether a number has 64 bits, one of them for the sign. -/
def IsInt64 (n : Int) : Prop := -0x8000_0000_0000_0000 ≤ n ∧ n < 0x8000_0000_0000_0000

instance (n : Int) : Decidable (IsInt64 n) := inferInstanceAs (Decidable (_ ∧ _))

namespace Expander

variable (e : Expander)

def locationOf (t : Token) : Location := ⟨e.file, t.position.line, t.position.column, t.endColumn⟩

/-- What a token is. A macro that takes arguments is invoked only before a parenthesis. -/
def reading (t : Token) (rest : List Token) : Reading :=
  if !t.isIdentifier ∨ t.text ∈ t.hidden then .plain t
  else
    match e.macros.lookup t.text with
    | none => .plain t
    | some m =>
      match m.kind with
      | .line =>
        if IsInt64 (t.position.line + e.lineDelta) then
          .plain { t with
            kind := .number
            text := Bytes.ofString (toString (t.position.line + e.lineDelta)) }
        else .overflow
      | .file => .plain { t with kind := .string, text := quote (Bytes.ofString e.file) }
      | .object => .object m
      | .function parameters variadic =>
        if rest.head?.any Token.isOpen then .function m parameters.length variadic else .plain t

theorem exposes_of_reading {t : Token} {rest : List Token} {m : Macro}
    (h : e.reading t rest = .object m ∨ ∃ n v, e.reading t rest = .function m n v) :
    m.name ∈ e.macros.names ∧ t.exposes m.name = true := by
  unfold reading at h
  split at h
  · simp at h
  · next hhidden =>
    split at h
    · simp at h
    · next m' hm' =>
      obtain rfl : m' = m := by
        split at h
        · split at h <;> simp at h
        · simp at h
        · simpa using h
        · split at h
          · obtain h | ⟨_, _, h⟩ := h <;> cases h
            rfl
          · simp at h
      refine ⟨MacroTable.name_mem_names hm', ?_⟩
      rw [(MacroTable.lookup_eq_some hm').1]
      simp only [not_or] at hhidden
      simp [Token.exposes, hhidden.2]

/-- Whether a token is the operator `defined`, the operand of which is left alone. -/
def isKeptDefined (t : Token) : Bool :=
  e.keepDefined && t.isIdentifier && t.text = Bytes.ofString "defined"

/-- The number of tokens that the operand of `defined` is taken to have. -/
def operandLength (rest : List Token) : Nat := if rest.head?.any Token.isOpen then 3 else 1

/-! ## The steps descend -/

/-- The measure of tokens to be expanded. -/
def measure (tokens : List Token) : Profile e.macros.names.length :=
  profile e.macros.names tokens

theorem measure_tail (t : Token) (rest : List Token) :
    WellFoundedRelation.rel (e.measure rest) (e.measure (t :: rest)) :=
  profile_sublist (List.sublist_cons_self t rest) (Nat.lt_succ_self _)

theorem measure_drop (t : Token) (rest : List Token) (n : Nat) :
    WellFoundedRelation.rel (e.measure (rest.drop n)) (e.measure (t :: rest)) :=
  profile_sublist ((List.drop_sublist n rest).cons t) (by
    simp only [List.length_drop, List.length_cons]
    omega)

theorem measure_object {t : Token} {rest : List Token} {m : Macro}
    (h : e.reading t rest = .object m) (pieces : List Piece) :
    WellFoundedRelation.rel
      (e.measure (finish pieces (t.hidden.insert m.name) t ++ rest)) (e.measure (t :: rest)) := by
  obtain ⟨hname, hexposed⟩ := e.exposes_of_reading (.inl h)
  refine profile_replace (fun n => !decide (n ∈ t.hidden.insert m.name)) [t]
    (fun u hu n hn => ?_) (fun n hn => ?_) hname (by simp) (by simpa using hexposed)
  · simp only [Token.exposes, Bool.not_eq_true', decide_eq_false_iff_not] at hn ⊢
    exact fun hmem => hn (hidden_of_mem_finish hu hmem)
  · simp only [Bool.not_eq_true', decide_eq_false_iff_not, HideSet.mem_insert, not_or] at hn
    simp [Token.exposes, hn.2]

/-- The tokens of an invocation begin with its name and a parenthesis and end with another one. -/
theorem exists_of_readInvocation {rest : List Token} {depth : Nat} {commas : Option Nat}
    {i : Invocation} (h : readInvocation depth commas rest.tail = some i) :
    ∃ opening inside, rest = opening :: (inside ++ i.close :: i.after) ∧
      ∀ a ∈ i.arguments, a.Sublist inside := by
  cases rest with
  | nil => simp [readInvocation] at h
  | cons opening rest =>
    obtain ⟨inside, rfl, hsub⟩ := readInvocation_eq_some h
    exact ⟨opening, inside, rfl, hsub⟩

theorem measure_function {t : Token} {rest : List Token} {m : Macro} {n : Nat} {variadic : Bool}
    (h : e.reading t rest = .function m n variadic) {depth : Nat} {commas : Option Nat}
    {i : Invocation} (hi : readInvocation depth commas rest.tail = some i) (pieces : List Piece) :
    WellFoundedRelation.rel
      (e.measure (finish pieces ((t.hidden.inter i.close.hidden).insert m.name) t ++ i.after))
      (e.measure (t :: rest)) := by
  obtain ⟨hname, hexposed⟩ := e.exposes_of_reading (.inr ⟨n, variadic, h⟩)
  obtain ⟨opening, inside, rfl, -⟩ := exists_of_readInvocation hi
  rw [show t :: opening :: (inside ++ i.close :: i.after) =
    (t :: opening :: (inside ++ [i.close])) ++ i.after by simp]
  refine profile_replace
    (fun n => !decide (n ∈ (t.hidden.inter i.close.hidden).insert m.name))
    (t :: opening :: (inside ++ [i.close]))
    (fun u hu n hn => ?_) (fun n hn => ?_) hname (by simp) (by simp [hexposed])
  · simp only [Token.exposes, Bool.not_eq_true', decide_eq_false_iff_not] at hn ⊢
    exact fun hmem => hn (hidden_of_mem_finish hu hmem)
  · simp only [Bool.not_eq_true', decide_eq_false_iff_not, HideSet.mem_insert, HideSet.mem_inter,
      not_or, not_and] at hn
    by_cases ht : n ∈ t.hidden
    · simp [Token.exposes, hn.2 ht]
    · simp [Token.exposes, ht]

theorem measure_argument {t : Token} {rest : List Token} {depth : Nat} {commas : Option Nat}
    {i : Invocation} (hi : readInvocation depth commas rest.tail = some i) {n : Nat}
    {variadic : Bool} {arguments : List (List Token)}
    (hfit : fitArguments n variadic i.arguments = some arguments) {a : List Token}
    (ha : a ∈ arguments) : WellFoundedRelation.rel (e.measure a) (e.measure (t :: rest)) := by
  obtain ⟨opening, inside, rfl, hsub⟩ := exists_of_readInvocation hi
  have hinside : a.Sublist inside := by
    rcases mem_fitArguments hfit ha with h | rfl
    · exact hsub a h
    · exact List.nil_sublist _
  refine profile_sublist ?_ ?_
  · exact ((hinside.trans (List.sublist_append_left _ _)).cons _).cons _
  · have := hinside.length_le
    simp only [List.length_cons, List.length_append]
    omega

/-! ## Expansion -/

/-- The tokens with every macro in them expanded. -/
def expand (tokens : List Token) : Except Fault (List Token) :=
  match tokens with
  | [] => .ok []
  | t :: rest =>
    if e.isKeptDefined t then do
      let length := operandLength rest
      return t :: (rest.take length ++ (← expand (rest.drop length)))
    else
      match _hread : e.reading t rest with
      | .plain t' => do return t' :: (← expand rest)
      | .overflow => .error (.located (e.locationOf t) .lineOverflow)
      | .object m => do
        let pieces ← pasteAll (e.locationOf t) (m.replacement.map .of)
        expand (finish pieces (t.hidden.insert m.name) t ++ rest)
      | .function m parameters variadic =>
        match _hinv : readInvocation 0 (if variadic then some parameters else none) rest.tail with
        | none => .error (.located (e.locationOf t) (.unterminatedInvocation t.spelling))
        | some i =>
          match _hfit : fitArguments parameters variadic i.arguments with
          | none =>
            .error (.located (e.locationOf t)
              (.argumentCount t.spelling i.arguments.length parameters))
          | some arguments => do
            let expanded (index : Nat) : Except Fault (List Token) :=
              match _hget : arguments[index]? with
              | none => .ok []
              | some argument => expand argument
            let pieces ← substitute m (fun index => (arguments[index]?).getD []) expanded false
              m.replacement
            let pieces ← pasteAll (e.locationOf t) pieces
            let hidden := (t.hidden.inter i.close.hidden).insert m.name
            expand (finish pieces hidden t ++ i.after)
termination_by e.measure tokens
decreasing_by
  · exact e.measure_drop t rest _
  · exact e.measure_tail t rest
  · exact e.measure_object _hread _
  · exact e.measure_argument _hinv _hfit (List.mem_of_getElem? _hget)
  · exact e.measure_function _hread _hinv _

end Expander

end CPreprocessor
