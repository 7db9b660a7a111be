import CPreprocessor.Proofs.Macro.Redefinition

/-!
# Names of parameters

The names of the parameters of a macro do not matter. If they are replaced by other names, which are
distinct and capture no token of the replacement list (`Macro.IsFresh`), then the tokens of the
replacement list stand for the same arguments as before (`parameter?_renameToken`), so the parts of
it are the same but for the names (`operands_rename`). Parts are all that substitution looks at:
what it puts in their place, tokens of arguments included, is not searched for parameters again
(`substitute_eq_mapM`). So expansion cannot tell the macros apart (`Expander.expand_renamed`).
-/

namespace CPreprocessor

open Prosser (Operand operands substitute_eq_mapM)

namespace Macro

variable {m n : Macro} {ρ : Bytes → Bytes} {t : Token}

/-- A token of the replacement list with the parameter in it renamed, if there is one. -/
def renameToken (m : Macro) (ρ : Bytes → Bytes) (t : Token) : Token :=
  if t.isIdentifier && m.parameters.contains t.text then { t with text := ρ t.text } else t

/-- The macro with its parameters renamed. -/
def rename (m : Macro) (ρ : Bytes → Bytes) : Macro where
  name := m.name
  kind :=
    match m.kind with
    | .function parameters variadic => .function (parameters.map ρ) variadic
    | kind => kind
  replacement := m.replacement.map (m.renameToken ρ)

/-- A token of the replacement list that is no parameter does not become one. -/
def Spares (m : Macro) (ρ : Bytes → Bytes) (t : Token) : Prop :=
  t.isIdentifier = true → t.text ∉ m.parameters → t.text ∉ m.parameters.map ρ

/-- The new names of the parameters are distinct, and neither the variable arguments nor any other
identifier of the replacement list has one of them. -/
structure IsFresh (m : Macro) (ρ : Bytes → Bytes) : Prop where
  nodup : (m.parameters.map ρ).Nodup
  variableArguments_notMem : variableArguments ∉ m.parameters.map ρ
  spares : ∀ t ∈ m.replacement, m.Spares ρ t

/-- A macro is another one with its parameters renamed, be its tokens where they may. -/
structure IsRenaming (m : Macro) (ρ : Bytes → Bytes) (n : Macro) : Prop where
  name : n.name = m.name
  kind : (m.rename ρ).kind = n.kind
  replacement : TokensAlike false (m.rename ρ).replacement n.replacement

/-! ## Tokens -/

@[simp] theorem parameters_rename (m : Macro) (ρ : Bytes → Bytes) :
    (m.rename ρ).parameters = m.parameters.map ρ := by
  rw [parameters, parameters, rename]
  cases m.kind <;> rfl

@[simp] theorem isVariadic_rename (m : Macro) (ρ : Bytes → Bytes) :
    (m.rename ρ).isVariadic = m.isVariadic := by
  rw [isVariadic, isVariadic, rename]
  cases m.kind <;> rfl

@[simp] theorem isFunctionLike_rename (m : Macro) (ρ : Bytes → Bytes) :
    (m.rename ρ).isFunctionLike = m.isFunctionLike := by
  rw [isFunctionLike, isFunctionLike, rename]
  cases m.kind <;> rfl

@[simp] theorem kind_renameToken (t : Token) : (m.renameToken ρ t).kind = t.kind := by
  rw [renameToken]
  split <;> rfl

@[simp] theorem spaced_renameToken (t : Token) : (m.renameToken ρ t).spaced = t.spaced := by
  rw [renameToken]
  split <;> rfl

theorem text_renameToken (h : t.isIdentifier = true ∧ t.text ∈ m.parameters) :
    (m.renameToken ρ t).text = ρ t.text := by
  rw [renameToken, if_pos (by simpa using h)]

theorem renameToken_eq_self (h : ¬ (t.isIdentifier = true ∧ t.text ∈ m.parameters)) :
    m.renameToken ρ t = t :=
  if_neg (by simpa using h)

/-- A punctuator has no name. -/
theorem isPunctuator_renameToken (t : Token) (spelling : Bytes) :
    (m.renameToken ρ t).isPunctuator spelling = t.isPunctuator spelling := by
  by_cases h : t.isIdentifier = true ∧ t.text ∈ m.parameters
  · have hkind : t.kind = .identifier := by simpa [Token.isIdentifier] using h.1
    rw [Token.isPunctuator, Token.isPunctuator, kind_renameToken, hkind]
    rfl
  · rw [renameToken_eq_self h]

@[simp] theorem isPaste_renameToken (t : Token) : (m.renameToken ρ t).isPaste = t.isPaste :=
  isPunctuator_renameToken t _

@[simp] theorem isHash_renameToken (t : Token) : (m.renameToken ρ t).isHash = t.isHash :=
  isPunctuator_renameToken t _

/-- A new name has the index of the old one. -/
theorem idxOf?_map {names : List Bytes} (h : (names.map ρ).Nodup) {name : Bytes}
    (hname : name ∈ names) : (names.map ρ).idxOf? (ρ name) = names.idxOf? name := by
  induction names with
  | nil => exact absurd hname List.not_mem_nil
  | cons first rest ih =>
    rw [List.map_cons, List.idxOf?_cons, List.idxOf?_cons]
    by_cases hfirst : first = name
    · simp [hfirst]
    · have hrest : name ∈ rest := (List.mem_cons.1 hname).resolve_left (Ne.symm hfirst)
      obtain ⟨hnotMem, hnodup⟩ := List.nodup_cons.1 h
      have hne : ρ first ≠ ρ name := fun heq => hnotMem (heq ▸ List.mem_map_of_mem hrest)
      simp [hfirst, hne, ih hnodup hrest]

/-- **A token stands for the same argument before and after the renaming.** -/
theorem parameter?_renameToken (hm : m.IsWellFormed) (h : m.IsFresh ρ) (ht : m.Spares ρ t) :
    (m.rename ρ).parameter? (m.renameToken ρ t) = m.parameter? t := by
  cases hkind : m.kind with
  | function names variadic =>
    have hnames : m.parameters = names := by rw [parameters, hkind]
    have hkind' : (m.rename ρ).kind = .function (names.map ρ) variadic := by rw [rename, hkind]
    have hidentifier : (m.renameToken ρ t).isIdentifier = t.isIdentifier := by
      rw [Token.isIdentifier, Token.isIdentifier, kind_renameToken]
    rw [parameter?, parameter?, hkind, hkind']
    dsimp only
    rw [hidentifier]
    cases hisIdentifier : t.isIdentifier with
    | false => rfl
    | true =>
      have hnotMem := h.variableArguments_notMem
      rw [hnames] at hnotMem
      by_cases htext : t.text ∈ names
      · have hrenamed : (m.renameToken ρ t).text = ρ t.text :=
          text_renameToken ⟨hisIdentifier, hnames ▸ htext⟩
        have hnew : ρ t.text ≠ variableArguments :=
          ne_of_mem_of_not_mem (List.mem_map_of_mem htext) hnotMem
        have hold : t.text ≠ variableArguments :=
          ne_of_mem_of_not_mem htext (hnames ▸ hm.variableArguments_notMem)
        simp [hrenamed, hnew, hold, idxOf?_map (hnames ▸ h.nodup) htext]
      · have hspared : t.text ∉ names.map ρ :=
          hnames ▸ ht hisIdentifier (hnames ▸ htext)
        rw [renameToken_eq_self fun hmem => htext (hnames ▸ hmem.2), List.length_map,
          List.idxOf?_eq_none_iff.2 htext, List.idxOf?_eq_none_iff.2 hspared]
  | object | line | file =>
    rw [parameter?, parameter?, rename, hkind]

/-- A token that stands for itself is left alone. -/
theorem renameToken_of_parameter?_eq_none (h : m.parameter? t = none) :
    m.renameToken ρ t = t := by
  refine renameToken_eq_self fun ⟨hidentifier, htext⟩ => ?_
  cases hkind : m.kind with
  | function names variadic =>
    rw [parameters, hkind] at htext
    rw [parameter?, hkind] at h
    simp only [hidentifier, Bool.not_true, Bool.false_eq_true, if_false] at h
    split at h
    · cases h
    · exact List.idxOf?_eq_none_iff.1 h htext
  | object | line | file =>
    rw [parameters, hkind] at htext
    exact List.not_mem_nil htext

theorem renameToken_of_isHash (h : t.isHash = true) : m.renameToken ρ t = t := by
  refine renameToken_eq_self fun hidentifier => ?_
  have hkind : t.kind = .identifier := by simpa [Token.isIdentifier] using hidentifier.1
  simp [Token.isHash, Token.isPunctuator, hkind] at h

/-! ## Replacement lists -/

/-- A part of a replacement list with the parameter in it renamed, if there is one. -/
def renameOperand (m : Macro) (ρ : Bytes → Bytes) : Operand → Operand
  | .argument parameter index pasted => .argument (m.renameToken ρ parameter) index pasted
  | o => o

/-- The renamed macro has the same parts. -/
theorem operands_rename (hm : m.IsWellFormed) (h : m.IsFresh ρ) (afterPaste : Bool)
    {list : List Token} (hlist : ∀ t ∈ list, m.Spares ρ t) :
    operands (m.rename ρ) afterPaste (list.map (m.renameToken ρ)) =
      (operands m afterPaste list).map (m.renameOperand ρ) := by
  fun_induction operands m afterPaste list with
  | case1 => rfl
  | case2 afterPaste t hnone =>
    have ht := List.forall_mem_singleton.1 hlist
    rw [List.map_singleton, operands, parameter?_renameToken hm h ht, hnone,
      renameToken_of_parameter?_eq_none hnone]
    rfl
  | case3 afterPaste t index hsome =>
    have ht := List.forall_mem_singleton.1 hlist
    rw [List.map_singleton, operands, parameter?_renameToken hm h ht, hsome]
    rfl
  | case4 afterPaste t next rest index hstring ih =>
    have hhash : t.isHash = true := by
      by_contra hhash
      rw [if_neg hhash] at hstring
      cases hstring
    obtain ⟨-, hnext, hrest⟩ := (List.forall_mem_cons.1 hlist).imp_right List.forall_mem_cons.1
    rw [List.map_cons, List.map_cons, operands, isHash_renameToken,
      parameter?_renameToken hm h hnext, hstring]
    dsimp only
    rw [ih hrest, renameToken_of_isHash hhash]
    rfl
  | case5 afterPaste t next rest hstring hnone ih =>
    obtain ⟨ht, hrest⟩ := List.forall_mem_cons.1 hlist
    have hnext := hrest next List.mem_cons_self
    rw [List.map_cons, List.map_cons, operands, isHash_renameToken,
      parameter?_renameToken hm h hnext, hstring]
    dsimp only
    rw [parameter?_renameToken hm h ht, hnone, isPaste_renameToken, ← List.map_cons, ih hrest,
      renameToken_of_parameter?_eq_none hnone]
    rfl
  | case6 afterPaste t next rest hstring index hsome ih =>
    obtain ⟨ht, hrest⟩ := List.forall_mem_cons.1 hlist
    have hnext := hrest next List.mem_cons_self
    rw [List.map_cons, List.map_cons, operands, isHash_renameToken,
      parameter?_renameToken hm h hnext, hstring]
    dsimp only
    rw [parameter?_renameToken hm h ht, hsome]
    dsimp only
    rw [isPaste_renameToken, ← List.map_cons, ih hrest]
    rfl

/-- A part becomes the same pieces, whatever the name of the parameter is. -/
theorem piecesOf_renameOperand (m : Macro) (ρ : Bytes → Bytes) (argument : Nat → List Token)
    (expanded : Nat → Except Fault (List Token)) (o : Operand) :
    (m.renameOperand ρ o).piecesOf argument expanded = o.piecesOf argument expanded := by
  cases o with
  | token | string => rfl
  | argument parameter index pasted =>
    rw [renameOperand, Operand.piecesOf_argument, Operand.piecesOf_argument]
    have hpieces (tokens : List Token) : argumentPieces (m.renameToken ρ parameter) pasted tokens =
        argumentPieces parameter pasted tokens := by
      cases tokens <;> simp only [argumentPieces, spaced_renameToken]
    simp only [hpieces]

theorem substitute_rename (hm : m.IsWellFormed) (h : m.IsFresh ρ) (argument : Nat → List Token)
    (expanded : Nat → Except Fault (List Token)) :
    substitute (m.rename ρ) argument expanded false (m.rename ρ).replacement =
      substitute m argument expanded false m.replacement := by
  have hreplacement : (m.rename ρ).replacement = m.replacement.map (m.renameToken ρ) := rfl
  rw [substitute_eq_mapM, substitute_eq_mapM, hreplacement, operands_rename hm h false h.spares,
    List.mapM_map]
  simp only [Function.comp_def, piecesOf_renameOperand]

theorem isInterchangeable_rename (hm : m.IsWellFormed) (h : m.IsFresh ρ) :
    m.IsInterchangeable (m.rename ρ) where
  name := rfl
  kind := by
    rw [rename]
    cases m.kind with
    | function => simp [MacroKind.anonymous, Function.comp_def]
    | object | line | file => rfl
  replace := by
    funext site argument expanded hidden t
    rw [replace, replace, substitute_rename hm h]

theorem IsRenaming.isInterchangeable (hrenaming : m.IsRenaming ρ n) (hm : m.IsWellFormed)
    (h : m.IsFresh ρ) : m.IsInterchangeable n :=
  (isInterchangeable_rename hm h).trans
    (isInterchangeable_of_alike hrenaming.name.symm hrenaming.kind hrenaming.replacement)

/-! ## The renamed macro is accepted -/

/-- What the constraint on definitions asks of a token. -/
def signature (m : Macro) (t : Token) : Bool × Bool × Bool × Option Nat :=
  (t.isPaste, t.isHash, isVariableArguments t, m.parameter? t)

theorem stringizesParameters_congr {list list' : List Token}
    (h : list.map m.signature = list'.map n.signature) :
    m.stringizesParameters list = n.stringizesParameters list' := by
  induction list generalizing list' with
  | nil => rw [List.map_eq_nil_iff.1 h.symm]; rfl
  | cons t rest ih =>
    obtain ⟨u, rest', rfl, hu, hrest⟩ := List.map_eq_cons_iff.1 h.symm
    have hhash : t.isHash = u.isHash := congrArg (·.2.1) hu.symm
    have hnext : rest.head?.bind m.parameter? = rest'.head?.bind n.parameter? := by
      have hhead := congrArg (fun l => l.head?.bind (·.2.2.2)) hrest
      simpa [Option.bind_map, Function.comp_def, signature] using hhead.symm
    rw [stringizesParameters, stringizesParameters, hhash, hnext, ih hrest.symm]

/-- The check asks no more of the replacement list than that. -/
theorem check_congr
    (hparameters : checkParameters [] m.parameters = checkParameters [] n.parameters)
    (hvariadic : m.isVariadic = n.isVariadic) (hfunction : m.isFunctionLike = n.isFunctionLike)
    (h : m.replacement.map m.signature = n.replacement.map n.signature) : m.check = n.check := by
  have hhead := congrArg (fun l => l.head?.any (·.1)) h
  have hlast := congrArg (fun l => l.getLast?.any (·.1)) h
  have hany := congrArg (fun l => l.any (·.2.2.1)) h
  simp only [List.head?_map, List.getLast?_map, List.any_map, Option.any_map, Function.comp_def,
    signature] at hhead hlast hany
  rw [check, check, hparameters, hhead, hlast, hvariadic, hany, hfunction,
    stringizesParameters_congr h]

/-- A new name is not that of the variable arguments. -/
theorem isVariableArguments_renameToken (hm : m.IsWellFormed) (h : m.IsFresh ρ) (t : Token) :
    isVariableArguments (m.renameToken ρ t) = isVariableArguments t := by
  by_cases ht : t.isIdentifier = true ∧ t.text ∈ m.parameters
  · have hold : t.text ≠ variableArguments :=
      ne_of_mem_of_not_mem ht.2 hm.variableArguments_notMem
    have hnew : ρ t.text ≠ variableArguments :=
      ne_of_mem_of_not_mem (List.mem_map_of_mem ht.2) h.variableArguments_notMem
    simp [isVariableArguments, Token.isIdentifier, text_renameToken ht, hold, hnew]
  · rw [renameToken_eq_self ht]

theorem check_rename (hm : m.IsWellFormed) (h : m.IsFresh ρ) : (m.rename ρ).check = m.check := by
  have hparameters : checkParameters [] (m.rename ρ).parameters =
      checkParameters [] m.parameters := by
    rw [(checkParameters_eq_ok_iff [] m.parameters).2
      ⟨hm.nodup_parameters, hm.variableArguments_notMem, fun _ _ => List.not_mem_nil⟩,
      parameters_rename]
    exact (checkParameters_eq_ok_iff [] _).2
      ⟨h.nodup, h.variableArguments_notMem, fun _ _ => List.not_mem_nil⟩
  refine check_congr hparameters (isVariadic_rename m ρ) (isFunctionLike_rename m ρ) ?_
  rw [rename, List.map_map]
  refine List.map_congr_left fun t ht => ?_
  have hparameter := parameter?_renameToken hm h (h.spares t ht)
  rw [rename] at hparameter
  simp only [Function.comp_apply, signature, isPaste_renameToken, isHash_renameToken,
    isVariableArguments_renameToken hm h, hparameter]

theorem signature_eq_of_alike {gap : Bool} {list list' : List Token} (hkind : m.kind = n.kind)
    (h : TokensAlike gap list list') : list.map m.signature = list'.map n.signature := by
  induction h with
  | nil => rfl
  | @cons _ t u _ _ ht _ ih =>
    have hvariable : isVariableArguments t = isVariableArguments u := by
      rw [isVariableArguments, isVariableArguments, Token.isIdentifier, Token.isIdentifier, ht.kind,
        ht.text]
    rw [List.map_cons, List.map_cons, ih, signature, signature, ht.isPaste, ht.isHash, hvariable,
      ht.parameter?_eq hkind]

theorem check_eq_of_alike (hkind : m.kind = n.kind)
    (h : TokensAlike false m.replacement n.replacement) : m.check = n.check := by
  have hparameters : m.parameters = n.parameters := by rw [parameters, parameters, hkind]
  exact check_congr (by rw [hparameters]) (by rw [isVariadic, isVariadic, hkind])
    (by rw [isFunctionLike, isFunctionLike, hkind]) (signature_eq_of_alike hkind h)

end Macro

/-- **The names of parameters do not matter.** If a macro that was accepted as a definition has its
parameters renamed, to distinct names that capture nothing in the replacement list, then the renamed
macro is accepted as well, and any tokens are expanded to the same tokens, or with the same error,
with the one and with the other. Substitution goes once through the parts of the replacement list:
the argument that takes the place of a parameter is put in as it is, whatever its tokens are
named. -/
theorem Expander.expand_renamed {e : Expander} {table table' : MacroTable} {m n : Macro}
    {ρ : Bytes → Bytes} (hdefine : table.define m = .ok table')
    (hlookup : e.macros.lookup m.name = some m) (hfresh : m.IsFresh ρ)
    (hrenaming : m.IsRenaming ρ n) :
    n.check = .ok () ∧
      (∀ tokens, (e.withMacros (e.macros.insert n)).expand tokens = e.expand tokens) ∧
      ∀ argument expanded, substitute m argument expanded false m.replacement = (do
        let pieces ← (operands m false m.replacement).mapM (Operand.piecesOf argument expanded)
        return pieces.flatten) := by
  have hm := MacroTable.isWellFormed_of_define hdefine
  refine ⟨?_, expand_congr ?_, fun argument expanded => substitute_eq_mapM m _ _ _ _⟩
  · rw [← Macro.check_eq_of_alike hrenaming.kind hrenaming.replacement,
      Macro.check_rename hm hfresh, Macro.check_eq_ok_iff]
    exact hm
  · exact MacroTable.isInterchangeable_insert (hrenaming.name.symm ▸ hlookup)
      (hrenaming.isInterchangeable hm hfresh)

/-! ## An argument spelled like another parameter -/

open Prosser (word mark)

/-- The macro `PAIR(x, y)`, which is `y x`. -/
def pair : Macro where
  name := Bytes.ofString "PAIR"
  kind := .function [Bytes.ofString "x", Bytes.ofString "y"] false
  replacement := [word "y" [], { word "x" [] with spaced := true }]

/-- The macro `PAIR(first, second)`, which is `second first`. -/
def longPair : Macro where
  name := Bytes.ofString "PAIR"
  kind := .function [Bytes.ofString "first", Bytes.ofString "second"] false
  replacement := [{ word "second" [] with position := ⟨1, 9⟩ },
    { word "first" [] with spaced := true, position := ⟨1, 16⟩ }]

def pairExpander : Expander := { macros := ⟨[pair]⟩, file := "main.c" }

/-- The names `first` and `second` for `x` and `y`. -/
def longName (name : Bytes) : Bytes :=
  if name = Bytes.ofString "x" then Bytes.ofString "first" else Bytes.ofString "second"

/-- Both parameters of the macro are replaced by a word. -/
theorem mapM_piecesOf_pair :
    let given := Expander.argument [[word "y" []], [word "z" []]]
    (operands pair false pair.replacement).mapM
        (Operand.piecesOf given fun index => pairExpander.expand (given index)) =
      .ok ((operands pair false pair.replacement).map (Operand.pieces given given)) := by
  have hword (text : String) (h : pairExpander.reading (word text []) [] = .plain (word text [])) :
      pairExpander.expand [word text []] = .ok [word text []] := by
    rw [pairExpander.expand_plain rfl h, Expander.expand_nil]
    rfl
  intro given
  refine Prosser.mapM_piecesOf fun j hj => ?_
  replace hj : j ∈ [1, 0] := hj
  obtain rfl | rfl : j = 1 ∨ j = 0 := by simpa using hj
  · exact hword "z" rfl
  · exact hword "y" rfl

theorem expand_pair : pairExpander.expand
      [word "PAIR" [], mark "(" [], word "y" [], mark "," [], word "z" [], mark ")" []] =
    .ok [word "z" ["PAIR"], { word "y" ["PAIR"] with spaced := true }] := by
  have hi : Expander.invocation? 2 false
      [mark "(" [], word "y" [], mark "," [], word "z" [], mark ")" []] =
        some ⟨[word "y" []], [[word "z" []]], mark ")" [], []⟩ := rfl
  have hfit : fitArguments 2 false [[word "y" []], [word "z" []]] =
      some [[word "y" []], [word "z" []]] := rfl
  rw [pairExpander.expand_function rfl rfl hi hfit, substitute_eq_mapM, mapM_piecesOf_pair]
  show pairExpander.expand [word "z" ["PAIR"], { word "y" ["PAIR"] with spaced := true }] = _
  rw [pairExpander.expand_plain rfl rfl, pairExpander.expand_plain rfl rfl, Expander.expand_nil]
  rfl

/-- `PAIR(y, z)` is `z y` with both macros: the argument `y` is not taken for the parameter. -/
theorem Expander.expand_renamed_pair :
    (∅ : MacroTable).define pair = .ok ⟨[pair]⟩ ∧
      pairExpander.macros.lookup pair.name = some pair ∧ pair.IsFresh longName ∧
      pair.IsRenaming longName longPair ∧
      (pairExpander.withMacros (pairExpander.macros.insert longPair)).expand
          [word "PAIR" [], mark "(" [], word "y" [], mark "," [], word "z" [], mark ")" []] =
        .ok [word "z" ["PAIR"], { word "y" ["PAIR"] with spaced := true }] := by
  have hdefine : (∅ : MacroTable).define pair = .ok ⟨[pair]⟩ := rfl
  have hlookup : pairExpander.macros.lookup pair.name = some pair := rfl
  have hfresh : pair.IsFresh longName := ⟨by decide, by decide, by unfold Macro.Spares; decide⟩
  have hrenaming : pair.IsRenaming longName longPair :=
    ⟨rfl, rfl, .cons ⟨rfl, rfl, rfl, nofun⟩ (.cons ⟨rfl, rfl, rfl, fun _ => rfl⟩ (.nil true))⟩
  refine ⟨hdefine, hlookup, hfresh, hrenaming, ?_⟩
  rw [(expand_renamed hdefine hlookup hfresh hrenaming).2.1, expand_pair]

end CPreprocessor
