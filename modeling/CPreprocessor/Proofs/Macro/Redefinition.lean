import CPreprocessor.Proofs.Macro.Congruence
import CPreprocessor.Proofs.Session.LineNumbers
import CPreprocessor.Proofs.Token.Kind

/-!
# Redefinitions

A macro may be defined again in the same words. The tokens of the new replacement list are in other
places than those of the old one, and the white-space before the first of them may differ. None of
this can be seen in what the macro is replaced by: all its tokens are moved to the invocation, and
the first one gets the white-space of the macro name (`finish_eq_of_alike`). Two runs over such
lists stay alike in this sense on the way there (`agree_substitute`, `agree_pasteAll`).

What else a token knows, its kind, is not compared, but told by its text if the macros are defined
by directives (`alike_of_sameReplacement`). So a macro may be defined again without effect
(`Expander.expand_redefined`).
-/

namespace CPreprocessor

/-- Two tokens differ in nothing but where they are and, unless the gap before them is to be the
same, in that. -/
structure Token.Alike (gap : Bool) (t u : Token) : Prop where
  kind : t.kind = u.kind
  text : t.text = u.text
  hidden : t.hidden = u.hidden
  spaced : gap = true → t.spaced = u.spaced

/-- Two pieces with tokens that are alike. -/
inductive Piece.Alike (gap : Bool) : Piece → Piece → Prop
  | token {t u : Token} (h : t.Alike gap u) : Alike gap (.token t) (.token u)
  | paste {t u : Token} (h : t.Alike gap u) : Alike gap (.paste t) (.paste u)
  | placemarker : Alike gap .placemarker .placemarker

/-- Two lists with elements that are alike, but that the gap before the first element matters only
if it is said to. -/
inductive ListsAlike {α : Type} (r : Bool → α → α → Prop) : Bool → List α → List α → Prop
  | nil (gap : Bool) : ListsAlike r gap [] []
  | cons {gap : Bool} {a b : α} {as bs : List α} (h : r gap a b) (hs : ListsAlike r true as bs) :
      ListsAlike r gap (a :: as) (b :: bs)

abbrev TokensAlike := ListsAlike Token.Alike

abbrev PiecesAlike := ListsAlike Piece.Alike

/-! ## Alike tokens and pieces -/

namespace Token.Alike

variable {gap : Bool} {t u : Token}

theorem refl (gap : Bool) (t : Token) : t.Alike gap t := ⟨rfl, rfl, rfl, fun _ => rfl⟩

theorem mono (h : t.Alike true u) (gap : Bool) : t.Alike gap u :=
  ⟨h.kind, h.text, h.hidden, fun _ => h.spaced rfl⟩

/-- What a token becomes keeps its gap. -/
theorem respell (h : t.Alike gap u) (kind : Lexeme.Kind) (text : Bytes) :
    Token.Alike gap { t with kind, text } { u with kind, text } :=
  ⟨rfl, rfl, h.hidden, h.spaced⟩

theorem canonical (h : t.Alike gap u) : t.canonical = u.canonical := by
  rw [Token.canonical, Token.canonical, h.kind, h.text]

theorem isPunctuator (h : t.Alike gap u) (spelling : Bytes) :
    t.isPunctuator spelling = u.isPunctuator spelling := by
  rw [Token.isPunctuator, Token.isPunctuator, h.kind, h.canonical]

theorem isPaste (h : t.Alike gap u) : t.isPaste = u.isPaste := h.isPunctuator _

theorem isHash (h : t.Alike gap u) : t.isHash = u.isHash := h.isPunctuator _

/-- Macros with the same parameters find the same one in both tokens. -/
theorem parameter?_eq (h : t.Alike gap u) {m n : Macro} (hkind : m.kind = n.kind) :
    m.parameter? t = n.parameter? u := by
  rw [Macro.parameter?, Macro.parameter?, hkind, Token.isIdentifier, Token.isIdentifier, h.kind,
    h.text]

theorem of (h : t.Alike gap u) : Piece.Alike gap (.of t) (.of u) := by
  rw [Piece.of, Piece.of, h.isPaste]
  split
  · exact .paste h
  · exact .token h

end Token.Alike

theorem Piece.Alike.mono {p q : Piece} (h : p.Alike true q) (gap : Bool) : p.Alike gap q := by
  cases h with
  | token h => exact .token (h.mono gap)
  | paste h => exact .paste (h.mono gap)
  | placemarker => exact .placemarker

theorem Piece.Alike.isOperator_eq {gap : Bool} {p q : Piece} (h : p.Alike gap q) :
    Prosser.isOperator p = Prosser.isOperator q := by
  cases h <;> rfl

namespace ListsAlike

variable {gap : Bool} {ps qs ps' qs' : List Piece}

theorem mono {α : Type} {r : Bool → α → α → Prop} {as bs : List α} (h : ListsAlike r true as bs)
    (hr : ∀ a b, r true a b → r gap a b) : ListsAlike r gap as bs := by
  cases h with
  | nil => exact .nil gap
  | cons h hs => exact .cons (hr _ _ h) hs

theorem append (h : PiecesAlike gap ps qs) (h' : PiecesAlike true ps' qs') :
    PiecesAlike gap (ps ++ ps') (qs ++ qs') := by
  induction h with
  | nil => exact h'.mono fun _ _ hpiece => hpiece.mono _
  | cons h _ ih => exact .cons h ih

theorem refl_tokens (tokens : List Token) :
    PiecesAlike true (tokens.map .token) (tokens.map .token) := by
  induction tokens with
  | nil => exact .nil true
  | cons t tokens ih => exact .cons (.token (.refl true t)) ih

end ListsAlike

/-! ## Replacement lists -/

section

variable {m n : Macro} {argument : Nat → List Token} {expanded : Nat → Except Fault (List Token)}

/-- An argument has the gap of the parameter before it. -/
theorem alike_argumentPieces {gap : Bool} {t u : Token} (h : t.Alike gap u) (operand : Bool)
    (tokens : List Token) :
    PiecesAlike gap (argumentPieces t operand tokens) (argumentPieces u operand tokens) := by
  cases tokens with
  | nil =>
    cases operand with
    | true => exact .cons .placemarker (.nil true)
    | false => exact .nil gap
  | cons first rest => exact .cons (.token ⟨rfl, rfl, rfl, h.spaced⟩) (.refl_tokens rest)

theorem ListsAlike.any_head? {gap : Bool} {list list' : List Token}
    (h : TokensAlike gap list list') :
    list.head?.any Token.isPaste = list'.head?.any Token.isPaste := by
  cases h with
  | nil => rfl
  | cons h _ => exact h.isPaste

theorem ListsAlike.bind_head? {gap : Bool} {list list' : List Token}
    (h : TokensAlike gap list list') (hkind : m.kind = n.kind) :
    list.head?.bind m.parameter? = list'.head?.bind n.parameter? := by
  cases h with
  | nil => rfl
  | cons h _ => exact h.parameter?_eq hkind

theorem ListsAlike.tail {gap : Bool} {list list' : List Token} (h : TokensAlike gap list list') :
    TokensAlike true list.tail list'.tail := by
  cases h with
  | nil => exact .nil true
  | cons _ hs => exact hs

/-- Arguments are put in lists of tokens that are alike in the same way. -/
theorem agree_substitute (hkind : m.kind = n.kind) {gap : Bool} {list list' : List Token}
    (h : TokensAlike gap list list') (afterPaste : Bool) :
    Agree (PiecesAlike gap) (substitute m argument expanded afterPaste list)
      (substitute n argument expanded afterPaste list') := by
  induction hlength : list.length using Nat.strong_induction_on
    generalizing gap list list' afterPaste with
  | _ k ih =>
    subst hlength
    cases h with
    | nil => exact .ok (.nil gap)
    | @cons _ t u rest rest' h hs =>
      have hrest (afterPaste : Bool) : Agree (PiecesAlike true)
          (substitute m argument expanded afterPaste rest)
          (substitute n argument expanded afterPaste rest') :=
        ih _ (Nat.lt_succ_self _) hs afterPaste rfl
      have htail : Agree (PiecesAlike true) (substitute m argument expanded false rest.tail)
          (substitute n argument expanded false rest'.tail) :=
        ih _ (by simp only [List.length_tail, List.length_cons]; omega) hs.tail false rfl
      have happend {ps qs : List Piece} (h : PiecesAlike gap ps qs)
          {x y : Except Fault (List Piece)} (hxy : Agree (PiecesAlike true) x y) :
          Agree (PiecesAlike gap) (do return ps ++ (← x)) (do return qs ++ (← y)) :=
        hxy.bind fun _ _ hmore => .ok (h.append hmore)
      rw [substitute_cons, substitute_cons, ← h.isHash, ← hs.bind_head? hkind,
        ← h.parameter?_eq hkind, ← hs.any_head?, ← h.isPaste]
      split
      · next index =>
        exact happend (.cons (.token (h.respell _ _)) (.nil true) : PiecesAlike gap [_] [_]) htail
      · split
        · exact happend (.cons h.of (.nil true) : PiecesAlike gap [_] [_]) (hrest _)
        · next index _ =>
          split
          · exact happend (alike_argumentPieces h true _) (hrest false)
          · cases expanded index with
            | error fault => exact .error fault
            | ok tokens => exact happend (alike_argumentPieces h false tokens) (hrest false)

end

/-! ## Pasting -/

section

variable {site : Location} {gap : Bool} {left left' right right' : Piece}

theorem agree_paste (hleft : left.Alike gap left') (hright : right.Alike true right') :
    Agree (Piece.Alike gap) (paste site left right) (paste site left' right') := by
  have htokens {t t' u u' : Token} (ht : t.Alike gap t') (hu : u.Alike true u') :
      Agree (Piece.Alike gap) (paste site (.token t) (.token u))
        (paste site (.token t') (.token u')) := by
    simp only [paste, Token.spelling, ← ht.text, ← hu.text]
    split
    · split
      · exact .ok (.token (ht.respell _ _))
      · exact .error _
    · exact .error _
  cases hleft with
  | placemarker => exact .ok (hright.mono gap)
  | token ht | paste ht =>
    cases hright with
    | placemarker => exact .ok (by constructor; exact ht)
    | token hu | paste hu => exact htokens ht hu

/-- An operand is put out when the next piece is not `##`. -/
theorem pasteAfter_operand (left : Option Piece) {piece : Piece}
    (h : Prosser.isOperator piece = false) (rest : List Piece) :
    pasteAfter site left (piece :: rest) = (do
      return left.toList ++ (← pasteAfter site piece rest)) := by
  cases piece with
  | paste t => cases h
  | token t | placemarker => cases left <;> rw [pasteAfter] <;> simp

theorem agree_pasteAfter (hleft : left.Alike gap left') {pieces pieces' : List Piece}
    (h : PiecesAlike true pieces pieces') :
    Agree (PiecesAlike gap) (pasteAfter site left pieces) (pasteAfter site left' pieces') := by
  induction hn : pieces.length using Nat.strong_induction_on
    generalizing gap left left' pieces pieces' with
  | _ n ih =>
    subst hn
    cases h with
    | nil => exact .ok (.cons hleft (.nil true))
    | @cons _ p q pieces pieces' h hs =>
      cases hoperator : Prosser.isOperator p with
      | false =>
        rw [pasteAfter_operand _ hoperator, pasteAfter_operand _ (h.isOperator_eq ▸ hoperator)]
        exact (ih _ (Nat.lt_succ_self _) h hs rfl).bind fun _ _ hmore => .ok (.cons hleft hmore)
      | true =>
        cases h with
        | token | placemarker => cases hoperator
        | paste =>
          cases hs with
          | nil => exact .error _
          | cons hright hs =>
            exact (agree_paste hleft hright).bind fun _ _ hpasted =>
              ih _ (by simp only [List.length_cons]; omega) hpasted hs rfl

theorem agree_pasteAll {pieces pieces' : List Piece} (h : PiecesAlike gap pieces pieces') :
    Agree (PiecesAlike gap) (pasteAll site pieces) (pasteAll site pieces') := by
  rw [pasteAll, pasteAll]
  cases h with
  | nil => exact .ok (.nil gap)
  | @cons _ p q pieces pieces' h hs =>
    cases hoperator : Prosser.isOperator p with
    | false =>
      rw [pasteAfter_operand _ hoperator, pasteAfter_operand _ (h.isOperator_eq ▸ hoperator)]
      exact (agree_pasteAfter h hs).bind fun _ _ hmore => .ok hmore
    | true =>
      cases h with
      | token | placemarker => cases hoperator
      | paste => cases hs <;> exact .error _

end

/-! ## The result -/

/-- The tokens of pieces that are alike. -/
theorem ListsAlike.filterMap_token? {gap : Bool} {pieces pieces' : List Piece}
    (h : PiecesAlike gap pieces pieces') :
    TokensAlike gap (pieces.filterMap Piece.token?) (pieces'.filterMap Piece.token?) := by
  induction h with
  | nil gap => exact .nil gap
  | @cons gap _ _ _ _ h _ ih =>
    cases h with
    | token h | paste h => exact .cons h ih
    | placemarker =>
      rw [List.filterMap_cons_none rfl, List.filterMap_cons_none rfl]
      exact ih.mono fun _ _ htoken => htoken.mono gap

/-- **Where tokens were, and whether there was a gap before the first of them, cannot be seen in a
replacement.** -/
theorem finish_eq_of_alike {gap : Bool} {pieces pieces' : List Piece}
    (h : PiecesAlike gap pieces pieces') (hidden : HideSet) (site : Token) :
    finish pieces hidden site = finish pieces' hidden site := by
  have hplaced {tokens tokens' : List Token} (h : TokensAlike true tokens tokens') :
      tokens.map (fun t => { t with
        hidden := t.hidden.union hidden, position := site.position : Token }) =
      tokens'.map (fun t => { t with
        hidden := t.hidden.union hidden, position := site.position : Token }) := by
    generalize htrue : true = gap at h
    induction h with
    | nil => rfl
    | cons h _ ih =>
      subst htrue
      rw [List.map_cons, List.map_cons, ih rfl, h.kind, h.text, h.hidden, h.spaced rfl]
  have htokens := h.filterMap_token?
  unfold finish
  generalize pieces.filterMap Piece.token? = tokens,
    pieces'.filterMap Piece.token? = tokens' at htokens
  cases htokens with
  | nil => rfl
  | cons h hs =>
    simp only [List.map_cons]
    rw [hplaced hs, h.kind, h.text, h.hidden]

namespace Macro

variable {m n : Macro}

theorem isInterchangeable_of_alike (hname : m.name = n.name) (hkind : m.kind = n.kind)
    (h : TokensAlike false m.replacement n.replacement) : m.IsInterchangeable n where
  name := hname
  kind := congrArg MacroKind.anonymous hkind
  replace := by
    funext site argument expanded hidden t
    refine (agree_substitute hkind h false).bind_eq fun pieces pieces' hpieces => ?_
    refine (agree_pasteAll hpieces).bind_eq fun pasted pasted' hpasted => ?_
    rw [finish_eq_of_alike hpasted]

end Macro

/-! ## Macros of a source -/

/-- Where a token is, and whether there is a gap before it, is all that its text does not tell. -/
structure Token.IsOfSource (t : Token) : Prop where
  kind : Lexeme.Kind.ofText? t.text = some t.kind
  hidden : t.hidden = ∅

namespace Macro

variable {m n : Macro}

/-- The macros that the lines of a text define, the text being made from the given source. -/
def definedIn (source : Bytes) (text : Source.Text) : List Macro :=
  (Token.linesOf source text).filterMap fun line =>
    (Directive.ofTokens line).bind Directive.definedMacro?

/-- A macro that is predefined or defined by a line of some source. -/
def IsOfSource (m : Macro) : Prop :=
  m ∈ MacroTable.predefined.macros ∨ ∃ source text, m ∈ definedIn source text

theorem IsOfSource.forall_mem (h : m.IsOfSource) : ∀ t ∈ m.replacement, t.IsOfSource := by
  rcases h with h | ⟨source, text, h⟩
  · have hall : ∀ m ∈ MacroTable.predefined.macros, ∀ t ∈ m.replacement,
        Lexeme.Kind.ofText? t.text = some t.kind ∧ t.hidden = ∅ := by decide +kernel
    exact fun t ht => ⟨(hall m h t ht).1, (hall m h t ht).2⟩
  · obtain ⟨line, hline, h⟩ := List.mem_filterMap.1 h
    obtain ⟨d, hread, hm⟩ := Option.bind_eq_some_iff.1 h
    have hreplacement : m.replacement = d.replacement := by
      cases d with
      | defineObject | defineFunction => exact congrArg replacement (Option.some.inj hm).symm
      | _ => cases hm
    rw [hreplacement]
    exact fun t ht => ⟨Directive.ofText?_of_mem_replacement hline hread ht,
      Token.hidden_of_mem_linesOf hline (Directive.replacement_subset hread ht)⟩

/-! ## Equal definitions -/

theorem alike_of_text_eq {gap : Bool} {t u : Token} (ht : t.IsOfSource) (hu : u.IsOfSource)
    (htext : t.text = u.text) (hspaced : gap = true → t.spaced = u.spaced) : t.Alike gap u where
  kind := Option.some.inj (ht.kind.symm.trans (htext ▸ hu.kind))
  text := htext
  hidden := ht.hidden.trans hu.hidden.symm
  spaced := hspaced

theorem alike_of_sameSpelling {list list' : List Token} (hlist : ∀ t ∈ list, t.IsOfSource)
    (hlist' : ∀ t ∈ list', t.IsOfSource) (h : sameSpelling list list' = true) :
    TokensAlike true list list' := by
  fun_induction sameSpelling list list' with
  | case1 => exact .nil true
  | case2 t rest u rest' ih =>
    obtain ⟨ht, hrest⟩ := List.forall_mem_cons.1 hlist
    obtain ⟨hu, hrest'⟩ := List.forall_mem_cons.1 hlist'
    simp only [Bool.and_eq_true, decide_eq_true_eq] at h
    exact .cons (alike_of_text_eq ht hu h.1.1 fun _ => h.1.2) (ih hrest hrest' h.2)
  | case3 => cases h

/-- Replacement lists of a source that are compared as equal are alike, be there a gap before them
or not. -/
theorem alike_of_sameReplacement {list list' : List Token} (hlist : ∀ t ∈ list, t.IsOfSource)
    (hlist' : ∀ t ∈ list', t.IsOfSource) (h : sameReplacement list list' = true) :
    TokensAlike false list list' := by
  unfold sameReplacement at h
  split at h
  · exact .nil false
  · obtain ⟨ht, hrest⟩ := List.forall_mem_cons.1 hlist
    obtain ⟨hu, hrest'⟩ := List.forall_mem_cons.1 hlist'
    simp only [Bool.and_eq_true, decide_eq_true_eq] at h
    exact .cons (alike_of_text_eq ht hu h.1 nofun) (alike_of_sameSpelling hrest hrest' h.2)
  · cases h

theorem isInterchangeable_of_sameDefinition (hm : m.IsOfSource) (hn : n.IsOfSource)
    (hname : m.name = n.name) (h : m.sameDefinition n = true) : m.IsInterchangeable n := by
  simp only [sameDefinition, Bool.and_eq_true, decide_eq_true_eq] at h
  exact isInterchangeable_of_alike hname h.1
    (alike_of_sameReplacement hm.forall_mem hn.forall_mem h.2)

/-- How a replacement list is spelled, with the gaps in it. -/
def spelling : List Token → List (Bytes × Bool)
  | [] => []
  | t :: rest => (t.text, false) :: rest.map fun t => (t.text, t.spaced)

theorem sameSpelling_iff (list list' : List Token) : sameSpelling list list' = true ↔
    (list.map fun t => (t.text, t.spaced)) = list'.map fun t => (t.text, t.spaced) := by
  fun_induction sameSpelling list list' with
  | case1 => simp
  | case2 t rest u rest' ih => simp [ih, and_assoc]
  | case3 list list' hnil hcons =>
    refine iff_of_false Bool.false_ne_true fun h => ?_
    cases list with
    | nil => cases list' with
      | nil => exact hnil rfl rfl
      | cons => cases h
    | cons => cases list' with
      | nil => cases h
      | cons => exact hcons _ _ _ _ rfl rfl

theorem sameDefinition_iff (m n : Macro) : m.sameDefinition n = true ↔
    (m.kind, spelling m.replacement) = (n.kind, spelling n.replacement) := by
  rw [sameDefinition, Bool.and_eq_true, decide_eq_true_eq, Prod.mk.injEq]
  refine and_congr_right fun _ => ?_
  cases m.replacement <;> cases n.replacement <;>
    simp [sameReplacement, spelling, sameSpelling_iff]

end Macro

/-! ## Redefinitions -/

/-- A macro takes the place of an interchangeable one. -/
theorem MacroTable.isInterchangeable_insert {table : MacroTable} {m previous : Macro}
    (hlookup : table.lookup m.name = some previous) (h : previous.IsInterchangeable m) :
    table.IsInterchangeable (table.insert m) := by
  intro name
  by_cases hname : name = m.name
  · subst hname
    rw [hlookup, lookup_insert]
    exact .some h
  · rw [lookup_insert_of_ne _ hname]
    cases table.lookup name with
    | none => exact .none
    | some n => exact .some (.refl n)

/-- **A macro may be defined again without effect.** If two definitions from a source are compared
as equal, which is an equivalence, then any tokens are expanded alike with the one and with the
other: they become the same tokens, in the same places, with the same gaps, and hiding the same
macros, or fail with the same error. -/
theorem Expander.expand_redefined {e : Expander} {m previous : Macro}
    (hlookup : e.macros.lookup m.name = some previous) (hprevious : previous.IsOfSource)
    (hm : m.IsOfSource) (hsame : previous.sameDefinition m = true) :
    (∀ tokens, (e.withMacros (e.macros.insert m)).expand tokens = e.expand tokens) ∧
      Equivalence fun m n : Macro => m.sameDefinition n = true := by
  have hname : previous.name = m.name := (MacroTable.lookup_eq_some hlookup).1
  have hinterchangeable := Macro.isInterchangeable_of_sameDefinition hprevious hm hname hsame
  refine ⟨expand_congr (MacroTable.isInterchangeable_insert hlookup hinterchangeable), ?_⟩
  simp only [Macro.sameDefinition_iff]
  exact InvImage.equivalence _ _ eq_equivalence

/-- The macro `STR(x)`, which is `#x`, as a line defines it where the `#` is in the given column. -/
def stringMacro (column : Nat) (spaced : Bool) : Macro where
  name := Bytes.ofString "STR"
  kind := .function [Bytes.ofString "x"] false
  replacement :=
    [{ kind := .punctuator, text := Bytes.ofString "#", spaced, position := ⟨1, column⟩ },
      { kind := .identifier, text := Bytes.ofString "x", position := ⟨1, column + 1⟩ }]

/-- The macro may be defined again farther to the right. -/
theorem Expander.expand_redefined_stringMacro :
    stringMacro 15 false ∈ Macro.definedIn (Bytes.ofString "#define STR(x)#x")
        (.ofSource (Bytes.ofString "#define STR(x)#x")) ∧
      stringMacro 19 true ∈ Macro.definedIn (Bytes.ofString "#define   STR(x)  #x")
        (.ofSource (Bytes.ofString "#define   STR(x)  #x")) ∧
      (stringMacro 15 false).sameDefinition (stringMacro 19 true) = true ∧
      ∀ tokens, Expander.expand { macros := ⟨[stringMacro 19 true]⟩, file := "main.c" } tokens =
        Expander.expand { macros := ⟨[stringMacro 15 false]⟩, file := "main.c" } tokens := by
  have hold : stringMacro 15 false ∈ Macro.definedIn (Bytes.ofString "#define STR(x)#x")
      (.ofSource (Bytes.ofString "#define STR(x)#x")) := by decide +kernel
  have hnew : stringMacro 19 true ∈ Macro.definedIn (Bytes.ofString "#define   STR(x)  #x")
      (.ofSource (Bytes.ofString "#define   STR(x)  #x")) := by decide +kernel
  have hsame : (stringMacro 15 false).sameDefinition (stringMacro 19 true) = true := by decide
  let e : Expander := { macros := ⟨[stringMacro 15 false]⟩, file := "main.c" }
  have hlookup : e.macros.lookup (stringMacro 19 true).name = some (stringMacro 15 false) := rfl
  exact ⟨hold, hnew, hsame,
    (expand_redefined hlookup (.inr ⟨_, _, hold⟩) (.inr ⟨_, _, hnew⟩) hsame).1⟩

end CPreprocessor
