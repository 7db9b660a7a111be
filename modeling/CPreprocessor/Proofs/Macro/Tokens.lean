import CPreprocessor.Proofs.Lexeme.Growth
import CPreprocessor.Proofs.Macro.Adequacy
import CPreprocessor.Proofs.Macro.Table
import CPreprocessor.Proofs.Token

/-!
# Expansion gives tokens

A token that is glued together of two others is of its kind, as those of a source are, and so is the
number that `__LINE__` gives, if the file does not number its lines below zero. So all tokens of an
expansion are of their kinds, string literals apart (`Prosser.isPlaced_of_expands`).
-/

namespace CPreprocessor

open Ascii

/-- All tokens in the replacement lists of a table are of their kinds. -/
def MacroTable.IsProper (table : MacroTable) : Prop :=
  ∀ m ∈ table.macros, ∀ t ∈ m.replacement, t.IsProper

/-- The text of a token is of its kind, and its line is presumed to have a number that is not below
zero. -/
structure Token.IsPlaced (lineDelta : Int) (t : Token) : Prop extends t.IsProper where
  nonneg : 0 ≤ (t.position.line : Int) + lineDelta

/-! ## Macro tables -/

namespace MacroTable

theorem isProper_predefined : predefined.IsProper := by
  simp only [MacroTable.IsProper, predefined, objectMacro, List.forall_mem_cons, List.not_mem_nil,
    false_imp_iff, implies_true, true_and, and_true]
  exact ⟨fun _ => Token.isProper_of_mem_lex, fun _ => Token.isProper_of_mem_lex,
    fun _ => Token.isProper_of_mem_lex⟩

variable {table table' : MacroTable}

theorem IsProper.erase (h : table.IsProper) (name : Bytes) : (table.erase name).IsProper :=
  fun m hm => h m (List.mem_of_mem_filter hm)

theorem IsProper.define (h : table.IsProper) {m : Macro} (hm : ∀ t ∈ m.replacement, t.IsProper)
    (hdefine : table.define m = .ok table') : table'.IsProper := by
  rw [eq_insert_of_define hdefine]
  exact List.forall_mem_cons.2 ⟨hm, h.erase m.name⟩

theorem IsProper.undefine (h : table.IsProper) {name : Bytes}
    (hundefine : table.undefine name = .ok table') : table'.IsProper := by
  rw [eq_erase_of_undefine hundefine]
  exact h.erase name

end MacroTable

/-! ## Numbers of lines -/

theorem utf8EncodeChar_of_isDigit {c : Char} (h : c.isDigit = true) :
    ∃ b, Ascii.isDigit b = true ∧ String.utf8EncodeChar c = [b] := by
  simp only [Char.isDigit, Bool.and_eq_true, decide_eq_true_eq, UInt32.le_iff_toNat_le] at h
  obtain ⟨hlow, hhigh⟩ : 48 ≤ c.val.toNat ∧ c.val.toNat ≤ 57 := h
  refine ⟨UInt8.ofNat c.val.toNat, ?_, ?_⟩
  · have hdigit : ∀ n : Fin 58, 48 ≤ n.val → Ascii.isDigit (UInt8.ofNat n.val) = true := by decide
    exact hdigit ⟨c.val.toNat, by omega⟩ hlow
  · rw [String.utf8EncodeChar]
    exact if_pos (by omega)

/-- A natural number is written as a number. -/
theorem ofString_toString_mem_numbers (n : Nat) :
    Bytes.ofString (toString (n : Int)) ∈ Lexeme.numbers := by
  have hdigits : ∀ c ∈ Nat.toDigits 10 n, c.isDigit = true :=
    fun c hc => Nat.isDigit_of_mem_toDigits (b := 10) (n := n) (by decide) (by decide) hc
  have hlist : (toString (n : Int)).toList = Nat.toDigits 10 n := by
    show (toString n).toList = _
    rw [Nat.toString_eq_repr, Nat.repr, String.toList_ofList]
  have hbytes : ∀ b ∈ Bytes.ofString (toString (n : Int)), Ascii.isDigit b = true := by
    rw [Bytes.ofString, hlist, List.forall_mem_flatMap]
    intro c hc b hb
    obtain ⟨digit, hdigit, hchar⟩ := utf8EncodeChar_of_isDigit (hdigits c hc)
    rw [hchar, List.mem_singleton] at hb
    rwa [hb]
  obtain ⟨c, rest, hcons⟩ := List.exists_cons_of_ne_nil (Nat.toDigits_ne_nil (b := 10) (n := n))
  obtain ⟨digit, hdigit, hchar⟩ :=
    utf8EncodeChar_of_isDigit (hdigits c (hcons ▸ List.mem_cons_self))
  rw [Bytes.ofString, hlist, hcons, List.flatMap_cons, hchar, List.singleton_append] at hbytes ⊢
  have hrest := (List.forall_mem_cons.1 hbytes).2
  refine ⟨[digit], ⟨[], .inl rfl, [digit], ⟨digit, hdigit, rfl⟩, rfl⟩, _, ?_, rfl⟩
  exact Lexeme.mem_kstar_of_forall fun b hb => .inl (.inl (.inl ⟨b, hrest b hb, rfl⟩))

namespace Prosser

variable {hide : HideSet → HideSet → HideSet} {site : Location} {e : Expander}

/-! ## Replacements -/

/-- All tokens of a sequence are of their kinds. -/
def Sequence.IsProper (sequence : Sequence) : Prop := ∀ t, some t ∈ sequence → t.IsProper

theorem isProper_of_glueTokens {left right t : Token}
    (h : glueTokens hide site left right = .ok t) : t.IsProper := by
  rw [glueTokens] at h
  split at h
  · next u hlex =>
    split at h
    · next htext =>
      cases h
      have hu : u.IsProper := Token.isProper_of_mem_lex (by rw [hlex]; exact List.mem_cons_self)
      exact ⟨hu.ne_comment, htext ▸ hu.mem⟩
    · cases h
  · cases h

theorem isProper_of_join {left right middle : Option Token}
    (hleft : ∀ t, left = some t → t.IsProper) (hright : ∀ t, right = some t → t.IsProper)
    (h : join hide site left right = .ok middle) : ∀ t, middle = some t → t.IsProper := by
  cases left with
  | none =>
    cases h
    exact hright
  | some l =>
    cases right with
    | none =>
      cases h
      exact hleft
    | some r =>
      rw [join] at h
      cases hglue : glueTokens hide site l r with
      | error fault => rw [hglue] at h; cases h
      | ok t =>
        rw [hglue] at h
        cases h
        intro u hu
        rw [← Option.some.inj hu]
        exact isProper_of_glueTokens hglue

theorem isProper_nil : Sequence.IsProper [] := fun _ h => absurd h List.not_mem_nil

theorem forall_isProper_cons {o : Option Token} {sequence : Sequence} :
    Sequence.IsProper (o :: sequence) ↔
      (∀ t, o = some t → t.IsProper) ∧ Sequence.IsProper sequence := by
  simp only [Sequence.IsProper, List.mem_cons]
  constructor
  · intro h
    exact ⟨fun t ht => h t (.inl ht.symm), fun t ht => h t (.inr ht)⟩
  · rintro ⟨hfirst, hrest⟩ t (ht | ht)
    · exact hfirst t ht.symm
    · exact hrest t ht

theorem isProper_append {sequence sequence' : Sequence} (h : Sequence.IsProper sequence)
    (h' : Sequence.IsProper sequence') : Sequence.IsProper (sequence ++ sequence') := by
  intro t ht
  rcases List.mem_append.1 ht with ht | ht
  · exact h t ht
  · exact h' t ht

theorem isProper_of_glue {rights : Sequence} (hrights : Sequence.IsProper rights) :
    ∀ {lefts sequence : Sequence}, Sequence.IsProper lefts →
      glue hide site lefts rights = .ok sequence → Sequence.IsProper sequence
  | [], _, _, h => nomatch h
  | [left], sequence, hlefts, h => by
    cases rights with
    | nil => cases h
    | cons right rights =>
      obtain ⟨hright, hrights⟩ := forall_isProper_cons.1 hrights
      rw [glue] at h
      cases hjoin : join hide site left right with
      | error fault => rw [hjoin] at h; cases h
      | ok middle =>
        rw [hjoin] at h
        cases h
        exact forall_isProper_cons.2
          ⟨isProper_of_join (forall_isProper_cons.1 hlefts).1 hright hjoin, hrights⟩
  | left :: next :: lefts, sequence, hlefts, h => by
    obtain ⟨hleft, hlefts⟩ := forall_isProper_cons.1 hlefts
    rw [glue] at h
    cases hglue : glue hide site (next :: lefts) rights with
    | error fault => rw [hglue] at h; cases h
    | ok glued =>
      rw [hglue] at h
      cases h
      exact forall_isProper_cons.2 ⟨hleft, isProper_of_glue hrights hlefts hglue⟩

theorem isProper_of_assemble {value : Operand → Sequence} :
    ∀ {parts : List Operand} {before sequence : Sequence},
      (∀ o ∈ parts, Sequence.IsProper (value o)) → Sequence.IsProper before →
        assemble hide site value before parts = .ok sequence → Sequence.IsProper sequence
  | [], before, sequence, _, hbefore, h => by
    cases h
    exact hbefore
  | [o], before, sequence, hvalue, hbefore, h => by
    rw [assemble] at h
    split at h
    · cases h
    · cases h
      exact isProper_append hbefore (hvalue o (List.mem_singleton.2 rfl))
  | o :: right :: rest, before, sequence, hvalue, hbefore, h => by
    obtain ⟨ho, hvalue⟩ := List.forall_mem_cons.1 hvalue
    rw [assemble] at h
    split at h
    · obtain ⟨hright, hrest⟩ := List.forall_mem_cons.1 hvalue
      cases hglue : glue hide site before (value right) with
      | error fault => rw [hglue] at h; cases h
      | ok glued =>
        rw [hglue] at h
        exact isProper_of_assemble hrest (isProper_of_glue hright hbefore hglue) h
    · exact isProper_of_assemble hvalue (isProper_append hbefore ho) h

/-- The parts of a replacement list contain no other tokens. -/
theorem mem_of_token_mem_operands {m : Macro} {t : Token} {list : List Token} {afterPaste : Bool}
    (h : .token t ∈ operands m afterPaste list) : t ∈ list := by
  fun_induction operands m afterPaste list with
  | case1 => cases h
  | case2 afterPaste u hu =>
    cases List.mem_singleton.1 h
    exact List.mem_cons_self
  | case3 afterPaste u index hu => cases List.mem_singleton.1 h
  | case4 afterPaste u next rest index hindex ih =>
    have hrest := (List.mem_cons.1 h).resolve_left (by simp)
    exact List.mem_cons_of_mem _ (List.mem_cons_of_mem _ (ih hrest))
  | case5 afterPaste u next rest hindex hu ih =>
    rcases List.mem_cons.1 h with hfirst | hrest
    · cases hfirst
      exact List.mem_cons_self
    · exact List.mem_cons_of_mem _ (ih hrest)
  | case6 afterPaste u next rest hindex index hu ih =>
    have hrest := (List.mem_cons.1 h).resolve_left (by simp)
    exact List.mem_cons_of_mem _ (ih hrest)

theorem isProper_value {m : Macro} (hm : ∀ t ∈ m.replacement, t.IsProper)
    {given expanded : Nat → List Token} (hgiven : ∀ j, ∀ t ∈ given j, t.IsProper)
    (hexpanded : ∀ j ∈ demands m, ∀ t ∈ expanded j, t.IsProper) :
    ∀ o ∈ operands m false m.replacement, Sequence.IsProper (o.value given expanded) := by
  intro o ho t ht
  cases o with
  | token u =>
    rw [Option.some.inj (List.mem_singleton.1 ht)]
    exact hm u (mem_of_token_mem_operands ho)
  | string mark index =>
    rw [Option.some.inj (List.mem_singleton.1 ht)]
    exact ⟨nofun, fun hkind => absurd rfl hkind⟩
  | argument parameter index pasted =>
    have hargument : ∀ u ∈ (if pasted then given index else expanded index), u.IsProper := by
      cases pasted with
      | true => exact hgiven index
      | false => exact hexpanded index (List.mem_filterMap.2 ⟨_, ho, rfl⟩)
    rw [Operand.value] at ht
    cases hlist : (if pasted then given index else expanded index) with
    | nil =>
      rw [hlist] at ht
      cases pasted with
      | true => cases List.mem_singleton.1 ht
      | false => cases ht
    | cons first rest =>
      rw [hlist] at ht hargument
      obtain ⟨hfirst, hrest⟩ := List.forall_mem_cons.1 hargument
      rcases List.mem_cons.1 ht with ht | ht
      · rw [Option.some.inj ht]
        exact ⟨hfirst.ne_comment, hfirst.mem⟩
      · obtain ⟨u, hu, hut⟩ := List.mem_map.1 ht
        rw [← Option.some.inj hut]
        exact hrest u hu

/-! ## Expansion -/

theorem exists_of_mem_placed {t u : Token} {hidden : HideSet} {sequence : Sequence}
    (h : u ∈ placed t hidden sequence) :
    ∃ v, some v ∈ sequence ∧ u.kind = v.kind ∧ u.text = v.text ∧ u.position = t.position := by
  have hmap : ∀ w ∈ (sequence.filterMap id).map fun v =>
      { v with hidden := v.hidden.union hidden, position := t.position },
      ∃ v, some v ∈ sequence ∧ w.kind = v.kind ∧ w.text = v.text ∧ w.position = t.position := by
    intro w hw
    obtain ⟨v, hv, rfl⟩ := List.mem_map.1 hw
    obtain ⟨o, ho, rfl⟩ := List.mem_filterMap.1 hv
    exact ⟨v, ho, rfl, rfl, rfl⟩
  rw [placed] at h
  generalize (sequence.filterMap id).map (fun v =>
    { v with hidden := v.hidden.union hidden, position := t.position }) = list at h hmap
  cases list with
  | nil => cases h
  | cons first rest =>
    rw [List.modifyHead_cons] at h
    rcases List.mem_cons.1 h with rfl | h
    · exact hmap first List.mem_cons_self
    · exact hmap u (List.mem_cons_of_mem first h)

theorem isPlaced_of_mem_placed {t u : Token} {hidden : HideSet} {sequence : Sequence}
    (ht : t.IsPlaced e.lineDelta) (hsequence : Sequence.IsProper sequence)
    (hu : u ∈ placed t hidden sequence) : u.IsPlaced e.lineDelta := by
  obtain ⟨v, hv, hkind, htext, hposition⟩ := exists_of_mem_placed hu
  have hproper := hsequence v hv
  exact ⟨⟨hkind ▸ hproper.ne_comment, by rw [hkind, htext]; exact hproper.mem⟩,
    hposition ▸ ht.nonneg⟩

/-- The arguments of an invocation and what follows it are among the tokens. -/
theorem Invokes.subset {t : Token} {rest : List Token} {m : Macro} {parameters : List Bytes}
    {variadic : Bool} {i : Invocation} {arguments : List (List Token)}
    (h : Invokes e.macros t rest m parameters variadic i arguments) :
    i.after ⊆ rest ∧ ∀ j, Expander.argument arguments j ⊆ rest := by
  obtain ⟨opening, inside, rfl, hsub⟩ := Expander.exists_of_readInvocation h.invocation
  refine ⟨fun u hu => by simp [hu], fun j u hu => ?_⟩
  have hinside : u ∈ inside := by
    rw [Expander.argument] at hu
    cases hget : arguments[j]? with
    | none => rw [hget] at hu; cases hu
    | some a =>
      rw [hget] at hu
      rcases mem_fitArguments h.arguments (List.mem_of_getElem? hget) with ha | rfl
      · exact (hsub a ha).subset hu
      · cases hu
  simp [hinside]

/-- **The tokens of an expansion are of their kinds.** -/
theorem isPlaced_of_expands (hmacros : e.macros.IsProper) {tokens : List Token}
    {result : Except Fault (List Token)} (h : Expands hide e tokens result)
    (htokens : ∀ t ∈ tokens, t.IsPlaced e.lineDelta) : ∀ output, result = .ok output →
      ∀ t ∈ output, t.IsPlaced e.lineDelta := by
  have hmap {t : Token} {result : Except Fault (List Token)} (ht : t.IsPlaced e.lineDelta)
      (hresult : ∀ output, result = .ok output → ∀ t ∈ output, t.IsPlaced e.lineDelta) :
      ∀ output, result.map (t :: ·) = .ok output → ∀ t ∈ output, t.IsPlaced e.lineDelta := by
    intro output houtput
    cases result with
    | error fault => cases houtput
    | ok output' =>
      cases houtput
      exact List.forall_mem_cons.2 ⟨ht, hresult output' rfl⟩
  have hreplacement {t : Token} {m : Macro} (names : Names e.macros t m) :
      ∀ u ∈ m.replacement, u.IsProper :=
    hmacros m (MacroTable.lookup_eq_some names.lookup).2
  induction h with
  | nil =>
    rintro output ⟨⟩
    exact List.forall_mem_nil _
  | other h others ih =>
    obtain ⟨ht, hrest⟩ := List.forall_mem_cons.1 htokens
    exact hmap ht (ih hrest)
  | @line t rest m result names kind fits others ih =>
    obtain ⟨ht, hrest⟩ := List.forall_mem_cons.1 htokens
    refine hmap ⟨⟨nofun, fun _ => ?_⟩, ht.nonneg⟩ (ih hrest)
    obtain ⟨n, hn⟩ := Int.eq_ofNat_of_zero_le ht.nonneg
    show Bytes.ofString (toString ((t.position.line : Int) + e.lineDelta)) ∈ Lexeme.numbers
    rw [hn]
    exact ofString_toString_mem_numbers n
  | lineFault names kind overflows => exact nofun
  | file names kind others ih =>
    obtain ⟨ht, hrest⟩ := List.forall_mem_cons.1 htokens
    exact hmap ⟨⟨nofun, fun hkind => absurd rfl hkind⟩, ht.nonneg⟩ (ih hrest)
  | object names kind assembled others ih =>
    obtain ⟨ht, hrest⟩ := List.forall_mem_cons.1 htokens
    have hvalue := isProper_value (hreplacement names) (fun _ => List.forall_mem_nil _)
      (fun _ _ => List.forall_mem_nil _)
    have hsequence := isProper_of_assemble hvalue isProper_nil assembled
    refine ih fun u hu => ?_
    rcases List.mem_append.1 hu with hu | hu
    · exact isPlaced_of_mem_placed ht hsequence hu
    · exact hrest u hu
  | objectFault names kind assembled => exact nofun
  | unterminated opens invocation => exact nofun
  | miscounted opens invocation arguments => exact nofun
  | argumentFault invokes demanded expands fails ihs ih => exact nofun
  | function invokes expands assembled others ihs ih =>
    obtain ⟨ht, hrest⟩ := List.forall_mem_cons.1 htokens
    obtain ⟨hafter, harguments⟩ := invokes.subset
    have hgiven (j : Nat) : ∀ u ∈ Expander.argument _ j, u.IsPlaced e.lineDelta :=
      fun u hu => hrest u (harguments j hu)
    have hvalue := isProper_value (hreplacement invokes.toNames)
      (fun j u hu => (hgiven j u hu).toIsProper)
      (fun j hj u hu => (ihs j hj (hgiven j) _ rfl u hu).toIsProper)
    have hsequence := isProper_of_assemble hvalue isProper_nil assembled
    refine ih fun u hu => ?_
    rcases List.mem_append.1 hu with hu | hu
    · exact isPlaced_of_mem_placed ht hsequence hu
    · exact hrest u (hafter hu)
  | functionFault invokes expands assembled ihs => exact nofun

end Prosser

end CPreprocessor
