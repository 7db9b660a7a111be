import CPreprocessor.Proofs.Macro.Errors

/-!
# Object-like macros

Where no macro takes arguments, hide sets are only a way to keep a macro from being replaced inside
its own replacement. `Expander.replaced` says so without them: it replaces one token, and goes on in
the replacement with the set of the macros that enclose it, whose names it leaves alone. Every token
that is left hides just the macros that enclose it, and the expansion of some tokens is what becomes
of each of them, one after the other (`Expander.expand_eq_replaced`).

The expander works on the replacement together with what follows it. That this makes no difference
is shown for one token in front of others, by induction on the number of macros that do not enclose
it (`Expander.expand_inside_cons`).
-/

namespace CPreprocessor

open Prosser (Names reading_of_names reading_of_forall_not_names isKeptDefined_eq_false)

/-- The token inside the replacements of some macros. -/
def Token.inside (enclosing : HideSet) (t : Token) : Token := { t with hidden := enclosing }

/-- The table has no macro that takes arguments. -/
def MacroTable.IsObjectLike (table : MacroTable) : Prop :=
  ∀ m ∈ table.macros, m.isFunctionLike = false

theorem MacroTable.IsObjectLike.kind_ne {table : MacroTable} (h : table.IsObjectLike) {m : Macro}
    (hm : m ∈ table.macros) (parameters : List Bytes) (variadic : Bool) :
    m.kind ≠ .function parameters variadic := by
  intro hkind
  have hlike := h m hm
  rw [Macro.isFunctionLike, hkind] at hlike
  cases hlike

/-- The tokens of the replacement lists hide no macros, as those of a source do. -/
def MacroTable.IsFresh (table : MacroTable) : Prop :=
  ∀ m ∈ table.macros, ∀ t ∈ m.replacement, t.hidden = ∅

namespace Expander

variable (e : Expander)

/-! ## Replacing without hide sets -/

/-- A token that expansion leaves as it is, whatever follows. -/
def IsSettled (t : Token) : Prop := ∀ more, e.reading t more = .plain t

/-- The macro that a token names, unless it encloses the token. -/
def named? (enclosing : HideSet) (t : Token) : Option Macro :=
  if t.isIdentifier ∧ t.text ∉ enclosing then e.macros.lookup t.text else none

/-- The names of the macros that do not enclose a token. -/
def replaceable (enclosing : HideSet) : List Bytes := e.macros.names.filter (· ∉ enclosing)

variable {e} in
theorem named?_eq_some_iff {enclosing : HideSet} {t : Token} {m : Macro} :
    e.named? enclosing t = some m ↔ Names e.macros (t.inside enclosing) m := by
  rw [named?, Option.ite_none_right_eq_some]
  exact ⟨fun ⟨⟨hidentifier, hhidden⟩, hlookup⟩ => ⟨hidentifier, hhidden, hlookup⟩,
    fun h => ⟨⟨h.isIdentifier, h.notHidden⟩, h.lookup⟩⟩

variable {e} in
theorem isSettled_inside {enclosing : HideSet} {t : Token} (h : e.named? enclosing t = none) :
    e.IsSettled (t.inside enclosing) := fun _ =>
  reading_of_forall_not_names fun m names => by
    rw [named?_eq_some_iff.2 names] at h
    cases h

/-- A macro that is being replaced is one less to be replaced in its replacement. -/
theorem length_replaceable_insert {enclosing : HideSet} {t : Token} {m : Macro}
    (h : e.named? enclosing t = some m) :
    (e.replaceable (enclosing.insert m.name)).length < (e.replaceable enclosing).length := by
  have names := named?_eq_some_iff.1 h
  have hname : m.name = t.text := (MacroTable.lookup_eq_some names.lookup).1
  have hmem : m.name ∈ e.replaceable enclosing :=
    List.mem_filter.2 ⟨MacroTable.name_mem_names names.lookup,
      decide_eq_true (hname ▸ names.notHidden)⟩
  have hfilter : e.replaceable (enclosing.insert m.name) =
      (e.replaceable enclosing).filter (· ≠ m.name) := by
    rw [replaceable, replaceable, List.filter_filter]
    refine List.filter_congr fun n _ => ?_
    simp only [HideSet.mem_insert, not_or, Bool.decide_and]
  rw [hfilter]
  exact List.length_filter_lt_length_iff_exists.2 ⟨m.name, hmem, by simp⟩

/-- What becomes of a token inside the replacements of some macros: a name of another object-like
macro is replaced, after every `##` in the replacement list has been applied. -/
def replaced (enclosing : HideSet) (t : Token) : Except Fault (List Token) :=
  match _h : e.named? enclosing t with
  | none => .ok [t.inside enclosing]
  | some m =>
    match m.kind with
    | .line =>
      if IsInt64 (t.position.line + e.lineDelta) then
        .ok [{ t.inside enclosing with
          kind := .number
          text := Bytes.ofString (toString (t.position.line + e.lineDelta)) }]
      else .error (.located (e.locationOf t) .lineOverflow)
    | .file =>
      .ok [{ t.inside enclosing with kind := .string, text := quote (Bytes.ofString e.file) }]
    | .object => do
      let pieces ← pasteAll (e.locationOf t) (m.replacement.map .of)
      let parts ← (finish pieces ∅ t).mapM (replaced (enclosing.insert m.name))
      return parts.flatten
    | .function _ _ => .ok [t.inside enclosing]
termination_by (e.replaceable enclosing).length
decreasing_by exact e.length_replaceable_insert _h

/-! ## The tokens of a replacement -/

theorem hidden_of_paste {site : Location} {left right piece : Piece}
    (hleft : ∀ t ∈ left.token?, t.hidden = ∅) (hright : ∀ t ∈ right.token?, t.hidden = ∅)
    (h : paste site left right = .ok piece) : ∀ t ∈ piece.token?, t.hidden = ∅ := by
  unfold paste at h
  split at h
  · cases h
    exact hright
  · cases h
    exact hleft
  all_goals
    dsimp only at h
    split at h
    · split at h
      · cases h
        rintro _ ⟨⟩
        have hhidden := hleft _ (Option.mem_some_self _)
        exact hhidden
      · cases h
    · cases h

theorem hidden_of_pasteAfter {site : Location} {left : Option Piece} {pieces result : List Piece}
    (hleft : ∀ piece ∈ left, ∀ t ∈ piece.token?, t.hidden = ∅)
    (hpieces : ∀ piece ∈ pieces, ∀ t ∈ piece.token?, t.hidden = ∅)
    (h : pasteAfter site left pieces = .ok result) :
    ∀ piece ∈ result, ∀ t ∈ piece.token?, t.hidden = ∅ := by
  fun_induction pasteAfter site left pieces generalizing result with
  | case1 left =>
    cases h
    exact fun piece hmem => hleft piece (Option.mem_toList.1 hmem)
  | case2 left mark right rest ih =>
    obtain ⟨-, hright, hrest⟩ := by simpa only [List.forall_mem_cons] using hpieces
    obtain ⟨piece, hpaste, h⟩ := exists_of_bind_eq_ok h
    refine ih piece ?_ hrest h
    rintro _ ⟨⟩
    exact hidden_of_paste (hleft left rfl) hright hpaste
  | case3 => cases h
  | case4 left piece rest _ _ ih =>
    obtain ⟨hpiece, hrest⟩ := List.forall_mem_cons.1 hpieces
    obtain ⟨pasted, hafter, h⟩ := exists_of_bind_eq_ok h
    cases h
    refine List.forall_mem_append.2
      ⟨fun other hmem => hleft other (Option.mem_toList.1 hmem), ih ?_ hrest hafter⟩
    rintro _ ⟨⟩
    exact hpiece

theorem hidden_of_pasteAll {site : Location} {replacement : List Token} {pieces : List Piece}
    (hreplacement : ∀ t ∈ replacement, t.hidden = ∅)
    (h : pasteAll site (replacement.map .of) = .ok pieces) :
    ∀ piece ∈ pieces, ∀ t ∈ piece.token?, t.hidden = ∅ := by
  refine hidden_of_pasteAfter (by simp) ?_ h
  rintro _ hpiece
  obtain ⟨t, ht, rfl⟩ := List.mem_map.1 hpiece
  unfold Piece.of
  split <;> exact fun u hu => Option.some.inj hu ▸ hreplacement t ht

/-- The tokens of a replacement hide what they are told to. -/
theorem finish_eq_map_inside {pieces : List Piece}
    (h : ∀ piece ∈ pieces, ∀ t ∈ piece.token?, t.hidden = ∅) (hidden enclosing : HideSet)
    (site : Token) :
    finish pieces hidden (site.inside enclosing) = (finish pieces ∅ site).map (.inside hidden) := by
  have htokens : ∀ t ∈ pieces.filterMap Piece.token?, t.hidden.union hidden = hidden := by
    intro t ht
    obtain ⟨piece, hpiece, htoken⟩ := List.mem_filterMap.1 ht
    rw [h piece hpiece t htoken]
    rfl
  unfold finish
  generalize pieces.filterMap Piece.token? = tokens at htokens
  cases tokens with
  | nil => rfl
  | cons first rest =>
    obtain ⟨hfirst, hrest⟩ := List.forall_mem_cons.1 htokens
    simp only [List.map_cons, List.map_map, hfirst]
    refine congrArg₂ _ rfl (List.map_congr_left fun t ht => ?_)
    simp only [Function.comp, Token.inside, hrest t ht]

/-! ## Expansion -/

variable {e}

/-- If what becomes of single tokens does not depend on what follows, then what becomes of more
tokens is that of each of them, one after the other. -/
theorem expand_map_append {f : Token → Token} {g : Token → Except Fault (List Token)}
    (h : ∀ t more, e.expand (f t :: more) = (do
      let part ← g t
      let others ← e.expand more
      return part ++ others)) (tokens more : List Token) :
    e.expand (tokens.map f ++ more) = (do
      let parts ← tokens.mapM g
      let others ← e.expand more
      return parts.flatten ++ others) := by
  induction tokens with
  | nil =>
    rw [List.map_nil, List.nil_append, List.mapM_nil, pure_bind]
    exact (bind_pure _).symm
  | cons t tokens ih =>
    rw [List.map_cons, List.cons_append, h, ih, List.mapM_cons]
    simp only [bind_assoc, pure_bind, List.flatten_cons, List.append_assoc]

section

variable (hk : e.keepDefined = false)
include hk

theorem expand_cons_of_plain {t t' : Token} {more : List Token}
    (h : e.reading t more = .plain t') :
    e.expand (t :: more) = (do
      let part ← .ok [t']
      let others ← e.expand more
      return part ++ others) :=
  e.expand_plain (isKeptDefined_eq_false hk t) h

variable (hobject : e.macros.IsObjectLike) (hfresh : e.macros.IsFresh)
include hobject hfresh

/-- What becomes of a token inside the replacements of some macros does not depend on what follows
it. -/
theorem expand_inside_cons (enclosing : HideSet) (t : Token) (more : List Token) :
    e.expand (t.inside enclosing :: more) = (do
      let part ← e.replaced enclosing t
      let others ← e.expand more
      return part ++ others) := by
  induction hn : (e.replaceable enclosing).length using Nat.strong_induction_on
    generalizing enclosing t more with
  | _ n ih =>
    subst hn
    rw [replaced]
    split
    · next hnone => exact expand_cons_of_plain hk (isSettled_inside hnone more)
    · next m hm =>
      have names := named?_eq_some_iff.1 hm
      have hmem := (MacroTable.lookup_eq_some names.lookup).2
      have hread : e.reading (t.inside enclosing) more = _ := reading_of_names names
      cases hkind : m.kind with
      | line =>
        rw [hkind] at hread
        dsimp only at hread ⊢
        split
        · next hfits => exact expand_cons_of_plain hk (hread.trans (if_pos hfits))
        · next hfits =>
          exact e.expand_overflow (isKeptDefined_eq_false hk _) (hread.trans (if_neg hfits))
      | file =>
        rw [hkind] at hread
        exact expand_cons_of_plain hk hread
      | function parameters variadic => exact absurd hkind (hobject.kind_ne hmem parameters variadic)
      | object =>
        rw [hkind] at hread
        rw [e.expand_object (isKeptDefined_eq_false hk _) hread]
        change (pasteAll (e.locationOf t) (m.replacement.map .of) >>= _) =
          (pasteAll (e.locationOf t) (m.replacement.map .of) >>= _) >>= _
        cases hpieces : pasteAll (e.locationOf t) (m.replacement.map .of) with
        | error fault => rfl
        | ok pieces =>
          have hsmaller := e.length_replaceable_insert hm
          have hinside := finish_eq_map_inside (hidden_of_pasteAll (hfresh m hmem) hpieces)
            (enclosing.insert m.name) enclosing t
          change e.expand (finish pieces (enclosing.insert m.name) (t.inside enclosing) ++ more) =
            ((finish pieces ∅ t).mapM (e.replaced (enclosing.insert m.name)) >>= _) >>= _
          rw [hinside, expand_map_append fun u more => ih _ hsmaller _ u more rfl, bind_assoc]
          rfl

end

/-! ## Nothing is left to be replaced -/

/-- The parts that are put together come from the elements of the list. -/
theorem exists_of_mem_mapM {g : Token → Except Fault (List Token)} {tokens : List Token}
    {parts : List (List Token)} (h : tokens.mapM g = .ok parts) {part : List Token}
    (hpart : part ∈ parts) : ∃ t ∈ tokens, g t = .ok part := by
  induction tokens generalizing parts with
  | nil =>
    cases h
    cases hpart
  | cons t tokens ih =>
    rw [List.mapM_cons] at h
    obtain ⟨first, hfirst, h⟩ := exists_of_bind_eq_ok h
    obtain ⟨others, hothers, h⟩ := exists_of_bind_eq_ok h
    cases h
    rcases List.mem_cons.1 hpart with rfl | hpart
    · exact ⟨t, List.mem_cons_self, hfirst⟩
    · obtain ⟨u, hu, hpart⟩ := ih hothers hpart
      exact ⟨u, List.mem_cons_of_mem t hu, hpart⟩

theorem isSettled_of_kind {t : Token} (h : t.isIdentifier = false) : e.IsSettled t := fun _ =>
  reading_of_forall_not_names fun _ names => by
    rw [names.isIdentifier] at h
    cases h

/-- Every token that is left names no macro but those that enclose it. -/
theorem isSettled_of_replaced (hobject : e.macros.IsObjectLike) {enclosing : HideSet} {t : Token}
    {part : List Token} (h : e.replaced enclosing t = .ok part) : ∀ u ∈ part, e.IsSettled u := by
  induction hn : (e.replaceable enclosing).length using Nat.strong_induction_on
    generalizing enclosing t part with
  | _ n ih =>
    subst hn
    rw [replaced] at h
    split at h
    · next hnone =>
      cases h
      exact List.forall_mem_singleton.2 (isSettled_inside hnone)
    · next m hm =>
      have hmem := (MacroTable.lookup_eq_some (named?_eq_some_iff.1 hm).lookup).2
      cases hkind : m.kind with
      | line =>
        rw [hkind] at h
        dsimp only at h
        split at h
        · cases h
          exact List.forall_mem_singleton.2 (isSettled_of_kind rfl)
        · cases h
      | file =>
        rw [hkind] at h
        cases h
        exact List.forall_mem_singleton.2 (isSettled_of_kind rfl)
      | function parameters variadic => exact absurd hkind (hobject.kind_ne hmem parameters variadic)
      | object =>
        rw [hkind] at h
        obtain ⟨pieces, -, h⟩ := exists_of_bind_eq_ok h
        obtain ⟨parts, hparts, h⟩ := exists_of_bind_eq_ok h
        cases h
        intro u hu
        obtain ⟨part, hpart, hu⟩ := List.mem_flatten.1 hu
        obtain ⟨v, -, hv⟩ := exists_of_mem_mapM hparts hpart
        exact ih _ (e.length_replaceable_insert hm) hv rfl u hu

theorem expand_of_isSettled (hk : e.keepDefined = false) {tokens : List Token}
    (h : ∀ t ∈ tokens, e.IsSettled t) : e.expand tokens = .ok tokens := by
  induction tokens with
  | nil => exact e.expand_nil
  | cons t tokens ih =>
    obtain ⟨ht, htokens⟩ := List.forall_mem_cons.1 h
    rw [e.expand_plain (isKeptDefined_eq_false hk t) (ht tokens), ih htokens]
    rfl

/-- **Hide sets keep a macro from being replaced inside its own replacement**, and do nothing else
where no macro takes arguments: the expansion of tokens of a source is what becomes of each of them,
one after the other, or the first error in this, and it is not expanded any further. -/
theorem expand_eq_replaced (hk : e.keepDefined = false) (hobject : e.macros.IsObjectLike)
    (hfresh : e.macros.IsFresh) {tokens : List Token} (htokens : ∀ t ∈ tokens, t.hidden = ∅) :
    e.expand tokens = List.flatten <$> tokens.mapM (e.replaced ∅) ∧
      ∀ output, e.expand tokens = .ok output → e.expand output = .ok output := by
  have hinside : tokens.map (.inside ∅) = tokens :=
    (List.map_congr_left fun t ht => by rw [Token.inside, ← htokens t ht]; rfl).trans
      (List.map_id tokens)
  have hexpand : e.expand tokens = List.flatten <$> tokens.mapM (e.replaced ∅) := by
    have happend := expand_map_append (expand_inside_cons hk hobject hfresh ∅) tokens []
    rw [List.append_nil, hinside] at happend
    rw [happend, map_eq_pure_bind, expand_nil]
    refine bind_congr fun parts => ?_
    exact congrArg Except.ok (List.append_nil _)
  refine ⟨hexpand, fun output houtput => expand_of_isSettled hk fun u hu => ?_⟩
  rw [hexpand, map_eq_pure_bind] at houtput
  obtain ⟨parts, hparts, h⟩ := exists_of_bind_eq_ok houtput
  cases h
  obtain ⟨part, hpart, hu⟩ := List.mem_flatten.1 hu
  obtain ⟨t, -, ht⟩ := exists_of_mem_mapM hparts hpart
  exact isSettled_of_replaced hobject ht u hu

/-! ## Two macros that name each other -/

open Prosser (word mark pasteOnto pasteOnto_nil pasteOnto_cons pasteOnto_operator pasteOnto_end)

/-- The macros `LOOP`, which is `TURN __LINE__`, and `TURN`, which is `LO##OP`. -/
def cyclicExpander : Expander where
  macros := ⟨[⟨Bytes.ofString "LOOP", .object, [word "TURN" [], word "__LINE__" []]⟩,
    ⟨Bytes.ofString "TURN", .object, [word "LO" [], mark "##" [], word "OP" []]⟩,
    ⟨Bytes.ofString "__LINE__", .line, []⟩]⟩
  file := "main.c"

theorem lex_loop : Token.lex (Bytes.ofString "LOOP") =
    [{ kind := .identifier, text := Bytes.ofString "LOOP", position := ⟨1, 1⟩ }] := by
  decide +kernel

theorem pasteAll_loop (site : Location) :
    pasteAll site ([word "LO" [], mark "##" [], word "OP" []].map .of) =
      .ok [.token (word "LOOP" [])] := by
  have htext : (word "LO" []).text ++ (word "OP" []).text = Bytes.ofString "LOOP" := rfl
  have hpaste : paste site (.token (word "LO" [])) (.token (word "OP" [])) =
      .ok (.token (word "LOOP" [])) := by
    simp only [paste, htext, lex_loop, if_true]
    rfl
  show pasteAll site [.token (word "LO" []), .paste (mark "##" []), .token (word "OP" [])] = _
  rw [← pasteOnto_nil, pasteOnto_cons rfl, pasteOnto_operator, hpaste]
  exact (pasteOnto_end _ : pasteOnto site _ [] = _)

theorem expand_loop : cyclicExpander.expand [word "LOOP" []] =
    .ok [word "LOOP" ["LOOP", "TURN"], { word "0" ["LOOP"] with kind := .number }] := by
  rw [cyclicExpander.expand_object rfl rfl]
  show cyclicExpander.expand [word "TURN" ["LOOP"], word "__LINE__" ["LOOP"]] = _
  rw [cyclicExpander.expand_object rfl rfl]
  show (pasteAll _ ([word "LO" [], mark "##" [], word "OP" []].map .of) >>= _) = _
  rw [pasteAll_loop]
  show cyclicExpander.expand [word "LOOP" ["LOOP", "TURN"], word "__LINE__" ["LOOP"]] = _
  rw [cyclicExpander.expand_plain rfl rfl, cyclicExpander.expand_plain rfl rfl, expand_nil]
  rfl

/-- `LOOP` becomes itself and the number of its line: the name that is pasted together is that of
a macro that encloses it. -/
theorem expand_eq_replaced_loop :
    cyclicExpander.keepDefined = false ∧ cyclicExpander.macros.IsObjectLike ∧
      cyclicExpander.macros.IsFresh ∧ (∀ t ∈ [word "LOOP" []], t.hidden = ∅) ∧
      cyclicExpander.replaced ∅ (word "LOOP" []) =
        .ok [word "LOOP" ["LOOP", "TURN"], { word "0" ["LOOP"] with kind := .number }] ∧
      cyclicExpander.expand [word "LOOP" ["LOOP", "TURN"],
          { word "0" ["LOOP"] with kind := .number }] =
        .ok [word "LOOP" ["LOOP", "TURN"], { word "0" ["LOOP"] with kind := .number }] := by
  have hobject : cyclicExpander.macros.IsObjectLike := by unfold MacroTable.IsObjectLike; decide
  have hfresh : cyclicExpander.macros.IsFresh := by unfold MacroTable.IsFresh; decide
  have htokens : ∀ t ∈ [word "LOOP" []], t.hidden = ∅ := by decide
  obtain ⟨hreplaced, hagain⟩ := expand_eq_replaced rfl hobject hfresh htokens
  refine ⟨rfl, hobject, hfresh, htokens, ?_, hagain _ expand_loop⟩
  rw [expand_loop, List.mapM_cons, List.mapM_nil] at hreplaced
  cases hpart : cyclicExpander.replaced ∅ (word "LOOP" []) with
  | error fault =>
    rw [hpart] at hreplaced
    cases hreplaced
  | ok part =>
    rw [hpart] at hreplaced
    exact (hreplaced.trans (congrArg Except.ok (List.append_nil part))).symm

end Expander

end CPreprocessor
