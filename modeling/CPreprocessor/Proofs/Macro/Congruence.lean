import CPreprocessor.Proofs.Macro.Errors

/-!
# Interchangeable macros

All that expansion asks of a macro is its name, what kind of macro it is, and what it makes of its
arguments. Two macros that agree in this are interchangeable, and so are two tables that have such
macros under every name: any tokens are expanded alike with both of them (`Expander.expand_congr`).
-/

namespace CPreprocessor

open Prosser (names_of_reading_object)

/-- The kind of a macro without the names of its parameters. -/
def MacroKind.anonymous : MacroKind → MacroKind
  | .function parameters variadic => .function (parameters.map fun _ => []) variadic
  | kind => kind

namespace Macro

/-- What takes the place of an invocation of a macro with the given arguments, as they were written
and expanded, where it hides the given names. -/
def replace (m : Macro) (site : Location) (argument : Nat → List Token)
    (expanded : Nat → Except Fault (List Token)) (hidden : HideSet) (t : Token) :
    Except Fault (List Token) := do
  let pieces ← substitute m argument expanded false m.replacement
  let pieces ← pasteAll site pieces
  return finish pieces hidden t

/-- Expansion cannot tell one macro from the other. -/
structure IsInterchangeable (m n : Macro) : Prop where
  name : m.name = n.name
  kind : m.kind.anonymous = n.kind.anonymous
  replace : m.replace = n.replace

theorem IsInterchangeable.refl (m : Macro) : m.IsInterchangeable m := ⟨rfl, rfl, rfl⟩

theorem IsInterchangeable.trans {l m n : Macro} (h : l.IsInterchangeable m)
    (h' : m.IsInterchangeable n) : l.IsInterchangeable n :=
  ⟨h.name.trans h'.name, h.kind.trans h'.kind, h.replace.trans h'.replace⟩

end Macro

/-- Expansion cannot tell one table from the other. -/
def MacroTable.IsInterchangeable (table table' : MacroTable) : Prop :=
  ∀ name, Option.Rel Macro.IsInterchangeable (table.lookup name) (table'.lookup name)

/-- Nothing is put in the replacement list of an object-like macro. -/
theorem substitute_of_object {m : Macro} (h : m.kind = .object) (argument : Nat → List Token)
    (expanded : Nat → Except Fault (List Token)) (afterPaste : Bool) (list : List Token) :
    substitute m argument expanded afterPaste list = .ok (list.map .of) := by
  have hparameter (t : Token) : m.parameter? t = none := by rw [Macro.parameter?, h]
  induction list generalizing afterPaste with
  | nil => rfl
  | cons t rest ih =>
    have hbind : rest.head?.bind m.parameter? = none := by cases rest <;> simp [hparameter]
    rw [substitute_cons, hbind, ite_self, hparameter, ih]
    rfl

/-- Two readings are the same but for the macro, for which there is an interchangeable one. -/
inductive Reading.IsInterchangeable : Reading → Reading → Prop
  | plain (t : Token) : IsInterchangeable (.plain t) (.plain t)
  | overflow : IsInterchangeable .overflow .overflow
  | object {m n : Macro} (h : m.IsInterchangeable n) : IsInterchangeable (.object m) (.object n)
  | function {m n : Macro} (h : m.IsInterchangeable n) (parameters : Nat) (variadic : Bool) :
      IsInterchangeable (.function m parameters variadic) (.function n parameters variadic)

namespace Reading.IsInterchangeable

variable {r r' : Reading} (h : r.IsInterchangeable r')
include h

theorem eq_plain {t : Token} (hr : r = .plain t) : r' = .plain t := by
  subst hr
  cases h
  rfl

theorem eq_overflow (hr : r = .overflow) : r' = .overflow := by
  subst hr
  cases h
  rfl

theorem exists_object {m : Macro} (hr : r = .object m) :
    ∃ n, m.IsInterchangeable n ∧ r' = .object n := by
  subst hr
  cases h with
  | object hmn => exact ⟨_, hmn, rfl⟩

theorem exists_function {m : Macro} {parameters : Nat} {variadic : Bool}
    (hr : r = .function m parameters variadic) :
    ∃ n, m.IsInterchangeable n ∧ r' = .function n parameters variadic := by
  subst hr
  cases h with
  | function hmn => exact ⟨_, hmn, rfl⟩

end Reading.IsInterchangeable

namespace Expander

variable {e : Expander} {t : Token} {rest : List Token} {table : MacroTable}

/-- The expander with another table of macros. -/
def withMacros (e : Expander) (table : MacroTable) : Expander := { e with macros := table }

theorem reading_congr (h : e.macros.IsInterchangeable table) (t : Token) (rest : List Token) :
    (e.reading t rest).IsInterchangeable ((e.withMacros table).reading t rest) := by
  have hmacros : (e.withMacros table).macros = table := rfl
  have hdelta : (e.withMacros table).lineDelta = e.lineDelta := rfl
  rw [reading, reading, hmacros, hdelta]
  split
  · exact .plain t
  · have hlookup := h t.text
    generalize e.macros.lookup t.text = found, table.lookup t.text = found' at hlookup ⊢
    cases hlookup with
    | none => exact .plain t
    | @some m n hmn =>
      have hkind := hmn.kind
      dsimp only
      cases hm : m.kind with
      | line =>
        rw [hm] at hkind
        cases hn : n.kind <;> rw [hn] at hkind <;> cases hkind
        dsimp only
        split
        · exact .plain _
        · exact .overflow
      | file =>
        rw [hm] at hkind
        cases hn : n.kind <;> rw [hn] at hkind <;> cases hkind
        exact .plain _
      | object =>
        rw [hm] at hkind
        cases hn : n.kind <;> rw [hn] at hkind <;> cases hkind
        exact .object hmn
      | function parameters variadic =>
        rw [hm] at hkind
        cases hn : n.kind with
        | function parameters' variadic' =>
          rw [hn] at hkind
          obtain ⟨hparameters, rfl⟩ := MacroKind.function.inj hkind
          have hlength : parameters.length = parameters'.length := by
            simpa using congrArg List.length hparameters
          dsimp only
          rw [hlength]
          split
          · exact .function hmn _ _
          · exact .plain t
        | _ =>
          rw [hn] at hkind
          cases hkind

/-! ## Expansion -/

theorem expand_object_eq_replace (hk : e.isKeptDefined t = false) {m : Macro}
    (h : e.reading t rest = .object m) :
    e.expand (t :: rest) = (do
      let tokens ← m.replace (e.locationOf t) (fun _ => []) (fun _ => .ok [])
        (t.hidden.insert m.name) t
      e.expand (tokens ++ rest)) := by
  rw [e.expand_object hk h, Macro.replace, substitute_of_object (names_of_reading_object h).2]
  simp only [bind_assoc, pure_bind]
  rfl

theorem expand_function_eq_replace (hk : e.isKeptDefined t = false) {m : Macro} {parameters : Nat}
    {variadic : Bool} {i : Invocation} {arguments : List (List Token)}
    (h : e.reading t rest = .function m parameters variadic)
    (hi : invocation? parameters variadic rest = some i)
    (hfit : fitArguments parameters variadic i.arguments = some arguments) :
    e.expand (t :: rest) = (do
      let tokens ← m.replace (e.locationOf t) (argument arguments)
        (fun index => e.expand (argument arguments index)) (hiddenIn m t i) t
      e.expand (tokens ++ i.after)) := by
  rw [e.expand_function hk h hi hfit, Macro.replace]
  simp only [bind_assoc, pure_bind]

/-- What follows a replacement needs to be known for replacements only. -/
theorem bind_replace_congr {m : Macro} {site : Location} {argument : Nat → List Token}
    {expanded : Nat → Except Fault (List Token)} {hidden : HideSet} {t : Token}
    {k k' : List Token → Except Fault (List Token)}
    (h : ∀ pieces, k (finish pieces hidden t) = k' (finish pieces hidden t)) :
    m.replace site argument expanded hidden t >>= k =
      m.replace site argument expanded hidden t >>= k' := by
  simp only [Macro.replace, bind_assoc, pure_bind, h]

/-- **Tables of interchangeable macros expand any tokens alike**, to the same tokens or with the
same error. -/
theorem expand_congr (h : e.macros.IsInterchangeable table) (tokens : List Token) :
    (e.withMacros table).expand tokens = e.expand tokens := by
  have hkept {t : Token} {kept : Bool} (hk : e.isKeptDefined t = kept) :
      (e.withMacros table).isKeptDefined t = kept := hk
  have hreading := reading_congr h
  induction tokens using e.expand_induction with
  | nil => rw [expand_nil, expand_nil]
  | kept t rest hk ih => rw [e.expand_kept hk, expand_kept _ (hkept hk), ih]
  | plain t rest t' hk hread ih =>
    have hread' := (hreading t rest).eq_plain hread
    rw [e.expand_plain hk hread, expand_plain _ (hkept hk) hread', ih]
  | overflow t rest hk hread =>
    have hread' := (hreading t rest).eq_overflow hread
    rw [e.expand_overflow hk hread, expand_overflow _ (hkept hk) hread']
    rfl
  | object t rest m hk hread ih =>
    obtain ⟨n, hmn, hread'⟩ := (hreading t rest).exists_object hread
    rw [expand_object_eq_replace hk hread, expand_object_eq_replace (hkept hk) hread', ← hmn.name,
      ← hmn.replace]
    exact bind_replace_congr ih
  | unterminated t rest m parameters variadic hk hread hi =>
    obtain ⟨n, hmn, hread'⟩ := (hreading t rest).exists_function hread
    rw [e.expand_unterminated hk hread hi, expand_unterminated _ (hkept hk) hread' hi]
    rfl
  | miscounted t rest m parameters variadic i hk hread hi hfit =>
    obtain ⟨n, hmn, hread'⟩ := (hreading t rest).exists_function hread
    rw [e.expand_miscounted hk hread hi hfit, expand_miscounted _ (hkept hk) hread' hi hfit]
    rfl
  | function t rest m parameters variadic i arguments hk hread hi hfit iha ih =>
    obtain ⟨n, hmn, hread'⟩ := (hreading t rest).exists_function hread
    have hnil : (e.withMacros table).expand [] = e.expand [] := by rw [expand_nil, expand_nil]
    have harguments : (fun index => (e.withMacros table).expand (argument arguments index)) =
        fun index => e.expand (argument arguments index) :=
      funext (argument_of_forall hnil iha)
    have hhidden : hiddenIn n t i = hiddenIn m t i := by rw [hiddenIn, hiddenIn, hmn.name]
    rw [expand_function_eq_replace hk hread hi hfit,
      expand_function_eq_replace (hkept hk) hread' hi hfit, harguments, hhidden, ← hmn.replace]
    exact bind_replace_congr ih

end Expander

end CPreprocessor
