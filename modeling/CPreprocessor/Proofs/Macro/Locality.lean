import CPreprocessor.Proofs.Diagnostic
import CPreprocessor.Proofs.Macro.Adequacy

/-!
# Expansion is local

Expansion never looks further than the tokens it is given, but for the parenthesis after the name of
a function-like macro. An invocation that is read to its end is read just the same if more tokens
follow (`readInvocation_append`), and so is a token, unless what follows the last one begins with a
parenthesis (`Expander.reading_append`). So lists of tokens can be expanded one after the other
(`Expander.expand_append_of_not_isOpen`), whatever is rescanned on the way: the tokens that replace
an invocation are in front of what follows it.
-/

namespace CPreprocessor

/-- An invocation that is closed has the same arguments, whatever comes after it. -/
theorem readInvocation_append {depth : Nat} {commas : Option Nat} {tokens : List Token}
    {i : Invocation} (h : readInvocation depth commas tokens = some i) (more : List Token) :
    readInvocation depth commas (tokens ++ more) = some { i with after := i.after ++ more } := by
  induction tokens generalizing depth commas i with
  | nil => cases h
  | cons t rest ih =>
    have hpush {depth : Nat} (h : (readInvocation depth commas rest).map (.push t) = some i) :
        (readInvocation depth commas (rest ++ more)).map (.push t) =
          some { i with after := i.after ++ more } := by
      obtain ⟨j, hj, rfl⟩ := Option.map_eq_some_iff.1 h
      rw [ih hj]
      rfl
    unfold readInvocation at h
    rw [List.cons_append]
    unfold readInvocation
    by_cases hopen : t.isOpen = true
    · rw [if_pos hopen] at h ⊢
      exact hpush h
    rw [if_neg hopen] at h ⊢
    by_cases hclose : t.isClose = true
    · rw [if_pos hclose] at h ⊢
      cases depth with
      | zero =>
        cases h
        rfl
      | succ depth => exact hpush h
    rw [if_neg hclose] at h ⊢
    by_cases hcomma : t.isComma ∧ depth = 0 ∧ commas ≠ some 0
    · rw [if_pos hcomma] at h ⊢
      obtain ⟨j, hj, rfl⟩ := Option.map_eq_some_iff.1 h
      rw [ih hj]
      rfl
    · rw [if_neg hcomma] at h ⊢
      exact hpush h

namespace Expander

variable {e : Expander} {t : Token} {rest tokens output more : List Token}

/-- The invocation that is read after a name ends before what follows the tokens. -/
theorem invocation?_append {parameters : Nat} {variadic : Bool} {i : Invocation}
    (h : invocation? parameters variadic rest = some i) (more : List Token) :
    invocation? parameters variadic (rest ++ more) = some { i with after := i.after ++ more } := by
  cases rest with
  | nil => cases h
  | cons opening rest => exact readInvocation_append h more

section

variable (hmore : more.head?.any Token.isOpen = false)
include hmore

/-- Only an opening parenthesis after the last of some tokens can change what it is. -/
theorem reading_append (t : Token) (rest : List Token) :
    e.reading t (rest ++ more) = e.reading t rest := by
  have hopen : (rest ++ more).head?.any Token.isOpen = rest.head?.any Token.isOpen := by
    cases rest with
    | nil => rw [List.nil_append, hmore, List.head?_nil, Option.any_none]
    | cons next rest => rfl
  rw [reading, reading, hopen]

/-- **Expansion is local.** Tokens that can be expanded on their own become the same tokens in front
of others that do not begin with an opening parenthesis, and what the others become follows them,
be it tokens or an error. -/
theorem expand_append_of_not_isOpen (hk : e.keepDefined = false)
    (hok : e.expand tokens = .ok output) :
    e.expand (tokens ++ more) = (output ++ ·) <$> e.expand more := by
  induction tokens using e.expand_induction generalizing output with
  | nil =>
    rw [expand_nil] at hok
    cases hok
    rw [List.nil_append]
    cases e.expand more <;> rfl
  | kept t rest hkept =>
    rw [Prosser.isKeptDefined_eq_false hk t] at hkept
    cases hkept
  | plain t rest t' hkept hread ih =>
    rw [List.cons_append, e.expand_plain hkept ((reading_append hmore t rest).trans hread)]
    rw [e.expand_plain hkept hread] at hok
    cases hrest : e.expand rest with
    | error fault =>
      rw [hrest] at hok
      cases hok
    | ok output' =>
      rw [hrest] at hok
      cases hok
      rw [ih hrest]
      cases e.expand more <;> rfl
  | overflow t rest hkept hread =>
    rw [e.expand_overflow hkept hread] at hok
    cases hok
  | object t rest m hkept hread ih =>
    rw [List.cons_append, e.expand_object hkept ((reading_append hmore t rest).trans hread)]
    rw [e.expand_object hkept hread] at hok
    obtain ⟨pieces, hpieces, hrescan⟩ := exists_of_bind_eq_ok hok
    rw [hpieces, ← ih pieces hrescan, List.append_assoc]
    rfl
  | unterminated t rest m parameters variadic hkept hread hi =>
    rw [e.expand_unterminated hkept hread hi] at hok
    cases hok
  | miscounted t rest m parameters variadic i hkept hread hi hfit =>
    rw [e.expand_miscounted hkept hread hi hfit] at hok
    cases hok
  | function t rest m parameters variadic i arguments hkept hread hi hfit _ ih =>
    rw [List.cons_append, e.expand_function hkept ((reading_append hmore t rest).trans hread)
      (invocation?_append hi more) hfit]
    rw [e.expand_function hkept hread hi hfit] at hok
    obtain ⟨substituted, hsubstitute, hok⟩ := exists_of_bind_eq_ok hok
    obtain ⟨pieces, hpaste, hrescan⟩ := exists_of_bind_eq_ok hok
    rw [hsubstitute]
    change pasteAll _ substituted >>= _ = _
    rw [hpaste, ← ih pieces hrescan, List.append_assoc]
    rfl

end

/-! ## A parenthesis that comes too late -/

open Prosser (word mark)

/-- The macros `F(x)`, which is `x`, `NAME`, which is `F`, and `OPEN`, which is a parenthesis. -/
def lateExpander : Expander where
  macros := ⟨[⟨Bytes.ofString "F", .function [Bytes.ofString "x"] false, [word "x" []]⟩,
    ⟨Bytes.ofString "NAME", .object, [word "F" []]⟩,
    ⟨Bytes.ofString "OPEN", .object, [mark "(" []]⟩]⟩
  file := "main.c"

theorem expand_name : lateExpander.expand [word "NAME" []] = .ok [word "F" ["NAME"]] := by
  rw [lateExpander.expand_object rfl rfl]
  show lateExpander.expand [word "F" ["NAME"]] = _
  rw [lateExpander.expand_plain rfl rfl, expand_nil]
  rfl

theorem expand_open :
    lateExpander.expand [word "OPEN" [], mark ")" []] = .ok [mark "(" ["OPEN"], mark ")" []] := by
  rw [lateExpander.expand_object rfl rfl]
  show lateExpander.expand [mark "(" ["OPEN"], mark ")" []] = _
  rw [lateExpander.expand_plain rfl rfl, lateExpander.expand_plain rfl rfl, expand_nil]
  rfl

/-- `NAME` becomes the name of a function-like macro, which does not take its arguments from what
`OPEN` becomes. -/
theorem expand_append_lateParenthesis :
    lateExpander.keepDefined = false ∧
      lateExpander.expand [word "NAME" []] = .ok [word "F" ["NAME"]] ∧
      [word "OPEN" [], mark ")" []].head?.any Token.isOpen = false ∧
      lateExpander.expand ([word "NAME" []] ++ [word "OPEN" [], mark ")" []]) =
        .ok [word "F" ["NAME"], mark "(" ["OPEN"], mark ")" []] := by
  have hmore : [word "OPEN" [], mark ")" []].head?.any Token.isOpen = false := by decide
  refine ⟨rfl, expand_name, hmore, ?_⟩
  rw [expand_append_of_not_isOpen hmore rfl expand_name, expand_open]
  rfl

end Expander

end CPreprocessor
