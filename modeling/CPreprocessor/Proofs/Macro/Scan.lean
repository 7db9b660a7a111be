import CPreprocessor.Proofs.Diagnostic
import CPreprocessor.Proofs.Macro.Adequacy
import CPreprocessor.Proofs.Macro.Machine
import CPreprocessor.Proofs.Macro.Table

/-!
# Tokens outside of invocations

The machine consumes its input from the left and never touches what is behind the token that it
looks at, but to read the arguments of an invocation. So a tail of the input is sooner or later
scanned as it is, unless it begins inside an invocation (`reaches_scan_or_inInvocation`), and what
the machine gives out from then on is the expansion of the tail alone (`expand_eq_of_reaches`). So a
token like `__LINE__`, which is not expanded any further, comes out where it stands
(`exists_eq_of_not_inInvocation`).
-/

namespace CPreprocessor.Expander

/-- A `__LINE__` of the source is replaced by the number of its line, if it can be computed. -/
theorem reading_lineName {e : Expander} (hmacros : e.macros.IsReachable) {t : Token}
    (hidentifier : t.isIdentifier = true) (htext : t.text = MacroTable.lineName)
    (hhidden : t.hidden = ∅) (rest : List Token) :
    e.reading t rest =
      if IsInt64 (t.position.line + e.lineDelta) then
        .plain { t with
          kind := .number
          text := Bytes.ofString (toString (t.position.line + e.lineDelta)) }
      else .overflow := by
  have hplain : ¬ (!t.isIdentifier ∨ t.text ∈ t.hidden) := by simp [hidentifier, hhidden]
  rw [reading, if_neg hplain, htext, hmacros.lookup_lineName]

/-- A `__FILE__` of the source is replaced by the name of its file, as a string literal. -/
theorem reading_fileName {e : Expander} (hmacros : e.macros.IsReachable) {t : Token}
    (hidentifier : t.isIdentifier = true) (htext : t.text = MacroTable.fileName)
    (hhidden : t.hidden = ∅) (rest : List Token) :
    e.reading t rest =
      .plain { t with kind := .string, text := quote (Bytes.ofString e.file) } := by
  have hplain : ¬ (!t.isIdentifier ∨ t.text ∈ t.hidden) := by simp [hidentifier, hhidden]
  rw [reading, if_neg hplain, htext, hmacros.lookup_fileName]

namespace Machine

variable (e : Expander) {t : Token} {rest tokens output result : List Token} {m : Macro}

/-! ## The end of a run -/

variable {e} in
/-- The machine is done in one way only. -/
theorem Reaches.done_unique {c : Cfg} {r r' : Except Fault (List Token)}
    (h : Reaches e c (.done r)) (h' : Reaches e c (.done r')) : r = r' := by
  have hstays (r : Except Fault (List Token)) (n : ℕ) : (step e)^[n] (.done r) = .done r :=
    Function.iterate_fixed rfl n
  obtain ⟨n, hn⟩ := h
  obtain ⟨n', hn'⟩ := h'
  -- both are done after as many steps as the two runs have together
  have hboth : (step e)^[n + n'] c = .done r := by
    rw [Nat.add_comm, Function.iterate_add_apply, hn, hstays]
  have hboth' : (step e)^[n + n'] c = .done r' := by
    rw [Function.iterate_add_apply, hn', hstays]
  exact Cfg.done.inj (hboth.symm.trans hboth')

theorem reaches_done (tokens output : List Token) :
    Reaches e (.scan tokens output []) (.done (do return output ++ (← e.expand tokens))) := by
  refine (reaches_returned e tokens output []).trans ?_
  cases e.expand tokens with
  | error fault => exact .refl _
  | ok tokens => exact .head (.refl _)

/-- When the machine scans some tokens on the way, their expansion is the end of the whole. -/
theorem expand_eq_of_reaches (h : Reaches e (.scan tokens [] []) (.scan rest output [])) :
    e.expand tokens = (do return output ++ (← e.expand rest)) := by
  have hdone := (reaches_done e tokens []).done_unique (h.trans (reaches_done e rest output))
  rw [← hdone]
  cases e.expand tokens <;> rfl

/-! ## Invocations that are replaced -/

/-- If expansion does not fail, the pieces of a replacement list are put in front of what follows. -/
theorem exists_rescan_eq {site : Token} {hidden : HideSet} {pieces : List Piece}
    {after : List Token}
    (hok : (do
      let pieces ← pasteAll (e.locationOf site) pieces
      e.expand (finish pieces hidden site ++ after)) = .ok result)
    (output : List Token) (stack : List Frame) :
    ∃ pasted, e.expand (finish pasted hidden site ++ after) = .ok result ∧
      rescan e site hidden pieces after output stack =
        .scan (finish pasted hidden site ++ after) output stack := by
  cases hpaste : pasteAll (e.locationOf site) pieces with
  | error fault =>
    rw [hpaste] at hok
    cases hok
  | ok pasted =>
    rw [hpaste] at hok
    refine ⟨pasted, hok, ?_⟩
    rw [rescan, hpaste]

section

variable (hk : e.keepDefined = false) (hok : e.expand (t :: rest) = .ok result)
include hk hok

/-- If expansion does not fail, the name of an object-like macro is replaced. -/
theorem exists_reaches_of_object (hread : e.reading t rest = .object m) (output : List Token) :
    ∃ pieces, e.expand (finish pieces (t.hidden.insert m.name) t ++ rest) = .ok result ∧
      Reaches e (.scan (t :: rest) output [])
        (.scan (finish pieces (t.hidden.insert m.name) t ++ rest) output []) := by
  have hkept := Prosser.isKeptDefined_eq_false hk t
  rw [e.expand_object hkept hread] at hok
  obtain ⟨pasted, hok, hrescan⟩ := exists_rescan_eq e hok output []
  refine ⟨pasted, hok, .head ?_⟩
  simp only [step, scanToken, hkept, Bool.false_eq_true, if_false, hread, hrescan]
  exact .refl _

/-- If expansion does not fail, an invocation of a function-like macro is closed and replaced. -/
theorem exists_reaches_of_function {parameters : Nat} {variadic : Bool} {i : Invocation}
    {arguments : List (List Token)}
    (hread : e.reading t rest = .function m parameters variadic)
    (hi : invocation? parameters variadic rest = some i)
    (hfit : fitArguments parameters variadic i.arguments = some arguments) (output : List Token) :
    ∃ pieces, e.expand (finish pieces (hiddenIn m t i) t ++ i.after) = .ok result ∧
      Reaches e (.scan (t :: rest) output [])
        (.scan (finish pieces (hiddenIn m t i) t ++ i.after) output []) := by
  have hkept := Prosser.isKeptDefined_eq_false hk t
  have hreplaced := @reaches_substituted e ⟨t, m, arguments, hiddenIn m t i, i.after, output⟩
    (reaches_argument e fun a _ => reaches_returned e a) m.replacement [] false []
  rw [e.expand_function hkept hread hi hfit] at hok
  cases hsubstitute : CPreprocessor.substitute m (argument arguments)
      (fun index => e.expand (argument arguments index)) false m.replacement with
  | error fault =>
    rw [hsubstitute] at hok
    cases hok
  | ok pieces =>
    rw [hsubstitute] at hok hreplaced
    obtain ⟨pasted, hok, hrescan⟩ := exists_rescan_eq e hok output []
    refine ⟨pasted, hok, .head ?_⟩
    simp only [step, scanToken, hkept, Bool.false_eq_true, if_false, hread, hi, hfit]
    simp only [substituted, List.nil_append, hrescan] at hreplaced
    exact hreplaced

end

/-! ## Tails of the input -/

/-- On the way from a configuration, the machine comes to an invocation of a function-like macro
that the given tail of the input begins inside of. -/
def InInvocation (c : Cfg) (tail : List Token) : Prop :=
  ∃ site behind output m parameters variadic i,
    Reaches e c (.scan (site :: behind) output []) ∧
      e.reading site behind = .function m parameters variadic ∧
      invocation? parameters variadic behind = some i ∧
      tail <:+ behind ∧ i.after.length < tail.length

variable {e} in
theorem InInvocation.of_reaches {c c' : Cfg} {tail : List Token} (h : Reaches e c c')
    (htail : InInvocation e c' tail) : InInvocation e c tail := by
  obtain ⟨site, behind, output, m, parameters, variadic, i, hreach, hinvocation⟩ := htail
  exact ⟨site, behind, output, m, parameters, variadic, i, h.trans hreach, hinvocation⟩

variable {e} in
/-- Without function-like macros, nothing is inside an invocation. -/
theorem not_inInvocation (h : ∀ m ∈ e.macros.macros, m.isFunctionLike = false) (c : Cfg)
    (tail : List Token) : ¬ InInvocation e c tail := by
  rintro ⟨site, behind, -, m, parameters, variadic, -, -, hread, -⟩
  unfold reading at hread
  split at hread
  · cases hread
  · split at hread
    · cases hread
    · next m' hlookup =>
      have hlike := h m' (MacroTable.lookup_eq_some hlookup).2
      split at hread
      · split at hread <;> cases hread
      · cases hread
      · cases hread
      · next hkind =>
        rw [Macro.isFunctionLike, hkind] at hlike
        cases hlike

/-- **What does not begin inside an invocation is scanned.** Every tail of the input is scanned as it
is, with what the tokens before it are expanded to as the output. -/
theorem reaches_scan_or_inInvocation (hk : e.keepDefined = false) {tail : List Token}
    (hne : tail ≠ []) {tokens : List Token} (hok : e.expand tokens = .ok result)
    (htail : tail <:+ tokens) (output : List Token) :
    InInvocation e (.scan tokens output []) tail ∨
      ∃ output', Reaches e (.scan tokens output []) (.scan tail output' []) := by
  induction tokens using e.expand_induction generalizing result output with
  | nil => exact absurd (List.suffix_nil.1 htail) hne
  | kept t rest hkept =>
    rw [Prosser.isKeptDefined_eq_false hk t] at hkept
    cases hkept
  | plain t rest t' hkept hread ih =>
    rcases List.suffix_cons_iff.1 htail with rfl | htail
    · exact .inr ⟨output, .refl _⟩
    · have hstep : Reaches e (.scan (t :: rest) output []) (.scan rest (output ++ [t']) []) := by
        refine .head ?_
        simp only [step, scanToken, hkept, Bool.false_eq_true, if_false, hread]
        exact .refl _
      cases hrest : e.expand rest with
      | error fault =>
        rw [e.expand_plain hkept hread, hrest] at hok
        cases hok
      | ok result' =>
        rcases ih hrest htail (output ++ [t']) with hinside | ⟨output', hreach⟩
        · exact .inl (hinside.of_reaches hstep)
        · exact .inr ⟨output', hstep.trans hreach⟩
  | overflow t rest hkept hread =>
    rw [e.expand_overflow hkept hread] at hok
    cases hok
  | object t rest m hkept hread ih =>
    rcases List.suffix_cons_iff.1 htail with rfl | htail
    · exact .inr ⟨output, .refl _⟩
    · obtain ⟨pieces, hok, hstep⟩ := exists_reaches_of_object e hk hok hread output
      rcases ih pieces hok (htail.trans (List.suffix_append _ _)) output with
        hinside | ⟨output', hreach⟩
      · exact .inl (hinside.of_reaches hstep)
      · exact .inr ⟨output', hstep.trans hreach⟩
  | unterminated t rest m parameters variadic hkept hread hi =>
    rw [e.expand_unterminated hkept hread hi] at hok
    cases hok
  | miscounted t rest m parameters variadic i hkept hread hi hfit =>
    rw [e.expand_miscounted hkept hread hi hfit] at hok
    cases hok
  | function t rest m parameters variadic i arguments hkept hread hi hfit harguments ih =>
    rcases List.suffix_cons_iff.1 htail with rfl | htail
    · exact .inr ⟨output, .refl _⟩
    · by_cases hlength : i.after.length < tail.length
      · exact .inl ⟨t, rest, output, m, parameters, variadic, i, .refl _, hread, hi, htail, hlength⟩
      · obtain ⟨pieces, hok, hstep⟩ := exists_reaches_of_function e hk hok hread hi hfit output
        -- the invocation ends before the tail
        have hafter : tail <:+ i.after := by
          obtain ⟨opening, inside, rfl, -⟩ := exists_of_readInvocation hi
          refine List.suffix_of_suffix_length_le htail ?_ (Nat.not_lt.1 hlength)
          exact ⟨opening :: (inside ++ [i.close]), by simp⟩
        rcases ih pieces hok (hafter.trans (List.suffix_append _ _)) output with
          hinside | ⟨output', hreach⟩
        · exact .inl (hinside.of_reaches hstep)
        · exact .inr ⟨output', hstep.trans hreach⟩

section

variable (hk : e.keepDefined = false) (hok : e.expand tokens = .ok result)
  (htail : t :: rest <:+ tokens) (houtside : ¬ InInvocation e (.scan tokens [] []) (t :: rest))
include hk hok htail houtside

/-- The expansion of a tail that begins outside of invocations is the end of the whole. -/
theorem exists_expand_eq_of_not_inInvocation :
    ∃ before after, e.expand (t :: rest) = .ok after ∧ result = before ++ after := by
  obtain ⟨before, hreach⟩ := (reaches_scan_or_inInvocation e hk (List.cons_ne_nil t rest) hok htail
    []).resolve_left houtside
  rw [expand_eq_of_reaches e hreach] at hok
  obtain ⟨after, hafter, hresult⟩ := exists_of_bind_eq_ok hok
  exact ⟨before, after, hafter, (Except.ok.inj hresult).symm⟩

/-- The number that a token outside of invocations stands for can be computed, if nothing fails. -/
theorem reading_ne_overflow_of_not_inInvocation : e.reading t rest ≠ .overflow := by
  intro hread
  obtain ⟨-, after, hafter, -⟩ := exists_expand_eq_of_not_inInvocation e hk hok htail houtside
  rw [e.expand_overflow (Prosser.isKeptDefined_eq_false hk t) hread] at hafter
  cases hafter

/-- **What is not expanded any further and is outside of invocations comes out.** -/
theorem exists_eq_of_not_inInvocation {t' : Token} (hread : e.reading t rest = .plain t') :
    ∃ before after, result = before ++ t' :: after := by
  obtain ⟨before, after, hafter, rfl⟩ :=
    exists_expand_eq_of_not_inInvocation e hk hok htail houtside
  rw [e.expand_plain (Prosser.isKeptDefined_eq_false hk t) hread] at hafter
  obtain ⟨others, -, hothers⟩ := exists_of_bind_eq_ok hafter
  cases hothers
  exact ⟨before, others, rfl⟩

end

end Machine

end CPreprocessor.Expander
