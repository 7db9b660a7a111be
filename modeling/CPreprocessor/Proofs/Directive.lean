import CPreprocessor.Directive
import CPreprocessor.Macro.Basic
import Mathlib.Data.List.Nodup

/-!
# What the name of a directive says

Every reader of `Directive.readers` reads directives of its own name (`Directive.name?_of_reads`).
Whether a line opens a conditional is told by its name alone, since its operands may be wrong where
it is not processed. If the line can be read as a directive, its name says the same as that
directive (`Directive.opensConditional_eq`).
-/

namespace CPreprocessor

/-- What continues or closes a conditional. -/
inductive Boundary
  | elifGroup
  | elseGroup
  | endIf
  deriving DecidableEq

namespace Boundary

/-- The name of the directive. -/
def name : Boundary → String
  | elifGroup => "elif"
  | elseGroup => "else"
  | endIf => "endif"

def directive : Boundary → List Token → Directive
  | elifGroup, operand => .elifExpression operand
  | elseGroup, operand => .elseGroup operand
  | endIf, operand => .endIf operand

end Boundary

namespace Directive

/-- The name of a directive, if it has one. -/
def name? : Directive → Option String
  | .ifExpression _ => some "if"
  | .ifDefined _ _ => some "ifdef"
  | .ifNotDefined _ _ => some "ifndef"
  | .elifExpression _ => some "elif"
  | .elseGroup _ => some "else"
  | .endIf _ => some "endif"
  | .inclusion _ => some "include"
  | .defineObject _ _ | .defineFunction _ _ _ _ => some "define"
  | .undefine _ _ => some "undef"
  | .line _ => some "line"
  | .error _ => some "error"
  | .pragma _ => some "pragma"
  | .null | .nonDirective _ => none

/-- Whether a directive opens a conditional. -/
def opensConditional : Directive → Bool
  | .ifExpression _ | .ifDefined _ _ | .ifNotDefined _ _ => true
  | _ => false

/-! ## Readers -/

theorem exists_of_withIdentifier {directive : Token → List Token → Option Directive}
    {rest : List Token} {d : Directive} (h : withIdentifier directive rest = some d) :
    ∃ t after, directive t after = some d := by
  unfold withIdentifier at h
  split at h
  · contradiction
  · split at h
    · exact ⟨_, _, h⟩
    · contradiction

theorem exists_of_withOperand {directive : List Token → Directive} {rest : List Token}
    {d : Directive} (h : withOperand directive rest = some d) :
    ∃ operand, directive operand = d := by
  unfold withOperand at h
  split at h
  · contradiction
  · exact ⟨_, Option.some.inj h⟩

theorem name?_of_definition {name : Token} {rest : List Token} {d : Directive}
    (h : definition name rest = some d) : d.name? = some "define" := by
  unfold definition at h
  split at h
  · obtain rfl := Option.some.inj h
    rfl
  · split at h
    · obtain rfl := Option.some.inj h
      rfl
    · split at h
      · contradiction
      · split at h
        · obtain rfl := Option.some.inj h
          rfl
        · obtain ⟨_, -, rfl⟩ := Option.map_eq_some_iff.1 h
          rfl

theorem name?_of_reads {spelling : String} {read : List Token → Option Directive}
    {rest : List Token} {d : Directive} (mem : (spelling, read) ∈ readers)
    (h : read rest = some d) : d.name? = some spelling := by
  unfold readers at mem
  simp only [List.mem_cons, Prod.mk.injEq, List.not_mem_nil, or_false] at mem
  rcases mem with ⟨rfl, rfl⟩ | ⟨rfl, rfl⟩ | ⟨rfl, rfl⟩ | ⟨rfl, rfl⟩ | ⟨rfl, rfl⟩ | ⟨rfl, rfl⟩ |
    ⟨rfl, rfl⟩ | ⟨rfl, rfl⟩ | ⟨rfl, rfl⟩ | ⟨rfl, rfl⟩ | ⟨rfl, rfl⟩ | ⟨rfl, rfl⟩
  · obtain rfl := Option.some.inj h
    rfl
  · obtain ⟨t, after, h⟩ := exists_of_withIdentifier h
    obtain rfl := Option.some.inj h
    rfl
  · obtain ⟨t, after, h⟩ := exists_of_withIdentifier h
    obtain rfl := Option.some.inj h
    rfl
  · obtain rfl := Option.some.inj h
    rfl
  · obtain rfl := Option.some.inj h
    rfl
  · obtain rfl := Option.some.inj h
    rfl
  · obtain ⟨operand, rfl⟩ := exists_of_withOperand h
    rfl
  · obtain ⟨t, after, h⟩ := exists_of_withIdentifier h
    exact name?_of_definition h
  · obtain ⟨t, after, h⟩ := exists_of_withIdentifier h
    obtain rfl := Option.some.inj h
    rfl
  · obtain ⟨operand, rfl⟩ := exists_of_withOperand h
    rfl
  · obtain rfl := Option.some.inj h
    rfl
  · obtain rfl := Option.some.inj h
    rfl

theorem reader?_eq_some {name : Token} {read : List Token → Option Directive}
    (h : reader? name = some read) :
    name.isIdentifier = true ∧
      ∃ spelling, (spelling, read) ∈ readers ∧ name.text = Bytes.ofString spelling := by
  unfold reader? at h
  split at h
  · next hname =>
    obtain ⟨⟨spelling, read'⟩, hfind, rfl⟩ := Option.map_eq_some_iff.1 h
    have htext := List.find?_some hfind
    exact ⟨hname, spelling, List.mem_of_find?_eq_some hfind, of_decide_eq_true htext⟩
  · contradiction

/-! ## Names -/

/-- A directive with a name was read from a line with that name. -/
theorem exists_of_ofTokens {line : List Token} {d : Directive} {spelling : String}
    (h : ofTokens line = some d) (hname : d.name? = some spelling) :
    ∃ hash name rest read, line = hash :: name :: rest ∧ name.isIdentifier = true ∧
      name.text = Bytes.ofString spelling ∧ (spelling, read) ∈ readers ∧ read rest = some d := by
  unfold ofTokens at h
  split at h
  · obtain rfl := Option.some.inj h
    contradiction
  · obtain rfl := Option.some.inj h
    contradiction
  · next hash name rest =>
    split at h
    · next read hread =>
      obtain ⟨hident, spelling', mem, htext⟩ := reader?_eq_some hread
      obtain rfl := Option.some.inj ((name?_of_reads mem h).symm.trans hname)
      exact ⟨hash, name, rest, read, rfl, hident, htext, mem, h⟩
    · obtain rfl := Option.some.inj h
      contradiction

theorem text_ne_of_reader? {name : Token} (h : reader? name = none)
    (hident : name.isIdentifier = true) {spelling : String}
    {read : List Token → Option Directive} (mem : (spelling, read) ∈ readers) :
    name.text ≠ Bytes.ofString spelling := by
  unfold reader? at h
  rw [if_pos hident, Option.map_eq_none_iff] at h
  have := List.find?_eq_none.1 h _ mem
  exact fun htext => this (decide_eq_true htext)

/-- A name has the reader that goes with it. -/
theorem reader?_eq_of_mem {name : Token} (hident : name.isIdentifier = true) {spelling : String}
    {read : List Token → Option Directive} (mem : (spelling, read) ∈ readers)
    (htext : name.text = Bytes.ofString spelling) : reader? name = some read := by
  have hnodup : (readers.map fun reader => Bytes.ofString reader.1).Nodup := by decide
  cases hread : reader? name with
  | none => exact absurd htext (text_ne_of_reader? hread hident mem)
  | some read' =>
    obtain ⟨-, spelling', mem', htext'⟩ := reader?_eq_some hread
    obtain ⟨-, rfl⟩ := Prod.mk.inj
      (List.inj_on_of_nodup_map hnodup mem' mem (htext'.symm.trans htext))
    rfl

theorem reader?_eq_none_iff {name : Token} :
    reader? name = none ↔ name.isNoDirectiveName = true := by
  have hnames : Token.directiveNames = readers.map fun reader => Bytes.ofString reader.1 := rfl
  cases hident : name.isIdentifier with
  | false => simp [reader?, Token.isNoDirectiveName, hident]
  | true =>
    rw [reader?, if_pos hident, Option.map_eq_none_iff, List.find?_eq_none, Token.isNoDirectiveName,
      hident, Bool.true_and, Bool.not_eq_true', List.contains_eq_mem, decide_eq_false_iff_not,
      hnames, List.mem_map]
    simp only [decide_eq_true_eq, not_exists, not_and]
    exact forall₂_congr fun _ _ => ne_comm

/-! ## Conditionals -/

theorem opensConditional_eq_of_name? {d : Directive} {spelling : String}
    (h : d.name? = some spelling) :
    d.opensConditional = openingNames.contains (Bytes.ofString spelling) := by
  cases d <;> cases h <;> dsimp only [opensConditional] <;> decide

theorem exists_reader_of_mem {text : Bytes} (h : text ∈ openingNames) :
    ∃ spelling read, (spelling, read) ∈ readers ∧ text = Bytes.ofString spelling := by
  obtain ⟨spelling, mem, rfl⟩ := List.mem_map.1 h
  simp only [List.mem_cons, List.not_mem_nil, or_false] at mem
  rcases mem with rfl | rfl | rfl
  · exact ⟨_, _, .head _, rfl⟩
  · exact ⟨_, _, .tail _ (.head _), rfl⟩
  · exact ⟨_, _, .tail _ (.tail _ (.head _)), rfl⟩

/-- **A directive opens a conditional if and only if its name says so.** -/
theorem opensConditional_eq {line : List Token} {d : Directive} (h : ofTokens line = some d) :
    d.opensConditional = beginsConditional line := by
  unfold ofTokens at h
  split at h
  · obtain rfl := Option.some.inj h
    rfl
  · obtain rfl := Option.some.inj h
    rfl
  · next hash name rest =>
    unfold beginsConditional
    dsimp only
    split at h
    · next read hread =>
      obtain ⟨hident, spelling, mem, htext⟩ := reader?_eq_some hread
      rw [opensConditional_eq_of_name? (name?_of_reads mem h), hident, htext, Bool.true_and]
    · next hread =>
      obtain rfl := Option.some.inj h
      -- a name that opens a conditional has a reader
      cases hbegins : name.isIdentifier && openingNames.contains name.text with
      | false => rfl
      | true =>
        obtain ⟨hident, hmem⟩ := Bool.and_eq_true_iff.1 hbegins
        obtain ⟨spelling, read, mem, htext⟩ := exists_reader_of_mem (List.contains_iff_mem.1 hmem)
        exact absurd htext (text_ne_of_reader? hread hident mem)

/-! ## Boundaries of groups -/

/-- The boundary that a directive is, if it continues or closes a conditional. -/
def boundary? : Directive → Option Boundary
  | .elifExpression _ => some .elifGroup
  | .elseGroup _ => some .elseGroup
  | .endIf _ => some .endIf
  | _ => none

/-- The boundary that a line is, if it continues or closes a conditional. -/
def boundaryOf (line : List Token) : Option Boundary := (ofTokens line).bind boundary?

theorem any_continuesConditional (line : List Token) :
    (ofTokens line).any continuesConditional = (boundaryOf line).isSome := by
  unfold boundaryOf
  cases ofTokens line with
  | none => rfl
  | some d => cases d <;> rfl

theorem boundaryOf_eq_none {line : List Token} (h : beginsConditional line = true) :
    boundaryOf line = none := by
  unfold boundaryOf
  cases hd : ofTokens line with
  | none => rfl
  | some d =>
    have hopens := (opensConditional_eq hd).trans h
    cases d <;> first | rfl | contradiction

/-- The operand of a boundary is everything after its name. -/
theorem ofTokens_of_boundaryOf {line : List Token} {b : Boundary} (hb : boundaryOf line = some b) :
    ofTokens line = some (b.directive (line.drop 2)) := by
  obtain ⟨d, h, hd⟩ := Option.bind_eq_some_iff.1 hb
  rw [h]
  cases d <;> cases hd
  all_goals
    obtain ⟨hash, name, rest, read, rfl, -, -, mem, h⟩ := exists_of_ofTokens h rfl
    simp only [readers, List.mem_cons, Prod.mk.injEq, String.reduceEq, false_and, false_or,
      true_and, List.not_mem_nil, or_false] at mem
    obtain rfl := mem
    cases h
    rfl

/-! ## Definitions -/

/-- The macro that a directive defines. -/
def definedMacro? : Directive → Option Macro
  | .defineObject name replacement => some ⟨name.text, .object, replacement⟩
  | .defineFunction name parameters variadic replacement =>
    some ⟨name.text, .function (parameters.map Token.text) variadic, replacement⟩
  | _ => none

/-- The replacement list of the macro that a directive defines. -/
def replacement : Directive → List Token
  | .defineObject _ replacement | .defineFunction _ _ _ replacement => replacement
  | _ => []

theorem subset_of_parameterList {tokens parameters after : List Token} {variadic : Bool}
    (h : parameterList tokens = some (parameters, variadic, after)) : after ⊆ tokens := by
  fun_induction parameterList tokens generalizing parameters variadic with
  | case1 => cases h
  | case2 => cases h
  | case3 =>
    cases h
    exact List.subset_cons_of_subset _ (List.subset_cons_self _ _)
  | case4 t next rest _ _ _ ih =>
    obtain ⟨⟨parameters', variadic', after'⟩, hrest, heq⟩ := Option.map_eq_some_iff.1 h
    cases heq
    exact List.subset_cons_of_subset _ (List.subset_cons_of_subset _ (ih hrest))
  | case5 => cases h
  | case6 =>
    cases h
    exact List.subset_cons_of_subset _ (List.subset_cons_self _ _)
  | case7 => cases h

theorem replacement_subset_of_definition {name : Token} {rest : List Token} {d : Directive}
    (h : definition name rest = some d) : d.replacement ⊆ rest := by
  unfold definition at h
  split at h
  · obtain rfl := Option.some.inj h
    exact List.nil_subset _
  · split at h
    · obtain rfl := Option.some.inj h
      exact List.Subset.refl _
    · split at h
      · contradiction
      · split at h
        · obtain rfl := Option.some.inj h
          exact List.subset_cons_of_subset _ (List.subset_cons_self _ _)
        · obtain ⟨_, hlist, rfl⟩ := Option.map_eq_some_iff.1 h
          exact List.subset_cons_of_subset _ (subset_of_parameterList hlist)

/-- **A macro is defined by tokens of the line.** -/
theorem replacement_subset {line : List Token} {d : Directive} (h : ofTokens line = some d) :
    d.replacement ⊆ line := by
  by_cases hname : d.name? = some "define"
  · obtain ⟨hash, name, rest, read, rfl, -, -, mem, hread⟩ := exists_of_ofTokens h hname
    simp only [readers, List.mem_cons, Prod.mk.injEq, String.reduceEq, false_and, false_or,
      true_and, or_false, List.not_mem_nil] at mem
    subst mem
    cases rest with
    | nil => cases hread
    | cons t after =>
      rw [withIdentifier] at hread
      split at hread
      · have hsub := replacement_subset_of_definition hread
        exact List.subset_cons_of_subset _ (List.subset_cons_of_subset _
          (List.subset_cons_of_subset _ hsub))
      · contradiction
  · have hnil : d.replacement = [] := by
      cases d <;> first | rfl | exact absurd rfl hname
    rw [hnil]
    exact List.nil_subset line

/-! ## Tokens that are expanded -/

/-- The tokens of a directive in which macros are expanded. -/
def expanded : Directive → List Token
  | .ifExpression tokens | .elifExpression tokens | .inclusion tokens | .line tokens => tokens
  | _ => []

theorem expanded_subset {line : List Token} {d : Directive} (h : ofTokens line = some d) :
    d.expanded ⊆ line := by
  cases d with
  | ifExpression tokens | elifExpression tokens | inclusion tokens | line tokens =>
    obtain ⟨hash, name, rest, read, rfl, -, -, mem, hread⟩ := exists_of_ofTokens h rfl
    simp only [readers, List.mem_cons, Prod.mk.injEq, String.reduceEq, false_and, false_or,
      true_and, or_false, List.not_mem_nil] at mem
    subst mem
    obtain rfl : tokens = rest := by
      cases rest <;> cases hread <;> rfl
    exact List.subset_cons_of_subset _ (List.subset_cons_self _ _)
  | _ => exact List.nil_subset line

/-! ## Parameter lists -/

/-- Identifiers with commas between them, and the identifiers. -/
inductive IsNames : List Token → List Token → Prop
  | one {t : Token} (ht : t.isIdentifier = true) : IsNames [t] [t]
  | cons {t comma : Token} {word names : List Token} (ht : t.isIdentifier = true)
      (hcomma : comma.isComma = true) (h : IsNames word names) :
      IsNames (t :: comma :: word) (t :: names)

/-- What can stand between the parentheses after the name of a macro, the parameters that it names,
and whether variable arguments follow them. -/
inductive IsParameterList : List Token → List Token → Bool → Prop
  | empty : IsParameterList [] [] false
  | names {word names : List Token} (h : IsNames word names) : IsParameterList word names false
  | dots {dots : Token} (hdots : dots.isPunctuator (Bytes.ofString "...") = true) :
      IsParameterList [dots] [] true
  | more {comma dots : Token} {word names : List Token} (h : IsNames word names)
      (hcomma : comma.isComma = true) (hdots : dots.isPunctuator (Bytes.ofString "...") = true) :
      IsParameterList (word ++ [comma, dots]) names true

theorem isPunctuator_eq_false {t : Token} {spelling other : Bytes}
    (h : t.isPunctuator spelling = true) (hne : spelling ≠ other) :
    t.isPunctuator other = false := by
  simp only [Token.isPunctuator, Bool.and_eq_true, decide_eq_true_eq] at h
  simp [Token.isPunctuator, h.2, hne]

theorem isIdentifier_eq_false {t : Token} {spelling : Bytes} (h : t.isPunctuator spelling = true) :
    t.isIdentifier = false := by
  simp only [Token.isPunctuator, Bool.and_eq_true, decide_eq_true_eq] at h
  simp [Token.isIdentifier, h.1]

variable {parameters after : List Token} {variadic : Bool}

theorem parameterList_of_dots {dots close : Token}
    (hdots : dots.isPunctuator (Bytes.ofString "...") = true) (hclose : close.isClose = true) :
    parameterList (dots :: close :: after) = some ([], true, after) := by
  rw [parameterList, if_neg (by simp [isIdentifier_eq_false hdots]), if_pos ⟨hdots, hclose⟩]

theorem parameterList_of_comma {t comma : Token} {rest : List Token}
    (ht : t.isIdentifier = true) (hcomma : comma.isComma = true) :
    parameterList (t :: comma :: rest) =
      (parameterList rest).map fun (parameters, variadic, after) =>
        (t :: parameters, variadic, after) := by
  have hclose : comma.isClose = false := isPunctuator_eq_false hcomma (by decide)
  rw [parameterList, if_pos ht, hclose, if_neg Bool.false_ne_true, if_pos hcomma]

theorem parameterList_of_isNames {word names : List Token} (h : IsNames word names) {close : Token}
    (hclose : close.isClose = true) :
    parameterList (word ++ close :: after) = some (names, false, after) := by
  induction h with
  | one ht => rw [List.singleton_append, parameterList, if_pos ht, if_pos hclose]
  | cons ht hcomma _ ih =>
    rw [List.cons_append, List.cons_append, parameterList_of_comma ht hcomma, ih]
    rfl

theorem parameterList_of_more {word names rest : List Token} (h : IsNames word names)
    {comma : Token} (hcomma : comma.isComma = true)
    (hrest : parameterList rest = some ([], variadic, after)) :
    parameterList (word ++ comma :: rest) = some (names, variadic, after) := by
  induction h with
  | one ht =>
    rw [List.singleton_append, parameterList_of_comma ht hcomma, hrest]
    rfl
  | cons ht hcomma' _ ih =>
    rw [List.cons_append, List.cons_append, parameterList_of_comma ht hcomma', ih]
    rfl

/-- A parameter list that is read is one, up to its closing parenthesis. -/
theorem isParameterList_of_parameterList {tokens : List Token}
    (h : parameterList tokens = some (parameters, variadic, after)) :
    ∃ word close, tokens = word ++ close :: after ∧ word ≠ [] ∧ close.isClose = true ∧
      IsParameterList word parameters variadic := by
  fun_induction parameterList tokens generalizing parameters variadic with
  | case1 => cases h
  | case2 => cases h
  | case3 t next rest ht hclose =>
    cases h
    exact ⟨[t], next, rfl, List.cons_ne_nil _ _, hclose, .names (.one ht)⟩
  | case4 t comma rest ht _ hcomma ih =>
    obtain ⟨⟨names, variadic', after'⟩, hrest, heq⟩ := Option.map_eq_some_iff.1 h
    cases heq
    obtain ⟨word, close, rfl, hne, hclose, hword⟩ := ih hrest
    refine ⟨t :: comma :: word, close, rfl, List.cons_ne_nil _ _, hclose, ?_⟩
    cases hword with
    | empty => exact absurd rfl hne
    | names hnames => exact .names (.cons ht hcomma hnames)
    | dots hdots => exact .more (show IsNames [t] [t] from .one ht) hcomma hdots
    | more hnames hcomma' hdots => exact .more (.cons ht hcomma hnames) hcomma' hdots
  | case5 => cases h
  | case6 t next rest _ hdots =>
    cases h
    exact ⟨[t], next, rfl, List.cons_ne_nil _ _, hdots.2, .dots hdots.1⟩
  | case7 => cases h

/-- One more parameter comes after a comma. -/
theorem IsNames.append {word names : List Token} (h : IsNames word names) {comma t : Token}
    (hcomma : comma.isComma = true) (ht : t.isIdentifier = true) :
    IsNames (word ++ [comma, t]) (names ++ [t]) := by
  induction h with
  | one hfirst => exact .cons hfirst hcomma (.one ht)
  | cons hfirst hcomma' _ ih => exact .cons hfirst hcomma' ih

theorem IsNames.exists_cons {word names : List Token} (h : IsNames word names) :
    ∃ t rest, word = t :: rest ∧ t.isIdentifier = true := by
  cases h with
  | one ht => exact ⟨_, _, rfl, ht⟩
  | cons ht _ _ => exact ⟨_, _, rfl, ht⟩

theorem IsParameterList.eq_of_nil (h : IsParameterList [] parameters variadic) :
    parameters = [] ∧ variadic = false := by
  generalize hword : ([] : List Token) = word at h
  cases h with
  | empty => exact ⟨rfl, rfl⟩
  | names h | more h _ _ =>
    obtain ⟨first, rest, rfl, -⟩ := h.exists_cons
    cases hword
  | dots _ => cases hword

/-- No closing parenthesis begins a parameter list. -/
theorem IsParameterList.isClose_head {t : Token} {word : List Token}
    (h : IsParameterList (t :: word) parameters variadic) : t.isClose = false := by
  have hnames {rest names : List Token} (h : IsNames (t :: rest) names) : t.isClose = false := by
    obtain ⟨first, rest, heq, hfirst⟩ := h.exists_cons
    obtain ⟨rfl, -⟩ := List.cons.inj heq
    exact Bool.eq_false_iff.2 fun hclose => by simp [isIdentifier_eq_false hclose] at hfirst
  generalize hword : t :: word = tokens at h
  cases h with
  | empty => cases hword
  | names h => exact hnames (hword ▸ h)
  | dots hdots =>
    obtain ⟨rfl, -⟩ := List.cons.inj hword
    exact isPunctuator_eq_false hdots (by decide)
  | more h _ _ =>
    obtain ⟨first, rest, rfl, -⟩ := h.exists_cons
    obtain ⟨rfl, -⟩ := List.cons.inj hword
    exact hnames h

/-- **A function-like macro is defined** if a parameter list and a closing parenthesis follow an
open one, and by what comes after these. -/
theorem definition_eq_some_iff {name t : Token} (ht : t.opensParameters = true)
    {rest : List Token} {d : Directive} :
    definition name (t :: rest) = some d ↔
      ∃ word close parameters variadic after, rest = word ++ close :: after ∧
        close.isClose = true ∧ IsParameterList word parameters variadic ∧
          d = .defineFunction name parameters variadic after := by
  unfold definition
  simp only [ht, Bool.not_true, Bool.false_eq_true, if_false]
  constructor
  · intro h
    split at h
    · cases h
    · next close replacement =>
      split at h
      · next hclose => exact ⟨[], close, [], false, replacement, rfl, hclose, .empty,
          (Option.some.inj h).symm⟩
      · obtain ⟨⟨parameters, variadic, after⟩, hlist, heq⟩ := Option.map_eq_some_iff.1 h
        obtain ⟨word, close, heq', -, hclose, hword⟩ := isParameterList_of_parameterList hlist
        exact ⟨word, close, parameters, variadic, after, heq', hclose, hword, heq.symm⟩
  · rintro ⟨word, close, parameters, variadic, after, rfl, hclose, hword, rfl⟩
    have hlist (hne : word ≠ []) :
        parameterList (word ++ close :: after) = some (parameters, variadic, after) := by
      cases hword with
      | empty => exact absurd rfl hne
      | names h => exact parameterList_of_isNames h hclose
      | dots hdots => exact parameterList_of_dots hdots hclose
      | more h hcomma hdots =>
        rw [List.append_assoc]
        exact parameterList_of_more h hcomma (parameterList_of_dots hdots hclose)
    cases word with
    | nil =>
      obtain ⟨rfl, rfl⟩ := hword.eq_of_nil
      exact if_pos hclose
    | cons first word =>
      have hread := hlist (List.cons_ne_nil _ _)
      rw [List.cons_append] at hread ⊢
      dsimp only
      rw [hword.isClose_head, if_neg Bool.false_ne_true, hread]
      rfl

end Directive

end CPreprocessor
