import CPreprocessor.Proofs.Phrase.DirectiveTree
import CPreprocessor.Proofs.Session.Presets

/-!
# The grammar of directives

The grammar says what a directive can be, and `Directive.ofTokens` reads it off. They agree on every
line that begins with `#` (`Phrase.parse_directive`): a line that is a directive has a parse tree
with the tag of the directive, from which its operands are taken as they are from the line, and any
other line has none. What the grammar derives is read, by `Phrase.isRead_of_mem`, and what is read
is derived (`Phrase.derivesFrom_of_ofTokens`), by the name of the directive.
-/

namespace CPreprocessor

open Grammar GrammarSymbol Nonterminal

namespace Phrase

/-! ## Every line that is read is derived -/

section

variable {word names line : List Token}

theorem derivesFrom_tokens (h : word ≠ []) : grammar.DerivesFrom tokens word := by
  induction word using List.reverseRecOn with
  | nil => exact absurd rfl h
  | append_singleton word t ih =>
    have hlast : grammar.Derives [such fun _ => true] [t] := .terminal rfl .nil
    cases word with
    | nil => exact derivesFrom_iff.2 ⟨_, .tail _ (.head _), hlast⟩
    | cons first word =>
      exact derivesFrom_iff.2 ⟨_, .head _, (ih (List.cons_ne_nil _ _)).append hlast⟩

/-- The grammar adds parameters at the end, and the rule of names at the front. -/
theorem derivesFrom_append_names {u : List Token} (hu : grammar.DerivesFrom identifierList u)
    {comma : Token} (hcomma : comma.isComma = true) (h : Directive.IsNames word names) :
    grammar.DerivesFrom identifierList (u ++ comma :: word) := by
  have hmore {u : List Token} (hu : grammar.DerivesFrom identifierList u) {comma t : Token}
      (hcomma : comma.isComma = true) (ht : t.isIdentifier = true) :
      grammar.DerivesFrom identifierList (u ++ [comma, t]) :=
    derivesFrom_iff.2 ⟨_, .head _,
      hu.append (.terminal (isSpelled_of_isPunctuator hcomma) (.terminal ht .nil))⟩
  induction h generalizing u comma with
  | one ht => exact hmore hu hcomma ht
  | @cons t comma' word names ht hcomma' _ ih =>
    have hsplit : u ++ comma :: t :: comma' :: word = (u ++ [comma, t]) ++ comma' :: word := by simp
    rw [hsplit]
    exact ih (hmore hu hcomma ht) hcomma'

theorem derivesFrom_identifierList (h : Directive.IsNames word names) :
    grammar.DerivesFrom identifierList word := by
  have hone {t : Token} (ht : t.isIdentifier = true) : grammar.DerivesFrom identifierList [t] :=
    derivesFrom_iff.2 ⟨_, .tail _ (.head _), .terminal ht .nil⟩
  cases h with
  | one ht => exact hone ht
  | cons ht hcomma hword => exact derivesFrom_append_names (hone ht) hcomma hword

theorem derivesFrom_replacementList {t : Token} (ht : t.opensParameters = false)
    (rest : List Token) : grammar.DerivesFrom replacementList (t :: rest) := by
  have hfirst : (!t.opensParameters) = true := by rw [ht, Bool.not_false]
  cases rest with
  | nil => exact derivesFrom_iff.2 ⟨_, .head _, .terminal hfirst .nil⟩
  | cons next rest =>
    exact derivesFrom_iff.2 ⟨_, .tail _ (.head _),
      .terminal hfirst (derivesFrom_tokens (List.cons_ne_nil next rest))⟩

theorem exists_derives_of_isParameterList {parameters : List Token} {variadic : Bool}
    (h : Directive.IsParameterList word parameters variadic) :
    ∃ tag inner, (tag, inner) ∈ parameterForms ∧ grammar.Derives inner word := by
  cases h with
  | empty => exact ⟨_, _, .head _, .nil⟩
  | names h => exact ⟨_, _, .tail _ (.head _), derivesFrom_identifierList h⟩
  | dots hdots =>
    exact ⟨_, _, .tail _ (.tail _ (.head _)), .terminal (isSpelled_of_isPunctuator hdots) .nil⟩
  | more h hcomma hdots =>
    exact ⟨_, _, .tail _ (.tail _ (.tail _ (.head _))), (derivesFrom_identifierList h).append
      (.terminal (isSpelled_of_isPunctuator hcomma)
        (.terminal (isSpelled_of_isPunctuator hdots) .nil))⟩

variable {tag : Tag} {name : String} {symbols : Symbols} {hash first : Token}

theorem derivesFrom_of_withIdentifier {f : Token → List Token → Option Directive}
    {rest : List Token} {d : Directive} (h : Directive.withIdentifier f rest = some d)
    (hread : ∀ t tail, t.isIdentifier = true → f t tail = some d →
      grammar.DerivesFrom directive (hash :: first :: t :: tail)) :
    grammar.DerivesFrom directive (hash :: first :: rest) := by
  cases rest with
  | nil => cases h
  | cons t tail =>
    rw [Directive.withIdentifier] at h
    split at h
    · next ht => exact hread t tail ht h
    · cases h

variable (hhash : hash.isHash = true)
include hhash

theorem derivesFrom_directiveOf (hfirst : first.isIdentifier = true)
    (htext : first.text = Bytes.ofString name) (hp : directiveOf tag name symbols ∈ directives)
    (h : grammar.Derives symbols word) :
    grammar.DerivesFrom directive (hash :: first :: word) :=
  derivesFrom_iff.2 ⟨_, hp, .terminal (isSpelled_of_isPunctuator hhash)
    (.terminal (htext ▸ isSpelled_of_isIdentifier hfirst) h)⟩

theorem derivesFrom_directiveWithTail (hfirst : first.isIdentifier = true)
    (htext : first.text = Bytes.ofString name)
    (hp : ∀ p ∈ directiveWithTail tag name symbols, p ∈ directives)
    (h : grammar.Derives symbols word) (tail : List Token) :
    grammar.DerivesFrom directive (hash :: first :: (word ++ tail)) := by
  cases tail with
  | nil =>
    rw [List.append_nil]
    exact derivesFrom_directiveOf hhash hfirst htext (hp _ (.head _)) h
  | cons t tail =>
    exact derivesFrom_directiveOf hhash hfirst htext (hp _ (.tail _ (.head _)))
      (h.append (derivesFrom_tokens (List.cons_ne_nil t tail)))

theorem derivesFrom_of_definition (hfirst : first.isIdentifier = true)
    (htext : first.text = Bytes.ofString "define") {t : Token} (ht : t.isIdentifier = true)
    {rest : List Token} {d : Directive} (h : Directive.definition t rest = some d) :
    grammar.DerivesFrom directive (hash :: first :: t :: rest) := by
  cases rest with
  | nil =>
    exact derivesFrom_directiveOf hhash hfirst htext
      (mem_directives_iff.2 (.inr (.inr (.inr (.inl rfl))))) (.terminal ht .nil)
  | cons next rest =>
    cases hopens : next.opensParameters with
    | false =>
      exact derivesFrom_directiveOf hhash hfirst htext
        (mem_directives_iff.2 (.inr (.inr (.inr (.inr (.inl rfl))))))
        (.terminal ht (derivesFrom_replacementList hopens rest))
    | true =>
      obtain ⟨word, close, parameters, variadic, after, rfl, hclose, hlist, -⟩ :=
        (Directive.definition_eq_some_iff hopens).1 h
      obtain ⟨tag, inner, mem, hinner⟩ := exists_derives_of_isParameterList hlist
      have hclosed : grammar.Derives (inner ++ [spelled ")"]) (word ++ [close]) :=
        hinner.append (.terminal (isSpelled_of_isPunctuator hclose) .nil)
      have hline := derivesFrom_directiveWithTail hhash hfirst htext
        (fun p hp => mem_directives_iff.2
          (.inr (.inr (.inr (.inr (.inr (.inl ⟨tag, inner, mem, hp⟩)))))))
        (Derives.terminal ht (.terminal hopens hclosed)) after
      simpa using hline

/-- **Every line that is read is derived.** -/
theorem derivesFrom_of_ofTokens {rest : List Token} {d : Directive}
    (h : Directive.ofTokens (hash :: rest) = some d) :
    grammar.DerivesFrom directive (hash :: rest) := by
  have hsharp : hash.isSpelled (Bytes.ofString "#") = true := isSpelled_of_isPunctuator hhash
  cases rest with
  | nil =>
    exact derivesFrom_iff.2 ⟨_, mem_directives_iff.2
      (.inr (.inr (.inr (.inr (.inr (.inr (.inl rfl))))))), .terminal hsharp .nil⟩
  | cons first rest =>
    rw [Directive.ofTokens] at h
    cases hreader : Directive.reader? first with
    | none =>
      have hfirst := Directive.reader?_eq_none_iff.1 hreader
      cases rest with
      | nil =>
        exact derivesFrom_iff.2 ⟨_, mem_directives_iff.2
          (.inr (.inr (.inr (.inr (.inr (.inr (.inr (.inl rfl)))))))),
          .terminal hsharp (.terminal hfirst .nil)⟩
      | cons t tail =>
        exact derivesFrom_iff.2 ⟨_, mem_directives_iff.2
          (.inr (.inr (.inr (.inr (.inr (.inr (.inr (.inr rfl)))))))),
          .terminal hsharp (.terminal hfirst (derivesFrom_tokens (List.cons_ne_nil t tail)))⟩
    | some read =>
      obtain ⟨hfirst, name, hread, htext⟩ := Directive.reader?_eq_some hreader
      rw [hreader] at h
      dsimp only at h
      obtain ⟨tag, f, mem, rfl⟩ | ⟨tag, f, mem, rfl⟩ | ⟨tag, f, mem, rfl⟩ | ⟨rfl, rfl⟩ :=
        mem_readers_iff.1 hread
      · exact derivesFrom_directiveWithTail hhash hfirst htext
          (fun p hp => mem_directives_iff.2 (.inl ⟨name, tag, f, mem, hp⟩)) .nil rest
      · refine derivesFrom_of_withIdentifier h fun t tail ht _ => ?_
        exact derivesFrom_directiveWithTail hhash hfirst htext
          (fun p hp => mem_directives_iff.2 (.inr (.inl ⟨name, tag, f, mem, hp⟩)))
          (.terminal ht .nil) tail
      · cases rest with
        | nil => cases h
        | cons t tail =>
          exact derivesFrom_directiveOf hhash hfirst htext
            (mem_directives_iff.2 (.inr (.inr (.inl ⟨name, tag, f, mem, rfl⟩))))
            (derivesFrom_tokens (List.cons_ne_nil t tail))
      · exact derivesFrom_of_withIdentifier h fun t tail ht hdefinition =>
          derivesFrom_of_definition hhash hfirst htext ht hdefinition

end

/-- **The grammar of directives is that of the directives that are read.** A line that begins with
`#` and is a directive has a parse tree with the tag of the directive. The operands that the tree
has are those of the directive: the tokens of the line, none of which is left out or moved. A macro
that the directive defines has its parameters and its replacement list. Any other line has no parse
tree. -/
theorem parse_directive {line : List Token} (hline : ∀ t ∈ line, t.IsProper)
    (hhash : line.head?.any Token.isHash = true) :
    (∀ d, Directive.ofTokens line = some d →
      (∃ trees, grammar.parse directive line =
          some (.node directive d.tag 0 line.length trees) ∧
        directiveOfTrees trees d.tag = some d) ∧
      d.TakesFrom line ∧
      ∀ m, d.definedMacro? = some m → ∀ session nested hash p s result s', p.live = true →
        (Session.processDirective session nested hash line p).Returns s result s' →
          s'.macros = s.macros.insert m) ∧
    (Directive.ofTokens line = none → grammar.parse directive line = none) := by
  have hparse {tree : PhraseTree} (h : grammar.parse directive line = some tree) :
      ∃ d trees, Directive.ofTokens line = some d ∧
        tree = .node directive d.tag 0 line.length trees ∧
          directiveOfTrees trees d.tag = some d ∧ d.TakesFrom line := by
    obtain ⟨p, hp, trees, rfl, hcovers⟩ :=
      exists_covers_of_parse (fun _ _ hp _ _ _ _ => describes_nodeOf hp) h
    obtain ⟨d, hread, htag, htrees, htakes⟩ := isRead_of_mem hp trees line hline hcovers
    rw [nodeOf_eq_node rfl, ← htag]
    exact ⟨d, trees, hread, rfl, htag ▸ htrees, htakes⟩
  constructor
  · intro d hread
    cases line with
    | nil => cases hhash
    | cons hash rest =>
      obtain ⟨tree, htree⟩ := exists_parse (derivesFrom_of_ofTokens hhash hread)
      obtain ⟨d', trees, hread', rfl, htrees, htakes⟩ := hparse htree
      obtain rfl := Option.some.inj (hread.symm.trans hread')
      exact ⟨⟨trees, htree, htrees⟩, htakes, fun m hm session nested hash p s result s' hlive h =>
        Session.macros_of_processDirective hread hm hlive h⟩
  · intro hnone
    refine Option.eq_none_iff_forall_ne_some.2 fun tree htree => ?_
    obtain ⟨d, -, hread, -⟩ := hparse htree
    rw [hnone] at hread
    cases hread

/-- The definition of a macro with two parameters and variable arguments. -/
theorem parse_directive_variadic :
    let line := Token.lex (Bytes.ofString "%:define F(a, b, ...) a b")
    (∀ t ∈ line, t.IsProper) ∧ line.head?.any Token.isHash = true ∧
      ∃ d m, Directive.ofTokens line = some d ∧ d.definedMacro? = some m ∧
        m.kind = .function [Bytes.ofString "a", Bytes.ofString "b"] true ∧
          ∃ trees, grammar.parse directive line =
              some (.node directive .defineVariadic 0 line.length trees) ∧
            directiveOfTrees trees .defineVariadic = some d := by
  intro line
  have hline : ∀ t ∈ line, t.IsProper := fun t ht => Token.isProper_of_mem_lex ht
  have hhash : line.head?.any Token.isHash = true := by decide +kernel
  have hmap : (Directive.ofTokens line).map (fun d => (d.tag, d.definedMacro?.map Macro.kind)) =
      some (.defineVariadic, some (.function [Bytes.ofString "a", Bytes.ofString "b"] true)) := by
    decide +kernel
  obtain ⟨d, hread, heq⟩ := Option.map_eq_some_iff.1 hmap
  obtain ⟨htag, hmacro⟩ := Prod.mk.inj heq
  obtain ⟨m, hm, hkind⟩ := Option.map_eq_some_iff.1 hmacro
  obtain ⟨⟨trees, hparse, htrees⟩, -⟩ := (parse_directive hline hhash).1 d hread
  rw [htag] at hparse htrees
  exact ⟨hline, hhash, d, m, hread, hm, hkind, trees, hparse, htrees⟩

end Phrase

end CPreprocessor
