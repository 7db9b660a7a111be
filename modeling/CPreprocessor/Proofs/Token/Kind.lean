import CPreprocessor.Proofs.Directive
import CPreprocessor.Proofs.Token

/-!
# The kind of a token

The text of a token tells its kind, but for `<` and `"`, which begin a header name behind
`# include`. So what is before a token in its line matters (`Token.exists_isNext_of_mem_linesOf`).
A definition never is such a line, and the kinds of the tokens in a replacement list are told by
their texts (`Directive.ofText?_of_mem_replacement`).
-/

namespace CPreprocessor

open Lexeme

/-! ## Lines of pieces -/

/-- The parts between the separators of a list: the first begins the list, and each of the others
comes behind a separator. -/
theorem splitOnP_eq_cons {α : Type} {p : α → Bool} {list first : List α} {others : List (List α)}
    (h : list.splitOnP p = first :: others) :
    ((∀ a ∈ first, p a = false) ∧ first <+: list) ∧
      ∀ part ∈ others, (∀ a ∈ part, p a = false) ∧
        ∃ earlier a later, list = earlier ++ a :: (part ++ later) ∧ p a = true := by
  induction list generalizing first others with
  | nil =>
    cases h
    exact ⟨⟨List.forall_mem_nil _, List.prefix_rfl⟩, List.forall_mem_nil _⟩
  | cons a list ih =>
    obtain ⟨first', others', hlist⟩ := List.exists_cons_of_ne_nil (List.splitOnP_ne_nil p list)
    obtain ⟨⟨hfirst, later, hlater⟩, hothers⟩ := ih hlist
    rw [List.splitOnP_cons_eq_if_modifyHead, hlist] at h
    cases ha : p a with
    | true =>
      rw [ha, if_pos rfl] at h
      cases h
      refine ⟨⟨List.forall_mem_nil _, List.nil_prefix⟩, List.forall_mem_cons.2
        ⟨⟨hfirst, [], a, later, by rw [hlater]; rfl, ha⟩, fun part hpart => ?_⟩⟩
      obtain ⟨hall, earlier, b, later, rfl, hb⟩ := hothers part hpart
      exact ⟨hall, a :: earlier, b, later, rfl, hb⟩
    | false =>
      rw [ha, if_neg Bool.false_ne_true] at h
      cases h
      refine ⟨⟨List.forall_mem_cons.2 ⟨ha, hfirst⟩, later, by rw [← hlater]; rfl⟩,
        fun part hpart => ?_⟩
      obtain ⟨hall, earlier, b, later, rfl, hb⟩ := hothers part hpart
      exact ⟨hall, a :: earlier, b, later, rfl, hb⟩

namespace Lexeme

/-- The pieces of a logical line are in one row, and the line begins with them. -/
theorem exists_of_mem_splitOnP {pieces line : List Piece}
    (h : line ∈ pieces.splitOnP Piece.endsLine) :
    (∀ piece ∈ line, piece.endsLine = false) ∧
      ∃ earlier later, pieces = earlier ++ (line ++ later) ∧ lineTokens earlier = [] := by
  obtain ⟨first, others, hsplit⟩ :=
    List.exists_cons_of_ne_nil (List.splitOnP_ne_nil Piece.endsLine pieces)
  obtain ⟨⟨hfirst, later, hlater⟩, hothers⟩ := splitOnP_eq_cons hsplit
  rw [hsplit] at h
  rcases List.mem_cons.1 h with rfl | h
  · exact ⟨hfirst, [], later, hlater.symm, rfl⟩
  · obtain ⟨hline, earlier, piece, later, rfl, hpiece⟩ := hothers line h
    obtain rfl : piece = .blank Ascii.newline := by simpa [Piece.endsLine] using hpiece
    exact ⟨hline, earlier ++ [.blank Ascii.newline], later, by simp,
      lineTokens_concat_of_endsLine earlier⟩

theorem lineTokens_append (before : List Piece) {line : List Piece}
    (h : ∀ piece ∈ line, piece.endsLine = false) :
    lineTokens (before ++ line) = lineTokens before ++ line.filterMap Piece.token? := by
  induction line generalizing before with
  | nil => simp
  | cons piece line ih =>
    obtain ⟨hpiece, hline⟩ := List.forall_mem_cons.1 h
    rw [List.append_cons, ih _ hline, lineTokens_concat before piece hpiece, List.append_assoc]
    cases htoken : piece.token? with
    | none => rw [List.filterMap_cons_none htoken, Option.toList_none, List.nil_append]
    | some token => rw [List.filterMap_cons_some htoken, Option.toList_some, List.singleton_append]

end Lexeme

namespace Token

/-- A token of a line is the next one of some text, where a header name is expected if the line so
far is `# include`. -/
theorem exists_isNext_of_mem_linesOf {source : Bytes} {text : Source.Text}
    {before after : List Token} {t : Token} (h : before ++ t :: after ∈ linesOf source text) :
    ∃ header rest, IsNext (Kind.classes header) rest t.kind t.text ∧
      (header = true → before.map Token.text = [Bytes.ofString "#", Bytes.ofString "include"] ∨
        before.map Token.text = [Bytes.ofString "%:", Bytes.ofString "include"]) := by
  obtain ⟨lexemes, hlexemes, hline⟩ := List.mem_map.1 h
  obtain ⟨line, hmem, htokens⟩ : ∃ line ∈ (pieces text.bytes).splitOnP Lexeme.Piece.endsLine,
      line.filterMap Lexeme.Piece.token? =
        (before ++ t :: after).map fun t => (t.kind, t.text) := by
    have hmap := List.mem_map_of_mem (f := List.map fun token => (token.kind, token.text)) hlexemes
    rw [map_logicalLines] at hmap
    obtain ⟨line, hmem, htokens⟩ := List.mem_map.1 hmap
    refine ⟨line, hmem, ?_⟩
    rw [htokens, ← hline, List.map_map]
    rfl
  obtain ⟨hends, earlier, later, hsplit, hearlier⟩ := exists_of_mem_splitOnP hmem
  rw [List.map_append, List.map_cons] at htokens
  obtain ⟨front, behind, rfl, hfront, hbehind⟩ := List.filterMap_eq_append_iff.1 htokens
  obtain ⟨gap, piece, behind, rfl, hgap, hpiece, -⟩ := List.filterMap_eq_cons_iff.1 hbehind
  have hcut := (leaves_nil.piecesFrom_spec text.bytes).2 (earlier ++ (front ++ gap)) piece
    (behind ++ later) (by rw [← pieces, hsplit]; simp)
  have hbefore : lineTokens (earlier ++ (front ++ gap)) =
      before.map fun t => (t.kind, t.text) := by
    rw [lineTokens_append _ fun p hp => hends p (by simp at hp ⊢; tauto), hearlier, List.nil_append,
      List.filterMap_append, hfront, List.filterMap_eq_nil_iff.2 hgap, List.append_nil]
  cases piece with
  | blank b => cases hpiece
  | lexeme kind token =>
    rw [Lexeme.Piece.token?] at hpiece
    split at hpiece
    · cases hpiece
    · obtain ⟨rfl, rfl⟩ := Prod.mk.inj (Option.some.inj hpiece)
      refine ⟨_, _, hcut.2, fun hheader => ?_⟩
      rw [List.nil_append, expectsHeader, hbefore, List.map_map] at hheader
      exact of_decide_eq_true hheader

/-- The text of a token is of its kind. -/
theorem mem_language_of_mem_linesOf {source : Bytes} {text : Source.Text} {line : List Token}
    (hline : line ∈ linesOf source text) {t : Token} (ht : t ∈ line) :
    t.text ∈ t.kind.language := by
  obtain ⟨before, after, rfl⟩ := List.append_of_mem ht
  obtain ⟨header, rest, hnext, -⟩ := exists_isNext_of_mem_linesOf hline
  exact hnext.mem

end Token

/-! ## Definitions -/

/-- The kind of a token with the given text, where no header name is expected. -/
def Lexeme.Kind.ofText? (text : Bytes) : Option Kind :=
  (Kind.classes false).find? (·.accepts text)

/-- A text that is of some kind is a single piece, where no header name is expected. -/
theorem Lexeme.pieces_eq_singleton {kind : Kind} {b : UInt8} {rest : Bytes}
    (hb : Ascii.isBlank b = false) (h : Kind.ofText? (b :: rest) = some kind) :
    pieces (b :: rest) = [.lexeme kind (b :: rest)] := by
  obtain ⟨piece, expected, rest', hpieces, hsplit, -, hcut, -⟩ := leaves_nil.exists_cut b rest
  cases piece with
  | blank c =>
    obtain ⟨hc, hhead⟩ := hcut
    rw [← Option.some.inj hhead, hb] at hc
    cases hc
  | lexeme kind' text =>
    have hnext : IsNext (Kind.classes false) (b :: rest) kind' text := hcut.2
    have haccepts : kind.accepts (b :: rest) = true :=
      List.find?_some (p := fun kind : Kind => kind.accepts (b :: rest)) h
    have hlength := hnext.length_le kind (List.mem_of_find?_eq_some h) (b :: rest)
      ((kind.accepts_iff _).1 haccepts) List.prefix_rfl
    obtain rfl : text = b :: rest := hnext.front.eq_of_length_le hlength
    obtain rfl : rest' = [] := List.self_eq_append_right.1 hsplit
    obtain rfl : kind = kind' := Option.some.inj (h.symm.trans hnext.kind_eq)
    rw [pieces, hpieces, piecesFrom]

/-- A text that is of some kind is a single token of this kind. -/
theorem Token.exists_lex_eq_singleton {kind : Kind} {b : UInt8} {rest : Bytes}
    (hb : Ascii.isBlank b = false) (hcomment : kind ≠ .comment)
    (h : Kind.ofText? (b :: rest) = some kind) :
    ∃ t, lex (b :: rest) = [t] ∧ t.kind = kind ∧ t.text = b :: rest := by
  have hmap : (lex (b :: rest)).map (fun t => (t.kind, t.text)) = [(kind, b :: rest)] := by
    rw [lex, map_linesOf, bytes_ofSource, pieces_eq_singleton hb h,
      List.filterMap_cons_some (by rw [Lexeme.Piece.token?, if_neg hcomment])]
    rfl
  obtain ⟨t, hlex, ht⟩ := List.map_eq_singleton_iff.1 hmap
  obtain ⟨hkind, htext⟩ := Prod.mk.inj ht
  exact ⟨t, hlex, hkind, htext⟩

namespace Directive

/-- The replacement list of a definition is behind `# define` and a name. -/
theorem exists_of_mem_replacement {line : List Token} {d : Directive} (h : ofTokens line = some d)
    {t : Token} (ht : t ∈ d.replacement) :
    ∃ hash keyword between after, line = (hash :: keyword :: between) ++ t :: after ∧
      keyword.text = Bytes.ofString "define" := by
  have hname : d.name? = some "define" := by
    cases d with
    | defineObject | defineFunction => rfl
    | _ => cases ht
  obtain ⟨hash, keyword, rest, read, rfl, -, htext, mem, hread⟩ := exists_of_ofTokens h hname
  simp only [readers, List.mem_cons, Prod.mk.injEq, String.reduceEq, false_and, false_or,
    true_and, or_false, List.not_mem_nil] at mem
  subst mem
  obtain ⟨name, rest', hrest, hdefinition⟩ : ∃ name rest', rest = name :: rest' ∧
      definition name rest' = some d := by
    cases rest with
    | nil => cases hread
    | cons name rest' =>
      rw [withIdentifier] at hread
      split at hread
      · exact ⟨name, rest', rfl, hread⟩
      · cases hread
  obtain ⟨between, after, hsplit⟩ :=
    List.append_of_mem (replacement_subset_of_definition hdefinition ht)
  exact ⟨hash, keyword, name :: between, after, by rw [hrest, hsplit]; rfl, htext⟩

/-- **The kinds of the tokens in a replacement list are told by their texts.** -/
theorem ofText?_of_mem_replacement {source : Bytes} {text : Source.Text} {line : List Token}
    {d : Directive} (hline : line ∈ Token.linesOf source text) (h : ofTokens line = some d)
    {t : Token} (ht : t ∈ d.replacement) : Kind.ofText? t.text = some t.kind := by
  obtain ⟨hash, keyword, between, after, rfl, htext⟩ := exists_of_mem_replacement h ht
  obtain ⟨header, rest, hnext, hheader⟩ := Token.exists_isNext_of_mem_linesOf hline
  have hdefine : keyword.text ≠ Bytes.ofString "include" := by
    rw [htext]
    decide
  cases header with
  | false => exact hnext.kind_eq
  | true =>
    -- `define` is not `include`
    rcases hheader rfl with hline | hline
    · exact absurd (List.cons.inj (List.cons.inj hline).2).1 hdefine
    · exact absurd (List.cons.inj (List.cons.inj hline).2).1 hdefine

end Directive

end CPreprocessor
