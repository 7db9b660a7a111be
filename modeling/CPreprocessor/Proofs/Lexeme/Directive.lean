import CPreprocessor.Proofs.Lexeme.Append
import CPreprocessor.Proofs.Output

/-!
# The tokens of a directive

A line that is written as `#`, a keyword and a name has these three tokens, and behind a space the
tokens that the rest of the line has alone (`pieces_directive`). The rest must not have a `#` or a
`%`, since at the beginning of a line these may make a header name out of what comes next.
-/

namespace CPreprocessor.Lexeme

open Ascii
open scoped Computability

/-! ## Identifiers -/

theorem IsToken.of_mem_identifiers {text : Bytes} (h : text ∈ identifiers) : IsToken text where
  exists_kind := ⟨.identifier, by decide, by decide, h⟩
  ne_singleQuote := by
    rintro rfl
    exact absurd (head_of_mem_identifiers h) (by decide)
  ne_doubleQuote := by
    rintro rfl
    exact absurd (head_of_mem_identifiers h) (by decide)

theorem not_runsOn_of_mem_identifiers {text : Bytes} (h : text ∈ identifiers) (after : Bytes) :
    ¬ RunsOn text after := by
  rintro (⟨rfl, -⟩ | ⟨rfl, -⟩)
  · exact absurd (head_of_mem_identifiers h) (by decide)
  · exact absurd (head_of_mem_identifiers h) (by decide)

/-- Every text of a language ends in a character with the given property. -/
def EndsIn (language : Language UInt8) (p : UInt8 → Bool) : Prop :=
  ∀ text ∈ language, ∀ b ∈ text.getLast?, p b = true

section

variable {L M : Language UInt8} {p : UInt8 → Bool}

theorem Uses.endsIn (h : Uses L p) : EndsIn L p :=
  fun text htext b hb => h text htext b (List.mem_of_mem_getLast? hb)

theorem EndsIn.add (hL : EndsIn L p) (hM : EndsIn M p) : EndsIn (L + M) p :=
  fun text htext => htext.elim (hL text) (hM text)

theorem EndsIn.mul (hL : EndsIn L p) (hM : EndsIn M p) : EndsIn (L * M) p := by
  rintro _ ⟨left, hleft, right, hright, rfl⟩ b hb
  dsimp only at hb
  rw [List.getLast?_append] at hb
  cases hlast : right.getLast? with
  | none =>
    rw [hlast, Option.none_or] at hb
    exact hL left hleft b hb
  | some c =>
    rw [hlast, Option.some_or] at hb
    exact hM right hright b (hlast ▸ hb)

theorem EndsIn.kstar (hL : EndsIn L p) : EndsIn L∗ p := by
  intro text htext
  obtain ⟨units, rfl, hunits⟩ := Language.mem_kstar.1 htext
  clear htext
  induction units with
  | nil => exact fun b hb => by cases hb
  | cons unit units ih =>
    obtain ⟨hunit, hunits⟩ := List.forall_mem_cons.1 hunits
    have hrest : EndsIn {units.flatten} p := by
      rintro _ rfl
      exact ih hunits
    exact hL.mul hrest _ ⟨unit, hunit, units.flatten, rfl, rfl⟩

end

/-- An identifier ends in a letter, an underscore or a digit, be it one of a universal name. -/
theorem endsIn_identifiers : EndsIn identifiers isWord := by
  have hnondigits : EndsIn nondigits isWord := by
    refine (uses_oneOf fun _ => isWord_of_isNondigit).endsIn.add fun name hname b hb => ?_
    obtain ⟨mark, digits, rfl, hmark, hdigits⟩ := exists_of_mem_universalNames hname
    rw [List.getLast?_cons_cons] at hb
    rcases List.mem_cons.1 (List.mem_of_mem_getLast? hb) with rfl | hb
    · exact isWord_of_isNondigit hmark
    · exact hdigits b hb
  have hdigits : EndsIn (oneOf isDigit) isWord := (uses_oneOf fun _ => isWord_of_isDigit).endsIn
  exact hnondigits.mul (hnondigits.add hdigits).kstar

/-- An identifier is of no other class. -/
theorem find?_accepts_of_mem_identifiers {text : Bytes} (h : text ∈ identifiers) (header : Bool) :
    (Kind.classes header).find? (·.accepts text) = some .identifier := by
  have hnot {b : UInt8} (hb : isBody b = false) : b ∉ text := by
    intro hmem
    rw [uses_identifiers text h b hmem] at hb
    cases hb
  have hfirst : (if header then Kind.header else .string).accepts text = false := by
    rw [Bool.eq_false_iff, Ne, Kind.accepts_iff]
    cases header with
    | true =>
      rintro ⟨inside, -, ⟨-, rfl⟩ | ⟨-, rfl⟩⟩
      · exact hnot (b := less) (by decide) List.mem_cons_self
      · exact hnot (b := doubleQuote) (by decide) List.mem_cons_self
    | false =>
      intro hmem
      have hliteral : text ∈ literals doubleQuote := by
        rwa [literals, Quoted.language_start_doubleQuote]
      exact hnot (by decide) (quote_mem_of_mem_literals hliteral)
  have hcomment : Kind.comment.accepts text = false := by
    rw [Bool.eq_false_iff, Ne, Kind.accepts_iff]
    exact (IsToken.of_mem_identifiers h).not_mem_comments
  have hidentifier : Kind.identifier.accepts text = true := (Kind.accepts_iff .identifier text).2 h
  rw [Kind.classes, Kind.order, List.cons_append, List.cons_append, List.cons_append,
    List.find?_cons, hfirst, List.find?_cons, hcomment, List.find?_cons, hidentifier]

/-! ## The first tokens of a line -/

section

variable {before : List Piece} {expected : Expectation} {token after : Bytes} {kind : Kind}

/-- A token that does not run on is the first piece of a text. -/
theorem IsToken.piecesFrom_eq (htoken : IsToken token) (hleaves : Leaves before expected)
    (hexpected : expected ≠ .header) (h : Follows token after) (hruns : ¬ RunsOn token after)
    (hkind : ∀ header, (Kind.classes header).find? (·.accepts token) = some kind) :
    piecesFrom expected (token ++ after) =
        .lexeme kind token :: piecesFrom (expected.after kind token) after ∧
      Leaves (before ++ [.lexeme kind token]) (expected.after kind token) := by
  have hheader : expectsHeader before = false := by
    rw [hleaves.expectsHeader_eq, decide_eq_false hexpected]
  obtain ⟨kind', expected', hcomment, hpieces, hleaves'⟩ :=
    htoken.exists_cut hleaves hheader h hruns
  have hline : lineTokens (before ++ [.lexeme kind' token]) =
      lineTokens before ++ [(kind', token)] := by
    rw [lineTokens_concat before _ (by simp [Piece.endsLine]), Piece.token?, if_neg hcomment]
    rfl
  obtain ⟨-, header, text, hnext⟩ := hleaves'.isTokens (kind', token) (by simp [hline])
  obtain rfl : kind' = kind := Option.some.inj (hnext.kind_eq.symm.trans (hkind header))
  obtain rfl := hleaves'.unique (hleaves.lexeme hnext)
  exact ⟨hpieces, hleaves'⟩

theorem piecesFrom_space (expected : Expectation) (text : Bytes) :
    piecesFrom expected (space :: text) = .blank space :: piecesFrom expected text := by
  rw [piecesFrom, if_pos (by decide), if_neg (by decide)]

end

/-- The name of a directive that is followed by the name of a macro. -/
def IsMacroKeyword (keyword : Bytes) : Prop :=
  keyword ∈ [Bytes.ofString "define", Bytes.ofString "undef"]

/-- **A directive has its own tokens, and behind them those of the rest.** -/
theorem pieces_directive {keyword name after : Bytes} (hkeyword : IsMacroKeyword keyword)
    (hname : name ∈ identifiers) (hafter : Follows name after) :
    pieces (hash :: (keyword ++ space :: (name ++ after))) =
      .lexeme .punctuator [hash] :: .lexeme .identifier keyword :: .blank space ::
        .lexeme .identifier name :: piecesFrom .any after := by
  have hall : ∀ keyword ∈ [Bytes.ofString "define", Bytes.ofString "undef"],
      keyword ∈ Kind.identifier.language ∧ keyword ≠ Bytes.ofString "include" ∧
        Output.needsSpace { kind := .punctuator, text := [hash] } { kind := .identifier, text := keyword } =
          false := by decide +kernel
  obtain ⟨hident, hinclude, hspace⟩ := hall keyword hkeyword
  have hhash : IsToken [hash] := ⟨⟨.punctuator, by decide, by decide, by decide⟩, by decide, by decide⟩
  have hhashKind : ∀ header, (Kind.classes header).find? (·.accepts [hash]) = some .punctuator := by
    decide
  have hhashRuns (after : Bytes) : ¬ RunsOn [hash] after := by
    rintro (⟨h, -⟩ | ⟨h, -⟩) <;> exact absurd h (by decide)
  obtain ⟨hpieces₁, hleaves₁⟩ := hhash.piecesFrom_eq leaves_nil (by decide)
    (.token (IsToken.of_mem_identifiers hident) (Output.apart_of_needsSpace_eq_false hhash hspace)
      (.gap keyword (name ++ after))) (hhashRuns _) hhashKind
  obtain ⟨hpieces₂, hleaves₂⟩ := (IsToken.of_mem_identifiers hident).piecesFrom_eq hleaves₁
    (by decide) (.gap keyword (name ++ after)) (not_runsOn_of_mem_identifiers hident _)
    (find?_accepts_of_mem_identifiers hident)
  have hany : (Expectation.hash.after .punctuator [hash]).after .identifier keyword = .any :=
    if_neg hinclude
  rw [hany] at hpieces₂ hleaves₂
  have hleaves₃ := hleaves₂.blank space
  rw [if_neg (by decide)] at hleaves₃
  obtain ⟨hpieces₄, -⟩ := (IsToken.of_mem_identifiers hname).piecesFrom_eq hleaves₃ (by decide)
    hafter (not_runsOn_of_mem_identifiers hname after) (find?_accepts_of_mem_identifiers hname)
  rw [pieces, ← List.singleton_append, hpieces₁, hpieces₂, piecesFrom_space, hpieces₄]
  rfl

/-- A line that begins with neither `#` nor `%` is no directive. -/
theorem after_hash_of_notMem {b : UInt8} (hb : b ∉ Bytes.ofString "#%") (kind : Kind)
    (rest : Bytes) : Expectation.hash.after kind (b :: rest) = .any ∨
      Expectation.hash.after kind (b :: rest) = .hash := by
  cases kind with
  | punctuator =>
    refine .inl (if_neg ?_)
    rintro (h | h)
    · exact hb ((List.cons.inj h).1 ▸ by decide)
    · exact hb ((List.cons.inj h).1 ▸ by decide)
  | comment => exact .inr rfl
  | _ => exact .inl rfl

/-- A text without `#` and `%` is cut into the same pieces at the beginning of a line and later. -/
theorem piecesFrom_any {text : Bytes} (h : ∀ b ∈ text, b ∉ Bytes.ofString "#%")
    (hnewline : newline ∉ text) : piecesFrom .any text = pieces text := by
  rw [pieces]
  induction hlength : text.length using Nat.strong_induction_on generalizing text with
  | _ n ih =>
    cases text with
    | nil => rw [piecesFrom, piecesFrom]
    | cons b rest =>
      obtain ⟨hfirst, hrest⟩ := List.forall_mem_cons.1 h
      obtain ⟨hb, hnewline⟩ := not_or.1 (List.mem_cons.not.1 hnewline)
      rw [piecesFrom, piecesFrom]
      split
      · rw [if_neg (Ne.symm hb), if_neg (Ne.symm hb)]
        exact congrArg _ (ih rest.length (by rw [← hlength]; exact Nat.lt_succ_self _) hrest hnewline rfl)
      · dsimp only
        have hdrop (n : Nat) : piecesFrom .any (rest.drop n) = piecesFrom .hash (rest.drop n) :=
          ih _ (by rw [← hlength, List.length_drop, List.length_cons]; omega)
            (fun c hc => hrest c (List.mem_of_mem_drop hc))
            (fun hc => hnewline (List.mem_of_mem_drop hc)) rfl
        have hheader : decide (Expectation.any = .header) = decide (Expectation.hash = .header) := rfl
        rw [hheader, Expectation.after_any, hdrop]
        rcases after_hash_of_notMem hfirst
          (munch (decide (Expectation.hash = .header)) (b :: rest)).1
          (rest.take ((munch (decide (Expectation.hash = .header)) (b :: rest)).2 - 1)) with
          hafter | hafter
        · rw [hafter, hdrop]
        · rw [hafter]

/-- Behind a gap the first token has a gap in front. -/
theorem spaced_of_mem_head? (positions : List Nat) (pieces : List Piece) :
    ∀ t ∈ (linesFrom positions true pieces).1.head?, t.spaced = true := by
  induction pieces generalizing positions with
  | nil => exact fun t ht => by cases ht
  | cons piece pieces ih =>
    cases piece with
    | blank b =>
      rw [linesFrom_blank]
      split
      · exact fun t ht => by cases ht
      · exact ih _
    | lexeme kind text =>
      rw [linesFrom_lexeme]
      split
      · exact ih _
      · intro t ht
        obtain rfl := Option.some.inj ht
        rfl

end CPreprocessor.Lexeme
