import CPreprocessor.Output
import CPreprocessor.Proofs.Lexeme.Adjacent
import CPreprocessor.Proofs.Token

/-!
# Printed lines

A printed line is read back as the tokens that it was printed from, but for two exceptions: three
dots next to each other are read as an ellipsis, and a slash with a star after it opens a comment if
the comment is closed later on (`map_text_lex_spell_iff`). Both take more than two tokens, and the
printer looks at two at a time.
-/

namespace CPreprocessor

open Lexeme Ascii

/-! ## The texts of pieces -/

/-- The texts of the tokens among some pieces. -/
def Lexeme.tokenTexts (pieces : List Piece) : List Bytes :=
  (pieces.filterMap Piece.token?).map Prod.snd

/-- The number of characters that are not white-space. -/
def Lexeme.inked (text : Bytes) : Nat := text.countP (!isBlank ·)

namespace Lexeme

theorem inked_append (text text' : Bytes) : inked (text ++ text') = inked text + inked text' :=
  List.countP_append

theorem tokenTexts_blank (b : UInt8) (pieces : List Piece) :
    tokenTexts (.blank b :: pieces) = tokenTexts pieces := rfl

theorem tokenTexts_comment (text : Bytes) (pieces : List Piece) :
    tokenTexts (.lexeme .comment text :: pieces) = tokenTexts pieces := rfl

theorem tokenTexts_lexeme {kind : Kind} (h : kind ≠ .comment) (text : Bytes)
    (pieces : List Piece) :
    tokenTexts (.lexeme kind text :: pieces) = text :: tokenTexts pieces := by
  rw [tokenTexts, List.filterMap_cons_some (by rw [Piece.token?, if_neg h])]
  rfl

/-- What is no white-space is in a token or in a comment. -/
theorem inked_tokenTexts_le (pieces : List Piece) :
    inked (tokenTexts pieces).flatten ≤ inked (pieces.flatMap Piece.text) := by
  induction pieces with
  | nil => exact le_rfl
  | cons piece pieces ih =>
    rw [List.flatMap_cons, inked_append]
    cases piece with
    | blank b =>
      rw [tokenTexts_blank]
      omega
    | lexeme kind text =>
      by_cases hkind : kind = .comment
      · subst hkind
        rw [tokenTexts_comment]
        omega
      · rw [tokenTexts_lexeme hkind, List.flatten_cons, inked_append]
        exact Nat.add_le_add_left ih _

end Lexeme

theorem Token.map_text_lex (source : Bytes) :
    (lex source).map text = tokenTexts (pieces source) := by
  have h := map_linesOf source (.ofSource source)
  rw [bytes_ofSource] at h
  rw [tokenTexts, ← h, List.map_map]
  rfl

/-! ## The first piece of a text -/

namespace Lexeme

section

variable {before : List Piece} {expected : Expectation} {token after : Bytes}
  (hleaves : Leaves before expected) (hheader : expectsHeader before = false)
  (htoken : IsToken token)
include hleaves hheader htoken

/-- A text that begins with a token has no token first that is shorter. -/
theorem IsToken.exists_lexeme (after : Bytes) :
    ∃ kind text expected' rest, piecesFrom expected (token ++ after) =
        .lexeme kind text :: piecesFrom expected' rest ∧
      token ++ after = text ++ rest ∧ token.length ≤ text.length ∧
      IsNext (Kind.classes false) (token ++ after) kind text ∧
      Leaves (before ++ [.lexeme kind text]) expected' := by
  obtain ⟨b, tail, rfl, hb⟩ := htoken.exists_cons
  obtain ⟨piece, expected', rest, hpieces, hsplit, -, hcut, hleaves'⟩ :=
    hleaves.exists_cut b (tail ++ after)
  cases piece with
  | blank c =>
    obtain ⟨hc, hhead⟩ := hcut
    rw [← Option.some.inj hhead, hb] at hc
    cases hc
  | lexeme kind text =>
    obtain ⟨-, hnext⟩ := hcut
    rw [hheader] at hnext
    obtain ⟨kind', hkind', -, hmem⟩ := htoken.exists_kind
    exact ⟨kind, text, expected', rest, hpieces, hsplit,
      hnext.length_le kind' hkind' _ hmem (List.prefix_append _ after), hnext, hleaves'⟩

/-- A token that does not run on is cut off. -/
theorem IsToken.exists_cut (h : Follows token after) (hruns : ¬ RunsOn token after) :
    ∃ kind expected', kind ≠ .comment ∧
      piecesFrom expected (token ++ after) = .lexeme kind token :: piecesFrom expected' after ∧
      Leaves (before ++ [.lexeme kind token]) expected' := by
  obtain ⟨kind, text, expected', rest, hpieces, hsplit, hle, hnext, hleaves'⟩ :=
    htoken.exists_lexeme hleaves hheader after
  obtain ⟨earlier, later, hkinds, -⟩ := hnext.first
  have hkind : kind ∈ Kind.classes false := by simp [hkinds]
  have hge := htoken.length_le h hruns hnext.front hkind hnext.mem
  obtain ⟨rfl, rfl⟩ := List.append_inj hsplit (by omega)
  refine ⟨kind, expected', ?_, hpieces, hleaves'⟩
  rintro rfl
  exact htoken.not_mem_comments hnext.mem

/-- A token that is read as itself is the longest one. -/
theorem IsToken.exists_isNext {others : List Bytes}
    (h : tokenTexts (piecesFrom expected (token ++ after)) = token :: others)
    (hinked : inked (token :: others).flatten = inked (token ++ after)) :
    ∃ kind, IsNext (Kind.classes false) (token ++ after) kind token := by
  obtain ⟨kind, text, expected', rest, hpieces, hsplit, -, hnext, hleaves'⟩ :=
    htoken.exists_lexeme hleaves hheader after
  rw [hpieces] at h
  by_cases hkind : kind = .comment
  · -- a comment takes ink away from the tokens
    subst hkind
    rw [tokenTexts_comment] at h
    have hrest := inked_tokenTexts_le (piecesFrom expected' rest)
    rw [h, (hleaves'.piecesFrom_spec rest).1, hinked, hsplit, inked_append] at hrest
    have hpos : 0 < inked text := by
      obtain ⟨b, tail, rfl, hb⟩ := htoken.exists_cons
      obtain ⟨c, text, rfl⟩ := List.exists_cons_of_ne_nil hnext.ne_nil
      obtain rfl : b = c := (List.cons.inj hsplit).1
      exact List.countP_pos_iff.2 ⟨b, List.mem_cons_self, by simpa using hb⟩
    omega
  · rw [tokenTexts_lexeme hkind] at h
    rw [(List.cons.inj h).1] at hnext
    exact ⟨kind, hnext⟩

/-- A token that runs on is not read as itself. -/
theorem IsToken.not_runsOn {others : List Bytes}
    (h : tokenTexts (piecesFrom expected (token ++ after)) = token :: others)
    (hinked : inked (token :: others).flatten = inked (token ++ after)) :
    ¬ RunsOn token after := by
  intro hruns
  obtain ⟨kind, hnext⟩ := htoken.exists_isNext hleaves hheader h hinked
  obtain ⟨kind', hkind', longer, hlonger, hfront, hlength⟩ := exists_longer_of_runsOn hruns
  have hle := hnext.length_le kind' hkind' longer hlonger hfront
  omega

end

end Lexeme

/-! ## Printing -/

namespace Bytes

/-- Whether all characters of a text are in ASCII. -/
def IsAscii (text : Bytes) : Prop := ∀ b ∈ text, b < 0x80

theorem ofString_append (s t : String) : ofString (s ++ t) = ofString s ++ ofString t := by
  rw [ofString, String.toList_append, List.flatMap_append]
  rfl

/-- A text in ASCII is printed as it is. -/
theorem ofString_toText {text : Bytes} (h : text.IsAscii) : ofString text.toText = text := by
  have hchar : ∀ b : UInt8, b < 0x80 → String.utf8EncodeChar (Char.ofNat b.toNat) = [b] :=
    forall_byte (by decide +kernel)
  rw [ofString, toText, String.toList_ofList, Utf8.decode]
  induction text with
  | nil => rfl
  | cons b rest ih =>
    obtain ⟨hb, hrest⟩ := List.forall_mem_cons.1 h
    rw [Utf8.decodeFrom, Utf8.lead, if_pos hb, List.flatMap_cons, hchar b hb, ih hrest]
    rfl

end Bytes

namespace Output

/-- A token that can be printed. -/
structure IsPrintable (t : Token) : Prop where
  isToken : IsToken t.text
  isAscii : t.text.IsAscii

/-- What is printed between two tokens. -/
def gap (left right : Token) : Bytes :=
  if right.spaced || needsSpace left right then [space] else []

section

variable {left right : Token} {rest : List Token}

theorem ofString_spellAfter_cons (h : IsPrintable right) :
    Bytes.ofString (spellAfter left (right :: rest)) =
      gap left right ++ (right.text ++ Bytes.ofString (spellAfter right rest)) := by
  rw [spellAfter, Bytes.ofString_append, Bytes.ofString_append, Token.spelling,
    Bytes.ofString_toText h.isAscii, List.append_assoc, gap]
  split
  · rfl
  · rfl

/-- Where no space is needed, neighbours are apart. -/
theorem apart_of_needsSpace_eq_false (h : IsToken left.text)
    (hspace : needsSpace left right = false) : Apart left.text right.text := by
  have htexts : tokenTexts (pieces (left.text ++ right.text)) = [left.text, right.text] := by
    rw [← Token.map_text_lex]
    rw [needsSpace] at hspace
    split at hspace
    · next a b hlex =>
      simp only [Bool.not_eq_false', Bool.and_eq_true, decide_eq_true_eq] at hspace
      rw [hlex, List.map_cons, List.map_cons, hspace.1, hspace.2]
      rfl
    · cases hspace
  obtain ⟨kind, hnext⟩ := h.exists_isNext leaves_nil rfl htexts (by simp)
  exact hnext.length_le

theorem follows_spellAfter (hleft : IsToken left.text) (hrest : ∀ t ∈ rest, IsPrintable t) :
    Follows left.text (Bytes.ofString (spellAfter left rest)) := by
  induction rest generalizing left with
  | nil => exact .nil _
  | cons right rest ih =>
    obtain ⟨hright, hrest⟩ := List.forall_mem_cons.1 hrest
    rw [ofString_spellAfter_cons hright, gap]
    split
    · exact .gap _ _
    · next hgap =>
      simp only [Bool.or_eq_true, not_or, Bool.not_eq_true] at hgap
      rw [List.nil_append]
      exact .token hright.isToken (apart_of_needsSpace_eq_false hleft hgap.2)
        (ih hright.isToken hrest)

theorem inked_spellAfter (hrest : ∀ t ∈ rest, IsPrintable t) :
    inked (Bytes.ofString (spellAfter left rest)) = inked (rest.map Token.text).flatten := by
  induction rest generalizing left with
  | nil => rfl
  | cons right rest ih =>
    obtain ⟨hright, hrest⟩ := List.forall_mem_cons.1 hrest
    have hgap : inked (gap left right) = 0 := by
      rw [gap]
      split <;> rfl
    rw [ofString_spellAfter_cons hright, inked_append, inked_append, hgap, ih hrest,
      List.map_cons, List.flatten_cons, inked_append, Nat.zero_add]

end

/-! ## Reading a line back -/

/-- Whether a line begins like the directive that a header name belongs to. -/
def BeginsInclusion (texts : List Bytes) : Prop :=
  [Bytes.ofString "#", Bytes.ofString "include"] <+: texts ∨
    [Bytes.ofString "%:", Bytes.ofString "include"] <+: texts

theorem expectsHeader_eq_false {before : List Lexeme.Piece} {texts : List Bytes}
    (h : ¬ BeginsInclusion ((lineTokens before).map Prod.snd ++ texts)) :
    expectsHeader before = false := by
  by_contra hheader
  simp only [expectsHeader, Bool.not_eq_false, decide_eq_true_eq] at hheader
  refine h (hheader.imp (fun hline => ?_) fun hline => ?_) <;>
    · rw [hline]
      exact List.prefix_append _ texts

theorem forall_suffix_cons {p : Token → List Token → Prop} {t : Token} {rest : List Token} :
    (∀ u later, u :: later <:+ t :: rest → p u later) ↔
      p t rest ∧ ∀ u later, u :: later <:+ rest → p u later := by
  constructor
  · intro h
    exact ⟨h t rest List.suffix_rfl,
      fun u later hsuffix => h u later (hsuffix.trans (List.suffix_cons t rest))⟩
  · rintro ⟨hfirst, hrest⟩ u later hsuffix
    rcases List.suffix_cons_iff.1 hsuffix with heq | hsuffix
    · obtain ⟨rfl, rfl⟩ := List.cons.inj heq
      exact hfirst
    · exact hrest u later hsuffix

section

variable {before : List Lexeme.Piece} {expected : Expectation}

/-- What is printed between two tokens is dropped. -/
theorem exists_leaves_gap (hleaves : Leaves before expected) (left right : Token) (after : Bytes) :
    ∃ before' expected', Leaves before' expected' ∧ lineTokens before' = lineTokens before ∧
      tokenTexts (piecesFrom expected (gap left right ++ after)) =
        tokenTexts (piecesFrom expected' after) := by
  rw [gap]
  split
  · refine ⟨before ++ [.blank space], expected, hleaves.blank space, ?_, ?_⟩
    · rw [lineTokens_concat before _ (by decide)]
      exact List.append_nil _
    · rw [List.singleton_append, piecesFrom, if_pos (by decide), tokenTexts_blank,
        if_neg (by decide)]
  · exact ⟨before, expected, hleaves, rfl, rfl⟩

/-- The rest of a line is read back exactly if nothing in it runs on. -/
theorem tokenTexts_spellAfter_iff {t : Token} {rest : List Token} (ht : IsPrintable t)
    (hrest : ∀ u ∈ rest, IsPrintable u) (hleaves : Leaves before expected)
    (hinclude : ¬ BeginsInclusion
      ((lineTokens before).map Prod.snd ++ t.text :: rest.map Token.text)) :
    tokenTexts (piecesFrom expected (t.text ++ Bytes.ofString (spellAfter t rest))) =
        t.text :: rest.map Token.text ↔
      ∀ u later, u :: later <:+ t :: rest →
        ¬ RunsOn u.text (Bytes.ofString (spellAfter u later)) := by
  induction rest generalizing t before expected with
  | nil =>
    have hruns : ¬ RunsOn t.text [] := by simp [RunsOn]
    obtain ⟨kind, expected', hkind, hpieces, -⟩ :=
      ht.isToken.exists_cut hleaves (expectsHeader_eq_false hinclude) (.nil _) hruns
    have hread : tokenTexts (piecesFrom expected (t.text ++ [])) = [t.text] := by
      rw [hpieces, tokenTexts_lexeme hkind, piecesFrom]
      rfl
    rw [forall_suffix_cons]
    exact iff_of_true hread ⟨hruns, fun u later h => absurd h (by simp)⟩
  | cons right rest ih =>
    obtain ⟨hright, hrest'⟩ := List.forall_mem_cons.1 hrest
    have hheader := expectsHeader_eq_false hinclude
    rw [forall_suffix_cons]
    by_cases hruns : RunsOn t.text (Bytes.ofString (spellAfter t (right :: rest)))
    · refine iff_of_false (fun hread => ?_) fun h => h.1 hruns
      refine ht.isToken.not_runsOn hleaves hheader hread ?_ hruns
      rw [List.flatten_cons, inked_append, inked_append, inked_spellAfter hrest]
    · rw [and_iff_right hruns]
      obtain ⟨kind, expected', hkind, hpieces, hleaves'⟩ :=
        ht.isToken.exists_cut hleaves hheader (follows_spellAfter ht.isToken hrest) hruns
      have hline : (lineTokens (before ++ [.lexeme kind t.text])).map Prod.snd =
          (lineTokens before).map Prod.snd ++ [t.text] := by
        rw [lineTokens_concat before _ (by simp [Lexeme.Piece.endsLine]), Lexeme.Piece.token?,
          if_neg hkind, List.map_append]
        rfl
      rw [hpieces, tokenTexts_lexeme hkind, List.cons_inj_right, ofString_spellAfter_cons hright]
      obtain ⟨before', expected'', hleaves'', hbefore', htexts⟩ :=
        exists_leaves_gap hleaves' t right
          (right.text ++ Bytes.ofString (spellAfter right rest))
      rw [htexts]
      refine ih hright hrest' hleaves'' ?_
      rw [hbefore', hline, List.append_assoc]
      exact hinclude

end

/-- **A printed line is read back as its tokens exactly if nothing in it runs on**: no three dots
and no slash with a star after it and `*/` later stand next to each other. -/
theorem map_text_lex_spell_iff {line : OutputLine} (hprintable : ∀ t ∈ line, IsPrintable t)
    (hinclude : ¬ BeginsInclusion (line.map Token.text)) :
    (Token.lex (Bytes.ofString (spell line))).map Token.text = line.map Token.text ↔
      ∀ t rest, t :: rest <:+ line → ¬ RunsOn t.text (Bytes.ofString (spellAfter t rest)) := by
  rw [Token.map_text_lex, pieces]
  cases line with
  | nil =>
    refine iff_of_true ?_ fun t rest h => absurd h (by simp)
    rw [spell, show Bytes.ofString "" = [] from rfl, piecesFrom]
    rfl
  | cons t rest =>
    obtain ⟨ht, hrest⟩ := List.forall_mem_cons.1 hprintable
    rw [spell, Bytes.ofString_append, Token.spelling, Bytes.ofString_toText ht.isAscii,
      List.map_cons]
    exact tokenTexts_spellAfter_iff ht hrest leaves_nil hinclude

end Output

end CPreprocessor
