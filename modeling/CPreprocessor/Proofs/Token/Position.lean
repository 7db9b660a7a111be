import CPreprocessor.Proofs.Lexeme.Partition
import CPreprocessor.Proofs.Token.LineEnds

/-!
# Positions of tokens

The line of an offset is found by the number of new-lines before it, and its column by the last line
that starts at or before it (`Source.isPositionOf_positionOf`). A token is where its first byte is
spelled in the source, whatever trigraphs are replaced and lines spliced in front of it; so the
positions of the tokens increase from one to the next (`Token.positions_linesOf`).
-/

namespace CPreprocessor

open Ascii

namespace Source

/-- A physical line of a source starts at an offset. -/
def IsLineStart (source : Bytes) (start : Nat) : Prop :=
  start = 0 ∨ ∃ n, source[n]? = some newline ∧ start = n + 1

/-- The line and the column of an offset of a source. -/
structure IsPositionOf (source : Bytes) (offset : Nat) (p : Position) : Prop where
  line : p.line = 1 + (source.take offset).count newline
  column : ∃ start, IsGreatest {start | IsLineStart source start ∧ start ≤ offset} start ∧
    p.column = offset - start + 1

/-- One place is before another one. -/
def Position.Before (p q : Position) : Prop :=
  p.line < q.line ∨ p.line = q.line ∧ p.column < q.column

/-! ## The starts of lines -/

theorem lt_of_mem_lineStartsFrom {source : Bytes} {offset start : Nat}
    (h : start ∈ lineStartsFrom offset source) : offset < start :=
  (List.pairwise_cons.1 (lineStartsFrom_sorted offset source)).1 start h

theorem mem_lineStartsFrom_iff {source : Bytes} {offset start : Nat} :
    start ∈ lineStartsFrom offset source ↔
      ∃ n, source[n]? = some newline ∧ start = offset + n + 1 := by
  constructor
  · intro h
    induction source generalizing offset with
    | nil => cases h
    | cons b rest ih =>
      have hlater (h : start ∈ lineStartsFrom (offset + 1) rest) :
          ∃ n, (b :: rest)[n]? = some newline ∧ start = offset + n + 1 := by
        obtain ⟨n, hn, rfl⟩ := ih h
        exact ⟨n + 1, hn, by omega⟩
      rw [lineStartsFrom] at h
      split at h
      · next hb =>
        rcases List.mem_cons.1 h with rfl | h
        · exact ⟨0, congrArg some hb, rfl⟩
        · exact hlater h
      · exact hlater h
  · rintro ⟨n, hn, rfl⟩
    exact mem_lineStartsFrom hn offset

theorem mem_lineStarts_iff {source : Bytes} {start : Nat} :
    start ∈ lineStarts source ↔ IsLineStart source start := by
  rw [lineStarts, List.mem_cons, mem_lineStartsFrom_iff, IsLineStart]
  simp only [Nat.zero_add]

/-- As many lines start up to an offset as there are new-lines before it. -/
theorem length_takeWhile_lineStartsFrom (source : Bytes) (offset n : Nat) :
    ((lineStartsFrom offset source).takeWhile (· ≤ offset + n)).length =
      (source.take n).count newline := by
  induction n generalizing offset source with
  | zero =>
    rw [List.take_zero, List.count_nil, List.length_eq_zero_iff, List.takeWhile_eq_nil_iff]
    intro hpos hle
    exact absurd (of_decide_eq_true hle) (lt_of_mem_lineStartsFrom (List.getElem_mem hpos)).not_ge
  | succ n ih =>
    cases source with
    | nil => rfl
    | cons b rest =>
      have hrest := ih rest (offset + 1)
      rw [Nat.add_right_comm, Nat.add_assoc] at hrest
      rw [lineStartsFrom, List.take_succ_cons, List.count_cons]
      split
      · next hb =>
        rw [List.takeWhile_cons_of_pos (by simp), List.length_cons, hrest, hb]
        simp
      · next hb => simpa [hb] using hrest

theorem takeWhile_lineStarts (source : Bytes) (offset : Nat) :
    (lineStarts source).takeWhile (· ≤ offset) =
      0 :: (lineStartsFrom 0 source).takeWhile (· ≤ offset) :=
  List.takeWhile_cons_of_pos (by simp)

section

variable {starts : List Nat} (hsorted : starts.Pairwise (· < ·)) {offset start : Nat}
include hsorted

theorem mem_takeWhile_le (h : start ∈ starts) (hle : start ≤ offset) :
    start ∈ starts.takeWhile (· ≤ offset) := by
  induction starts with
  | nil => cases h
  | cons first rest ih =>
    obtain ⟨hfirst, hrest⟩ := List.pairwise_cons.1 hsorted
    rcases List.mem_cons.1 h with rfl | h
    · rw [List.takeWhile_cons_of_pos (by simpa using hle)]
      exact List.mem_cons_self
    · have hfirstLe := (hfirst start h).le.trans hle
      rw [List.takeWhile_cons_of_pos (by simpa using hfirstLe)]
      exact List.mem_cons_of_mem first (ih hrest h)

/-- Of some numbers in order, the last one up to a bound is the greatest. -/
theorem isGreatest_of_getLast? (h : (starts.takeWhile (· ≤ offset)).getLast? = some start) :
    IsGreatest {start | start ∈ starts ∧ start ≤ offset} start := by
  obtain ⟨earlier, htake⟩ := List.getLast?_eq_some_iff.1 h
  have hmem : start ∈ starts.takeWhile (· ≤ offset) := List.mem_of_getLast? h
  have hle : start ≤ offset := by simpa using List.mem_takeWhile_imp hmem
  refine ⟨⟨(List.takeWhile_prefix _).subset hmem, hle⟩, fun other ⟨hother, hle⟩ => ?_⟩
  have hbefore := hsorted.sublist (List.takeWhile_sublist (· ≤ offset))
  have hother := mem_takeWhile_le hsorted hother hle
  rw [htake] at hbefore hother
  rcases List.mem_append.1 hother with hother | hother
  · exact ((List.pairwise_append.1 hbefore).2.2 other hother start List.mem_cons_self).le
  · exact (List.mem_singleton.1 hother).le

end

/-- The line of an offset starts somewhere. -/
theorem exists_getLast?_takeWhile (source : Bytes) (offset : Nat) :
    ∃ start, ((lineStarts source).takeWhile (· ≤ offset)).getLast? = some start := by
  rw [takeWhile_lineStarts]
  exact ⟨_, List.getLast?_eq_some_getLast (List.cons_ne_nil _ _)⟩

/-- **The line and the column that an offset has.** -/
theorem isPositionOf_positionOf (source : Bytes) (offset : Nat) :
    IsPositionOf source offset (positionOf (lineStarts source) offset) where
  line := by
    have hlength := length_takeWhile_lineStartsFrom source 0 offset
    rw [Nat.zero_add] at hlength
    rw [positionOf, takeWhile_lineStarts, List.length_cons, hlength, Nat.add_comm]
  column := by
    obtain ⟨start, hstart⟩ := exists_getLast?_takeWhile source offset
    have hgreatest := isGreatest_of_getLast? (lineStarts_sorted source) hstart
    simp only [mem_lineStarts_iff] at hgreatest
    exact ⟨start, hgreatest, by rw [positionOf, hstart, Option.getD_some]⟩

/-- An offset behind another one has a later place. -/
theorem before_positionOf {source : Bytes} {offset offset' : Nat} (h : offset < offset') :
    (positionOf (lineStarts source) offset).Before (positionOf (lineStarts source) offset') := by
  have hle : (positionOf (lineStarts source) offset).line ≤
      (positionOf (lineStarts source) offset').line := line_positionOf_mono h.le
  rcases hle.lt_or_eq with hlt | heq
  · exact .inl hlt
  · refine .inr ⟨heq, ?_⟩
    have hsame : (lineStarts source).takeWhile (· ≤ offset) =
        (lineStarts source).takeWhile (· ≤ offset') :=
      (List.prefix_of_prefix_length_le (List.takeWhile_prefix _) (List.takeWhile_prefix _)
        hle).eq_of_length heq
    obtain ⟨start, hstart⟩ := exists_getLast?_takeWhile source offset
    have hbound := (isGreatest_of_getLast? (lineStarts_sorted source) hstart).1.2
    rw [positionOf, positionOf, ← hsame, hstart]
    simp only [Option.getD_some]
    omega

end Source

namespace Token

open Lexeme (logicalLines placed)
open Source (normalize spellings lineStarts positionOf IsPositionOf)

/-- A token begins with a byte of a text that was made from a source, and the source spells this
byte at an offset. -/
structure BeginsAt (source : Bytes) (trigraphs : Bool) (text : Source.Text) (token : Bytes)
    (i offset : Nat) : Prop where
  front : token <+: text.bytes.drop i
  origin : text.positions[i]? = some offset
  spelled : ∃ b ∈ token.head?, ∃ spelling ∈ spellings trigraphs b, spelling <+: source.drop offset

section

variable {source : Bytes} {trigraphs : Bool} {text : Source.Text}
  (hback : text.MapsBack source trigraphs)
include hback

/-- A token of the bytes of a text begins at an offset of the source. -/
theorem exists_beginsAt {u : Lexeme} (hu : u ∈ (logicalLines (.ofSource text.bytes)).flatten) :
    BeginsAt source trigraphs text u.text u.origin (placed text.positions u).origin := by
  have hpartition := Lexeme.partitions_logicalLines text.bytes
  obtain ⟨hstop, htext⟩ := hpartition.inBounds u hu
  have hi : u.origin < text.bytes.length := (hpartition.nonempty u hu).trans_le hstop
  have hstart : text.positions[u.origin]? = some (placed text.positions u).origin := by
    rw [placed, List.getD_eq_getElem?_getD, List.getElem?_eq_getElem (by rw [hback.length]; omega)]
    rfl
  have hfront : u.text <+: text.bytes.drop u.origin := htext ▸ List.take_prefix _ _
  have hnext : u.origin + 1 < text.positions.length := by rw [hback.length]; omega
  refine ⟨hfront, hstart, text.bytes[u.origin], ?_, ?_⟩
  · have hne : u.text ≠ [] := by
      rintro hnil
      have hnonempty := hpartition.nonempty u hu
      rw [Lexeme.stop, hnil, List.length_nil] at hnonempty
      omega
    obtain ⟨b, rest, htoken⟩ := List.exists_cons_of_ne_nil hne
    rw [htoken, List.drop_eq_getElem_cons hi, List.cons_prefix_cons] at hfront
    rw [htoken, hfront.1]
    rfl
  · obtain ⟨spelling, hspelling, gap, -, hsegment⟩ := hback.spelled u.origin _ _ _
      (List.getElem?_eq_getElem hi) hstart (List.getElem?_eq_getElem hnext)
    refine ⟨spelling, hspelling, (List.prefix_append spelling gap).trans ?_⟩
    rw [show spelling ++ gap = _ from hsegment, List.extract_eq_take_drop]
    exact List.take_prefix _ _

/-- Tokens that come one after another in a text do so in the source. -/
theorem pairwise_placed :
    ((logicalLines (.ofSource text.bytes)).flatten.map (placed text.positions)).Pairwise
      fun t u => t.origin < u.origin := by
  have hpartition := Lexeme.partitions_logicalLines text.bytes
  rw [List.pairwise_map]
  refine hpartition.disjoint.imp_of_mem fun {t u} ht hu hdisjoint => ?_
  have hlt : t.origin < u.origin := (hpartition.nonempty t ht).trans_le hdisjoint
  have hstart := (exists_beginsAt hback ht).origin
  have hstart' := (exists_beginsAt hback hu).origin
  obtain ⟨hi, hpos⟩ := List.getElem?_eq_some_iff.1 hstart
  obtain ⟨hi', hpos'⟩ := List.getElem?_eq_some_iff.1 hstart'
  rw [← hpos, ← hpos']
  exact List.pairwise_iff_getElem.1 hback.increasing _ _ hi hi' hlt

end

/-- The lines of tokens are those of the bytes that are left of a source, moved back to it. -/
theorem linesOf_normalize (source : Bytes) (trigraphs : Bool) :
    let text := normalize source trigraphs
    linesOf source text = (logicalLines (.ofSource text.bytes)).map
      (List.map fun u => ofLexeme (lineStarts source) (placed text.positions u)) := by
  intro text
  rw [linesOf, Lexeme.logicalLines_eq_map text, List.map_map]
  simp only [Function.comp_def, List.map_map]

/-- One token after the other has a later place. -/
theorem pairwise_before_linesOf (source : Bytes) (trigraphs : Bool) :
    (linesOf source (normalize source trigraphs)).flatten.Pairwise
      fun t u => t.position.Before u.position := by
  have hpairwise := pairwise_placed (Source.Text.MapsBack.of_normalize source trigraphs)
  rw [List.pairwise_map] at hpairwise
  rw [linesOf_normalize, ← List.map_flatten, List.pairwise_map]
  exact hpairwise.imp Source.before_positionOf

/-- **Positions of tokens name the source.** Line by line, the tokens of the normalized source are
those of its bytes. Each is on the line and in the column of the offset at which the source spells
its first byte, and these places increase from token to token. -/
theorem positions_linesOf (source : Bytes) (trigraphs : Bool) :
    let text := normalize source trigraphs
    List.Forall₂ (List.Forall₂ fun t u => t.kind = u.kind ∧ t.text = u.text ∧
        ∃ offset, BeginsAt source trigraphs text t.text u.origin offset ∧
          IsPositionOf source offset t.position)
      (linesOf source text) (logicalLines (.ofSource text.bytes)) ∧
    (linesOf source text).flatten.Pairwise fun t u => t.position.Before u.position := by
  intro text
  refine ⟨?_, pairwise_before_linesOf source trigraphs⟩
  have hback := Source.Text.MapsBack.of_normalize source trigraphs
  rw [linesOf_normalize, List.forall₂_map_left_iff, List.forall₂_same]
  intro line hline
  rw [List.forall₂_map_left_iff, List.forall₂_same]
  intro u hu
  exact ⟨rfl, rfl, _, exists_beginsAt hback (List.mem_flatten_of_mem hline hu),
    Source.isPositionOf_positionOf source _⟩

end Token

end CPreprocessor
