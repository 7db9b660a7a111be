import CPreprocessor.Proofs.Macro.Provenance
import CPreprocessor.Proofs.Session.Places
import CPreprocessor.Proofs.Token.Position

/-!
# Lines of output

Text is expanded together, however many logical lines it has, and what comes out is grouped into
lines again. This is done by looking at the physical line of each token and of the one before it.
It is enough, since expansion keeps the order of the tokens (`Expander.Carries.pairwise`): two
tokens are on the same line of output exactly if what they come from is on the same logical line
(`Output.FollowsLines`), for all text of a file that is expanded together
(`Session.followsLines_of_comesTo`).
-/

namespace CPreprocessor

open Source (normalize)

namespace Output

/-! ## Numbered lines -/

section

variable {α : Type} {lines : List (List α)} {key : α → Nat}

/-- The elements of some lines, each with the number of its line. -/
def numbered (lines : List (List α)) : List (α × Nat) :=
  lines.zipIdx.flatMap fun x => x.1.map (·, x.2)

theorem map_fst_numbered (lines : List (List α)) :
    (numbered lines).map Prod.fst = lines.flatten := by
  rw [numbered, List.map_flatMap]
  simp only [List.map_map, Function.comp_def, List.map_id']
  rw [List.flatMap_def, List.zipIdx_map_fst]

theorem mem_numbered_iff {a : α} {n : Nat} :
    (a, n) ∈ numbered lines ↔ ∃ line, lines[n]? = some line ∧ a ∈ line := by
  simp only [numbered, List.mem_flatMap, List.mem_map, Prod.mk.injEq, Prod.exists,
    List.mk_mem_zipIdx_iff_getElem?]
  constructor
  · rintro ⟨line, m, hline, b, hb, rfl, rfl⟩
    exact ⟨line, hline, hb⟩
  · rintro ⟨line, hline, ha⟩
    exact ⟨line, n, hline, a, ha, rfl, rfl⟩

/-- The lines are told from each other by a key of their elements. -/
structure KeyedBy (key : α → Nat) (lines : List (List α)) : Prop where
  same : ∀ line ∈ lines, ∀ a ∈ line, ∀ b ∈ line, key a = key b
  increasing : lines.Pairwise fun line line' => ∀ a ∈ line, ∀ b ∈ line', key a < key b

theorem KeyedBy.eq_iff (h : KeyedBy key lines) {x y : α × Nat} (hx : x ∈ numbered lines)
    (hy : y ∈ numbered lines) : x.2 = y.2 ↔ key x.1 = key y.1 := by
  obtain ⟨line, hline, hx⟩ := mem_numbered_iff.1 hx
  obtain ⟨line', hline', hy⟩ := mem_numbered_iff.1 hy
  have hlt {m n : Nat} {line line' : List α} {a b : α} (hline : lines[m]? = some line)
      (hline' : lines[n]? = some line') (ha : a ∈ line) (hb : b ∈ line') (hmn : m < n) :
      key a < key b := by
    obtain ⟨hm, rfl⟩ := List.getElem?_eq_some_iff.1 hline
    obtain ⟨hn, rfl⟩ := List.getElem?_eq_some_iff.1 hline'
    exact List.pairwise_iff_getElem.1 h.increasing m n hm hn hmn a ha b hb
  constructor
  · intro heq
    rw [heq, hline'] at hline
    obtain rfl := Option.some.inj hline
    exact h.same line' (List.mem_of_getElem? hline') _ hx _ hy
  · intro hkey
    rcases Nat.lt_trichotomy x.2 y.2 with hlt' | heq | hlt'
    · exact absurd hkey (hlt hline hline' hx hy hlt').ne
    · exact heq
    · exact absurd hkey (hlt hline' hline hy hx hlt').ne'

/-- Elements in the order of their keys are split where the key changes. -/
theorem keyedBy_splitBy {elements : List α}
    (h : elements.Pairwise fun a b => key a ≤ key b) :
    KeyedBy key (elements.splitBy fun a b => key a == key b) := by
  have hsame : ∀ line ∈ elements.splitBy fun a b => key a == key b,
      ∀ a ∈ line, ∀ b ∈ line, key a = key b := by
    intro line hline
    have : IsTrans α fun a b => key a = key b := ⟨fun _ _ _ => Eq.trans⟩
    have : Std.Symm fun a b : α => key a = key b := ⟨fun _ _ => Eq.symm⟩
    have hchain := List.isChain_of_mem_splitBy hline
    simp only [beq_iff_eq] at hchain
    exact fun a ha b hb => List.Pairwise.forall_of_forall (R := fun a b => key a = key b)
      (fun _ _ => rfl) hchain.pairwise ha hb
  refine ⟨hsame, ?_⟩
  have hchain := List.isChain_getLast_head_splitBy (fun a b => key a == key b) elements
  rw [← List.flatten_splitBy (fun a b => key a == key b) elements, List.pairwise_flatten] at h
  have hle := h.2
  generalize elements.splitBy (fun a b => key a == key b) = lines at hsame hchain hle ⊢
  rw [List.isChain_iff_getElem] at hchain
  rw [List.pairwise_iff_getElem] at hle ⊢
  intro m n hm hn hmn a ha b hb
  -- the key changes between this line and the next one, and does not decrease afterwards
  have hnext : m + 1 < lines.length := by omega
  obtain ⟨hlast, hhead, hne⟩ := hchain m hnext
  have hchange : key (lines[m].getLast hlast) < key (lines[m + 1].head hhead) :=
    lt_of_le_of_ne (hle m (m + 1) hm hnext (Nat.lt_succ_self m) _ (List.getLast_mem hlast) _
      (List.head_mem hhead)) (by simpa using hne)
  rw [hsame _ (List.getElem_mem hm) a ha _ (List.getLast_mem hlast)]
  refine hchange.trans_le ?_
  rcases (Nat.succ_le_of_lt hmn).eq_or_lt with rfl | hlt
  · exact (hsame _ (List.getElem_mem hn) _ (List.head_mem hhead) b hb).le
  · exact hle (m + 1) n hnext hn hlt _ (List.head_mem hhead) b hb

end

/-! ## Lines of text -/

/-- Lines of text of a source, in their order. Lines without tokens are left out. -/
structure IsTextOf (source : Bytes) (trigraphs : Bool) (run : List (List Token)) : Prop where
  sublist : run.Sublist (Token.linesOf source (normalize source trigraphs))
  ne_nil : ∀ line ∈ run, line ≠ []

/-- The physical lines that some lines of tokens begin on. -/
def startsOf (run : List (List Token)) : List Nat :=
  run.filterMap fun line => line.head?.map (·.position.line)

theorem length_startsOf {run : List (List Token)} (h : ∀ line ∈ run, line ≠ []) :
    (startsOf run).length = run.length := by
  induction run with
  | nil => rfl
  | cons line run ih =>
    obtain ⟨hline, hrun⟩ := List.forall_mem_cons.1 h
    obtain ⟨first, rest, rfl⟩ := List.exists_cons_of_ne_nil hline
    exact congrArg Nat.succ (ih hrun)

theorem exists_of_mem_startsOf {run : List (List Token)} {start : Nat} (h : start ∈ startsOf run) :
    ∃ line ∈ run, ∃ t ∈ line, t.position.line = start := by
  obtain ⟨line, hline, hstart⟩ := List.mem_filterMap.1 h
  obtain ⟨first, hfirst, rfl⟩ := Option.map_eq_some_iff.1 hstart
  exact ⟨line, hline, first, List.mem_of_head? hfirst, rfl⟩

theorem lineIndex_mono {starts : List Nat} {t u : Token} (h : t.position.line ≤ u.position.line) :
    lineIndex starts t ≤ lineIndex starts u :=
  Source.line_positionOf_mono h

section

variable {source : Bytes} {trigraphs : Bool} {run : List (List Token)}
  (hrun : IsTextOf source trigraphs run)
include hrun

theorem IsTextOf.inOrder : Token.InOrder run :=
  (Token.inOrder_linesOf (Source.isFrom_normalize source trigraphs)).sublist hrun.sublist

theorem IsTextOf.pairwise : run.flatten.Pairwise fun t u => t.position.Before u.position :=
  (Token.pairwise_before_linesOf source trigraphs).sublist hrun.sublist.flatten

/-- No token of a line is on a physical line above the one that it begins on. -/
theorem IsTextOf.line_head_le {first : Token} {rest : List Token} (h : first :: rest ∈ run) :
    ∀ t ∈ first :: rest, first.position.line ≤ t.position.line := by
  have hline := (List.pairwise_flatten.1 hrun.pairwise).1 _ h
  refine List.forall_mem_cons.2 ⟨Nat.le_refl _, fun t ht => ?_⟩
  rcases (List.pairwise_cons.1 hline).1 t ht with hlt | ⟨heq, -⟩
  · exact hlt.le
  · exact heq.le

/-- A token of an earlier line is on an earlier physical line. -/
theorem IsTextOf.line_lt {x y : Token × Nat} (hx : x ∈ numbered run) (hy : y ∈ numbered run)
    (hlt : x.2 < y.2) : x.1.position.line < y.1.position.line := by
  obtain ⟨line, hline, hx⟩ := mem_numbered_iff.1 hx
  obtain ⟨line', hline', hy⟩ := mem_numbered_iff.1 hy
  obtain ⟨hm, rfl⟩ := List.getElem?_eq_some_iff.1 hline
  obtain ⟨hn, rfl⟩ := List.getElem?_eq_some_iff.1 hline'
  exact List.pairwise_iff_getElem.1 hrun.inOrder _ _ hm hn hlt _ hx _ hy

section

variable {t : Token} {n : Nat} (h : (t, n) ∈ numbered run)
include h

theorem IsTextOf.lt_of_mem_startsOf_take {start : Nat} (hstart : start ∈ startsOf (run.take n)) :
    start < t.position.line := by
  obtain ⟨line, hline, u, hu, rfl⟩ := exists_of_mem_startsOf hstart
  obtain ⟨m, hm, rfl⟩ := List.mem_take_iff_getElem.1 hline
  have hu : (u, m) ∈ numbered run := mem_numbered_iff.2 ⟨_, List.getElem?_eq_getElem _, hu⟩
  exact hrun.line_lt hu h (show m < n by omega)

theorem IsTextOf.lt_of_mem_startsOf_drop {start : Nat}
    (hstart : start ∈ startsOf (run.drop (n + 1))) : t.position.line < start := by
  obtain ⟨line, hline, u, hu, rfl⟩ := exists_of_mem_startsOf hstart
  obtain ⟨m, hm, rfl⟩ := List.mem_drop_iff_getElem.1 hline
  have hu : (u, n + 1 + m) ∈ numbered run :=
    mem_numbered_iff.2 ⟨_, List.getElem?_eq_getElem _, hu⟩
  exact hrun.line_lt h hu (show n < n + 1 + m by omega)

/-- As many lines begin at or before a token as there are up to its own. -/
theorem IsTextOf.lineIndex_eq : lineIndex (startsOf run) t = n + 1 := by
  obtain ⟨line, hline, ht⟩ := mem_numbered_iff.1 h
  obtain ⟨hn, rfl⟩ := List.getElem?_eq_some_iff.1 hline
  obtain ⟨first, rest, hfirst⟩ := List.exists_cons_of_ne_nil (hrun.ne_nil _ (List.getElem_mem hn))
  have hle := hrun.line_head_le (hfirst ▸ List.getElem_mem hn) t (hfirst ▸ ht)
  have hbefore : (startsOf (run.take n)).length = n := by
    rw [length_startsOf fun line h => hrun.ne_nil line (List.mem_of_mem_take h), List.length_take]
    omega
  have hstarts : startsOf run =
      startsOf (run.take n) ++ (first.position.line :: startsOf (run.drop (n + 1))) := by
    conv_lhs => rw [← List.take_append_drop n run, List.drop_eq_getElem_cons hn, hfirst]
    rw [startsOf, List.filterMap_append]
    rfl
  have hpos : ∀ start ∈ startsOf (run.take n), decide (start ≤ t.position.line) = true :=
    fun start hstart => decide_eq_true (hrun.lt_of_mem_startsOf_take h hstart).le
  have hnil : (startsOf (run.drop (n + 1))).takeWhile (· ≤ t.position.line) = [] := by
    refine List.takeWhile_eq_nil_iff.2 fun hlength hdecide => ?_
    exact absurd (of_decide_eq_true hdecide)
      (hrun.lt_of_mem_startsOf_drop h (List.getElem_mem hlength)).not_ge
  rw [lineIndex, hstarts, List.takeWhile_append_of_pos hpos,
    List.takeWhile_cons_of_pos (by simpa using hle), hnil, List.length_append, hbefore]
  rfl

end

end

/-! ## Lines of output -/

/-- The tokens of some text, each labelled with itself and the number of its logical line. -/
def labelled (run : List (List Token)) : List (Token × (Token × Nat)) :=
  (numbered run).map fun x => (x.1, x)

/-- Lines of output follow the logical lines of the text that they came from. The tokens of the
output are given with the tokens of the text that they stand for, and the lines of these. -/
structure FollowsLines (run : List (List Token)) (output : List OutputLine)
    (traced : List (Token × (Token × Nat))) : Prop where
  flatten : output.flatten = traced.map Prod.fst
  nil_notMem : [] ∉ output
  mem : ∀ x ∈ traced, x.2 ∈ numbered run
  position : ∀ x ∈ traced, x.1.position = x.2.1.position
  inOrder : traced.Pairwise fun x y => x.2 = y.2 ∨ x.2.1.position.Before y.2.1.position
  /-- Two tokens are on the same line if what they stand for is. -/
  sameLine : ∀ (j k : Nat) (x y : Token × (Token × Nat)) (a b : Token × Nat),
    traced[j]? = some x → traced[k]? = some y →
      (numbered output)[j]? = some a → (numbered output)[k]? = some b → (a.2 = b.2 ↔ x.2.2 = y.2.2)

theorem map_fst_labelled (run : List (List Token)) :
    (labelled run).map Prod.fst = run.flatten := by
  rw [labelled, List.map_map]
  exact map_fst_numbered run

section

variable {run : List (List Token)} {e : Expander} {traced : List (Token × (Token × Nat))}
  (h : e.Carries (labelled run) traced)
include h

theorem mem_numbered_of_carries : ∀ x ∈ traced, x.2 ∈ numbered run := by
  intro x hx
  obtain ⟨y, hy, heq⟩ := h.exists_label_eq x hx
  obtain ⟨z, hz, rfl⟩ := List.mem_map.1 hy
  exact heq ▸ hz

theorem position_of_carries : ∀ x ∈ traced, x.1.position = x.2.1.position :=
  h.position_eq (fun label => label.1.position) (List.forall_mem_map.2 fun _ _ => rfl)

variable {source : Bytes} {trigraphs : Bool} (hrun : IsTextOf source trigraphs run)
include hrun

/-- What a token stands for is on the line that the token is found on. -/
theorem lineIndex_of_carries {x : Token × (Token × Nat)} (hx : x ∈ traced) :
    lineIndex (startsOf run) x.1 = x.2.2 + 1 := by
  rw [← hrun.lineIndex_eq (mem_numbered_of_carries h x hx), lineIndex, lineIndex,
    position_of_carries h x hx]

theorem pairwise_of_carries :
    traced.Pairwise fun x y => x.2 = y.2 ∨ x.2.1.position.Before y.2.1.position := by
  have hbefore := hrun.pairwise
  rw [← map_fst_numbered, List.pairwise_map] at hbefore
  exact h.pairwise (r := fun a b => a = b ∨ a.1.position.Before b.1.position) (fun _ => .inl rfl)
    (List.pairwise_map.2 (hbefore.imp .inr))

/-- **Expansion keeps lines apart.** -/
theorem followsLines_of_carries :
    FollowsLines run (group (startsOf run) (traced.map Prod.fst)) traced where
  flatten := List.flatten_splitBy _ _
  nil_notMem := List.nil_notMem_splitBy _ _
  mem := mem_numbered_of_carries h
  position := position_of_carries h
  inOrder := pairwise_of_carries h hrun
  sameLine := by
    intro j k x y a b hx hy ha hb
    have hmono : (traced.map Prod.fst).Pairwise fun t u =>
        lineIndex (startsOf run) t ≤ lineIndex (startsOf run) u := by
      rw [List.pairwise_map]
      refine (pairwise_of_carries h hrun).imp_of_mem fun {x y} hx hy hbefore => lineIndex_mono ?_
      rw [position_of_carries h x hx, position_of_carries h y hy]
      rcases hbefore with heq | hlt | ⟨heq, -⟩
      · rw [heq]
      · exact hlt.le
      · exact heq.le
    have htokens : (numbered (group (startsOf run) (traced.map Prod.fst))).map Prod.fst =
        traced.map Prod.fst :=
      (map_fst_numbered _).trans (List.flatten_splitBy _ _)
    have hkey {j : Nat} {x : Token × (Token × Nat)} {a : Token × Nat} (hx : traced[j]? = some x)
        (ha : (numbered (group (startsOf run) (traced.map Prod.fst)))[j]? = some a) :
        lineIndex (startsOf run) a.1 = x.2.2 + 1 := by
      have htoken := congrArg (·[j]?) htokens
      simp only [List.getElem?_map, hx, ha, Option.map_some, Option.some.injEq] at htoken
      rw [htoken, lineIndex_of_carries h hrun (List.mem_of_getElem? hx)]
    rw [(keyedBy_splitBy hmono).eq_iff (List.mem_of_getElem? ha) (List.mem_of_getElem? hb),
      hkey hx ha, hkey hy hb, Nat.succ_inj]

end

end Output

namespace Session

open SessionM
open Output (IsTextOf FollowsLines labelled)

variable {session : Session} {nested : Option Inclusion} {s s' : State} {p q : Progress}

/-! ## The text that is gathered -/

theorem pending_of_atBoundary {boundary : Boundary} {location : Location} {operand : List Token}
    (h : (atBoundary boundary location operand p).Returns s q s') : q.pending = p.pending := by
  have hpending := @atBoundary_bind_congr _ (fun q => pure q.pending) (fun _ => pure p.pending) p
    (fun _ => rfl) boundary location operand
  have hreturns : (do return (← atBoundary boundary location operand p).pending).Returns s
      q.pending s' := h.bind rfl
  rw [hpending] at hreturns
  obtain ⟨_, _, _, hreturn⟩ := hreturns.exists_of_bind
  exact (hreturn.unique rfl).1

/-- A directive gathers no text. -/
theorem pending_of_obey {directive : Directive} {location : Location} {lastLine : Nat}
    {output : List OutputLine}
    (h : (obey session nested directive location lastLine p).Returns s (output, q) s') :
    q.pending = p.pending := by
  cases directive with
  | ifExpression | inclusion | defineObject | defineFunction | pragma =>
    obtain ⟨_, _, _, h⟩ := h.exists_of_bind
    cases h
    rfl
  | ifDefined | ifNotDefined | undefine =>
    obtain ⟨_, _, _, h⟩ := h.exists_of_bind
    obtain ⟨_, _, _, h⟩ := h.exists_of_bind
    cases h
    rfl
  | elifExpression =>
    obtain ⟨_, _, hboundary, h⟩ := h.exists_of_bind
    cases h
    exact @pending_of_atBoundary _ _ _ _ .elifGroup _ _ hboundary
  | elseGroup =>
    obtain ⟨_, _, hboundary, h⟩ := h.exists_of_bind
    cases h
    exact @pending_of_atBoundary _ _ _ _ .elseGroup _ _ hboundary
  | endIf =>
    obtain ⟨_, _, hboundary, h⟩ := h.exists_of_bind
    cases h
    exact @pending_of_atBoundary _ _ _ _ .endIf _ _ hboundary
  | line operand =>
    obtain ⟨_, _, hcontrol, h⟩ := h.exists_of_bind
    cases h
    obtain ⟨tokens, _, _, hcontrol⟩ := hcontrol.exists_of_bind
    cases hread : LineControl.ofTokens tokens with
    | none =>
      rw [hread] at hcontrol
      exact absurd hcontrol not_returns_fail
    | some control =>
      rw [hread] at hcontrol
      cases hcontrol
      rfl
  | error | nonDirective => exact absurd h not_returns_fail
  | null =>
    cases h
    rfl

theorem pending_of_processDirective {hash : Token} {line : List Token} {output : List OutputLine}
    (h : (processDirective session nested hash line p).Returns s (output, q) s') :
    q.pending = p.pending := by
  rw [processDirective] at h
  split at h
  · cases hread : Directive.ofTokens line with
    | none =>
      rw [hread] at h
      exact absurd h not_returns_fail
    | some directive =>
      rw [hread] at h
      exact pending_of_obey h
  · split at h
    · cases h
      rfl
    · cases h
      rfl

/-- Text is gathered up to a directive. -/
theorem pending_eq_nil_of_isHash {line : List Token} {output : List OutputLine}
    (hhash : line.head?.any Token.isHash = true)
    (h : (processLine session nested line p).Returns s (output, q) s') : q.pending = [] := by
  cases line with
  | nil => cases hhash
  | cons first rest =>
    rw [processLine, List.head?_cons] at h
    dsimp only at h
    rw [if_pos (show first.isHash = true from hhash), flush_eq] at h
    obtain ⟨_, _, hflush, h⟩ := h.exists_of_bind
    obtain ⟨_, _, _, hflush⟩ := hflush.exists_of_bind
    cases hflush
    obtain ⟨_, _, hdirective, h⟩ := h.exists_of_bind
    cases h
    exact @pending_of_processDirective _ _ _ _ { p with pending := [] } _ _ _ _ hdirective

/-- A line is put with the text that is gathered, ends it, or leaves it as it is. -/
theorem pending_of_processLine {line : List Token} {output : List OutputLine}
    (h : (processLine session nested line p).Returns s (output, q) s') :
    q.pending = [] ∨ q.pending = p.pending ∨ line ≠ [] ∧ q.pending = line :: p.pending := by
  cases hhash : line.head?.any Token.isHash with
  | true => exact .inl (pending_eq_nil_of_isHash hhash h)
  | false =>
    cases line with
    | nil =>
      cases h
      exact .inr (.inl rfl)
    | cons first rest =>
      have hfirst : first.isHash = false := hhash
      rw [processLine, List.head?_cons] at h
      dsimp only at h
      rw [if_neg (by simp [hfirst])] at h
      split at h
      · cases h
        exact .inr (.inr ⟨List.cons_ne_nil first rest, rfl⟩)
      · cases h
        exact .inr (.inl rfl)

/-- The text that is gathered is made of lines that were processed. -/
theorem ComesTo.pending {depth : Nat} {file : SourceFile} {source : Bytes}
    {lines : List (List Token)} (h : ComesTo session depth file source s lines p s') :
    p.pending.reverse.Sublist lines ∧ ∀ line ∈ p.pending, line ≠ [] := by
  induction lines using List.reverseRecOn generalizing p s' with
  | nil =>
    obtain ⟨_, h⟩ := h
    obtain ⟨_, _, _, h⟩ := h.exists_of_bind
    cases h
    exact ⟨List.Sublist.refl _, List.forall_mem_nil _⟩
  | append_singleton lines line ih =>
    obtain ⟨q, s'', output, hbefore, hline⟩ := h.exists_of_append
    obtain ⟨hsublist, hne⟩ := ih hbefore
    rw [processLines_singleton] at hline
    rcases pending_of_processLine hline with hnil | hsame | ⟨hnil, hcons⟩
    · rw [hnil]
      exact ⟨List.nil_sublist _, List.forall_mem_nil _⟩
    · rw [hsame]
      exact ⟨hsublist.trans (List.sublist_append_left lines [line]), hne⟩
    · rw [hcons, List.reverse_cons]
      exact ⟨hsublist.append_right [line], List.forall_mem_cons.2 ⟨hnil, hne⟩⟩

/-! ## Lines of output of a file -/

/-- **Lines of output follow logical lines.** Wherever a run of a source is, if the text that is
gathered can be expanded, then the lines that it becomes are its expansion, none of them is empty,
and there is just one way to say of all tokens in them what tokens of the text they stand for. These
are in the order of the source, the positions of the tokens are theirs, and two tokens are on the
same line of output exactly if these are on the same logical line. -/
theorem followsLines_of_comesTo {depth : Nat} {file : SourceFile} {source : Bytes}
    {lines later : List (List Token)} {tokens : List Token}
    (hlines : Token.linesOf source (normalize source session.config.replaceTrigraphs) =
      lines ++ later)
    (h : ComesTo session depth file source s lines p s')
    (hexpand : (p.file.expander s'.macros).expand p.pending.reverse.flatten = .ok tokens) :
    (flush p).Returns s' (p.grouped tokens, { p with pending := [] }) s' ∧
      ∃ traced, traced.map Prod.fst = tokens ∧
        FollowsLines p.pending.reverse (p.grouped tokens) traced ∧
        ∀ other, (p.file.expander s'.macros).Carries (labelled p.pending.reverse) other ↔
          other = traced := by
  refine ⟨returns_flush hexpand, ?_⟩
  obtain ⟨hsublist, hne⟩ := h.pending
  have hrun : IsTextOf source session.config.replaceTrigraphs p.pending.reverse :=
    ⟨hlines ▸ hsublist.trans (List.sublist_append_left lines later),
      fun line hline => hne line (List.mem_reverse.1 hline)⟩
  have hlabelled := Output.map_fst_labelled p.pending.reverse
  rw [← hlabelled] at hexpand
  obtain ⟨traced, htraced⟩ := Expander.exists_carries hexpand
  obtain rfl : traced.map Prod.fst = tokens :=
    Except.ok.inj (htraced.expand_eq.symm.trans hexpand)
  exact ⟨traced, rfl, Output.followsLines_of_carries htraced hrun, fun other =>
    ⟨fun hother => hother.unique htraced, fun hother => hother ▸ htraced⟩⟩

/-! ## An invocation over two lines -/

/-- The parenthesis is closed on the second line. -/
def openInvocation : Bytes := Bytes.ofString "F(x\n) y\n"

/-- The macro `F(a)`, which is `a`. -/
def echoMacro : Macro :=
  ⟨Bytes.ofString "F", .function [Bytes.ofString "a"] false, [tokenAt .identifier "a" false 1 1]⟩

def openLines : List (List Token) :=
  [[tokenAt .identifier "F" false 1 1, tokenAt .punctuator "(" false 1 2,
      tokenAt .identifier "x" false 1 3],
    [tokenAt .punctuator ")" true 2 1, tokenAt .identifier "y" true 2 3]]

/-- What `x` is expanded to. -/
def echoedX : Token :=
  { tokenAt .identifier "x" false 1 1 with hidden := HideSet.insert (Bytes.ofString "F") ∅ }

theorem expand_openLines :
    (SourceFile.expander { name := inputName } ⟨[echoMacro]⟩).expand openLines.flatten =
      .ok [echoedX, tokenAt .identifier "y" true 2 3] := by
  let e := SourceFile.expander { name := inputName } ⟨[echoMacro]⟩
  have hx : e.expand [tokenAt .identifier "x" false 1 3] =
      .ok [tokenAt .identifier "x" false 1 3] := by
    rw [e.expand_plain rfl rfl, e.expand_nil]
    rfl
  have hi : Expander.invocation? 1 false (openLines.flatten.drop 1) =
      some ⟨[tokenAt .identifier "x" false 1 3], [], tokenAt .punctuator ")" true 2 1,
        [tokenAt .identifier "y" true 2 3]⟩ := rfl
  have hfit : fitArguments 1 false [[tokenAt .identifier "x" false 1 3]] =
      some [[tokenAt .identifier "x" false 1 3]] := rfl
  have hsubstitute : substitute echoMacro
      (Expander.argument [[tokenAt .identifier "x" false 1 3]])
      (fun index => e.expand (Expander.argument [[tokenAt .identifier "x" false 1 3]] index)) false
      echoMacro.replacement = .ok [.token (tokenAt .identifier "x" false 1 3)] := by
    show (do return argumentPieces _ false (← e.expand [tokenAt .identifier "x" false 1 3])) = _
    rw [hx]
    rfl
  show e.expand (tokenAt .identifier "F" false 1 1 :: openLines.flatten.drop 1) = _
  rw [e.expand_function rfl rfl hi hfit, hsubstitute]
  show e.expand [echoedX, tokenAt .identifier "y" true 2 3] = _
  rw [e.expand_plain rfl rfl, e.expand_plain rfl rfl, e.expand_nil]
  rfl

/-- The argument is moved to the first line, and what is behind the parenthesis stays on the
second. -/
theorem followsLines_openInvocation :
    Token.linesOf openInvocation (normalize openInvocation true) = openLines ++ [[]] ∧
      ComesTo { files := noFiles } 0 { name := inputName } openInvocation
        { macros := ⟨[echoMacro]⟩ } openLines
        { file := { name := inputName }, pending := openLines.reverse }
        { macros := ⟨[echoMacro]⟩ } ∧
      ∃ traced, FollowsLines openLines
        [[echoedX], [tokenAt .identifier "y" true 2 3]] traced := by
  have hlines : Token.linesOf openInvocation (normalize openInvocation true) =
      openLines ++ [[]] := by decide +kernel
  have hcomment : Lexeme.unterminatedComment (normalize openInvocation true) = none := by
    decide +kernel
  have hcomes : ComesTo { files := noFiles } 0 { name := inputName } openInvocation
      { macros := ⟨[echoMacro]⟩ } openLines
      { file := { name := inputName }, pending := openLines.reverse }
      { macros := ⟨[echoMacro]⟩ } :=
    ⟨[], (returns_warnUnterminatedComment hcomment).bind rfl⟩
  obtain ⟨-, traced, -, hfollows, -⟩ :=
    followsLines_of_comesTo (by exact hlines) hcomes expand_openLines
  exact ⟨hlines, hcomes, traced, hfollows⟩

end Session

end CPreprocessor
