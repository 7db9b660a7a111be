import CPreprocessor.Proofs.Session.Lines

/-!
# Well-formed conditionals

The groups of a file are well-formed if every conditional in them is closed and has nothing but the
`#endif` after its `#else` group. To skip a group is to check this and nothing else
(`skipGroup_eq_ok_iff`). No file with a group that is not well-formed, or with a line that continues
or closes no conditional, is processed to its end, whatever conditions hold in it
(`wellFormed_of_processToEnd`).
-/

namespace CPreprocessor

mutual

/-- Every conditional of a group is closed and has its `#else` group last. -/
def LineGroup.WellFormed : LineGroup → Prop
  | .nil => True
  | .text _ rest => rest.WellFormed
  | .directive _ _ rest => rest.WellFormed
  | .conditional _ _ first chain rest =>
    first.WellFormed ∧ chain.WellFormed false ∧ rest.WellFormed

/-- What is after a group of a conditional is well-formed. The flag tells whether that is the
`#else` group. -/
def GroupChain.WellFormed (seenElse : Bool) : GroupChain → Prop
  | .endOfFile => False
  | .endIf _ _ => True
  | .elifGroup _ _ group next => seenElse = false ∧ group.WellFormed ∧ next.WellFormed seenElse
  | .elseGroup _ _ group next => seenElse = false ∧ group.WellFormed ∧ next.WellFormed true

end

/-! ## Skipping -/

theorem andThen_eq_ok {x y : Except Fault Unit} :
    (do x; y) = .ok () ↔ x = .ok () ∧ y = .ok () := by
  cases x with
  | error fault => exact ⟨nofun, nofun⟩
  | ok _ => exact ⟨fun h => ⟨rfl, h⟩, fun h => h.2⟩

namespace Session

open SessionM

mutual

/-- **A group is skipped without an error if and only if it is well-formed.** -/
theorem skipGroup_eq_ok_iff (file : SourceFile) (group : LineGroup) :
    skipGroup file group = .ok () ↔ group.WellFormed := by
  cases group with
  | nil => simp only [skipGroup, LineGroup.WellFormed]
  | text lines rest =>
    rw [skipGroup, LineGroup.WellFormed]
    exact skipGroup_eq_ok_iff file rest
  | directive hash line rest =>
    rw [skipGroup, LineGroup.WellFormed]
    exact skipGroup_eq_ok_iff file rest
  | conditional hash line first chain rest =>
    rw [skipGroup, LineGroup.WellFormed, andThen_eq_ok, andThen_eq_ok,
      skipGroup_eq_ok_iff file first, skipChain_eq_ok_iff file _ false chain,
      skipGroup_eq_ok_iff file rest]

theorem skipChain_eq_ok_iff (file : SourceFile) (location : Location) (seenElse : Bool)
    (chain : GroupChain) :
    skipChain file location seenElse chain = .ok () ↔ chain.WellFormed seenElse := by
  cases chain with
  | endOfFile => simp only [skipChain, GroupChain.WellFormed, reduceCtorEq]
  | endIf hash line => simp only [skipChain, GroupChain.WellFormed]
  | elifGroup hash line group next =>
    rw [skipChain, GroupChain.WellFormed]
    cases seenElse with
    | true => exact ⟨nofun, nofun⟩
    | false =>
      simp only [Bool.false_eq_true, if_false, andThen_eq_ok, true_and]
      rw [skipGroup_eq_ok_iff file group, skipChain_eq_ok_iff file location false next]
  | elseGroup hash line group next =>
    rw [skipChain, GroupChain.WellFormed]
    cases seenElse with
    | true => exact ⟨nofun, nofun⟩
    | false =>
      simp only [Bool.false_eq_true, if_false, andThen_eq_ok, true_and]
      rw [skipGroup_eq_ok_iff file group, skipChain_eq_ok_iff file location true next]

end

end Session

/-! ## Processing -/

namespace SessionM

variable {α β : Type} {s s' : Session.State}

/-- A step succeeds and goes from one state to another. -/
def Returns (x : SessionM α) (s : Session.State) (a : α) (s' : Session.State) : Prop :=
  x.run.run s = (.ok a, s')

theorem Returns.exists_of_bind {x : SessionM α} {k : α → SessionM β} {b : β}
    (h : (x >>= k).Returns s b s') :
    ∃ a middle, x.Returns s a middle ∧ (k a).Returns middle b s' := by
  unfold Returns at h ⊢
  rw [ExceptT.run_bind, StateT.run_bind] at h
  cases hx : x.run.run s with
  | mk result middle =>
    cases result with
    | error fault =>
      rw [hx] at h
      cases h
    | ok a =>
      rw [hx] at h
      exact ⟨a, middle, rfl, h⟩

theorem not_returns_fail {cause : Cause} {location : Location} {a : α} :
    ¬ (fail cause location : SessionM α).Returns s a s' := nofun

theorem Returns.eq_ok {x : Except Fault α} {a : α} (h : (SessionM.ofExcept x).Returns s a s') :
    x = .ok a := by
  cases x with
  | error fault => cases h
  | ok a' =>
    cases h
    rfl

end SessionM

namespace Session

open SessionM

variable {session : Session} {nested : Option Inclusion}

theorem wellFormed_of_passChain {file : SourceFile} {location : Location} {seenElse : Bool}
    {chain : GroupChain} {s s' : State} (h : (passChain file location seenElse chain).Returns s () s') :
    chain.WellFormed seenElse := by
  cases chain with
  | endOfFile => exact absurd h not_returns_fail
  | endIf hash line => exact trivial
  | elifGroup hash line group next =>
    rw [passChain] at h
    cases seenElse with
    | true => cases h
    | false =>
      obtain ⟨_, _, hskip, h⟩ := h.exists_of_bind
      exact ⟨rfl, (skipGroup_eq_ok_iff file group).1 hskip.eq_ok, wellFormed_of_passChain h⟩
  | elseGroup hash line group next =>
    rw [passChain] at h
    cases seenElse with
    | true => cases h
    | false =>
      obtain ⟨_, _, _, h⟩ := h.exists_of_bind
      obtain ⟨_, _, hskip, h⟩ := h.exists_of_bind
      exact ⟨rfl, (skipGroup_eq_ok_iff file group).1 hskip.eq_ok, wellFormed_of_passChain h⟩

mutual

/-- No group is processed to its end that is not well-formed. -/
theorem wellFormed_of_processGroup {group : LineGroup} {file : SourceFile}
    {result : List OutputLine × SourceFile} {s s' : State}
    (h : (processGroup session nested group file).Returns s result s') : group.WellFormed := by
  cases group with
  | nil => exact trivial
  | text lines rest =>
    rw [processGroup] at h
    obtain ⟨_, _, _, h⟩ := h.exists_of_bind
    obtain ⟨_, _, h, _⟩ := h.exists_of_bind
    rw [LineGroup.WellFormed]
    exact wellFormed_of_processGroup h
  | directive hash line rest =>
    rw [processGroup] at h
    obtain ⟨_, _, _, h⟩ := h.exists_of_bind
    obtain ⟨_, _, h, _⟩ := h.exists_of_bind
    rw [LineGroup.WellFormed]
    exact wellFormed_of_processGroup h
  | conditional hash line first chain rest =>
    rw [processGroup_conditional] at h
    obtain ⟨_, _, hselected, h⟩ := h.exists_of_bind
    obtain ⟨_, _, hrest, _⟩ := h.exists_of_bind
    obtain ⟨holds, _, _, hselected⟩ := hselected.exists_of_bind
    cases holds with
    | true =>
      obtain ⟨_, _, hfirst, h⟩ := hselected.exists_of_bind
      obtain ⟨_, _, hchain, _⟩ := h.exists_of_bind
      exact ⟨wellFormed_of_processGroup hfirst, wellFormed_of_passChain hchain,
        wellFormed_of_processGroup hrest⟩
    | false =>
      obtain ⟨_, _, hskip, hchain⟩ := hselected.exists_of_bind
      exact ⟨(skipGroup_eq_ok_iff file first).1 hskip.eq_ok, wellFormed_of_processChain hchain,
        wellFormed_of_processGroup hrest⟩

theorem wellFormed_of_processChain {location : Location} {chain : GroupChain} {file : SourceFile}
    {result : List OutputLine × SourceFile} {s s' : State}
    (h : (processChain session nested location chain file).Returns s result s') :
    chain.WellFormed false := by
  cases chain with
  | endOfFile =>
    rw [processChain] at h
    exact absurd h not_returns_fail
  | endIf hash line => exact trivial
  | elifGroup hash line group next =>
    rw [processChain] at h
    obtain ⟨holds, _, _, h⟩ := h.exists_of_bind
    cases holds with
    | true =>
      obtain ⟨_, _, hgroup, h⟩ := h.exists_of_bind
      obtain ⟨_, _, hnext, _⟩ := h.exists_of_bind
      exact ⟨rfl, wellFormed_of_processGroup hgroup, wellFormed_of_passChain hnext⟩
    | false =>
      obtain ⟨_, _, hskip, h⟩ := h.exists_of_bind
      exact ⟨rfl, (skipGroup_eq_ok_iff file group).1 hskip.eq_ok, wellFormed_of_processChain h⟩
  | elseGroup hash line group next =>
    rw [processChain] at h
    obtain ⟨_, _, _, h⟩ := h.exists_of_bind
    obtain ⟨_, _, hgroup, h⟩ := h.exists_of_bind
    obtain ⟨_, _, hnext, _⟩ := h.exists_of_bind
    exact ⟨rfl, wellFormed_of_processGroup hgroup, wellFormed_of_passChain hnext⟩

end

/-- **A file that is processed to its end is one group that is well-formed.** -/
theorem wellFormed_of_processToEnd {lines : List (List Token)} {file : SourceFile}
    {output : List OutputLine} {s s' : State}
    (h : (processToEnd session nested lines { file }).Returns s output s') :
    ∃ group, outline lines = .last group ∧ group.WellFormed := by
  rw [processToEnd_eq, processFrom_eq_processOutline] at h
  cases houtline : outline lines with
  | last group =>
    rw [houtline, processOutline] at h
    obtain ⟨_, _, h, _⟩ := h.exists_of_bind
    exact ⟨group, rfl, wellFormed_of_processGroup h⟩
  | upTo group boundary hash line after =>
    rw [houtline, processOutline] at h
    obtain ⟨_, _, _, h⟩ := h.exists_of_bind
    exact absurd h not_returns_fail

end Session

end CPreprocessor
