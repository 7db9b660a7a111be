import CPreprocessor.Proofs.Session.Presets

/-!
# The start of a session

A session starts by processing the directives of its configuration as one source. Each of them
defines its macro as the value that it is given, whatever the others are (`definesAs_of_start`), as
long as no value goes on over the end of its line. One that ends in a backslash, or that opens a
comment, can take the next definition into itself (`not_forall_definesAs`).
-/

namespace CPreprocessor

open Ascii

/-! ## The directives of a configuration -/

/-- The text of the value, which is one if there is none. -/
def PresetMacro.valueBytes (m : PresetMacro) : Bytes := Bytes.ofString (m.value.getD "1")

/-- The directive that defines the macro. -/
def PresetMacro.toPreset (m : PresetMacro) : Preset := ⟨Bytes.ofString m.name, some m.valueBytes⟩

/-- The directive that removes the macro of the given name. -/
def Preset.removal (name : String) : Preset := ⟨Bytes.ofString name, none⟩

namespace Config

open Source

/-- The directives that a session starts with. -/
def steps (config : Config) : List Preset :=
  config.presets.map PresetMacro.toPreset ++ config.undefined.map Preset.removal

theorem ofString_directives (config : Config) :
    Bytes.ofString config.directives = unlines (config.steps.map Preset.source) := by
  have hdefine (m : PresetMacro) :
      Bytes.ofString m.directive = m.toPreset.source ++ [newline] := by
    rw [PresetMacro.directive, Bytes.ofString_append, Bytes.ofString_append, Bytes.ofString_append,
      Bytes.ofString_append, Preset.source, Preset.rest, Preset.keyword, PresetMacro.toPreset]
    simp only [List.cons_append, List.append_assoc]
    rfl
  have hundefine (name : String) : Bytes.ofString ("#undef " ++ name ++ "\n") =
      (Preset.removal name).source ++ [newline] := by
    rw [Bytes.ofString_append, Bytes.ofString_append, Preset.source, Preset.rest, Preset.keyword,
      Preset.removal]
    simp only [List.cons_append, List.append_assoc, List.nil_append]
    rfl
  rw [directives, Bytes.ofString_join, unlines, steps, List.map_append, List.flatMap_append,
    List.flatMap_append, List.map_map, List.map_map, List.flatMap_map, List.flatMap_map,
    List.flatMap_map, List.flatMap_map]
  exact congrArg₂ (· ++ ·) (List.flatMap_congr fun m _ => hdefine m)
    (List.flatMap_congr fun name _ => hundefine name)

/-- The names are identifiers that directives may define, and all of them are distinct. The values
are of one line each and have no quotes, nor, after phases 1 and 2, `#` or `%`. -/
structure IsPlain (config : Config) : Prop where
  name_mem : ∀ m ∈ config.presets, Bytes.ofString m.name ∈ Lexeme.identifiers
  not_reserved : ∀ m ∈ config.presets, Bytes.ofString m.name ∉ MacroTable.reservedNames
  nodup : (config.presets.map PresetMacro.name).Nodup
  value_notMem : ∀ m ∈ config.presets, ∀ b ∈ m.valueBytes,
    b ∉ [newline, carriageReturn, singleQuote, doubleQuote]
  normalize_notMem : ∀ m ∈ config.presets,
    ∀ b ∈ (normalize m.valueBytes config.replaceTrigraphs).bytes, b ∉ Bytes.ofString "#%"
  undefined_mem : ∀ name ∈ config.undefined, Bytes.ofString name ∈ Lexeme.identifiers
  undefined_notMem : ∀ name ∈ config.undefined, name ∉ config.presets.map PresetMacro.name

variable {config : Config}

theorem IsPlain.isPlain_of_mem_steps (h : config.IsPlain) :
    ∀ p ∈ config.steps, p.IsPlain config.replaceTrigraphs := by
  intro p hp
  rcases List.mem_append.1 hp with hp | hp
  · obtain ⟨m, hm, rfl⟩ := List.mem_map.1 hp
    refine ⟨h.name_mem m hm, fun value hvalue hmem => ?_, fun value hvalue => ?_⟩
    · obtain rfl := Option.some.inj hvalue
      exact h.value_notMem m hm newline hmem List.mem_cons_self
    · obtain rfl := Option.some.inj hvalue
      exact h.normalize_notMem m hm
  · obtain ⟨name, hname, rfl⟩ := List.mem_map.1 hp
    exact ⟨h.undefined_mem name hname, fun _ hvalue => (Option.not_mem_none _ hvalue).elim,
      fun _ hvalue => (Option.not_mem_none _ hvalue).elim⟩

/-- No name is defined twice, or defined and removed. -/
theorem IsPlain.pairwise_steps (h : config.IsPlain) :
    config.steps.Pairwise fun p later => p.value.isSome = true → p.name ≠ later.name := by
  rw [steps, List.pairwise_append]
  refine ⟨?_, ?_, ?_⟩
  · rw [List.pairwise_map]
    refine (List.pairwise_map.1 h.nodup).imp fun hne _ hname => hne ?_
    exact Bytes.ofString_injective hname
  · refine List.pairwise_map.2 (List.pairwise_of_forall fun _ _ hvalue => ?_)
    cases hvalue
  · intro p hp later hlater _ hname
    obtain ⟨m, hm, rfl⟩ := List.mem_map.1 hp
    obtain ⟨name, hremoved, rfl⟩ := List.mem_map.1 hlater
    refine h.undefined_notMem name hremoved (List.mem_map.2 ⟨m, hm, ?_⟩)
    exact Bytes.ofString_injective hname

/-- Directives stand apart if their values do. -/
theorem IsPlain.standApart (h : config.IsPlain)
    (hapart : StandApart config.replaceTrigraphs (config.presets.map PresetMacro.valueBytes)) :
    StandApart config.replaceTrigraphs (config.steps.map Preset.source) where
  newline_notMem line hline := by
    obtain ⟨p, hp, rfl⟩ := List.mem_map.1 hline
    exact (h.isPlain_of_mem_steps p hp).newline_notMem_source
  not_splice line hline splice hsplice hsuffix := by
    obtain ⟨p, hp, rfl⟩ := List.mem_map.1 hline
    obtain ⟨value, hvalue, hsuffix⟩ :=
      (h.isPlain_of_mem_steps p hp).exists_suffix hsplice hsuffix
    rcases List.mem_append.1 hp with hp | hp
    · obtain ⟨m, hm, rfl⟩ := List.mem_map.1 hp
      obtain rfl := Option.some.inj hvalue
      exact hapart.not_splice _ (List.mem_map_of_mem hm) splice hsplice hsuffix
    · obtain ⟨name, -, rfl⟩ := List.mem_map.1 hp
      cases hvalue
  closed := by
    have hvalues : config.steps.Pairwise fun p later => ∀ value ∈ p.value,
        ∀ value' ∈ later.value, CommentsApart config.replaceTrigraphs value value' := by
      rw [steps, List.pairwise_append]
      refine ⟨?_, ?_, ?_⟩
      · refine List.pairwise_map.2 ((List.pairwise_map.1 hapart.closed).imp ?_)
        intro m later hclosed value hvalue value' hvalue'
        obtain rfl := Option.some.inj hvalue
        obtain rfl := Option.some.inj hvalue'
        exact hclosed
      · refine List.pairwise_map.2 (List.pairwise_of_forall fun _ _ value hvalue => ?_)
        cases hvalue
      · intro p _ later hlater _ _ value' hvalue'
        obtain ⟨name, -, rfl⟩ := List.mem_map.1 hlater
        cases hvalue'
    have hplain := h.isPlain_of_mem_steps
    refine List.pairwise_map.2 (hvalues.imp_of_mem fun hp hlater hvalues => ?_)
    exact (hplain _ hp).commentsApart (hplain _ hlater) hvalues

/-- The lines of the directives are the directives. -/
theorem IsPlain.exists_readsAs (h : config.IsPlain)
    (hapart : StandApart config.replaceTrigraphs (config.presets.map PresetMacro.valueBytes)) :
    ∃ lines, Token.linesOf (Bytes.ofString config.directives)
        (normalize (Bytes.ofString config.directives) config.replaceTrigraphs) = lines ++ [[]] ∧
      List.Forall₂ (Preset.ReadsAs config.replaceTrigraphs) config.steps lines := by
  have hshapes := Token.shape_linesOf_unlines (h.standApart hapart)
  rw [← ofString_directives, List.map_map] at hshapes
  obtain ⟨lines, _, hlines, hfirst, hlast⟩ := List.map_eq_append_iff.1 hshapes
  obtain ⟨line, rfl, hline⟩ := List.map_eq_singleton_iff.1 hlast
  obtain rfl : line = [] := List.map_eq_nil_iff.1 (congrArg Prod.fst hline)
  exact ⟨lines, hlines, Preset.forall₂_readsAs h.isPlain_of_mem_steps hfirst⟩

end Config

namespace Session

open SessionM Source

/-- **Definitions of a configuration do not interfere.** When a session starts, every name is defined
as the value that it is given, if no value goes on over the end of its line. -/
theorem definesAs_of_start {session : Session} (hplain : session.config.IsPlain)
    (hapart : StandApart session.config.replaceTrigraphs
      (session.config.presets.map PresetMacro.valueBytes))
    {s : State} (h : session.start.Returns {} () s) :
    ∀ m ∈ session.config.presets, DefinesAs session.config.replaceTrigraphs s.macros
      (Bytes.ofString m.name) m.valueBytes := by
  obtain ⟨lines, hlines, hreads⟩ := hplain.exists_readsAs hapart
  obtain ⟨output, _, hrun, hend⟩ := h.exists_of_bind
  cases hend
  rw [preprocessBytes, runSource_eq] at hrun
  obtain ⟨_, _, -, hfile⟩ := hrun.exists_of_bind
  rw [hlines] at hfile
  intro m hm
  refine (obeys_of_processToEnd hreads hfile).2 hplain.pairwise_steps m.toPreset ?_ _ rfl
  exact List.mem_append_left _ (List.mem_map_of_mem hm)

/-! ## Two configurations -/

section

variable {session : Session}

/-- A directive that gives out nothing leaves the next line to be processed. -/
theorem returns_processLines_cons {nested : Option Inclusion} {hash : Token} {tokens : List Token}
    {lines : List (List Token)} {file : SourceFile} {p : Progress} {s middle s' : State}
    (hhash : hash.isHash = true)
    (hdirective : (processDirective session nested hash (hash :: tokens) { file }).Returns s
      ([], { file }) middle)
    (hlines : (processLines session nested lines { file }).Returns middle ([], p) s') :
    (processLines session nested ((hash :: tokens) :: lines) { file }).Returns s ([], p) s' := by
  have hflush : (flush { file }).Returns s ([], { file }) s :=
    returns_flush (p := { file }) (Expander.expand_nil _)
  have hline : (processLine session nested (hash :: tokens) { file }).Returns s ([], { file })
      middle := by
    rw [processLine, List.head?_cons]
    dsimp only
    rw [if_pos hhash]
    exact hflush.bind (hdirective.bind rfl)
  exact hline.bind (hlines.bind rfl)

/-- A session has started if the directives of its configuration are processed. -/
theorem returns_start_of_processLines {lines : List (List Token)} {s : State}
    (hlines : Token.linesOf (Bytes.ofString session.config.directives)
      (normalize (Bytes.ofString session.config.directives) session.config.replaceTrigraphs) = lines)
    (hcomment : Lexeme.unterminatedComment (normalize (Bytes.ofString session.config.directives)
      session.config.replaceTrigraphs) = none)
    (hrun : ∀ nested, (processLines session nested lines
      { file := { name := configurationName } }).Returns {}
        ([], { file := { name := configurationName } }) s) :
    session.start.Returns {} () s :=
  (returns_preprocessBytes session hlines hcomment hrun (Expander.expand_nil _) rfl).bind rfl

end

/-- Two names are defined, the second one by the first, and a third one is removed. -/
def apartConfig : Config where
  presets := [⟨"A", none⟩, ⟨"B", some "(A)"⟩]
  undefined := ["C"]

/-- The first value ends in a backslash. -/
def splicedConfig : Config where
  presets := [⟨"A", some "1 \\"⟩, ⟨"B", some "2"⟩]

theorem isPlain_apartConfig : apartConfig.IsPlain where
  name_mem m hm := (Lexeme.Kind.accepts_iff .identifier _).1 (by
    revert m
    decide +kernel)
  not_reserved := by decide +kernel
  nodup := by decide
  value_notMem := by decide +kernel
  normalize_notMem := by decide +kernel
  undefined_mem name hname := (Lexeme.Kind.accepts_iff .identifier _).1 (by
    revert name
    decide +kernel)
  undefined_notMem := by decide

theorem isPlain_splicedConfig : splicedConfig.IsPlain where
  name_mem m hm := (Lexeme.Kind.accepts_iff .identifier _).1 (by
    revert m
    decide +kernel)
  not_reserved := by decide +kernel
  nodup := by decide
  value_notMem := by decide +kernel
  normalize_notMem := by decide +kernel
  undefined_mem := by simp [splicedConfig]
  undefined_notMem := by simp [splicedConfig]

theorem standApart_apartConfig :
    StandApart true (apartConfig.presets.map PresetMacro.valueBytes) where
  newline_notMem := by decide
  not_splice := by
    intro line hline
    obtain ⟨front, b, rfl, hb⟩ : ∃ front b, line = front ++ [b] ∧
        b ∉ [backslash, slash, carriageReturn] := by
      rcases List.mem_pair.1 hline with rfl | rfl
      · exact ⟨[], 0x31, by decide, by decide⟩
      · exact ⟨[openParen, 0x41], closeParen, by decide, by decide⟩
    rw [List.append_assoc]
    exact not_splice_suffix hb front
  closed := by
    have hnone : ∀ value ∈ apartConfig.presets.map PresetMacro.valueBytes,
        Lexeme.unterminatedComment (normalize value true) = none := by decide +kernel
    exact List.pairwise_of_forall_mem_list fun value hvalue _ _ => .inl (hnone value hvalue)

/-- The macros of the two names. -/
def apartMacros : MacroTable :=
  (MacroTable.predefined.insert ⟨Bytes.ofString "A", .object,
    [tokenAt .number "1" true 1 11]⟩).insert ⟨Bytes.ofString "B", .object,
      [tokenAt .punctuator "(" true 2 11, tokenAt .identifier "A" false 2 12,
        tokenAt .punctuator ")" false 2 13]⟩

theorem returns_start_apartConfig (files : FileSystem) :
    (start { files, config := apartConfig }).Returns {} () { macros := apartMacros } := by
  have hlines : Token.linesOf (Bytes.ofString apartConfig.directives)
      (normalize (Bytes.ofString apartConfig.directives) true) =
        [[tokenAt .punctuator "#" false 1 1, tokenAt .identifier "define" false 1 2,
          tokenAt .identifier "A" true 1 9, tokenAt .number "1" true 1 11],
        [tokenAt .punctuator "#" true 2 1, tokenAt .identifier "define" false 2 2,
          tokenAt .identifier "B" true 2 9, tokenAt .punctuator "(" true 2 11,
          tokenAt .identifier "A" false 2 12, tokenAt .punctuator ")" false 2 13],
        [tokenAt .punctuator "#" true 3 1, tokenAt .identifier "undef" false 3 2,
          tokenAt .identifier "C" true 3 8], []] := by decide +kernel
  have hcomment : Lexeme.unterminatedComment
      (normalize (Bytes.ofString apartConfig.directives) true) = none := by decide +kernel
  refine returns_start_of_processLines hlines hcomment fun nested => ?_
  refine returns_processLines_cons (by decide) rfl ?_
  refine returns_processLines_cons (by decide) rfl ?_
  exact returns_processLines_cons (by decide) rfl rfl

/-- Both names are defined as their own values. -/
theorem definesAs_apartConfig :
    DefinesAs true apartMacros (Bytes.ofString "A") (Bytes.ofString "1") ∧
      DefinesAs true apartMacros (Bytes.ofString "B") (Bytes.ofString "(A)") := by
  have hdefines := @definesAs_of_start { files := noFiles, config := apartConfig }
    isPlain_apartConfig standApart_apartConfig _ (returns_start_apartConfig noFiles)
  exact ⟨hdefines _ List.mem_cons_self, hdefines _ (List.mem_cons_of_mem _ List.mem_cons_self)⟩

/-- The second directive is in the replacement of the first name. -/
def splicedMacros : MacroTable :=
  MacroTable.predefined.insert ⟨Bytes.ofString "A", .object,
    [tokenAt .number "1" true 1 11, tokenAt .punctuator "#" true 2 1,
      tokenAt .identifier "define" false 2 2, tokenAt .identifier "B" true 2 9,
      tokenAt .number "2" true 2 11]⟩

theorem returns_start_splicedConfig (files : FileSystem) :
    (start { files, config := splicedConfig }).Returns {} () { macros := splicedMacros } := by
  have hlines : Token.linesOf (Bytes.ofString splicedConfig.directives)
      (normalize (Bytes.ofString splicedConfig.directives) true) =
        [[tokenAt .punctuator "#" false 1 1, tokenAt .identifier "define" false 1 2,
          tokenAt .identifier "A" true 1 9, tokenAt .number "1" true 1 11,
          tokenAt .punctuator "#" true 2 1, tokenAt .identifier "define" false 2 2,
          tokenAt .identifier "B" true 2 9, tokenAt .number "2" true 2 11], []] := by decide +kernel
  have hcomment : Lexeme.unterminatedComment
      (normalize (Bytes.ofString splicedConfig.directives) true) = none := by decide +kernel
  refine returns_start_of_processLines hlines hcomment fun nested => ?_
  exact returns_processLines_cons (by decide) rfl rfl

/-- **A value that ends in a backslash takes the next definition away.** -/
theorem not_forall_definesAs_of_start :
    ¬ ∀ (session : Session) (s : State), session.config.IsPlain → session.start.Returns {} () s →
      ∀ m ∈ session.config.presets, DefinesAs session.config.replaceTrigraphs s.macros
        (Bytes.ofString m.name) m.valueBytes := by
  intro h
  obtain ⟨m, hlookup, -⟩ := h { files := noFiles, config := splicedConfig } _ isPlain_splicedConfig
    (returns_start_splicedConfig noFiles) ⟨"B", some "2"⟩
    (List.mem_cons_of_mem _ List.mem_cons_self)
  have hnone : splicedMacros.lookup (Bytes.ofString "B") = none := by decide +kernel
  exact absurd (hnone.symm.trans hlookup) nofun

end Session

end CPreprocessor
