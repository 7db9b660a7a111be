import CPreprocessor.Proofs.Lexeme.Directive
import CPreprocessor.Proofs.Session.Reading
import CPreprocessor.Proofs.Token.Joined

/-!
# The directives of a configuration

A macro of a configuration is defined by a line that is written around its value, and undefined by a
line without one (`Preset.source`). Such a line has the tokens of the directive and those that the
value has alone (`Preset.IsPlain.readsAs`), so that is what the name is defined as when the line is
processed, and no other name changes (`Session.exists_obeys_of_processToEnd`). A run over several of
them, one step after the other, leaves every name as the last of them said
(`Session.obeys_of_processToEnd`).
-/

namespace CPreprocessor

open Ascii

/-! ## Texts -/

namespace Bytes

theorem ofString_injective : Function.Injective ofString := by
  intro s t h
  have hbytes (s : String) : s.toByteArray = (ofString s).toByteArray := by
    rw [ofString, ← List.utf8Encode, String.utf8Encode_toList]
  exact String.toByteArray_inj.1 (by rw [hbytes, hbytes, h])

theorem ofString_join (strings : List String) :
    ofString (String.join strings) = strings.flatMap ofString := by
  rw [ofString, String.toList_join, List.flatMap_assoc]
  rfl

end Bytes

/-! ## Directives of a configuration -/

/-- A directive that defines a name as the given value, or that removes its definition. -/
structure Preset where
  name : Bytes
  value : Option Bytes

namespace Preset

open Source Lexeme

def keyword (p : Preset) : Bytes :=
  match p.value with
  | some _ => Bytes.ofString "define"
  | none => Bytes.ofString "undef"

/-- What is behind the name. -/
def rest (p : Preset) : Bytes :=
  match p.value with
  | some value => space :: value
  | none => []

/-- The line of the directive. -/
def source (p : Preset) : Bytes := hash :: (p.keyword ++ space :: (p.name ++ p.rest))

/-- The directive after phases 1 and 2. -/
def normalized (p : Preset) (trigraphs : Bool) : Preset :=
  { p with value := p.value.map fun value => (normalize value trigraphs).bytes }

theorem isMacroKeyword_keyword (p : Preset) : IsMacroKeyword p.keyword := by
  rw [keyword]
  split
  · exact List.mem_cons_self
  · exact List.mem_cons_of_mem _ List.mem_cons_self

/-- The name is an identifier. The value is of one line, and does not begin a directive anywhere. -/
structure IsPlain (trigraphs : Bool) (p : Preset) : Prop where
  name_mem : p.name ∈ identifiers
  newline_notMem : ∀ value ∈ p.value, newline ∉ value
  notMem : ∀ value ∈ p.value, ∀ b ∈ (normalize value trigraphs).bytes, b ∉ Bytes.ofString "#%"

section

variable {trigraphs : Bool} {p q : Preset}

theorem IsPlain.notMem_name (h : p.IsPlain trigraphs) {b : UInt8} (hb : isBody b = false) :
    b ∉ p.name := by
  intro hmem
  rw [uses_identifiers _ h.name_mem b hmem] at hb
  cases hb

theorem notMem_keyword (p : Preset) {b : UInt8} (hb : isBody b = false) : b ∉ p.keyword := by
  have hkeywords : ∀ keyword ∈ [Bytes.ofString "define", Bytes.ofString "undef"],
      ∀ b ∈ keyword, isBody b = true := by decide +kernel
  intro hmem
  rw [hkeywords _ p.isMacroKeyword_keyword b hmem] at hb
  cases hb

theorem IsPlain.newline_notMem_source (h : p.IsPlain trigraphs) : newline ∉ p.source := by
  have hrest : newline ∉ p.rest := by
    rw [rest]
    cases hvalue : p.value with
    | none => exact List.not_mem_nil
    | some value =>
      exact List.not_mem_cons_of_ne_of_not_mem (by decide) (h.newline_notMem value hvalue)
  have hkeyword : newline ∉ hash :: p.keyword :=
    List.not_mem_cons_of_ne_of_not_mem (by decide) (p.notMem_keyword (by decide))
  have hbehind : newline ∉ space :: (p.name ++ p.rest) := by
    refine List.not_mem_cons_of_ne_of_not_mem (by decide) fun hmem => ?_
    exact (List.mem_append.1 hmem).elim (h.notMem_name (by decide)) hrest
  have hsource : p.source = (hash :: p.keyword) ++ space :: (p.name ++ p.rest) := rfl
  rw [hsource, List.mem_append]
  exact fun hmem => hmem.elim hkeyword hbehind

/-- The two phases change nothing but the value. -/
theorem IsPlain.bytes_normalize (h : p.IsPlain trigraphs) :
    (normalize p.source trigraphs).bytes = (p.normalized trigraphs).source := by
  have hnewline : newline ∉ (hash :: p.keyword) ++ space :: (p.name ++ p.rest) :=
    h.newline_notMem_source
  have hkeyword : question ∉ hash :: p.keyword :=
    List.not_mem_cons_of_ne_of_not_mem (by decide) (p.notMem_keyword (by decide))
  have hname : question ∉ p.name := h.notMem_name (by decide)
  have hrest : (normalize (p.name ++ p.rest) trigraphs).bytes =
      p.name ++ (p.normalized trigraphs).rest := by
    have hnewline' : newline ∉ p.name ++ p.rest := fun hmem => hnewline (by simp [hmem])
    rw [rest, rest, normalized]
    rw [rest] at hnewline'
    cases hvalue : p.value with
    | none =>
      rw [hvalue] at hnewline'
      exact bytes_normalize_of_notMem (by simpa using hname) hnewline' trigraphs
    | some value =>
      rw [hvalue] at hnewline'
      exact bytes_normalize_append_space hname hnewline' trigraphs
  have hkeyword' : (p.normalized trigraphs).keyword = p.keyword := by
    rw [keyword, keyword, normalized]
    cases p.value <;> rfl
  rw [source, ← List.cons_append, bytes_normalize_append_space hkeyword hnewline, hrest, source,
    hkeyword']
  rfl

/-! ## Their tokens -/

/-- What is behind the name is behind a space. -/
theorem follows_rest (p : Preset) : Follows p.name p.rest := by
  rw [rest]
  cases p.value with
  | none => exact .nil p.name
  | some value => exact .gap p.name value

/-- The pieces of the directive: its own ones, and those of the value. -/
theorem IsPlain.pieces_source (h : p.IsPlain trigraphs) :
    pieces (normalize p.source trigraphs).bytes =
      .lexeme .punctuator [hash] :: .lexeme .identifier p.keyword :: .blank space ::
        .lexeme .identifier p.name :: piecesFrom .any (p.normalized trigraphs).rest := by
  have hkeyword : (p.normalized trigraphs).keyword = p.keyword := by
    rw [keyword, keyword, normalized]
    cases p.value <;> rfl
  have hpieces := pieces_directive (p.normalized trigraphs).isMacroKeyword_keyword h.name_mem
    (p.normalized trigraphs).follows_rest
  rw [h.bytes_normalize, source, ← hkeyword]
  exact hpieces

/-- The value is cut into pieces as it is alone. -/
theorem IsPlain.pieces_rest (h : p.IsPlain trigraphs) {value : Bytes} (hvalue : p.value = some value) :
    piecesFrom .any (p.normalized trigraphs).rest =
      .blank space :: pieces (normalize value trigraphs).bytes := by
  have hrest : (p.normalized trigraphs).rest = space :: (normalize value trigraphs).bytes := by
    rw [rest, normalized, hvalue]
    rfl
  rw [hrest, piecesFrom_space, piecesFrom_any (h.notMem value hvalue)
    (Token.newline_notMem_normalize (h.newline_notMem value hvalue) trigraphs)]

/-- A line of tokens is the directive, with the tokens that its value has alone. -/
def ReadsAs (trigraphs : Bool) (p : Preset) (line : List Token) : Prop :=
  ∃ hash keyword name rest, line = hash :: keyword :: name :: rest ∧
    hash.word = (.punctuator, Bytes.ofString "#") ∧ keyword.word = (.identifier, p.keyword) ∧
    name.word = (.identifier, p.name) ∧ ∀ value ∈ p.value,
      rest.map Token.word =
        (Token.linesOf value (normalize value trigraphs)).flatten.map Token.word ∧
      ∀ t ∈ rest.head?, t.spaced = true

/-- The line of a directive among others is that directive. -/
theorem IsPlain.readsAs (h : p.IsPlain trigraphs) {line : List Token}
    (hline : Token.shape line =
      Token.shape (Token.linesOf p.source (normalize p.source trigraphs)).flatten) :
    p.ReadsAs trigraphs line := by
  have hlines := Token.map_shape_linesOf p.source (normalize p.source trigraphs) [] false
  rw [Token.linesOf_eq_singleton h.newline_notMem_source, h.pieces_source, List.map_singleton,
    ← hline] at hlines
  replace hline := (List.cons.inj hlines).1
  simp only [linesFrom_lexeme, linesFrom_blank, List.drop_nil, reduceCtorEq, if_false,
    (by decide : space ≠ newline), List.headD_nil] at hline
  obtain ⟨hwords, hspaced⟩ := Prod.mk.inj hline
  obtain ⟨hash, _, rfl, hhash, hwords⟩ := List.map_eq_cons_iff.1 hwords
  obtain ⟨keyword, _, rfl, hkeyword, hwords⟩ := List.map_eq_cons_iff.1 hwords
  obtain ⟨name, rest, rfl, hname, hwords⟩ := List.map_eq_cons_iff.1 hwords
  obtain ⟨-, hspaced⟩ := List.cons.inj hspaced
  obtain ⟨-, hspaced⟩ := List.cons.inj hspaced
  refine ⟨hash, keyword, name, rest, rfl, hhash, hkeyword, hname, fun value hvalue => ?_⟩
  rw [h.pieces_rest hvalue, linesFrom_blank, if_neg (by decide), List.drop_nil] at hwords hspaced
  constructor
  · -- the value has these tokens wherever it stands
    have halone := Token.map_shape_linesOf value (normalize value trigraphs) [] true
    rw [Token.linesOf_eq_singleton (h.newline_notMem value hvalue), List.map_singleton] at halone
    rw [hwords]
    exact (congrArg Prod.fst (List.cons.inj halone).1).symm
  · intro t ht
    obtain ⟨later, rfl⟩ := List.head?_eq_some_iff.1 ht
    obtain ⟨u, _, htokens, hu, -⟩ := List.map_eq_cons_iff.1 hspaced.symm
    rw [← hu]
    exact spaced_of_mem_head? [] _ u (congrArg List.head? htokens)

/-- The lines of some directives are these directives. -/
theorem forall₂_readsAs {presets : List Preset} (h : ∀ p ∈ presets, p.IsPlain trigraphs)
    {lines : List (List Token)} (hlines : lines.map Token.shape = presets.map fun p =>
      Token.shape (Token.linesOf p.source (normalize p.source trigraphs)).flatten) :
    List.Forall₂ (ReadsAs trigraphs) presets lines := by
  induction presets generalizing lines with
  | nil =>
    obtain rfl := List.map_eq_nil_iff.1 hlines
    exact .nil
  | cons p presets ih =>
    obtain ⟨hp, hpresets⟩ := List.forall_mem_cons.1 h
    obtain ⟨line, lines, rfl, hline, hlines⟩ := List.map_eq_cons_iff.1 hlines
    exact .cons (hp.readsAs hline) (ih hpresets hlines)

/-! ## Their lines -/

/-- Nothing is opened before the value. -/
theorem IsPlain.unterminatedComment_eq_none (h : p.IsPlain trigraphs)
    (hvalue : ∀ value ∈ p.value, unterminatedComment (normalize value trigraphs) = none) :
    unterminatedComment (normalize p.source trigraphs) = none := by
  have hkeyword : p.keyword ≠ [slash] := fun heq =>
    p.notMem_keyword (b := slash) (by decide) (heq ▸ List.mem_cons_self)
  have hname : p.name ≠ [slash] := fun heq =>
    h.notMem_name (b := slash) (by decide) (heq ▸ List.mem_cons_self)
  rw [unterminatedComment_eq_none_iff, h.pieces_source]
  intro hlone
  have hrest := (((hlone.tail (by decide)).tail hkeyword).tail (by decide)).tail hname
  cases hv : p.value with
  | none =>
    have hnil : (p.normalized trigraphs).rest = [] := by
      rw [rest, normalized, hv]
      rfl
    rw [hnil, piecesFrom] at hrest
    exact not_hasLoneSlash_nil hrest
  | some value =>
    rw [h.pieces_rest hv] at hrest
    exact (unterminatedComment_eq_none_iff _).1 (hvalue value hv) (hrest.tail (by decide))

/-- Only a value can close a comment. -/
theorem IsPlain.exists_infix (h : p.IsPlain trigraphs)
    (hclosed : [star, slash] <:+: (normalize p.source trigraphs).bytes) :
    ∃ value ∈ p.value, [star, slash] <:+: (normalize value trigraphs).bytes := by
  have hkeyword : ¬ [star, slash] <:+: hash :: (p.normalized trigraphs).keyword := fun hmem =>
    List.not_mem_cons_of_ne_of_not_mem (by decide) (notMem_keyword _ (by decide))
      (hmem.subset List.mem_cons_self)
  have hname : ¬ [star, slash] <:+: p.name := fun hmem =>
    h.notMem_name (by decide) (hmem.subset List.mem_cons_self)
  rw [h.bytes_normalize, source, ← List.cons_append,
    infix_pair_append_cons_iff (by decide) (by decide)] at hclosed
  replace hclosed : [star, slash] <:+: p.name ++ (p.normalized trigraphs).rest :=
    hclosed.resolve_left hkeyword
  rw [rest, normalized] at hclosed
  cases hvalue : p.value with
  | none =>
    rw [hvalue] at hclosed
    exact absurd (by simpa using hclosed) hname
  | some value =>
    rw [hvalue] at hclosed
    exact ⟨value, rfl, ((infix_pair_append_cons_iff (by decide) (by decide) _ _).1
      hclosed).resolve_left hname⟩

/-- Directives are apart if their values are. -/
theorem IsPlain.commentsApart {later : Preset} (h : p.IsPlain trigraphs)
    (hlater : later.IsPlain trigraphs)
    (hvalues : ∀ value ∈ p.value, ∀ value' ∈ later.value, CommentsApart trigraphs value value') :
    CommentsApart trigraphs p.source later.source := by
  rw [CommentsApart, or_iff_not_imp_right, not_not]
  intro hinfix
  obtain ⟨value', hvalue', hinfix⟩ := hlater.exists_infix hinfix
  refine h.unterminatedComment_eq_none fun value hvalue => ?_
  exact (hvalues value hvalue value' hvalue').resolve_right (not_not.2 hinfix)

/-- Only a value can splice the new-line away. -/
theorem IsPlain.exists_suffix (h : p.IsPlain trigraphs) {splice : Bytes}
    (hsplice : splice ∈ splices trigraphs) (hsuffix : splice <:+ p.source ++ [newline]) :
    ∃ value ∈ p.value, splice <:+ value ++ [newline] := by
  have hspace : space ∉ splice := by
    obtain ⟨spelling, hspelling, hsplit⟩ := hsplice
    have hnot : space ∉ spelling := by
      rcases hspelling with rfl | ⟨-, c, hc, rfl⟩
      · decide
      · obtain rfl := eq_slash_of_trigraph hc
        decide
    rcases hsplit with rfl | rfl
    · exact fun hmem => (List.mem_append.1 hmem).elim hnot (by decide)
    · exact fun hmem => (List.mem_append.1 hmem).elim hnot (by decide)
  rw [source, rest] at hsuffix
  cases hvalue : p.value with
  | none =>
    -- an identifier does not end like a splice
    exfalso
    have hne : p.name ≠ [] := by
      intro hnil
      obtain ⟨b, rest, hcons, -⟩ := (IsToken.of_mem_identifiers h.name_mem).exists_cons
      rw [hnil] at hcons
      cases hcons
    obtain ⟨front, b, hname⟩ := (List.eq_nil_or_concat' p.name).resolve_left hne
    have hb : isWord b = true :=
      endsIn_identifiers p.name h.name_mem b (by rw [hname, List.getLast?_concat]; rfl)
    have hends : ∀ b : UInt8, isWord b = true → b ∉ [backslash, slash, carriageReturn] :=
      forall_byte (by decide +kernel)
    refine not_splice_suffix (hends b hb) (hash :: (p.keyword ++ space :: front)) splice hsplice ?_
    rw [hvalue, hname] at hsuffix
    simpa using hsuffix
  | some value =>
    rw [hvalue] at hsuffix
    refine ⟨value, rfl, ?_⟩
    have hsplit : hash :: (p.keyword ++ space :: (p.name ++ space :: value)) ++ [newline] =
        (hash :: (p.keyword ++ space :: p.name)) ++ space :: (value ++ [newline]) := by
      simp
    exact suffix_of_suffix_append_cons hspace (hsplit ▸ hsuffix)

end

end Preset

/-! ## Macros from steps -/

namespace SessionM

variable {s s' : Session.State} {location : Location}

theorem Returns.macros_of_warn {cause : WarningCause} (h : (warn location cause).Returns s () s') :
    s'.macros = s.macros := by
  cases h
  rfl

theorem Returns.exists_of_updateMacros {change : MacroTable → Except Cause MacroTable}
    (h : (updateMacros location change).Returns s () s') :
    ∃ macros, change s.macros = .ok macros ∧ s'.macros = macros := by
  rw [updateMacros] at h
  obtain ⟨_, _, hget, h⟩ := h.exists_of_bind
  cases hget
  cases hchange : change s.macros with
  | error cause =>
    rw [hchange] at h
    cases h
  | ok macros =>
    rw [hchange] at h
    cases h
    exact ⟨macros, rfl, rfl⟩

end SessionM

namespace Session

open SessionM Source

variable {session : Session} {nested : Option Inclusion} {trigraphs : Bool} {s s' : State}

theorem macros_of_defineObject {file : SourceFile} {location : Location} {name : Token}
    {replacement : List Token}
    (h : (defineObject file location name replacement).Returns s () s') :
    s'.macros = s.macros.insert ⟨name.text, .object, replacement⟩ := by
  have hdefine {s : State} (h : (updateMacros location
      (·.define ⟨name.text, .object, replacement⟩)).Returns s () s') :
      s'.macros = s.macros.insert ⟨name.text, .object, replacement⟩ := by
    obtain ⟨macros, hchange, hmacros⟩ := h.exists_of_updateMacros
    rw [hmacros, MacroTable.eq_insert_of_define hchange]
  rw [defineObject] at h
  split at h
  · split at h
    · obtain ⟨_, _, hwarn, h⟩ := h.exists_of_bind
      rw [hdefine h, hwarn.macros_of_warn]
    · exact hdefine h
  · exact hdefine h

/-- What a directive defines is its own macro. -/
theorem macros_of_processDirective {hash : Token} {line : List Token} {p : Progress}
    {d : Directive} {m : Macro} {result : List OutputLine × Progress}
    (hread : Directive.ofTokens line = some d) (hm : d.definedMacro? = some m)
    (hlive : p.live = true)
    (h : (processDirective session nested hash line p).Returns s result s') :
    s'.macros = s.macros.insert m := by
  rw [processDirective_of_live hread hlive] at h
  cases d with
  | defineObject name replacement =>
    obtain rfl := Option.some.inj hm
    obtain ⟨_, _, hdefine, hreturn⟩ := h.exists_of_bind
    cases hreturn
    exact macros_of_defineObject hdefine
  | defineFunction name parameters variadic replacement =>
    obtain rfl := Option.some.inj hm
    obtain ⟨_, _, hdefine, hreturn⟩ := h.exists_of_bind
    cases hreturn
    obtain ⟨macros, hchange, hmacros⟩ := hdefine.exists_of_updateMacros
    rw [hmacros, MacroTable.eq_insert_of_define hchange]
  | _ => cases hm

theorem macros_of_undefine {file : SourceFile} {location : Location} {name : Token}
    {tail : List Token}
    (h : (do warnExtraTokens file "undef" tail
             updateMacros location (·.undefine name.text) : SessionM Unit).Returns s () s') :
    s'.macros = s.macros.erase name.text := by
  obtain ⟨_, middle, hwarn, h⟩ := h.exists_of_bind
  obtain ⟨macros, hchange, hmacros⟩ := h.exists_of_updateMacros
  have hmiddle : middle.macros = s.macros := by
    rw [warnExtraTokens] at hwarn
    split at hwarn
    · exact hwarn.macros_of_warn
    · cases hwarn
      rfl
  rw [hmacros, MacroTable.eq_erase_of_undefine hchange, hmiddle]

/-- A name is defined as an object-like macro with the tokens that the value has alone. -/
def DefinesAs (trigraphs : Bool) (table : MacroTable) (name value : Bytes) : Prop :=
  ∃ m, table.lookup name = some m ∧ m.kind = .object ∧
    m.replacement.map Token.text =
      (Token.linesOf value (normalize value trigraphs)).flatten.map Token.text

/-- Processing a directive of a configuration changes the meaning of its name only. -/
structure Obeys (trigraphs : Bool) (p : Preset) (table table' : MacroTable) : Prop where
  lookup_eq {name : Bytes} (h : name ≠ p.name) : table'.lookup name = table.lookup name
  definesAs : ∀ value ∈ p.value, DefinesAs trigraphs table' p.name value

theorem reader?_define {name : Token} (h : name.word = (.identifier, Bytes.ofString "define")) :
    Directive.reader? name = some (Directive.withIdentifier Directive.definition) := by
  obtain ⟨hkind, htext⟩ := Prod.mk.inj h
  have hident : name.isIdentifier = true := decide_eq_true hkind
  rw [Directive.reader?, if_pos hident, htext]
  rfl

theorem reader?_undef {name : Token} (h : name.word = (.identifier, Bytes.ofString "undef")) :
    Directive.reader? name = some (Directive.withIdentifier (some <| .undefine · ·)) := by
  obtain ⟨hkind, htext⟩ := Prod.mk.inj h
  have hident : name.isIdentifier = true := decide_eq_true hkind
  rw [Directive.reader?, if_pos hident, htext]
  rfl

/-- A parenthesis behind a gap begins no parameter list. -/
theorem definition_of_spaced {name : Token} {rest : List Token}
    (h : ∀ t ∈ rest.head?, t.spaced = true) :
    Directive.definition name rest = some (.defineObject name rest) := by
  cases rest with
  | nil => rfl
  | cons t rest =>
    have hopens : t.opensParameters = false := by
      rw [Token.opensParameters, h t rfl, Bool.not_true, Bool.and_false]
    unfold Directive.definition
    dsimp only
    rw [hopens, Bool.not_false, if_pos rfl]

/-- The lines behind a directive of a configuration are processed when it is obeyed. -/
theorem exists_obeys_of_processToEnd {p : Preset} {line : List Token}
    (hline : p.ReadsAs trigraphs line) {lines : List (List Token)} {file : SourceFile}
    {output : List OutputLine}
    (h : (processToEnd session nested (line :: lines) { file }).Returns s output s') :
    ∃ output' middle, Obeys trigraphs p s.macros middle.macros ∧
      (processToEnd session nested lines { file }).Returns middle output' s' := by
  obtain ⟨hash, keyword, name, rest, rfl, hhash, hkeyword, hname, hvalue⟩ := hline
  obtain ⟨hkind, htext⟩ := Prod.mk.inj hname
  have hisHash : hash.isHash = true := by
    obtain ⟨hkind, htext⟩ := Prod.mk.inj hhash
    rw [Token.isHash, Token.isPunctuator, Token.canonical, hkind, htext]
    decide
  have hident : name.isIdentifier = true := decide_eq_true hkind
  rw [processToEnd_hash hisHash, List.reverse_nil, processText_nil, pure_bind] at h
  rw [Preset.keyword] at hkeyword
  cases hv : p.value with
  | some value =>
    rw [hv] at hkeyword hvalue
    obtain ⟨hwords, hspaced⟩ := hvalue value rfl
    have hread : Directive.ofTokens (hash :: keyword :: name :: rest) =
        some (.defineObject name rest) := by
      rw [Directive.ofTokens, reader?_define hkeyword]
      dsimp only
      rw [Directive.withIdentifier, if_pos hident, definition_of_spaced hspaced]
    rw [processDirective_of_live hread rfl] at h
    obtain ⟨_, middle, hobey, h⟩ := h.exists_of_bind
    obtain ⟨_, _, hdefine, hreturn⟩ := hobey.exists_of_bind
    cases hreturn
    obtain ⟨output', _, hrest, hend⟩ := h.exists_of_bind
    cases hend
    have hmacros := macros_of_defineObject hdefine
    rw [htext] at hmacros
    refine ⟨output', middle, ⟨fun hne => ?_, fun value' hvalue' => ?_⟩, hrest⟩
    · rw [hmacros, MacroTable.lookup_insert_of_ne _ hne]
    · obtain rfl := Option.some.inj (hv.symm.trans hvalue')
      refine ⟨⟨p.name, .object, rest⟩, ?_, rfl, ?_⟩
      · rw [hmacros]
        exact MacroTable.lookup_insert _ ⟨p.name, .object, rest⟩
      have htexts := congrArg (List.map Prod.snd) hwords
      rwa [List.map_map, List.map_map] at htexts
  | none =>
    rw [hv] at hkeyword
    have hread : Directive.ofTokens (hash :: keyword :: name :: rest) =
        some (.undefine name rest) := by
      rw [Directive.ofTokens, reader?_undef hkeyword]
      dsimp only
      rw [Directive.withIdentifier, if_pos hident]
    rw [processDirective_of_live hread rfl] at h
    obtain ⟨_, middle, hobey, h⟩ := h.exists_of_bind
    obtain ⟨_, _, hwarn, hobey⟩ := hobey.exists_of_bind
    obtain ⟨_, _, hundefine, hreturn⟩ := hobey.exists_of_bind
    cases hreturn
    obtain ⟨output', _, hrest, hend⟩ := h.exists_of_bind
    cases hend
    have hmacros := macros_of_undefine (hwarn.bind hundefine)
    rw [htext] at hmacros
    refine ⟨output', middle, ⟨fun hne => ?_, fun value hvalue => ?_⟩, hrest⟩
    · rw [hmacros, MacroTable.lookup_erase_of_ne _ hne]
    · rw [hv] at hvalue
      cases hvalue

/-- **Processing the directives of a configuration.** Each defines its name, if no later one is about
the same name, and nothing is defined or removed but their names. -/
theorem obeys_of_processToEnd {presets : List Preset} {lines : List (List Token)}
    (hlines : List.Forall₂ (Preset.ReadsAs trigraphs) presets lines) {file : SourceFile}
    {output : List OutputLine}
    (h : (processToEnd session nested (lines ++ [[]]) { file }).Returns s output s') :
    (∀ name, (∀ p ∈ presets, name ≠ p.name) → s'.macros.lookup name = s.macros.lookup name) ∧
      (presets.Pairwise (fun p later => p.value.isSome = true → p.name ≠ later.name) →
        ∀ p ∈ presets, ∀ value ∈ p.value, DefinesAs trigraphs s'.macros p.name value) := by
  induction hlines generalizing s output with
  | nil =>
    rw [List.nil_append, processToEnd_blank, processToEnd_nil, List.reverse_nil, processText_nil,
      pure_bind] at h
    cases h
    exact ⟨fun _ _ => rfl, fun _ => List.forall_mem_nil _⟩
  | cons hline _ ih =>
    obtain ⟨output', middle, hobeys, hrest⟩ := exists_obeys_of_processToEnd hline h
    obtain ⟨hothers, hdefines⟩ := ih hrest
    refine ⟨fun name hname => ?_, fun hpairwise => ?_⟩
    · obtain ⟨hfirst, hlater⟩ := List.forall_mem_cons.1 hname
      rw [hothers name hlater, hobeys.lookup_eq hfirst]
    · obtain ⟨hfirst, hlater⟩ := List.pairwise_cons.1 hpairwise
      refine List.forall_mem_cons.2 ⟨fun value hvalue => ?_, hdefines hlater⟩
      -- no later directive changes the first one
      obtain ⟨m, hlookup, hm⟩ := hobeys.definesAs value hvalue
      refine ⟨m, ?_, hm⟩
      rw [hothers _ fun q hq => hfirst q hq (by rw [Option.mem_def.1 hvalue]; rfl), hlookup]

end Session

end CPreprocessor
