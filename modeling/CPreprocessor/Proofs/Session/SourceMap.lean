import CPreprocessor.File.System
import Mathlib.Data.List.Basic

/-!
# Source maps

A session stores every source that it is given and every file that it reads, and refers to what it
stored by an id. A file is stored when it is first read, whatever path leads to it; reading it
again, by any path with the same canonical one, gives the id that it has.

So canonical paths and ids of files belong together one to one, and what an id stands for has the
contents of its file (`SourceMap.IsSound`). As nothing that is stored is ever changed, this is so
for good (`SourceMap.isSound_read`, `SourceMap.prefix_of_read`).
-/

namespace CPreprocessor

/-- A file that is loaded has the canonical path of the path that leads to it, and the contents that
are there. -/
theorem FileSystem.load_eq_ok_iff {fs : FileSystem} {path canonical : Path} {contents : Bytes} :
    fs.load path = .ok (canonical, contents) ↔
      fs.canonical path = .ok canonical ∧ fs.read canonical = .ok contents := by
  rw [load]
  cases hcanonical : fs.canonical path with
  | error problem => exact iff_of_false nofun fun h => nomatch h.1
  | ok canonical' =>
    change (fs.read canonical' >>= _) = _ ↔ _
    cases hread : fs.read canonical' with
    | error problem =>
      refine iff_of_false nofun fun h => ?_
      obtain rfl := Except.ok.inj h.1
      cases hread.symm.trans h.2
    | ok contents' =>
      constructor
      · intro h
        cases h
        exact ⟨rfl, hread⟩
      · rintro ⟨h, hcontents⟩
        obtain rfl := Except.ok.inj h
        obtain rfl := Except.ok.inj (hread.symm.trans hcontents)
        rfl

/-- A file with a canonical path that cannot be loaded cannot be read there. -/
theorem FileSystem.read_of_load_error {fs : FileSystem} {path canonical : Path}
    {problem : FileProblem} (hcanonical : fs.canonical path = .ok canonical)
    (h : fs.load path = .error problem) : fs.read canonical = .error problem := by
  rw [load, hcanonical] at h
  change (fs.read canonical >>= _) = _ at h
  cases hread : fs.read canonical with
  | ok contents =>
    rw [hread] at h
    cases h
  | error problem' =>
    rw [hread] at h
    cases h
    rfl

/-- What a source is referred to by. -/
abbrev FileId := Nat

/-- A source that is stored. -/
structure StoredSource where
  /-- The name that diagnostics and macros call it by. -/
  name : String
  /-- The canonical path. Text that does not come from a file has none. -/
  path : Option Path
  bytes : Bytes
  deriving Inhabited

/-- The sources of a session. -/
structure SourceMap where
  /-- The source with an id is the one at that index. -/
  files : List StoredSource := []
  /-- The ids of the files, by their canonical paths. -/
  paths : List (Path × FileId) := []

namespace SourceMap

/-- The source with an id. -/
def get (map : SourceMap) (id : FileId) : StoredSource := map.files[id]?.getD default

/-- Stores text that does not come from a file. -/
def store (map : SourceMap) (name : String) (bytes : Bytes) : FileId × SourceMap :=
  (map.files.length, { map with files := map.files ++ [⟨name, none, bytes⟩] })

/-- Stores a file with its canonical path. -/
def add (map : SourceMap) (name : String) (canonical : Path) (bytes : Bytes) : SourceMap where
  files := map.files ++ [⟨name, some canonical, bytes⟩]
  paths := (canonical, map.files.length) :: map.paths

/-- Reads a file, unless it is stored already, and stores it. -/
def read (map : SourceMap) (fs : FileSystem) (path : Path) :
    Except FileProblem (FileId × SourceMap) := do
  let canonical ← fs.canonical path
  match map.paths.lookup canonical with
  | some id => return (id, map)
  | none =>
    let bytes ← fs.read canonical
    return (map.files.length, map.add path canonical bytes)

/-- The files that are stored, the last one first, with the names that they go by. -/
def names (map : SourceMap) : List (Path × String) :=
  map.files.reverse.filterMap fun f => f.path.map (·, f.name)

/-! ## Ids and canonical paths -/

/-- The ids of a source map are those of the files of a file system. -/
structure IsSound (fs : FileSystem) (map : SourceMap) : Prop where
  /-- A canonical path has the id of the source that comes from there. -/
  lookup_eq_some_iff (canonical : Path) (id : FileId) :
    map.paths.lookup canonical = some id ↔
      ∃ f, map.files[id]? = some f ∧ f.path = some canonical
  /-- What is stored of a file are its contents. -/
  read_eq {id : FileId} {f : StoredSource} {canonical : Path} (hf : map.files[id]? = some f)
    (hpath : f.path = some canonical) : fs.read canonical = .ok f.bytes

variable {fs : FileSystem} {map map' : SourceMap} {id id' : FileId} {canonical : Path}

theorem isSound_empty (fs : FileSystem) : IsSound fs {} where
  lookup_eq_some_iff _ _ := ⟨nofun, nofun⟩
  read_eq := nofun

theorem get_eq {f : StoredSource} (h : map.files[id]? = some f) : map.get id = f := by
  rw [get, h, Option.getD_some]

theorem exists_getElem?_eq (h : id < map.files.length) :
    ∃ f, map.files[id]? = some f ∧ map.get id = f :=
  ⟨_, List.getElem?_eq_getElem h, get_eq (List.getElem?_eq_getElem h)⟩

namespace IsSound

variable (h : map.IsSound fs)
include h

theorem lookup_of_path (hid : id < map.files.length) (hpath : (map.get id).path = some canonical) :
    map.paths.lookup canonical = some id := by
  obtain ⟨f, hf, hget⟩ := exists_getElem?_eq hid
  exact (h.lookup_eq_some_iff canonical id).2 ⟨f, hf, hget ▸ hpath⟩

theorem path_of_lookup (hlookup : map.paths.lookup canonical = some id) :
    id < map.files.length ∧ (map.get id).path = some canonical := by
  obtain ⟨f, hf, hpath⟩ := (h.lookup_eq_some_iff canonical id).1 hlookup
  exact ⟨(List.getElem?_eq_some_iff.1 hf).1, get_eq hf ▸ hpath⟩

/-- A file has one id. -/
theorem id_eq (hid : id < map.files.length) (hid' : id' < map.files.length)
    (hpath : (map.get id).path = some canonical) (hpath' : (map.get id').path = some canonical) :
    id = id' :=
  Option.some.inj ((h.lookup_of_path hid hpath).symm.trans (h.lookup_of_path hid' hpath'))

/-- A file goes by the name that is stored with it. -/
theorem lookup_names (canonical : Path) :
    map.names.lookup canonical =
      (map.paths.lookup canonical).map fun id => (map.get id).name := by
  -- an entry comes from the one source with its path
  have hmem {name : String} (hname : (canonical, name) ∈ map.names) :
      ∃ id, map.paths.lookup canonical = some id ∧ (map.get id).name = name := by
    obtain ⟨f, hf, hpair⟩ := List.mem_filterMap.1 hname
    obtain ⟨path, hpath, hpair⟩ := Option.map_eq_some_iff.1 hpair
    obtain ⟨rfl, rfl⟩ := Prod.mk.inj hpair
    obtain ⟨id, hid⟩ := List.mem_iff_getElem?.1 (List.mem_reverse.1 hf)
    exact ⟨id, (h.lookup_eq_some_iff path id).2 ⟨f, hid, hpath⟩, by rw [get_eq hid]⟩
  cases hlookup : map.paths.lookup canonical with
  | none =>
    refine List.lookup_eq_none_iff.2 fun ⟨path, name⟩ hname => ?_
    refine bne_iff_ne.2 fun (heq : canonical = path) => ?_
    obtain ⟨id, hid, -⟩ := hmem (heq.symm ▸ hname)
    rw [hlookup] at hid
    cases hid
  | some id =>
    obtain ⟨f, hf, hpath⟩ := (h.lookup_eq_some_iff canonical id).1 hlookup
    cases hnames : map.names.lookup canonical with
    | none =>
      have hentry : (canonical, f.name) ∈ map.names :=
        List.mem_filterMap.2 ⟨f, List.mem_reverse.2 (List.mem_of_getElem? hf), by rw [hpath]; rfl⟩
      exact absurd (List.lookup_eq_none_iff.1 hnames _ hentry) (by simp)
    | some name =>
      obtain ⟨before, after, hsplit, -⟩ := List.lookup_eq_some_iff.1 hnames
      obtain ⟨id', hid', hname⟩ := hmem (hsplit ▸ List.mem_append_right _ List.mem_cons_self)
      obtain rfl := Option.some.inj (hlookup.symm.trans hid')
      rw [Option.map_some, hname]

end IsSound

/-! ## Growth -/

/-- What is stored stays as it is. -/
theorem get_eq_of_isPrefix (h : map.files <+: map'.files) (hid : id < map.files.length) :
    map'.get id = map.get id := by
  obtain ⟨more, hmore⟩ := h
  rw [get, get, ← hmore, List.getElem?_append_left hid]

theorem prefix_of_store (map : SourceMap) (name : String) (bytes : Bytes) :
    map.files <+: (map.store name bytes).2.files :=
  List.prefix_append _ _

theorem read_of_canonical {path : Path} (map : SourceMap) (h : fs.canonical path = .ok canonical) :
    map.read fs path = match map.paths.lookup canonical with
      | some id => .ok (id, map)
      | none => (fs.read canonical).map fun bytes =>
          (map.files.length, map.add path canonical bytes) := by
  have hbind : map.read fs path = match map.paths.lookup canonical with
      | some id => .ok (id, map)
      | none => do
        let bytes ← fs.read canonical
        return (map.files.length, map.add path canonical bytes) := by
    rw [read, h]
    rfl
  rw [hbind]
  cases fs.read canonical <;> rfl

/-- A file that is read was stored already or is stored now. -/
theorem read_cases {path : Path} (h : map.read fs path = .ok (id, map')) :
    ∃ canonical, fs.canonical path = .ok canonical ∧
      (map.paths.lookup canonical = some id ∧ map' = map ∨
        map.paths.lookup canonical = none ∧ ∃ bytes, fs.read canonical = .ok bytes ∧
          id = map.files.length ∧ map' = map.add path canonical bytes) := by
  cases hcanonical : fs.canonical path with
  | error problem =>
    rw [read, hcanonical] at h
    cases h
  | ok canonical =>
    refine ⟨canonical, rfl, ?_⟩
    rw [read_of_canonical map hcanonical] at h
    cases hlookup : map.paths.lookup canonical with
    | some id' =>
      rw [hlookup] at h
      cases h
      exact .inl ⟨rfl, rfl⟩
    | none =>
      rw [hlookup] at h
      cases hbytes : fs.read canonical with
      | error problem =>
        rw [hbytes] at h
        cases h
      | ok bytes =>
        rw [hbytes] at h
        cases h
        exact .inr ⟨rfl, bytes, rfl, rfl, rfl⟩

theorem prefix_of_read {path : Path} (h : map.read fs path = .ok (id, map')) :
    map.files <+: map'.files := by
  obtain ⟨_, -, ⟨-, rfl⟩ | ⟨-, _, -, -, rfl⟩⟩ := read_cases h
  · exact List.prefix_rfl
  · exact List.prefix_append _ _

/-- A source stored last has the next id, and the others keep theirs. -/
theorem getElem?_append_eq_some_iff {files : List StoredSource} {f g : StoredSource} :
    (files ++ [g])[id]? = some f ↔ files[id]? = some f ∨ id = files.length ∧ f = g := by
  rcases Nat.lt_trichotomy id files.length with hlt | rfl | hgt
  · rw [List.getElem?_append_left hlt, or_iff_left fun h => Nat.ne_of_lt hlt h.1]
  · simp [eq_comm]
  · have hne : id ≠ files.length := Nat.ne_of_gt hgt
    rw [List.getElem?_eq_none (by simp; omega), List.getElem?_eq_none (Nat.le_of_lt hgt)]
    simp [hne]

theorem get_add (map : SourceMap) (name : String) (canonical : Path) (bytes : Bytes) :
    (map.add name canonical bytes).get map.files.length = ⟨name, some canonical, bytes⟩ :=
  get_eq (getElem?_append_eq_some_iff.2 (.inr ⟨rfl, rfl⟩))

/-- Text has an id of its own. -/
theorem isSound_store (h : map.IsSound fs) (name : String) (bytes : Bytes) :
    (map.store name bytes).2.IsSound fs where
  lookup_eq_some_iff canonical id := by
    rw [store, h.lookup_eq_some_iff]
    refine exists_congr fun f => and_congr_left fun hpath => ?_
    rw [getElem?_append_eq_some_iff, or_iff_left]
    rintro ⟨-, rfl⟩
    cases hpath
  read_eq hf hpath := by
    rcases getElem?_append_eq_some_iff.1 hf with hf | ⟨-, rfl⟩
    · exact h.read_eq hf hpath
    · cases hpath

/-- A file that is stored for the first time gets an id of its own. -/
theorem isSound_add (h : map.IsSound fs) {name : String} {bytes : Bytes}
    (hnone : map.paths.lookup canonical = none) (hread : fs.read canonical = .ok bytes) :
    (map.add name canonical bytes).IsSound fs where
  lookup_eq_some_iff other id := by
    simp only [add, List.lookup_cons, getElem?_append_eq_some_iff]
    by_cases heq : other = canonical
    · subst heq
      have hfresh (f : StoredSource) (hf : map.files[id]? = some f) : f.path ≠ some other := by
        intro hpath
        have hsome := (h.lookup_eq_some_iff other id).2 ⟨f, hf, hpath⟩
        rw [hnone] at hsome
        cases hsome
      rw [beq_self_eq_true]
      constructor
      · rintro ⟨⟩
        exact ⟨_, .inr ⟨rfl, rfl⟩, rfl⟩
      · rintro ⟨f, hf | ⟨rfl, -⟩, hpath⟩
        · exact absurd hpath (hfresh f hf)
        · rfl
    · rw [beq_eq_false_iff_ne.2 heq]
      refine (h.lookup_eq_some_iff other id).trans (exists_congr fun f => ?_)
      refine and_congr_left fun hpath => (or_iff_left ?_).symm
      rintro ⟨-, rfl⟩
      exact heq (Option.some.inj hpath).symm
  read_eq hf hpath := by
    rcases getElem?_append_eq_some_iff.1 hf with hf | ⟨-, rfl⟩
    · exact h.read_eq hf hpath
    · exact Option.some.inj hpath ▸ hread

/-- A file that is read has its own id from then on. -/
theorem isSound_read {path : Path} (h : map.IsSound fs) (hread : map.read fs path = .ok (id, map')) :
    map'.IsSound fs := by
  obtain ⟨_, -, ⟨-, rfl⟩ | ⟨hnone, _, hbytes, -, rfl⟩⟩ := read_cases hread
  · exact h
  · exact isSound_add h hnone hbytes

/-- The id of a file that is read stands for the canonical path and the contents of the file. -/
theorem load_of_read {path : Path} (h : map.IsSound fs) (hread : map.read fs path = .ok (id, map')) :
    ∃ canonical, fs.load path = .ok (canonical, (map'.get id).bytes) ∧ id < map'.files.length ∧
      (map'.get id).path = some canonical := by
  obtain ⟨canonical, hcanonical, ⟨hlookup, rfl⟩ | ⟨-, bytes, hbytes, rfl, rfl⟩⟩ :=
    read_cases hread
  · obtain ⟨f, hf, hpath⟩ := (h.lookup_eq_some_iff canonical id).1 hlookup
    refine ⟨canonical, ?_, h.path_of_lookup hlookup⟩
    rw [FileSystem.load, hcanonical, get_eq hf]
    show (fs.read canonical >>= _) = _
    rw [h.read_eq hf hpath]
    rfl
  · refine ⟨canonical, ?_, by simp [add], ?_⟩
    · rw [FileSystem.load, hcanonical, get_add]
      show (fs.read canonical >>= _) = _
      rw [hbytes]
      rfl
    · rw [get_add]

/-- A file that is not stored cannot be read for the same reason that it cannot be loaded. -/
theorem load_of_read_error {path : Path} {problem : FileProblem}
    (hread : map.read fs path = .error problem) : fs.load path = .error problem := by
  rw [FileSystem.load]
  cases hcanonical : fs.canonical path with
  | error problem' =>
    rw [read, hcanonical] at hread
    cases hread
    rfl
  | ok canonical =>
    rw [read_of_canonical map hcanonical] at hread
    show (fs.read canonical >>= _) = _
    cases hlookup : map.paths.lookup canonical with
    | some id =>
      rw [hlookup] at hread
      cases hread
    | none =>
      rw [hlookup] at hread
      cases hbytes : fs.read canonical with
      | error problem' =>
        rw [hbytes] at hread
        cases hread
        rfl
      | ok bytes =>
        rw [hbytes] at hread
        cases hread

theorem names_store (map : SourceMap) (name : String) (bytes : Bytes) :
    (map.store name bytes).2.names = map.names := by
  simp [store, names]

theorem names_add (map : SourceMap) (name : String) (canonical : Path) (bytes : Bytes) :
    (map.add name canonical bytes).names = (canonical, name) :: map.names := by
  simp [add, names]

end SourceMap

end CPreprocessor
