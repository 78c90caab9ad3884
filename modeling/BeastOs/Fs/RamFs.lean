import Mathlib.Data.String.Basic
import BeastOs.Lib.SortedMap
import BeastOs.Lib.Tree
import BeastOs.Fs.Mounts

/-!
# The RAM file system

`kernel/src/fs/ramfs.rs`. Files and directories are shared: a directory holds references to its
entries, an open file a reference to its data. The references are numbers here, into the files and
directories that have been made so far; nothing is ever made again under a number that is in use.

What the directories amount to is a tree of named nodes, the `tree` of a file system: which paths
there are, and what is there. The four calls each walk along the path in their own way, and each
comes down to one change of that tree (`refines_of_wellFormed`).
-/

namespace BeastOs.Fs

open List Option Function Lib

/-! ## Files and directories -/

/-- `isize::MAX`, which bounds every allocation. -/
def isizeMax : Nat := 2 ^ 63 - 1

/-- What a `Vec<u8>` or a slice of bytes can hold. -/
structure Bytes where
  data : List U8
  length_le : data.length ≤ isizeMax

def Bytes.empty : Bytes := ⟨[], Nat.zero_le _⟩

/-- `Arc<Spinlock<RamFsFile>>` -/
abbrev FileRef := Nat

/-- `Arc<Spinlock<RamFsDirectory>>` -/
abbrev DirRef := Nat

inductive RamFsNode where
  | file (f : FileRef)
  | directory (d : DirRef)
  deriving DecidableEq, Repr

/-- The file system with all files and directories, whether they are still part of it or not. -/
structure RamFs where
  root : DirRef
  files : FileRef → Bytes
  dirs : DirRef → SortedMap String RamFsNode
  nextFile : FileRef
  nextDir : DirRef

structure RamFsFileHandle where
  file : FileRef
  cursor : Nat
  deriving DecidableEq, Repr

/-- The components of a path, without the empty ones. -/
def parts (path : String) : List String :=
  ((path.toList.splitOn '/').filter (· ≠ [])).map String.ofList

/-- A name as `read_dir` lists it. -/
def listed : String × RamFsNode → String
  | (name, .directory _) => name ++ "/"
  | (name, .file _) => name

namespace RamFs

def new : RamFs where
  root := 0
  files := fun _ => Bytes.empty
  dirs := fun _ => SortedMap.empty
  nextFile := 0
  nextDir := 1

/-- `dir.entries.insert(name, node)` -/
def insert (fs : RamFs) (d : DirRef) (name : String) (node : RamFsNode) : RamFs :=
  { fs with dirs := Function.update fs.dirs d ((fs.dirs d).insert name node) }

/-- `dir.entries.remove(&name)` -/
def erase (fs : RamFs) (d : DirRef) (name : String) : RamFs :=
  { fs with dirs := Function.update fs.dirs d ((fs.dirs d).erase name) }

/-- `Arc::new(Spinlock::new(RamFsFile { data: Vec::new() }))` -/
def newFile (fs : RamFs) : RamFs :=
  { fs with files := Function.update fs.files fs.nextFile Bytes.empty, nextFile := fs.nextFile + 1 }

/-- `Arc::new(Spinlock::new(RamFsDirectory { entries: BTreeMap::new() }))` -/
def newDirectory (fs : RamFs) : RamFs :=
  { fs with dirs := Function.update fs.dirs fs.nextDir SortedMap.empty, nextDir := fs.nextDir + 1 }

/-! ## The four calls -/

/-- From directory to directory. The errors are those for a component that is a file, and for one
that does not exist. -/
def descend (fs : RamFs) (onFile onNone : FsError) : DirRef → List String → Except FsError DirRef
  | current, [] => .ok current
  | current, part :: rest =>
    match (fs.dirs current).lookup part with
    | some (.directory d) => descend fs onFile onNone d rest
    | some (.file _) => .error onFile
    | none => .error onNone

/-- The parent directory of a path, and the name of the leaf. -/
def resolveParent (fs : RamFs) (path : String) : Except FsError (DirRef × String) :=
  match (parts path).getLast? with
  | none => .error .notFound
  | some name =>
    (fs.descend .notDirectory .notFound fs.root (parts path).dropLast).map fun d => (d, name)

/-- The loop of `open`. -/
def openLoop (fs : RamFs) : DirRef → List String → Except FsError RamFsFileHandle × RamFs
  | _, [] => (.error .notFound, fs)
  | currentDir, part :: rest =>
    let isLast := rest.isEmpty
    match (fs.dirs currentDir).lookup part with
    | some (.directory d) => if isLast then (.error .isDirectory, fs) else openLoop fs d rest
    | some (.file f) =>
      if isLast then (.ok { file := f, cursor := 0 }, fs) else (.error .notDirectory, fs)
    | none =>
      -- create the file if it does not exist
      if isLast then (.ok { file := fs.nextFile, cursor := 0 },
        fs.newFile.insert currentDir part (.file fs.nextFile))
      else (.error .notFound, fs)

def «open» (fs : RamFs) (path : String) : Except FsError RamFsFileHandle × RamFs :=
  if path = "/" ∨ path.isEmpty then (.error .isDirectory, fs)
  else fs.openLoop fs.root (parts path)

def readDir (fs : RamFs) (path : String) : Except FsError (List String) × RamFs :=
  ((fs.descend .notDirectory .notDirectory fs.root (parts path)).map fun d =>
    (fs.dirs d).entries.map listed, fs)

/-- The loop of `mkdir`. -/
def mkdirLoop (fs : RamFs) : DirRef → List String → Except FsError Unit × RamFs
  | _, [] => (.ok (), fs)
  | currentDir, part :: rest =>
    let isLast := rest.isEmpty
    match (fs.dirs currentDir).lookup part with
    | some (.directory d) => if isLast then (.error .alreadyExists, fs) else mkdirLoop fs d rest
    | some (.file _) => (.error .notDirectory, fs)
    | none =>
      if isLast then (.ok (), fs.newDirectory.insert currentDir part (.directory fs.nextDir))
      else (.error .notFound, fs)

def mkdir (fs : RamFs) (path : String) : Except FsError Unit × RamFs :=
  if (parts path).isEmpty then (.error .alreadyExists, fs)
  else fs.mkdirLoop fs.root (parts path)

def remove (fs : RamFs) (path : String) : Except FsError Unit × RamFs :=
  match fs.resolveParent path with
  | .error e => (.error e, fs)
  | .ok (parent, name) =>
    if ((fs.dirs parent).lookup name).isSome then (.ok (), fs.erase parent name)
    else (.error .notFound, fs)

/-! ## The tree of named nodes -/

/-- What a node has under a name. -/
def child (fs : RamFs) : RamFsNode → String → Option RamFsNode
  | .directory d, name => (fs.dirs d).lookup name
  | .file _, _ => none

/-- The node at the end of a path. -/
def nodeAt (fs : RamFs) (p : List String) : Option RamFsNode :=
  walk fs.child (.directory fs.root) p

end RamFs

/-- What there is at a path: a directory, or a file with its identity and its content. -/
inductive Entry where
  | file (f : FileRef) (content : List U8)
  | directory

namespace RamFs

def entry (fs : RamFs) : RamFsNode → Entry
  | .file f => .file f (fs.files f).data
  | .directory _ => .directory

/-- **The tree that a file system stands for**: what there is at each path. -/
def tree (fs : RamFs) (p : List String) : Option Entry := (fs.nodeAt p).map fs.entry

end RamFs

/-- The name of an entry in the list of its directory. -/
def Entry.listed (key : String) : Entry → String
  | .directory => key ++ "/"
  | .file _ _ => key

/-- All names below `p`, in their order. -/
def Lists (tree : List String → Option Entry) (p : List String) (names : List String) : Prop :=
  ∃ keys : List String, keys.Pairwise (· < ·) ∧ (∀ key, key ∈ keys ↔ (tree (p ++ [key])).isSome) ∧
    names = keys.filterMap fun key => (tree (p ++ [key])).map (Entry.listed key)

/-- The calls on a path with the components `p`, as changes of the tree. -/
structure Refines (fs : RamFs) (path : String) (p : List String) : Prop where
  open_isOk_iff : (∃ h, (fs.open path).1 = .ok h) ↔ fs.tree p.dropLast = some .directory ∧
    (fs.tree p = none ∨ ∃ f content, fs.tree p = some (.file f content))
  /-- a new file is empty, and no other path leads to it -/
  open_new : ∀ h fs', fs.open path = (.ok h, fs') → fs.tree p = none →
    h.cursor = 0 ∧ fs'.tree p = some (.file h.file []) ∧ (∀ q, q ≠ p → fs'.tree q = fs.tree q) ∧
      ∀ q content, fs.tree q ≠ some (.file h.file content)
  open_old : ∀ h fs' f content, fs.open path = (.ok h, fs') → fs.tree p = some (.file f content) →
    h = { file := f, cursor := 0 } ∧ fs'.tree = fs.tree
  mkdir_isOk_iff : (fs.mkdir path).1 = .ok () ↔
    fs.tree p.dropLast = some .directory ∧ fs.tree p = none
  mkdir_ok : ∀ fs', fs.mkdir path = (.ok (), fs') → fs'.tree p = some .directory ∧
    (fs'.readDir path).1 = .ok [] ∧ ∀ q, q ≠ p → fs'.tree q = fs.tree q
  remove_isOk_iff : (fs.remove path).1 = .ok () ↔
    fs.tree p.dropLast = some .directory ∧ (fs.tree p).isSome
  remove_ok : ∀ fs', fs.remove path = (.ok (), fs') →
    ∀ q, (p <+: q → fs'.tree q = none) ∧ (¬ p <+: q → fs'.tree q = fs.tree q)
  readDir_isOk_iff : (∃ names, (fs.readDir path).1 = .ok names) ↔ fs.tree p = some .directory
  readDir_ok : ∀ names, (fs.readDir path).1 = .ok names → Lists fs.tree p names
  open_error : ∀ e fs', fs.open path = (.error e, fs') → fs'.tree = fs.tree
  mkdir_error : ∀ e fs', fs.mkdir path = (.error e, fs') → fs'.tree = fs.tree
  remove_error : ∀ e fs', fs.remove path = (.error e, fs') → fs'.tree = fs.tree
  readDir_same : (fs.readDir path).2.tree = fs.tree

/-! ## Walks -/

namespace RamFs

variable {fs fs' : RamFs} {d : DirRef} {f : FileRef} {node : RamFsNode} {name : String}
  {ps p q rest : List String} {path : String} {content : List U8}

theorem walk_file_ne (rest : List String) (d : DirRef) :
    walk fs.child (.file f) rest ≠ some (.directory d) := by
  cases rest with
  | nil => exact nofun
  | cons part rest => exact nofun

/-- Whatever its errors, a walk from directory to directory arrives where the path leads. -/
theorem descend_eq_ok (onFile onNone : FsError) {d' : DirRef} :
    fs.descend onFile onNone d ps = .ok d' ↔
      walk fs.child (.directory d) ps = some (.directory d') := by
  induction ps generalizing d with
  | nil => simp [descend, walk]
  | cons part rest ih =>
    rw [descend, walk]
    show _ ↔ ((fs.dirs d).lookup part).bind _ = _
    split
    next d₁ hd₁ =>
      rw [hd₁, bind_some]
      exact ih
    next f hf =>
      rw [hf, bind_some]
      exact iff_of_false (fun h => by cases h) (walk_file_ne rest d')
    next hnone =>
      rw [hnone, bind_none]
      exact iff_of_false (fun h => by cases h) (fun h => by cases h)

/-- The loops of `open` and `mkdir` treat all components but the last one alike. -/
theorem loop_eq {β : Type} {loop : DirRef → List String → Except FsError β × RamFs}
    (hloop : ∀ d part rest, rest ≠ [] → loop d (part :: rest) =
      match (fs.dirs d).lookup part with
      | some (.directory d') => loop d' rest
      | some (.file _) => (.error .notDirectory, fs)
      | none => (.error .notFound, fs)) :
    loop d (ps ++ [name]) =
      match fs.descend .notDirectory .notFound d ps with
      | .ok d' => loop d' [name]
      | .error e => (.error e, fs) := by
  induction ps generalizing d with
  | nil => rfl
  | cons part rest ih =>
    rw [cons_append, hloop d part (rest ++ [name]) (by simp), descend]
    split
    · exact ih
    · rfl
    · rfl

theorem openLoop_cons (d : DirRef) (part : String) (hrest : rest ≠ []) :
    fs.openLoop d (part :: rest) =
      match (fs.dirs d).lookup part with
      | some (.directory d') => fs.openLoop d' rest
      | some (.file _) => (.error .notDirectory, fs)
      | none => (.error .notFound, fs) := by
  have hlast : rest.isEmpty = false := isEmpty_eq_false_iff.mpr hrest
  rw [openLoop]
  simp only [hlast, Bool.false_eq_true, if_false]

theorem mkdirLoop_cons (d : DirRef) (part : String) (hrest : rest ≠ []) :
    fs.mkdirLoop d (part :: rest) =
      match (fs.dirs d).lookup part with
      | some (.directory d') => fs.mkdirLoop d' rest
      | some (.file _) => (.error .notDirectory, fs)
      | none => (.error .notFound, fs) := by
  have hlast : rest.isEmpty = false := isEmpty_eq_false_iff.mpr hrest
  rw [mkdirLoop]
  simp only [hlast, Bool.false_eq_true, if_false]

theorem nodeAt_snoc (fs : RamFs) (ps : List String) (name : String) :
    fs.nodeAt (ps ++ [name]) = (fs.nodeAt ps).bind fun u => fs.child u name :=
  walk_snoc fs.child _ ps name

theorem nodeAt_of_directory (hd : fs.nodeAt ps = some (.directory d)) (name : String) :
    fs.nodeAt (ps ++ [name]) = (fs.dirs d).lookup name := by
  rw [nodeAt_snoc, hd]
  rfl

theorem tree_eq_directory :
    fs.tree p = some .directory ↔ ∃ d, fs.nodeAt p = some (.directory d) := by
  unfold tree
  cases fs.nodeAt p with
  | none => simp
  | some node => cases node <;> simp [entry]

theorem tree_eq_none : fs.tree p = none ↔ fs.nodeAt p = none := map_eq_none_iff

theorem tree_eq_file : fs.tree p = some (.file f content) ↔
    fs.nodeAt p = some (.file f) ∧ (fs.files f).data = content := by
  unfold tree
  cases fs.nodeAt p with
  | none => simp
  | some node =>
    cases node with
    | directory d => simp [entry]
    | file f' =>
      simp only [entry, map_some, some.injEq, Entry.file.injEq, RamFsNode.file.injEq]
      constructor
      · rintro ⟨rfl, h⟩
        exact ⟨rfl, h⟩
      · rintro ⟨rfl, h⟩
        exact ⟨rfl, h⟩

/-! ## Well-formed file systems -/

/-- The nodes form a tree, and are among those that have been made. -/
structure WellFormed (fs : RamFs) : Prop where
  isTree : Tree fs.child (.directory fs.root)
  root_lt : fs.root < fs.nextDir
  dir_lt : ∀ {u name d}, fs.child u name = some (.directory d) → d < fs.nextDir
  file_lt : ∀ {u name f}, fs.child u name = some (.file f) → f < fs.nextFile
  unused : ∀ d, fs.nextDir ≤ d → fs.dirs d = SortedMap.empty

variable (u : RamFsNode)

theorem child_new (name : String) : new.child u name = none := by
  cases u <;> rfl

theorem wellFormed_new : WellFormed new := by
  refine ⟨⟨?_, ?_⟩, Nat.zero_lt_one, ?_, ?_, fun _ _ => rfl⟩ <;> simp [child_new]

variable (h : WellFormed fs)

include h in
theorem WellFormed.lt_of_nodeAt_directory
    (hd : fs.nodeAt p = some (.directory d)) : d < fs.nextDir := by
  rcases eq_nil_or_concat p with rfl | ⟨ps, name, rfl⟩
  · cases hd
    exact h.root_lt
  · rw [concat_eq_append, nodeAt_snoc] at hd
    obtain ⟨u, -, hu⟩ := bind_eq_some_iff.mp hd
    exact h.dir_lt hu

include h in
theorem WellFormed.lt_of_nodeAt_file (hf : fs.nodeAt p = some (.file f)) : f < fs.nextFile := by
  rcases eq_nil_or_concat p with rfl | ⟨ps, name, rfl⟩
  · cases hf
  · rw [concat_eq_append, nodeAt_snoc] at hf
    obtain ⟨u, -, hu⟩ := bind_eq_some_iff.mp hf
    exact h.file_lt hu

/-! ## One entry changes -/

theorem child_congr (hdirs : fs'.dirs = fs.dirs) : fs'.child = fs.child := by
  funext u j
  cases u with
  | file f => rfl
  | directory d => exact congrArg (fun dirs => SortedMap.lookup (dirs d) j) hdirs

theorem child_insert_self : (fs.insert d name node).child (.directory d) name = some node := by
  show (update fs.dirs d _ d).lookup name = some node
  rw [update_self, SortedMap.lookup_insert_self]

/-- Another map for one directory matters only where it differs there. -/
theorem child_update {entries : SortedMap String RamFsNode} {j : String}
    (h : u = .directory d → entries.lookup j = (fs.dirs d).lookup j) :
    RamFs.child { fs with dirs := update fs.dirs d entries } u j = fs.child u j := by
  cases u with
  | file f => rfl
  | directory d' =>
    show (update fs.dirs d _ d').lookup j = (fs.dirs d').lookup j
    by_cases hd : d' = d
    · subst hd
      rw [update_self, h rfl]
    · rw [update_of_ne hd]

theorem child_insert_of_ne (j : String) (hne : ¬ (u = .directory d ∧ j = name)) :
    (fs.insert d name node).child u j = fs.child u j :=
  child_update u fun hu => SortedMap.lookup_insert_of_ne _ _ fun hj => hne ⟨hu, hj⟩

theorem child_erase_self : (fs.erase d name).child (.directory d) name = none := by
  show (update fs.dirs d _ d).lookup name = none
  rw [update_self, SortedMap.lookup_erase_self]

theorem child_erase_of_ne (j : String) (hne : ¬ (u = .directory d ∧ j = name)) :
    (fs.erase d name).child u j = fs.child u j :=
  child_update u fun hu => SortedMap.lookup_erase_of_ne _ fun hj => hne ⟨hu, hj⟩

include h in
/-- A directory that has just been made is empty, as it was before. -/
theorem WellFormed.newDirectory_dirs : fs.newDirectory.dirs = fs.dirs := by
  show update fs.dirs fs.nextDir SortedMap.empty = fs.dirs
  rw [← h.unused fs.nextDir le_rfl, update_eq_self]

include h in
/-- A node without entries, put under a name that is free, is found there and changes nothing
else. -/
theorem WellFormed.nodeAt_insert (fs' : RamFs) (node : RamFsNode)
    (hd : fs.nodeAt ps = some (.directory d)) (hfree : (fs.dirs d).lookup name = none)
    (hleaf : ∀ j, fs.child node j = none) (hne : node ≠ .directory d) (hroot : fs'.root = fs.root)
    (hdirs : fs'.dirs = fs.dirs) : (fs'.insert d name node).nodeAt (ps ++ [name]) = some node ∧
      ∀ q, q ≠ ps ++ [name] → (fs'.insert d name node).nodeAt q = fs.nodeAt q := by
  have hother : ∀ u j, ¬ (u = .directory d ∧ j = name) →
      (fs'.insert d name node).child u j = fs.child u j := by
    intro u j hne
    rw [child_insert_of_ne u j hne, child_congr hdirs]
  have hnodeAt : ∀ q, (fs'.insert d name node).nodeAt q =
      walk (fs'.insert d name node).child (.directory fs.root) q := by
    intro q
    rw [← hroot]
    rfl
  have hself : (fs'.insert d name node).nodeAt (ps ++ [name]) = some node := by
    rw [hnodeAt, walk_snoc, h.isTree.walk_changed hd hother]
    exact child_insert_self
  refine ⟨hself, ?_⟩
  intro q hq
  by_cases hpre : ps ++ [name] <+: q
  · -- nothing was below the free name, and nothing is below the new node
    have hbefore : fs.nodeAt q = none := walk_eq_none hd hfree hpre
    rw [hbefore, hnodeAt]
    rw [hnodeAt] at hself
    refine walk_below_leaf hself ?_ hpre hq
    intro j
    rw [hother node j fun hnode => hne hnode.1]
    exact hleaf j
  · rw [hnodeAt]
    exact h.isTree.walk_eq_of_not_prefix hd hother hpre

include h in
/-- A removed entry is gone with everything below it. -/
theorem WellFormed.nodeAt_erase (hd : fs.nodeAt ps = some (.directory d))
    (name : String) (q : List String) : (ps ++ [name] <+: q → (fs.erase d name).nodeAt q = none) ∧
      (¬ ps ++ [name] <+: q → (fs.erase d name).nodeAt q = fs.nodeAt q) := by
  constructor
  · exact walk_eq_none (h.isTree.walk_changed hd child_erase_of_ne) child_erase_self
  · exact h.isTree.walk_eq_of_not_prefix hd child_erase_of_ne

/-! ## The calls keep file systems well formed -/

section

variable (h : WellFormed fs) (hlt : d < fs.nextDir)
include h hlt

/-- A node that has just been made is put into a directory. -/
theorem WellFormed.insert (hroot : fs'.root = fs.root)
    (hdirs : fs'.dirs = fs.dirs) (hfile : fs.nextFile ≤ fs'.nextFile)
    (hdir : fs.nextDir ≤ fs'.nextDir) (hfresh : ∀ u j, fs.child u j ≠ some node)
    (hne : node ≠ .directory fs.root) (hmade : ∀ f, node = .file f → f < fs'.nextFile)
    (hmade' : ∀ d, node = .directory d → d < fs'.nextDir) :
    WellFormed (fs'.insert d name node) := by
  have hother : ∀ u j, ¬ (u = .directory d ∧ j = name) →
      (fs'.insert d name node).child u j = fs.child u j := by
    intro u j hnew
    rw [child_insert_of_ne u j hnew, child_congr hdirs]
  have hcases : ∀ {u j t}, (fs'.insert d name node).child u j = some t →
      t = node ∨ fs.child u j = some t := by
    intro u j t hchild
    by_cases hnew : u = .directory d ∧ j = name
    · rw [hnew.1, hnew.2, child_insert_self] at hchild
      exact .inl (some.inj hchild).symm
    · rw [hother u j hnew] at hchild
      exact .inr hchild
  refine ⟨?_, ?_, ?_, ?_, ?_⟩
  · show Tree _ (RamFsNode.directory fs'.root)
    rw [hroot]
    exact h.isTree.graft hfresh hne child_insert_self hother
  · show fs'.root < fs'.nextDir
    rw [hroot]
    exact lt_of_lt_of_le h.root_lt hdir
  · intro u j d' hchild
    rcases hcases hchild with heq | hold
    · exact hmade' d' heq.symm
    · exact lt_of_lt_of_le (h.dir_lt hold) hdir
  · intro u j f' hchild
    rcases hcases hchild with heq | hold
    · exact hmade f' heq.symm
    · exact lt_of_lt_of_le (h.file_lt hold) hfile
  · intro d' hle
    have hle' : fs.nextDir ≤ d' := hdir.trans hle
    have hne' : d' ≠ d := (lt_of_lt_of_le hlt hle').ne'
    refine (update_of_ne hne' _ _).trans ?_
    rw [hdirs]
    exact h.unused d' hle'

theorem WellFormed.insert_file : WellFormed (fs.newFile.insert d name (.file fs.nextFile)) := by
  refine h.insert hlt rfl rfl (Nat.le_succ _) le_rfl ?_ (by simp) ?_ (by simp)
  · intro u j hchild
    exact absurd (h.file_lt hchild) (lt_irrefl _)
  · intro f hf
    cases hf
    exact Nat.lt_succ_self _

theorem WellFormed.insert_directory :
    WellFormed (fs.newDirectory.insert d name (.directory fs.nextDir)) := by
  refine h.insert hlt rfl h.newDirectory_dirs le_rfl (Nat.le_succ _) ?_ ?_ (by simp) ?_
  · intro u j hchild
    exact absurd (h.dir_lt hchild) (lt_irrefl _)
  · intro heq
    exact h.root_lt.ne' (RamFsNode.directory.inj heq)
  · intro d' hd'
    cases hd'
    exact Nat.lt_succ_self _

theorem WellFormed.erase : WellFormed (fs.erase d name) := by
  have hsub : ∀ {u j t}, (fs.erase d name).child u j = some t → fs.child u j = some t := by
    intro u j t hchild
    by_cases hold : u = .directory d ∧ j = name
    · rw [hold.1, hold.2, child_erase_self] at hchild
      cases hchild
    · rwa [child_erase_of_ne u j hold] at hchild
  refine ⟨h.isTree.of_subset hsub, h.root_lt, fun hc => h.dir_lt (hsub hc),
    fun hc => h.file_lt (hsub hc), ?_⟩
  intro d' hle
  have hne : d' ≠ d := (lt_of_lt_of_le hlt hle).ne'
  exact (update_of_ne hne _ _).trans (h.unused d' hle)

end

/-! ## The calls, at the end of the path -/

theorem parts_ne_root (h : parts path ≠ []) : ¬ (path = "/" ∨ path.isEmpty) := by
  rintro (rfl | hempty)
  · exact h (by decide)
  · rw [String.isEmpty_iff] at hempty
    exact h (by rw [hempty]; decide)

/-! ## What the calls can do -/

/-- Where the walk along the parent fails, it does not lead to a directory. -/
theorem not_directory_of_error {onFile onNone e : FsError}
    (h : fs.descend onFile onNone fs.root ps = .error e) : fs.tree ps ≠ some .directory := by
  intro hdir
  obtain ⟨d, hd⟩ := tree_eq_directory.mp hdir
  rw [(descend_eq_ok onFile onNone).mpr hd] at h
  cases h

theorem directory_of_ok {onFile onNone : FsError}
    (h : fs.descend onFile onNone fs.root ps = .ok d) : fs.nodeAt ps = some (.directory d) :=
  (descend_eq_ok onFile onNone).mp h

inductive OpenOutcome (fs : RamFs) (ps : List String) (name : String) :
    Except FsError RamFsFileHandle × RamFs → Prop
  | fails {e : FsError} : fs.tree ps ≠ some .directory ∨ fs.tree (ps ++ [name]) = some .directory →
      OpenOutcome fs ps name (.error e, fs)
  | old {d : DirRef} {f : FileRef} : fs.nodeAt ps = some (.directory d) →
      fs.nodeAt (ps ++ [name]) = some (.file f) →
      OpenOutcome fs ps name (.ok { file := f, cursor := 0 }, fs)
  | new {d : DirRef} : fs.nodeAt ps = some (.directory d) → (fs.dirs d).lookup name = none →
      OpenOutcome fs ps name (.ok { file := fs.nextFile, cursor := 0 },
        fs.newFile.insert d name (.file fs.nextFile))

inductive MkdirOutcome (fs : RamFs) (ps : List String) (name : String) :
    Except FsError Unit × RamFs → Prop
  | fails {e : FsError} : fs.tree ps ≠ some .directory ∨ fs.tree (ps ++ [name]) ≠ none →
      MkdirOutcome fs ps name (.error e, fs)
  | new {d : DirRef} : fs.nodeAt ps = some (.directory d) → (fs.dirs d).lookup name = none →
      MkdirOutcome fs ps name (.ok (), fs.newDirectory.insert d name (.directory fs.nextDir))

inductive RemoveOutcome (fs : RamFs) (ps : List String) (name : String) :
    Except FsError Unit × RamFs → Prop
  | fails {e : FsError} : fs.tree ps ≠ some .directory ∨ fs.tree (ps ++ [name]) = none →
      RemoveOutcome fs ps name (.error e, fs)
  | gone {d : DirRef} : fs.nodeAt ps = some (.directory d) → fs.tree (ps ++ [name]) ≠ none →
      RemoveOutcome fs ps name (.ok (), fs.erase d name)

section

variable (fs : RamFs) (hparts : parts path = ps ++ [name])
include hparts

theorem open_outcome : OpenOutcome fs ps name (fs.open path) := by
  rw [RamFs.open, if_neg (parts_ne_root (by simp [hparts])), hparts,
    loop_eq fun d part rest hrest => openLoop_cons d part hrest]
  cases hdesc : fs.descend .notDirectory .notFound fs.root ps with
  | error e => exact .fails (.inl (not_directory_of_error hdesc))
  | ok d =>
    have hd := directory_of_ok hdesc
    have hnode := nodeAt_of_directory hd name
    show OpenOutcome fs ps name (fs.openLoop d [name])
    rw [openLoop]
    cases hlookup : (fs.dirs d).lookup name with
    | none => exact .new hd hlookup
    | some node =>
      rw [hlookup] at hnode
      cases node with
      | directory d' => exact .fails (.inr (tree_eq_directory.mpr ⟨d', hnode⟩))
      | file f => exact .old hd hnode

theorem mkdir_outcome : MkdirOutcome fs ps name (fs.mkdir path) := by
  rw [RamFs.mkdir, hparts, if_neg (by simp),
    loop_eq fun d part rest hrest => mkdirLoop_cons d part hrest]
  cases hdesc : fs.descend .notDirectory .notFound fs.root ps with
  | error e => exact .fails (.inl (not_directory_of_error hdesc))
  | ok d =>
    have hd := directory_of_ok hdesc
    have hnode := nodeAt_of_directory hd name
    show MkdirOutcome fs ps name (fs.mkdirLoop d [name])
    rw [mkdirLoop]
    cases hlookup : (fs.dirs d).lookup name with
    | none => exact .new hd hlookup
    | some node =>
      have hsome : fs.tree (ps ++ [name]) ≠ none := by
        rw [Ne, tree_eq_none, hnode, hlookup]
        nofun
      cases node with
      | directory d' | file f => exact .fails (.inr hsome)

theorem remove_outcome : RemoveOutcome fs ps name (fs.remove path) := by
  have hlast : (ps ++ [name]).getLast? = some name := by simp
  rw [RamFs.remove, RamFs.resolveParent, hparts, hlast, dropLast_concat]
  cases hdesc : fs.descend .notDirectory .notFound fs.root ps with
  | error e => exact .fails (.inl (not_directory_of_error hdesc))
  | ok d =>
    have hd := directory_of_ok hdesc
    have hnode := nodeAt_of_directory hd name
    show RemoveOutcome fs ps name (if ((fs.dirs d).lookup name).isSome then _ else _)
    rw [← hnode]
    split
    next hsome =>
      refine .gone hd ?_
      rwa [Ne, tree_eq_none, ← Ne, ← isSome_iff_ne_none]
    next hnone =>
      refine .fails (.inr ?_)
      rw [tree_eq_none]
      exact not_isSome_iff_eq_none.mp hnone

end

/-! ## The calls change the tree -/

include h in
/-- The tree of a file system with other files, as long as those in the tree are the same. -/
theorem WellFormed.tree_eq (hfiles : ∀ f < fs.nextFile, fs'.files f = fs.files f)
    (hnode : fs'.nodeAt q = fs.nodeAt q) : fs'.tree q = fs.tree q := by
  unfold tree
  rw [hnode]
  cases hq : fs.nodeAt q with
  | none => rfl
  | some node =>
    cases node with
    | directory d => rfl
    | file f =>
      show some (Entry.file f (fs'.files f).data) = _
      rw [hfiles f (h.lt_of_nodeAt_file hq)]
      rfl

variable (hd : fs.nodeAt ps = some (.directory d)) (hfree : (fs.dirs d).lookup name = none)

include h hd hfree in
theorem tree_newFile :
    (fs.newFile.insert d name (.file fs.nextFile)).tree (ps ++ [name])
        = some (.file fs.nextFile []) ∧
      ∀ q, q ≠ ps ++ [name] →
        (fs.newFile.insert d name (.file fs.nextFile)).tree q = fs.tree q := by
  obtain ⟨hself, hother⟩ := h.nodeAt_insert fs.newFile (.file fs.nextFile) hd hfree
    (fun _ => rfl) (by simp) rfl rfl
  constructor
  · refine tree_eq_file.mpr ⟨hself, ?_⟩
    show (update fs.files fs.nextFile Bytes.empty fs.nextFile).data = []
    rw [update_self]
    rfl
  · intro q hq
    refine h.tree_eq ?_ (hother q hq)
    intro f hf
    exact update_of_ne hf.ne _ _

include h hd hfree in
theorem tree_newDirectory :
    (fs.newDirectory.insert d name (.directory fs.nextDir)).nodeAt (ps ++ [name])
        = some (.directory fs.nextDir) ∧
      ∀ q, q ≠ ps ++ [name] →
        (fs.newDirectory.insert d name (.directory fs.nextDir)).tree q = fs.tree q := by
  have hne : fs.nextDir ≠ d := (h.lt_of_nodeAt_directory hd).ne'
  obtain ⟨hself, hother⟩ := h.nodeAt_insert fs.newDirectory (.directory fs.nextDir) hd hfree
    (fun j => by show (fs.dirs fs.nextDir).lookup j = none; rw [h.unused _ le_rfl]; rfl)
    (fun heq => hne (RamFsNode.directory.inj heq)) rfl h.newDirectory_dirs
  exact ⟨hself, fun q hq => h.tree_eq (fun _ _ => rfl) (hother q hq)⟩

include h hd in
theorem tree_erase (q : List String) : (ps ++ [name] <+: q → (fs.erase d name).tree q = none) ∧
      (¬ ps ++ [name] <+: q → (fs.erase d name).tree q = fs.tree q) := by
  obtain ⟨hgone, hother⟩ := h.nodeAt_erase hd name q
  exact ⟨fun hpre => tree_eq_none.mpr (hgone hpre),
    fun hpre => h.tree_eq (fun _ _ => rfl) (hother hpre)⟩

/-- What a directory lists. -/
theorem lists_entries (hd : fs.nodeAt p = some (.directory d)) :
    Lists fs.tree p ((fs.dirs d).entries.map listed) := by
  have htree : ∀ key, fs.tree (p ++ [key]) = ((fs.dirs d).lookup key).map fs.entry := by
    intro key
    rw [tree, nodeAt_of_directory hd]
  refine ⟨(fs.dirs d).entries.map (·.1), ?_, ?_, ?_⟩
  · exact pairwise_map.mpr (fs.dirs d).sorted
  · intro key
    rw [htree, isSome_map]
    exact SortedMap.mem_keys_iff
  · rw [filterMap_map, ← filterMap_eq_map]
    apply filterMap_congr
    rintro ⟨key, node⟩ hmem
    show _ = (fs.tree (p ++ [key])).map (Entry.listed key)
    rw [htree, SortedMap.lookup_of_mem hmem]
    cases node <;> rfl

theorem readDir_fst (path : String) : (fs.readDir path).1 =
    (fs.descend .notDirectory .notDirectory fs.root (parts path)).map fun d =>
      (fs.dirs d).entries.map listed := rfl

/-- `read_dir` lists what there is below the path. -/
theorem readDir_eq_ok {names : List String} : (fs.readDir path).1 = .ok names ↔
    ∃ d, fs.nodeAt (parts path) = some (.directory d) ∧
      names = (fs.dirs d).entries.map listed := by
  rw [readDir_fst]
  cases hdesc : fs.descend .notDirectory .notDirectory fs.root (parts path) with
  | error e =>
    refine iff_of_false nofun ?_
    rintro ⟨d, hd, -⟩
    exact not_directory_of_error hdesc (tree_eq_directory.mpr ⟨d, hd⟩)
  | ok d =>
    have hd := directory_of_ok hdesc
    constructor
    · intro h
      cases h
      exact ⟨d, hd, rfl⟩
    · rintro ⟨d', hd', rfl⟩
      rw [hd] at hd'
      cases hd'
      rfl

/-! ## Refinement -/

theorem parts_cases (path : String) : parts path = [] ∨ ∃ ps name, parts path = ps ++ [name] := by
  rcases eq_nil_or_concat (parts path) with h | ⟨ps, name, h⟩
  · exact .inl h
  · exact .inr ⟨ps, name, by rw [h, concat_eq_append]⟩

theorem open_isOk_iff (ho : OpenOutcome fs ps name (fs.open path)) :
    (∃ h, (fs.open path).1 = .ok h) ↔ fs.tree ps = some .directory ∧
      (fs.tree (ps ++ [name]) = none ∨
        ∃ f content, fs.tree (ps ++ [name]) = some (.file f content)) := by
  generalize fs.open path = r at ho
  cases ho with
  | fails hfail =>
    refine iff_of_false (fun ⟨_, h⟩ => by cases h) ?_
    rintro ⟨hdir, hp⟩
    rcases hfail with hfail | hfail
    · exact hfail hdir
    · rw [hfail] at hp
      simp at hp
  | old hd hf =>
    exact iff_of_true ⟨_, rfl⟩
      ⟨tree_eq_directory.mpr ⟨_, hd⟩, .inr ⟨_, _, tree_eq_file.mpr ⟨hf, rfl⟩⟩⟩
  | new hd hfree =>
    refine iff_of_true ⟨_, rfl⟩ ⟨tree_eq_directory.mpr ⟨_, hd⟩, .inl ?_⟩
    rw [tree_eq_none, nodeAt_of_directory hd, hfree]

variable {h : RamFsFileHandle}

theorem open_new (hwf : WellFormed fs) (ho : OpenOutcome fs ps name (fs.open path))
    (hopen : fs.open path = (.ok h, fs'))
    (hnone : fs.tree (ps ++ [name]) = none) :
    h.cursor = 0 ∧ fs'.tree (ps ++ [name]) = some (.file h.file []) ∧
      (∀ q, q ≠ ps ++ [name] → fs'.tree q = fs.tree q) ∧
      ∀ q content, fs.tree q ≠ some (.file h.file content) := by
  rw [hopen] at ho
  cases ho with
  | old hd hf =>
    rw [tree_eq_none, hf] at hnone
    cases hnone
  | new hd hfree =>
    obtain ⟨hself, hother⟩ := tree_newFile hwf hd hfree
    refine ⟨rfl, hself, hother, ?_⟩
    intro q content hq
    exact absurd (hwf.lt_of_nodeAt_file (tree_eq_file.mp hq).1) (lt_irrefl _)

theorem open_old (ho : OpenOutcome fs ps name (fs.open path))
    (hopen : fs.open path = (.ok h, fs'))
    (hfile : fs.tree (ps ++ [name]) = some (.file f content)) :
    h = { file := f, cursor := 0 } ∧ fs'.tree = fs.tree := by
  rw [hopen] at ho
  cases ho with
  | old hd hf =>
    rw [(tree_eq_file.mp hfile).1] at hf
    cases hf
    exact ⟨rfl, rfl⟩
  | new hd hfree =>
    rw [tree, nodeAt_of_directory hd, hfree] at hfile
    cases hfile

theorem mkdir_isOk_iff (hm : MkdirOutcome fs ps name (fs.mkdir path)) :
    (fs.mkdir path).1 = .ok () ↔ fs.tree ps = some .directory ∧ fs.tree (ps ++ [name]) = none := by
  generalize fs.mkdir path = r at hm
  cases hm with
  | fails hfail =>
    refine iff_of_false nofun ?_
    rintro ⟨hdir, hp⟩
    exact hfail.elim (fun hne => hne hdir) (fun hne => hne hp)
  | new hd hfree =>
    refine iff_of_true rfl ⟨tree_eq_directory.mpr ⟨_, hd⟩, ?_⟩
    rw [tree_eq_none, nodeAt_of_directory hd, hfree]

theorem mkdir_ok (hwf : WellFormed fs) (hparts : parts path = ps ++ [name])
    (hmkdir : fs.mkdir path = (.ok (), fs')) :
    fs'.tree (ps ++ [name]) = some .directory ∧ (fs'.readDir path).1 = .ok [] ∧
      ∀ q, q ≠ ps ++ [name] → fs'.tree q = fs.tree q := by
  have hm := mkdir_outcome fs hparts
  rw [hmkdir] at hm
  cases hm with
  | @new d hd hfree =>
    obtain ⟨hself, hother⟩ := tree_newDirectory hwf hd hfree
    refine ⟨tree_eq_directory.mpr ⟨_, hself⟩, ?_, hother⟩
    refine readDir_eq_ok.mpr ⟨fs.nextDir, hparts ▸ hself, ?_⟩
    have hne : fs.nextDir ≠ d := (hwf.lt_of_nodeAt_directory hd).ne'
    show [] = (update fs.newDirectory.dirs d _ fs.nextDir).entries.map listed
    rw [update_of_ne hne, hwf.newDirectory_dirs, hwf.unused _ le_rfl]
    rfl

theorem remove_isOk_iff (hr : RemoveOutcome fs ps name (fs.remove path)) :
    (fs.remove path).1 = .ok () ↔
      fs.tree ps = some .directory ∧ (fs.tree (ps ++ [name])).isSome := by
  rw [isSome_iff_ne_none]
  generalize fs.remove path = r at hr
  cases hr with
  | fails hfail =>
    refine iff_of_false nofun ?_
    rintro ⟨hdir, hp⟩
    exact hfail.elim (fun hne => hne hdir) hp
  | gone hd hsome => exact iff_of_true rfl ⟨tree_eq_directory.mpr ⟨_, hd⟩, hsome⟩

theorem remove_ok (hwf : WellFormed fs) (hr : RemoveOutcome fs ps name (fs.remove path))
    (hremove : fs.remove path = (.ok (), fs')) (q : List String) :
    (ps ++ [name] <+: q → fs'.tree q = none) ∧ (¬ ps ++ [name] <+: q → fs'.tree q = fs.tree q) := by
  rw [hremove] at hr
  cases hr with
  | gone hd _ => exact tree_erase hwf hd q

/-- **Each call comes down to one change of the tree.** -/
theorem refines_of_wellFormed (hwf : WellFormed fs) (hne : parts path ≠ []) :
    Refines fs path (parts path) := by
  obtain ⟨ps, name, hparts⟩ := (parts_cases path).resolve_left hne
  have ho := open_outcome fs hparts
  have hm := mkdir_outcome fs hparts
  have hr := remove_outcome fs hparts
  have hdrop : (parts path).dropLast = ps := by rw [hparts, dropLast_concat]
  constructor
  case open_isOk_iff => rw [hdrop, hparts]; exact open_isOk_iff ho
  case open_new => rw [hparts]; exact fun h fs' => open_new hwf ho
  case open_old => rw [hparts]; exact fun h fs' f content => open_old ho
  case mkdir_isOk_iff => rw [hdrop, hparts]; exact mkdir_isOk_iff hm
  case mkdir_ok => rw [hparts]; exact fun fs' => mkdir_ok hwf hparts
  case remove_isOk_iff => rw [hdrop, hparts]; exact remove_isOk_iff hr
  case remove_ok => rw [hparts]; exact fun fs' => remove_ok hwf hr
  case readDir_isOk_iff =>
    simp only [readDir_eq_ok, tree_eq_directory]
    exact ⟨fun ⟨_, d, hd, _⟩ => ⟨d, hd⟩, fun ⟨d, hd⟩ => ⟨_, d, hd, rfl⟩⟩
  case readDir_ok =>
    intro names hnames
    obtain ⟨d, hd, rfl⟩ := readDir_eq_ok.mp hnames
    exact lists_entries hd
  case open_error =>
    intro e fs' hopen
    rw [hopen] at ho
    cases ho
    rfl
  case mkdir_error =>
    intro e fs' hmkdir
    rw [hmkdir] at hm
    cases hm
    rfl
  case remove_error =>
    intro e fs' hremove
    rw [hremove] at hr
    cases hr
    rfl
  case readDir_same => rfl

/-! ## Any path -/

/-- The files that were there before a call are still there, with the same data. -/
structure FilesKept (fs fs' : RamFs) : Prop where
  nextFile_le : fs.nextFile ≤ fs'.nextFile
  files_eq : ∀ f < fs.nextFile, fs'.files f = fs.files f

theorem FilesKept.refl (fs : RamFs) : FilesKept fs fs := ⟨le_rfl, fun _ _ => rfl⟩

section

variable (h : WellFormed fs) (path : String)
include h

theorem open_spec : WellFormed (fs.open path).2 ∧ FilesKept fs (fs.open path).2 ∧
      ∀ hd, (fs.open path).1 = .ok hd → hd.cursor = 0 ∧ hd.file < (fs.open path).2.nextFile := by
  rcases parts_cases path with hparts | ⟨ps, name, hparts⟩
  · have hopen : ∃ e, fs.open path = (.error e, fs) := by
      unfold RamFs.open
      split
      · exact ⟨_, rfl⟩
      · rw [hparts]
        exact ⟨_, rfl⟩
    obtain ⟨e, hopen⟩ := hopen
    rw [hopen]
    exact ⟨h, .refl _, nofun⟩
  · have ho := open_outcome fs hparts
    generalize fs.open path = r at ho
    cases ho with
    | fails _ => exact ⟨h, .refl _, nofun⟩
    | old hd hf =>
      refine ⟨h, .refl _, ?_⟩
      rintro _ ⟨rfl⟩
      exact ⟨rfl, h.lt_of_nodeAt_file hf⟩
    | new hd hfree =>
      refine ⟨h.insert_file (h.lt_of_nodeAt_directory hd), ⟨Nat.le_succ _, ?_⟩, ?_⟩
      · intro f hf
        exact update_of_ne hf.ne _ _
      · rintro _ ⟨rfl⟩
        exact ⟨rfl, Nat.lt_succ_self _⟩

theorem mkdir_spec : WellFormed (fs.mkdir path).2 ∧ FilesKept fs (fs.mkdir path).2 := by
  rcases parts_cases path with hparts | ⟨ps, name, hparts⟩
  · rw [RamFs.mkdir, hparts]
    exact ⟨h, .refl _⟩
  · have hm := mkdir_outcome fs hparts
    generalize fs.mkdir path = r at hm
    cases hm with
    | fails _ => exact ⟨h, .refl _⟩
    | new hd hfree =>
      exact ⟨h.insert_directory (h.lt_of_nodeAt_directory hd), le_rfl, fun _ _ => rfl⟩

theorem remove_spec : WellFormed (fs.remove path).2 ∧ FilesKept fs (fs.remove path).2 := by
  rcases parts_cases path with hparts | ⟨ps, name, hparts⟩
  · rw [RamFs.remove, RamFs.resolveParent, hparts]
    exact ⟨h, .refl _⟩
  · have hr := remove_outcome fs hparts
    generalize fs.remove path = r at hr
    cases hr with
    | fails _ => exact ⟨h, .refl _⟩
    | gone hd _ => exact ⟨h.erase (h.lt_of_nodeAt_directory hd), le_rfl, fun _ _ => rfl⟩

end

end RamFs

end BeastOs.Fs
