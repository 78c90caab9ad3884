import BeastOs.Word

/-!
# Mounted file systems

`Vfs` of `kernel/src/fs/vfs.rs`. Its four calls go through the mounts, the latest one first, and
hand the call to the first whose mount point the path starts with, as a string. The mount point is
cut off the path, and `/` is what is left of the mount point itself.

So it is the latest of the matching mounts that serves a path. It need not be the one with the
longest mount point (`orderIrrelevant_iff`), and its mount point need not end where a component of
the path ends (`respectsComponents_iff`).
-/

namespace BeastOs

inductive FsError
  | notFound
  | permissionDenied
  | ioError
  | isDirectory
  | notDirectory
  | alreadyExists
  deriving DecidableEq, Repr

namespace Mounts

/-! ## The virtual file system -/

/-- The trait `FileSystem`. The calls work on a state `W`; `F` are the open files. -/
structure FileSystem (W F : Type) where
  «open» : String → W → Except FsError F × W
  readDir : String → W → Except FsError (List String) × W
  mkdir : String → W → Except FsError Unit × W := fun _ w => (.error .permissionDenied, w)
  remove : String → W → Except FsError Unit × W := fun _ w => (.error .permissionDenied, w)

variable {W F α : Type} {path : String} {w : W}

/-- A mount point and what is mounted there. -/
abbrev Mount (W F : Type) := String × FileSystem W F

structure Vfs (W F : Type) where
  filesystems : List (Mount W F)

/-- The path from the mount point on. -/
def relativePath (point path : String) : String :=
  let relativePath := (path.drop point.length).toString
  if relativePath.isEmpty then "/" else relativePath

/-- The loop of the four calls. -/
def dispatch (call : FileSystem W F → String → W → Except FsError α × W) (path : String) :
    List (Mount W F) → W → Except FsError α × W
  | [], w => (.error .notFound, w)
  | (point, fs) :: mounts, w =>
    if path.startsWith point then call fs (relativePath point path) w
    else dispatch call path mounts w

namespace Vfs

def new : Vfs W F := ⟨[]⟩

def mount (vfs : Vfs W F) (point : String) (fs : FileSystem W F) : Vfs W F :=
  ⟨vfs.filesystems ++ [(point, fs)]⟩

def «open» (vfs : Vfs W F) (path : String) : W → Except FsError F × W :=
  dispatch FileSystem.open path vfs.filesystems.reverse

def readDir (vfs : Vfs W F) (path : String) : W → Except FsError (List String) × W :=
  dispatch FileSystem.readDir path vfs.filesystems.reverse

def mkdir (vfs : Vfs W F) (path : String) : W → Except FsError Unit × W :=
  dispatch FileSystem.mkdir path vfs.filesystems.reverse

def remove (vfs : Vfs W F) (path : String) : W → Except FsError Unit × W :=
  dispatch FileSystem.remove path vfs.filesystems.reverse

end Vfs

theorem dispatch_eq_find (call : FileSystem W F → String → W → Except FsError α × W)
    (path : String) (mounts : List (Mount W F)) (w : W) :
    dispatch call path mounts w =
      match mounts.find? fun mount => path.startsWith mount.1 with
      | none => (.error .notFound, w)
      | some mount => call mount.2 (relativePath mount.1 path) w := by
  induction mounts with
  | nil => rfl
  | cons mount mounts ih =>
    rw [dispatch, ih, List.find?_cons]
    cases path.startsWith mount.1 <;> rfl

/-! ## Who serves a path -/

inductive Call
  | «open»
  | readDir
  | mkdir
  | remove
  deriving DecidableEq, Repr

/-- The state after a call. -/
def Vfs.after (vfs : Vfs W F) (call : Call) (path : String) (w : W) : W :=
  match call with
  | .open => (vfs.open path w).2
  | .readDir => (vfs.readDir path w).2
  | .mkdir => (vfs.mkdir path w).2
  | .remove => (vfs.remove path w).2

/-- A path that was handed to a file system. -/
structure Handed (W F : Type) where
  point : String
  fs : FileSystem W F
  path : String

def record (mount : Mount W F) (f : String → W → Except FsError α × W) (path : String)
    (s : W × List (Handed W F)) : Except FsError α × (W × List (Handed W F)) :=
  let (result, w) := f path s.1
  (result, w, s.2 ++ [⟨mount.1, mount.2, path⟩])

/-- The file system writes down which paths it is handed. -/
def Mount.recorded (mount : Mount W F) : Mount (W × List (Handed W F)) F :=
  (mount.1, {
    «open» := record mount mount.2.open
    readDir := record mount mount.2.readDir
    mkdir := record mount mount.2.mkdir
    remove := record mount mount.2.remove })

/-- What a call hands to the file systems. -/
def Vfs.handed (vfs : Vfs W F) (call : Call) (path : String) (w : W) : List (Handed W F) :=
  (Vfs.after ⟨vfs.filesystems.map Mount.recorded⟩ call path (w, [])).2

variable {vfs : Vfs W F} {call : Call} {mount m : Mount W F}
  {mounts first second : List (Mount W F)} {h : Handed W F}

/-- The matching mount that was mounted last. -/
def LastMatch (mounts : List (Mount W F)) (path : String) (mount : Mount W F) : Prop :=
  ∃ before after, mounts = before ++ mount :: after ∧ path.startsWith mount.1 = true ∧
    ∀ m ∈ after, path.startsWith m.1 = false

theorem lastMatch_iff : LastMatch mounts path mount ↔
      mounts.reverse.find? (fun m => path.startsWith m.1) = some mount := by
  rw [List.find?_eq_some_iff_append]
  constructor
  · rintro ⟨before, after, rfl, hmatch, hafter⟩
    refine ⟨hmatch, after.reverse, before.reverse, by simp, ?_⟩
    intro m hm
    rw [hafter m (List.mem_reverse.mp hm)]
    rfl
  · rintro ⟨hmatch, after, before, heq, hafter⟩
    refine ⟨before.reverse, after.reverse, ?_, hmatch, ?_⟩
    · rw [List.reverse_eq_iff.mp heq]
      simp
    · intro m hm
      simpa using hafter m (List.mem_reverse.mp hm)

/-- A call that the file systems write down. -/
theorem dispatch_recorded
    {call : FileSystem (W × List (Handed W F)) F → String → W × List (Handed W F) →
      Except FsError α × (W × List (Handed W F))}
    (f : FileSystem W F → String → W → Except FsError α × W)
    (hcall : ∀ mount, call (Mount.recorded mount).2 = record mount (f mount.2)) :
    (dispatch call path (mounts.map Mount.recorded).reverse (w, [])).2.2 =
      ((mounts.reverse.find? fun m => path.startsWith m.1).map fun mount =>
        (⟨mount.1, mount.2, relativePath mount.1 path⟩ : Handed W F)).toList := by
  have hfind : (mounts.map Mount.recorded).reverse.find? (fun m => path.startsWith m.1) =
      (mounts.reverse.find? fun m => path.startsWith m.1).map Mount.recorded := by
    rw [← List.map_reverse, List.find?_map]
    rfl
  rw [dispatch_eq_find, hfind]
  cases mounts.reverse.find? fun m => path.startsWith m.1 with
  | none => rfl
  | some mount =>
    show (call (Mount.recorded mount).2 _ _).2.2 = _
    rw [hcall]
    rfl

/-- **Each of the four calls is handed to the last match.** -/
theorem handed_eq (vfs : Vfs W F) (call : Call) (path : String) (w : W) : vfs.handed call path w =
      ((vfs.filesystems.reverse.find? fun m => path.startsWith m.1).map fun mount =>
        (⟨mount.1, mount.2, relativePath mount.1 path⟩ : Handed W F)).toList := by
  cases call with
  | «open» => exact dispatch_recorded FileSystem.open fun _ => rfl
  | readDir => exact dispatch_recorded FileSystem.readDir fun _ => rfl
  | mkdir => exact dispatch_recorded FileSystem.mkdir fun _ => rfl
  | remove => exact dispatch_recorded FileSystem.remove fun _ => rfl

theorem mem_handed : h ∈ vfs.handed call path w ↔ ∃ mount, LastMatch vfs.filesystems path mount ∧
      h = ⟨mount.1, mount.2, relativePath mount.1 path⟩ := by
  rw [handed_eq, Option.mem_toList, Option.map_eq_some_iff]
  simp only [lastMatch_iff, eq_comm]

theorem exists_lastMatch (hm : m ∈ mounts) (hmatch : path.startsWith m.1 = true) :
    ∃ mount, LastMatch mounts path mount := by
  simp only [lastMatch_iff, ← Option.isSome_iff_exists, List.find?_isSome]
  exact ⟨m, List.mem_reverse.mpr hm, hmatch⟩

theorem LastMatch.mem (hlast : LastMatch mounts path mount) : mount ∈ mounts := by
  obtain ⟨before, after, rfl, -, -⟩ := hlast
  simp

theorem LastMatch.startsWith (hlast : LastMatch mounts path mount) :
    path.startsWith mount.1 = true := by
  obtain ⟨before, after, -, hmatch, -⟩ := hlast
  exact hmatch

/-! ## Components -/

/-- The mount point is the root, or it ends where a component of the path ends. -/
def AtBorder (point path : String) : Prop :=
  point = "/" ∨ path = point ∨ path.startsWith (point ++ "/") = true

/-- No call hands a path to a file system that is mounted in the middle of a component. -/
def Vfs.RespectsComponents (vfs : Vfs W F) (path : String) (w : W) : Prop :=
  ∀ call, ∀ h ∈ vfs.handed call path w, AtBorder h.point path

/-- **When mounts respect components.** -/
theorem respectsComponents_iff (vfs : Vfs W F) (path : String) (w : W) :
    vfs.RespectsComponents path w ↔
      ∀ mount, LastMatch vfs.filesystems path mount → AtBorder mount.1 path := by
  constructor
  · intro hrespects mount hlast
    exact hrespects .open ⟨mount.1, mount.2, _⟩ (mem_handed.mpr ⟨mount, hlast, rfl⟩)
  · intro hborder call h hh
    obtain ⟨mount, hlast, rfl⟩ := mem_handed.mp hh
    exact hborder mount hlast

/-- A file system without files. -/
def emptyFs : FileSystem Unit Unit where
  «open» _ w := (.error .notFound, w)
  readDir _ w := (.error .notFound, w)

/-- The root and the home directories, as the kernel mounts them. -/
def rootAndHome : Vfs Unit Unit := (Vfs.new.mount "/" emptyFs).mount "/home" emptyFs

/-- `/homework` is served by the file system that is mounted at `/home`. -/
theorem not_respectsComponents_homework :
    (⟨"/home", emptyFs, "work"⟩ : Handed Unit Unit) ∈ rootAndHome.handed .open "/homework" () ∧
      ¬ rootAndHome.RespectsComponents "/homework" () := by
  have hhanded : (⟨"/home", emptyFs, "work"⟩ : Handed Unit Unit) ∈
      rootAndHome.handed .open "/homework" () := by
    refine mem_handed.mpr
      ⟨("/home", emptyFs), ⟨[("/", emptyFs)], [], rfl, by decide +kernel, by simp⟩,
      ?_⟩
    rw [show relativePath "/home" "/homework" = "work" by decide +kernel]
  refine ⟨hhanded, ?_⟩
  intro hrespects
  have hborder := hrespects .open _ hhanded
  unfold AtBorder at hborder
  revert hborder
  decide +kernel

/-! ## The order of the mounts -/

/-- The virtual file system after these mounts. -/
def mountAll (order : List (Mount W F)) : Vfs W F :=
  order.foldl (fun vfs mount => vfs.mount mount.1 mount.2) Vfs.new

theorem filesystems_mountAll (order : List (Mount W F)) : (mountAll order).filesystems = order := by
  have hfold : ∀ vfs : Vfs W F,
      (order.foldl (fun vfs mount => vfs.mount mount.1 mount.2) vfs).filesystems =
        vfs.filesystems ++ order := by
    induction order with
    | nil => simp
    | cons mount order ih =>
      intro vfs
      rw [List.foldl_cons, ih]
      simp [Vfs.mount]
  exact hfold Vfs.new

/-- The path is handed to the mount with the longest matching mount point. -/
structure Longest (mounts : List (Mount W F)) (path : String) (h : Handed W F) : Prop where
  mem : (h.point, h.fs) ∈ mounts
  startsWith : path.startsWith h.point = true
  longest : ∀ m ∈ mounts, path.startsWith m.1 = true → m.1.length ≤ h.point.length
  path : h.path = relativePath h.point path

/-- In both orders the calls go to the longest match. -/
structure OrderIrrelevant (first second : List (Mount W F)) (path : String) (w : W) : Prop where
  same : ∀ call, (mountAll first).handed call path w = (mountAll second).handed call path w
  longest : ∀ call h, h ∈ (mountAll first).handed call path w ↔ Longest first path h

/-- No matching mount comes after the longest one. -/
def LongestLast (mounts : List (Mount W F)) (path : String) : Prop :=
  ∀ mount, LastMatch mounts path mount →
    ∀ m ∈ mounts, path.startsWith m.1 = true → m.1.length ≤ mount.1.length

/-- Two beginnings of a path with the same length are the same. -/
theorem eq_of_startsWith {a b : String} (ha : path.startsWith a = true)
    (hb : path.startsWith b = true) (hlength : a.length = b.length) : a = b := by
  rw [String.startsWith_string_iff] at ha hb
  apply String.toList_injective
  have hlength' : a.toList.length = b.toList.length := by
    simp only [String.length_toList, hlength]
  exact (List.prefix_of_prefix_length_le ha hb hlength'.le).eq_of_length hlength'

section

variable (hdistinct : (mounts.map (·.1)).Nodup) (hmount : mount ∈ mounts)
include hdistinct hmount

theorem eq_of_point_eq (hm : m ∈ mounts) (hpoint : mount.1 = m.1) : mount = m :=
  List.inj_on_of_nodup_map hdistinct hmount hm hpoint

/-- The longest match is one mount. -/
theorem eq_of_longest (hstart : path.startsWith mount.1 = true)
    (hlongest : ∀ m ∈ mounts, path.startsWith m.1 = true → m.1.length ≤ mount.1.length)
    (hm : m ∈ mounts) (hstart' : path.startsWith m.1 = true)
    (hlongest' : ∀ n ∈ mounts, path.startsWith n.1 = true → n.1.length ≤ m.1.length) :
    mount = m := by
  apply eq_of_point_eq hdistinct hmount hm
  apply eq_of_startsWith hstart hstart'
  exact Nat.le_antisymm (hlongest' mount hmount hstart) (hlongest m hm hstart')

end

theorem mem_handed_mountAll :
    h ∈ (mountAll mounts).handed call path w ↔ ∃ mount, LastMatch mounts path mount ∧
      h = ⟨mount.1, mount.2, relativePath mount.1 path⟩ := by
  rw [mem_handed, filesystems_mountAll]

theorem LongestLast.mem_handed_iff (hlast : LongestLast mounts path)
    (hdistinct : (mounts.map (·.1)).Nodup) :
    h ∈ (mountAll mounts).handed call path w ↔ Longest mounts path h := by
  rw [mem_handed_mountAll]
  constructor
  · rintro ⟨⟨point, fs⟩, hmatch, rfl⟩
    exact ⟨hmatch.mem, hmatch.startsWith, hlast (point, fs) hmatch, by dsimp only⟩
  · rintro ⟨hmem, hstart, hlongest, hpath⟩
    obtain ⟨mount, hmatch⟩ := exists_lastMatch hmem hstart
    have heq := eq_of_longest hdistinct hmem hstart hlongest hmatch.mem hmatch.startsWith
      (hlast mount hmatch)
    refine ⟨mount, hmatch, ?_⟩
    rw [← heq, ← hpath]

theorem longestLast_of_handed
    (hlongest : ∀ h, h ∈ (mountAll mounts).handed .open path w → Longest mounts path h) :
    LongestLast mounts path := by
  intro mount hmatch
  exact (hlongest _ (mem_handed_mountAll.mpr ⟨mount, hmatch, rfl⟩)).longest

theorem Longest.perm (hperm : first.Perm second) (hlongest : Longest first path h) :
    Longest second path h :=
  ⟨hperm.mem_iff.mp hlongest.mem, hlongest.startsWith,
    fun m hm => hlongest.longest m (hperm.mem_iff.mpr hm), hlongest.path⟩

/-- A path is handed to one file system at most. -/
theorem handed_ext {vfs' : Vfs W F}
    (hsame : ∀ h, h ∈ vfs.handed call path w ↔ h ∈ vfs'.handed call path w) :
    vfs.handed call path w = vfs'.handed call path w := by
  have hshort : ∀ vfs : Vfs W F, ∃ o : Option (Handed W F), vfs.handed call path w = o.toList :=
    fun vfs => ⟨_, handed_eq vfs call path w⟩
  obtain ⟨o, ho⟩ := hshort vfs
  obtain ⟨o', ho'⟩ := hshort vfs'
  rw [ho, ho'] at hsame ⊢
  congr 1
  ext h
  simpa using hsame h

/-- **When the order of the mounts does not matter.** Mounted in one order or in the other, with
distinct mount points, the calls go to the longest match exactly when in both orders no matching
mount comes after the longest one. -/
theorem orderIrrelevant_iff (hperm : first.Perm second) (hdistinct : (first.map (·.1)).Nodup)
    (path : String) (w : W) :
    OrderIrrelevant first second path w ↔ LongestLast first path ∧ LongestLast second path := by
  have hdistinct' : (second.map (·.1)).Nodup := (hperm.map _).nodup_iff.mp hdistinct
  constructor
  · intro hirrelevant
    refine ⟨longestLast_of_handed fun h => (hirrelevant.longest .open h).mp, ?_⟩
    apply longestLast_of_handed (w := w)
    intro h hh
    rw [← hirrelevant.same] at hh
    exact ((hirrelevant.longest .open h).mp hh).perm hperm
  · rintro ⟨hfirst, hsecond⟩
    refine ⟨?_, fun call h => hfirst.mem_handed_iff hdistinct⟩
    intro call
    apply handed_ext
    intro h
    rw [hfirst.mem_handed_iff hdistinct, hsecond.mem_handed_iff hdistinct']
    exact ⟨fun hlongest => hlongest.perm hperm, fun hlongest => hlongest.perm hperm.symm⟩

theorem longestLast_of_lastMatch (hmatch : LastMatch mounts path mount)
    (hlongest : ∀ m ∈ mounts, path.startsWith m.1 = true → m.1.length ≤ mount.1.length) :
    LongestLast mounts path := by
  intro mount' hmatch'
  rw [lastMatch_iff] at hmatch hmatch'
  rw [hmatch] at hmatch'
  cases hmatch'
  exact hlongest

/-- With the root mounted first, the order of two others does not matter. -/
theorem orderIrrelevant_home :
    OrderIrrelevant [("/", emptyFs), ("/home", emptyFs), ("/dev", emptyFs)]
      [("/", emptyFs), ("/dev", emptyFs), ("/home", emptyFs)] "/home/a" () := by
  refine (orderIrrelevant_iff (.cons _ (.swap _ _ _)) (by decide) _ _).mpr ⟨?_, ?_⟩
  · have hmatch : LastMatch [("/", emptyFs), ("/home", emptyFs), ("/dev", emptyFs)] "/home/a"
        ("/home", emptyFs) :=
      ⟨[("/", emptyFs)], [("/dev", emptyFs)], rfl, by decide +kernel,
        List.forall_mem_singleton.mpr (by decide +kernel)⟩
    refine longestLast_of_lastMatch hmatch ?_
    decide +kernel
  · have hmatch : LastMatch [("/", emptyFs), ("/dev", emptyFs), ("/home", emptyFs)] "/home/a"
        ("/home", emptyFs) :=
      ⟨[("/", emptyFs), ("/dev", emptyFs)], [], rfl, by decide +kernel, by simp⟩
    refine longestLast_of_lastMatch hmatch ?_
    decide +kernel

/-- When the root is mounted last, it takes over the paths in `/home`. -/
theorem not_orderIrrelevant_home :
    ¬ OrderIrrelevant [("/home", emptyFs), ("/", emptyFs)] [("/", emptyFs), ("/home", emptyFs)]
      "/home/a" () := by
  intro hirrelevant
  have hmatch : LastMatch [("/home", emptyFs), ("/", emptyFs)] "/home/a" ("/", emptyFs) :=
    ⟨[("/home", emptyFs)], [], rfl, by decide +kernel, by simp⟩
  have hlongest :=
    ((hirrelevant.longest .open _).mp (mem_handed_mountAll.mpr ⟨_, hmatch, rfl⟩)).longest
  have hle := hlongest ("/home", emptyFs) (by simp) (by decide +kernel)
  revert hle
  decide +kernel

end Mounts

end BeastOs
