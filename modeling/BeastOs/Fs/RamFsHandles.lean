import BeastOs.Lib.Runs
import BeastOs.Fs.RamFs

/-!
# Open files of the RAM file system

A handle is a reference to a file and a position in it. Any number of handles may share a file, and
each keeps its own position while the others write. Reading and writing take slices of the data from
the position on, and a slice that is out of range stops the kernel.

That none ever is rests on one fact about all handles at once: a position is never behind the end of
its file (`Inv.cursor_le`), since files only grow. From it follows what each call does
(`cursors_of_run`). The same runs are the reachable file systems of `refines_of_run`.
-/

namespace BeastOs.Fs

open List Function Lib

/-! ## Handles -/

/-- Why the kernel stops. -/
inductive Panic where
  /-- a slice out of range, or a copy between slices of different lengths -/
  | slice
  /-- a vector of more than `isize::MAX` bytes -/
  | capacity
  deriving DecidableEq, Repr

namespace Bytes

def len (b : Bytes) : Nat := b.data.length

/-- `&data[start..stop]` -/
def slice (b : Bytes) (start stop : Nat) : Except Panic (List U8) :=
  if start ≤ stop ∧ stop ≤ b.len then .ok ((b.data.take stop).drop start) else .error .slice

/-- `data.resize(n, 0)` -/
def resize (b : Bytes) (n : Nat) : Except Panic Bytes :=
  if h : n ≤ isizeMax then
    .ok ⟨b.data.take n ++ List.replicate (n - b.len) 0, by simp [len]; omega⟩
  else .error .capacity

/-- `data[start..stop].copy_from_slice(buf)` -/
def copyFromSlice (b : Bytes) (start stop : Nat) (buf : Bytes) : Except Panic Bytes :=
  if h : start ≤ stop ∧ stop ≤ b.len ∧ buf.len = stop - start then
    .ok ⟨b.data.take start ++ buf.data ++ b.data.drop stop, by
      have := b.length_le
      simp only [len] at h
      simp
      omega⟩
  else .error .slice

/-- The bytes after a write: the buffer from the cursor on, and what was there elsewhere. -/
structure Written (file buf : Bytes) (cursor : Nat) (new : Bytes) : Prop where
  len_eq : new.len = max file.len (cursor + buf.len)
  bytes : ∀ j, new.data[j]? =
    if cursor ≤ j ∧ j < cursor + buf.len then buf.data[j - cursor]? else file.data[j]?

/-- The copy, once the file is long enough. -/
theorem copyFromSlice_eq {file buf : Bytes} {start : Nat} (hle : start + buf.len ≤ file.len) :
    ∃ new, file.copyFromSlice start (start + buf.len) buf = .ok new ∧
      Bytes.Written file buf start new := by
  unfold Bytes.copyFromSlice
  rw [dif_pos ⟨by omega, hle, by omega⟩]
  refine ⟨_, rfl, ?_, ?_⟩
  · unfold Bytes.len at *
    simp
    omega
  · intro j
    unfold Bytes.len at *
    simp only [append_assoc, getElem?_append, length_take, getElem?_take, getElem?_drop]
    split_ifs <;> grind

/-- Making the file long enough only adds zeros behind its end. -/
theorem resize_eq {file : Bytes} {n : Nat} (hlt : file.len < n) (hn : n ≤ isizeMax) :
    ∃ new, file.resize n = .ok new ∧ new.len = n ∧
      ∀ j, j < file.len ∨ n ≤ j → new.data[j]? = file.data[j]? := by
  unfold Bytes.resize
  rw [dif_pos hn]
  refine ⟨_, rfl, ?_, ?_⟩
  · unfold Bytes.len at *
    simp
    omega
  · intro j hj
    show (file.data.take n ++ replicate (n - file.len) 0)[j]? = file.data[j]?
    unfold Bytes.len at *
    rw [take_of_length_le hlt.le, getElem?_append]
    split
    · rfl
    next hge =>
      rw [getElem?_eq_none (by simp; omega), getElem?_eq_none (by omega)]

end Bytes

namespace RamFsFileHandle

/-- `File::read` into a buffer of `bufLen` bytes. -/
def read (self : RamFsFileHandle) (file : Bytes) (bufLen : Nat) :
    Except Panic (List U8 × RamFsFileHandle) :=
  if self.cursor ≥ file.len then .ok ([], self)
  else do
    let available := file.len - self.cursor
    let toRead := min available bufLen
    let stop := (self.cursor + toRead) % 2 ^ 64
    let bytes ← file.slice self.cursor stop
    if bytes.length ≠ toRead then .error .slice
    else return (bytes, { self with cursor := stop })

/-- `File::write` -/
def write (self : RamFsFileHandle) (file buf : Bytes) :
    Except Panic (Nat × Bytes × RamFsFileHandle) := do
  let stop := (self.cursor + buf.len) % 2 ^ 64
  let file ← if stop > file.len then file.resize stop else .ok file
  let file ← file.copyFromSlice self.cursor stop buf
  return (buf.len, file, { self with cursor := stop })

/-- `File::seek` -/
def seek (self : RamFsFileHandle) (file : Bytes) (offset : U64) :
    Except FsError U64 × RamFsFileHandle :=
  if offset.toNat > file.len then (.error .ioError, self)
  else (.ok offset, { self with cursor := offset.toNat })

variable {self : RamFsFileHandle} {file buf : Bytes}

/-- A read that returns has put no more into the buffer than there is room for. -/
theorem read_spec {bufLen : Nat} {r : List U8 × RamFsFileHandle}
    (h : self.read file bufLen = .ok r) : r.1.length ≤ bufLen ∧ r.2.file = self.file := by
  unfold read at h
  split at h
  · cases h
    exact ⟨Nat.zero_le _, rfl⟩
  · dsimp only [bind, Except.bind] at h
    split at h
    · cases h
    · split at h
      · cases h
      next hlen =>
        cases h
        exact ⟨(not_not.mp hlen).le.trans (min_le_right _ _), rfl⟩

theorem write_spec {r : Nat × Bytes × RamFsFileHandle} (h : self.write file buf = .ok r) :
    r.1 = buf.len ∧ r.2.2.file = self.file := by
  dsimp only [write, bind, Except.bind, pure, Except.pure] at h
  repeat' split at h
  all_goals cases h
  all_goals exact ⟨rfl, rfl⟩

section

variable (hle : self.cursor ≤ file.len)
include hle

theorem read_eq (bufLen : Nat) : self.read file bufLen = .ok
      ((file.data.take (min (self.cursor + bufLen) file.len)).drop self.cursor,
        { self with cursor := min (self.cursor + bufLen) file.len }) := by
  have hmax : file.len ≤ isizeMax := file.length_le
  unfold read
  split
  next hend =>
    have hmin : min (self.cursor + bufLen) file.len = self.cursor := by omega
    rw [hmin, drop_eq_nil_of_le (by simp)]
  next hlt =>
    have hsum : self.cursor + min (file.len - self.cursor) bufLen
        = min (self.cursor + bufLen) file.len := by omega
    have hmod : (self.cursor + min (file.len - self.cursor) bufLen) % 2 ^ 64
        = min (self.cursor + bufLen) file.len := by
      rw [hsum]
      exact Nat.mod_eq_of_lt (by unfold isizeMax at hmax; omega)
    dsimp only
    rw [hmod, Bytes.slice, if_pos (by omega)]
    have hlen : ((file.data.take (min (self.cursor + bufLen) file.len)).drop self.cursor).length
        = min (file.len - self.cursor) bufLen := by
      rw [length_drop, length_take]
      unfold Bytes.len at *
      omega
    show (if _ ≠ _ then _ else _) = _
    rw [if_neg (by rw [hlen]; simp)]
    rfl

theorem write_eq (hmax : self.cursor + buf.len ≤ isizeMax) :
    ∃ new, self.write file buf = .ok (buf.len, new, { self with cursor := self.cursor + buf.len }) ∧
      Bytes.Written file buf self.cursor new := by
  have hmod : (self.cursor + buf.len) % 2 ^ 64 = self.cursor + buf.len :=
    Nat.mod_eq_of_lt (by unfold isizeMax at hmax; omega)
  unfold write
  rw [hmod]
  by_cases hlt : file.len < self.cursor + buf.len
  · obtain ⟨mid, hmid, hlen, hsame⟩ := Bytes.resize_eq hlt hmax
    obtain ⟨new, hnew, hwritten⟩ := Bytes.copyFromSlice_eq (hlen.ge : _ ≤ mid.len)
    refine ⟨new, ?_, ?_, ?_⟩
    · simp only [if_pos hlt, hmid, hnew, bind, Except.bind, pure, Except.pure]
    · rw [hwritten.len_eq, hlen]
      omega
    · intro j
      rw [hwritten.bytes j]
      split
      · rfl
      next hj => exact hsame j (by omega)
  · obtain ⟨new, hnew, hwritten⟩ := Bytes.copyFromSlice_eq (Nat.le_of_not_lt hlt)
    refine ⟨new, ?_, hwritten⟩
    simp only [if_neg hlt, hnew, bind, Except.bind, pure, Except.pure]

theorem write_eq_capacity (hmax : isizeMax < self.cursor + buf.len) :
    self.write file buf = .error .capacity := by
  have hfile : file.len ≤ isizeMax := file.length_le
  have hbuf : buf.len ≤ isizeMax := buf.length_le
  have hmod : (self.cursor + buf.len) % 2 ^ 64 = self.cursor + buf.len :=
    Nat.mod_eq_of_lt (by unfold isizeMax at *; omega)
  have hlt : file.len < self.cursor + buf.len := by omega
  unfold write Bytes.resize
  rw [hmod]
  simp only [if_pos hlt, dif_neg (not_le.mpr hmax), bind, Except.bind]

end

theorem seek_eq (offset : U64) : self.seek file offset =
    if offset.toNat ≤ file.len then (.ok offset, { self with cursor := offset.toNat })
    else (.error .ioError, self) := by
  unfold seek
  by_cases h : offset.toNat ≤ file.len
  · rw [if_pos h, if_neg (not_lt.mpr h)]
  · rw [if_neg h, if_pos (Nat.lt_of_not_le h)]

end RamFsFileHandle

/-! ## All open files -/

/-- The file system and the handles on its files, under the numbers of their owners. -/
structure Sessions where
  fs : RamFs
  handles : Nat → Option RamFsFileHandle

namespace Sessions

def new : Sessions := ⟨RamFs.new, fun _ => none⟩

def setHandle (s : Sessions) (i : Nat) (h : RamFsFileHandle) : Sessions :=
  { s with handles := Function.update s.handles i (some h) }

def setFile (s : Sessions) (f : FileRef) (file : Bytes) : Sessions :=
  { s with fs := { s.fs with files := Function.update s.fs.files f file } }

/-- The data that a handle is on. -/
def content (s : Sessions) (h : RamFsFileHandle) : Bytes := s.fs.files h.file

/-- `None` if there is no such handle. -/
def read (s : Sessions) (i bufLen : Nat) : Option (Except Panic (List U8 × Sessions)) :=
  (s.handles i).map fun h =>
    (h.read (s.content h) bufLen).map fun r => (r.1, s.setHandle i r.2)

def write (s : Sessions) (i : Nat) (buf : Bytes) : Option (Except Panic (Nat × Sessions)) :=
  (s.handles i).map fun h =>
    (h.write (s.content h) buf).map fun r => (r.1, (s.setFile h.file r.2.1).setHandle i r.2.2)

def seek (s : Sessions) (i : Nat) (offset : U64) : Option (Except FsError U64 × Sessions) :=
  (s.handles i).map fun h =>
    ((h.seek (s.content h) offset).1, s.setHandle i (h.seek (s.content h) offset).2)

inductive Event where
  | «open» (i : Nat) (path : String)
  | close (i : Nat)
  | readDir (path : String)
  | mkdir (path : String)
  | remove (path : String)
  | read (i bufLen : Nat)
  | write (i : Nat) (buf : Bytes)
  | seek (i : Nat) (offset : U64)

/-- One call; `none` is a panic, or a handle that is not there. -/
def step (s : Sessions) : Event → Option Sessions
  | .open i path =>
    let r := s.fs.open path
    match s.handles i, r.1 with
    | none, .ok h => some ({ s with fs := r.2 }.setHandle i h)
    | none, .error _ => some { s with fs := r.2 }
    | some _, _ => none
  | .close i => some { s with handles := Function.update s.handles i none }
  | .readDir path => some { s with fs := (s.fs.readDir path).2 }
  | .mkdir path => some { s with fs := (s.fs.mkdir path).2 }
  | .remove path => some { s with fs := (s.fs.remove path).2 }
  | .read i bufLen =>
    match s.read i bufLen with
    | some (.ok r) => some r.2
    | _ => none
  | .write i buf =>
    match s.write i buf with
    | some (.ok r) => some r.2
    | _ => none
  | .seek i offset => (s.seek i offset).map (·.2)

variable {s s' : Sessions} {i : Nat} {h : RamFsFileHandle}

/-- The file system is a tree, and every handle is on a file that was made, at a position within
it. -/
structure Inv (s : Sessions) : Prop where
  wellFormed : RamFs.WellFormed s.fs
  file_lt : ∀ {i h}, s.handles i = some h → h.file < s.fs.nextFile
  cursor_le : ∀ {i h}, s.handles i = some h → h.cursor ≤ (s.content h).len

theorem inv_new : Inv new :=
  ⟨RamFs.wellFormed_new, fun h => (by cases h), fun h => (by cases h)⟩

/-- A call on the file system that keeps the files. -/
theorem Inv.of_filesKept (hs : Inv s) {fs : RamFs} (hwf : RamFs.WellFormed fs)
    (hkept : RamFs.FilesKept s.fs fs) : Inv { s with fs } := by
  refine ⟨hwf, fun hi => lt_of_lt_of_le (hs.file_lt hi) hkept.nextFile_le, ?_⟩
  intro i h hi
  show h.cursor ≤ (fs.files h.file).len
  rw [hkept.files_eq _ (hs.file_lt hi)]
  exact hs.cursor_le hi

theorem Inv.setHandle (hs : Inv s) (hfile : h.file < s.fs.nextFile)
    (hcursor : h.cursor ≤ (s.content h).len) : Inv (s.setHandle i h) := by
  have hcases : ∀ {j h'}, (s.setHandle i h).handles j = some h' →
      h' = h ∨ s.handles j = some h' := by
    intro j h' hj
    by_cases hji : j = i
    · have hself : update s.handles i (some h) j = some h' := hj
      rw [hji, update_self] at hself
      exact .inl (Option.some.inj hself).symm
    · exact .inr ((update_of_ne hji _ _).symm.trans hj)
  refine ⟨hs.wellFormed, ?_, ?_⟩
  · intro j h' hj
    rcases hcases hj with rfl | hold
    · exact hfile
    · exact hs.file_lt hold
  · intro j h' hj
    rcases hcases hj with rfl | hold
    · exact hcursor
    · exact hs.cursor_le hold

/-- A file that is not shorter than before leaves every handle where it was. -/
theorem Inv.setFile (hs : Inv s) {f : FileRef} {file : Bytes}
    (hlen : (s.fs.files f).len ≤ file.len) : Inv (s.setFile f file) := by
  refine ⟨⟨hs.wellFormed.isTree, hs.wellFormed.root_lt, hs.wellFormed.dir_lt,
    hs.wellFormed.file_lt, hs.wellFormed.unused⟩, hs.file_lt, ?_⟩
  intro j h hj
  refine (hs.cursor_le hj).trans ?_
  show (s.fs.files h.file).len ≤ (update s.fs.files f file h.file).len
  by_cases hf : h.file = f
  · rw [hf, update_self]
    exact hlen
  · rw [update_of_ne hf]

/-! ## What the calls do -/

section

variable (hs : Inv s) (hi : s.handles i = some h)
include hs hi

/-- A read returns what is between the cursor and the end of the buffer or of the file. -/
theorem Inv.read_eq (bufLen : Nat) : s.read i bufLen = some (.ok
      (((s.content h).data.take (min (h.cursor + bufLen) (s.content h).len)).drop h.cursor,
        s.setHandle i { h with cursor := min (h.cursor + bufLen) (s.content h).len })) := by
  rw [Sessions.read, hi, Option.map_some, RamFsFileHandle.read_eq (hs.cursor_le hi)]
  rfl

theorem Inv.write_eq {buf : Bytes} (hmax : h.cursor + buf.len ≤ isizeMax) :
    ∃ new, Bytes.Written (s.content h) buf h.cursor new ∧
      s.write i buf = some (.ok (buf.len, (s.setFile h.file new).setHandle i
        { h with cursor := h.cursor + buf.len })) := by
  obtain ⟨new, hnew, hwritten⟩ := RamFsFileHandle.write_eq (hs.cursor_le hi) hmax
  refine ⟨new, hwritten, ?_⟩
  rw [Sessions.write, hi, Option.map_some, hnew]
  rfl

theorem Inv.write_eq_capacity {buf : Bytes}
    (hmax : isizeMax < h.cursor + buf.len) : s.write i buf = some (.error .capacity) := by
  rw [Sessions.write, hi, Option.map_some, RamFsFileHandle.write_eq_capacity (hs.cursor_le hi) hmax]
  rfl

end

theorem seek_eq_ok (hi : s.handles i = some h) {offset : U64}
    (hle : offset.toNat ≤ (s.content h).len) :
    s.seek i offset = some (.ok offset, s.setHandle i { h with cursor := offset.toNat }) := by
  rw [Sessions.seek, hi, Option.map_some, RamFsFileHandle.seek_eq, if_pos hle]

theorem seek_eq_error (hi : s.handles i = some h) {offset : U64}
    (hlt : (s.content h).len < offset.toNat) : s.seek i offset = some (.error .ioError, s) := by
  have hsame : s.setHandle i h = s := by
    rw [setHandle, ← hi, update_eq_self]
  rw [Sessions.seek, hi, Option.map_some, RamFsFileHandle.seek_eq, if_neg (not_le.mpr hlt),
    hsame]

theorem Inv.step_open (hs : Inv s) {path : String} (hstep : s.step (.open i path) = some s') :
    Inv s' := by
  obtain ⟨hwf, hkept, hnew⟩ := RamFs.open_spec hs.wellFormed path
  have hfs := hs.of_filesKept hwf hkept
  unfold Sessions.step at hstep
  dsimp only at hstep
  split at hstep
  next h hok =>
    cases hstep
    obtain ⟨hcursor, hfile⟩ := hnew _ hok
    exact hfs.setHandle hfile (by rw [hcursor]; exact Nat.zero_le _)
  · cases hstep
    exact hfs
  · cases hstep

theorem Inv.close (hs : Inv s) (i : Nat) : Inv { s with handles := update s.handles i none } := by
  have hcases : ∀ {j h}, update s.handles i none j = some h → s.handles j = some h := by
    intro j h hj
    by_cases hji : j = i
    · rw [hji, update_self] at hj
      cases hj
    · rwa [update_of_ne hji] at hj
  exact ⟨hs.wellFormed, fun hj => hs.file_lt (hcases hj), fun hj => hs.cursor_le (hcases hj)⟩

/-- The cursor of a handle that has written is not behind the end of its file. -/
theorem Inv.written (hs : Inv s) (hi : s.handles i = some h) {buf new : Bytes}
    (hwritten : Bytes.Written (s.content h) buf h.cursor new) :
    Inv ((s.setFile h.file new).setHandle i { h with cursor := h.cursor + buf.len }) := by
  have hfile := hs.file_lt hi
  have hlen := hwritten.len_eq
  have hgrown : Inv (s.setFile h.file new) :=
    hs.setFile (by rw [hlen]; exact le_max_left _ _)
  refine hgrown.setHandle hfile ?_
  show h.cursor + buf.len ≤ (update s.fs.files h.file new h.file).len
  rw [update_self, hlen]
  exact le_max_right _ _

/-- Every call keeps the invariant. -/
theorem Inv.step (hs : Inv s) {e : Event} (hstep : s.step e = some s') : Inv s' := by
  cases e with
  | «open» i path => exact hs.step_open hstep
  | close i =>
    cases hstep
    exact hs.close i
  | readDir path =>
    cases hstep
    exact hs
  | mkdir path =>
    cases hstep
    obtain ⟨hwf, hkept⟩ := RamFs.mkdir_spec hs.wellFormed path
    exact hs.of_filesKept hwf hkept
  | remove path =>
    cases hstep
    obtain ⟨hwf, hkept⟩ := RamFs.remove_spec hs.wellFormed path
    exact hs.of_filesKept hwf hkept
  | read i bufLen =>
    cases hi : s.handles i with
    | none =>
      rw [Sessions.step, Sessions.read, hi] at hstep
      cases hstep
    | some h =>
      have hfile := hs.file_lt hi
      rw [Sessions.step, hs.read_eq hi] at hstep
      cases hstep
      exact hs.setHandle hfile (min_le_right _ _)
  | write i buf =>
    cases hi : s.handles i with
    | none =>
      rw [Sessions.step, Sessions.write, hi] at hstep
      cases hstep
    | some h =>
      by_cases hmax : h.cursor + buf.len ≤ isizeMax
      · obtain ⟨new, hwritten, hwrite⟩ := hs.write_eq hi hmax
        rw [Sessions.step, hwrite] at hstep
        cases hstep
        exact hs.written hi hwritten
      · rw [Sessions.step, hs.write_eq_capacity hi (Nat.lt_of_not_le hmax)] at hstep
        cases hstep
  | seek i offset =>
    cases hi : s.handles i with
    | none =>
      rw [Sessions.step, Sessions.seek, hi] at hstep
      cases hstep
    | some h =>
      have hfile := hs.file_lt hi
      by_cases hle : offset.toNat ≤ (s.content h).len
      · rw [Sessions.step, seek_eq_ok hi hle] at hstep
        cases hstep
        exact hs.setHandle hfile hle
      · rw [Sessions.step, seek_eq_error hi (Nat.lt_of_not_le hle)] at hstep
        cases hstep
        exact hs

theorem inv_of_run {τ : List (Transition Sessions Event)}
    (hrun : Run (Steps Sessions.step) new τ s) : Inv s :=
  hrun.invariant' inv_new fun _ _ _ hs hstep => hs.step hstep

/-! ## Cursors on shared arrays -/

/-- Every handle is a cursor on the bytes of its file. A result names the whole state after the
call: one handle has moved, and a write has changed one file. -/
structure Cursors (s : Sessions) : Prop where
  cursor_le : ∀ i h, s.handles i = some h → h.cursor ≤ (s.content h).len
  read : ∀ i h bufLen, s.handles i = some h → s.read i bufLen = some (.ok
    (((s.content h).data.take (min (h.cursor + bufLen) (s.content h).len)).drop h.cursor,
      s.setHandle i { h with cursor := min (h.cursor + bufLen) (s.content h).len }))
  write : ∀ i h buf, s.handles i = some h → h.cursor + buf.len ≤ isizeMax →
    ∃ new, Bytes.Written (s.content h) buf h.cursor new ∧
      s.write i buf = some (.ok (buf.len, (s.setFile h.file new).setHandle i
        { h with cursor := h.cursor + buf.len }))
  /-- the vector would be too long for any allocation: the kernel stops -/
  write_capacity : ∀ i h buf, s.handles i = some h → isizeMax < h.cursor + buf.len →
    s.write i buf = some (.error .capacity)
  seek : ∀ i h offset, s.handles i = some h → offset.toNat ≤ (s.content h).len →
    s.seek i offset = some (.ok offset, s.setHandle i { h with cursor := offset.toNat })
  seek_error : ∀ i h offset, s.handles i = some h → (s.content h).len < offset.toNat →
    s.seek i offset = some (.error .ioError, s)

/-- **Handles are cursors on shared arrays of bytes**, after any sequence of calls. -/
theorem cursors_of_run {τ : List (Transition Sessions Event)}
    (hrun : Run (Steps Sessions.step) new τ s) : Cursors s := by
  have hs := inv_of_run hrun
  exact ⟨fun _ _ hi => hs.cursor_le hi, fun _ _ bufLen hi => hs.read_eq hi bufLen,
    fun _ _ _ hi hmax => hs.write_eq hi hmax, fun _ _ _ hi hmax => hs.write_eq_capacity hi hmax,
    fun _ _ _ hi hle => seek_eq_ok hi hle, fun _ _ _ hi hlt => seek_eq_error hi hlt⟩

/-- Two handles on one file: what one has written the other can read. -/
theorem cursors_two_handles : ∃ s : Sessions,
    perform Sessions.step new [.open 0 "/a", .open 1 "/a", .write 0 ⟨[1, 2, 3], by decide⟩]
      = some s ∧
    Cursors s ∧ s.handles 0 = some ⟨0, 3⟩ ∧ s.handles 1 = some ⟨0, 0⟩ ∧
    (s.read 1 2).map (fun r => r.map (·.1)) = some (.ok [1, 2]) := by
  obtain ⟨s, hs, h₀, h₁, hread⟩ : ∃ s : Sessions,
      perform Sessions.step new [.open 0 "/a", .open 1 "/a", .write 0 ⟨[1, 2, 3], by decide⟩]
        = some s ∧ s.handles 0 = some ⟨0, 3⟩ ∧ s.handles 1 = some ⟨0, 0⟩ ∧
      (s.read 1 2).map (fun r => r.map (·.1)) = some (.ok [1, 2]) :=
    ⟨_, rfl, rfl, rfl, rfl⟩
  obtain ⟨τ, hrun, -⟩ := exists_run_of_perform hs
  exact ⟨s, hs, cursors_of_run hrun, h₀, h₁, hread⟩

/-- **The RAM file system refines a tree of named nodes**, after any sequence of calls. -/
theorem refines_of_run {τ : List (Transition Sessions Event)}
    (hrun : Run (Steps Sessions.step) new τ s) {path : String} (hne : parts path ≠ []) :
    Refines s.fs path (parts path) :=
  RamFs.refines_of_wellFormed (inv_of_run hrun).wellFormed hne

/-- A path below a new directory. -/
theorem refines_mkdir : ∃ s : Sessions, perform Sessions.step new [.mkdir "/a"] = some s ∧
    parts "/a/b" = ["a", "b"] ∧ Refines s.fs "/a/b" (parts "/a/b") := by
  obtain ⟨s, hs⟩ : ∃ s : Sessions, perform Sessions.step new [.mkdir "/a"] = some s := ⟨_, rfl⟩
  obtain ⟨τ, hrun, -⟩ := exists_run_of_perform hs
  have hparts : parts "/a/b" = ["a", "b"] := by decide
  exact ⟨s, hs, hparts, refines_of_run hrun (by rw [hparts]; nofun)⟩

end Sessions

end BeastOs.Fs
