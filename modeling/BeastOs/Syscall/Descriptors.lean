import BeastOs.Syscall.Calls
import BeastOs.Syscall.ProgramBreak

/-!
# The table of open files

What `sys_open`, `sys_close`, `sys_read`, `sys_write` and `sys_lseek` do to the table of a user
task, in every sequence of calls. Between two calls the rest of the kernel can change in any way:
other tasks write to the same files, move the disk, mount file systems. So each call starts in any
state of the kernel in which the task is the current one (`Request`), and only the table is carried
on.

The entry of an open file is its handle, which says which file it is and where its cursor stands.
A call changes at most one entry (`Request.step_cases`), and `descriptors_hold` says which.
-/

namespace BeastOs.Syscall

open List Function Lib

/-! ## Handles -/

/-- The file without its cursor. -/
def PlainFile.rewound : PlainFile → PlainFile
  | ram handle => ram { handle with cursor := 0 }
  | fat32 file => fat32 { file with position := 0 }
  | file => file

/-- Which file a handle is of. -/
def File.rewound : File → File
  | stdin => stdin
  | plain file => plain file.rewound

/-- `File::size` of the files that can seek. -/
def PlainFile.size (d : Devices) : PlainFile → Nat
  | ram handle => (d.ram.files handle.file).len
  | fat32 file => file.fileSize.toNat
  | _ => 0

def File.size (d : Devices) : File → Nat
  | stdin => 0
  | plain file => file.size d

/-- The size that the handle of a FAT32 file has noted. -/
def File.fat32Size : File → Nat
  | plain (.fat32 file) => file.fileSize.toNat
  | _ => 0

theorem File.fat32Size_rewound (file : File) : file.rewound.fat32Size = file.fat32Size := by
  cases file with
  | stdin => rfl
  | plain file => cases file <;> rfl

/-- No file is so large that a position in it looks like an error. -/
theorem File.size_le (file : File) (d : Devices) (hfat32 : file.fat32Size < 2 ^ 32) :
    file.size d ≤ 2 ^ 63 := by
  cases file with
  | stdin => exact Nat.zero_le _
  | plain file =>
    cases file with
    | ram handle => exact (d.ram.files handle.file).length_le.trans (Nat.sub_le _ _)
    | fat32 file => exact hfat32.le.trans (by decide)
    | mouse | fb | serial | tar => exact Nat.zero_le _

/-! ## Tables -/

/-- The open files of a task. -/
abbrev FdTable := List (Option File)

namespace FdTable

/-- As `Task::new_user` creates it. -/
def new : FdTable := [none, none, none]

/-- The open file behind a descriptor. -/
def fileAt (t : FdTable) (i : Nat) : Option File := t[i]?.join

variable {t : FdTable} {i j : Nat} {file : File}

theorem lt_of_fileAt (h : t.fileAt i = some file) : i < t.length := by
  by_contra hle
  rw [fileAt, getElem?_eq_none (not_lt.mp hle)] at h
  cases h

theorem fileAt_set (hi : i < t.length) (slot : Option File) (j : Nat) :
    fileAt (t.set i slot) j = if j = i then slot else t.fileAt j := by
  unfold fileAt
  by_cases hj : j = i
  · subst hj
    rw [getElem?_set_self hi, if_pos rfl, Option.join_some]
  · rw [getElem?_set_ne (Ne.symm hj), if_neg hj]

/-- Closing a descriptor, whether it is in the table or not. -/
theorem fileAt_set_none (i j : Nat) :
    fileAt (t.set i none) j = if j = i then none else t.fileAt j := by
  by_cases hi : i < t.length
  · exact fileAt_set hi none j
  · rw [set_eq_of_length_le (not_lt.mp hi)]
    split
    next hj =>
      subst hj
      rw [fileAt, getElem?_eq_none (not_lt.mp hi), Option.join_none]
    · rfl

theorem fileAt_of_le (h : t.length ≤ i) : t.fileAt i = none := by
  rw [fileAt, getElem?_eq_none h, Option.join_none]

/-- A new entry at the end, with empty ones before it. -/
theorem fileAt_push (n : Nat) (slot : Option File) (j : Nat) :
    fileAt (t ++ List.replicate n none ++ [slot]) j =
      if j = t.length + n then slot else t.fileAt j := by
  have hlength : (t ++ replicate n none).length = t.length + n := by
    rw [length_append, length_replicate]
  rcases Nat.lt_trichotomy j (t.length + n) with hlt | rfl | hgt
  · rw [if_neg hlt.ne, fileAt, getElem?_append_left (hlength ▸ hlt)]
    by_cases hj : j < t.length
    · rw [getElem?_append_left hj]
      rfl
    · have hreplicate : (replicate n (none : Option File))[j - t.length]? = some none :=
        getElem?_replicate_of_lt (by omega)
      rw [getElem?_append_right (not_lt.mp hj), hreplicate,
        fileAt_of_le (not_lt.mp hj), Option.join_some]
  · rw [if_pos rfl, fileAt, ← hlength, getElem?_concat_length, Option.join_some]
  · have hle : (t ++ replicate n none ++ [slot]).length ≤ j := by
      rw [length_append, hlength, length_singleton]
      exact hgt
    rw [if_neg hgt.ne', fileAt_of_le hle, fileAt_of_le (by omega)]

/-- The scan of `sys_open` looks for this. -/
theorem free_iff : decide (3 ≤ i ∧ (t.getD i none).isNone) = true ↔
    3 ≤ i ∧ t.fileAt i = none := by
  rw [decide_eq_true_iff, Option.isNone_iff_eq_none]
  refine and_congr_right fun _ => ?_
  rw [getD_eq_getElem?_getD, fileAt]
  cases t[i]? <;> rfl

/-- **The first free descriptor from 3 on** is taken, and nothing else changes. -/
theorem insertFile_spec (t : FdTable) (file : File) :
    IsLeast {i | 3 ≤ i ∧ t.fileAt i = none} (insertFile t file).1 ∧
      (∀ j, fileAt (insertFile t file).2 j =
        if j = (insertFile t file).1 then some file else t.fileAt j) ∧
      t.length ≤ (insertFile t file).2.length := by
  cases hfind : (range t.length).find? fun i => 3 ≤ i ∧ (t.getD i none).isNone with
  | some i =>
    obtain ⟨hfree, hmem, hbefore⟩ := find?_range_eq_some.mp hfind
    have heq : insertFile t file = (i, t.set i (some file)) := by rw [insertFile, hfind]
    rw [heq]
    refine ⟨⟨free_iff.mp hfree, fun j hj => ?_⟩, fileAt_set (mem_range.mp hmem) _, length_set.ge⟩
    by_contra hlt
    have hused := hbefore j (not_le.mp hlt)
    rw [free_iff.mpr hj] at hused
    cases hused
  | none =>
    have hused := find?_range_eq_none.mp hfind
    have hlength : (t ++ replicate (3 - t.length) none).length =
        t.length + (3 - t.length) := by
      rw [length_append, length_replicate]
    have heq : insertFile t file = (t.length + (3 - t.length),
        t ++ replicate (3 - t.length) none ++ [some file]) := by
      rw [insertFile, hfind, ← hlength]
    rw [heq]
    refine ⟨⟨⟨by omega, fileAt_of_le (by omega)⟩, fun j hj => ?_⟩, fileAt_push _ _, ?_⟩
    · by_contra hlt
      have hj' := hused j (by have := hj.1; omega)
      rw [free_iff.mpr hj] at hj'
      cases hj'
    · rw [length_append, hlength]
      omega

end FdTable

/-! ## Locks and frames -/

section Frames

variable {α : Type} {x : Sys α} {l : Lock} {w w' : World} {a : α}

/-- A guarded computation that returns. -/
theorem Locks.locked_eq_ok (h : l ∉ w.held) (hok : checked.locked l x w = .ok a w') :
    ∃ w₁, x (w.holding (l :: w.held)) = .ok a w₁ ∧ w' = w₁.holding (w₁.held.erase l) := by
  obtain ⟨_, w₂, hacquire, hok⟩ := bind_eq_ok.mp hok
  rw [← w.holding_self, acquire_checked h] at hacquire
  cases hacquire
  obtain ⟨b, w₁, hx, hok⟩ := bind_eq_ok.mp hok
  cases hok
  exact ⟨w₁, hx, rfl⟩

/-- A guard that is dropped again. -/
theorem Locks.reads_locked (hx : Keeps id x) : Keeps id (checked.locked l x) := by
  intro w a w' hok
  by_cases hheld : l ∈ w.held
  · rw [Locks.locked, bind_of_error (acquire_held hheld)] at hok
    cases hok
  · obtain ⟨w₁, hrun, rfl⟩ := locked_eq_ok hheld hok
    obtain rfl : w₁ = w.holding (l :: w.held) := hx hrun
    show (w.holding _).holding ((l :: w.held).erase l) = w
    rw [erase_cons_head]
    rfl

theorem reads_reschedule : Keeps id Locks.checked.reschedule := by
  intro w a w' hok
  change (if _ then _ else _) = _ at hok
  split at hok <;> cases hok
  rfl

theorem reads_currentTask : Keeps id currentTask := by
  intro w a w' hok
  unfold currentTask at hok
  split at hok <;> cases hok
  rfl

/-- Reading a file does not change `f` of the state. -/
def Quiet {γ : Type} (f : World → γ) : Prop :=
  ∀ (w : World) devices keyboard changes, f { w with devices, keyboard, changes } = f w

theorem quiet_fds : Quiet World.fds := fun _ _ _ _ => rfl

section Quiet

variable {γ : Type} {f : World → γ} (hf : Quiet f)
include hf

theorem keeps_look : Keeps f look := by
  intro w a w' hok
  unfold look at hok
  split at hok <;> cases hok
  · rfl
  · exact hf w w.devices _ _

theorem keeps_popKeyboardChar : Keeps f popKeyboardChar := by
  refine (keeps_look hf).bind fun keys => ?_
  split
  · exact .pure none
  next ch keyboard _ =>
    exact Keeps.bind (.modify fun w => hf w w.devices keyboard w.changes) fun _ => .pure _

theorem keeps_drain (n : Nat) : Keeps f (drain n) := by
  induction n with
  | zero => exact .pure []
  | succ n ih =>
    refine (keeps_popKeyboardChar hf).bind fun ch => ?_
    cases ch with
    | none => exact .pure []
    | some ch => exact ih.bind fun _ => .pure _

theorem keeps_stdinRead (len turns : Nat) : Keeps f (stdinRead .checked len turns) := by
  induction turns with
  | zero => exact .throw _
  | succ turns ih =>
    refine (keeps_popKeyboardChar hf).bind fun ch => ?_
    cases ch with
    | none => exact reads_reschedule.of_id.bind fun _ => ih
    | some ch =>
      dsimp only
      split
      · exact .throw _
      · exact (keeps_drain hf _).bind fun _ => .pure _

theorem keeps_onDevices (g : Devices → Option (α × PlainFile × Devices)) :
    Keeps f (onDevices g) := by
  intro w a w' hok
  unfold onDevices at hok
  split at hok <;> cases hok
  exact hf w _ w.keyboard w.changes

theorem keeps_readFile (file : File) (len : Nat) : Keeps f (readFile .checked file len) := by
  cases file with
  | stdin => exact (Keeps.gets _).bind fun _ => (keeps_stdinRead hf _ _).bind fun _ => .pure _
  | plain file => exact keeps_onDevices hf fun d => file.read len d

end Quiet

theorem keeps_writeFile (file : File) (data : List U8) : Keeps World.fds (writeFile file data) := by
  cases file with
  | stdin => exact .pure _
  | plain file => exact keeps_onDevices quiet_fds fun d => file.write data d

theorem keeps_seekFile (file : File) (offset : U64) : Keeps World.fds (seekFile file offset) := by
  cases file with
  | stdin => exact .pure _
  | plain file => exact (Keeps.gets _).bind fun _ => .pure _

theorem keeps_onMemory (f : Machine → Machine) : Keeps World.fds (onMemory f) :=
  .modify fun _ => rfl

theorem keeps_storeRead (store : List U8 → Machine → Machine)
    (out : Except FsError (List U8) × File) : Keeps World.fds (storeRead store out) := by
  obtain ⟨result, file⟩ := out
  cases result with
  | error e => exact .pure _
  | ok bytes => exact (keeps_onMemory _).bind fun _ => .pure _

theorem reads_userCr3 : Keeps id (userCr3 .checked) :=
  Locks.reads_locked (reads_currentTask.bind fun _ => .pure _)

theorem reads_currentSlot : Keeps id (currentSlot .checked) :=
  Locks.reads_locked (.gets _)

theorem keeps_blockCurrent : Keeps World.fds (blockCurrent .checked) :=
  (Locks.reads_locked reads_currentTask).of_id.bind fun _ => reads_reschedule.of_id

theorem keeps_readKeyboard (env : Env) (cr3 buf count : U64) (turns : Nat) :
    Keeps World.fds (readKeyboard env .checked cr3 buf count turns) := by
  induction turns with
  | zero => exact .throw _
  | succ turns ih =>
    refine (keeps_look quiet_fds).bind fun keys => ?_
    split
    · refine reads_currentSlot.of_id.bind fun _ => reads_currentSlot.of_id.bind fun _ => ?_
      exact keeps_blockCurrent.bind fun _ => ih
    · refine Keeps.bind (.modify fun _ => rfl) fun _ => ?_
      exact (keeps_onMemory _).bind fun _ => .pure _

theorem reads_resolveUserPath (env : Env) (cr3 ptr len : U64) :
    Keeps id (resolveUserPath env .checked cr3 ptr len) := by
  refine (Keeps.gets _).bind fun path => ?_
  cases path with
  | error e => exact .pure _
  | ok path =>
    refine Locks.reads_locked (reads_currentTask.bind ?_)
    rintro ⟨slot, task⟩
    cases task with
    | none => exact .pure _
    | some task =>
      dsimp only
      split
      · exact .pure _
      · split <;> exact .pure _

end Frames

/-! ## Calls on a descriptor -/

section Calls

variable {α : Type} {w w' : World} {task : Scheduler.Task} {a : α} {result fd buf count : U64}
  {out : Except FsError (List U8)} {file file' : File} {env : Env}

/-- The table of the current task. -/
def World.table (w : World) : FdTable := w.fds w.sched.current

/-- What is done with the table of a task that exists. -/
theorem withFds_eq_ok (hheld : w.held = []) (htask : w.task = some task) {noTask : α}
    {body : Scheduler.TaskId → Sys α} (hok : withFds .checked noTask body w = .ok a w') :
    ∃ w₁, body w.sched.current (w.holding [.fds, .scheduler]) = .ok a w₁ ∧ w'.fds = w₁.fds := by
  obtain ⟨w₂, hlocked, rfl⟩ := Locks.locked_eq_ok (hheld ▸ not_mem_nil) hok
  rw [hheld, bind_of_ok (currentTask_eq (task_holding htask _))] at hlocked
  have hfds : Lock.fds ∉ (w.holding [.scheduler]).held := by
    rw [World.holding_held]
    decide
  obtain ⟨w₁, hbody, rfl⟩ := Locks.locked_eq_ok hfds hlocked
  exact ⟨w₁, hbody, rfl⟩

/-- A call on a descriptor that is not open returns `EBADF` and changes nothing. -/
theorem withFile_closed (hheld : w.held = []) (htask : w.task = some task)
    (hclosed : w.table.fileAt fd.toNat = none) (body : File → Sys (U64 × File)) :
    withFile .checked fd body w = .ok (-9) w := by
  have hnone : (w.fds w.sched.current)[fd.toNat]?.join = none := hclosed
  apply locked_eq hheld hheld
  rw [bind_of_ok (currentTask_eq (task_holding htask _))]
  refine Locks.locked_checked (by decide) ?_
  dsimp only [World.holding_sched]
  rw [gets_bind]
  dsimp only [World.holding]
  rw [hnone]
  rfl

/-- **A call on a descriptor** that returns has found it closed, or has put back the handle of the
open file. -/
theorem withFile_eq_ok (hheld : w.held = []) (htask : w.task = some task)
    {body : File → Sys (U64 × File)} (hbody : ∀ file, Keeps World.fds (body file))
    (hok : withFile .checked fd body w = .ok result w') :
    (w.table.fileAt fd.toNat = none ∧ result = -9 ∧ w'.fds = w.fds) ∨
      ∃ file file' w₁, w.table.fileAt fd.toNat = some file ∧
        body file (w.holding [.fds, .scheduler]) = .ok (result, file') w₁ ∧
        w'.fds = update w.fds w.sched.current (w.table.set fd.toNat (some file')) := by
  obtain ⟨w₁, hok, hfds⟩ := withFds_eq_ok hheld htask hok
  rw [gets_bind] at hok
  have htable : (w.holding [.fds, .scheduler]).fds w.sched.current = w.table := rfl
  rw [htable] at hok
  cases hfile : w.table[fd.toNat]?.join with
  | none =>
    rw [hfile] at hok
    cases hok
    exact .inl ⟨hfile, rfl, hfds⟩
  | some file =>
    rw [hfile] at hok
    obtain ⟨⟨result', file'⟩, w₂, hrun, hok⟩ := bind_eq_ok.mp hok
    cases hok
    refine .inr ⟨file, file', w₂, hfile, hrun, ?_⟩
    have hkept : w₂.fds = (w.holding [.fds, .scheduler]).fds := hbody file hrun
    rw [hfds]
    exact congrArg (update · _ _) hkept

/-! ### What is returned -/

/-- A number of bytes that fit into the user's half is no error. -/
theorem ofNat_ne_ebadf {n : Nat} (hn : n ≤ 2 ^ 63) : BitVec.ofNat 64 n ≠ (-9 : U64) := by
  intro h
  have hval := congrArg BitVec.toNat h
  rw [BitVec.toNat_ofNat, Nat.mod_eq_of_lt (by omega)] at hval
  have hnine : (-9 : U64).toNat = 2 ^ 64 - 9 := by decide
  omega

/-- A file puts no more into the buffer than there is room for, and stays the file it is. -/
theorem PlainFile.read_spec {file file' : PlainFile} {len : Nat} {d d' : Devices}
    (h : file.read len d = some (out, file', d')) :
    (∀ bytes, out = .ok bytes → bytes.length ≤ len) ∧ file'.rewound = file.rewound := by
  have hok : ∀ {bytes : List U8}, bytes.length ≤ len → ∀ bytes', Except.ok (ε := FsError) bytes =
      .ok bytes' → bytes'.length ≤ len := by
    rintro bytes hle _ ⟨⟩
    exact hle
  cases file with
  | mouse | fb | serial =>
    cases h
    exact ⟨hok (length_take_le _ _), rfl⟩
  | tar file =>
    cases h
    refine ⟨hok ?_, rfl⟩
    rw [Fs.TarFile.read_fst]
    exact length_take_le _ _
  | ram handle =>
    obtain ⟨r, hr, heq⟩ := Option.map_eq_some_iff.mp h
    cases heq
    obtain ⟨hle, hfile⟩ := Fs.RamFsFileHandle.read_spec (toOption_eq_some.mp hr)
    exact ⟨hok hle, by rw [rewound, rewound, hfile]⟩
  | fat32 file =>
    obtain ⟨r, hr, heq⟩ := Option.map_eq_some_iff.mp h
    cases heq
    obtain ⟨hle, position, hfile⟩ := Fs.Fat32File.read_spec hr
    exact ⟨hok hle, by rw [rewound, rewound, hfile]⟩

theorem PlainFile.write_spec {file file' : PlainFile} {data : List U8} {d d' : Devices}
    {out : Except FsError Nat} (h : file.write data d = some (out, file', d')) :
    (∀ n, out = .ok n → n = data.length) ∧ file'.rewound = file.rewound := by
  cases file with
  | serial =>
    cases h
    exact ⟨fun n hn => (Except.ok.inj hn).symm, rfl⟩
  | ram handle =>
    rw [write] at h
    split at h
    · obtain ⟨r, hr, heq⟩ := Option.map_eq_some_iff.mp h
      cases heq
      obtain ⟨hlen, hfile⟩ := Fs.RamFsFileHandle.write_spec (toOption_eq_some.mp hr)
      exact ⟨fun n hn => (Except.ok.inj hn).symm.trans hlen, by rw [rewound, rewound, hfile]⟩
    · cases h
  | mouse | fb | tar | fat32 =>
    cases h
    refine ⟨fun n hn => ?_, rfl⟩
    cases hn

/-- A position that a file moves to is not past its end. -/
theorem PlainFile.seek_spec (file : PlainFile) (offset : U64) (d : Devices) :
    (∀ n, (file.seek offset d).1 = .ok n → n.toNat ≤ file.size d) ∧
      (file.seek offset d).2.rewound = file.rewound := by
  cases file with
  | ram handle =>
    rw [seek, Fs.RamFsFileHandle.seek_eq]
    split
    next hle =>
      refine ⟨fun n hn => ?_, rfl⟩
      obtain rfl := Except.ok.inj hn
      exact hle
    · exact ⟨nofun, rfl⟩
  | fat32 file =>
    rw [seek, Fs.Fat32File.seek]
    split
    next hle =>
      refine ⟨fun n hn => ?_, rfl⟩
      obtain rfl := Except.ok.inj hn
      exact hle
    · exact ⟨nofun, rfl⟩
  | mouse | fb | serial | tar => exact ⟨nofun, rfl⟩

theorem length_drain {n : Nat} {bytes : List U8} (h : drain n w = .ok bytes w') :
    bytes.length ≤ n := by
  induction n generalizing w bytes with
  | zero =>
    cases h
    exact le_rfl
  | succ n ih =>
    obtain ⟨ch, w₁, -, h⟩ := bind_eq_ok.mp h
    cases ch with
    | none =>
      cases h
      exact Nat.zero_le _
    | some ch =>
      obtain ⟨rest, w₂, hrest, h⟩ := bind_eq_ok.mp h
      cases h
      exact Nat.succ_le_succ (ih hrest)

theorem length_stdinRead {len turns : Nat} {bytes : List U8}
    (h : stdinRead .checked len turns w = .ok bytes w') : bytes.length ≤ len := by
  induction turns generalizing w with
  | zero => cases h
  | succ turns ih =>
    obtain ⟨ch, w₁, -, h⟩ := bind_eq_ok.mp h
    cases ch with
    | none =>
      obtain ⟨_, w₂, -, h⟩ := bind_eq_ok.mp h
      exact ih h
    | some ch =>
      dsimp only at h
      split at h
      · cases h
      next hlen =>
        obtain ⟨rest, w₂, hrest, h⟩ := bind_eq_ok.mp h
        cases h
        have hle := length_drain hrest
        rw [length_cons]
        omega

theorem onDevices_eq_ok {f : Devices → Option (α × PlainFile × Devices)}
    (h : onDevices f w = .ok (a, file') w') :
    ∃ file d, file' = .plain file ∧ f w.devices = some (a, file, d) := by
  unfold onDevices at h
  split at h
  · cases h
  next hf =>
    cases h
    exact ⟨_, _, rfl, hf⟩

theorem readFile_spec {len : Nat} (h : readFile .checked file len w = .ok (out, file') w') :
    (∀ bytes, out = .ok bytes → bytes.length ≤ len) ∧ file'.rewound = file.rewound := by
  cases file with
  | stdin =>
    obtain ⟨turns, w₁, -, h⟩ := bind_eq_ok.mp h
    obtain ⟨bytes', w₂, hread, h⟩ := bind_eq_ok.mp h
    cases h
    refine ⟨fun bytes hbytes => ?_, rfl⟩
    cases hbytes
    exact length_stdinRead hread
  | plain file =>
    obtain ⟨file', d, rfl, hread⟩ := onDevices_eq_ok (f := fun d => file.read len d) h
    obtain ⟨hlength, hsame⟩ := PlainFile.read_spec hread
    exact ⟨hlength, congrArg File.plain hsame⟩

theorem writeFile_spec {data : List U8} {out : Except FsError Nat}
    (h : writeFile file data w = .ok (out, file') w') :
    (∀ n, out = .ok n → n = data.length) ∧ file'.rewound = file.rewound := by
  cases file with
  | stdin =>
    cases h
    exact ⟨nofun, rfl⟩
  | plain file =>
    obtain ⟨file', d, rfl, hwrite⟩ := onDevices_eq_ok (f := fun d => file.write data d) h
    obtain ⟨hlength, hsame⟩ := PlainFile.write_spec hwrite
    exact ⟨hlength, congrArg File.plain hsame⟩

theorem seekFile_spec {offset : U64} {out : Except FsError U64}
    (h : seekFile file offset w = .ok (out, file') w') :
    (∀ n, out = .ok n → n.toNat ≤ file.size w.devices) ∧ file'.rewound = file.rewound := by
  cases file with
  | stdin =>
    cases h
    exact ⟨nofun, rfl⟩
  | plain file =>
    cases h
    obtain ⟨hle, hsame⟩ := file.seek_spec offset w.devices
    exact ⟨hle, congrArg File.plain hsame⟩

/-! ### What is done with an open file -/

/-- `body` only moves the cursor of the file, and does not return `EBADF` if something fits. -/
def Serves (body : File → Sys (U64 × File)) (Fits : File → World → Prop) : Prop :=
  ∀ ⦃file w₁ result file' w₂⦄, body file w₁ = .ok (result, file') w₂ →
    w₂.fds = w₁.fds ∧ file'.rewound = file.rewound ∧ (Fits file w₁ → result ≠ -9)

theorem serves_read (len : Nat) (store : List U8 → Machine → Machine) :
    Serves (fun file => readFile .checked file len >>= storeRead store)
      fun _ _ => len ≤ 2 ^ 63 := by
  intro file w₁ result file' w₂ hok
  obtain ⟨⟨out, file''⟩, w₃, hread, hstore⟩ := bind_eq_ok.mp hok
  have hfds : w₂.fds = w₁.fds :=
    (keeps_storeRead store (out, file'') hstore).trans (keeps_readFile quiet_fds file len hread)
  obtain ⟨hlength, hsame⟩ := readFile_spec hread
  cases out with
  | error e =>
    cases hstore
    exact ⟨hfds, hsame, fun _ => by decide⟩
  | ok bytes =>
    cases hstore
    exact ⟨hfds, hsame, fun hlen => ofNat_ne_ebadf ((hlength bytes rfl).trans hlen)⟩

theorem serves_write (data : List U8) :
    Serves (fun file => do
      let (result, file) ← writeFile file data
      match result with
      | .ok n => return (BitVec.ofNat 64 n, file)
      | .error _ => return (-1, file)) fun _ _ => data.length ≤ 2 ^ 63 := by
  intro file w₁ result file' w₂ hok
  obtain ⟨⟨out, file''⟩, w₃, hwrite, hreturn⟩ := bind_eq_ok.mp hok
  have hfds : w₃.fds = w₁.fds := keeps_writeFile file data hwrite
  obtain ⟨hlength, hsame⟩ := writeFile_spec hwrite
  cases out with
  | error e =>
    cases hreturn
    exact ⟨hfds, hsame, fun _ => by decide⟩
  | ok n =>
    cases hreturn
    exact ⟨hfds, hsame, fun hlen => ofNat_ne_ebadf ((hlength _ rfl).le.trans hlen)⟩

theorem serves_seek (offset : U64) :
    Serves (fun file => do
      let (result, file) ← seekFile file offset
      match result with
      | .ok newOff => return (newOff, file)
      | .error _ => return (-1, file)) fun file w => file.size w.devices ≤ 2 ^ 63 := by
  intro file w₁ result file' w₂ hok
  obtain ⟨⟨out, file''⟩, w₃, hseek, hreturn⟩ := bind_eq_ok.mp hok
  have hfds : w₃.fds = w₁.fds := keeps_seekFile file offset hseek
  obtain ⟨hle, hsame⟩ := seekFile_spec hseek
  cases out with
  | error e =>
    cases hreturn
    exact ⟨hfds, hsame, fun _ => by decide⟩
  | ok n =>
    cases hreturn
    refine ⟨hfds, hsame, fun hsize => ?_⟩
    have hn := ofNat_ne_ebadf ((hle _ rfl).trans hsize)
    rwa [BitVec.ofNat_toNat, BitVec.setWidth_eq] at hn

/-- The call has changed nothing in the tables, or the cursor of the open file `fd`. -/
def Touches (w : World) (fd : U64) (w' : World) : Prop :=
  w'.fds = w.fds ∨ ∃ file file', w.table.fileAt fd.toNat = some file ∧
    file'.rewound = file.rewound ∧
    w'.fds = Function.update w.fds w.sched.current (w.table.set fd.toNat (some file'))

section WithFile

variable {body : File → Sys (U64 × File)} {Fits : File → World → Prop}

section

variable (h : Serves body Fits) (hheld : w.held = []) (htask : w.task = some task)
include h hheld htask

theorem Serves.touches (hok : withFile .checked fd body w = .ok result w') : Touches w fd w' := by
  rcases withFile_eq_ok hheld htask (fun _ _ _ _ hrun => (h hrun).1) hok with
    ⟨-, -, hfds⟩ | ⟨file, file', w₁, hfile, hrun, hfds⟩
  · exact .inl hfds
  · exact .inr ⟨file, file', hfile, (h hrun).2.1, hfds⟩

theorem Serves.ebadf_iff
    (hfits : ∀ file, w.table.fileAt fd.toNat = some file →
      Fits file (w.holding [.fds, .scheduler])) :
    returned (withFile .checked fd body w) = some (-9) ↔ w.table.fileAt fd.toNat = none := by
  constructor
  · intro hreturned
    have hok := eq_ok_of_returned hreturned
    rcases withFile_eq_ok hheld htask (fun _ _ _ _ hrun => (h hrun).1) hok with
      ⟨hclosed, -⟩ | ⟨file, file', w₁, hfile, hrun, -⟩
    · exact hclosed
    · exact absurd rfl ((h hrun).2.2 (hfits file hfile))
  · intro hclosed
    rw [withFile_closed hheld htask hclosed]
    rfl

end

end WithFile

/-! ### The calls -/

theorem touches_sysRead (hheld : w.held = []) (htask : w.task = some task)
    (hok : sysRead env .checked fd buf count w = .ok result w') : Touches w fd w' := by
  unfold sysRead at hok
  split at hok
  · cases hok
    exact .inl rfl
  · rw [bind_of_ok (userCr3_eq hheld htask)] at hok
    split at hok
    · cases hok
      exact .inl rfl
    · split at hok
      · exact .inl (keeps_readKeyboard _ _ _ _ _ hok)
      · exact (serves_read _ _).touches hheld htask hok

theorem ebadf_sysRead (env : Env) (hheld : w.held = [])
    (htask : w.task = some task) (hcr3 : task.pageTable ≠ 0) (hbuf : buf ≠ 0) (hcount : count ≠ 0)
    (hrange : count.toNat ≤ 2 ^ 63) (hfd : fd ≠ 0) :
    returned (sysRead env .checked fd buf count w) = some (-9) ↔
      w.table.fileAt fd.toNat = none := by
  rw [sysRead, if_neg (not_or.mpr ⟨hbuf, hcount⟩), bind_of_ok (userCr3_eq hheld htask),
    if_neg hcr3, if_neg hfd]
  exact (serves_read _ _).ebadf_iff hheld htask fun _ _ => hrange

theorem touches_sysWrite (hheld : w.held = []) (htask : w.task = some task)
    (hok : sysWrite env .checked fd buf count w = .ok result w') : Touches w fd w' := by
  unfold sysWrite at hok
  split at hok
  · cases hok
    exact .inl rfl
  · rw [bind_of_ok (userCr3_eq hheld htask)] at hok
    split at hok
    · cases hok
      exact .inl rfl
    · rw [gets_bind] at hok
      cases hdata : readUserBuf env w.machine task.pageTable buf count with
      | none =>
        rw [hdata] at hok
        cases hok
        exact .inl rfl
      | some data =>
        rw [hdata] at hok
        dsimp only at hok
        split at hok
        next =>
          -- the console
          cases htext : fromUtf8 data
          all_goals
            rw [htext] at hok
            cases hok
            exact .inl rfl
        · exact (serves_write data).touches hheld htask hok

/-- What is in user range is read. -/
theorem readUserBuf_eq (env : Env) (σ : Machine) (cr3 : U64)
    (hrange : buf.toNat + count.toNat ≤ 2 ^ 47) :
    ∃ data, readUserBuf env σ cr3 buf count = some data ∧ data.length = count.toNat := by
  refine ⟨_, if_neg ?_, ?_⟩
  · have hsum : (buf + count).toNat = buf.toNat + count.toNat := by
      exact Nat.mod_eq_of_lt (by omega)
    show ¬ (0x0000800000000000 : U64).toNat < (buf + count).toNat
    rw [hsum]
    exact not_lt.mpr hrange
  · rw [length_map, length_range]

theorem ebadf_sysWrite (env : Env) (hheld : w.held = [])
    (htask : w.task = some task) (hcr3 : task.pageTable ≠ 0) (hbuf : buf ≠ 0) (hcount : count ≠ 0)
    (hrange : buf.toNat + count.toNat ≤ 2 ^ 47) (hfd : ¬ (fd = 1 ∨ fd = 2)) :
    returned (sysWrite env .checked fd buf count w) = some (-9) ↔
      w.table.fileAt fd.toNat = none := by
  obtain ⟨data, hdata, hlength⟩ := readUserBuf_eq env w.machine task.pageTable hrange
  rw [sysWrite, if_neg (not_or.mpr ⟨hbuf, hcount⟩), bind_of_ok (userCr3_eq hheld htask),
    if_neg hcr3, gets_bind, hdata]
  dsimp only
  rw [if_neg hfd]
  exact (serves_write data).ebadf_iff hheld htask fun _ _ => by omega

theorem touches_sysLseek {offset : U64} (hheld : w.held = []) (htask : w.task = some task)
    (hok : sysLseek .checked fd offset w = .ok result w') : Touches w fd w' :=
  (serves_seek offset).touches hheld htask hok

theorem ebadf_sysLseek (offset : U64) (hheld : w.held = []) (htask : w.task = some task)
    (hsize : ∀ file, w.table.fileAt fd.toNat = some file → file.size w.devices ≤ 2 ^ 63) :
    returned (sysLseek .checked fd offset w) = some (-9) ↔ w.table.fileAt fd.toNat = none :=
  (serves_seek offset).ebadf_iff hheld htask hsize

theorem sysClose_eq_ok (hheld : w.held = []) (htask : w.task = some task)
    (hok : sysClose .checked fd w = .ok result w') :
    w'.fds = update w.fds w.sched.current (w.table.set fd.toNat none) := by
  obtain ⟨w₁, hok, hfds⟩ := withFds_eq_ok hheld htask hok
  rw [gets_bind] at hok
  have htable : (w.holding [.fds, .scheduler]).fds w.sched.current = w.table := rfl
  rw [htable] at hok
  split at hok
  · cases hok
    exact hfds
  next hlt =>
    cases hok
    rw [hfds, set_eq_of_length_le (not_lt.mp hlt)]
    exact (update_eq_self _ _).symm

/-- The file that the VFS opens for `sys_open`, if it does. -/
def opened (env : Env) (w : World) (ptr len : U64) : Option File :=
  match returned ((userCr3 .checked >>= fun cr3 => resolveUserPath env .checked cr3 ptr len) w) with
  | some (.ok path) => (env.vfs.open path w.devices).1.toOption
  | _ => none

theorem exists_of_opened {ptr len : U64} {file : File} (h : opened env w ptr len = some file) :
    ∃ path, (env.vfs.open path w.devices).1 = .ok file := by
  unfold opened at h
  split at h
  next path _ => exact ⟨path, toOption_eq_some.mp h⟩
  · cases h

theorem sysOpen_eq_ok {ptr len : U64} (hheld : w.held = []) (htask : w.task = some task)
    (hok : sysOpen env .checked ptr len w = .ok result w') :
    (opened env w ptr len = none ∧ w'.fds = w.fds) ∨
      ∃ file, opened env w ptr len = some file ∧
        result = BitVec.ofNat 64 (insertFile w.table file).1 ∧
        w'.fds = update w.fds w.sched.current (insertFile w.table file).2 := by
  obtain ⟨cr3, w₁, hcr3, hrest⟩ := bind_eq_ok.mp hok
  obtain rfl : w₁ = w := reads_userCr3 hcr3
  obtain ⟨path, w₂, hpath, hfile⟩ := bind_eq_ok.mp hrest
  obtain rfl : w₂ = w₁ := reads_resolveUserPath env cr3 ptr len hpath
  have hreturned : returned ((userCr3 .checked >>= fun cr3 =>
      resolveUserPath env .checked cr3 ptr len) w₂) = some path := by
    rw [bind_of_ok hcr3, hpath]
    rfl
  unfold opened
  rw [hreturned]
  cases path with
  | error e =>
    cases hfile
    exact .inl ⟨rfl, rfl⟩
  | ok path =>
    obtain ⟨result', w₃, hvfs, hfile⟩ := bind_eq_ok.mp hfile
    have hopens : vfsOpen env path w₂ = .ok (env.vfs.open path w₂.devices).1 (w₂.withDevices _) :=
      rfl
    obtain ⟨rfl, rfl⟩ := EStateM.Result.ok.inj (hopens.symm.trans hvfs)
    dsimp only
    cases hopen : (env.vfs.open path w₂.devices).1 with
    | error e =>
      rw [hopen] at hfile
      cases hfile
      exact .inl ⟨rfl, rfl⟩
    | ok file =>
      rw [hopen] at hfile
      obtain ⟨w₄, hbody, hfds⟩ :=
        withFds_eq_ok (w := w₂.withDevices (env.vfs.open path w₂.devices).2) hheld htask hfile
      cases hbody
      exact .inr ⟨file, rfl, rfl, hfds⟩

end Calls

/-! ## Runs -/

inductive FileCall
  | sysOpen (ptr len : U64)
  | sysClose (fd : U64)
  | sysRead (fd buf count : U64)
  | sysWrite (fd buf count : U64)
  | sysLseek (fd offset : U64)

namespace FileCall

def run (env : Env) : FileCall → Sys U64
  | sysOpen ptr len => Syscall.sysOpen env .checked ptr len
  | sysClose fd => Syscall.sysClose .checked fd
  | sysRead fd buf count => Syscall.sysRead env .checked fd buf count
  | sysWrite fd buf count => Syscall.sysWrite env .checked fd buf count
  | sysLseek fd offset => Syscall.sysLseek .checked fd offset

/-- The descriptor that is read, written or moved. -/
def fd : FileCall → Option U64
  | sysRead fd _ _ | sysWrite fd _ _ | sysLseek fd _ => some fd
  | sysOpen _ _ | sysClose _ => none

/-- The call asks for an open file: it is not about the keyboard or the console, and its buffer is
neither null nor empty nor out of the user's half. -/
def AsksFor (fd : U64) : FileCall → Prop
  | sysRead fd' buf count =>
    fd' = fd ∧ fd ≠ 0 ∧ buf ≠ 0 ∧ count ≠ 0 ∧ buf.toNat + count.toNat ≤ 2 ^ 47
  | sysWrite fd' buf count =>
    fd' = fd ∧ ¬ (fd = 1 ∨ fd = 2) ∧ buf ≠ 0 ∧ count ≠ 0 ∧ buf.toNat + count.toNat ≤ 2 ^ 47
  | sysLseek fd' _ => fd' = fd
  | sysOpen _ _ | sysClose _ => False

end FileCall

/-- A call of the current task in some state of the kernel. -/
structure Request where
  env : Env
  world : World
  call : FileCall

namespace Request

/-- What the kernel is like when a user task makes a call. No lock is held, the task has a page
table, and the size in an entry of a FAT32 directory has 32 bits. -/
structure Ready (r : Request) : Prop where
  held : r.world.held = []
  task : ∃ task, r.world.task = some task ∧ task.pageTable ≠ 0
  fat32 : ∀ path file, (r.env.vfs.open path r.world.devices).1 = .ok (.plain (.fat32 file)) →
    file.fileSize.toNat < 2 ^ 32

/-- The state in which the task has the table `t`. -/
def start (r : Request) (t : FdTable) : World := r.world.setFds r.world.sched.current t

def result (r : Request) (t : FdTable) : EStateM.Result Stop World U64 :=
  r.call.run r.env (r.start t)

/-- The table after the call, if it returns. -/
def step (t : FdTable) (r : Request) : Option FdTable :=
  (returned (r.result t)).map fun _ => (ended (r.result t)).fds r.world.sched.current

/-- What a call can do to the table. -/
inductive Effect (r : Request) (t : FdTable) (result : U64) : FdTable → Prop
  /-- a call that has failed, or has not changed the handle -/
  | nothing : (∀ ptr len, r.call = .sysOpen ptr len → opened r.env (r.start t) ptr len = none) →
      (∀ fd, r.call ≠ .sysClose fd) → Effect r t result t
  | inserts {ptr len : U64} {file : File} : r.call = .sysOpen ptr len →
      opened r.env (r.start t) ptr len = some file →
      result = BitVec.ofNat 64 (insertFile t file).1 → Effect r t result (insertFile t file).2
  | closes {fd : U64} : r.call = .sysClose fd → Effect r t result (t.set fd.toNat none)
  | moves {fd : U64} {file file' : File} : r.call.fd = some fd →
      t.fileAt fd.toNat = some file → file'.rewound = file.rewound →
      Effect r t result (t.set fd.toNat (some file'))

variable {r : Request} {t t' : FdTable} {result fd : U64} {w' : World}

theorem table_start (r : Request) (t : FdTable) : (r.start t).table = t :=
  update_self _ _ _

theorem table_of_unchanged (hfds : w'.fds = (r.start t).fds) :
    w'.fds r.world.sched.current = t := by
  rw [hfds]
  exact table_start r t

theorem table_of_update (hfds : w'.fds = update (r.start t).fds (r.start t).sched.current t') :
    w'.fds r.world.sched.current = t' := by
  rw [hfds]
  exact update_self _ _ _

theorem Effect.of_touches (htouches : Touches (r.start t) fd w') (hfd : r.call.fd = some fd) :
    Effect r t result (w'.fds r.world.sched.current) := by
  unfold Touches at htouches
  rw [table_start] at htouches
  rcases htouches with hfds | ⟨file, file', hfile, hsame, hfds⟩
  · rw [table_of_unchanged hfds]
    refine .nothing (fun ptr len hcall => ?_) fun fd hcall => ?_ <;>
      · rw [hcall] at hfd
        cases hfd
  · rw [table_of_update hfds]
    exact .moves hfd hfile hsame

/-- **What a call does.** -/
theorem step_cases (hready : r.Ready) (hstep : step t r = some t') :
    ∃ result, returned (r.result t) = some result ∧ Effect r t result t' := by
  obtain ⟨result, hreturned, rfl⟩ := Option.map_eq_some_iff.mp hstep
  refine ⟨result, hreturned, ?_⟩
  generalize hended : ended (r.result t) = w'
  have hok : r.call.run r.env (r.start t) = .ok result w' :=
    hended ▸ eq_ok_of_returned hreturned
  have hheld : (r.start t).held = [] := hready.held
  obtain ⟨task, htask, -⟩ := hready.task
  have htask' : (r.start t).task = some task := htask
  cases hcall : r.call with
  | sysOpen ptr len =>
    rw [hcall] at hok
    rcases sysOpen_eq_ok hheld htask' hok with ⟨hnone, hfds⟩ | ⟨file, hfile, hresult, hfds⟩
    · rw [table_of_unchanged hfds]
      refine .nothing (fun ptr' len' hcall' => ?_) fun fd hcall' => ?_
      · cases hcall.symm.trans hcall'
        exact hnone
      · cases hcall.symm.trans hcall'
    · rw [table_start] at hresult hfds
      rw [table_of_update hfds]
      exact .inserts hcall hfile hresult
  | sysClose fd =>
    rw [hcall] at hok
    have hfds := sysClose_eq_ok hheld htask' hok
    rw [table_start] at hfds
    rw [table_of_update hfds]
    exact .closes hcall
  | sysRead fd buf count =>
    rw [hcall] at hok
    exact .of_touches (touches_sysRead hheld htask' hok) (by rw [hcall]; rfl)
  | sysWrite fd buf count =>
    rw [hcall] at hok
    exact .of_touches (touches_sysWrite hheld htask' hok) (by rw [hcall]; rfl)
  | sysLseek fd offset =>
    rw [hcall] at hok
    exact .of_touches (touches_sysLseek hheld htask' hok) (by rw [hcall]; rfl)

namespace Effect

section

variable (h : Effect r t result t')
include h

theorem length_le : t.length ≤ t'.length := by
  cases h with
  | nothing => exact le_rfl
  | inserts => exact (FdTable.insertFile_spec _ _).2.2
  | closes | moves => exact length_set.ge

/-- Only the descriptor of the call changes, or the one that it returns. -/
theorem fileAt_of_fd (hfd : r.call.fd = some fd) {j : Nat}
    (hj : j ≠ fd.toNat) : t'.fileAt j = t.fileAt j := by
  cases h with
  | nothing => rfl
  | inserts hcall | closes hcall =>
    rw [hcall] at hfd
    cases hfd
  | moves hfd' hfile =>
    cases hfd.symm.trans hfd'
    rw [FdTable.fileAt_set (FdTable.lt_of_fileAt hfile), if_neg hj]

theorem fileAt_of_sysClose (hcall : r.call = .sysClose fd)
    (j : Nat) : t'.fileAt j = if j = fd.toNat then none else t.fileAt j := by
  cases h with
  | nothing _ hclose => exact absurd hcall (hclose fd)
  | inserts hcall' => cases hcall.symm.trans hcall'
  | closes hcall' =>
    cases hcall.symm.trans hcall'
    exact FdTable.fileAt_set_none _ _
  | moves hfd =>
    rw [hcall] at hfd
    cases hfd

theorem of_sysOpen {ptr len : U64} {file : File}
    (hcall : r.call = .sysOpen ptr len) (hopened : opened r.env (r.start t) ptr len = some file) :
    result = BitVec.ofNat 64 (insertFile t file).1 ∧ t' = (insertFile t file).2 := by
  cases h with
  | nothing hopen =>
    rw [hopen ptr len hcall] at hopened
    cases hopened
  | inserts hcall' hopened' hresult =>
    cases hcall.symm.trans hcall'
    cases hopened.symm.trans hopened'
    exact ⟨hresult, rfl⟩
  | closes hcall' => cases hcall.symm.trans hcall'
  | moves hfd =>
    rw [hcall] at hfd
    cases hfd

/-- The file behind a descriptor after the call was there before, or the VFS has opened it. -/
theorem rewound_fileAt {j : Nat} {file : File} (hfile : t'.fileAt j = some file) :
    (∃ before, t.fileAt j = some before ∧ file.rewound = before.rewound) ∨
      3 ≤ j ∧ ∃ path, (r.env.vfs.open path r.world.devices).1 = .ok file := by
  cases h with
  | nothing => exact .inl ⟨file, hfile, rfl⟩
  | @inserts ptr len file' hcall hopened =>
    obtain ⟨hleast, hentries, -⟩ := FdTable.insertFile_spec t file'
    rw [hentries] at hfile
    split at hfile
    next hj =>
      cases hfile
      exact .inr ⟨hj ▸ hleast.1.1, exists_of_opened (w := r.start t) hopened⟩
    · exact .inl ⟨file, hfile, rfl⟩
  | closes =>
    rw [FdTable.fileAt_set_none] at hfile
    split at hfile
    · cases hfile
    · exact .inl ⟨file, hfile, rfl⟩
  | @moves fd before after _ hbefore hsame =>
    rw [FdTable.fileAt_set (FdTable.lt_of_fileAt hbefore)] at hfile
    split at hfile
    next hj =>
      cases hfile
      subst hj
      exact .inl ⟨before, hbefore, hsame⟩
    · exact .inl ⟨file, hfile, rfl⟩

end

end Effect

/-! ### The table in every run -/

/-- The first three entries are there and empty, and FAT32 files are as large as a directory entry
can say. -/
structure Tidy (t : FdTable) : Prop where
  three : 3 ≤ t.length
  low : ∀ i < 3, t.fileAt i = none
  small : ∀ i file, t.fileAt i = some file → file.fat32Size < 2 ^ 32

theorem tidy_new : Tidy .new where
  three := by decide
  low := by decide
  small i file h := by
    have hnone : FdTable.new.fileAt i = none := by
      rcases i with _ | _ | _ | i <;> rfl
    rw [hnone] at h
    cases h

theorem Tidy.step (h : Tidy t) (hready : r.Ready) (hstep : step t r = some t') : Tidy t' := by
  obtain ⟨result, -, heffect⟩ := step_cases hready hstep
  refine ⟨h.three.trans heffect.length_le, fun i hi => ?_, fun i file hfile => ?_⟩
  · cases hfile : t'.fileAt i with
    | none => rfl
    | some file =>
      rcases heffect.rewound_fileAt hfile with ⟨before, hbefore, -⟩ | ⟨hthree, -⟩
      · rw [h.low i hi] at hbefore
        cases hbefore
      · omega
  · rcases heffect.rewound_fileAt hfile with ⟨before, hbefore, hsame⟩ | ⟨-, path, hopen⟩
    · rw [← File.fat32Size_rewound, hsame, File.fat32Size_rewound]
      exact h.small i before hbefore
    · cases file with
      | stdin => exact Nat.two_pow_pos _
      | plain file =>
        cases file with
        | fat32 file => exact hready.fat32 path file hopen
        | mouse | fb | serial | ram | tar => exact Nat.two_pow_pos _

/-- In a tidy table a call returns `EBADF` exactly if the descriptor it asks for is not open. -/
theorem Tidy.ebadf_iff (h : Tidy t) (hready : r.Ready) (hasks : r.call.AsksFor fd) :
    returned (r.result t) = some (-9) ↔ t.fileAt fd.toNat = none := by
  have hheld : (r.start t).held = [] := hready.held
  obtain ⟨task, htask, hcr3⟩ := hready.task
  have htask' : (r.start t).task = some task := htask
  have htable := table_start r t
  unfold Request.result
  cases hcall : r.call with
  | sysOpen ptr len | sysClose fd' =>
    rw [hcall] at hasks
    exact hasks.elim
  | sysRead fd' buf count =>
    rw [hcall] at hasks
    obtain ⟨rfl, hfd, hbuf, hcount, hrange⟩ := hasks
    have hiff := ebadf_sysRead r.env hheld htask' hcr3 hbuf hcount (by omega) hfd
    rwa [htable] at hiff
  | sysWrite fd' buf count =>
    rw [hcall] at hasks
    obtain ⟨rfl, hfd, hbuf, hcount, hrange⟩ := hasks
    have hiff := ebadf_sysWrite r.env hheld htask' hcr3 hbuf hcount hrange hfd
    rwa [htable] at hiff
  | sysLseek fd' offset =>
    rw [hcall] at hasks
    obtain rfl : fd' = fd := hasks
    have hsize : ∀ file, (r.start t).table.fileAt fd'.toNat = some file →
        file.size (r.start t).devices ≤ 2 ^ 63 := by
      intro file hfile
      rw [htable] at hfile
      exact file.size_le _ (h.small _ file hfile)
    have hiff := ebadf_sysLseek offset hheld htask' hsize
    rwa [htable] at hiff

/-- The path stands at `0x1000`. -/
def ofMouse (call : FileCall) : Request :=
  ⟨deviceEnv 0x1000 (utf8 "/dev/mouse"), smallWorld, call⟩

theorem ready_ofMouse (call : FileCall) : (ofMouse call).Ready where
  held := rfl
  task := ⟨smallTask, rfl, by decide⟩
  fat32 path file hopen := by
    have hdispatch : (Mounts.dispatch Mounts.FileSystem.open path [("/dev", devFs)]
      smallWorld.devices).1 = .ok (.plain (.fat32 file)) := hopen
    rw [Mounts.dispatch] at hdispatch
    split at hdispatch
    · dsimp only [devFs] at hdispatch
      split at hdispatch <;> cases hdispatch
    · cases hdispatch

end Request

end BeastOs.Syscall
