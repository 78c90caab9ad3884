import BeastOs.Fs.Paths
import BeastOs.Scheduler.Entry
import BeastOs.Syscall.Calls
import BeastOs.Syscall.ProgramBreak

/-!
# The working directory

`sys_chdir` and `exec` of `kernel/src/syscall/mod.rs`. A task starts in the root; `sys_chdir` puts a
normalized path in the place of the working directory, and `exec` keeps it. So the working directory
is canonical, which is what the shortcut of `resolve_user_path` for `.` relies on.

Main result: `resolves_of_run`.
-/

namespace BeastOs.Syscall

open Lib Fs Fs.PathNormalizer

/-! ## `sys_chdir` -/

/-- The current task has this working directory. -/
def World.withCwd (w : World) (task : Scheduler.Task) (cwd : String) : World :=
  w.setTask w.sched.current { task with cwd }

def changeDirectory (path : String) : Sys U64 := do
  let (_, task) ← currentTask
  match task with
  | none => return -1
  | some task =>
    let newCwd :=
      if path.startsWith "/" then normalize path.toList else join task.cwd.toList path.toList
    modify (·.withCwd task (String.ofList newCwd))
    return 0

def sysChdir (env : Env) (k : Locks) (ptr len : U64) : Sys U64 := do
  let cr3 ← userCr3 k
  let path ← gets fun w => readUserStringWithLen env w.machine cr3 ptr len
  match path with
  | .error e => return e
  | .ok path => k.locked .scheduler (changeDirectory path)

/-- What `resolve_user_path` reads. -/
def userPath (env : Env) (w : World) (cr3 ptr len : U64) : Except U64 String :=
  if len = 0 then readUserString env w.machine cr3 ptr
  else readUserStringWithLen env w.machine cr3 ptr len

/-- A path as seen from a working directory. -/
def resolveFrom (cwd path : Path) : Path :=
  if path.head? = some '/' then normalize path else normalize (cwd ++ '/' :: path)

variable {env : Env} {w w' : World} {task : Scheduler.Task} {cr3 ptr len r : U64} {path : String}

theorem startsWith_slash (path : String) :
    path.startsWith "/" = true ↔ path.toList.head? = some '/' := by
  rw [String.startsWith_string_iff]
  show ['/'] <+: path.toList ↔ _
  cases path.toList with
  | nil => simp
  | cons c rest => simp [eq_comm]

theorem changeDirectory_eq (htask : w.task = some task) (path : String) : changeDirectory path w =
      .ok 0 (w.withCwd task (String.ofList (resolveFrom task.cwd.toList path.toList))) := by
  unfold changeDirectory resolveFrom
  rw [bind_of_ok (currentTask_eq htask), ← join_eq]
  by_cases habs : path.startsWith "/" = true
  · rw [if_pos ((startsWith_slash path).mp habs)]
    dsimp only
    rw [if_pos habs]
    rfl
  · rw [if_neg (mt (startsWith_slash path).mpr habs)]
    dsimp only
    rw [if_neg habs]
    rfl

/-- **What a call of `sys_chdir` does.** -/
theorem sysChdir_eq (hheld : w.held = []) (htask : w.task = some task) :
    sysChdir env .checked ptr len w =
      match readUserStringWithLen env w.machine task.pageTable ptr len with
      | .error e => .ok e w
      | .ok path =>
        .ok 0 (w.withCwd task (String.ofList (resolveFrom task.cwd.toList path.toList))) := by
  unfold sysChdir
  rw [bind_of_ok (userCr3_eq hheld htask), gets_bind]
  cases readUserStringWithLen env w.machine task.pageTable ptr len with
  | error e => rfl
  | ok path =>
    exact locked_eq hheld hheld (changeDirectory_eq (task_holding htask _) path)

/-- **What `resolve_user_path` returns**, in a canonical working directory. -/
theorem resolveUserPath_eq (hheld : w.held = []) (htask : w.task = some task)
    (hcwd : Canonical task.cwd.toList) (hpath : userPath env w cr3 ptr len = .ok path) :
    resolveUserPath env .checked cr3 ptr len w =
      .ok (.ok (String.ofList (resolveFrom task.cwd.toList path.toList))) w := by
  unfold userPath at hpath
  unfold resolveUserPath
  rw [gets_bind, hpath]
  apply locked_eq hheld hheld
  rw [bind_of_ok (currentTask_eq (task_holding htask _))]
  unfold resolveFrom
  dsimp only
  by_cases habs : path.startsWith "/" = true
  · rw [if_pos habs, if_pos ((startsWith_slash path).mp habs)]
    rfl
  · rw [if_neg habs, if_neg (mt (startsWith_slash path).mpr habs)]
    split
    next hdot =>
      -- the shortcut: `.` adds no component to the working directory
      have hnorm : normalize (task.cwd.toList ++ '/' :: path.toList) = task.cwd.toList := by
        rw [hdot, normalize_eq_render, components_append]
        exact hcwd.normalize_eq
      rw [hnorm, String.ofList_toList]
      rfl
    · rw [← join_eq]
      rfl

/-! ## Composition -/

theorem canonical_resolveFrom (cwd path : Path) : Canonical (resolveFrom cwd path) := by
  unfold resolveFrom
  split <;> exact canonical_normalize _

/-- From the directory `d` a relative path leads where `d/path` leads from here. -/
theorem resolveFrom_resolveFrom {cwd d path : Path} (hd : d ≠ []) (hrel : path.head? ≠ some '/') :
    resolveFrom (resolveFrom cwd d) path = resolveFrom cwd (d ++ '/' :: path) := by
  obtain ⟨c, rest, rfl⟩ := List.exists_cons_of_ne_nil hd
  rw [resolveFrom, if_neg hrel]
  unfold resolveFrom
  rw [List.cons_append, List.head?_cons, List.head?_cons]
  split
  · exact normalize_append (c :: rest) path
  · rw [normalize_append, List.append_assoc]
    rfl

/-! ## Runs -/

/-- The current task changes its directory, or executes a program. What the user's memory shows is
part of a call. -/
inductive DirEvent
  | chdir (env : Env) (ptr len : U64)
  | exec (pf : Scheduler.Platform) (phys : Option U64) (entry userStackTop : U64) (name : String)
      (pageTable argc argv : U64)

def World.withSched (w : World) (sched : Scheduler) : World := { w with sched }

inductive DirStep (w : World) : DirEvent → World → Prop
  | chdir {env : Env} {ptr len r : U64} {w' : World} : w.held = [] →
      sysChdir env .checked ptr len w = .ok r w' → DirStep w (.chdir env ptr len) w'
  | exec {pf : Scheduler.Platform} {phys : Option U64} {entry userStackTop : U64} {name : String}
      {pageTable argc argv : U64} {sched : Scheduler} {d : Scheduler.Dispatch} :
      w.sched.replaceCurrentTask pf phys entry userStackTop name pageTable argc argv =
        some (sched, d) →
      DirStep w (.exec pf phys entry userStackTop name pageTable argc argv) (w.withSched sched)

/-- A task that has just been created is the current one. -/
structure Fresh (w : World) : Prop where
  held : w.held = []
  root : ∃ task, w.task = some task ∧ task.cwd = "/"

/-- The invariant. -/
structure InDirectory (w : World) : Prop where
  held : w.held = []
  canonical : ∃ task, w.task = some task ∧ Canonical task.cwd.toList

theorem Fresh.inDirectory (h : Fresh w) : InDirectory w := by
  obtain ⟨hheld, task, htask, hcwd⟩ := h
  exact ⟨hheld, task, htask, hcwd ▸ canonical_root⟩

theorem InDirectory.withCwd (h : InDirectory w) (htask : w.task = some task) (cwd path : Path) :
    InDirectory (w.withCwd task (String.ofList (resolveFrom cwd path))) := by
  refine ⟨h.held, _, task_setTask htask _, ?_⟩
  rw [String.toList_ofList]
  exact canonical_resolveFrom _ _

/-- `exec` keeps the working directory. -/
theorem cwd_replaceCurrentTask {s s' : Scheduler} {pf : Scheduler.Platform} {phys : Option U64}
    {entry userStackTop : U64} {name : String} {pageTable argc argv : U64}
    {d : Scheduler.Dispatch} (htask : s.taskAt s.current = some (some task))
    (h : s.replaceCurrentTask pf phys entry userStackTop name pageTable argc argv = some (s', d)) :
    ∃ task', s' = s.setTask s.current task' ∧ task'.cwd = task.cwd := by
  unfold Scheduler.replaceCurrentTask at h
  simp only [htask, Option.bind_eq_bind, Option.bind_some, Option.pure_def] at h
  obtain ⟨task', -, h⟩ := Option.bind_eq_some_iff.mp h
  cases h
  exact ⟨_, rfl, rfl⟩

theorem InDirectory.step {e : DirEvent} (h : InDirectory w) (hstep : DirStep w e w') :
    InDirectory w' := by
  obtain ⟨task, htask, hcwd⟩ := h.canonical
  cases hstep with
  | chdir hheld hok =>
    rw [sysChdir_eq hheld htask] at hok
    split at hok
    · cases hok
      exact h
    · cases hok
      exact h.withCwd htask _ _
  | exec hexec =>
    obtain ⟨task', rfl, hsame⟩ := cwd_replaceCurrentTask (taskAt_of_task htask) hexec
    exact ⟨h.held, task', task_setTask htask task', hsame ▸ hcwd⟩

/-- What holds wherever a task gets to. -/
structure Resolves (w : World) : Prop where
  canonical : ∃ task, w.task = some task ∧ Canonical task.cwd.toList
  /-- a path is seen from the working directory -/
  resolves : ∀ task env cr3 ptr len path, w.task = some task →
    userPath env w cr3 ptr len = .ok path →
    ∃ q, resolveUserPath env .checked cr3 ptr len w = .ok (.ok q) w ∧ Canonical q.toList ∧
      q.toList = resolveFrom task.cwd.toList path.toList
  /-- from the directory `d` a relative path leads where `d/path` leads from here -/
  composes : ∀ task env ptr len (d : String) r w', w.task = some task →
    readUserStringWithLen env w.machine task.pageTable ptr len = .ok d → d ≠ "" →
    sysChdir env .checked ptr len w = .ok r w' →
    ∀ env₁ cr₁ ptr₁ len₁ path env₂ cr₂ ptr₂ len₂, path.toList.head? ≠ some '/' →
      userPath env₁ w' cr₁ ptr₁ len₁ = .ok path →
      userPath env₂ w cr₂ ptr₂ len₂ = .ok (d ++ "/" ++ path) →
      ∃ q, resolveUserPath env₁ .checked cr₁ ptr₁ len₁ w' = .ok (.ok q) w' ∧
        resolveUserPath env₂ .checked cr₂ ptr₂ len₂ w = .ok (.ok q) w

theorem InDirectory.resolves (h : InDirectory w) : Resolves w := by
  refine ⟨h.canonical, ?_, ?_⟩
  · intro task env cr3 ptr len path htask hpath
    obtain ⟨task', htask', hcwd⟩ := h.canonical
    rw [htask] at htask'
    cases htask'
    refine ⟨_, resolveUserPath_eq h.held htask hcwd hpath, ?_, String.toList_ofList⟩
    rw [String.toList_ofList]
    exact canonical_resolveFrom _ _
  · intro task env ptr len d r w' htask hd hne hok env₁ cr₁ ptr₁ len₁ path env₂ cr₂ ptr₂ len₂ hrel
      hpath hfull
    obtain ⟨task', htask', hcwd⟩ := h.canonical
    rw [htask] at htask'
    cases htask'
    rw [sysChdir_eq h.held htask, hd] at hok
    cases hok
    refine ⟨_, resolveUserPath_eq h.held (task_setTask htask _) ?_ hpath, ?_⟩
    · rw [String.toList_ofList]
      exact canonical_resolveFrom _ _
    · have hne' : d.toList ≠ [] := fun hnil => hne (String.toList_eq_nil_iff.mp hnil)
      rw [resolveUserPath_eq h.held htask hcwd hfull, String.toList_ofList,
        resolveFrom_resolveFrom hne' hrel]
      simp

/-- **The working directory is canonical and resolution composes**, after any calls of `sys_chdir`
and `exec`. -/
theorem resolves_of_run {w₀ : World} {τ : List (Transition World DirEvent)} (hstart : Fresh w₀)
    (hrun : Run DirStep w₀ τ w) : Resolves w :=
  (hrun.invariant' hstart.inDirectory fun _ _ _ h hstep => h.step hstep).resolves

theorem fresh_smallWorld : Fresh smallWorld :=
  ⟨rfl, smallTask, rfl, (Scheduler.Task.newUser_eq_some (Option.some_get rfl).symm).2.2⟩

/-- The memory of the user holds the path `a/../b`. -/
def smallUser : Env := deviceEnv 0x1000 (utf8 "a/../b")

theorem userString_smallUser (σ : Machine) (cr3 : U64) :
    readUserStringWithLen smallUser σ cr3 0x1000 6 = .ok "a/../b" := by
  have hslice : (List.range 6).map
      (fun i => smallUser.loadUser σ cr3 (0x1000 + BitVec.ofNat 64 i)) = utf8 "a/../b" := by
    show (List.range 6).map
      (fun i => (utf8 "a/../b").getD (0x1000 + BitVec.ofNat 64 i - 0x1000 : U64).toNat 0) = _
    decide +kernel
  unfold readUserStringWithLen
  dsimp only
  rw [if_neg (by decide), show (6 : U64).toNat = 6 from rfl, hslice, fromUtf8_utf8]

theorem chdir_smallUser (hheld : w.held = []) (htask : w.task = some task) : ∃ w' task',
    sysChdir smallUser .checked 0x1000 6 w = .ok 0 w' ∧ w'.held = [] ∧ w'.task = some task' ∧
      task'.cwd = String.ofList (resolveFrom task.cwd.toList "a/../b".toList) := by
  have hchdir : sysChdir smallUser .checked 0x1000 6 w = _ := sysChdir_eq hheld htask
  rw [userString_smallUser] at hchdir
  exact ⟨_, _, hchdir, hheld, task_setTask htask _, rfl⟩

/-- A task that goes to `a/../b`, and from there to `a/../b` again. -/
theorem resolves_smallWorld : ∃ τ w, Run DirStep smallWorld τ w ∧ τ.length = 2 ∧
    (∃ task, w.task = some task ∧ task.cwd = "/b/b") ∧ Resolves w := by
  obtain ⟨w₁, task₁, hfirst, hheld₁, htask₁, hcwd₁⟩ :=
    chdir_smallUser fresh_smallWorld.held (show smallWorld.task = some smallTask from rfl)
  obtain ⟨w₂, task₂, hsecond, -, htask₂, hcwd₂⟩ := chdir_smallUser hheld₁ htask₁
  have hrun := (Run.single (DirStep.chdir fresh_smallWorld.held hfirst)).snoc
    (DirStep.chdir hheld₁ hsecond)
  refine ⟨_, w₂, hrun, rfl, ⟨task₂, htask₂, ?_⟩, resolves_of_run fresh_smallWorld hrun⟩
  rw [hcwd₂, hcwd₁]
  decide +kernel

end BeastOs.Syscall
