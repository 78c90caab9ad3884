import BeastOs.Syscall.Descriptors

/-!
# The buffer of a write

`sys_write` copies the caller's buffer while the caller's page table is active. It checks that the
end of the buffer is in the user's half of the address space, but computes the end modulo `2 ^ 64`:
a buffer that reaches past the last address, and ends in the user's half again, is accepted and
read. There is taken to be room for the copy.

Main result: `writesSafely_iff`.
-/

namespace BeastOs.Syscall

open BitVec Lib

/-- Where the kernel's half begins. -/
def userLimit : U64 := 0x0000800000000000

/-- The addresses that `read_user_buf` copies from. -/
def copied (buf count : U64) : List U64 :=
  if buf + count > userLimit then [] else (List.range count.toNat).map (buf + BitVec.ofNat 64 ·)

/-- Only the user's half is read, and a buffer that is not in it is refused unread. -/
structure WritesSafely (buf count : U64) : Prop where
  below : ∀ addr ∈ copied buf count, addr < userLimit
  refused : (∃ i < count.toNat, ¬ buf + BitVec.ofNat 64 i < userLimit) →
    copied buf count = [] ∧ ∀ (env : Env) (fd : U64) (w : World) (task : Scheduler.Task),
      w.held = [] → w.task = some task → task.pageTable ≠ 0 →
      sysWrite env .checked fd buf count w = .ok (-22) w

variable {buf count : U64}

/-- What is copied is what stands at these addresses. -/
theorem readUserBuf_eq_copied (env : Env) (σ : Machine) (cr3 buf count : U64) :
    readUserBuf env σ cr3 buf count =
      if buf + count > userLimit then none
      else some ((copied buf count).map (env.loadUser σ cr3)) := by
  unfold readUserBuf copied userLimit
  split
  · rfl
  · rw [List.map_map]
    rfl

theorem sysWrite_refused (hend : buf + count > userLimit) (env : Env) (fd : U64) {w : World}
    {task : Scheduler.Task} (hheld : w.held = []) (htask : w.task = some task)
    (hcr3 : task.pageTable ≠ 0) : sysWrite env .checked fd buf count w = .ok (-22) w := by
  unfold sysWrite
  split
  · rfl
  · rw [bind_of_ok (userCr3_eq hheld htask), if_neg hcr3, gets_bind, readUserBuf_eq_copied,
      if_pos hend]
    rfl

/-- **Only the buffers that wrap around into the user's half are read wrongly.** -/
theorem writesSafely_iff (buf count : U64) : WritesSafely buf count ↔
    ¬ (2 ^ 64 ≤ buf.toNat + count.toNat ∧ buf + count ≤ userLimit) := by
  have hbuf := buf.isLt
  have hcount := count.isLt
  have hlimit : userLimit.toNat = 2 ^ 47 := rfl
  constructor
  · rintro ⟨hbelow, -⟩ ⟨hwraps, hend⟩
    -- the last address is read
    have hlast : buf + BitVec.ofNat 64 (2 ^ 64 - 1 - buf.toNat) ∈ copied buf count := by
      unfold copied
      rw [if_neg (BitVec.not_lt.mpr hend)]
      exact List.mem_map_of_mem (List.mem_range.mpr (by omega))
    have hlt := lt_def.mp (hbelow _ hlast)
    rw [toNat_add, toNat_ofNat] at hlt
    omega
  · intro hwraps
    by_cases hend : buf + count > userLimit
    · have hnil : copied buf count = [] := if_pos hend
      refine ⟨by simp [hnil], fun _ => ⟨hnil, fun env fd w task hheld htask hcr3 => ?_⟩⟩
      exact sysWrite_refused hend env fd hheld htask hcr3
    · have hle : buf + count ≤ userLimit := BitVec.not_lt.mp hend
      have hno : ¬ 2 ^ 64 ≤ buf.toNat + count.toNat := fun h => hwraps ⟨h, hle⟩
      have hsum : buf.toNat + count.toNat ≤ 2 ^ 47 := by
        rw [le_def, toNat_add] at hle
        omega
      have hbelow : ∀ i < count.toNat, buf + BitVec.ofNat 64 i < userLimit := by
        intro i hi
        rw [lt_def, toNat_add, toNat_ofNat]
        omega
      refine ⟨?_, fun ⟨i, hi, hnot⟩ => absurd (hbelow i hi) hnot⟩
      unfold copied
      rw [if_neg hend]
      simpa using hbelow

/-- The last byte of the address space is an `A`. -/
def lastByteEnv : Env := deviceEnv 0xFFFFFFFFFFFFFFFF [0x41]

/-- A user program has the kernel's last byte written to the console. -/
theorem sysWrite_reads_kernel :
    copied 0xFFFFFFFFFFFFFFFF 1 = [0xFFFFFFFFFFFFFFFF] ∧
    returned (sysWrite lastByteEnv .checked 1 0xFFFFFFFFFFFFFFFF 1 smallWorld) = some 1 ∧
    (ended (sysWrite lastByteEnv .checked 1 0xFFFFFFFFFFFFFFFF 1 smallWorld)).devices.serialOut =
      [0x41] ∧
    ¬ WritesSafely 0xFFFFFFFFFFFFFFFF 1 := by
  refine ⟨by decide, by decide +kernel, by decide +kernel, fun hsafe => ?_⟩
  exact absurd (hsafe.below 0xFFFFFFFFFFFFFFFF (by decide)) (by decide)

end BeastOs.Syscall
