import BeastOs.Memory.PhysicalBytes
import BeastOs.Memory.SmallPages
import BeastOs.Syscall.ProgramBreak

/-!
# What programs learn about the screen

`sys_fb_info` maps the framebuffer and stores its address, width, height and pitch to a buffer of
the caller: one word of 64 bits and three of 32 bits behind it. It runs with the page table of the
kernel, so that the stores go where that table has the addresses of the buffer, whether or not the
caller's buffer is there. The shell and the compositor read the buffer as words of 64 bits, and take
the fourth of them for the pitch.

A page table changes the upper bits of an address only. So no store reaches the fourth word of the
buffer, wherever the pages are.

Main result: `geometry_misreported`. No program ever decodes the geometry of the screen.
-/

namespace BeastOs.Syscall

open BitVec Lib Paging PageTableEntry Vmm

/-- Where the framebuffer is mapped. -/
def fbUserAddr : U64 := 0x500000000000

/-- The address of a page of the framebuffer. -/
def fbPage (k : Nat) : U64 := fbUserAddr + BitVec.ofNat 64 (4096 * k)

def fbPageCount (fbSize : U64) : Nat := (fbSize.toNat + 4095) / 4096

/-- The loop that maps the framebuffer, page by page. -/
def mapFramebuffer (cr3 fbPhys fbSize : U64) : Vmm Unit := do
  Vmm.new cr3
  (List.range (fbPageCount fbSize)).forM fun k =>
    Vmm.mapPageWithFlags cr3 (fbPage k) (fbPhys + BitVec.ofNat 64 (4096 * k))
      (Flags.present ||| Flags.writable ||| Flags.user)

/-- A store through a page table. Where nothing is mapped, the kernel's page fault ends the call;
pages that are mapped on demand are left out. -/
def storeThrough (cr3 : U64) : U64 → List U8 → Sys Unit
  | _, [] => pure ()
  | virt, b :: bytes => do
    match ← gets fun w => translate w.machine cr3 virt with
    | none => throw .panics
    | some phys =>
      modify fun w => w.withMachine (writeByte w.machine phys b)
      storeThrough cr3 (virt + 1) bytes

/-- `kernelCr3` is what `read_cr3` returns: the stub of the call has loaded it. -/
def sysFbInfo (kernelCr3 bufPtr : U64) : Sys U64 := do
  if bufPtr = 0 then return -22
  let fb ← gets (·.devices.framebuffer)
  match fb.physInfo with
  | none => return -19
  | some (fbPhys, fbSize) =>
    if fbSize = 0 then return -19
    if ← onMachine (mapFramebuffer (pageBase kernelCr3) fbPhys fbSize) then
      storeThrough (pageBase kernelCr3) bufPtr (leBytes fbUserAddr 8)
      storeThrough (pageBase kernelCr3) (bufPtr + 8) (leBytes fb.width 4)
      storeThrough (pageBase kernelCr3) (bufPtr + 12) (leBytes fb.height 4)
      storeThrough (pageBase kernelCr3) (bufPtr + 16) (leBytes fb.pitch 4)
      return 0
    else return -12

/-! ## The programs -/

structure Geometry where
  addr : U64
  width : U32
  height : U32
  pitch : U32
  deriving DecidableEq

/-- What the kernel means to report. -/
def Framebuffer.geometry (fb : Framebuffer) : Geometry :=
  ⟨fbUserAddr, fb.width, fb.height, fb.pitch⟩

/-- A word of the buffer, whose bytes are at these physical addresses. -/
def infoWord (σ : Machine) (frame : Nat → U64) (i : Nat) : U64 :=
  readU64 (fun offset => readByte σ (frame offset.toNat)) (BitVec.ofNat 64 (8 * i))

/-- How both programs read the buffer. -/
def decodeInfo (info : Nat → U64) : Geometry :=
  ⟨info 0, (info 1).setWidth 32, (info 2).setWidth 32, (info 3).setWidth 32⟩

/-- The shell's `framebuf::init`; `none` where it returns `false`. -/
def framebufInit (result : U64) (info : Nat → U64) : Option Geometry :=
  if result.slt 0 then none
  else
    let g := decodeInfo info
    if g.addr = 0 ∨ g.width = 0 ∨ g.height = 0 then none else some g

/-- The compositor's `Framebuffer::new` -/
def framebufferNew (result : U64) (info : Nat → U64) : Option Geometry :=
  if result.slt 0 then none else some (decodeInfo info)

/-! ## The buffer -/

/-- The five words of the caller's buffer, before the call: where the caller's page table has their
bytes, they are zero, and no page of them is free or a table of the kernel. -/
structure ZeroedBuffer (own : U64 → Option (U64 × List Nat)) (userCr3 bufPtr : U64) (σ : Machine)
    (frame : Nat → U64) : Prop where
  shown : ∀ k < 40, translate σ userCr3 (bufPtr + BitVec.ofNat 64 k) = some (frame k)
  zero : ∀ k < 40, readByte σ (frame k) = 0
  aside : ∀ k < 40, SetAside own σ (pageBase (frame k))

/-- The pages of the framebuffer are in slots of the kernel's page table, and not part of a huge
page. -/
def ScreenFree (slots : Nat → Prop) (σ : Machine) (cr3 : U64) (fb : Framebuffer) : Prop :=
  ∀ info, fb.physInfo = some info → ∀ k < fbPageCount info.2,
    slots (pml4Index (fbPage k)) ∧ ¬ Covered σ cr3 (fbPage k)

variable {slots : Nat → Prop} {own : U64 → Option (U64 × List Nat)} {σ σ' : Machine}
  {r q virt phys : U64} {w w' : World}

/-- A page table keeps the place of an address in its page. -/
theorem translate_mod (h : translate σ r virt = some phys) :
    phys.toNat % 4096 = virt.toNat % 4096 := by
  have hadd : ∀ (e mask : U64) (n : Nat), mask.toNat = 2 ^ (12 + n) - 1 →
      (physicalAddress e + (virt &&& mask)).toNat % 4096 = virt.toNat % 4096 := by
    intro e mask n hmask
    have hbase := physicalAddress_mod e
    have hlow : (virt &&& mask).toNat % 4096 = virt.toNat % 4096 := by
      rw [toNat_and, hmask, Nat.and_two_pow_sub_one_eq_mod]
      exact Nat.mod_mod_of_dvd _ ⟨2 ^ n, Nat.pow_add 2 12 n⟩
    rw [toNat_add]
    omega
  unfold Vmm.translate at h
  dsimp only at h
  repeat' split at h
  all_goals cases h
  · exact hadd _ _ 18 rfl
  · exact hadd _ _ 9 rfl
  · exact hadd _ _ 0 rfl

/-- A store does not reach bytes at other places of a page. -/
theorem readByte_storeThrough {bytes : List U8} (hstore : storeThrough r virt bytes w = .ok () w')
    (hq : ∀ k < bytes.length, (virt.toNat + k) % 4096 ≠ q.toNat % 4096) :
    readByte w'.machine q = readByte w.machine q := by
  induction bytes generalizing virt w with
  | nil =>
    cases hstore
    rfl
  | cons b bytes ih =>
    have hfirst := hq 0 (Nat.succ_pos _)
    rw [storeThrough, gets_bind] at hstore
    cases hphys : translate w.machine r virt with
    | none =>
      rw [hphys] at hstore
      cases hstore
    | some phys =>
      rw [hphys] at hstore
      obtain ⟨⟨⟩, w₁, hwrite, hstore⟩ := bind_eq_ok.mp hstore
      cases hwrite
      rw [ih hstore fun k hk => ?_]
      · refine byte_writeByte_of_not (byteIndex_lt q) (fun hat => ?_) b
        have heq : phys = q := address_ext hat.1 hat.2.1 hat.2.2
        rw [heq] at hphys
        exact hfirst (translate_mod hphys).symm
      · have hnext := hq (k + 1) (Nat.succ_lt_succ hk)
        rw [toNat_add, show (1 : U64).toNat = 1 from rfl]
        omega

/-- `VirtualMemoryManager::new` writes the recursive entry, which is in no slot. -/
theorem Hierarchy.new (h : Hierarchy slots σ r own) (hslots : ¬ slots recursiveEntry)
    (hok : Vmm.new r σ = .ok () σ') : Hierarchy slots σ' r own ∧
      (∀ v, slots (pml4Index v) → ¬ Covered σ r v → ¬ Covered σ' r v) ∧
      ∀ u, SetAside own σ u → SetAside own σ' u ∧ σ'.mem u = σ.mem u := by
  unfold Vmm.new at hok
  rw [writeEntry_eq] at hok
  cases hok
  refine ⟨h.write_outer h.own_root (fun hi => hslots (hi.2.2 rfl)) _, ?_, ?_⟩
  · intro v hv
    unfold Covered leaf
    rw [reading_congr fun x hx => write_of_ne σ _ ?_]
    · exact id
    · rintro ⟨hx₁, hx₂⟩
      obtain ⟨p₁, p₂, hpath, hown⟩ := h.of_mem_trail hv hx
      rw [hx₁, h.own_root] at hown
      cases hown
      rw [← hx₂, ← (List.cons.inj hpath).1] at hslots
      exact hslots hv
  · exact fun u hu => ⟨hu, write_table_of_ne σ _ _ (Forest.ne_of_own h.own_root hu.1).symm⟩

/-- Pages that are mapped leave those alone that are set aside. -/
theorem mem_mapPages {fbPhys : U64} {ks : List Nat} (h : Hierarchy slots σ r own)
    (hsmall : ∀ k ∈ ks, slots (pml4Index (fbPage k)) ∧ ¬ Covered σ r (fbPage k))
    (hok : ks.forM (fun k => Vmm.mapPageWithFlags r (fbPage k) (fbPhys + BitVec.ofNat 64 (4096 * k))
      (Flags.present ||| Flags.writable ||| Flags.user)) σ = .ok () σ') {u : U64}
    (hu : SetAside own σ u) : σ'.mem u = σ.mem u := by
  induction ks generalizing σ own with
  | nil =>
    cases hok
    rfl
  | cons k ks ih =>
    rw [List.forM, bind_eq_ok] at hok
    obtain ⟨⟨⟩, σ₁, hmap, hok⟩ := hok
    obtain ⟨hk, hks⟩ := List.forall_mem_cons.mp hsmall
    obtain ⟨own', hmaps⟩ := h.maps hk.1 hk.2 hmap
    obtain ⟨hu', hmem⟩ := hmaps.setAside hu
    rw [← hmem]
    exact ih hmaps.hierarchy
      (fun j hj => ⟨(hks j hj).1, hmaps.not_covered (hks j hj).1 (hks j hj).2⟩) hok hu'

/-- Mapping the framebuffer leaves the pages of the buffer as they are. -/
theorem mem_mapFramebuffer {fbPhys fbSize : U64} (h : Hierarchy slots σ r own)
    (hslots : ¬ slots recursiveEntry)
    (hscreen : ∀ k < fbPageCount fbSize, slots (pml4Index (fbPage k)) ∧ ¬ Covered σ r (fbPage k))
    (hok : mapFramebuffer r fbPhys fbSize σ = .ok () σ') {u : U64} (hu : SetAside own σ u) :
    σ'.mem u = σ.mem u := by
  obtain ⟨⟨⟩, σ₁, hnew, hok⟩ := bind_eq_ok.mp hok
  obtain ⟨h₁, hsmall, haside⟩ := Hierarchy.new h hslots hnew
  obtain ⟨hu₁, hmem⟩ := haside u hu
  rw [← hmem]
  refine mem_mapPages h₁ (fun k hk => ?_) hok hu₁
  obtain ⟨hslot, hcovered⟩ := hscreen k (List.mem_range.mp hk)
  exact ⟨hslot, hsmall _ hslot hcovered⟩

/-- What a call that returns 0 has done. -/
theorem sysFbInfo_ok {kernelCr3 bufPtr : U64} (hok : sysFbInfo kernelCr3 bufPtr w = .ok 0 w') :
    ∃ info σ₁ w₁ w₂ w₃, w.devices.framebuffer.physInfo = some info ∧
      mapFramebuffer (pageBase kernelCr3) info.1 info.2 w.machine = .ok () σ₁ ∧
      storeThrough (pageBase kernelCr3) bufPtr (leBytes fbUserAddr 8) (w.withMachine σ₁) =
        .ok () w₁ ∧
      storeThrough (pageBase kernelCr3) (bufPtr + 8) (leBytes w.devices.framebuffer.width 4) w₁ =
        .ok () w₂ ∧
      storeThrough (pageBase kernelCr3) (bufPtr + 12) (leBytes w.devices.framebuffer.height 4) w₂ =
        .ok () w₃ ∧
      storeThrough (pageBase kernelCr3) (bufPtr + 16) (leBytes w.devices.framebuffer.pitch 4) w₃ =
        .ok () w' := by
  unfold sysFbInfo at hok
  split at hok
  · cases hok
  rw [gets_bind] at hok
  cases hinfo : w.devices.framebuffer.physInfo with
  | none =>
    rw [hinfo] at hok
    cases hok
  | some info =>
    rw [hinfo] at hok
    dsimp only at hok
    split at hok
    · cases hok
    rcases onMachine_eq (mapFramebuffer (pageBase kernelCr3) info.1 info.2) w with
      ⟨σ₁, hmap, heq⟩ | ⟨m, σ₁, -, heq⟩
    · rw [bind_of_ok heq, if_pos rfl] at hok
      obtain ⟨⟨⟩, w₁, h₁, hok⟩ := bind_eq_ok.mp hok
      obtain ⟨⟨⟩, w₂, h₂, hok⟩ := bind_eq_ok.mp hok
      obtain ⟨⟨⟩, w₃, h₃, hok⟩ := bind_eq_ok.mp hok
      obtain ⟨⟨⟩, w₄, h₄, hok⟩ := bind_eq_ok.mp hok
      cases hok
      exact ⟨info, σ₁, w₁, w₂, w₃, rfl, hmap, h₁, h₂, h₃, h₄⟩
    · rw [bind_of_ok heq] at hok
      cases hok

/-- **The fourth word of the buffer stays zero.** -/
theorem infoWord_pitch {kernelCr3 userCr3 bufPtr : U64} {frame : Nat → U64}
    (hkernel : Hierarchy slots w.machine (pageBase kernelCr3) own)
    (hslots : ¬ slots recursiveEntry)
    (hscreen : ScreenFree slots w.machine (pageBase kernelCr3) w.devices.framebuffer)
    (hbuffer : ZeroedBuffer own userCr3 bufPtr w.machine frame)
    (hok : sysFbInfo kernelCr3 bufPtr w = .ok 0 w') : infoWord w'.machine frame 3 = 0 := by
  obtain ⟨info, σ₁, w₁, w₂, w₃, hinfo, hmap, h₁, h₂, h₃, h₄⟩ := sysFbInfo_ok hok
  have hbyte : ∀ k, 20 ≤ k → k < 40 → readByte w'.machine (frame k) = 0 := by
    intro k hlow hk
    have hplace := translate_mod (hbuffer.shown k hk)
    rw [toNat_add, toNat_ofNat] at hplace
    have hoff : ∀ (offset : U64) {n m : Nat} (x : BitVec n), offset.toNat + m ≤ 20 →
        ∀ j < (leBytes x m).length,
          ((bufPtr + offset).toNat + j) % 4096 ≠ (frame k).toNat % 4096 := by
      intro offset n m x hle j hj
      rw [leBytes, List.length_map, List.length_range] at hj
      rw [toNat_add]
      omega
    have hfirst := hoff 0#64 (n := 64) (m := 8) fbUserAddr (by decide)
    rw [BitVec.add_zero] at hfirst
    rw [readByte_storeThrough h₄ (hoff 16 _ (by decide)),
      readByte_storeThrough h₃ (hoff 12 _ (by decide)),
      readByte_storeThrough h₂ (hoff 8 _ (by decide)), readByte_storeThrough h₁ hfirst]
    have hmem := mem_mapFramebuffer hkernel hslots (hscreen info hinfo) hmap (hbuffer.aside k hk)
    show Word.byte (σ₁.mem _ _) _ = 0
    rw [hmem]
    exact hbuffer.zero k hk
  have hzero : readLe (fun offset => readByte w'.machine (frame offset.toNat)) 24 8 =
      readLe (fun _ => 0) 24 8 := by
    refine readLe_congr fun j hj => hbyte _ ?_ ?_ <;>
    · rw [toNat_add, toNat_ofNat, show (24 : U64).toNat = 24 from rfl]
      omega
  exact congrArg (BitVec.ofNat 64) (hzero.trans rfl)

/-- **The geometry of the screen is never reported.** Whatever the framebuffer, after a call that
returns 0 on a zeroed buffer neither program decodes what the kernel means to report. -/
theorem geometry_misreported {kernelCr3 userCr3 bufPtr : U64} {frame : Nat → U64}
    (hpitch : w.devices.framebuffer.pitch ≠ 0)
    (hkernel : Hierarchy slots w.machine (pageBase kernelCr3) own) (hslots : ¬ slots recursiveEntry)
    (hscreen : ScreenFree slots w.machine (pageBase kernelCr3) w.devices.framebuffer)
    (hbuffer : ZeroedBuffer own userCr3 bufPtr w.machine frame)
    (hok : sysFbInfo kernelCr3 bufPtr w = .ok 0 w') :
    framebufInit 0 (infoWord w'.machine frame) ≠ some w.devices.framebuffer.geometry ∧
      framebufferNew 0 (infoWord w'.machine frame) ≠ some w.devices.framebuffer.geometry := by
  have hdecoded : decodeInfo (infoWord w'.machine frame) ≠ w.devices.framebuffer.geometry := by
    intro heq
    have hzero := congrArg Geometry.pitch heq
    unfold decodeInfo at hzero
    rw [infoWord_pitch hkernel hslots hscreen hbuffer hok] at hzero
    exact hpitch hzero.symm
  constructor
  · intro hinit
    unfold framebufInit at hinit
    dsimp only at hinit
    repeat' split at hinit
    · cases hinit
    · cases hinit
    · exact hdecoded (Option.some.inj hinit)
  · exact fun hnew => hdecoded (Option.some.inj hnew)

/-! ### A small screen -/

/-- The address of the buffer, on the page behind the framebuffer. -/
def smallBufPtr : U64 := fbPage 1 + 0x100

/-- A machine whose next free page is taken. -/
def taken (σ : Machine) : Machine := { σ with pmm := σ.pmm.allocPage.2 }

theorem Hierarchy.taken (h : Hierarchy slots σ r own) {u : U64}
    (hfirst : σ.pmm.allocPage.1 = some u) :
    Hierarchy slots (taken σ) r own ∧ SetAside own (taken σ) u := by
  have halloc : σ.pmm.allocPage = (some u, σ.pmm.allocPage.2) := by rw [← hfirst]
  obtain ⟨htaken, haside, -⟩ := h.allocPage halloc
  exact ⟨htaken, haside⟩

/-- The next free page, which is at 0x3000, is mapped for the buffer. -/
def smallMapped : Machine :=
  after (mapEntry 0x2000 (fbPage 1) 0x3000 7 (taken smallWorld.machine))

/-- A screen of 16 columns and 8 rows, of 64 bytes each. -/
def smallScreen : World :=
  { smallWorld with
    machine := smallMapped
    devices := { smallWorld.devices with framebuffer := ⟨some (0xFD000000, 512), 16, 8, 64⟩ } }

def smallFrame (k : Nat) : U64 := 0x3100 + BitVec.ofNat 64 k

/-- The frame of the buffer is set aside from the tables. -/
theorem hierarchy_smallScreen : ∃ own, Hierarchy userHalf smallScreen.machine 0x2000 own ∧
    SetAside own smallScreen.machine 0x3000 := by
  obtain ⟨own, hinv⟩ := owned_of_run boot_smallSystem (.single step_create_smallSystem)
  have hstart : Hierarchy userHalf smallWorld.machine 0x2000 (ownedBy own 0x2000) := by
    dsimp only [smallWorld]
    exact hinv.hierarchy (.inr rfl)
  obtain ⟨htaken, haside⟩ := Hierarchy.taken hstart (u := 0x3000) (by decide +kernel)
  have hmap : value? (mapEntry 0x2000 (fbPage 1) 0x3000 7 (taken smallWorld.machine)) =
      some () := by
    decide +kernel
  have hsmall : ¬ Covered (taken smallWorld.machine) 0x2000 (fbPage 1) := by decide +kernel
  obtain ⟨own', hmaps⟩ := htaken.maps (by decide) hsmall (eq_ok_of_value? hmap)
  dsimp only [smallScreen, smallMapped]
  exact ⟨own', hmaps.hierarchy, (hmaps.setAside haside).1⟩

theorem smallScreen_returns : returned (sysFbInfo 0x2000 smallBufPtr smallScreen) = some 0 := by
  decide +kernel

/-- The caller's page table is the kernel's, so that all stores reach the buffer. -/
theorem geometry_misreported_small : ∃ w', sysFbInfo 0x2000 smallBufPtr smallScreen = .ok 0 w' ∧
    framebufInit 0 (infoWord w'.machine smallFrame) ≠ some ⟨fbUserAddr, 16, 8, 64⟩ ∧
    framebufferNew 0 (infoWord w'.machine smallFrame) ≠ some ⟨fbUserAddr, 16, 8, 64⟩ := by
  obtain ⟨own, hhierarchy, haside⟩ := hierarchy_smallScreen
  have hscreen :
      ScreenFree userHalf smallScreen.machine 0x2000 smallScreen.devices.framebuffer := by
    rintro info hinfo k hk
    cases hinfo
    obtain rfl : k = 0 := Nat.lt_one_iff.mp hk
    exact ⟨by decide, by decide +kernel⟩
  have hbuffer : ZeroedBuffer own 0x2000 smallBufPtr smallScreen.machine smallFrame := by
    have hpage : ∀ k < 40, pageBase (smallFrame k) = 0x3000 := by decide
    refine ⟨by decide +kernel, by decide +kernel, fun k hk => ?_⟩
    rw [hpage k hk]
    exact haside
  have hok := eq_ok_of_returned smallScreen_returns
  have hslots : ¬ userHalf recursiveEntry := by decide
  rw [show (0x2000 : U64) = pageBase 0x2000 from rfl] at hhierarchy hscreen
  exact ⟨_, hok, geometry_misreported (by decide) hhierarchy hslots hscreen hbuffer hok⟩

/-- Of 16 columns and 8 rows the programs see 16 columns, 64 rows and a pitch of 0. -/
theorem geometry_misread :
    returned (sysFbInfo 0x2000 smallBufPtr smallScreen) = some 0 ∧
      framebufInit 0 (infoWord (ended (sysFbInfo 0x2000 smallBufPtr smallScreen)).machine
        smallFrame) = some ⟨fbUserAddr, 16, 64, 0⟩ ∧
      framebufferNew 0 (infoWord (ended (sysFbInfo 0x2000 smallBufPtr smallScreen)).machine
        smallFrame) = some ⟨fbUserAddr, 16, 64, 0⟩ := by
  decide +kernel

end BeastOs.Syscall
