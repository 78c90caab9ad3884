import BeastOs.Arch.Paging
import BeastOs.Memory.Pmm

/-!
# The virtual memory manager

`kernel/src/memory/vmm.rs`: the walkers of a four-level page table (PML4, PDPT, PD, PT) in physical
memory. Physical memory is given by the words of each page; the direct map makes all of it
accessible. An operation that fails keeps the changes it has made so far.

Flushes of the TLB and messages on the console are left out.
-/

namespace BeastOs

structure Machine where
  /-- the words of each page, by its physical address -/
  mem : U64 → Nat → U64
  pmm : Pmm
  /-- `KERNEL_PML4` -/
  kernelPml4 : U64

/-- Operations on the machine, with the texts of their errors. -/
abbrev Vmm := EStateM String Machine

namespace Vmm

open PageTableEntry Paging

/-! ## Memory -/

def readEntry (table : U64) (index : Nat) : Vmm U64 := do
  return (← get).mem table index

def writeEntry (table : U64) (index : Nat) (e : U64) : Vmm Unit :=
  modify fun σ =>
    { σ with mem := Function.update σ.mem table (Function.update (σ.mem table) index e) }

def zeroPage (phys : U64) : Vmm Unit :=
  modify fun σ => { σ with mem := Function.update σ.mem phys fun _ => 0 }

/-- The page `p` is one of the `count` pages from `phys` on. -/
def InTables (phys : U64) (count : Nat) (p : U64) : Prop :=
  (p - phys).toNat % Pmm.pageSize = 0 ∧ (p - phys).toNat / Pmm.pageSize < count

instance (phys : U64) (count : Nat) (p : U64) : Decidable (InTables phys count p) :=
  inferInstanceAs (Decidable (_ ∧ _))

/-- `core::ptr::write_bytes` through a pointer to a table: `count` tables from `phys` on. -/
def zeroTables (phys : U64) (count : Nat) : Vmm Unit :=
  modify fun σ =>
    { σ with mem := fun p index => if InTables phys count p then 0 else σ.mem p index }

/-- `pmm::alloc_page().ok_or(message)?` -/
def allocPage (message : String) : Vmm U64 := fun σ =>
  match σ.pmm.allocPage with
  | (some phys, pmm) => .ok phys { σ with pmm }
  | (none, pmm) => .error message { σ with pmm }

/-! ## Building tables -/

/-- The flags of an entry that refers to a new table. -/
def intermediateFlags (newFlags : U64) : U64 :=
  Flags.present ||| Flags.writable ||| (newFlags &&& Flags.user)

/-- The flags that a table on the way to the page has to have. -/
def neededFlags (newFlags : U64) : U64 := newFlags &&& (Flags.user ||| Flags.writable)

/-- `split_1gib_page` and `split_2mib_page`: replace a huge page by a table of 512 pages of size
`stride`, whose entries get the flags `extra` besides. -/
def splitPage (stride extra : U64) (table : U64) (index : Nat) (newFlags : U64) : Vmm U64 := do
  let entry ← readEntry table index
  let basePhys := physicalAddress entry
  let hugeFlags := flags entry
  let childFlags := (hugeFlags ||| neededFlags newFlags) &&& ~~~Flags.hugePage
  let phys ← allocPage "OOM"
  zeroTables phys 4096
  (List.range 512).forM fun i =>
    writeEntry phys i (setAddress (basePhys + BitVec.ofNat 64 i * stride) (childFlags ||| extra))
  writeEntry table index (setAddress phys (intermediateFlags newFlags))
  return phys

def split1gibPage : U64 → Nat → U64 → Vmm U64 := splitPage 0x200000 Flags.hugePage

def split2mibPage : U64 → Nat → U64 → Vmm U64 := splitPage 0x1000 0

def getOrCreateTable (parent : U64) (index : Nat) (newFlags : U64) (level : Nat) : Vmm U64 := do
  let entry ← readEntry parent index
  if isPresent entry then
    if has entry Flags.hugePage then
      match level with
      | 2 => split1gibPage parent index newFlags
      | 3 => split2mibPage parent index newFlags
      | _ => throw "Unexpected huge page at PML4 level"
    else
      if flags entry &&& neededFlags newFlags ≠ neededFlags newFlags then
        writeEntry parent index
          (setAddress (physicalAddress entry) (flags entry ||| neededFlags newFlags))
      return physicalAddress (← readEntry parent index)
  else
    let newPhys ← allocPage "OOM"
    zeroPage newPhys
    writeEntry parent index (setAddress newPhys (intermediateFlags newFlags))
    return newPhys

/-! ## Operations on a page table -/

def recursiveEntry : Nat := 510

/-- `VirtualMemoryManager::new`, which sets up the recursive mapping. -/
def new (pml4 : U64) : Vmm Unit :=
  writeEntry pml4 recursiveEntry
    (setAddress pml4 (Flags.present ||| Flags.writable ||| Flags.noExecute))

/-- The walk and the store that `map_page_with_flags`, `map_page` and `map_user_page` share. -/
def mapEntry (pml4 virt phys flags : U64) : Vmm Unit := do
  let pdpt ← getOrCreateTable pml4 (pml4Index virt) flags 1
  let pd ← getOrCreateTable pdpt (pdptIndex virt) flags 2
  let pt ← getOrCreateTable pd (pdIndex virt) flags 3
  writeEntry pt (ptIndex virt) (setAddress phys flags)

def mapPageWithFlags (pml4 virt phys flags : U64) : Vmm Unit := mapEntry pml4 virt phys flags

def mapPageFlags (user : Bool) : U64 :=
  Flags.present ||| Flags.writable ||| if user then Flags.user else 0

def mapPage (pml4 virt phys : U64) (user : Bool) : Vmm Unit :=
  mapEntry pml4 virt phys (mapPageFlags user)

def onDemandFlags : U64 := Flags.user ||| Flags.writable ||| Flags.onDemand

def mapUserPage (pml4 virt : U64) (onDemand : Bool) : Vmm Unit :=
  if onDemand then mapEntry pml4 virt 0 onDemandFlags
  else do
    let phys ← allocPage "OOM: cannot allocate physical page for user mapping"
    mapPage pml4 virt phys true

/-- The table that an entry refers to. -/
def follow (table : U64) (index : Nat) (message : String) : Vmm U64 := do
  let entry ← readEntry table index
  if isPresent entry then return physicalAddress entry else throw message

/-- The page table of an address; the three texts are the errors of the levels. -/
def findTable (pml4 virt : U64) (noPml4 noPdpt noPd : String) : Vmm U64 := do
  let pdpt ← follow pml4 (pml4Index virt) noPml4
  let pd ← follow pdpt (pdptIndex virt) noPdpt
  follow pd (pdIndex virt) noPd

/-- The flags of an on-demand page that has been given a frame. -/
def faultFlags (old : U64) : U64 :=
  ((old &&& ~~~Flags.onDemand) ||| Flags.present) &&& ~~~Flags.noExecute

def handleFault (pml4 virt : U64) : Vmm Unit := do
  let pt ← findTable pml4 virt "PML4 entry not present" "PDPT entry not present"
    "PD entry not present"
  let entry ← readEntry pt (ptIndex virt)
  if !isPresent entry && has entry Flags.onDemand then
    let phys ← allocPage "OOM: cannot allocate physical page for fault"
    zeroPage phys
    let entry ← readEntry pt (ptIndex virt)
    writeEntry pt (ptIndex virt) (setAddress phys (faultFlags (flags entry)))
  else throw "Not an on-demand page"

/-- Returns the physical address that was mapped. -/
def unmapPage (pml4 virt : U64) : Vmm U64 := do
  let pt ← findTable pml4 virt "PML4 not present" "PDPT not present" "PD not present"
  let entry ← readEntry pt (ptIndex virt)
  if !isPresent entry && !has entry Flags.onDemand then throw "PT not present"
  else
    writeEntry pt (ptIndex virt) (setAddress 0 0)
    return physicalAddress entry

def translate (σ : Machine) (pml4 virt : U64) : Option U64 :=
  let pml4E := σ.mem pml4 (pml4Index virt)
  if !isPresent pml4E then none
  else
    let pdptE := σ.mem (physicalAddress pml4E) (pdptIndex virt)
    if !isPresent pdptE then none
    else if has pdptE Flags.hugePage then
      some (physicalAddress pdptE + (virt &&& 0x3FFFFFFF))
    else
      let pdE := σ.mem (physicalAddress pdptE) (pdIndex virt)
      if !isPresent pdE then none
      else if has pdE Flags.hugePage then some (physicalAddress pdE + (virt &&& 0x1FFFFF))
      else
        let ptE := σ.mem (physicalAddress pdE) (ptIndex virt)
        if !isPresent ptE then none else some (physicalAddress ptE + (virt &&& 0xFFF))

/-- Copy a present entry of the kernel's PML4. -/
def copyKernelEntry (newPml4 : U64) (i : Nat) : Vmm Unit := do
  let entry ← readEntry (← get).kernelPml4 i
  if isPresent entry then writeEntry newPml4 i entry

def createUserPageTable : Vmm (Option U64) := fun σ =>
  match σ.pmm.allocPage with
  | (none, _) => .ok none σ
  | (some newPml4, pmm) =>
    (do
      zeroPage newPml4
      (List.range' 256 256).forM (copyKernelEntry newPml4)
      new newPml4
      return some newPml4 : Vmm (Option U64)) { σ with pmm }

end Vmm

end BeastOs
