import BeastOs.Memory.Pmm

/-!
# Ownership of physical pages

Runs of calls to the physical memory manager after `init`. A ledger records the outstanding
allocations, each as the list of its pages that have not been freed yet. Callers free only pages
they were given, or pages that are already free.

In every such run the counter equals the number of set bits, outstanding allocations share no page
and hold only pages whose bit is clear, and no call ever returns a page that `init` reserved.

Main results: `isFree_init_iff` and `pageOwnership`.
-/

namespace BeastOs.Pmm

open List Lib

/-! ## What the boot loader hands over -/

/-- The memory map and the range of the kernel and its modules. -/
structure BootMemory where
  entries : List MemmapEntry
  kernelStart : U64
  kernelEnd : U64

def MemmapEntry.usable (e : MemmapEntry) : Bool := e.type = memmapUsable

/-- The addresses an entry covers. -/
def MemmapEntry.Covers (e : MemmapEntry) (addr : Nat) : Prop :=
  e.base.toNat ≤ addr ∧ addr < e.base.toNat + e.length.toNat

namespace BootMemory

/-- Usable entries do not overlap, and rounding a usable entry's base or the end of the kernel up to
a page does not leave the address space: physical addresses have at most 52 bits. -/
structure Valid (boot : BootMemory) : Prop where
  disjoint : (boot.entries.filter (·.usable)).Pairwise
    fun e e' => ∀ addr, ¬ (e.Covers addr ∧ e'.Covers addr)
  base_lt : ∀ e ∈ boot.entries, e.usable → e.base.toNat + 4095 < 2 ^ 64
  kernelEnd_lt : boot.kernelEnd.toNat + 4095 < 2 ^ 64

/-- Every byte of the page is usable memory. -/
def Usable (boot : BootMemory) (page : Nat) : Prop :=
  ∃ e ∈ boot.entries, e.usable ∧ ∀ k < pageSize, e.Covers (page * pageSize + k)

/-- Some byte of the page belongs to the kernel. -/
def InKernel (boot : BootMemory) (page : Nat) : Prop :=
  ∃ k < pageSize, boot.kernelStart.toNat ≤ page * pageSize + k ∧
    page * pageSize + k < boot.kernelEnd.toNat

/-- The pages `init` reserves: outside usable memory, in the kernel range, or below 1 MiB. -/
def Reserved (boot : BootMemory) (page : Nat) : Prop :=
  ¬ boot.Usable page ∨ boot.InKernel page ∨ page * pageSize < 1024 * 1024

def init (boot : BootMemory) : Pmm := Pmm.init boot.entries boot.kernelStart boot.kernelEnd

end BootMemory

variable {boot : BootMemory} {e : MemmapEntry} {page : Nat}

/-- The pages an entry gives lie inside it. -/
theorem MemmapEntry.Gives.covers (h : e.Gives page) (hbase : e.base.toNat + 4095 < 2 ^ 64) :
    ∀ k < pageSize, e.Covers (page * pageSize + k) := by
  obtain ⟨-, hlo, hhi⟩ := h
  have hup : (e.base + 4095#64).toNat = e.base.toNat + 4095 := by
    exact Nat.mod_eq_of_lt hbase
  have hsum : (e.base + e.length).toNat ≤ e.base.toNat + e.length.toNat := by
    exact Nat.mod_le _ _
  unfold startPage at hlo
  unfold endPage at hhi
  unfold pageSize at hlo hhi ⊢
  intro k hk
  constructor <;> omega

theorem BootMemory.Valid.gives_disjoint (h : boot.Valid) :
    boot.entries.Pairwise fun e e' => ∀ page, ¬ (e.Gives page ∧ e'.Gives page) := by
  have hpair := pairwise_filter.mp h.disjoint
  refine List.Pairwise.imp_of_mem ?_ hpair
  rintro e e' he he' hdisj page ⟨hgives, hgives'⟩
  have hu : e.usable = true := decide_eq_true hgives.1
  have hu' : e'.usable = true := decide_eq_true hgives'.1
  -- the first byte of a page given twice would be covered twice
  exact hdisj hu hu' (page * pageSize + 0)
    ⟨hgives.covers (h.base_lt e he hu) 0 (by decide),
      hgives'.covers (h.base_lt e' he' hu') 0 (by decide)⟩

/-- The pages that are reserved for the kernel are those it has a byte of. -/
theorem BootMemory.inKernel_of_range (hend : boot.kernelEnd.toNat + 4095 < 2 ^ 64)
    (hkernel : boot.kernelStart < boot.kernelEnd)
    (hpage : boot.kernelStart.toNat / pageSize ≤ page ∧
      page < (boot.kernelEnd + 4095#64).toNat / pageSize) : boot.InKernel page := by
  have hup : (boot.kernelEnd + 4095#64).toNat = boot.kernelEnd.toNat + 4095 := by
    exact Nat.mod_eq_of_lt hend
  have hlt : boot.kernelStart.toNat < boot.kernelEnd.toNat := hkernel
  unfold pageSize at hpage
  unfold InKernel pageSize
  -- the first byte of the page, or of the kernel if that is later
  refine ⟨max boot.kernelStart.toNat (page * 4096) - page * 4096, ?_, ?_, ?_⟩ <;> omega

theorem BootMemory.InKernel.range (hend : boot.kernelEnd.toNat + 4095 < 2 ^ 64)
    (h : boot.InKernel page) : boot.kernelStart.toNat / pageSize ≤ page ∧
      page < (boot.kernelEnd + 4095#64).toNat / pageSize := by
  obtain ⟨k, hk, hlo, hhi⟩ := h
  have hup : (boot.kernelEnd + 4095#64).toNat = boot.kernelEnd.toNat + 4095 := by
    exact Nat.mod_eq_of_lt hend
  unfold pageSize at hk hlo hhi ⊢
  constructor <;> omega

theorem not_reserved_of_isFree (h : boot.Valid) (hlt : page < maxPages)
    (hfree : boot.init.isFree page = true) : ¬ boot.Reserved page := by
  obtain ⟨⟨e, he, hgives⟩, hkernel, hlow⟩ := (isFree_init hlt).mp hfree
  have hu : e.usable = true := decide_eq_true hgives.1
  rintro (husable | hin | hmib)
  · exact husable ⟨e, he, hu, hgives.covers (h.base_lt e he hu)⟩
  · exact hkernel (hin.range h.kernelEnd_lt)
  · unfold pageSize at hlow hmib
    omega

/-- An entry gives every page that lies inside it. -/
theorem MemmapEntry.gives_of_covers (hu : e.usable = true)
    (hfits : e.base.toNat + e.length.toNat + 4095 < 2 ^ 64)
    (h : ∀ k < pageSize, e.Covers (page * pageSize + k)) : e.Gives page := by
  have hup : (e.base + 4095#64).toNat = e.base.toNat + 4095 := by
    have hbase : e.base.toNat + 4095 < 2 ^ 64 := by omega
    exact Nat.mod_eq_of_lt hbase
  have hsum : (e.base + e.length).toNat = e.base.toNat + e.length.toNat := by
    exact Nat.mod_eq_of_lt (by omega)
  have hfirst := (h 0 (by decide)).1
  have hlast := (h 4095 (by decide)).2
  refine ⟨of_decide_eq_true hu, ?_, ?_⟩
  · unfold startPage
    unfold pageSize at hfirst ⊢
    omega
  · unfold endPage
    unfold pageSize at hlast ⊢
    omega

/-- **`init` frees exactly the usable pages**: a page is free if and only if all of it is in one
usable entry, none of it belongs to the kernel, and it is not in the first MiB. -/
theorem isFree_init_iff
    (hentries : ∀ e ∈ boot.entries, e.base.toNat + e.length.toNat + 4095 < 2 ^ 64)
    (hkernel : boot.kernelStart < boot.kernelEnd)
    (hend : boot.kernelEnd.toNat ≤ 2 ^ 64 - 4096) (page : Nat) :
    boot.init.isFree page = true ↔
      page < maxPages ∧ boot.Usable page ∧ ¬ boot.InKernel page ∧ 1024 * 1024 ≤ 4096 * page := by
  have hend' : boot.kernelEnd.toNat + 4095 < 2 ^ 64 := by omega
  have hlow : 1024 * 1024 / pageSize ≤ page ↔ 1024 * 1024 ≤ 4096 * page := by
    unfold pageSize
    omega
  constructor
  · intro hfree
    have hlt := lt_of_isFree_init hfree
    obtain ⟨⟨e, he, hgives⟩, hnot, hmib⟩ := (isFree_init hlt).mp hfree
    have hbase : e.base.toNat + 4095 < 2 ^ 64 := by
      have := hentries e he
      omega
    exact ⟨hlt, ⟨e, he, decide_eq_true hgives.1, hgives.covers hbase⟩,
      fun hin => hnot (hin.range hend'), hlow.mp hmib⟩
  · rintro ⟨hlt, ⟨e, he, hu, hcovers⟩, hnot, hmib⟩
    exact (isFree_init hlt).mpr
      ⟨⟨e, he, MemmapEntry.gives_of_covers hu (hentries e he) hcovers⟩,
        fun hrange => hnot (BootMemory.inKernel_of_range hend' hkernel hrange), hlow.mpr hmib⟩

/-- Two usable entries that overlap, both ends of which are inside of a page, and a kernel that ends
inside of a page. -/
def overlapping : BootMemory :=
  ⟨[⟨0x100800, 0x3000, memmapUsable⟩, ⟨0x102800, 0x3000, memmapUsable⟩], 0x103000, 0x103001⟩

/-- Of these six pages the first and the last are not covered to their ends, and the kernel is in
the fourth. -/
theorem isFree_init_overlapping :
    (∀ page, overlapping.init.isFree page = true ↔ page < maxPages ∧ overlapping.Usable page ∧
      ¬ overlapping.InKernel page ∧ 1024 * 1024 ≤ 4096 * page) ∧
    (List.range' 0x100 6).map overlapping.init.isFree = [false, true, true, false, true, false] :=
  ⟨isFree_init_iff (by decide) (by decide) (by decide), by decide +kernel⟩

/-! ## Runs -/

inductive Call where
  | allocPage (result : Option U64)
  | allocContiguous (count : Nat) (result : Option U64)
  | freePage (physAddr : U64)

/-- The pages a call returns. -/
def Call.pages : Call → List Nat
  | .allocPage (some addr) => [pageOf addr]
  | .allocContiguous count (some addr) => pageRange (pageOf addr) (pageOf addr + count)
  | _ => []

/-- The manager, and the pages of each allocation that have not been freed. -/
structure Ledger where
  pmm : Pmm
  outstanding : List (List Nat)

def Ledger.start (boot : BootMemory) : Ledger := ⟨boot.init, []⟩

/-- One call and what it returned. Callers free pages they were given, or free pages. -/
def Ledger.Step (l : Ledger) (c : Call) (l' : Ledger) : Prop :=
  match c with
  | .allocPage result => l.pmm.allocPage = (result, l'.pmm) ∧
      l'.outstanding = c.pages :: l.outstanding
  | .allocContiguous count result => l.pmm.allocContiguous count = (result, l'.pmm) ∧
      l'.outstanding = c.pages :: l.outstanding
  | .freePage physAddr =>
    (pageOf physAddr ∈ l.outstanding.flatten ∨ l.pmm.isFree (pageOf physAddr) = true) ∧
    l'.pmm = l.pmm.freePage physAddr ∧
    l'.outstanding = l.outstanding.map (·.erase (pageOf physAddr))

/-- What holds of the ledger after every call. -/
structure Ledger.Owned (boot : BootMemory) (l : Ledger) : Prop where
  counted : Counted l.pmm
  nodup : l.outstanding.flatten.Nodup
  not_free : ∀ page ∈ l.outstanding.flatten, l.pmm.isFree page = false
  given : ∀ page ∈ l.outstanding.flatten, page < maxPages ∧ boot.init.isFree page = true
  free : ∀ page < maxPages, l.pmm.isFree page = true → boot.init.isFree page = true

variable {l l' : Ledger} {c : Call}

theorem owned_start (h : boot.Valid) : (Ledger.start boot).Owned boot := by
  have hcounted : Counted boot.init := counted_init h.gives_disjoint
  constructor
  all_goals dsimp only [Ledger.start, flatten_nil]
  · exact hcounted
  · exact nodup_nil
  · intro page hpage
    exact absurd hpage not_mem_nil
  · intro page hpage
    exact absurd hpage not_mem_nil
  · intro page hlt hfree
    exact hfree

/-- Handing out free pages as a new allocation. -/
theorem Ledger.Owned.handOut {pages : List Nat} (h : l.Owned boot) (hnodup : pages.Nodup)
    (hfree : ∀ page ∈ pages, page ∈ l.pmm.freeSet) (hpmm : l'.pmm = pages.foldl Pmm.take l.pmm)
    (hout : l'.outstanding = pages :: l.outstanding) : l'.Owned boot := by
  have hcounted := h.counted.take_foldl hnodup hfree
  have hbits := isFree_take_foldl pages l.pmm
  rw [← hpmm] at hcounted hbits
  have hdisj : ∀ page ∈ pages, page ∉ l.outstanding.flatten := by
    intro page hpage hmem
    have hfree' := (mem_freeSet.mp (hfree page hpage)).2
    rw [h.not_free page hmem] at hfree'
    cases hfree'
  refine ⟨hcounted, ?_, ?_, ?_, ?_⟩
  · rw [hout, flatten_cons, nodup_append']
    exact ⟨hnodup, h.nodup, fun page hpage hmem => hdisj page hpage hmem⟩
  · intro page hpage
    rw [hbits]
    rw [hout, flatten_cons, mem_append] at hpage
    rcases hpage with hpage | hpage
    · simp [hpage]
    · simp [h.not_free page hpage]
  · intro page hpage
    rw [hout, flatten_cons, mem_append] at hpage
    rcases hpage with hpage | hpage
    · obtain ⟨hlt, hpage⟩ := mem_freeSet.mp (hfree page hpage)
      exact ⟨hlt, h.free page hlt hpage⟩
    · exact h.given page hpage
  · intro page hlt hpage
    rw [hbits, Bool.and_eq_true] at hpage
    exact h.free page hlt hpage.2

/-- What an allocation hands out: free pages, taken from the manager. -/
theorem Ledger.Step.handsOut (hstep : l.Step c l') (hfree : ∀ addr, c ≠ .freePage addr) :
    c.pages.Nodup ∧ (∀ page ∈ c.pages, page ∈ l.pmm.freeSet) ∧
      l'.pmm = c.pages.foldl Pmm.take l.pmm ∧ l'.outstanding = c.pages :: l.outstanding := by
  cases c with
  | freePage addr => exact absurd rfl (hfree addr)
  | allocPage result =>
    obtain ⟨halloc, hout⟩ := hstep
    cases result with
    | none => exact ⟨nodup_nil, by simp [Call.pages], (allocPage_eq_none halloc).2, hout⟩
    | some addr =>
      obtain ⟨page, hpage, rfl, hpmm⟩ := allocPage_eq_some halloc
      have hpages : Call.pages (.allocPage (some (BitVec.ofNat 64 (page * pageSize))))
          = [page] := congrArg (· :: []) (pageOf_ofNat (mem_freeSet.mp hpage).1)
      rw [hpages] at hout ⊢
      exact ⟨nodup_singleton _, by simpa using hpage, hpmm, hout⟩
  | allocContiguous count result =>
    obtain ⟨halloc, hout⟩ := hstep
    cases result with
    | none =>
      exact ⟨nodup_nil, by simp [Call.pages], allocContiguous_eq_none halloc, hout⟩
    | some addr =>
      obtain ⟨start, rfl, hpos, hpage, hpmm⟩ := allocContiguous_eq_some halloc
      have hstart := hpage start (mem_pageRange.mpr ⟨Nat.le_refl _, by omega⟩)
      have hpages : Call.pages
          (.allocContiguous count (some (BitVec.ofNat 64 (start * pageSize))))
          = pageRange start (start + count) := by
        simp only [Call.pages, pageOf_ofNat (mem_freeSet.mp hstart).1]
      rw [hpages] at hout ⊢
      exact ⟨nodup_pageRange _ _, hpage, hpmm, hout⟩

theorem flatten_map_erase_sublist (pages : List (List Nat)) (page : Nat) :
    (pages.map (·.erase page)).flatten.Sublist pages.flatten := by
  induction pages with
  | nil => exact List.Sublist.refl _
  | cons p pages ih => exact (erase_sublist).append ih

theorem not_mem_flatten_map_erase {pages : List (List Nat)} (h : pages.flatten.Nodup) :
    page ∉ (pages.map (·.erase page)).flatten := by
  rw [mem_flatten]
  rintro ⟨p, hp, hpage⟩
  obtain ⟨q, hq, rfl⟩ := mem_map.mp hp
  have hnodup := (nodup_flatten.mp h).1 q hq
  exact (List.Nodup.mem_erase_iff hnodup).mp hpage |>.1 rfl

theorem Ledger.Owned.giveBack {addr : U64} (h : l.Owned boot)
    (hmine : pageOf addr ∈ l.outstanding.flatten ∨ l.pmm.isFree (pageOf addr) = true)
    (hpmm : l'.pmm = l.pmm.freePage addr)
    (hout : l'.outstanding = l.outstanding.map (·.erase (pageOf addr))) : l'.Owned boot := by
  have hsub := flatten_map_erase_sublist l.outstanding (pageOf addr)
  rw [← hout] at hsub
  have hnot : pageOf addr ∉ l'.outstanding.flatten := by
    rw [hout]
    exact not_mem_flatten_map_erase h.nodup
  refine ⟨by rw [hpmm]; exact h.counted.freePage addr, hsub.nodup h.nodup, ?_, ?_, ?_⟩
  · intro page hpage
    have hold := hsub.subset hpage
    have hne : page ≠ pageOf addr := fun heq => hnot (heq ▸ hpage)
    rw [hpmm, isFree_freePage _ _ _ (h.given page hold).1, h.not_free page hold]
    simp [hne]
  · intro page hpage
    exact h.given page (hsub.subset hpage)
  · intro page hlt hpage
    rw [hpmm, isFree_freePage _ _ _ hlt, Bool.or_eq_true, decide_eq_true_eq] at hpage
    rcases hpage with rfl | hpage
    · rcases hmine with hmine | hmine
      · exact (h.given _ hmine).2
      · exact h.free _ hlt hmine
    · exact h.free page hlt hpage

theorem Ledger.Owned.step (h : l.Owned boot) (hstep : l.Step c l') : l'.Owned boot := by
  by_cases hfree : ∀ addr, c ≠ .freePage addr
  · obtain ⟨hnodup, hpages, hpmm, hout⟩ := hstep.handsOut hfree
    exact h.handOut hnodup hpages hpmm hout
  · obtain ⟨addr, hc⟩ := not_forall.mp hfree
    rw [not_not.mp hc] at hstep
    exact h.giveBack hstep.1 hstep.2.1 hstep.2.2

theorem Ledger.Owned.not_reserved (hvalid : boot.Valid) (h : l.Owned boot) (hstep : l.Step c l')
    (hpage : page ∈ c.pages) : ¬ boot.Reserved page := by
  have hfree : ∀ addr, c ≠ .freePage addr := by
    rintro addr rfl
    cases hpage
  obtain ⟨hlt, hpage⟩ := mem_freeSet.mp ((hstep.handsOut hfree).2.1 page hpage)
  exact not_reserved_of_isFree hvalid hlt (h.free page hlt hpage)

/-- **Ownership and accounting of physical pages.** -/
theorem pageOwnership {τ : List (Transition Ledger Call)} (hvalid : boot.Valid)
    (hrun : Run Ledger.Step (Ledger.start boot) τ l) :
    l.pmm.freePages.toNat = l.pmm.freeSet.card ∧
      l.outstanding.Pairwise List.Disjoint ∧
      (∀ page ∈ l.outstanding.flatten, l.pmm.isFree page = false) ∧
      ∀ t ∈ τ, ∀ page ∈ t.label.pages, ¬ boot.Reserved page := by
  have hstart := owned_start hvalid
  have howned : l.Owned boot := hrun.invariant' hstart fun _ _ _ h hstep => h.step hstep
  refine ⟨howned.counted.toNat_eq, (nodup_flatten.mp howned.nodup).2, howned.not_free, ?_⟩
  intro t ht page hpage
  obtain ⟨hsrc, hstep⟩ := hrun.forall_mem hstart (fun _ _ _ h hstep => h.step hstep) t ht
  exact hsrc.not_reserved hvalid hstep hpage

/-- Three pages of usable memory above 1 MiB, the first of which holds the kernel. -/
def threePages : BootMemory := ⟨[⟨0x100000, 0x3000, memmapUsable⟩], 0x100000, 0x101000⟩

theorem valid_threePages : threePages.Valid := by
  refine ⟨?_, ?_, by decide⟩
  · simp [threePages, MemmapEntry.usable]
  · intro e he _
    rw [mem_singleton.mp he]
    decide

theorem step_allocPage {pmm : Pmm} (hpage : page ∈ pmm.freeSet) (out : List (List Nat)) :
    ∃ addr, Ledger.Step ⟨pmm, out⟩ (.allocPage (some addr))
      ⟨pmm.take (pageOf addr), [pageOf addr] :: out⟩ := by
  cases halloc : pmm.allocPage with
  | mk result pmm' =>
    cases result with
    | none =>
      rw [(allocPage_eq_none halloc).1] at hpage
      cases hpage
    | some addr =>
      obtain ⟨page', hpage', rfl, rfl⟩ := allocPage_eq_some halloc
      have hpages := pageOf_ofNat (mem_freeSet.mp hpage').1
      exact ⟨_, by rw [hpages]; exact halloc, rfl⟩

/-- The other two are allocated. -/
theorem pageOwnership_threePages : ∃ τ l a b, Run Ledger.Step (Ledger.start threePages) τ l ∧
    l.outstanding = [[b], [a]] ∧ a ≠ b ∧ l.pmm.freePages.toNat = l.pmm.freeSet.card := by
  have hfree : 257 ∈ threePages.init.freeSet ∧ 258 ∈ threePages.init.freeSet := by
    constructor <;> refine mem_freeSet.mpr ⟨by decide, (isFree_init (by decide)).mpr ?_⟩ <;>
      exact ⟨⟨_, mem_singleton_self _, by decide⟩, by decide, by decide⟩
  obtain ⟨first, hfirst⟩ := step_allocPage hfree.1 []
  obtain ⟨page, hpage⟩ : ∃ page, page ∈ (threePages.init.take (pageOf first)).freeSet := by
    rw [freeSet_take]
    by_cases heq : pageOf first = 257
    · exact ⟨258, Finset.mem_erase.mpr ⟨by omega, hfree.2⟩⟩
    · exact ⟨257, Finset.mem_erase.mpr ⟨Ne.symm heq, hfree.1⟩⟩
  obtain ⟨second, hsecond⟩ := step_allocPage hpage [[pageOf first]]
  have hrun : Run Ledger.Step (Ledger.start threePages) _ _ := .cons hfirst (.single hsecond)
  obtain ⟨hcount, hdisjoint, -, -⟩ := pageOwnership valid_threePages hrun
  refine ⟨_, _, _, _, hrun, rfl, ?_, hcount⟩
  intro heq
  simp [heq] at hdisjoint

end BeastOs.Pmm
