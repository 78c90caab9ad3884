import BeastOs.Memory.AddressSpace

/-!
# Isolation of address spaces

The tables that `translate` passes under the page table `B` are tables of `B`'s tree or of the
kernel (`Visits`). Operations on another page table write to neither, so they do not change what `B`
translates to.

Main result: `isolation`.
-/

namespace BeastOs.Vmm

open Lib PageTableEntry Paging

variable {kernel : Nat → Set U64} {roots : Set U64} {own own' : U64 → Option (U64 × List Nat)}
  {σ σ' : Machine} {A B t virt : U64} {l i : Nat}

/-- A table that `translate` can pass at level `l` under `B`. -/
def Visits (kernel : Nat → Set U64) (own : U64 → Option (U64 × List Nat)) (B : U64) (l : Nat)
    (t : U64) : Prop :=
  (∃ p, own t = some (B, p) ∧ p.length = l) ∨ 0 < l ∧ t ∈ kernel l

theorem Inv.visits_next (h : Inv kernel roots own σ) (hl : l < 3) (ht : Visits kernel own B l t)
    (hi : l = 0 → i < 512 ∧ i ≠ recursiveEntry) (hpresent : isPresent (σ.mem t i) = true)
    (hhuge : 0 < l → has (σ.mem t i) Flags.hugePage = false) :
    Visits kernel own B (l + 1) (physicalAddress (σ.mem t i)) := by
  have hchild : child σ.mem t i = some (physicalAddress (σ.mem t i)) :=
    child_eq_some.mpr ⟨hpresent, rfl⟩
  rcases ht with ⟨p, ht, rfl⟩ | ⟨hpos, ht⟩
  · by_cases hinner : Inner p i
    · exact .inl ⟨p ++ [i], h.forest.owned t B p i _ ht hinner hchild, by simp⟩
    · -- an entry of the PML4 in the kernel half
      have hnil : p = [] ∧ 256 ≤ i := by
        by_contra hcontra
        refine hinner ⟨hl, fun hp => ?_⟩
        by_contra hi'
        exact hcontra ⟨hp, Nat.not_lt.mp hi'⟩
      obtain ⟨rfl, hi'⟩ := hnil
      obtain ⟨hlt, hne⟩ := hi rfl
      have hroot := h.forest.reached t B [] ht
      cases hroot
      exact .inr ⟨Nat.succ_pos _,
        h.shared B (h.forest.valid B B [] ht).1 i _ ⟨hi', hlt, hne⟩ hchild⟩
  · exact .inr ⟨Nat.succ_pos _, h.tables.next l hl t ht hpos i _ hchild (hhuge hpos)⟩

/-- `translate` only depends on the entries it reads: the one of the PML4, and entries of tables
that are at their level. -/
theorem translate_congr_of (At : Nat → U64 → Prop)
    (hentry : σ'.mem B (pml4Index virt) = σ.mem B (pml4Index virt))
    (hfirst : isPresent (σ.mem B (pml4Index virt)) = true →
      At 1 (physicalAddress (σ.mem B (pml4Index virt))))
    (hnext : ∀ l t i, 0 < l → l < 3 → At l t → isPresent (σ.mem t i) = true →
      has (σ.mem t i) Flags.hugePage = false → At (l + 1) (physicalAddress (σ.mem t i)))
    (hsame : ∀ l t, At l t → σ'.mem t = σ.mem t) : translate σ' B virt = translate σ B virt := by
  unfold translate
  dsimp only
  rw [hentry]
  by_cases h₁ : isPresent (σ.mem B (pml4Index virt)) = true
  swap
  · simp [h₁]
  have hpdpt := hfirst h₁
  rw [hsame _ _ hpdpt]
  generalize physicalAddress (σ.mem B (pml4Index virt)) = pdpt at hpdpt ⊢
  by_cases h₂ : isPresent (σ.mem pdpt (pdptIndex virt)) = true
  swap
  · simp [h₁, h₂]
  by_cases hhuge₂ : has (σ.mem pdpt (pdptIndex virt)) Flags.hugePage = true
  · simp [h₁, h₂, hhuge₂]
  have hpd := hnext 1 _ _ (by decide) (by decide) hpdpt h₂ (Bool.eq_false_iff.mpr hhuge₂)
  rw [hsame _ _ hpd]
  generalize physicalAddress (σ.mem pdpt (pdptIndex virt)) = pd at hpd ⊢
  by_cases h₃ : isPresent (σ.mem pd (pdIndex virt)) = true
  swap
  · simp [h₁, h₂, hhuge₂, h₃]
  by_cases hhuge₃ : has (σ.mem pd (pdIndex virt)) Flags.hugePage = true
  · simp [h₁, h₂, hhuge₂, h₃, hhuge₃]
  have hpt := hnext 2 _ _ (by decide) (by decide) hpd h₃ (Bool.eq_false_iff.mpr hhuge₃)
  rw [hsame _ _ hpt]

/-- `translate` only depends on the tables it passes. -/
theorem Inv.translate_congr (h : Inv kernel roots own σ) (hB : B ∈ roots)
    (hsame : ∀ l t, Visits kernel own B l t → σ'.mem t = σ.mem t)
    (hv : pml4Index virt ≠ recursiveEntry) : translate σ' B virt = translate σ B virt := by
  have hroot : Visits kernel own B 0 B := Or.inl ⟨[], h.forest.root B hB, rfl⟩
  refine translate_congr_of (Visits kernel own B) (by rw [hsame 0 B hroot]) ?_ ?_ hsame
  · intro hpresent
    exact h.visits_next (by decide) hroot (fun _ => ⟨index_lt virt 39, hv⟩) hpresent
      (fun hpos => absurd hpos (by decide))
  · intro l t i hpos hl ht hpresent hhuge
    exact h.visits_next hl ht (fun hzero => absurd hzero (by omega)) hpresent (fun _ => hhuge)

/-- In the kernel half, `translate` passes tables of the kernel. -/
theorem Inv.translate_congr_kernel (h : Inv kernel roots own σ) (hB : B ∈ roots)
    (hentry : σ'.mem B (pml4Index virt) = σ.mem B (pml4Index virt))
    (hsame : ∀ l, ∀ t ∈ kernel l, σ'.mem t = σ.mem t) (hv : KernelIndex (pml4Index virt)) :
    translate σ' B virt = translate σ B virt := by
  refine translate_congr_of (fun l t => t ∈ kernel l) hentry ?_ ?_ hsame
  · intro hpresent
    exact h.shared B hB _ _ hv (child_eq_some.mpr ⟨hpresent, rfl⟩)
  · intro l t i hpos hl ht hpresent hhuge
    exact h.tables.next l hl t ht hpos i _ (child_eq_some.mpr ⟨hpresent, rfl⟩) hhuge

/-- Steps on behalf of `A` keep every table that `translate` passes under `B`. -/
theorem Keeps.visits (h : Keeps kernel A own σ own' σ') (hne : A ≠ B)
    (ht : Visits kernel own B l t) : σ'.mem t = σ.mem t := by
  rcases ht with ⟨p, ht, -⟩ | ⟨-, ht⟩
  · exact h.others t B p ht hne.symm
  · exact h.kernel l t ht

/-- One operation on `A` keeps what `B` translates to. -/
theorem Step.translate_eq {s s' : System} {event : Event} (h : s.Owned) (hstep : Step s event s')
    (hon : event.On A) (hB : B ∈ s.roots) (hne : A ≠ B) (hv : pml4Index virt ≠ recursiveEntry) :
    s'.roots = s.roots ∧ translate s'.machine B virt = translate s.machine B virt := by
  obtain ⟨own, hinv⟩ := h
  cases hstep with
  | create | other => exact hon.elim
  | attach hr =>
    cases hon
    exact ⟨rfl, hinv.translate_congr hB
      (fun l t ht => (hinv.new hr).2.toKeeps.visits hne ht) hv⟩
  | op hr hop =>
    cases hon
    obtain ⟨own', -, hkeeps⟩ := (Op.touches hinv hr hop).keeps
    exact ⟨rfl, hinv.translate_congr hB (fun l t ht => hkeeps.visits hne ht) hv⟩

/-- What holds of the states that operations on `A` lead to, as seen from `B`. -/
def SameUnder (B virt : U64) (s s' : System) : Prop :=
  s'.Owned ∧ B ∈ s'.roots ∧ translate s'.machine B virt = translate s.machine B virt

/-- **Isolation.** In a system that has been running in any way since it was booted, let any
sequence of operations be performed on a user page table `A`, successfully or not. Then every
address outside the recursive mapping translates under another user page table `B` to what it
translated to before. -/
theorem isolation {s₀ s s' : System} {τ τ' : List (Transition System Event)} (hboot : Boot s₀)
    (hrun : Run Step s₀ τ s) (hB : B ∈ s.roots) (hne : A ≠ B) (hops : Run Step s τ' s')
    (hon : ∀ t ∈ τ', t.label.On A) (hv : pml4Index virt ≠ recursiveEntry) :
    translate s'.machine B virt = translate s.machine B virt := by
  have hsame : SameUnder B virt s s' := by
    refine hops.invariant (C := fun t => t.label.On A) ⟨owned_of_run hboot hrun, hB, rfl⟩ ?_ hon
    intro m event m' ⟨howned, hBm, heq⟩ hstep hlabel
    obtain ⟨hroots, hstep_eq⟩ := hstep.translate_eq howned hlabel hBm hne hv
    exact ⟨hstep.owned howned, hroots ▸ hBm, hstep_eq.trans heq⟩
  exact hsame.2.2

/-- Two page tables at 0x2000 and 0x3000, the second with a page at 0x400000. -/
def twoTables : System :=
  let s := (smallSystem.create 0x2000).create 0x3000
  { s with machine := Op.run 0x3000 (.mapPage 0x400000 0x9000 true) s.machine }

/-- The first page table gets a page at the same address. -/
theorem isolation_twoTables :
    translate twoTables.machine 0x3000 0x400123 = some 0x9123 ∧
      translate (Op.run 0x2000 (.mapUserPage 0x400000 false) twoTables.machine) 0x3000 0x400123 =
        some 0x9123 := by
  have hsecond : Step (smallSystem.create 0x2000) .create
      ((smallSystem.create 0x2000).create 0x3000) := step_create (by decide +kernel)
  have hmap : Step ((smallSystem.create 0x2000).create 0x3000)
      (.op 0x3000 (.mapPage 0x400000 0x9000 true)) twoTables := .op (.inr rfl) (by decide)
  have hop : Step twoTables (.op 0x2000 (.mapUserPage 0x400000 false)) _ :=
    .op (.inl (.inr rfl)) (by decide)
  have hbefore : translate twoTables.machine 0x3000 0x400123 = some 0x9123 := by decide +kernel
  have hne : (0x2000 : U64) ≠ 0x3000 := by decide
  have hv : pml4Index 0x400123 ≠ recursiveEntry := by decide
  have hsame := isolation boot_smallSystem
    (((Run.single step_create_smallSystem).snoc hsecond).snoc hmap) (.inr rfl) hne
    (Run.single hop) (fun t ht => List.mem_singleton.mp ht ▸ rfl) hv
  rw [hsame]
  exact ⟨hbefore, hbefore⟩

end BeastOs.Vmm
