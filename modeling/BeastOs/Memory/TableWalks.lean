import BeastOs.Memory.PageTables

/-!
# Walks to the page tables

What `get_or_create_table` does to the forest of tables is said once (`getOrCreateTable_spec`): it
builds at most one table and changes no entry of the last level (`Builds`). The operations at a user
address follow from that, each with the outcomes it can have.
-/

namespace BeastOs.Vmm

open Function Lib PageTableEntry Paging

variable {kernel : Nat → Set U64} {roots : Set U64} {own own' own'' : U64 → Option (U64 × List Nat)}
  {σ σ' σ'' : Machine} {r t u virt : U64} {p : List Nat} {i : Nat} {e : U64}

/-! ## Building the way to a page -/

/-- A step on behalf of the root `r`: tables of other roots and of the kernel are left alone. -/
structure Keeps (kernel : Nat → Set U64) (r : U64) (own : U64 → Option (U64 × List Nat))
    (σ : Machine) (own' : U64 → Option (U64 × List Nat)) (σ' : Machine) : Prop where
  own_le : ∀ t n, own t = some n → own' t = some n
  others : ∀ t r' p, own t = some (r', p) → r' ≠ r → σ'.mem t = σ.mem t
  kernel : ∀ l, ∀ t ∈ kernel l, σ'.mem t = σ.mem t

/-- Besides, no page is mapped or unmapped: tables of the last level are kept, and new ones are
empty. -/
structure Builds (kernel : Nat → Set U64) (r : U64) (own : U64 → Option (U64 × List Nat))
    (σ : Machine) (own' : U64 → Option (U64 × List Nat)) (σ' : Machine) : Prop
    extends Keeps kernel r own σ own' σ' where
  leaf : ∀ t r' p, own t = some (r', p) → p.length = 3 → σ'.mem t = σ.mem t
  fresh : ∀ t r' p, own t = none → own' t = some (r', p) → p.length = 3 → σ'.mem t = fun _ => 0

theorem Keeps.refl (r : U64) (own : U64 → Option (U64 × List Nat)) (σ : Machine) :
    Keeps kernel r own σ own σ :=
  ⟨fun _ _ h => h, fun _ _ _ _ _ => rfl, fun _ _ _ => rfl⟩

theorem Keeps.trans (h : Keeps kernel r own σ own' σ') (h' : Keeps kernel r own' σ' own'' σ'') :
    Keeps kernel r own σ own'' σ'' where
  own_le := fun t n ht => h'.own_le t n (h.own_le t n ht)
  others := fun t r' p ht hr =>
    (h'.others t r' p (h.own_le t _ ht) hr).trans (h.others t r' p ht hr)
  kernel := fun l t ht => (h'.kernel l t ht).trans (h.kernel l t ht)

/-- Without new tables there are no new tables to be empty. -/
theorem Keeps.builds (h : Keeps kernel r own σ own σ')
    (hleaf : ∀ t r' p, own t = some (r', p) → p.length = 3 → σ'.mem t = σ.mem t) :
    Builds kernel r own σ own σ' where
  toKeeps := h
  leaf := hleaf
  fresh := by
    intro t r' p hnone hsome
    rw [hnone] at hsome
    cases hsome

theorem Builds.refl (r : U64) (own : U64 → Option (U64 × List Nat)) (σ : Machine) :
    Builds kernel r own σ own σ :=
  (Keeps.refl r own σ).builds fun _ _ _ _ _ => rfl

theorem Builds.trans (h : Builds kernel r own σ own' σ')
    (h' : Builds kernel r own' σ' own'' σ'') : Builds kernel r own σ own'' σ'' where
  toKeeps := h.toKeeps.trans h'.toKeeps
  leaf := fun t r' p ht hp => (h'.leaf t r' p (h.own_le t _ ht) hp).trans (h.leaf t r' p ht hp)
  fresh := by
    intro t r' p hnone hsome hp
    cases hown' : own' t with
    | none => exact h'.fresh t r' p hown' hsome hp
    | some n =>
      have heq := h'.own_le t n hown'
      rw [hsome] at heq
      cases heq
      exact (h'.leaf t r' p hown' hp).trans (h.fresh t r' p hnone hown' hp)

/-- An empty table may be given an owner. -/
theorem Builds.own_update {n : U64 × List Nat} (h : Builds kernel r own σ own σ')
    (hown : own u = none) (hzero : σ'.mem u = fun _ => 0) :
    Builds kernel r own σ (update own u (some n)) σ' where
  own_le := by
    intro s m hs
    rw [update_of_ne (Forest.ne_of_own hs hown)]
    exact hs
  others := h.others
  kernel := h.kernel
  leaf := h.leaf
  fresh := by
    intro s r' q hnone hsome _
    by_cases hsu : s = u
    · rw [hsu]
      exact hzero
    · rw [update_of_ne hsu, hnone] at hsome
      cases hsome

variable (h : Inv kernel roots own σ) (ht : own t = some (r, p))

include h ht in
/-- A store to a table of the root `r`. -/
theorem Inv.keeps_write (i : Nat) (e : U64) : Keeps kernel r own σ own (write σ t i e) := by
  refine ⟨fun _ _ h => h, ?_, fun l s hs => write_table_of_ne σ i e (h.ne_kernel ht hs)⟩
  intro s r' q hs hr
  refine write_table_of_ne σ i e ?_
  rintro rfl
  rw [ht] at hs
  cases hs
  exact hr rfl

include h ht in
/-- A store above the last level. -/
theorem Inv.builds_write
    (hp : p.length < 3) (i : Nat) (e : U64) : Builds kernel r own σ own (write σ t i e) := by
  refine (h.keeps_write ht i e).builds fun s r' q hs hq => write_table_of_ne σ i e ?_
  rintro rfl
  rw [ht] at hs
  cases hs
  omega

include h in
/-- Zeroing a page that was no table. -/
theorem Inv.builds_fresh {pmm' : Pmm} (halloc : σ.pmm.allocPage = (some u, pmm')) (r : U64) :
    Builds kernel r own σ own (takeZeroed σ pmm' u) := by
  obtain ⟨hown, hkernel, -⟩ := h.fresh halloc
  have hmem : ∀ s n, own s = some n → (takeZeroed σ pmm' u).mem s = σ.mem s :=
    fun s n hs => takeZeroed_of_ne pmm' (Forest.ne_of_own hs hown)
  have hkeeps : Keeps kernel r own σ own (takeZeroed σ pmm' u) := by
    refine ⟨fun _ _ h => h, fun s _ _ hs _ => hmem s _ hs, fun l s hs => ?_⟩
    refine takeZeroed_of_ne pmm' ?_
    rintro rfl
    exact hkernel l hs
  exact hkeeps.builds fun s _ _ hs _ => hmem s _ hs

/-! ### Entries on the way -/

theorem and_zero_word (x : U64) : x &&& 0 = 0 := BitVec.and_zero

theorem or_zero_word (x : U64) : x ||| 0 = x := BitVec.or_zero

theorem or_and_ne_zero (x y b : U64) : (x ||| y) &&& b ≠ 0 ↔ x &&& b ≠ 0 ∨ y &&& b ≠ 0 := by
  have hor : ∀ x y : U64, x ||| y = 0 ↔ x = 0 ∧ y = 0 := fun _ _ => BitVec.or_eq_zero_iff
  rw [BitVec.and_or_distrib_right, ne_eq, hor, not_and_or]

theorem isPresent_intermediate (u f : U64) :
    isPresent (setAddress u (intermediateFlags f)) = true := by
  rw [isPresent_setAddress, decide_eq_true_iff]
  unfold intermediateFlags
  rw [or_and_ne_zero]
  exact .inl (by decide)

theorem intermediateFlags_and {f b : U64} (hb : Flags.user &&& b = 0) :
    intermediateFlags f &&& b = (Flags.present ||| Flags.writable) &&& b := by
  unfold intermediateFlags
  rw [BitVec.and_or_distrib_right, BitVec.and_assoc, hb, and_zero_word, or_zero_word]

theorem has_hugePage_intermediate (u f : U64) :
    has (setAddress u (intermediateFlags f)) Flags.hugePage = false := by
  rw [has_setAddress _ _ (by decide), intermediateFlags_and (by decide)]
  decide

/-- An entry with the rights that a new page below it needs. -/
def widen (e f : U64) : U64 := setAddress (physicalAddress e) (flags e ||| neededFlags f)

/-- Only the flags `USER` and `WRITABLE` are added. -/
theorem widen_and (e f : U64) {b : U64} (hb : ~~~addressMask &&& b = b)
    (hb' : (Flags.user ||| Flags.writable) &&& b = 0) :
    (flags e ||| neededFlags f) &&& b = e &&& b := by
  unfold neededFlags
  rw [BitVec.and_or_distrib_right, flags_and e hb, BitVec.and_assoc, hb', and_zero_word,
    or_zero_word]

theorem physicalAddress_widen (e f : U64) : physicalAddress (widen e f) = physicalAddress e := by
  unfold widen
  rw [physicalAddress_setAddress]
  unfold physicalAddress
  rw [BitVec.and_assoc, BitVec.and_self]

theorem isPresent_widen (e f : U64) : isPresent (widen e f) = isPresent e := by
  unfold widen
  rw [isPresent_setAddress, widen_and _ _ (by decide) (by decide)]
  rfl

theorem has_hugePage_widen (e f : U64) : has (widen e f) Flags.hugePage = has e Flags.hugePage := by
  unfold widen
  rw [has_setAddress _ _ (by decide), widen_and _ _ (by decide) (by decide)]
  unfold has
  rw [flags_and _ (by decide)]

include h ht in
/-- **`get_or_create_table`.** For an entry of the user half it either runs out of pages and changes
nothing, or it returns the table of the entry, having built it if need be. -/
theorem getOrCreateTable_spec (hi : Inner p i) (f : U64) (level : Nat) :
    (getOrCreateTable t i f level σ = .error "OOM" σ ∧ σ.pmm.freeSet = ∅) ∨
      ∃ u σ' own', getOrCreateTable t i f level σ = .ok u σ' ∧ Inv kernel roots own' σ' ∧
        own' u = some (r, p ++ [i]) ∧ Builds kernel r own σ own' σ' := by
  unfold getOrCreateTable
  rw [bind_of_ok (readEntry_eq t i σ)]
  by_cases hpresent : isPresent (σ.mem t i) = true
  · rw [if_pos hpresent, h.not_huge t r p i ht hi hpresent, if_neg Bool.false_ne_true]
    right
    have hchild : child σ.mem t i = some (physicalAddress (σ.mem t i)) :=
      child_eq_some.mpr ⟨hpresent, rfl⟩
    have hown := h.forest.owned t r p i _ ht hi hchild
    split
    · -- the entry is there, but lacks rights
      have hchild' : child (write σ t i (widen (σ.mem t i) f)).mem t i = child σ.mem t i := by
        rw [hchild, child_eq_some, write_self, isPresent_widen]
        exact ⟨hpresent, physicalAddress_widen _ _⟩
      refine ⟨physicalAddress (σ.mem t i), write σ t i (widen (σ.mem t i) f), own, ?_,
        h.write_flags ht hi hchild' (has_hugePage_widen _ _), hown, h.builds_write ht hi.1 i _⟩
      rw [bind_of_ok (writeEntry_eq t i _ σ)]
      show EStateM.Result.ok (physicalAddress ((write σ t i (widen (σ.mem t i) f)).mem t i)) _ = _
      rw [write_self, physicalAddress_widen]
      rfl
    · exact ⟨_, σ, own, rfl, h, hown, .refl r own σ⟩
  · -- a new table
    rw [if_neg hpresent]
    have hnone : child σ.mem t i = none := child_eq_none.mpr (Bool.eq_false_iff.mpr hpresent)
    rcases allocPage_cases "OOM" σ with ⟨hempty, hoom⟩ | ⟨u, pmm', halloc, hok⟩
    · exact .inl ⟨bind_of_error hoom, hempty⟩
    · right
      obtain ⟨-, hu, hfree⟩ := free_of_allocPage halloc
      obtain ⟨hown, hkernel, hsame⟩ := h.fresh halloc
      have hchild : child (write (takeZeroed σ pmm' u) t i
          (setAddress u (intermediateFlags f))).mem t i = some u := by
        rw [child_eq_some, write_self, physicalAddress_setAddress]
        exact ⟨isPresent_intermediate u f, hu⟩
      have hzeroed := h.of_unchanged hsame
      have hnone' : child (takeZeroed σ pmm' u).mem t i = none := by
        rw [(hsame.inner t r p i ht hi).1]
        exact hnone
      have hinv := hzeroed.graft ht hi hnone' hown hkernel (fun hu => (hfree u hu).2 rfl)
        (update_self _ _ _) hchild (has_hugePage_intermediate u f)
      refine ⟨u, _, _, ?_, hinv, update_self _ _ _, ?_⟩
      · rw [bind_of_ok hok]
        rfl
      · have hbuilds := (h.builds_fresh halloc r).trans (hzeroed.builds_write ht hi.1 i
          (setAddress u (intermediateFlags f)))
        refine hbuilds.own_update hown ?_
        rw [write_table_of_ne _ _ _ (Forest.ne_of_own ht hown).symm]
        exact update_self _ _ _

/-! ## Walks to the last level -/

/-- The path from the PML4 to the page table of an address. -/
def directory (virt : U64) : List Nat := [pml4Index virt, pdptIndex virt, pdIndex virt]

/-- Paths of the user half to tables of the last level. -/
theorem innerPath_three {a : Nat} (ha : a < 256) (b c : Nat) : InnerPath Inner [a, b, c] := by
  have h₁ : InnerPath Inner ([] ++ [a]) := .snoc .nil ⟨by decide, fun _ => ha⟩
  have h₂ := h₁.snoc (i := b) ⟨by simp, nofun⟩
  exact h₂.snoc (i := c) ⟨by simp, nofun⟩

theorem follow_eq (t : U64) (i : Nat) (m : String) (σ : Machine) :
    (child σ.mem t i = none ∧ follow t i m σ = .error m σ) ∨
      ∃ u, child σ.mem t i = some u ∧ follow t i m σ = .ok u σ := by
  unfold follow
  rw [bind_of_ok (readEntry_eq t i σ)]
  by_cases hpresent : isPresent (σ.mem t i) = true
  · rw [if_pos hpresent]
    exact .inr ⟨_, child_eq_some.mpr ⟨hpresent, rfl⟩, rfl⟩
  · rw [if_neg hpresent]
    exact .inl ⟨child_eq_none.mpr (Bool.eq_false_iff.mpr hpresent), rfl⟩

/-- The walk of `handle_fault` and `unmap_page`, which changes nothing. -/
theorem findTable_eq (r virt : U64) (a b c : String) (σ : Machine) :
    (walk (child σ.mem) r (directory virt) = none ∧ ∃ m, findTable r virt a b c σ = .error m σ) ∨
      ∃ pt, walk (child σ.mem) r (directory virt) = some pt ∧
        findTable r virt a b c σ = .ok pt σ := by
  unfold findTable directory
  rcases follow_eq r (pml4Index virt) a σ with ⟨hnone, herr⟩ | ⟨pdpt, hpdpt, hok⟩
  · exact .inl ⟨by simp [walk, hnone], a, bind_of_error herr⟩
  rw [bind_of_ok hok]
  rcases follow_eq pdpt (pdptIndex virt) b σ with ⟨hnone, herr⟩ | ⟨pd, hpd, hok⟩
  · exact .inl ⟨by simp [walk, hpdpt, hnone], b, bind_of_error herr⟩
  rw [bind_of_ok hok]
  rcases follow_eq pd (pdIndex virt) c σ with ⟨hnone, herr⟩ | ⟨pt, hpt, hok⟩
  · exact .inl ⟨by simp [walk, hpdpt, hpd, hnone], c, herr⟩
  · exact .inr ⟨pt, by simp [walk, hpdpt, hpd, hpt], hok⟩

variable (hr : r ∈ roots) (hv : pml4Index virt < 256)

include h hr hv in
/-- The walk of the mapping operations: it runs out of pages on the way, or builds the way to the
page table and stores the entry. -/
theorem mapEntry_spec
    (phys f : U64) : (∃ σ' own', mapEntry r virt phys f σ = .error "OOM" σ' ∧ σ'.pmm.freeSet = ∅ ∧
      Inv kernel roots own' σ' ∧ Builds kernel r own σ own' σ') ∨
    ∃ pt σ' own',
      mapEntry r virt phys f σ = .ok () (write σ' pt (ptIndex virt) (setAddress phys f)) ∧
      Inv kernel roots own' σ' ∧ own' pt = some (r, directory virt) ∧
      Builds kernel r own σ own' σ' := by
  unfold mapEntry
  rcases getOrCreateTable_spec h (h.forest.root r hr) (i := pml4Index virt)
      ⟨by decide, fun _ => hv⟩ f 1 with
    ⟨herr, hempty⟩ | ⟨pdpt, σ₁, own₁, hok₁, h₁, hpdpt, hbuilds₁⟩
  · exact .inl ⟨σ, own, bind_of_error herr, hempty, h, .refl r own σ⟩
  rw [bind_of_ok hok₁]
  rcases getOrCreateTable_spec h₁ hpdpt (i := pdptIndex virt)
      ⟨by simp, nofun⟩ f 2 with
    ⟨herr, hempty⟩ | ⟨pd, σ₂, own₂, hok₂, h₂, hpd, hbuilds₂⟩
  · exact .inl ⟨σ₁, own₁, bind_of_error herr, hempty, h₁, hbuilds₁⟩
  rw [bind_of_ok hok₂]
  rcases getOrCreateTable_spec h₂ hpd (i := pdIndex virt)
      ⟨by simp, nofun⟩ f 3 with
    ⟨herr, hempty⟩ | ⟨pt, σ₃, own₃, hok₃, h₃, hpt, hbuilds₃⟩
  · exact .inl ⟨σ₂, own₂, bind_of_error herr, hempty, h₂, hbuilds₁.trans hbuilds₂⟩
  rw [bind_of_ok hok₃]
  exact .inr ⟨pt, σ₃, own₃, rfl, h₃, hpt, (hbuilds₁.trans hbuilds₂).trans hbuilds₃⟩

include h ht in
/-- A store to an entry of the last level, which belongs to no tree. -/
theorem Inv.write_leaf
    (hp : p.length = 3) (i : Nat) (e : U64) : Inv kernel roots own (write σ t i e) := by
  refine h.write_outer ht (fun hinner => ?_) (fun hnil => ?_) e
  · exact absurd hinner.1 (by omega)
  · rw [hnil] at hp
    cases hp

/-! ## Faults, unmapping and frames for user pages -/

/-- An entry of the table at the end of a path; zero when there is no such table. -/
def entryAt (σ : Machine) (r : U64) (path : List Nat) (index : Nat) : U64 :=
  match walk (child σ.mem) r path with
  | some t => σ.mem t index
  | none => 0

/-- The entry of the last level for an address. -/
def leafEntry (σ : Machine) (r virt : U64) : U64 := entryAt σ r (directory virt) (ptIndex virt)

/-- The entry waits for the first use of its page. -/
def OnDemand (e : U64) : Prop := isPresent e = false ∧ has e Flags.onDemand = true

instance (e : U64) : Decidable (OnDemand e) := inferInstanceAs (Decidable (_ ∧ _))

theorem not_onDemand_zero : ¬ OnDemand 0 := by decide

theorem entryAt_eq (h : walk (child σ.mem) r p = some t) (i : Nat) :
    entryAt σ r p i = σ.mem t i := by
  unfold entryAt
  rw [h]

theorem entryAt_eq_zero (h : walk (child σ.mem) r p = none) (i : Nat) : entryAt σ r p i = 0 := by
  unfold entryAt
  rw [h]

theorem leafEntry_eq {pt : U64} (h : walk (child σ.mem) r (directory virt) = some pt) :
    leafEntry σ r virt = σ.mem pt (ptIndex virt) :=
  entryAt_eq h _

theorem leafEntry_eq_zero (h : walk (child σ.mem) r (directory virt) = none) :
    leafEntry σ r virt = 0 :=
  entryAt_eq_zero h _

/-- `handle_fault` in any memory. It takes what is at the end of its walk for a page table. -/
theorem handleFault_eq (r virt : U64) (σ : Machine) : (∃ m, handleFault r virt σ = .error m σ ∧
      (¬ OnDemand (leafEntry σ r virt) ∨ σ.pmm.freeSet = ∅)) ∨
    ∃ pt phys pmm', walk (child σ.mem) r (directory virt) = some pt ∧
      OnDemand (leafEntry σ r virt) ∧ σ.pmm.allocPage = (some phys, pmm') ∧
      handleFault r virt σ = .ok () (write (takeZeroed σ pmm' phys) pt (ptIndex virt)
        (setAddress phys
          (faultFlags (flags ((takeZeroed σ pmm' phys).mem pt (ptIndex virt)))))) := by
  unfold handleFault
  rcases findTable_eq r virt "PML4 entry not present" "PDPT entry not present"
      "PD entry not present" σ with ⟨hnone, m, herr⟩ | ⟨pt, hpt, hok⟩
  · refine .inl ⟨m, bind_of_error herr, Or.inl ?_⟩
    rw [leafEntry_eq_zero hnone]
    exact not_onDemand_zero
  rw [bind_of_ok hok, bind_of_ok (readEntry_eq pt (ptIndex virt) σ), leafEntry_eq hpt]
  by_cases hdemand : OnDemand (σ.mem pt (ptIndex virt))
  · rw [if_pos (by simp [hdemand.1, hdemand.2])]
    rcases allocPage_cases "OOM: cannot allocate physical page for fault" σ with
      ⟨hempty, hoom⟩ | ⟨phys, pmm', halloc, hok'⟩
    · exact .inl ⟨_, bind_of_error hoom, Or.inr hempty⟩
    · refine .inr ⟨pt, phys, pmm', hpt, hdemand, halloc, ?_⟩
      have hzero : zeroPage phys { σ with pmm := pmm' } = .ok () (takeZeroed σ pmm' phys) := rfl
      rw [bind_of_ok hok', bind_of_ok hzero, bind_of_ok (readEntry_eq _ _ _)]
      rfl
  · refine .inl ⟨"Not an on-demand page", ?_, Or.inl hdemand⟩
    have hcond : ¬ (!isPresent (σ.mem pt (ptIndex virt)) &&
        has (σ.mem pt (ptIndex virt)) Flags.onDemand) = true := by
      rw [Bool.and_eq_true, Bool.not_eq_true']
      exact hdemand
    rw [if_neg hcond]
    rfl

/-- `unmap_page` in any memory. -/
theorem unmapPage_eq (r virt : U64) (σ : Machine) :
    (∃ m, unmapPage r virt σ = .error m σ ∧ isPresent (leafEntry σ r virt) = false ∧
      ¬ OnDemand (leafEntry σ r virt)) ∨
    ∃ pt, walk (child σ.mem) r (directory virt) = some pt ∧
      (isPresent (leafEntry σ r virt) = true ∨ OnDemand (leafEntry σ r virt)) ∧
      unmapPage r virt σ = .ok (physicalAddress (leafEntry σ r virt))
        (write σ pt (ptIndex virt) (setAddress 0 0)) := by
  unfold unmapPage
  rcases findTable_eq r virt "PML4 not present" "PDPT not present" "PD not present" σ with
    ⟨hnone, m, herr⟩ | ⟨pt, hpt, hok⟩
  · refine .inl ⟨m, bind_of_error herr, ?_⟩
    rw [leafEntry_eq_zero hnone]
    exact ⟨isPresent_zero, not_onDemand_zero⟩
  rw [bind_of_ok hok, bind_of_ok (readEntry_eq pt (ptIndex virt) σ), leafEntry_eq hpt]
  unfold OnDemand
  cases hpresent : isPresent (σ.mem pt (ptIndex virt)) with
  | true => exact .inr ⟨pt, hpt, Or.inl rfl, rfl⟩
  | false =>
    cases hdemand : has (σ.mem pt (ptIndex virt)) Flags.onDemand with
    | true => exact .inr ⟨pt, hpt, Or.inr ⟨rfl, rfl⟩, rfl⟩
    | false => exact .inl ⟨"PT not present", rfl, rfl, fun hd => by cases hd.2⟩

include h hr hv in
/-- **`handle_fault`.** It fails without a change when the page is not on demand or no frame is
left, and otherwise gives the page a zeroed frame. -/
theorem handleFault_spec :
    (∃ m, handleFault r virt σ = .error m σ ∧
      (¬ OnDemand (leafEntry σ r virt) ∨ σ.pmm.freeSet = ∅)) ∨
    ∃ pt phys pmm', own pt = some (r, directory virt) ∧ OnDemand (leafEntry σ r virt) ∧
      σ.pmm.allocPage = (some phys, pmm') ∧
      handleFault r virt σ = .ok () (write (takeZeroed σ pmm' phys) pt (ptIndex virt)
        (setAddress phys (faultFlags (flags (leafEntry σ r virt))))) := by
  rcases handleFault_eq r virt σ with herr | ⟨pt, phys, pmm', hpt, hdemand, halloc, hok⟩
  · exact .inl herr
  · have hown := (h.forest.walk_iff hr (innerPath_three hv _ _)).mp hpt
    -- the frame is no table, so the entry is still what it was
    have hentry : (takeZeroed σ pmm' phys).mem pt = σ.mem pt :=
      takeZeroed_of_ne pmm' (Forest.ne_of_own hown (h.fresh halloc).1)
    rw [hentry, ← leafEntry_eq hpt] at hok
    exact .inr ⟨pt, phys, pmm', hown, hdemand, halloc, hok⟩

include h hr hv in
/-- **`unmap_page`.** It fails without a change when the page is neither present nor on demand, and
otherwise clears its entry. -/
theorem unmapPage_spec :
    (∃ m, unmapPage r virt σ = .error m σ ∧ isPresent (leafEntry σ r virt) = false ∧
      ¬ OnDemand (leafEntry σ r virt)) ∨
    ∃ pt, own pt = some (r, directory virt) ∧
      (isPresent (leafEntry σ r virt) = true ∨ OnDemand (leafEntry σ r virt)) ∧
      unmapPage r virt σ = .ok (physicalAddress (leafEntry σ r virt))
        (write σ pt (ptIndex virt) (setAddress 0 0)) := by
  rcases unmapPage_eq r virt σ with herr | ⟨pt, hpt, hentry, hok⟩
  · exact .inl herr
  · exact .inr ⟨pt, (h.forest.walk_iff hr (innerPath_three hv _ _)).mp hpt, hentry, hok⟩

include h in
/-- Taking a page for data. -/
theorem Inv.take {pmm' : Pmm} (halloc : σ.pmm.allocPage = (some u, pmm')) (r : U64) :
    Inv kernel roots own { σ with pmm := pmm' } ∧
      Builds kernel r own σ own { σ with pmm := pmm' } := by
  obtain ⟨-, -, hfree⟩ := free_of_allocPage halloc
  have hkeeps : Keeps kernel r own σ own { σ with pmm := pmm' } :=
    ⟨fun _ _ h => h, fun _ _ _ _ _ => rfl, fun _ _ _ => rfl⟩
  refine ⟨h.of_unchanged ⟨?_, ?_, fun _ _ _ => rfl, rfl, fun t ht => (hfree t ht).1⟩,
    hkeeps.builds fun _ _ _ _ _ => rfl⟩
  · exact fun _ _ _ _ _ _ => ⟨rfl, rfl⟩
  · exact fun _ _ _ _ => rfl

end BeastOs.Vmm
