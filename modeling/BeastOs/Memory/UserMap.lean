import BeastOs.Memory.UserPages

/-!
# The user half of a page table as a map

Seen from outside, the user half of a page table is a map from 4 KiB pages to their states
(`UserMap`). The map is read off the entries of the last level (`view`): building tables on the way
to a page does not change it, and a store to an entry changes it at one page. So the operations of
the manager are operations on the map (`RefinesUserMap`), in every state of a running system.

Main result: `refinesUserMap`.
-/

namespace BeastOs.Vmm

open Function Lib PageTableEntry Paging

/-! ## The map -/

inductive PageState
  | absent
  | onDemand (flags : U64)
  | present (frame flags : U64)
  deriving DecidableEq, Repr

/-- A page of the user half, by the indices of its walk. -/
@[ext]
structure UserPage where
  pml4 : Fin 256
  pdpt : Fin 512
  pd : Fin 512
  pt : Fin 512
  deriving DecidableEq

abbrev UserMap := UserPage → PageState

/-- Where an address with this offset in the page is in physical memory. -/
def PageState.translate (offset : U64) : PageState → Option U64
  | absent => none
  | onDemand _ => none
  | present frame _ => some (frame + offset)

/-- The page of an address of the user half. -/
def userPage (virt : U64) (hv : pml4Index virt < 256) : UserPage where
  pml4 := ⟨pml4Index virt, hv⟩
  pdpt := ⟨pdptIndex virt, index_lt virt 30⟩
  pd := ⟨pdIndex virt, index_lt virt 21⟩
  pt := ⟨ptIndex virt, index_lt virt 12⟩

/-- The path to the table of a page. -/
def UserPage.directory (page : UserPage) : List Nat := [page.pml4, page.pdpt, page.pd]

def decode (e : U64) : PageState :=
  if isPresent e then .present (physicalAddress e) (flags e)
  else if has e Flags.onDemand then .onDemand (flags e)
  else .absent

/-- The map that the page table `r` stands for. -/
def view (σ : Machine) (r : U64) : UserMap :=
  fun page => decode (entryAt σ r page.directory page.pt)

variable {kernel : Nat → Set U64} {roots : Set U64} {own own' : U64 → Option (U64 × List Nat)}
  {σ σ' : Machine} {r t virt : U64} {p q : List Nat} {i j : Nat} {e : U64}

theorem view_userPage (σ : Machine) (r : U64) (hv : pml4Index virt < 256) :
    view σ r (userPage virt hv) = decode (leafEntry σ r virt) := rfl

theorem decode_onDemand (h : OnDemand e) : decode e = .onDemand (flags e) := by
  unfold decode
  rw [h.1, h.2]
  rfl

theorem decode_eq_onDemand {f : U64} : decode e = .onDemand f ↔ OnDemand e ∧ flags e = f := by
  unfold decode OnDemand
  cases isPresent e <;> cases has e Flags.onDemand <;> simp

theorem decode_eq_absent : decode e = .absent ↔ isPresent e = false ∧ ¬ OnDemand e := by
  unfold decode OnDemand
  cases isPresent e <;> cases has e Flags.onDemand <;> simp

theorem decode_setAddress (phys f : U64) (hf : f &&& Flags.present ≠ 0) :
    decode (setAddress phys f) = .present (phys &&& addressMask) (f &&& ~~~addressMask) := by
  unfold decode
  rw [isPresent_setAddress, decide_eq_true hf, physicalAddress_setAddress, flags_setAddress]
  rfl

theorem innerPath_userPage (page : UserPage) : InnerPath Inner page.directory :=
  innerPath_three page.pml4.isLt _ _

/-- Pages differ in their table or in their entry. -/
theorem userPage_eq_iff (page : UserPage) (hv : pml4Index virt < 256) :
    page = userPage virt hv ↔ page.directory = directory virt ∧ page.pt = ptIndex virt := by
  unfold UserPage.directory directory
  rw [UserPage.ext_iff]
  simp [userPage, Fin.ext_iff, and_assoc]

/-! ## What happens to entries -/

/-- Building tables does not change what is read at the last level. -/
theorem Builds.entryAt_eq (hbuilds : Builds kernel r own σ own' σ') (h : Inv kernel roots own σ)
    (h' : Inv kernel roots own' σ') (hr : r ∈ roots) (hp : InnerPath Inner p)
    (hlen : p.length = 3) (i : Nat) : entryAt σ' r p i = entryAt σ r p i := by
  cases hwalk : walk (child σ.mem) r p with
  | some t =>
    have hown := (h.forest.walk_iff hr hp).mp hwalk
    have hwalk' := (h'.forest.walk_iff hr hp).mpr (hbuilds.own_le t _ hown)
    rw [Vmm.entryAt_eq hwalk, Vmm.entryAt_eq hwalk', hbuilds.leaf t r p hown hlen]
  | none =>
    rw [entryAt_eq_zero hwalk]
    cases hwalk' : walk (child σ'.mem) r p with
    | none => exact entryAt_eq_zero hwalk' i
    | some t =>
      -- a new table, which is empty
      have hown' := (h'.forest.walk_iff hr hp).mp hwalk'
      have hown : own t = none := by
        cases hn : own t with
        | none => rfl
        | some n =>
          have heq := hbuilds.own_le t n hn
          rw [hown'] at heq
          cases heq
          rw [(h.forest.walk_iff hr hp).mpr hn] at hwalk
          cases hwalk
      rw [Vmm.entryAt_eq hwalk', hbuilds.fresh t r p hown hown' hlen]

variable (h : Inv kernel roots own σ)

include h in
/-- A store at the last level changes one entry. -/
theorem Inv.entryAt_write (ht : own t = some (r, q))
    (hq : q.length = 3) (hp : InnerPath Inner p) (j : Nat) (e : U64) :
    entryAt (write σ t j e) r p i = if p = q ∧ i = j then e else entryAt σ r p i := by
  have h' := h.write_leaf ht hq j e
  have hr := (h.forest.valid t r q ht).1
  -- the store is below all walks
  have hwalks : ∀ s,
      walk (child (write σ t j e).mem) r p = some s ↔ walk (child σ.mem) r p = some s :=
    fun s => (h'.forest.walk_iff hr hp).trans (h.forest.walk_iff hr hp).symm
  cases hwalk : walk (child σ.mem) r p with
  | none =>
    have hwalk' : walk (child (write σ t j e).mem) r p = none := by
      refine Option.eq_none_iff_forall_ne_some.mpr fun s hs => ?_
      rw [hwalks s, hwalk] at hs
      cases hs
    have hne : ¬ (p = q ∧ i = j) := by
      rintro ⟨rfl, -⟩
      rw [h.forest.reached t r p ht] at hwalk
      cases hwalk
    rw [entryAt_eq_zero hwalk', entryAt_eq_zero hwalk, if_neg hne]
  | some s =>
    rw [Vmm.entryAt_eq ((hwalks s).mpr hwalk), Vmm.entryAt_eq hwalk]
    have hown := (h.forest.walk_iff hr hp).mp hwalk
    by_cases hpq : p = q
    · have hst : s = t := by
        have hreached := h.forest.reached t r q ht
        rw [← hpq, hwalk] at hreached
        exact Option.some.inj hreached
      subst hst
      by_cases hij : i = j
      · rw [if_pos ⟨hpq, hij⟩, hij, write_self]
      · rw [if_neg fun hc => hij hc.2, write_of_ne σ e fun hc => hij hc.2]
    · rw [if_neg fun hc => hpq hc.1, write_of_ne σ e]
      rintro ⟨rfl, -⟩
      rw [ht] at hown
      cases hown
      exact hpq rfl

/-! ## What happens to the map -/

theorem Builds.view_eq (hbuilds : Builds kernel r own σ own' σ') (h : Inv kernel roots own σ)
    (h' : Inv kernel roots own' σ') (hr : r ∈ roots) : view σ' r = view σ r := by
  funext page
  unfold view
  rw [hbuilds.entryAt_eq h h' hr (innerPath_userPage page) rfl]

include h in
theorem Inv.view_write (ht : own t = some (r, directory virt))
    (hv : pml4Index virt < 256) (e : U64) :
    view (write σ t (ptIndex virt) e) r = update (view σ r) (userPage virt hv) (decode e) := by
  funext page
  unfold view
  rw [h.entryAt_write ht rfl (innerPath_userPage page)]
  by_cases hpage : page = userPage virt hv
  · rw [if_pos ((userPage_eq_iff page hv).mp hpage), hpage, update_self]
  · rw [if_neg fun hc => hpage ((userPage_eq_iff page hv).mpr hc), update_of_ne hpage]

/-- Operations leave all pages but their own as they are. -/
theorem Touches.view_eq (h : Touches kernel roots own σ r virt σ') (hinv : Inv kernel roots own σ)
    (hr : r ∈ roots) (hv : pml4Index virt < 256) {page : UserPage}
    (hpage : page ≠ userPage virt hv) : view σ' r page = view σ r page := by
  obtain ⟨own', σ₁, h₁, hbuilds, rfl | ⟨pt, e, hpt, rfl⟩⟩ := h
  · rw [hbuilds.view_eq hinv h₁ hr]
  · rw [h₁.view_write hpt hv, update_of_ne hpage, hbuilds.view_eq hinv h₁ hr]

/-! ## Translation -/

variable (hr : r ∈ roots)

include h hr in
/-- `translate` reads the entry of the last level: in the user half there are no huge pages. -/
theorem Inv.translate_eq (hv : pml4Index virt < 256) :
    translate σ r virt = (decode (leafEntry σ r virt)).translate (virt &&& 0xFFF) := by
  rw [(h.hierarchy hr).translate_eq hv, leaf_of_not_covered (h.not_covered hr hv)]
  unfold frameOf decode
  cases isPresent (leafEntry σ r virt) with
  | true => rfl
  | false => cases has (leafEntry σ r virt) Flags.onDemand <;> rfl

/-! ## Refinement -/

/-- The operations of the page table `r`, seen as operations on its map. -/
structure RefinesUserMap (σ : Machine) (r : U64) : Prop where
  translate_eq : ∀ virt (hv : pml4Index virt < 256),
    translate σ r virt = (view σ r (userPage virt hv)).translate (virt &&& 0xFFF)
  map_ok : ∀ virt (hv : pml4Index virt < 256) phys f σ',
    mapPageWithFlags r virt phys f σ = .ok () σ' →
      view σ' r = Function.update (view σ r) (userPage virt hv) (decode (setAddress phys f))
  map_present : ∀ virt, pml4Index virt < 256 → ∀ phys f σ', f &&& Flags.present ≠ 0 →
    mapPageWithFlags r virt phys f σ = .ok () σ' → ∀ o < 4096,
      translate σ' r (pageBase virt + BitVec.ofNat 64 o) =
        some ((phys &&& addressMask) + BitVec.ofNat 64 o)
  mapUser_onDemand : ∀ virt (hv : pml4Index virt < 256) σ', mapUserPage r virt true σ = .ok () σ' →
    view σ' r = Function.update (view σ r) (userPage virt hv) (.onDemand onDemandFlags)
  fault_ok_iff : ∀ virt (hv : pml4Index virt < 256),
    (∃ σ', handleFault r virt σ = .ok () σ') ↔
      (∃ f, view σ r (userPage virt hv) = .onDemand f) ∧ σ.pmm.freeSet.Nonempty
  fault_maps : ∀ virt (hv : pml4Index virt < 256) σ', handleFault r virt σ = .ok () σ' →
    ∃ f phys, view σ r (userPage virt hv) = .onDemand f ∧
      σ.pmm.allocPage = (some phys, σ'.pmm) ∧
      view σ' r = Function.update (view σ r) (userPage virt hv)
        (.present phys (((f &&& ~~~Flags.onDemand) ||| Flags.present) &&& ~~~Flags.noExecute))
  unmap_ok_iff : ∀ virt (hv : pml4Index virt < 256),
    (∃ phys σ', unmapPage r virt σ = .ok phys σ') ↔ view σ r (userPage virt hv) ≠ .absent
  unmap_absent : ∀ virt (hv : pml4Index virt < 256) phys σ', unmapPage r virt σ = .ok phys σ' →
    view σ' r = Function.update (view σ r) (userPage virt hv) .absent
  others : ∀ (op : Op) (hop : op.User), ∀ page ≠ userPage op.virt hop,
    view (op.run r σ) r page = view σ r page

include h hr in
theorem mapEntry_view {phys f : U64} (hv : pml4Index virt < 256)
    (hok : mapEntry r virt phys f σ = .ok () σ') : (∃ own', Inv kernel roots own' σ') ∧
      view σ' r = update (view σ r) (userPage virt hv) (decode (setAddress phys f)) := by
  rcases mapEntry_spec h hr hv phys f with
    ⟨σ₁, own₁, herr, -⟩ | ⟨pt, σ₁, own₁, hok', h₁, hpt, hbuilds⟩
  · rw [herr] at hok
    cases hok
  · rw [hok'] at hok
    cases hok
    rw [h₁.view_write hpt hv, hbuilds.view_eq h h₁ hr]
    exact ⟨⟨own₁, h₁.write_leaf hpt rfl _ _⟩, rfl⟩

/-- All addresses of a page have the page. -/
theorem userPage_pageBase_add (hv : pml4Index virt < 256) {o : Nat} (ho : o < 4096) :
    ∃ hv', userPage (pageBase virt + BitVec.ofNat 64 o) hv' = userPage virt hv := by
  have hpml4 : pml4Index (pageBase virt + BitVec.ofNat 64 o) = pml4Index virt :=
    index_pageBase_add virt ho (by decide)
  refine ⟨hpml4 ▸ hv, ?_⟩
  rw [userPage_eq_iff]
  exact ⟨congrArg₂ _ hpml4 (congrArg₂ _ (index_pageBase_add virt ho (by decide))
    (congrArg₂ _ (index_pageBase_add virt ho (by decide)) rfl)),
    index_pageBase_add virt ho (by decide)⟩

include h hr in
theorem map_present_translate {phys f : U64} (hv : pml4Index virt < 256)
    (hf : f &&& Flags.present ≠ 0) (hok : mapEntry r virt phys f σ = .ok () σ') {o : Nat}
    (ho : o < 4096) : translate σ' r (pageBase virt + BitVec.ofNat 64 o) =
      some ((phys &&& addressMask) + BitVec.ofNat 64 o) := by
  obtain ⟨⟨own', h'⟩, hview⟩ := mapEntry_view h hr hv hok
  obtain ⟨hv', hpage⟩ := userPage_pageBase_add hv ho
  rw [h'.translate_eq hr hv', ← view_userPage σ' r hv', hpage, hview, update_self,
    decode_setAddress phys f hf, offset_pageBase_add virt ho]
  rfl

/-- Flags stay flags when a page is faulted in. -/
theorem faultFlags_and (e : U64) :
    faultFlags (flags e) &&& ~~~addressMask = faultFlags (flags e) := by
  have hpresent : Flags.present &&& ~~~addressMask = Flags.present := by decide
  have hold : flags e &&& ~~~Flags.onDemand &&& ~~~addressMask = flags e &&& ~~~Flags.onDemand := by
    rw [BitVec.and_assoc, BitVec.and_comm (~~~Flags.onDemand), ← BitVec.and_assoc, flags_eq,
      BitVec.and_assoc e, BitVec.and_self]
  unfold faultFlags
  rw [BitVec.and_assoc, BitVec.and_comm (~~~Flags.noExecute), ← BitVec.and_assoc,
    BitVec.and_or_distrib_right, hold, hpresent]

theorem faultFlags_present (f : U64) : faultFlags f &&& Flags.present ≠ 0 := by
  have hexec : ~~~Flags.noExecute &&& Flags.present = Flags.present := by decide
  have habsorb : ∀ x p : U64, (x ||| p) &&& p = p := by
    intro x p
    ext i hi
    simp only [BitVec.getElem_and, BitVec.getElem_or]
    cases x[i] <;> cases p[i] <;> rfl
  unfold faultFlags
  rw [BitVec.and_assoc, hexec, habsorb]
  decide

theorem decode_faultFlags {phys : U64} (hphys : phys &&& addressMask = phys) (e : U64) :
    decode (setAddress phys (faultFlags (flags e))) = .present phys (faultFlags (flags e)) := by
  rw [decode_setAddress _ _ (faultFlags_present _), hphys, faultFlags_and]

section

variable (h : Inv kernel roots own σ) (hr : r ∈ roots) (hv : pml4Index virt < 256)
include h hr hv

theorem handleFault_view (hok : handleFault r virt σ = .ok () σ') :
    ∃ f phys, view σ r (userPage virt hv) = .onDemand f ∧
      σ.pmm.allocPage = (some phys, σ'.pmm) ∧
      view σ' r = update (view σ r) (userPage virt hv) (.present phys (faultFlags f)) := by
  rcases handleFault_spec h hr hv with ⟨m, herr, -⟩ | ⟨pt, phys, pmm', hpt, hdemand, halloc, hok'⟩
  · rw [herr] at hok
    cases hok
  · rw [hok'] at hok
    cases hok
    have hzeroed := h.of_unchanged (h.fresh halloc).2.2
    refine ⟨flags (leafEntry σ r virt), phys, decode_onDemand hdemand, halloc, ?_⟩
    rw [hzeroed.view_write hpt hv, (h.builds_fresh halloc r).view_eq h hzeroed hr,
      decode_faultFlags (free_of_allocPage halloc).2.1]

theorem handleFault_ok_iff : (∃ σ', handleFault r virt σ = .ok () σ') ↔
      (∃ f, view σ r (userPage virt hv) = .onDemand f) ∧ σ.pmm.freeSet.Nonempty := by
  rcases handleFault_spec h hr hv with
    ⟨m, herr, hwhy⟩ | ⟨pt, phys, pmm', -, hdemand, halloc, hok⟩
  · rw [herr]
    refine iff_of_false ?_ ?_
    · rintro ⟨σ', hσ'⟩
      cases hσ'
    · rintro ⟨⟨f, hf⟩, hfree⟩
      rcases hwhy with hnot | hempty
      · exact hnot (decode_eq_onDemand.mp hf).1
      · exact hfree.ne_empty hempty
  · obtain ⟨⟨page, hpage, -⟩, -⟩ := free_of_allocPage halloc
    exact iff_of_true ⟨_, hok⟩ ⟨⟨_, decode_onDemand hdemand⟩, page, hpage⟩

theorem unmapPage_ok_iff :
    (∃ phys σ', unmapPage r virt σ = .ok phys σ') ↔ view σ r (userPage virt hv) ≠ .absent := by
  rw [view_userPage, ne_eq, decode_eq_absent]
  rcases unmapPage_spec h hr hv with ⟨m, herr, habsent⟩ | ⟨pt, -, hthere, hok⟩
  · rw [herr]
    refine iff_of_false ?_ (fun hnot => hnot habsent)
    rintro ⟨phys, σ', hσ'⟩
    cases hσ'
  · refine iff_of_true ⟨_, _, hok⟩ ?_
    rintro ⟨hpresent, hdemand⟩
    rcases hthere with hthere | hthere
    · rw [hpresent] at hthere
      cases hthere
    · exact hdemand hthere

theorem unmapPage_view {phys : U64} (hok : unmapPage r virt σ = .ok phys σ') :
    view σ' r = update (view σ r) (userPage virt hv) .absent := by
  rcases unmapPage_spec h hr hv with ⟨m, herr, -⟩ | ⟨pt, hpt, -, hok'⟩
  · rw [herr] at hok
    cases hok
  · rw [hok'] at hok
    cases hok
    exact h.view_write hpt hv (setAddress 0 0)

end

/-- **Refinement.** In every state of a running system, the user half of every page table that
`create_user_page_table` has returned is a map from pages to their states. -/
theorem refinesUserMap {s₀ s : System} {τ : List (Transition System Event)} (hboot : Boot s₀)
    (hrun : Run Step s₀ τ s) (hr : r ∈ s.roots) : RefinesUserMap s.machine r := by
  obtain ⟨own, h⟩ := owned_of_run hboot hrun
  constructor
  · exact fun virt hv => h.translate_eq hr hv
  · exact fun virt hv phys f σ' hok => (mapEntry_view h hr hv hok).2
  · exact fun virt hv phys f σ' hf hok o ho => map_present_translate h hr hv hf hok ho
  · exact fun virt hv σ' hok => (mapEntry_view h hr hv hok).2
  · exact fun virt hv => handleFault_ok_iff h hr hv
  · exact fun virt hv σ' hok => handleFault_view h hr hv hok
  · exact fun virt hv => unmapPage_ok_iff h hr hv
  · exact fun virt hv phys σ' hok => unmapPage_view h hr hv hok
  · exact fun op hop page hpage => (Op.touches h hr hop).view_eq h hr hop hpage

/-- A page table with an on-demand page at 0x400000. -/
def onDemandTable : System :=
  { smallSystem.create 0x2000 with
    machine := Op.run 0x2000 (.mapUserPage 0x400000 true) (smallSystem.create 0x2000).machine }

/-- The page can be faulted in and unmapped. -/
theorem refinesUserMap_onDemandTable : RefinesUserMap onDemandTable.machine 0x2000 ∧
    view onDemandTable.machine 0x2000 (userPage 0x400000 (by decide)) =
      .onDemand onDemandFlags := by
  have hmap : Step (smallSystem.create 0x2000) (.op 0x2000 (.mapUserPage 0x400000 true))
      onDemandTable := .op (.inr rfl) (by decide)
  have hrun := (Run.single step_create_smallSystem).snoc hmap
  exact ⟨refinesUserMap boot_smallSystem hrun (.inr rfl), by decide +kernel⟩

end BeastOs.Vmm
