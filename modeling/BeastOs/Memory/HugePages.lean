import BeastOs.Memory.Way

/-!
# Mapping a page where there are huge pages

`split_1gib_page` and `split_2mib_page` zero the page of their new table through a pointer to a
table, and with the count 4096: this writes 4096 tables, or 16 MiB, from the new page on. So a call
that splits a huge page does what it is meant to do (`Way`), and besides clears whatever follows the
new tables in memory (`mapEntry_eq`).

Mapping a page then leaves the rest of memory and all other pages alone exactly if there was nothing
to clear: the memory behind the new tables was zero, or was in tables on the walk, at entries that
no other page was using.
-/

namespace BeastOs.Vmm

open Function Lib List PageTableEntry Paging

/-! ## What is cleared -/

/-- A word that the splits clear: it lies in the 4096 pages from a new table on, is not in a new
table, and is not the entry of the huge page, which is written afterwards. -/
def Clobbered (S : List Split) (s : U64) (j : Nat) : Prop :=
  (∃ x ∈ S, InTables x.new 4096 s ∧ ¬ (s = x.parent ∧ j = x.index)) ∧ ∀ x ∈ S, s ≠ x.new

instance (S : List Split) (s : U64) (j : Nat) : Decidable (Clobbered S s j) :=
  inferInstanceAs (Decidable (_ ∧ _))

def wipe (S : List Split) (σ : Machine) : Machine :=
  { σ with mem := fun s j => if Clobbered S s j then 0 else σ.mem s j }

/-- The splits of a huge page and of its part on the path, as long as there are free pages. -/
def newSplits : Pmm → U64 → List Nat → List Split
  | _, _, [] => []
  | pmm, t, i :: p =>
    pmm.allocPage.1.elim [] fun u => ⟨u, t, i⟩ :: newSplits pmm.allocPage.2 u p

/-- The splits on the way along a path. -/
def splitsFrom (mem : U64 → Nat → U64) (pmm : Pmm) : U64 → List Nat → List Split
  | _, [] => []
  | t, i :: p =>
    match table mem t i with
    | some u => splitsFrom mem pmm u p
    | none => if isPresent (mem t i) then newSplits pmm t (i :: p) else []

/-- The splits of a call that maps the page of an address. -/
def splits (σ : Machine) (r virt : U64) : List Split :=
  splitsFrom σ.mem σ.pmm r (directory virt)

variable {slots : Nat → Prop} {own own' : U64 → Option (U64 × List Nat)} {σ σ' σ'' : Machine}
  {r t u virt f e b s v : U64} {p q is : List Nat} {i j : Nat} {es : List U64} {S : List Split}
  {ph : Phase} {pmm' pmm : Pmm} {n : U64 × List Nat}

theorem newSplits_none (h : pmm.allocPage = (none, pmm')) (t : U64) (i : Nat)
    (p : List Nat) : newSplits pmm t (i :: p) = [] := by
  rw [newSplits, h]
  rfl

theorem newSplits_some (h : pmm.allocPage = (some u, pmm')) (t : U64) (i : Nat)
    (p : List Nat) : newSplits pmm t (i :: p) = ⟨u, t, i⟩ :: newSplits pmm' u p := by
  rw [newSplits, h]
  rfl

theorem wipe_nil (σ : Machine) : wipe [] σ = σ := by
  have hnot : ∀ s j, ¬ Clobbered [] s j := by
    rintro s j ⟨⟨x, hx, -⟩, -⟩
    cases hx
  unfold wipe
  simp only [hnot, if_false]

theorem wipe_of_not (h : ¬ Clobbered S s j) : (wipe S σ).mem s j = σ.mem s j :=
  if_neg h

theorem wipe_of_clobbered (h : Clobbered S s j) : (wipe S σ).mem s j = 0 :=
  if_pos h

theorem not_clobbered_new {x : Split} (hx : x ∈ S) (j : Nat) : ¬ Clobbered S x.new j :=
  fun h => h.2 x hx rfl

theorem clobbered_singleton :
    Clobbered [⟨u, t, i⟩] s j ↔ s ≠ u ∧ InTables u 4096 s ∧ ¬ (s = t ∧ j = i) := by
  unfold Clobbered
  simp only [mem_singleton, exists_eq_left, forall_eq]
  exact and_comm

/-- One more split, of a page that a new table maps. -/
theorem clobbered_snoc {x₀ : Split} (hx₀ : x₀ ∈ S) :
    Clobbered (S ++ [⟨u, x₀.new, i⟩]) s j ↔ s ≠ u ∧ (∀ x ∈ S, s ≠ x.new) ∧
      ((∃ x ∈ S, InTables x.new 4096 s ∧ ¬ (s = x.parent ∧ j = x.index)) ∨ InTables u 4096 s) := by
  constructor
  · rintro ⟨⟨x, hx, hin⟩, hnew⟩
    refine ⟨hnew _ (mem_append_right _ (mem_singleton_self _)),
      fun y hy => hnew y (mem_append_left _ hy), ?_⟩
    rcases mem_append.mp hx with hx | hx
    · exact .inl ⟨x, hx, hin⟩
    · rw [mem_singleton.mp hx] at hin
      exact .inr hin.1
  · rintro ⟨hsu, hnew, hin⟩
    constructor
    · rcases hin with ⟨x, hx, hin⟩ | hin
      · exact ⟨x, mem_append_left _ hx, hin⟩
      · exact ⟨_, mem_append_right _ (mem_singleton_self _), hin,
          fun hc => hnew x₀ hx₀ hc.1⟩
    · intro x hx
      rcases mem_append.mp hx with hx | hx
      · exact hnew x hx
      · rw [mem_singleton.mp hx]
        exact hsu

/-- Away from the new table and the pages after it, one more split clears nothing more. -/
theorem clobbered_snoc_of_not {x₀ : Split} (hx₀ : x₀ ∈ S) (hsu : s ≠ u)
    (hin : ¬ InTables u 4096 s) : Clobbered (S ++ [⟨u, x₀.new, i⟩]) s j ↔ Clobbered S s j := by
  rw [clobbered_snoc hx₀]
  constructor
  · rintro ⟨-, hnew, hold | hc⟩
    · exact ⟨hold, hnew⟩
    · exact absurd hc hin
  · rintro ⟨hold, hnew⟩
    exact ⟨hsu, hnew, Or.inl hold⟩

theorem write_wipe (h : ¬ Clobbered S t i) (e : U64) :
    write (wipe S σ) t i e = wipe S (write σ t i e) := by
  have hmem : (write (wipe S σ) t i e).mem = (wipe S (write σ t i e)).mem := by
    funext s j
    by_cases hsj : s = t ∧ j = i
    · obtain ⟨rfl, rfl⟩ := hsj
      rw [write_self, wipe_of_not h, write_self]
    · rw [write_of_ne _ _ hsj]
      unfold wipe
      dsimp only
      rw [write_of_ne _ _ hsj]
  exact congrArg (fun mem => (⟨mem, σ.pmm, σ.kernelPml4⟩ : Machine)) hmem

/-! ## The code of a split -/

/-- The loop that fills the new table. -/
theorem fill_eq (u : U64) (g : Nat → U64) (l : List Nat) (σ : Machine) :
    l.forM (fun j => writeEntry u j (g j)) σ =
      .ok () (withEntries σ u fun j => if j ∈ l then g j else σ.mem u j) := by
  induction l generalizing σ with
  | nil =>
    unfold withEntries
    simp only [not_mem_nil, if_false, update_eq_self]
    rfl
  | cons i l ih =>
    rw [List.forM, bind_of_ok (writeEntry_eq u i (g i) σ), ih]
    have hentries : (fun j => if j ∈ l then g j else (write σ u i (g i)).mem u j) =
        fun j => if j ∈ i :: l then g j else σ.mem u j := by
      funext j
      by_cases hj : j = i
      · subst hj
        simp
      · rw [write_of_ne _ _ fun h => hj h.2]
        simp [hj]
    rw [hentries]
    unfold write withEntries
    rw [update_idem]

theorem inTables_self (u : U64) : InTables u 4096 u := by
  unfold InTables
  rw [BitVec.sub_self]
  decide

/-- The machine after 4096 tables have been cleared and the first of them filled. -/
theorem install_wipe (σ : Machine) (pmm' : Pmm) (u : U64) (entries : Nat → U64) (t : U64) (i : Nat)
    (e : U64) :
    write (withEntries { σ with
      pmm := pmm'
      mem := fun s j => if InTables u 4096 s then 0 else σ.mem s j } u entries) t i e =
      wipe [⟨u, t, i⟩] (write (withEntries { σ with pmm := pmm' } u entries) t i e) := by
  have hmem : ∀ s j, (write (withEntries { σ with
      pmm := pmm'
      mem := fun s j => if InTables u 4096 s then 0 else σ.mem s j } u entries) t i e).mem s j =
      (wipe [⟨u, t, i⟩] (write (withEntries { σ with pmm := pmm' } u entries) t i e)).mem s j := by
    intro s j
    by_cases hsj : s = t ∧ j = i
    · rw [wipe_of_not fun h => (clobbered_singleton.mp h).2.2 hsj, hsj.1, hsj.2, write_self,
        write_self]
    · by_cases hsu : s = u
      · rw [wipe_of_not fun h => (clobbered_singleton.mp h).1 hsu, write_of_ne _ _ hsj,
          write_of_ne _ _ hsj, hsu, withEntries_self, withEntries_self]
      · rw [write_of_ne _ _ hsj, withEntries_of_ne _ hsu]
        dsimp only
        by_cases hin : InTables u 4096 s
        · rw [if_pos hin, wipe_of_clobbered (clobbered_singleton.mpr ⟨hsu, hin, hsj⟩)]
        · rw [if_neg hin, wipe_of_not fun h => hin (clobbered_singleton.mp h).2.1,
            write_of_ne _ _ hsj, withEntries_of_ne _ hsu]
  exact congrArg (fun mem => (⟨mem, pmm', σ.kernelPml4⟩ : Machine))
    (funext fun s => funext fun j => hmem s j)

/-- **Splitting a huge page**: the table is put in its place, and what follows it is cleared. -/
theorem splitPage_eq (stride extra : U64) (t : U64) (i : Nat) (f : U64)
    (halloc : σ.pmm.allocPage = (some u, pmm')) : splitPage stride extra t i f σ = .ok u
      (wipe [⟨u, t, i⟩] (install σ pmm' u (splitEntries stride extra f (σ.mem t i)) t i f)) := by
  have hok : allocPage "OOM" σ = .ok u { σ with pmm := pmm' } := by
    unfold allocPage
    rw [halloc]
  have hzero : zeroTables u 4096 { σ with pmm := pmm' } = .ok () { σ with
      pmm := pmm'
      mem := fun s j => if InTables u 4096 s then 0 else σ.mem s j } := rfl
  unfold splitPage
  rw [bind_of_ok (readEntry_eq t i σ), bind_of_ok hok, bind_of_ok hzero,
    bind_of_ok (fill_eq u _ (List.range 512) _), bind_of_ok (writeEntry_eq t i _ _)]
  have hentries : (fun j => if j ∈ List.range 512 then
        setAddress (physicalAddress (σ.mem t i) + BitVec.ofNat 64 j * stride)
          ((flags (σ.mem t i) ||| neededFlags f) &&& ~~~Flags.hugePage ||| extra)
      else if InTables u 4096 u then 0 else σ.mem u j) =
      splitEntries stride extra f (σ.mem t i) := by
    funext j
    unfold splitEntries
    rw [if_pos (inTables_self u)]
    simp only [mem_range]
  rw [hentries, install_wipe]
  rfl

theorem splitPage_oom (stride extra : U64) (t : U64) (i : Nat) (f : U64)
    (halloc : σ.pmm.allocPage.1 = none) : splitPage stride extra t i f σ = .error "OOM" σ := by
  rcases allocPage_cases "OOM" σ with ⟨-, herr⟩ | ⟨phys, pmm', hsome, -⟩
  · unfold splitPage
    rw [bind_of_ok (readEntry_eq t i σ), bind_of_error herr]
  · rw [hsome] at halloc
    cases halloc

/-! ## The code of a step -/

theorem setAddress_self (e : U64) : setAddress (physicalAddress e) (flags e) = e := by
  unfold setAddress physicalAddress
  rw [flags_eq]
  ext k hk
  simp only [BitVec.getElem_and, BitVec.getElem_or, BitVec.getElem_not]
  cases e[k] <;> cases addressMask[k] <;> rfl

/-- An entry that has the rights already. -/
theorem widen_eq_self (h : flags e &&& neededFlags f = neededFlags f) : widen e f = e := by
  have hor : flags e ||| neededFlags f = flags e := by
    rw [← h]
    ext k hk
    simp only [BitVec.getElem_and, BitVec.getElem_or]
    cases (flags e)[k] <;> simp
  unfold widen
  rw [hor, setAddress_self]

theorem write_eq_self (σ : Machine) (t : U64) (i : Nat) : write σ t i (σ.mem t i) = σ := by
  unfold write
  simp only [update_eq_self]

theorem getOrCreateTable_keep (htable : table σ.mem t i = some u) (f : U64) (level : Nat) :
    getOrCreateTable t i f level σ = .ok u (write σ t i (widen (σ.mem t i) f)) := by
  obtain ⟨hpresent, hnothuge, rfl⟩ := table_eq_some.mp htable
  unfold getOrCreateTable
  rw [bind_of_ok (readEntry_eq t i σ), if_pos hpresent, hnothuge, if_neg Bool.false_ne_true]
  split
  · show EStateM.Result.ok (physicalAddress ((write σ t i (widen (σ.mem t i) f)).mem t i)) _ = _
    rw [write_self, physicalAddress_widen]
    rfl
  · next hhas =>
      rw [widen_eq_self (not_not.mp hhas), write_eq_self]
      rfl

theorem getOrCreateTable_create (habsent : isPresent (σ.mem t i) = false)
    (halloc : σ.pmm.allocPage = (some u, pmm')) (f : U64) (depth level : Nat) :
    getOrCreateTable t i f level σ =
      .ok u (install σ pmm' u (newEntries depth f (σ.mem t i)) t i f) := by
  have hok : allocPage "OOM" σ = .ok u { σ with pmm := pmm' } := by
    unfold allocPage
    rw [halloc]
  unfold getOrCreateTable
  rw [bind_of_ok (readEntry_eq t i σ), if_neg (by rw [habsent]; decide), bind_of_ok hok,
    newEntries_absent habsent]
  rfl

theorem getOrCreateTable_split {d : Nat} (hpresent : isPresent (σ.mem t i) = true)
    (hnone : table σ.mem t i = none) (hd : d = 1 ∨ d = 2)
    (halloc : σ.pmm.allocPage = (some u, pmm')) (f : U64) : getOrCreateTable t i f (d + 1) σ = .ok u
      (wipe [⟨u, t, i⟩] (install σ pmm' u (newEntries d f (σ.mem t i)) t i f)) := by
  have hsplit := splitPage_eq (stride d) (extra d) t i f halloc
  unfold getOrCreateTable
  rw [bind_of_ok (readEntry_eq t i σ), if_pos hpresent, if_pos (table_eq_none.mp hnone hpresent),
    newEntries_present hpresent]
  rcases hd with rfl | rfl <;> exact hsplit

theorem getOrCreateTable_oom {d : Nat} (hnone : table σ.mem t i = none)
    (hd : isPresent (σ.mem t i) = true → d = 1 ∨ d = 2) (halloc : σ.pmm.allocPage.1 = none)
    (f : U64) : getOrCreateTable t i f (d + 1) σ = .error "OOM" σ := by
  unfold getOrCreateTable
  rw [bind_of_ok (readEntry_eq t i σ)]
  by_cases hpresent : isPresent (σ.mem t i) = true
  · rw [if_pos hpresent, if_pos (table_eq_none.mp hnone hpresent)]
    rcases hd hpresent with rfl | rfl <;> exact splitPage_oom _ _ t i f halloc
  · rw [if_neg hpresent]
    rcases allocPage_cases "OOM" σ with ⟨-, herr⟩ | ⟨phys, pmm', hsome, -⟩
    · exact bind_of_error herr
    · rw [hsome] at halloc
      cases halloc

/-! ## The code of the walk -/

/-- The walk of `map_page_with_flags`, as a loop over the levels. -/
def resolvePath (f : U64) : U64 → List Nat → (level : Nat) → Vmm U64
  | t, [], _ => pure t
  | t, i :: p, level => do
    let u ← getOrCreateTable t i f level
    resolvePath f u p (level + 1)

theorem mapEntry_eq_resolvePath (r virt phys f : U64) :
    mapEntry r virt phys f = (do
      let pt ← resolvePath f r (directory virt) 1
      writeEntry pt (ptIndex virt) (setAddress phys f)) := by
  unfold mapEntry directory resolvePath resolvePath resolvePath resolvePath
  simp only [bind_assoc, pure_bind]

/-- The walk ends at the page table or with an error on the way; the splits `S` have been made. -/
def Outcome (f r : U64) (σ : Machine) (virt : U64) (S : List Split)
    (x : EStateM.Result String Machine U64) : Prop :=
  ∃ ph q t σ', Way f r σ ph q t σ' S ∧ q <+: directory virt ∧
    ((∃ m, x = .error m (wipe S σ')) ∨ q = directory virt ∧ x = .ok t (wipe S σ'))

theorem Way.outcome_error (hway : Way f r σ ph p t σ' S) (hp : p <+: directory virt) (m : String) :
    Outcome f r σ virt S (.error m (wipe S σ')) :=
  ⟨ph, p, t, σ', hway, hp, Or.inl ⟨m, rfl⟩⟩

theorem Way.outcome_ok (hway : Way f r σ ph (directory virt) t σ' S) :
    Outcome f r σ virt S (.ok t (wipe S σ')) :=
  ⟨ph, _, t, σ', hway, prefix_refl _, Or.inr ⟨rfl, rfl⟩⟩

/-- The path from the current table on. -/
theorem isPrefix_of_append (hp : p ++ is = q) : p <+: q := ⟨is, hp⟩

theorem append_snoc (hp : p ++ i :: is = q) : p ++ [i] ++ is = q := by
  rw [append_assoc]
  exact hp

theorem resolvePath_cons_ok {level : Nat} (h : getOrCreateTable t i f level σ = .ok u σ') :
    resolvePath f t (i :: is) level σ = resolvePath f u is (level + 1) σ' := by
  rw [resolvePath, bind_of_ok h]

theorem resolvePath_cons_error {level : Nat} {m : String}
    (h : getOrCreateTable t i f level σ = .error m σ') :
    resolvePath f t (i :: is) level σ = .error m σ' := by
  rw [resolvePath, bind_of_error h]

/-- Where there is no table, an empty one is built, and the way goes on from there. -/
theorem Way.outcome_create (hway : Way f r σ ph p t σ' []) (hph : ph ≠ .split)
    (hp : p ++ i :: is = directory virt) (habsent : isPresent (σ'.mem t i) = false)
    (hnext : ∀ u σ'', Way f r σ .empty (p ++ [i]) u σ'' [] →
      Outcome f r σ virt [] (resolvePath f u is ((p ++ [i]).length + 1) σ'')) :
    Outcome f r σ virt [] (resolvePath f t (i :: is) (p.length + 1) σ') := by
  cases halloc : σ'.pmm.allocPage with
  | mk result pmm' =>
    cases result with
    | none =>
      rw [resolvePath_cons_error (getOrCreateTable_oom (table_of_absent habsent)
        (fun hpresent => by rw [habsent] at hpresent; cases hpresent) (by rw [halloc]) f),
        ← wipe_nil σ']
      exact hway.outcome_error (isPrefix_of_append hp) _
    | some u =>
      rw [resolvePath_cons_ok (getOrCreateTable_create habsent halloc f p.length _)]
      have hrest := hnext u _ (hway.create hph habsent halloc)
      rw [length_append] at hrest
      exact hrest

/-- Below an empty table, empty tables are built. -/
theorem Way.outcome_empty (hway : Way f r σ .empty p t σ' []) (h : Hierarchy slots σ r own)
    (hv : slots (pml4Index virt)) (hp : p ++ is = directory virt) :
    Outcome f r σ virt [] (resolvePath f t is (p.length + 1) σ') := by
  induction is generalizing p t σ' with
  | nil =>
    rw [append_nil] at hp
    subst hp
    exact hway.outcome_ok
  | cons i is ih =>
    obtain ⟨own', -, hfacts⟩ := hway.reached h ((innerPath_directory hv).of_eq_append hp.symm)
    refine hway.outcome_create nofun hp (hfacts.empty rfl i) fun u σ'' hway' => ?_
    exact ih hway' (append_snoc hp)

/-- A table below the 4096 pages from `u` on. -/
theorem not_inTables {m n : Nat} (hn : n < Pmm.maxPages) (hlt : m < n) :
    ¬ InTables (BitVec.ofNat 64 (n * Pmm.pageSize)) 4096 (BitVec.ofNat 64 (m * Pmm.pageSize)) := by
  rintro ⟨-, hcount⟩
  have hpage : Pmm.pageSize = 4096 := rfl
  have hmax : Pmm.maxPages = 1048576 := rfl
  rw [hpage, BitVec.toNat_sub, BitVec.toNat_ofNat, BitVec.toNat_ofNat,
    Nat.mod_eq_of_lt (by omega : n * 4096 < 2 ^ 64),
    Nat.mod_eq_of_lt (by omega : m * 4096 < 2 ^ 64), Nat.mod_eq_of_lt (by omega)] at hcount
  omega

/-- Clearing behind one more table. -/
theorem wipe_install {entries : Nat → U64} (ht : ∃ x ∈ S, x.new = t)
    (hbelow : ∀ x ∈ S, ¬ InTables u 4096 x.new) :
    wipe [⟨u, t, i⟩] (install (wipe S σ) pmm' u entries t i f) =
      wipe (S ++ [⟨u, t, i⟩]) (install σ pmm' u entries t i f) := by
  obtain ⟨x₀, hx₀, rfl⟩ := ht
  have hmem : ∀ s j,
      (wipe [⟨u, x₀.new, i⟩] (install (wipe S σ) pmm' u entries x₀.new i f)).mem s j =
      (wipe (S ++ [⟨u, x₀.new, i⟩]) (install σ pmm' u entries x₀.new i f)).mem s j := by
    intro s j
    by_cases hsj : s = x₀.new ∧ j = i
    · obtain ⟨rfl, rfl⟩ := hsj
      simp only [wipe_of_not fun hc => (clobbered_singleton.mp hc).2.2 ⟨rfl, rfl⟩,
        wipe_of_not (not_clobbered_new (mem_append_left _ hx₀) _), install_entry]
    · by_cases hsu : s = u
      · rw [wipe_of_not fun hc => (clobbered_singleton.mp hc).1 hsu,
          wipe_of_not fun hc => ((clobbered_snoc hx₀).mp hc).1 hsu]
        unfold install
        rw [write_of_ne _ _ hsj, write_of_ne _ _ hsj, hsu, withEntries_self, withEntries_self]
      · by_cases hnew : ∀ x ∈ S, s ≠ x.new
        · by_cases hin : InTables u 4096 s
          · rw [wipe_of_clobbered (clobbered_singleton.mpr ⟨hsu, hin, hsj⟩),
              wipe_of_clobbered ((clobbered_snoc hx₀).mpr ⟨hsu, hnew, Or.inr hin⟩)]
          · rw [wipe_of_not fun hc => hin (clobbered_singleton.mp hc).2.1,
              install_of_ne _ _ _ _ hsu hsj]
            have hsame : Clobbered (S ++ [⟨u, x₀.new, i⟩]) s j ↔ Clobbered S s j :=
              clobbered_snoc_of_not hx₀ hsu hin
            by_cases hc : Clobbered S s j
            · rw [wipe_of_clobbered hc, wipe_of_clobbered (hsame.mpr hc)]
            · rw [wipe_of_not hc, wipe_of_not fun hc' => hc (hsame.mp hc'),
                install_of_ne _ _ _ _ hsu hsj]
        · -- an older new table, which lies below the new one
          push Not at hnew
          obtain ⟨x, hx, rfl⟩ := hnew
          simp only [wipe_of_not fun hc => hbelow x hx (clobbered_singleton.mp hc).2.1,
            wipe_of_not (not_clobbered_new (mem_append_left _ hx) _),
            install_of_ne _ _ _ _ hsu hsj, wipe_of_not (not_clobbered_new hx j)]
  exact congrArg (fun mem => (⟨mem, pmm', σ.kernelPml4⟩ : Machine))
    (funext fun s => funext fun j => hmem s j)

/-- The part of a split page on the path is split in turn. -/
theorem Way.outcome_split (hway : Way f r σ .split p t σ' S) (h : Hierarchy slots σ r own)
    (hv : slots (pml4Index virt)) (hp : p ++ is = directory virt) (hlen : 2 ≤ p.length) :
    Outcome f r σ virt (S ++ newSplits σ'.pmm t is)
      (resolvePath f t is (p.length + 1) (wipe S σ')) := by
  cases is with
  | nil =>
    rw [append_nil] at hp
    subst hp
    have hnil : newSplits σ'.pmm t [] = [] := rfl
    rw [hnil, append_nil]
    exact hway.outcome_ok
  | cons i is =>
    have htotal := congrArg List.length hp
    rw [length_append, length_cons, show (directory virt).length = 3 from rfl] at htotal
    have hlen : p.length = 2 := by omega
    have hnil : is = [] := by
      rw [← length_eq_zero_iff]
      omega
    subst hnil
    obtain ⟨own', hreached, hfacts⟩ :=
      hway.reached h ((innerPath_directory hv).of_eq_append hp.symm)
    have hi : i < 512 := by
      have hmem : i ∈ path virt := by
        unfold path
        rw [← hp]
        simp
      exact lt_of_mem_path hmem
    obtain ⟨hpresent, hnone⟩ := hfacts.huge rfl (by omega) i hi
    -- the table is new, so its entries have not been cleared
    obtain ⟨x, hx, rfl⟩ := hfacts.here rfl
    have hentry : (wipe S σ').mem x.new i = σ'.mem x.new i := wipe_of_not (not_clobbered_new hx i)
    have hnone' : table (wipe S σ').mem x.new i = none := (table_congr hentry).trans hnone
    rw [hlen]
    cases halloc : σ'.pmm.allocPage with
    | mk result pmm' =>
      cases result with
      | none =>
        have hoom : (wipe S σ').pmm.allocPage.1 = none := congrArg Prod.fst halloc
        rw [newSplits_none halloc, append_nil,
          resolvePath_cons_error (getOrCreateTable_oom hnone' (fun _ => Or.inr rfl) hoom f)]
        exact hway.outcome_error (isPrefix_of_append hp) _
      | some u =>
        have hbelow : ∀ y ∈ S, ¬ InTables u 4096 y.new := by
          intro y hy
          obtain ⟨m, hm, habove⟩ := hfacts.above y hy
          obtain ⟨n, hn, rfl, -⟩ := Pmm.allocPage_eq_some halloc
          rw [hm]
          exact not_inTables (Pmm.mem_freeSet.mp hn).1 (habove n hn)
        have hok := getOrCreateTable_split (d := 2) (hentry ▸ hpresent) hnone' (.inr rfl)
          (show (wipe S σ').pmm.allocPage = (some u, pmm') from halloc) f
        rw [hentry, wipe_install ⟨x, hx, rfl⟩ hbelow] at hok
        rw [newSplits_some halloc, resolvePath_cons_ok hok]
        have hway' := hway.split nofun hpresent hnone halloc
        rw [hlen] at hway'
        rw [hp] at hway'
        exact hway'.outcome_ok

theorem splitsFrom_congr {mem mem' : U64 → Nat → U64}
    (h : ∀ x ∈ trail (table mem) t is, mem' x.1 x.2 = mem x.1 x.2) :
    splitsFrom mem' pmm t is = splitsFrom mem pmm t is := by
  induction is generalizing t with
  | nil => rfl
  | cons i is ih =>
    have hhead : mem' t i = mem t i := h (t, i) mem_cons_self
    have htable : table mem' t i = table mem t i := by
      unfold table
      rw [hhead]
    rw [splitsFrom, splitsFrom, htable, hhead]
    cases hi : table mem t i with
    | none => rfl
    | some u =>
      rw [trail_cons_some hi] at h
      exact ih fun x hx => h x (mem_cons_of_mem _ hx)

section

variable (hway : Way f r σ .old p t σ' [])
  (h : Hierarchy slots σ r own) (hv : slots (pml4Index virt))
include hway h hv

/-- A huge page on the way is split. -/
theorem Way.outcome_huge (hp : p ++ i :: is = directory virt) (hnone : table σ'.mem t i = none)
    (hpresent : isPresent (σ'.mem t i) = true) : Outcome f r σ virt (newSplits σ'.pmm t (i :: is))
      (resolvePath f t (i :: is) (p.length + 1) σ') := by
  have hdirectory := innerPath_directory hv
  obtain ⟨own', hreached, -⟩ := hway.reached h (hdirectory.of_eq_append hp.symm)
  obtain ⟨-, hdepth⟩ := hreached.hierarchy.depth_of_huge hreached.at_path
    (hdirectory.of_append hp.symm) hnone hpresent
  cases halloc : σ'.pmm.allocPage with
  | mk result pmm' =>
    cases result with
    | none =>
      rw [newSplits_none halloc, resolvePath_cons_error
        (getOrCreateTable_oom hnone (fun _ => hdepth) (by rw [halloc]) f), ← wipe_nil σ']
      exact hway.outcome_error (isPrefix_of_append hp) _
    | some u =>
      rw [newSplits_some halloc, resolvePath_cons_ok
        (getOrCreateTable_split hpresent hnone hdepth halloc f)]
      have hnext := (hway.split nofun hpresent hnone halloc).outcome_split h hv
        (append_snoc hp) (by rw [length_append, length_singleton]; omega)
      rw [length_append] at hnext
      exact hnext

/-- The walk goes on from a table that was there before the call. -/
theorem Way.outcome_old (hp : p ++ is = directory virt) :
    Outcome f r σ virt (splitsFrom σ'.mem σ'.pmm t is) (resolvePath f t is (p.length + 1) σ') := by
  have hdirectory := innerPath_directory hv
  induction is generalizing p t σ' with
  | nil =>
    rw [append_nil] at hp
    subst hp
    have hok : Outcome f r σ virt [] (.ok t (wipe [] σ')) := hway.outcome_ok
    exact hok
  | cons i is ih =>
    rw [splitsFrom]
    cases htable : table σ'.mem t i with
    | some u =>
      rw [resolvePath_cons_ok (getOrCreateTable_keep htable f _)]
      have hnext := ih (hway.keep htable) (append_snoc hp)
      rw [length_append] at hnext
      -- the splits behind the entry do not depend on its rights
      obtain ⟨own', hreached, -⟩ := hway.reached h (hdirectory.of_eq_append hp.symm)
      have hbehind := hreached.hierarchy.behind hreached.at_path hv
        (hdirectory.of_append hp.symm) htable
        (fun s n j _ hsj => write_of_ne σ' (widen (σ'.mem t i) f) hsj)
        (show path virt = p ++ i :: (is ++ [ptIndex virt]) by
          rw [path_eq_snoc, ← hp, append_assoc, cons_append])
      have hsame : splitsFrom (write σ' t i (widen (σ'.mem t i) f)).mem σ'.pmm u is =
          splitsFrom σ'.mem σ'.pmm u is :=
        splitsFrom_congr fun x hx => hbehind x (mem_trail_append hx _)
      dsimp only
      rw [← hsame]
      exact hnext
    | none =>
      cases hpresent : isPresent (σ'.mem t i) with
      | false =>
        exact hway.outcome_create nofun hp hpresent fun u σ'' hway' =>
          hway'.outcome_empty h hv (append_snoc hp)
      | true =>
        exact hway.outcome_huge h hv hp htable hpresent

end

variable (h : Hierarchy slots σ r own) (hv : slots (pml4Index virt))

include h hv in
/-- What a call that maps a page does: it makes its way to the page table, clears what follows the
tables of split pages, and writes the entry unless it has run out of pages before. -/
theorem mapEntry_eq (phys f : U64) :
    ∃ ph q t σ', Way f r σ ph q t σ' (splits σ r virt) ∧ q <+: directory virt ∧
      ((∃ m, mapEntry r virt phys f σ = .error m (wipe (splits σ r virt) σ')) ∨
        q = directory virt ∧ mapEntry r virt phys f σ =
          .ok () (wipe (splits σ r virt) (write σ' t (ptIndex virt) (setAddress phys f)))) := by
  have houtcome : Outcome f r σ virt (splits σ r virt) (resolvePath f r (directory virt) 1 σ) :=
    Way.start.outcome_old h hv (nil_append (directory virt))
  obtain ⟨ph, q, t, σ', hway, hq, hend⟩ := houtcome
  refine ⟨ph, q, t, σ', hway, hq, ?_⟩
  rw [mapEntry_eq_resolvePath]
  rcases hend with ⟨m, herr⟩ | ⟨rfl, hok⟩
  · exact .inl ⟨m, bind_of_error herr⟩
  · right
    refine ⟨rfl, ?_⟩
    rw [bind_of_ok hok, writeEntry_eq, write_wipe]
    -- the page table is a new one if anything has been cleared
    obtain ⟨own', -, hfacts⟩ := hway.reached h (innerPath_directory hv)
    by_cases hph : ph = .split
    · obtain ⟨x, hx, rfl⟩ := hfacts.here hph
      exact not_clobbered_new hx _
    · rw [hfacts.no_split hph]
      rintro ⟨⟨x, hx, -⟩, -⟩
      cases hx

/-! ## What the clearing does to walks -/

/-- A word that is cleared is on the walk to the address. -/
def Hit (S : List Split) (σ : Machine) (r virt : U64) : Prop :=
  ∃ x ∈ trail (table σ.mem) r (path virt), Clobbered S x.1 x.2

theorem reading_wipe (h : ¬ Hit S σ r virt) :
    reading (wipe S σ) r (path virt) = reading σ r (path virt) :=
  reading_congr fun x hx => wipe_of_not fun hc => h ⟨x, hx, hc⟩

/-- A walk ends at the first word that has been cleared. -/
theorem getLast?_reading_wipe (h : ∃ x ∈ trail (table σ.mem) t p, Clobbered S x.1 x.2) :
    (reading (wipe S σ) t p).getLast? = some 0 := by
  obtain ⟨x, hx, hc⟩ := h
  refine getLast?_reading_cleared (fun s j => ?_) ⟨x, hx, wipe_of_clobbered hc⟩
  by_cases hsj : Clobbered S s j
  · exact .inr (wipe_of_clobbered hsj)
  · exact .inl (wipe_of_not hsj)

theorem leaf_wipe_of_hit (h : Hit S σ r virt) : leaf (wipe S σ) r virt = (0, 0) :=
  leafOf_eq_zero (getLast?_reading_wipe h)

theorem leaf_wipe (h : ¬ Hit S σ r virt) : leaf (wipe S σ) r virt = leaf σ r virt := by
  unfold leaf
  rw [reading_wipe h]

/-! ## What a call is meant to do -/

/-- A table on the walk to the address. -/
def OnWalk (σ : Machine) (r virt s : U64) : Prop :=
  ∃ q, q <+: directory virt ∧ walk (table σ.mem) r q = some s

/-- The page has been allocated. -/
def Taken (σ σ' : Machine) (s : U64) : Prop := Free σ.pmm s ∧ ¬ Free σ'.pmm s

/-- Mapping a page touches only page tables: it writes to tables on the walk and to at most three
pages that it allocates, and leaves all other pages where they are. -/
structure TouchesOnlyTables (slots : Nat → Prop) (σ σ' : Machine) (r virt : U64) : Prop where
  frame : ∀ s, ∀ j < 512, σ'.mem s j ≠ σ.mem s j → OnWalk σ r virt s ∨ Taken σ σ' s
  taken : (σ.pmm.freeSet \ σ'.pmm.freeSet).card ≤ 3
  translate_eq : ∀ v, slots (pml4Index v) → path v ≠ path virt →
    translate σ' r v = translate σ r v

/-- The machine `σ'` that a call is meant to leave behind, when the splits `S` are made. -/
structure Placed (slots : Nat → Prop) (σ : Machine) (r virt : U64) (S : List Split)
    (σ' : Machine) : Prop where
  frame : ∀ s j, σ'.mem s j ≠ σ.mem s j → OnWalk σ r virt s ∨ Taken σ σ' s
  cleared : ∀ s j, Clobbered S s j → ¬ Taken σ σ' s
  taken : (σ.pmm.freeSet \ σ'.pmm.freeSet).card ≤ 3
  pml4 : ∀ i, InSlots slots [] i → isPresent (σ'.mem r i) = true →
    has (σ'.mem r i) Flags.hugePage = false
  hits : ∀ v, slots (pml4Index v) → path v ≠ path virt → (Hit S σ' r v ↔ Hit S σ r v)
  frames : ∀ v, slots (pml4Index v) → path v ≠ path virt →
    frameOf v (leaf σ' r v) = frameOf v (leaf σ r v)

include h in
/-- The walk to another page does not read the entry of the page. -/
theorem Hierarchy.not_leafEntry (ht : own t = some (r, directory virt)) (hv : slots (pml4Index v))
    (hne : path v ≠ path virt) (e : U64) : ∀ x ∈ trail (table σ.mem) r (path v),
      (write σ t (ptIndex virt) e).mem x.1 x.2 = σ.mem x.1 x.2 := by
  intro x hx
  refine write_of_ne σ e ?_
  rintro ⟨hxt, hxi⟩
  obtain ⟨p₁, p₂, hpath, hown⟩ := h.of_mem_trail hv hx
  rw [hxt, ht] at hown
  cases hown
  have hlen := congrArg List.length hpath
  rw [length_path, length_append, length_cons,
    show (directory virt).length = 3 from rfl] at hlen
  have hnil : p₂ = [] := by
    rw [← length_eq_zero_iff]
    omega
  rw [hnil, hxi] at hpath
  exact hne hpath

/-- New tables are not cleared. -/
theorem PhaseFacts.not_clobbered (hfacts : PhaseFacts own own' p t σ' S ph)
    (hs : own s = none) (hs' : own' s = some n) (j : Nat) : ¬ Clobbered S s j := by
  by_cases hph : ph = .split
  · obtain ⟨x, hx, rfl⟩ := hfacts.split hph s n hs hs'
    exact not_clobbered_new hx j
  · rw [hfacts.no_split hph]
    rintro ⟨⟨x, hx, -⟩, -⟩
    cases hx

/-- On the way, nothing that is cleared comes onto a walk, or off it. -/
theorem Reached.hit_iff (hreached : Reached slots r σ own p t σ' own')
    (hfacts : PhaseFacts own own' p t σ' S ph) (hv : slots (pml4Index v)) :
    Hit S σ' r v ↔ Hit S σ r v := by
  obtain ⟨new, htrail, hnone⟩ := hreached.trails v hv
  unfold Hit
  rw [htrail]
  constructor
  · rintro ⟨x, hx, hc⟩
    rcases mem_append.mp hx with hx' | hx'
    · exact ⟨x, hx', hc⟩
    · rw [← htrail] at hx
      obtain ⟨p₁, p₂, -, hown⟩ := hreached.hierarchy.of_mem_trail hv hx
      exact absurd hc (hfacts.not_clobbered (hnone x hx') hown x.2)
  · rintro ⟨x, hx, hc⟩
    exact ⟨x, mem_append_left _ hx, hc⟩

theorem Way.placed (hway : Way f r σ ph q t σ' S) (h : Hierarchy slots σ r own)
    (hv : slots (pml4Index virt)) (hq : q <+: directory virt) :
    Placed slots σ r virt S σ' ∧ ∃ own', Reached slots r σ own q t σ' own' := by
  obtain ⟨rest, hrest⟩ := hq
  obtain ⟨own', hreached, hfacts⟩ := hway.reached h
    ((innerPath_directory hv).of_eq_append hrest.symm)
  refine ⟨⟨?_, ?_, ?_, hreached.hierarchy.pml4, ?_, fun v hv _ => hreached.frames v hv⟩,
    own', hreached⟩
  · intro s j hne
    obtain ⟨p, hp, hle⟩ := hreached.frame s j hne
    cases hs : own s with
    | none =>
      exact .inr ⟨hreached.new_free s _ hs hp, hreached.hierarchy.not_free s _ hp⟩
    | some n =>
      have hn := hreached.own_le s n hs
      rw [hp] at hn
      cases hn
      exact .inl ⟨p, hle.trans ⟨rest, hrest⟩, h.forest.reached s r p hs⟩
  · rintro s j hc ⟨hfree, hnot⟩
    obtain ⟨n, hn⟩ := (hreached.allocated s hfree).resolve_left hnot
    have hs : own s = none := by
      cases hs : own s with
      | none => rfl
      | some m => exact absurd hfree (h.not_free s m hs)
    exact hfacts.not_clobbered hs hn j hc
  · refine le_trans hreached.taken ?_
    have hlen := congrArg List.length hrest
    rw [length_append, show (directory virt).length = 3 from rfl] at hlen
    omega
  · exact fun v hv _ => hreached.hit_iff hfacts hv

/-- Writing the entry of the page at last. -/
theorem Placed.write (h : Placed slots σ r virt S σ') (own' : U64 → Option (U64 × List Nat))
    (hhierarchy : Hierarchy slots σ' r own') (ht : own' t = some (r, directory virt))
    (hon : OnWalk σ r virt t ∨ Taken σ σ' t) (e : U64) :
    Placed slots σ r virt S (write σ' t (ptIndex virt) e) where
  frame := by
    intro s j hne
    by_cases hsj : s = t ∧ j = ptIndex virt
    · rw [hsj.1]
      exact hon
    · rw [write_of_ne σ' e hsj] at hne
      exact h.frame s j hne
  cleared := h.cleared
  taken := h.taken
  pml4 := by
    intro i hi hpresent
    have hrt : r ≠ t := by
      rintro rfl
      rw [hhierarchy.own_root] at ht
      cases ht
    rw [write_table_of_ne σ' _ e hrt] at hpresent ⊢
    exact h.pml4 i hi hpresent
  hits := by
    intro v hv hne
    have hsame := hhierarchy.not_leafEntry ht hv hne e
    unfold Hit
    rw [trail_table_congr hsame]
    exact h.hits v hv hne
  frames := by
    intro v hv hne
    have hsame := hhierarchy.not_leafEntry ht hv hne e
    unfold leaf
    rw [reading_congr hsame]
    exact h.frames v hv hne

include h hv in
/-- **A call does what it is meant to do**, and then clears. -/
theorem mapEntry_placed (phys f : U64) : ∃ σ', Placed slots σ r virt (splits σ r virt) σ' ∧
      after (mapEntry r virt phys f σ) = wipe (splits σ r virt) σ' := by
  obtain ⟨ph, q, t, σ', hway, hq, hend⟩ := mapEntry_eq h hv phys f
  obtain ⟨hplaced, own', hreached⟩ := hway.placed h hv hq
  rcases hend with ⟨m, hend⟩ | ⟨rfl, hend⟩
  · rw [hend]
    exact ⟨σ', hplaced, rfl⟩
  · rw [hend]
    refine ⟨_, hplaced.write own' hreached.hierarchy hreached.at_path ?_ _, rfl⟩
    cases ht : own t with
    | none =>
      exact .inr ⟨hreached.new_free t _ ht hreached.at_path,
        hreached.hierarchy.not_free t _ hreached.at_path⟩
    | some n =>
      have hn := hreached.own_le t n ht
      rw [hreached.at_path] at hn
      cases hn
      exact .inl ⟨_, hq, h.forest.reached t r _ ht⟩

/-! ## When nothing is lost -/

/-- There is nothing to clear: outside the tables on the walk the words are zero already, and the
entries of pages that are mapped are not among them. -/
structure Harmless (slots : Nat → Prop) (σ : Machine) (r virt : U64) : Prop where
  words : ∀ s, ∀ j < 512, Clobbered (splits σ r virt) s j → σ.mem s j = 0 ∨ OnWalk σ r virt s
  walks : ∀ v, slots (pml4Index v) → path v ≠ path virt → (translate σ r v).isSome →
    ¬ Hit (splits σ r virt) σ r v

/-- Where the clearing leaves the other pages. -/
theorem Placed.translate_wipe (h : Placed slots σ r virt S σ')
    (hhierarchy : Hierarchy slots σ r own) (hv : slots (pml4Index v)) (hne : path v ≠ path virt) :
    (Hit S σ r v → translate (wipe S σ') r v = none) ∧
      (¬ Hit S σ r v → translate (wipe S σ') r v = translate σ r v) := by
  have hpml4 : isPresent ((wipe S σ').mem r (pml4Index v)) = true →
      has ((wipe S σ').mem r (pml4Index v)) Flags.hugePage = false := by
    by_cases hc : Clobbered S r (pml4Index v)
    · rw [wipe_of_clobbered hc, isPresent_zero]
      intro hfalse
      cases hfalse
    · rw [wipe_of_not hc]
      exact h.pml4 _ ⟨by decide, index_lt v 39, fun _ => hv⟩
  rw [translate_eq_frameOf hpml4]
  constructor
  · intro hhit
    rw [leaf_wipe_of_hit ((h.hits v hv hne).mpr hhit)]
    rfl
  · intro hnot
    rw [leaf_wipe fun hhit => hnot ((h.hits v hv hne).mp hhit), h.frames v hv hne,
      hhierarchy.translate_eq hv]

theorem Placed.touchesOnlyTables_iff (h : Placed slots σ r virt (splits σ r virt) σ')
    (hhierarchy : Hierarchy slots σ r own) :
    TouchesOnlyTables slots σ (wipe (splits σ r virt) σ') r virt ↔ Harmless slots σ r virt := by
  constructor
  · intro htouches
    constructor
    · intro s j hj hc
      by_cases hzero : σ.mem s j = 0
      · exact .inl hzero
      · refine .inr ((htouches.frame s j hj ?_).resolve_right (h.cleared s j hc))
        rw [wipe_of_clobbered hc]
        exact Ne.symm hzero
    · intro v hv hne hsome hhit
      rw [← htouches.translate_eq v hv hne, (h.translate_wipe hhierarchy hv hne).1 hhit] at hsome
      cases hsome
  · intro hharmless
    refine ⟨?_, h.taken, ?_⟩
    · intro s j hj hne
      by_cases hc : Clobbered (splits σ r virt) s j
      · rw [wipe_of_clobbered hc] at hne
        exact .inl ((hharmless.words s j hj hc).resolve_left (Ne.symm hne))
      · rw [wipe_of_not hc] at hne
        exact h.frame s j hne
    · intro v hv hne
      obtain ⟨hhit, hnot⟩ := h.translate_wipe hhierarchy hv hne
      cases hsome : translate σ r v with
      | some a =>
        rw [hnot (hharmless.walks v hv hne (by rw [hsome]; rfl)), hsome]
      | none =>
        by_cases hc : Hit (splits σ r virt) σ r v
        · exact hhit hc
        · rw [hnot hc, hsome]

/-- The slots of a PML4 that are not the recursive one. -/
def outsideRecursive (i : Nat) : Prop := i ≠ recursiveEntry

instance (i : Nat) : Decidable (outsideRecursive i) := inferInstanceAs (Decidable (_ ≠ _))

/-- **Mapping a page touches only page tables** exactly if the splits have nothing to clear. -/
theorem mapPage_touchesOnlyTables_iff (h : Hierarchy outsideRecursive σ r own)
    (hv : outsideRecursive (pml4Index virt)) (phys f : U64) (user : Bool) :
    (TouchesOnlyTables outsideRecursive σ (after (mapPageWithFlags r virt phys f σ)) r virt ↔
        Harmless outsideRecursive σ r virt) ∧
      (TouchesOnlyTables outsideRecursive σ (after (mapPage r virt phys user σ)) r virt ↔
        Harmless outsideRecursive σ r virt) := by
  have hmap : ∀ f, TouchesOnlyTables outsideRecursive σ (after (mapEntry r virt phys f σ)) r virt ↔
      Harmless outsideRecursive σ r virt := by
    intro f
    obtain ⟨σ', hplaced, hafter⟩ := mapEntry_placed h hv phys f
    rw [hafter]
    exact hplaced.touchesOnlyTables_iff h
  exact ⟨hmap f, hmap (mapPageFlags user)⟩

/-! ## A huge page of 2 MiB -/

/-- The tables 0x1000, 0x2000 and 0x3000, with a huge page at the first entry of the last one, and
a word of data at 0x6000. -/
def hugeMemory (word : U64) (s : U64) (j : Nat) : U64 :=
  if j ≠ 0 then 0
  else if s = 0x1000 then 0x2003
  else if s = 0x2000 then 0x3003
  else if s = 0x3000 then 0x200083
  else if s = 0x6000 then word
  else 0

/-- The page 0x5000 is free. -/
def hugeMachine (word : U64) : Machine :=
  ⟨hugeMemory word, ⟨fun i => if i = 0 then 0x20 else 0, 1, 1⟩, 0x1000⟩

def hugeOwner (s : U64) : Option (U64 × List Nat) :=
  if s = 0x1000 then some (0x1000, [])
  else if s = 0x2000 then some (0x1000, [0])
  else if s = 0x3000 then some (0x1000, [0, 0])
  else none

theorem hugeOwner_cases (h : hugeOwner t = some n) :
    t = 0x1000 ∧ n = (0x1000, []) ∨ t = 0x2000 ∧ n = (0x1000, [0]) ∨
      t = 0x3000 ∧ n = (0x1000, [0, 0]) := by
  unfold hugeOwner at h
  split at h
  · next ht => exact .inl ⟨ht, (Option.some.inj h).symm⟩
  · split at h
    · next ht => exact .inr (.inl ⟨ht, (Option.some.inj h).symm⟩)
    · split at h
      · next ht => exact .inr (.inr ⟨ht, (Option.some.inj h).symm⟩)
      · cases h

/-- Only the first entries are in use. -/
theorem hugeMemory_of_ne (word s : U64) (hj : j ≠ 0) : hugeMemory word s j = 0 := if_pos hj

theorem hugeMachine_absent (word s : U64) (hj : j ≠ 0) :
    isPresent ((hugeMachine word).mem s j) = false := by
  have hzero : (hugeMachine word).mem s j = 0 := hugeMemory_of_ne word s hj
  rw [hzero]
  exact isPresent_zero

section

variable (word : U64)

theorem hugeMachine_pml4 : (hugeMachine word).mem 0x1000 0 = 0x2003 := by
  simp [hugeMachine, hugeMemory]

theorem hugeMachine_pdpt : (hugeMachine word).mem 0x2000 0 = 0x3003 := by
  simp [hugeMachine, hugeMemory]

theorem hugeMachine_pd : (hugeMachine word).mem 0x3000 0 = 0x200083 := by
  simp [hugeMachine, hugeMemory]

theorem table_hugeMachine_pml4 : table (hugeMachine word).mem 0x1000 0 = some 0x2000 := by
  rw [table_eq_some, hugeMachine_pml4]
  decide

theorem table_hugeMachine_pdpt : table (hugeMachine word).mem 0x2000 0 = some 0x3000 := by
  rw [table_eq_some, hugeMachine_pdpt]
  decide

/-- The entry of the huge page leads to no table. -/
theorem table_hugeMachine_pd : table (hugeMachine word).mem 0x3000 0 = none := by
  rw [table_eq_none, hugeMachine_pd]
  decide

theorem hierarchy_hugeMachine : Hierarchy outsideRecursive (hugeMachine word) 0x1000 hugeOwner := by
  have h₁ : InSlots outsideRecursive [] 0 := ⟨by decide, by decide, fun _ => by decide⟩
  have h₂ : InSlots outsideRecursive [0] 0 := ⟨by decide, by decide, nofun⟩
  constructor
  · constructor
    · rintro r rfl
      rfl
    · intro t r p ht
      rcases hugeOwner_cases ht with ⟨-, h⟩ | ⟨-, h⟩ | ⟨-, h⟩ <;> cases h
      · exact ⟨rfl, .nil⟩
      · exact ⟨rfl, .snoc .nil h₁⟩
      · exact ⟨rfl, .snoc (.snoc .nil h₁) h₂⟩
    · intro t r p i u ht _ htable
      have hi : i = 0 := by
        by_contra hi
        rw [table_of_absent (hugeMachine_absent word t hi)] at htable
        cases htable
      subst hi
      rcases hugeOwner_cases ht with ⟨rfl, h⟩ | ⟨rfl, h⟩ | ⟨rfl, h⟩ <;> cases h
      · rw [table_hugeMachine_pml4] at htable
        cases htable
        rfl
      · rw [table_hugeMachine_pdpt] at htable
        cases htable
        rfl
      · rw [table_hugeMachine_pd] at htable
        cases htable
    · intro t r p ht
      rcases hugeOwner_cases ht with ⟨rfl, h⟩ | ⟨rfl, h⟩ | ⟨rfl, h⟩ <;> cases h
      · rfl
      · rw [walk, table_hugeMachine_pml4]
        rfl
      · rw [walk, table_hugeMachine_pml4, Option.bind_some, walk, table_hugeMachine_pdpt]
        rfl
  · intro i _ hpresent
    by_cases hi : i = 0
    · subst hi
      rw [hugeMachine_pml4]
      decide
    · rw [hugeMachine_absent word _ hi] at hpresent
      cases hpresent
  · intro t p i ht hp _ hpresent hhuge
    by_cases hi : i = 0
    · subst hi
      rcases hugeOwner_cases ht with ⟨rfl, h⟩ | ⟨rfl, h⟩ | ⟨rfl, h⟩ <;> cases h
      · exact absurd hp (by decide)
      · rw [hugeMachine_pdpt] at hhuge
        exact absurd hhuge (by decide)
      · rw [hugeMachine_pd]
        decide
    · rw [hugeMachine_absent word t hi] at hpresent
      cases hpresent
  · rintro t n ht ⟨page, hpage, heq⟩
    obtain ⟨hlt, hfree⟩ := Pmm.mem_freeSet.mp hpage
    have hpageOf : Pmm.pageOf t = page := by
      rw [heq, Pmm.pageOf_ofNat hlt]
    have hfive : ∀ page < 5,
        ¬ (⟨fun i => if i = 0 then 0x20 else 0, 1, 1⟩ : Pmm).isFree page = true := by
      decide
    subst hpageOf
    refine hfive _ ?_ hfree
    rcases hugeOwner_cases ht with ⟨rfl, -⟩ | ⟨rfl, -⟩ | ⟨rfl, -⟩ <;> decide

end

/-- To map the second page of the huge page, the huge page is split. -/
theorem splits_hugeMachine : splits (hugeMachine 0) 0x1000 0x1000 = [⟨0x5000, 0x3000, 0⟩] := by
  decide +kernel

/-- The tables lie below the new one. -/
theorem not_hit_hugeMachine (word : U64) (hv : outsideRecursive (pml4Index v)) :
    ¬ Hit [⟨0x5000, 0x3000, 0⟩] (hugeMachine word) 0x1000 v := by
  rintro ⟨x, hx, ⟨y, hy, hin, -⟩, -⟩
  rw [mem_singleton] at hy
  subst hy
  obtain ⟨p₁, p₂, -, hown⟩ := (hierarchy_hugeMachine word).of_mem_trail hv hx
  rcases hugeOwner_cases hown with ⟨hs, -⟩ | ⟨hs, -⟩ | ⟨hs, -⟩ <;> rw [hs] at hin <;>
    exact absurd hin (by decide)

/-- With nothing behind the free page, the second page of the huge page can be remapped. -/
theorem mapPage_touchesOnlyTables_empty :
    TouchesOnlyTables outsideRecursive (hugeMachine 0)
      (after (mapPageWithFlags 0x1000 0x1000 0x9000 7 (hugeMachine 0))) 0x1000 0x1000 := by
  have h := hierarchy_hugeMachine 0
  refine (mapPage_touchesOnlyTables_iff h (by decide) 0x9000 7 false).1.mpr ⟨?_, ?_⟩
  · intro s j _ _
    by_cases hs : ∃ n, hugeOwner s = some n
    · obtain ⟨n, hn⟩ := hs
      right
      rcases hugeOwner_cases hn with ⟨rfl, -⟩ | ⟨rfl, -⟩ | ⟨rfl, -⟩
      · exact ⟨[], nil_prefix, rfl⟩
      · exact ⟨[0], ⟨[0, 0], rfl⟩, rfl⟩
      · exact ⟨[0, 0], ⟨[0], rfl⟩, rfl⟩
    · left
      show hugeMemory 0 s j = 0
      unfold hugeMemory
      split
      · rfl
      · by_cases h₁ : s = 0x1000
        · exact absurd ⟨_, if_pos h₁⟩ hs
        · by_cases h₂ : s = 0x2000
          · exact absurd ⟨_, (if_neg h₁).trans (if_pos h₂)⟩ hs
          · by_cases h₃ : s = 0x3000
            · exact absurd ⟨_, (if_neg h₁).trans ((if_neg h₂).trans (if_pos h₃))⟩ hs
            · rw [if_neg h₁, if_neg h₂, if_neg h₃, ite_self]
  · intro v hv _ _
    rw [splits_hugeMachine]
    exact not_hit_hugeMachine 0 hv

/-- A word of data behind the free page is lost. -/
theorem mapPage_clears_data :
    (hugeMachine 7).mem 0x6000 0 = 7 ∧
      (after (mapPageWithFlags 0x1000 0x1000 0x9000 7 (hugeMachine 7))).mem 0x6000 0 = 0 ∧
      ¬ TouchesOnlyTables outsideRecursive (hugeMachine 7)
        (after (mapPageWithFlags 0x1000 0x1000 0x9000 7 (hugeMachine 7))) 0x1000 0x1000 := by
  have hlost :
      (after (mapPageWithFlags 0x1000 0x1000 0x9000 7 (hugeMachine 7))).mem 0x6000 0 = 0 := by
    decide +kernel
  refine ⟨rfl, hlost, fun htouches => ?_⟩
  have h := hierarchy_hugeMachine 7
  rcases htouches.frame 0x6000 0 (by decide) (by rw [hlost]; decide) with
    ⟨q, hq, hwalk⟩ | ⟨⟨page, hpage, heq⟩, -⟩
  · obtain ⟨rest, hrest⟩ := hq
    have hslot : outsideRecursive (pml4Index 0x1000) := by decide
    have hpath := (innerPath_directory hslot).of_eq_append hrest.symm
    have hown := (h.forest.walk_iff rfl hpath).mp hwalk
    cases hown
  · obtain ⟨hlt, hfree⟩ := Pmm.mem_freeSet.mp hpage
    have hpageOf : Pmm.pageOf 0x6000 = page := by
      rw [heq, Pmm.pageOf_ofNat hlt]
    subst hpageOf
    exact absurd hfree (by decide)

end BeastOs.Vmm
