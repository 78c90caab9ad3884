import BeastOs.Lib.Trail
import BeastOs.Memory.AddressSpace

/-!
# Page-table hierarchies with huge pages

In the kernel half of a page table there are huge pages: an entry of a PDPT may map 1 GiB and an
entry of a PD 2 MiB. A hierarchy is a tree of tables below some slots of a PML4 (`Hierarchy`); the
recursive slot is never one of them, for it leads back to the PML4.

What the processor finds out about a page it reads off the entries on the page's walk (`reading`):
the last of them is the page's leaf, which says where the page is, and the page has a right if all
of them have it.
-/

namespace BeastOs.Vmm

open List Lib PageTableEntry Paging

/-! ## What a walk reads -/

/-- The table that an entry above the last level refers to; a huge page is no table. -/
def table (mem : U64 → Nat → U64) (t : U64) (i : Nat) : Option U64 :=
  if isPresent (mem t i) && !has (mem t i) Flags.hugePage then some (physicalAddress (mem t i))
  else none

/-- The indices on the walk to an address. -/
def path (virt : U64) : List Nat := directory virt ++ [ptIndex virt]

/-- The entries on a walk. -/
def reading (σ : Machine) (t : U64) (p : List Nat) : List U64 :=
  (trail (table σ.mem) t p).map fun x => σ.mem x.1 x.2

/-- The walk has come to the last level or to a huge page. -/
def Complete (es : List U64) : Prop :=
  ∃ e, es.getLast? = some e ∧ (es.length = 4 ∨ isPresent e = true)

/-- The last entry on a walk, with the number of levels that are left below it; an empty entry if
the walk is not complete. -/
def leafOf (es : List U64) : Nat × U64 :=
  match es.getLast? with
  | none => (0, 0)
  | some e => if es.length = 4 ∨ isPresent e then (4 - es.length, e) else (0, 0)

def leaf (σ : Machine) (r virt : U64) : Nat × U64 := leafOf (reading σ r (path virt))

/-- The flag `b` is set in the entry of every level on the walk. -/
structure Granted (b : U64) (σ : Machine) (r virt : U64) : Prop where
  complete : Complete (reading σ r (path virt))
  set : ∀ e ∈ reading σ r (path virt), has e b = true

/-- The part of an address that a page which spans `k` levels leaves alone. -/
def offset (k : Nat) (virt : U64) : U64 := virt &&& BitVec.ofNat 64 (2 ^ (12 + 9 * k) - 1)

/-- Where the leaf of its walk puts an address. -/
def frameOf (virt : U64) (l : Nat × U64) : Option U64 :=
  if isPresent l.2 then some (physicalAddress l.2 + offset l.1 virt) else none

variable {slots : Nat → Prop} {own : U64 → Option (U64 × List Nat)} {σ σ' : Machine}
  {r t u virt f e b : U64} {p q : List Nat} {i j : Nat} {es : List U64} {mem : U64 → Nat → U64}

theorem path_eq_snoc (virt : U64) : path virt = directory virt ++ [ptIndex virt] := rfl

/-- Addresses are of one page if they agree in the bits that the walk looks at. -/
theorem path_eq_iff {a b : U64} :
    path a = path b ↔ a.toNat / 4096 % 2 ^ 36 = b.toNat / 4096 % 2 ^ 36 := by
  have hpath : path a = path b ↔ a.toNat / 2 ^ 39 % 512 = b.toNat / 2 ^ 39 % 512 ∧
      a.toNat / 2 ^ 30 % 512 = b.toNat / 2 ^ 30 % 512 ∧
      a.toNat / 2 ^ 21 % 512 = b.toNat / 2 ^ 21 % 512 ∧
      a.toNat / 2 ^ 12 % 512 = b.toNat / 2 ^ 12 % 512 := by
    unfold path directory pml4Index pdptIndex pdIndex ptIndex
    simp only [toNat_shift_and, cons_append, nil_append, cons.injEq, and_true]
  rw [hpath]
  omega

/-- There is another page in the same page table. -/
theorem path_neighbour (virt : U64) :
    directory (virt ^^^ 0x1000) = directory virt ∧ path (virt ^^^ 0x1000) ≠ path virt := by
  have hsame : ∀ n : Nat, (0x1000 : U64) >>> n = 0#64 → (virt ^^^ 0x1000) >>> n = virt >>> n := by
    intro n hn
    rw [BitVec.ushiftRight_xor_distrib, hn, BitVec.xor_zero]
  constructor
  · unfold directory pml4Index pdptIndex pdIndex
    rw [hsame 39 rfl, hsame 30 rfl, hsame 21 rfl]
  · intro hpath
    have hindex : ptIndex (virt ^^^ 0x1000) = ptIndex virt :=
      singleton_inj.mp (append_inj_right hpath rfl)
    have hbit := congrArg (fun x : U64 => x.getLsbD 0) (BitVec.eq_of_toNat_eq hindex)
    simp only [BitVec.ushiftRight_xor_distrib, BitVec.getLsbD_and, BitVec.getLsbD_xor,
      show ((0x1000 : U64) >>> 12).getLsbD 0 = true from rfl,
      show (0x1FF : U64).getLsbD 0 = true from rfl] at hbit
    cases (virt >>> 12).getLsbD 0 <;> simp at hbit

theorem table_eq_some : table mem t i = some u ↔
    isPresent (mem t i) = true ∧ has (mem t i) Flags.hugePage = false ∧
      physicalAddress (mem t i) = u := by
  unfold table
  cases isPresent (mem t i) <;> cases has (mem t i) Flags.hugePage <;> simp

theorem table_eq_none : table mem t i = none ↔
    (isPresent (mem t i) = true → has (mem t i) Flags.hugePage = true) := by
  unfold table
  cases isPresent (mem t i) <;> cases has (mem t i) Flags.hugePage <;> simp

theorem table_of_absent (h : isPresent (mem t i) = false) : table mem t i = none := by
  refine table_eq_none.mpr fun hpresent => ?_
  rw [h] at hpresent
  cases hpresent

theorem table_congr (h : σ'.mem t i = σ.mem t i) : table σ'.mem t i = table σ.mem t i := by
  unfold table
  rw [h]

section

variable (h : ∀ x ∈ trail (table σ.mem) t p, σ'.mem x.1 x.2 = σ.mem x.1 x.2)
include h

theorem trail_table_congr : trail (table σ'.mem) t p = trail (table σ.mem) t p :=
  trail_congr fun x hx => table_congr (h x hx)

theorem reading_congr : reading σ' t p = reading σ t p := by
  unfold reading
  rw [trail_table_congr h]
  exact map_congr_left h

end

theorem reading_append (h : walk (table σ.mem) t q = some u) (p : List Nat) :
    reading σ t (q ++ p) = reading σ t q ++ reading σ u p := by
  unfold reading
  rw [trail_append h, map_append]

theorem reading_cons_some (h : table σ.mem t i = some u) (p : List Nat) :
    reading σ t (i :: p) = σ.mem t i :: reading σ u p := by
  unfold reading
  rw [trail_cons_some h, map_cons]

theorem reading_cons_none (h : table σ.mem t i = none) (p : List Nat) :
    reading σ t (i :: p) = [σ.mem t i] := by
  unfold reading
  rw [trail_cons_none h]
  rfl

theorem reading_singleton (σ : Machine) (t : U64) (i : Nat) : reading σ t [i] = [σ.mem t i] := by
  unfold reading trail
  cases table σ.mem t i <;> rfl

theorem length_reading_of_walk (h : walk (table σ.mem) t q = some u) :
    (reading σ t q).length = q.length := by
  unfold reading
  rw [length_map, length_trail_of_walk h]

theorem reading_cons_ne_nil (σ : Machine) (t : U64) (i : Nat) (p : List Nat) :
    reading σ t (i :: p) ≠ [] := by
  unfold reading
  rw [trail]
  simp

/-- A walk ends at the first entry that has been cleared. -/
theorem getLast?_reading_cleared (hsame : ∀ s j, σ'.mem s j = σ.mem s j ∨ σ'.mem s j = 0)
    (h : ∃ x ∈ trail (table σ.mem) t p, σ'.mem x.1 x.2 = 0) :
    (reading σ' t p).getLast? = some 0 := by
  obtain ⟨x, hx, hzero⟩ := h
  induction p generalizing t with
  | nil => cases hx
  | cons i p ih =>
    by_cases hti : σ'.mem t i = 0
    · have hnone : table σ'.mem t i = none := by
        apply table_of_absent
        rw [hti]
        exact isPresent_zero
      rw [reading_cons_none hnone, hti]
      rfl
    · have hentry : σ'.mem t i = σ.mem t i := (hsame t i).resolve_right hti
      have hne : x ≠ (t, i) := by
        rintro rfl
        exact hti hzero
      cases hi : table σ.mem t i with
      | none =>
        rw [trail_cons_none hi] at hx
        exact absurd (mem_singleton.mp hx) hne
      | some u =>
        rw [trail_cons_some hi] at hx
        have hlast := ih ((mem_cons.mp hx).resolve_left hne)
        have hrest : reading σ' u p ≠ [] := by
          intro hnil
          rw [hnil] at hlast
          cases hlast
        rw [reading_cons_some ((table_congr hentry).trans hi), getLast?_cons_of_ne_nil hrest]
        exact hlast

/-! ## Leaves -/

theorem leafOf_of_getLast? (h : es.getLast? = some e) :
    leafOf es = if es.length = 4 ∨ isPresent e = true then (4 - es.length, e) else (0, 0) := by
  unfold leafOf
  rw [h]

/-- A walk that ends in an empty entry. -/
theorem leafOf_eq_zero (h : es.getLast? = some 0) : leafOf es = (0, 0) := by
  rw [leafOf_of_getLast? h, isPresent_zero]
  by_cases hlen : es.length = 4 <;> simp [hlen]

theorem leafOf_congr {es' : List U64} (hlast : es'.getLast? = es.getLast?)
    (hlen : es'.length = es.length) : leafOf es' = leafOf es := by
  unfold leafOf
  rw [hlast, hlen]

/-- An entry that is not the last one does not matter. -/
theorem leafOf_middle (es : List U64) (e e' : U64) {es' : List U64} (hne : es' ≠ []) :
    leafOf (es ++ e' :: es') = leafOf (es ++ e :: es') := by
  refine leafOf_congr ?_ (by simp)
  simp only [getLast?_append_of_ne_nil _ (cons_ne_nil _ _), getLast?_cons_of_ne_nil hne]

theorem leafOf_of_complete (h : Complete es) :
    ∃ e, es.getLast? = some e ∧ leafOf es = (4 - es.length, e) := by
  obtain ⟨e, hlast, hend⟩ := h
  refine ⟨e, hlast, ?_⟩
  rw [leafOf_of_getLast? hlast, if_pos hend]

theorem has_zero (b : U64) : has 0 b = false := by
  unfold has flags
  simp

theorem complete_of_has (h : has (leafOf es).2 b = true) : Complete es := by
  cases hlast : es.getLast? with
  | none =>
    unfold leafOf at h
    rw [hlast] at h
    exact absurd h (by rw [has_zero]; decide)
  | some e =>
    refine ⟨e, hlast, ?_⟩
    by_contra hend
    rw [leafOf_of_getLast? hlast, if_neg hend, has_zero] at h
    cases h

/-- The leaf of a page that has a right has it. -/
theorem Granted.leaf (h : Granted b σ r virt) : has (leaf σ r virt).2 b = true := by
  obtain ⟨e, hlast, hleaf⟩ := leafOf_of_complete h.complete
  unfold Vmm.leaf
  rw [hleaf]
  exact h.set e (mem_of_getLast? hlast)

/-- The leaf of a page of 4 KiB. -/
theorem leaf_of_walk (h : walk (table σ.mem) r (directory virt) = some t) :
    leaf σ r virt = (0, σ.mem t (ptIndex virt)) := by
  unfold leaf
  rw [path_eq_snoc, reading_append h, reading_singleton,
    leafOf_of_getLast? (e := σ.mem t (ptIndex virt)) (by simp), length_append,
    length_reading_of_walk h]
  rfl

theorem frameOf_absent (hlast : es.getLast? = some e) (he : isPresent e = false) (virt : U64) :
    frameOf virt (leafOf es) = none := by
  have hzero : frameOf virt (0, 0) = none := rfl
  rw [leafOf_of_getLast? hlast]
  split
  · exact if_neg (by rw [he]; decide)
  · exact hzero

theorem frameOf_present (hlast : es.getLast? = some e) (he : isPresent e = true) (virt : U64) :
    frameOf virt (leafOf es) = some (physicalAddress e + offset (4 - es.length) virt) := by
  rw [leafOf_of_getLast? hlast, if_pos (.inr he)]
  exact if_pos he

/-- `translate` goes by the leaf. -/
theorem translate_eq_frameOf (h : isPresent (σ.mem r (pml4Index virt)) = true →
      has (σ.mem r (pml4Index virt)) Flags.hugePage = false) :
    translate σ r virt = frameOf virt (leaf σ r virt) := by
  have hpath : path virt = [pml4Index virt, pdptIndex virt, pdIndex virt, ptIndex virt] := rfl
  unfold translate leaf
  rw [hpath]
  dsimp only
  cases h₁ : isPresent (σ.mem r (pml4Index virt)) with
  | false =>
    rw [reading_cons_none (table_of_absent h₁), frameOf_absent rfl h₁]
    rfl
  | true =>
    rw [reading_cons_some (table_eq_some.mpr ⟨h₁, h h₁, rfl⟩)]
    generalize physicalAddress (σ.mem r (pml4Index virt)) = pdpt
    cases h₂ : isPresent (σ.mem pdpt (pdptIndex virt)) with
    | false =>
      rw [reading_cons_none (table_of_absent h₂), frameOf_absent rfl h₂]
      rfl
    | true =>
      cases hhuge₂ : has (σ.mem pdpt (pdptIndex virt)) Flags.hugePage with
      | true =>
        rw [reading_cons_none (table_eq_none.mpr fun _ => hhuge₂), frameOf_present rfl h₂]
        rfl
      | false =>
        rw [reading_cons_some (table_eq_some.mpr ⟨h₂, hhuge₂, rfl⟩)]
        generalize physicalAddress (σ.mem pdpt (pdptIndex virt)) = pd
        cases h₃ : isPresent (σ.mem pd (pdIndex virt)) with
        | false =>
          rw [reading_cons_none (table_of_absent h₃), frameOf_absent rfl h₃]
          rfl
        | true =>
          cases hhuge₃ : has (σ.mem pd (pdIndex virt)) Flags.hugePage with
          | true =>
            rw [reading_cons_none (table_eq_none.mpr fun _ => hhuge₃), frameOf_present rfl h₃]
            rfl
          | false =>
            rw [reading_cons_some (table_eq_some.mpr ⟨h₃, hhuge₃, rfl⟩), reading_singleton]
            generalize physicalAddress (σ.mem pd (pdIndex virt)) = pt
            cases h₄ : isPresent (σ.mem pt (ptIndex virt)) with
            | false =>
              rw [frameOf_absent rfl h₄]
              rfl
            | true =>
              rw [frameOf_present rfl h₄]
              rfl

/-! ## Hierarchies -/

/-- The entries above the last level of a tree below some slots of a PML4. -/
def InSlots (slots : Nat → Prop) (p : List Nat) (i : Nat) : Prop :=
  p.length < 3 ∧ i < 512 ∧ (p = [] → slots i)

/-- The tables below the slots of the PML4 `r` form a tree. There are no huge pages of 512 GiB, the
frames of the others lie within physical memory, and no table is a free page. -/
structure Hierarchy (slots : Nat → Prop) (σ : Machine) (r : U64)
    (own : U64 → Option (U64 × List Nat)) : Prop where
  forest : Forest (InSlots slots) (table σ.mem) {r} own
  pml4 : ∀ i, InSlots slots [] i → isPresent (σ.mem r i) = true →
    has (σ.mem r i) Flags.hugePage = false
  fits : ∀ t p i, own t = some (r, p) → 0 < p.length → InSlots slots p i →
    isPresent (σ.mem t i) = true → has (σ.mem t i) Flags.hugePage = true →
      (physicalAddress (σ.mem t i)).toNat + 2 ^ (39 - 9 * p.length) ≤ 2 ^ 52
  not_free : ∀ t n, own t = some n → ¬ Free σ.pmm t

theorem innerPath_directory (hv : slots (pml4Index virt)) :
    InnerPath (InSlots slots) (directory virt) := by
  have h₁ : InnerPath (InSlots slots) ([] ++ [pml4Index virt]) :=
    .snoc .nil ⟨by decide, index_lt virt 39, fun _ => hv⟩
  have h₂ := h₁.snoc (i := pdptIndex virt) ⟨by simp, index_lt virt 30, nofun⟩
  exact h₂.snoc (i := pdIndex virt) ⟨by simp, index_lt virt 21, nofun⟩

section

variable (h : Hierarchy slots σ r own)
include h

theorem Hierarchy.own_root : own r = some (r, []) :=
  h.forest.root r rfl

/-- The tables on the walk to a page. -/
theorem Hierarchy.of_mem_trail (hv : slots (pml4Index virt))
    {x : U64 × Nat} (hx : x ∈ trail (table σ.mem) r (path virt)) :
    ∃ p₁ p₂, path virt = p₁ ++ x.2 :: p₂ ∧ own x.1 = some (r, p₁) :=
  h.forest.of_mem_trail h.own_root ((innerPath_directory hv).innerTo_snoc _) hx

theorem Hierarchy.translate_eq (hv : slots (pml4Index virt)) :
    translate σ r virt = frameOf virt (leaf σ r virt) :=
  translate_eq_frameOf (h.pml4 _ ⟨by decide, index_lt virt 39, fun _ => hv⟩)

/-- The tables on a path of the tree. -/
theorem Hierarchy.of_mem_trail_path (ht : own t = some (r, p)) {x : U64 × Nat}
    (hx : x ∈ trail (table σ.mem) r p) : ∃ p₁ p₂, p = p₁ ++ x.2 :: p₂ ∧ own x.1 = some (r, p₁) :=
  h.forest.of_mem_trail h.own_root ((h.forest.valid t r p ht).2.innerTo) hx

end

end BeastOs.Vmm
