import BeastOs.Memory.Hierarchy

/-!
# Resolving an entry of a hierarchy

On the way to a page, `get_or_create_table` is asked for the table of an entry. It gives the entry
more rights if it refers to a table already, and otherwise puts a new table there: an empty one, or
one that maps what the huge page of the entry mapped.

This is what is meant to happen (`Resolves`): the tables stay a hierarchy, and pages stay where they
are. What each walk reads before and after is said once (`Rereads`). That the code does more to
memory when it splits a huge page is in `BeastOs.Memory.HugePages`.

Main result: `Hierarchy.rereads`.
-/

namespace BeastOs.Vmm

open Function List BitVec Lib PageTableEntry Paging

/-- The entries of the table that replaces a huge page. -/
def splitEntries (stride extra f e : U64) (j : Nat) : U64 :=
  if j < 512 then
    setAddress (physicalAddress e + BitVec.ofNat 64 j * stride)
      (((flags e ||| neededFlags f) &&& ~~~Flags.hugePage) ||| extra)
  else 0

/-- What an entry maps when the huge page at this depth is split: depth 1 is a PDPT, whose pages of
1 GiB become pages of 2 MiB, and depth 2 a PD. -/
def stride (depth : Nat) : U64 := if depth = 1 then 0x200000 else 0x1000

def extra (depth : Nat) : U64 := if depth = 1 then Flags.hugePage else 0

/-- The entries of a new table in the place of the entry `e`. -/
def newEntries (depth : Nat) (f e : U64) : Nat → U64 :=
  if isPresent e then splitEntries (stride depth) (extra depth) f e else fun _ => 0

/-- The machine with a new table `u` at an entry. -/
def install (σ : Machine) (pmm' : Pmm) (u : U64) (entries : Nat → U64) (t : U64) (i : Nat)
    (f : U64) : Machine :=
  write (withEntries { σ with pmm := pmm' } u entries) t i (setAddress u (intermediateFlags f))

/-- The entry `i` of `t` is made to refer to the table `u`. -/
inductive Resolves (f : U64) (depth : Nat) (σ : Machine) (t : U64) (i : Nat) :
    U64 → Machine → Prop
  | keep {u : U64} : table σ.mem t i = some u →
      Resolves f depth σ t i u (write σ t i (widen (σ.mem t i) f))
  | build {u : U64} {pmm' : Pmm} : table σ.mem t i = none → σ.pmm.allocPage = (some u, pmm') →
      Resolves f depth σ t i u (install σ pmm' u (newEntries depth f (σ.mem t i)) t i f)

/-! ## Entries -/

/-- The flags that rights are about. -/
def IsRight (b : U64) : Prop := b = Flags.user ∨ b = Flags.writable

variable {slots : Nat → Prop} {own : U64 → Option (U64 × List Nat)} {σ σ' : Machine}
  {r t u virt f e b : U64} {p q rest : List Nat} {i j depth : Nat} {es : List U64}

theorem IsRight.flag (hb : IsRight b) : ~~~addressMask &&& b = b := by
  rcases hb with rfl | rfl <;> decide

theorem neededFlags_and (hb : IsRight b) : neededFlags f &&& b = f &&& b := by
  unfold neededFlags
  rw [BitVec.and_assoc]
  rcases hb with rfl | rfl <;> rfl

theorem neededFlags_and_eq_zero (hb : (Flags.user ||| Flags.writable) &&& b = 0) :
    neededFlags f &&& b = 0 := by
  unfold neededFlags
  rw [BitVec.and_assoc, hb, and_zero_word]

theorem has_iff (hb : ~~~addressMask &&& b = b) : has e b = true ↔ e &&& b ≠ 0 := by
  unfold has
  rw [flags_and e hb, decide_eq_true_iff]

theorem has_setAddress_iff (addr : U64) (hb : ~~~addressMask &&& b = b) :
    has (setAddress addr f) b = true ↔ f &&& b ≠ 0 := by
  rw [has_setAddress _ _ hb, decide_eq_true_iff]

theorem has_widen_iff (hb : IsRight b) :
    has (widen e f) b = true ↔ has e b = true ∨ has f b = true := by
  unfold widen
  simp only [has_setAddress_iff _ hb.flag, or_and_ne_zero, neededFlags_and hb, has_iff hb.flag,
    flags_and e hb.flag]

theorem has_user_intermediate (u f : U64) :
    has (setAddress u (intermediateFlags f)) Flags.user = true ↔ has f Flags.user = true := by
  rw [has_setAddress_iff _ (by decide), has_iff (by decide)]
  unfold intermediateFlags
  rw [or_and_ne_zero, BitVec.and_assoc, BitVec.and_self]
  exact or_iff_right (by decide)

theorem has_writable_intermediate (u f : U64) :
    has (setAddress u (intermediateFlags f)) Flags.writable = true := by
  rw [has_setAddress_iff _ (by decide), intermediateFlags_and (by decide)]
  decide

/-- The entry of a new table has the rights that the new page needs. -/
theorem has_intermediate (hb : IsRight b) (u : U64) (hf : has f b = true) :
    has (setAddress u (intermediateFlags f)) b = true := by
  rcases hb with rfl | rfl
  · exact (has_user_intermediate u f).mpr hf
  · exact has_writable_intermediate u f

theorem table_intermediate (hu : u &&& addressMask = u) (f : U64) :
    table (write σ t i (setAddress u (intermediateFlags f))).mem t i = some u := by
  rw [table_eq_some, write_self, physicalAddress_setAddress]
  exact ⟨isPresent_intermediate u f, has_hugePage_intermediate u f, hu⟩

theorem table_widen (h : table σ.mem t i = some u) (f : U64) :
    table (write σ t i (widen (σ.mem t i) f)).mem t i = some u := by
  rw [table_eq_some, write_self, isPresent_widen, has_hugePage_widen, physicalAddress_widen]
  exact table_eq_some.mp h

/-! ## Entries of a split page -/

/-- The flags of an entry of a split page, but for `HUGE_PAGE`. -/
theorem splitEntries_and (hj : j < 512) (hb : ~~~addressMask &&& b = b)
    (hb' : Flags.hugePage &&& b = 0) :
    splitEntries (stride depth) (extra depth) f e j &&& b = (e ||| neededFlags f) &&& b := by
  have hextra : extra depth &&& b = 0 := by
    unfold extra
    split
    · exact hb'
    · exact zero_and
  have hmask : ~~~Flags.hugePage &&& b = b := by
    have hsplit : (Flags.hugePage ||| ~~~Flags.hugePage) &&& b = b := by
      rw [show Flags.hugePage ||| ~~~Flags.hugePage = allOnes 64 from by decide, allOnes_and]
    rw [and_or_distrib_right, hb', BitVec.or_comm, or_zero_word] at hsplit
    exact hsplit
  unfold splitEntries
  simp only [if_pos hj, setAddress_and _ _ hb, and_or_distrib_right, hextra, or_zero_word,
    BitVec.and_assoc, hmask, flags_and e hb]

theorem newEntries_absent (he : isPresent e = false) : newEntries depth f e = fun _ => 0 := by
  unfold newEntries
  rw [he]
  rfl

section

variable (he : isPresent e = true)
include he

theorem newEntries_present : newEntries depth f e = splitEntries (stride depth) (extra depth) f e :=
  if_pos he

theorem isPresent_newEntries (hj : j < 512) : isPresent (newEntries depth f e j) = true := by
  rw [newEntries_present he, ← he]
  unfold isPresent
  rw [splitEntries_and hj (by decide) (by decide), and_or_distrib_right,
    neededFlags_and_eq_zero (by decide), or_zero_word]

theorem has_newEntries_iff (hj : j < 512) (hb : IsRight b) :
    has (newEntries depth f e j) b = true ↔ has e b = true ∨ has f b = true := by
  have hhuge : Flags.hugePage &&& b = 0 := by
    rcases hb with rfl | rfl <;> decide
  simp only [newEntries_present he, has_iff hb.flag, splitEntries_and hj hb.flag hhuge,
    or_and_ne_zero, neededFlags_and hb]

theorem has_hugePage_newEntries (hj : j < 512) :
    has (newEntries 1 f e j) Flags.hugePage = true := by
  rw [newEntries_present he]
  unfold splitEntries
  rw [if_pos hj, has_setAddress_iff _ (by decide), or_and_ne_zero]
  exact .inr (by decide)

end

theorem physicalAddress_mod (e : U64) : (physicalAddress e).toNat % 4096 = 0 := by
  have hlow : physicalAddress e &&& 0xFFF = 0 := by
    unfold physicalAddress
    rw [BitVec.and_assoc, show addressMask &&& 0xFFF = 0 from by decide, and_zero_word]
  have hnat := congrArg BitVec.toNat hlow
  rw [toNat_and, show (0xFFF : U64).toNat = 2 ^ 12 - 1 from rfl,
    Nat.and_two_pow_sub_one_eq_mod] at hnat
  exact hnat

/-- The frames of a split page lie one after the other. -/
theorem toNat_frame {n : Nat} (hj : j < 512)
    (hfits : (physicalAddress e).toNat + 2 ^ (n + 9) ≤ 2 ^ 52) :
    (physicalAddress e + BitVec.ofNat 64 j * BitVec.ofNat 64 (2 ^ n)).toNat =
        (physicalAddress e).toNat + j * 2 ^ n ∧
      (physicalAddress e).toNat + j * 2 ^ n + 2 ^ n ≤ 2 ^ 52 := by
  have hpow : (2 : Nat) ^ (n + 9) = 512 * 2 ^ n := by
    rw [Nat.pow_add, Nat.mul_comm]
  have hle : (j + 1) * 2 ^ n ≤ 512 * 2 ^ n := Nat.mul_le_mul_right _ hj
  rw [Nat.add_mul, Nat.one_mul] at hle
  have hpos := Nat.two_pow_pos n
  have hmul : (BitVec.ofNat 64 j * BitVec.ofNat 64 (2 ^ n)).toNat = j * 2 ^ n := by
    rw [← ofNat_mul, toNat_ofNat, Nat.mod_eq_of_lt]
    omega
  refine ⟨?_, by omega⟩
  rw [toNat_add, hmul, Nat.mod_eq_of_lt]
  omega

theorem physicalAddress_splitEntries {n : Nat} {extra : U64} (hn : 12 ≤ n) (hj : j < 512)
    (hfits : (physicalAddress e).toNat + 2 ^ (n + 9) ≤ 2 ^ 52) :
    physicalAddress (splitEntries (BitVec.ofNat 64 (2 ^ n)) extra f e j) =
      physicalAddress e + BitVec.ofNat 64 j * BitVec.ofNat 64 (2 ^ n) := by
  obtain ⟨hframe, hle⟩ := toNat_frame hj hfits
  have hpos := Nat.two_pow_pos n
  unfold splitEntries
  rw [if_pos hj, physicalAddress_setAddress]
  refine and_addressMask_of_lt ?_ (by rw [hframe]; omega)
  obtain ⟨k, rfl⟩ := Nat.exists_eq_add_of_le hn
  rw [hframe, pow_add, show (2 : Nat) ^ 12 = 4096 from rfl, mul_left_comm,
    Nat.add_mul_mod_self_left]
  exact physicalAddress_mod e

/-- An entry of a page split at depth 1 or 2 maps its part of the page. -/
theorem physicalAddress_newEntries (he : isPresent e = true) (hj : j < 512)
    (hdepth : depth = 1 ∨ depth = 2)
    (hfits : (physicalAddress e).toNat + 2 ^ (39 - 9 * depth) ≤ 2 ^ 52) :
    (physicalAddress (newEntries depth f e j)).toNat =
        (physicalAddress e).toNat + j * 2 ^ (30 - 9 * depth) ∧
      (physicalAddress (newEntries depth f e j)).toNat + 2 ^ (30 - 9 * depth) ≤ 2 ^ 52 := by
  have hstride : stride depth = BitVec.ofNat 64 (2 ^ (30 - 9 * depth)) := by
    rcases hdepth with rfl | rfl <;> rfl
  have hsum : 39 - 9 * depth = 30 - 9 * depth + 9 := by omega
  rw [hsum] at hfits
  obtain ⟨hframe, hle⟩ := toNat_frame hj hfits
  rw [newEntries_present he, hstride, physicalAddress_splitEntries (by omega) hj hfits, hframe]
  exact ⟨rfl, hle⟩

/-! ## The hierarchy is kept -/

theorem Hierarchy.fresh {pmm' : Pmm} (h : Hierarchy slots σ r own)
    (halloc : σ.pmm.allocPage = (some u, pmm')) : own u = none := by
  cases hn : own u with
  | none => rfl
  | some n => exact absurd (free_of_allocPage halloc).1 (h.not_free u n hn)

theorem install_self (σ : Machine) (pmm' : Pmm) (entries : Nat → U64) (i : Nat) (f : U64)
    (hut : u ≠ t) : (install σ pmm' u entries t i f).mem u = entries := by
  unfold install
  rw [write_table_of_ne _ _ _ hut]
  exact update_self _ _ _

theorem install_of_ne (σ : Machine) (pmm' : Pmm) (entries : Nat → U64) (f : U64) {s : U64}
    (hs : s ≠ u) (hsj : ¬ (s = t ∧ j = i)) :
    (install σ pmm' u entries t i f).mem s j = σ.mem s j := by
  unfold install
  rw [write_of_ne _ _ hsj, withEntries_of_ne _ hs]

theorem install_entry (σ : Machine) (pmm' : Pmm) (u : U64) (entries : Nat → U64) (t : U64) (i : Nat)
    (f : U64) : (install σ pmm' u entries t i f).mem t i = setAddress u (intermediateFlags f) :=
  write_self _ _ _ _

section

variable (h : Hierarchy slots σ r own)
include h

theorem Hierarchy.keep (htable : table σ.mem t i = some u)
    (f : U64) : Hierarchy slots (write σ t i (widen (σ.mem t i) f)) r own := by
  have hentry : ∀ s j, ¬ (s = t ∧ j = i) →
      (write σ t i (widen (σ.mem t i) f)).mem s j = σ.mem s j := fun s j => write_of_ne σ _
  obtain ⟨hpresent, hnothuge, -⟩ := table_eq_some.mp htable
  constructor
  · refine h.forest.congr fun s _ _ j _ _ => ?_
    by_cases hsj : s = t ∧ j = i
    · obtain ⟨rfl, rfl⟩ := hsj
      rw [table_widen htable, htable]
    · exact table_congr (hentry s j hsj)
  · intro j hj hp
    by_cases hsj : r = t ∧ j = i
    · obtain ⟨rfl, rfl⟩ := hsj
      rw [write_self, has_hugePage_widen]
      exact hnothuge
    · rw [hentry r j hsj] at hp ⊢
      exact h.pml4 j hj hp
  · intro s q j hs hq hj hp hhuge
    by_cases hsj : s = t ∧ j = i
    · obtain ⟨rfl, rfl⟩ := hsj
      rw [write_self, has_hugePage_widen, hnothuge] at hhuge
      cases hhuge
    · rw [hentry s j hsj] at hp hhuge ⊢
      exact h.fits s q j hs hq hj hp hhuge
  · exact h.not_free

section

variable (ht : own t = some (r, p)) (hi : InSlots slots p i) (hnone : table σ.mem t i = none)
include ht hi hnone

/-- An entry above the last level that is present and no table is a huge page at depth 1 or 2. -/
theorem Hierarchy.depth_of_huge (hpresent : isPresent (σ.mem t i) = true) :
    has (σ.mem t i) Flags.hugePage = true ∧ (p.length = 1 ∨ p.length = 2) := by
  have hhuge := table_eq_none.mp hnone hpresent
  refine ⟨hhuge, ?_⟩
  have hne : p.length ≠ 0 := by
    intro hzero
    have hnil := length_eq_zero_iff.mp hzero
    subst hnil
    have hrt : r = t := by
      have hreached := h.forest.reached t r [] ht
      exact Option.some.inj hreached
    subst hrt
    rw [h.pml4 i hi hpresent] at hhuge
    cases hhuge
  have hlt := hi.1
  omega

/-- New tables refer to no table yet. -/
theorem Hierarchy.table_newEntries (hj : j < 512) (hp : p.length < 2) {mem : U64 → Nat → U64}
    (hmem : mem u j = newEntries p.length f (σ.mem t i) j) : table mem u j = none := by
  cases hpresent : isPresent (σ.mem t i) with
  | false =>
    apply table_of_absent
    rw [hmem, newEntries_absent hpresent]
    exact isPresent_zero
  | true =>
    obtain ⟨-, hdepth⟩ := h.depth_of_huge ht hi hnone hpresent
    have hone : p.length = 1 := by omega
    refine table_eq_none.mpr fun _ => ?_
    rw [hmem, hone]
    exact has_hugePage_newEntries hpresent hj

theorem Hierarchy.build {pmm' : Pmm} (halloc : σ.pmm.allocPage = (some u, pmm')) (f : U64) :
    Hierarchy slots (install σ pmm' u (newEntries p.length f (σ.mem t i)) t i f) r
      (update own u (some (r, p ++ [i]))) := by
  have hown := h.fresh halloc
  obtain ⟨-, hu, hfree⟩ := free_of_allocPage halloc
  have hut : u ≠ t := (Forest.ne_of_own ht hown).symm
  have hself := install_self σ pmm' (newEntries p.length f (σ.mem t i)) i f hut
  have hentry : ∀ s j, s ≠ u → ¬ (s = t ∧ j = i) →
      (install σ pmm' u (newEntries p.length f (σ.mem t i)) t i f).mem s j = σ.mem s j :=
    fun s j => install_of_ne σ pmm' _ f
  constructor
  · refine h.forest.graft hown ht hi hnone (table_intermediate hu f) ?_ ?_
    · intro j hj
      have hlt : p.length < 2 := by
        have := hj.1
        rw [length_append, length_singleton] at this
        omega
      exact h.table_newEntries ht hi hnone hj.2.1 hlt (congrFun hself j)
    · intro s r' q j hs _ hsj
      exact table_congr (hentry s j (Forest.ne_of_own hs hown) hsj)
  · intro j hj hp
    by_cases hsj : r = t ∧ j = i
    · obtain ⟨rfl, rfl⟩ := hsj
      rw [install_entry]
      exact has_hugePage_intermediate u f
    · rw [hentry r j (Forest.ne_of_own h.own_root hown) hsj] at hp ⊢
      exact h.pml4 j hj hp
  · intro s q j hs hq hj hp hhuge
    rcases update_eq_some hs with ⟨rfl, heq⟩ | ⟨hsu, hold⟩
    · -- a part of a page of 1 GiB
      cases heq
      rw [hself] at hp hhuge ⊢
      have hlen := hj.1
      have hpresent : isPresent (σ.mem t i) = true := by
        by_contra habsent
        rw [newEntries_absent (Bool.eq_false_iff.mpr habsent), isPresent_zero] at hp
        cases hp
      obtain ⟨hhuge', hdepth⟩ := h.depth_of_huge ht hi hnone hpresent
      have hfits := (physicalAddress_newEntries (f := f) hpresent hj.2.1 hdepth
        (h.fits t p i ht (by omega) hi hpresent hhuge')).2
      rw [length_append, length_singleton]
      have hexp : 39 - 9 * (p.length + 1) = 30 - 9 * p.length := by omega
      rw [hexp]
      exact hfits
    · by_cases hsj : s = t ∧ j = i
      · obtain ⟨rfl, rfl⟩ := hsj
        rw [install_entry, has_hugePage_intermediate] at hhuge
        cases hhuge
      · rw [hentry s j hsu hsj] at hp hhuge ⊢
        exact h.fits s q j hold hq hj hp hhuge
  · intro s n hs hsfree
    by_cases hsu : s = u
    · exact (hfree s hsfree).2 hsu
    · rw [update_of_ne hsu] at hs
      exact h.not_free s n hs (hfree s hsfree).1

end

end

/-! ## What walks read -/

/-- The walk to the address passes the entry `i` of the table at the end of the path `p`. -/
def Passes (p : List Nat) (i : Nat) (virt : U64) : Prop := ∃ rest, path virt = p ++ i :: rest

/-- What the walk to a page reads before and after the entry `i` of the table `t`, which is at the
end of the path `p`, has been resolved. -/
inductive Rereads (f : U64) (σ σ' : Machine) (r t : U64) (p : List Nat) (i : Nat) (u virt : U64) :
    Prop
  | same : ¬ Passes p i virt →
      trail (table σ'.mem) r (path virt) = trail (table σ.mem) r (path virt) →
      reading σ' r (path virt) = reading σ r (path virt) → Rereads f σ σ' r t p i u virt
  | widened {es : List U64} : Passes p i virt → es ≠ [] →
      trail (table σ'.mem) r (path virt) = trail (table σ.mem) r (path virt) →
      reading σ r (path virt) = reading σ r p ++ σ.mem t i :: es →
      reading σ' r (path virt) = reading σ r p ++ widen (σ.mem t i) f :: es →
      Rereads f σ σ' r t p i u virt
  | extended {j : Nat} {rest : List Nat} : path virt = p ++ i :: j :: rest →
      table σ.mem t i = none →
      trail (table σ'.mem) r (path virt) = trail (table σ.mem) r (path virt) ++ [(u, j)] →
      reading σ r (path virt) = reading σ r p ++ [σ.mem t i] →
      reading σ' r (path virt) = reading σ r p ++
        [setAddress u (intermediateFlags f), newEntries p.length f (σ.mem t i) j] →
      Rereads f σ σ' r t p i u virt

/-- Tables of the hierarchy have changed at one entry only. -/
def SameBut (own : U64 → Option (U64 × List Nat)) (t : U64) (i : Nat) (σ σ' : Machine) : Prop :=
  ∀ s n j, own s = some n → ¬ (s = t ∧ j = i) → σ'.mem s j = σ.mem s j

theorem length_path (virt : U64) : (path virt).length = 4 := rfl

theorem lt_of_mem_path (h : i ∈ path virt) : i < 512 := by
  have hpath : path virt = [pml4Index virt, pdptIndex virt, pdIndex virt, ptIndex virt] := rfl
  rw [hpath] at h
  simp only [mem_cons, not_mem_nil, or_false] at h
  rcases h with rfl | rfl | rfl | rfl
  · exact index_lt virt 39
  · exact index_lt virt 30
  · exact index_lt virt 21
  · exact index_lt virt 12

section

variable (h : Hierarchy slots σ r own)
include h

variable (ht : own t = some (r, p)) (hsame : SameBut own t i σ σ')

include ht hsame in
/-- The way to the entry itself is as it was. -/
theorem Hierarchy.before :
    ∀ x ∈ trail (table σ.mem) r p, σ'.mem x.1 x.2 = σ.mem x.1 x.2 := by
  intro x hx
  obtain ⟨p₁, p₂, hp, hown⟩ := h.of_mem_trail_path ht hx
  refine hsame x.1 _ x.2 hown ?_
  rintro ⟨hxt, -⟩
  rw [hxt, ht] at hown
  cases hown
  have hlen := congrArg length hp
  rw [length_append, length_cons] at hlen
  omega

theorem Hierarchy.sameBut (hstep : Resolves f depth σ t i u σ') : SameBut own t i σ σ' := by
  intro s n j hs hsj
  cases hstep with
  | keep _ => exact write_of_ne σ _ hsj
  | build _ halloc => exact install_of_ne _ _ _ _ (Forest.ne_of_own hs (h.fresh halloc)) hsj

include ht hsame in
theorem Hierarchy.walk_before
    : walk (table σ'.mem) r p = some t := by
  rw [walk_congr_trail fun x hx => table_congr (h.before ht hsame x hx)]
  exact h.forest.reached t r p ht

include ht hsame in
theorem Hierarchy.reading_snoc :
    reading σ' r (p ++ [i]) = reading σ r p ++ [σ'.mem t i] := by
  rw [reading_append (h.walk_before ht hsame), reading_congr (h.before ht hsame), reading_singleton]

include ht in
theorem Hierarchy.not_passes
    (hv : slots (pml4Index virt)) (hsame : SameBut own t i σ σ') (hpasses : ¬ Passes p i virt) :
    ∀ x ∈ trail (table σ.mem) r (path virt), σ'.mem x.1 x.2 = σ.mem x.1 x.2 := by
  intro x hx
  obtain ⟨p₁, p₂, hp, hown⟩ := h.of_mem_trail hv hx
  refine hsame x.1 _ x.2 hown ?_
  rintro ⟨hxt, hxi⟩
  rw [hxt, ht] at hown
  cases hown
  exact hpasses ⟨p₂, hxi ▸ hp⟩

end

/-- The way on from the entry is as it was. -/
theorem Hierarchy.behind (h : Hierarchy slots σ r own) (ht : own t = some (r, p))
    (hv : slots (pml4Index virt)) (hi : InSlots slots p i) (htable : table σ.mem t i = some u)
    (hsame : SameBut own t i σ σ') (hpath : path virt = p ++ i :: rest) :
    ∀ x ∈ trail (table σ.mem) u rest, σ'.mem x.1 x.2 = σ.mem x.1 x.2 := by
  intro x hx
  have hinner := (innerPath_directory hv).innerTo_snoc (ptIndex virt)
  rw [show directory virt ++ [ptIndex virt] = path virt from rfl, hpath] at hinner
  obtain ⟨p₁, p₂, -, hown⟩ := h.forest.of_mem_trail (h.forest.owned t r p i u ht hi htable)
    hinner.of_append hx
  refine hsame x.1 _ x.2 hown ?_
  rintro ⟨hxt, -⟩
  rw [hxt, ht] at hown
  have hlen := congrArg length (congrArg Prod.snd (Option.some.inj hown))
  simp at hlen

/-- Paths go on behind an entry above the last level. -/
theorem InSlots.exists_cons (hi : InSlots slots p i) (hpath : path virt = p ++ i :: rest) :
    ∃ j rest', rest = j :: rest' := by
  cases rest with
  | nil =>
    have hlen := congrArg length hpath
    rw [length_path, length_append, length_singleton] at hlen
    have hlt := hi.1
    omega
  | cons j rest => exact ⟨j, rest, rfl⟩

section

variable (h : Hierarchy slots σ r own) (ht : own t = some (r, p)) (hi : InSlots slots p i)
include h ht hi

/-- A walk ends in a table that has just been built. -/
theorem Hierarchy.trail_newEntries (hnone : table σ.mem t i = none)
    (hpath : path virt = p ++ i :: j :: rest)
    {mem : U64 → Nat → U64} (hmem : mem u = newEntries p.length f (σ.mem t i)) :
    trail (table mem) u (j :: rest) = [(u, j)] := by
  cases rest with
  | nil =>
    unfold trail
    cases table mem u j <;> rfl
  | cons k rest =>
    have hj : j < 512 := by
      have hin : j ∈ path virt := by simp [hpath]
      exact lt_of_mem_path hin
    refine trail_cons_none (h.table_newEntries ht hi hnone hj ?_ (congrFun hmem j)) _
    have hlen := congrArg length hpath
    rw [length_path, length_append] at hlen
    simp only [length_cons] at hlen
    omega

/-- **What walks read** before and after an entry is resolved. -/
theorem Hierarchy.rereads (hstep : Resolves f p.length σ t i u σ')
    (hv : slots (pml4Index virt)) : Rereads f σ σ' r t p i u virt := by
  have hsame := h.sameBut hstep
  by_cases hpasses : Passes p i virt
  · obtain ⟨rest, hpath⟩ := hpasses
    have hbefore := h.before ht hsame
    have hwalk := h.forest.reached t r p ht
    have hwalk' := h.walk_before ht hsame
    have hread : reading σ r (path virt) = reading σ r p ++ reading σ t (i :: rest) := by
      rw [hpath, reading_append hwalk]
    have hread' : reading σ' r (path virt) = reading σ r p ++ reading σ' t (i :: rest) := by
      rw [hpath, reading_append hwalk', reading_congr hbefore]
    have htrail : trail (table σ.mem) r (path virt) =
        trail (table σ.mem) r p ++ trail (table σ.mem) t (i :: rest) := by
      rw [hpath, trail_append hwalk]
    have htrail' : trail (table σ'.mem) r (path virt) =
        trail (table σ.mem) r p ++ trail (table σ'.mem) t (i :: rest) := by
      rw [hpath, trail_append hwalk', trail_table_congr hbefore]
    obtain ⟨j, rest, rfl⟩ := hi.exists_cons hpath
    cases hstep with
    | keep htable =>
      have hbehind := h.behind ht hv hi htable hsame hpath
      have htable' := table_widen htable f
      refine .widened ⟨_, hpath⟩ (reading_cons_ne_nil σ u j rest) ?_ ?_ ?_
      · rw [htrail, htrail', trail_cons_some htable, trail_cons_some htable',
          trail_table_congr hbehind]
      · rw [hread, reading_cons_some htable]
      · rw [hread', reading_cons_some htable', reading_congr hbehind, write_self]
    | @build pmm' hnone halloc =>
      have hut : u ≠ t := (Forest.ne_of_own ht (h.fresh halloc)).symm
      have hself := install_self σ pmm' (newEntries p.length f (σ.mem t i)) i f hut
      have hentry := install_entry σ pmm' u (newEntries p.length f (σ.mem t i)) t i f
      have htable' : table (install σ pmm' u (newEntries p.length f (σ.mem t i)) t i f).mem t i =
          some u := table_intermediate (free_of_allocPage halloc).2.1 f
      have hend := h.trail_newEntries ht hi hnone hpath hself
      refine .extended hpath hnone ?_ ?_ ?_
      · rw [htrail, htrail', trail_cons_none hnone, trail_cons_some htable', hend,
          List.append_assoc, List.singleton_append]
      · rw [hread, reading_cons_none hnone]
      · rw [hread', reading_cons_some htable', hentry]
        unfold reading
        rw [hend, List.map_singleton, hself]
  · have hmem := h.not_passes ht hv hsame hpasses
    exact .same hpasses (trail_table_congr hmem) (reading_congr hmem)

end

end BeastOs.Vmm
