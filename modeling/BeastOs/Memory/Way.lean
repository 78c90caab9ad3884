import BeastOs.Memory.Resolve

/-!
# The way to a page

To map a page, the entries on the way to its page table are resolved one after the other (`Way`).
Whatever is met on the way, the tables stay a hierarchy, all pages stay where they are, and only the
entries passed and the new tables are written (`Reached`).

Main result: `Way.reached`.
-/

namespace BeastOs.Vmm

open List Function Lib PageTableEntry Paging

/-- A table `new` has been put in the place of a huge page. -/
structure Split where
  new : U64
  parent : U64
  index : Nat
  deriving DecidableEq

/-- What has happened on the way so far: only tables that were there have been passed, or empty
tables have been built, or huge pages have been split. -/
inductive Phase
  | old
  | empty
  | split
  deriving DecidableEq

/-- The entries of the path `p` have been resolved, which has led to the table `t`. -/
inductive Way (f r : U64) (σ : Machine) :
    Phase → List Nat → U64 → Machine → List Split → Prop
  | start : Way f r σ .old [] r σ []
  | keep {p : List Nat} {t : U64} {σ' : Machine} {i : Nat} {u : U64} :
      Way f r σ .old p t σ' [] → table σ'.mem t i = some u →
      Way f r σ .old (p ++ [i]) u (write σ' t i (widen (σ'.mem t i) f)) []
  | create {ph : Phase} {p : List Nat} {t : U64} {σ' : Machine} {i : Nat} {u : U64} {pmm' : Pmm} :
      Way f r σ ph p t σ' [] → ph ≠ .split → isPresent (σ'.mem t i) = false →
      σ'.pmm.allocPage = (some u, pmm') →
      Way f r σ .empty (p ++ [i]) u
        (install σ' pmm' u (newEntries p.length f (σ'.mem t i)) t i f) []
  | split {ph : Phase} {p : List Nat} {t : U64} {σ' : Machine} {S : List Split} {i : Nat} {u : U64}
      {pmm' : Pmm} : Way f r σ ph p t σ' S → ph ≠ .empty → isPresent (σ'.mem t i) = true →
      table σ'.mem t i = none → σ'.pmm.allocPage = (some u, pmm') →
      Way f r σ .split (p ++ [i]) u
        (install σ' pmm' u (newEntries p.length f (σ'.mem t i)) t i f) (S ++ [⟨u, t, i⟩])

variable {slots : Nat → Prop} {own own' : U64 → Option (U64 × List Nat)} {σ σ' σ'' : Machine}
  {r t u virt f e b s : U64} {p q : List Nat} {i j : Nat} {es : List U64} {S : List Split}
  {ph : Phase} {pmm' pmm : Pmm}

/-! ## Pages stay where they are -/

/-- The part of an address below level `k`, split at the next level. -/
theorem toNat_offset (k : Nat) (virt : U64) (hk : k < 5) :
    (offset k virt).toNat = virt.toNat % 2 ^ (12 + 9 * k) := by
  unfold offset
  have hpow : (2 : Nat) ^ (12 + 9 * k) ≤ 2 ^ 64 := Nat.pow_le_pow_right (by decide) (by omega)
  have hpos := Nat.two_pow_pos (12 + 9 * k)
  rw [BitVec.toNat_and, BitVec.toNat_ofNat, Nat.mod_eq_of_lt (by omega),
    Nat.and_two_pow_sub_one_eq_mod]

/-- The index of an address at a depth. -/
theorem index_of_path {rest : List Nat} (hpath : path virt = p ++ i :: j :: rest)
    (hp : p.length = 1 ∨ p.length = 2) : j = virt.toNat / 2 ^ (30 - 9 * p.length) % 512 := by
  have hj : (path virt)[p.length + 1]? = some j := by
    rw [hpath, getElem?_append_right (Nat.le_succ _)]
    simp
  rcases hp with hp | hp
  · rw [hp] at hj ⊢
    have heq : pdIndex virt = j := Option.some.inj hj
    rw [← heq]
    exact toNat_shift_and virt 21
  · rw [hp] at hj ⊢
    have heq : ptIndex virt = j := Option.some.inj hj
    rw [← heq]
    exact toNat_shift_and virt 12

/-- The parts of a split page are where they were. -/
theorem frame_split (virt f : U64) {d : Nat} (hd : d = 1 ∨ d = 2) (hpresent : isPresent e = true)
    (hfits : (physicalAddress e).toNat + 2 ^ (39 - 9 * d) ≤ 2 ^ 52) :
    physicalAddress (newEntries d f e (virt.toNat / 2 ^ (30 - 9 * d) % 512)) +
        offset (2 - d) virt = physicalAddress e + offset (3 - d) virt := by
  obtain ⟨haddr, -⟩ := physicalAddress_newEntries (f := f) hpresent
    (Nat.mod_lt (virt.toNat / 2 ^ (30 - 9 * d)) (by decide)) hd hfits
  have hlow := toNat_offset (2 - d) virt (by omega)
  have hhigh := toNat_offset (3 - d) virt (by omega)
  rw [show 12 + 9 * (2 - d) = 30 - 9 * d by omega] at hlow
  rw [show 12 + 9 * (3 - d) = 30 - 9 * d + 9 by omega, pow_add, Nat.mod_mul,
    show (2 : Nat) ^ 9 = 512 from rfl, mul_comm (2 ^ _)] at hhigh
  apply BitVec.eq_of_toNat_eq
  simp only [BitVec.toNat_add, haddr, hlow, hhigh, add_comm (virt.toNat % _), ← add_assoc]

/-- **Resolving an entry moves no page.** -/
theorem Hierarchy.frameOf_resolves (h : Hierarchy slots σ r own) (ht : own t = some (r, p))
    (hi : InSlots slots p i) (hstep : Resolves f p.length σ t i u σ')
    (hv : slots (pml4Index virt)) :
    frameOf virt (leaf σ' r virt) = frameOf virt (leaf σ r virt) := by
  unfold leaf
  cases h.rereads ht hi hstep hv with
  | same _ _ hread => rw [hread]
  | @widened es _ hes _ hread hread' =>
    rw [hread, hread']
    exact congrArg _ (leafOf_middle _ _ _ hes)
  | @extended j rest hpath hnone _ hread hread' =>
    have hlen := length_reading_of_walk (h.forest.reached t r p ht)
    have hlast : ∀ a b : U64, (reading σ r p ++ [a, b]).getLast? = some b := by simp
    have hlast' : ∀ a : U64, (reading σ r p ++ [a]).getLast? = some a := by simp
    rw [hread, hread']
    cases hpresent : isPresent (σ.mem t i) with
    | false =>
      rw [frameOf_absent (hlast' _) hpresent, frameOf_absent (hlast _ _)]
      rw [newEntries_absent hpresent]
      exact isPresent_zero
    | true =>
      obtain ⟨hhuge, hdepth⟩ := h.depth_of_huge ht hi hnone hpresent
      have hj : j < 512 := by
        have hmem : j ∈ path virt := by simp [hpath]
        exact lt_of_mem_path hmem
      rw [frameOf_present (hlast' _) hpresent,
        frameOf_present (hlast _ _) (isPresent_newEntries hpresent hj),
        index_of_path hpath hdepth]
      have hfits := h.fits t p i ht (by omega) hi hpresent hhuge
      have hframe := frame_split virt f hdepth hpresent hfits
      have hlen₁ : 4 - (reading σ r p ++ [σ.mem t i]).length = 3 - p.length := by
        rw [length_append, hlen, length_singleton]
        omega
      rw [hlen₁, ← hframe]
      congr 3
      simp only [length_append, length_cons, length_nil, hlen]
      omega

/-! ## What is written on the way -/

/-- What holds when the path `p` has led to the table `t`. -/
structure Reached (slots : Nat → Prop) (r : U64) (σ : Machine)
    (own : U64 → Option (U64 × List Nat)) (p : List Nat) (t : U64) (σ' : Machine)
    (own' : U64 → Option (U64 × List Nat)) : Prop where
  hierarchy : Hierarchy slots σ' r own'
  at_path : own' t = some (r, p)
  own_le : ∀ s n, own s = some n → own' s = some n
  new_free : ∀ s n, own s = none → own' s = some n → Free σ.pmm s
  allocated : ∀ s, Free σ.pmm s → Free σ'.pmm s ∨ ∃ n, own' s = some n
  frame : ∀ s j, σ'.mem s j ≠ σ.mem s j → ∃ q, own' s = some (r, q) ∧ q <+: p
  free_le : σ'.pmm.freeSet ⊆ σ.pmm.freeSet
  taken : (σ.pmm.freeSet \ σ'.pmm.freeSet).card ≤ p.length
  trails : ∀ virt, slots (pml4Index virt) → ∃ new, trail (table σ'.mem) r (path virt) =
    trail (table σ.mem) r (path virt) ++ new ∧ ∀ x ∈ new, own x.1 = none
  frames : ∀ virt, slots (pml4Index virt) →
    frameOf virt (leaf σ' r virt) = frameOf virt (leaf σ r virt)

theorem Free.mono (hle : pmm'.freeSet ⊆ pmm.freeSet) (h : Free pmm' t) :
    Free pmm t := by
  obtain ⟨page, hpage, heq⟩ := h
  exact ⟨page, hle hpage, heq⟩

theorem Hierarchy.reached (h : Hierarchy slots σ r own) : Reached slots r σ own [] r σ own where
  hierarchy := h
  at_path := h.own_root
  own_le := fun _ _ hs => hs
  new_free := by
    intro s n hnone hsome
    rw [hnone] at hsome
    cases hsome
  allocated := fun _ hs => Or.inl hs
  frame := fun s j hne => absurd rfl hne
  free_le := Finset.Subset.refl _
  taken := by rw [Finset.sdiff_self, Finset.card_empty]; exact Nat.zero_le _
  trails := fun virt _ => ⟨[], (append_nil _).symm, nofun⟩
  frames := fun _ _ => rfl

/-- The pages taken in two steps. -/
theorem card_taken_le {A B C : Finset Nat} {m n : Nat} (h₁ : (A \ B).card ≤ m)
    (h₂ : (B \ C).card ≤ n) : (A \ C).card ≤ m + n := by
  have hsub : A \ C ⊆ (A \ B) ∪ (B \ C) := by
    intro x hx
    rw [Finset.mem_sdiff] at hx
    simp only [Finset.mem_union, Finset.mem_sdiff]
    by_cases hB : x ∈ B
    · exact .inr ⟨hB, hx.2⟩
    · exact .inl ⟨hx.1, hB⟩
  exact Nat.le_trans (Finset.card_le_card hsub)
    (Nat.le_trans (Finset.card_union_le _ _) (Nat.add_le_add h₁ h₂))

theorem allocPage_taken (h : pmm.allocPage = (some u, pmm')) :
    pmm'.freeSet ⊆ pmm.freeSet ∧ (pmm.freeSet \ pmm'.freeSet).card ≤ 1 := by
  obtain ⟨page, -, -, rfl⟩ := Pmm.allocPage_eq_some h
  rw [Pmm.freeSet_take]
  refine ⟨Finset.erase_subset _ _, ?_⟩
  have hsub : pmm.freeSet \ pmm.freeSet.erase page ⊆ {page} := by
    intro x hx
    rw [Finset.mem_sdiff, Finset.mem_erase] at hx
    rw [Finset.mem_singleton]
    by_contra hne
    exact hx.2 ⟨hne, hx.1⟩
  exact le_trans (Finset.card_le_card hsub) (le_of_eq (Finset.card_singleton page))

theorem free_of_ne (h : pmm.allocPage = (some u, pmm')) (hsu : s ≠ u)
    (hs : Free pmm s) : Free pmm' s := by
  obtain ⟨page, -, rfl, rfl⟩ := Pmm.allocPage_eq_some h
  obtain ⟨n, hn, rfl⟩ := hs
  refine ⟨n, ?_, rfl⟩
  rw [Pmm.freeSet_take, Finset.mem_erase]
  refine ⟨?_, hn⟩
  rintro rfl
  exact hsu rfl

section

variable (h : Reached slots r σ own p t σ' own')
include h

section

variable (hi : InSlots slots p i)
  (hstep : Resolves f p.length σ' t i u σ'') (hv : slots (pml4Index virt))
include hi hstep hv

/-- The walk to each page reads what it read, and possibly an entry of the new table. -/
theorem Reached.trails_step :
    ∃ new, trail (table σ''.mem) r (path virt) = trail (table σ.mem) r (path virt) ++ new ∧
      ∀ x ∈ new, own x.1 = none := by
  obtain ⟨new, hnew, hnone⟩ := h.trails virt hv
  cases h.hierarchy.rereads h.at_path hi hstep hv with
  | same _ htrail _ | widened _ _ htrail _ _ => exact ⟨new, htrail.trans hnew, hnone⟩
  | @extended j _ _ htable htrail _ _ =>
    refine ⟨new ++ [(u, j)], by rw [htrail, hnew, append_assoc], ?_⟩
    have hu : own u = none := by
      cases hstep with
      | keep htable' =>
        rw [htable] at htable'
        cases htable'
      | build _ halloc =>
        cases hn : own u with
        | none => rfl
        | some n =>
          have hsome := h.own_le u n hn
          rw [h.hierarchy.fresh halloc] at hsome
          cases hsome
    intro x hx
    rcases mem_append.mp hx with hx | hx
    · exact hnone x hx
    · rw [mem_singleton.mp hx]
      exact hu

theorem Reached.frames_step : frameOf virt (leaf σ'' r virt) = frameOf virt (leaf σ r virt) :=
  (h.hierarchy.frameOf_resolves h.at_path hi hstep hv).trans (h.frames virt hv)

end

/-- Only a table of the way is written. -/
theorem Reached.frame_step
    (hne : σ''.mem s j ≠ σ.mem s j) (hsame : ¬ (s = t ∧ j = i) → σ''.mem s j = σ'.mem s j) :
    ∃ q, own' s = some (r, q) ∧ q <+: p ++ [i] := by
  by_cases hsj : s = t ∧ j = i
  · exact ⟨p, hsj.1 ▸ h.at_path, prefix_append p [i]⟩
  · rw [hsame hsj] at hne
    obtain ⟨q, hq, hle⟩ := h.frame s j hne
    exact ⟨q, hq, hle.trans (prefix_append p [i])⟩

/-- The entry refers to a table already. -/
theorem Reached.keep (hi : InSlots slots p i)
    (htable : table σ'.mem t i = some u) (f : U64) :
    Reached slots r σ own (p ++ [i]) u (write σ' t i (widen (σ'.mem t i) f)) own' where
  hierarchy := h.hierarchy.keep htable f
  at_path := h.hierarchy.forest.owned t r p i u h.at_path hi htable
  own_le := h.own_le
  new_free := h.new_free
  allocated := h.allocated
  frame := fun _ _ hne => h.frame_step hne (write_of_ne σ' _)
  free_le := h.free_le
  taken := by
    rw [length_append]
    exact Nat.le_add_right_of_le h.taken
  trails := fun _ hv => h.trails_step hi (.keep htable) hv
  frames := fun _ hv => h.frames_step hi (.keep htable) hv

/-- A new table is put at the entry. -/
theorem Reached.build (hi : InSlots slots p i) (hnone : table σ'.mem t i = none)
    (halloc : σ'.pmm.allocPage = (some u, pmm')) (f : U64) : Reached slots r σ own (p ++ [i]) u
      (install σ' pmm' u (newEntries p.length f (σ'.mem t i)) t i f)
      (update own' u (some (r, p ++ [i]))) := by
  have hu := h.hierarchy.fresh halloc
  obtain ⟨hsub, hcard⟩ := allocPage_taken halloc
  constructor
  · exact h.hierarchy.build h.at_path hi hnone halloc f
  · exact update_self _ _ _
  · intro s n hs
    have hs' := h.own_le s n hs
    rw [update_of_ne (Forest.ne_of_own hs' hu)]
    exact hs'
  · intro s n hs hs'
    by_cases hsu : s = u
    · rw [hsu]
      exact (free_of_allocPage halloc).1.mono h.free_le
    · rw [update_of_ne hsu] at hs'
      exact h.new_free s n hs hs'
  · intro s hs
    by_cases hsu : s = u
    · exact .inr ⟨_, by rw [hsu, update_self]⟩
    · rw [update_of_ne hsu]
      exact (h.allocated s hs).imp_left (free_of_ne halloc hsu)
  · intro s j hne
    by_cases hsu : s = u
    · exact ⟨p ++ [i], by rw [hsu, update_self], prefix_refl _⟩
    · rw [update_of_ne hsu]
      exact h.frame_step hne (install_of_ne σ' _ _ _ hsu)
  · exact hsub.trans h.free_le
  · rw [length_append]
    exact card_taken_le h.taken hcard
  · exact fun _ hv => h.trails_step hi (.build hnone halloc) hv
  · exact fun _ hv => h.frames_step hi (.build hnone halloc) hv

end

/-- What the phase says about the tables. Pages are taken in ascending order, so free pages are
above the tables that replace huge pages. -/
structure PhaseFacts (own own' : U64 → Option (U64 × List Nat)) (p : List Nat) (t : U64)
    (σ' : Machine) (S : List Split) (ph : Phase) : Prop where
  old : ph = .old → own' = own
  empty : ph = .empty → ∀ j, isPresent (σ'.mem t j) = false
  no_split : ph ≠ .split → S = []
  split : ph = .split → ∀ s n, own s = none → own' s = some n → ∃ x ∈ S, x.new = s
  here : ph = .split → ∃ x ∈ S, x.new = t
  huge : ph = .split → p.length < 3 → ∀ j < 512, isPresent (σ'.mem t j) = true ∧
    table σ'.mem t j = none
  above : ∀ x ∈ S, ∃ n, x.new = BitVec.ofNat 64 (n * Pmm.pageSize) ∧
    ∀ page ∈ σ'.pmm.freeSet, n < page

/-- The page that is taken is below all pages that stay free. -/
theorem allocPage_above (h : pmm.allocPage = (some u, pmm')) :
    ∃ n, u = BitVec.ofNat 64 (n * Pmm.pageSize) ∧ ∀ page ∈ pmm'.freeSet, n < page := by
  obtain ⟨n, hn, hu, -⟩ := Pmm.allocPage_eq_some h
  refine ⟨n, hu, fun page hpage => ?_⟩
  have hlt := Pmm.allocPage_lt h page hpage
  rw [hu, Pmm.pageOf_ofNat (Pmm.mem_freeSet.mp hn).1] at hlt
  exact hlt

section

variable (hway : Way f r σ ph p t σ' S)
  (h : Hierarchy slots σ r own) (hp : InnerPath (InSlots slots) p)
include hway h hp

/-- **The way to a table.** -/
theorem Way.reached :
    ∃ own', Reached slots r σ own p t σ' own' ∧ PhaseFacts own own' p t σ' S ph := by
  induction hway with
  | start => exact ⟨own, h.reached, fun _ => rfl, nofun, fun _ => rfl, nofun, nofun, nofun, nofun⟩
  | keep _ htable ih =>
    obtain ⟨hp, hi⟩ := hp.of_snoc
    obtain ⟨own', hreached, hfacts⟩ := ih hp
    exact ⟨own', hreached.keep hi htable f, hfacts.old, nofun, fun _ => rfl, nofun, nofun, nofun,
      nofun⟩
  | create _ _ habsent halloc ih =>
    obtain ⟨hp, hi⟩ := hp.of_snoc
    obtain ⟨own', hreached, hfacts⟩ := ih hp
    have hu := hreached.hierarchy.fresh halloc
    refine ⟨_, hreached.build hi (table_of_absent habsent) halloc f, nofun, ?_, fun _ => rfl,
      nofun, nofun, nofun, nofun⟩
    intro _ j
    rw [install_self _ _ _ _ _ (Forest.ne_of_own hreached.at_path hu).symm,
      newEntries_absent habsent]
    exact isPresent_zero
  | @split ph p t σ' S i u pmm' _ hph hpresent hnone halloc ih =>
    obtain ⟨hp, hi⟩ := hp.of_snoc
    obtain ⟨own', hreached, hfacts⟩ := ih hp
    have hu := hreached.hierarchy.fresh halloc
    have hself := install_self σ' pmm' (newEntries p.length f (σ'.mem t i)) i f
      (Forest.ne_of_own hreached.at_path hu).symm
    refine ⟨_, hreached.build hi hnone halloc f, nofun, nofun, fun hne => absurd rfl hne, ?_,
      fun _ => ⟨⟨u, t, i⟩, by simp, rfl⟩, ?_, ?_⟩
    · intro _ s n hs hs'
      by_cases hsu : s = u
      · exact ⟨⟨u, t, i⟩, by simp, hsu.symm⟩
      · rw [update_of_ne hsu] at hs'
        cases ph with
        | old =>
          rw [hfacts.old rfl, hs] at hs'
          cases hs'
        | empty => exact absurd rfl hph
        | split =>
          obtain ⟨x, hx, hnew⟩ := hfacts.split rfl s n hs hs'
          exact ⟨x, mem_append_left _ hx, hnew⟩
    · intro _ hlen j hj
      rw [length_append, length_singleton] at hlen
      refine ⟨?_, hreached.hierarchy.table_newEntries hreached.at_path hi hnone hj (by omega)
        (congrFun hself j)⟩
      rw [hself]
      exact isPresent_newEntries hpresent hj
    · intro x hx
      rcases mem_append.mp hx with hx | hx
      · obtain ⟨n, hn, habove⟩ := hfacts.above x hx
        exact ⟨n, hn, fun page hpage => habove page ((allocPage_taken halloc).1 hpage)⟩
      · rw [mem_singleton.mp hx]
        exact allocPage_above halloc

/-- **The rule for ways.** What every step keeps, from the table that has been reached to the next
one, holds at the end of the way. -/
theorem Way.invariant {P : List Nat → Machine → Prop} (hstart : P [] σ)
    (hstep : ∀ {p t i u σ' σ'' own'}, Reached slots r σ own p t σ' own' → InSlots slots p i →
      Resolves f p.length σ' t i u σ'' → P p σ' → P (p ++ [i]) σ'') : P p σ' := by
  have hnext : ∀ {p t i u σ' σ'' ph S}, Way f r σ ph p t σ' S →
      InnerPath (InSlots slots) (p ++ [i]) → (InnerPath (InSlots slots) p → P p σ') →
      Resolves f p.length σ' t i u σ'' → P (p ++ [i]) σ'' := by
    intro p t i u σ' σ'' ph S hway hp ih hresolves
    obtain ⟨hp, hi⟩ := hp.of_snoc
    obtain ⟨own', hreached, -⟩ := hway.reached h hp
    exact hstep hreached hi hresolves (ih hp)
  induction hway with
  | start => exact hstart
  | keep hway htable ih => exact hnext hway hp ih (.keep htable)
  | create hway _ habsent halloc ih =>
    exact hnext hway hp ih (.build (table_of_absent habsent) halloc)
  | split hway _ _ hnone halloc ih => exact hnext hway hp ih (.build hnone halloc)

/-- Of the tables that were there, only the entries that have been passed are written. -/
theorem Way.mem_eq (hs : own s = some (r, q))
    (hj : ¬ q ++ [j] <+: p) : σ'.mem s j = σ.mem s j := by
  -- the entry of a step is the one behind the path to its table
  have hnext : ∀ {p : List Nat} {t : U64} {i : Nat} {σ' : Machine}
      {own' : U64 → Option (U64 × List Nat)}, Reached slots r σ own p t σ' own' →
      ¬ q ++ [j] <+: p ++ [i] → ¬ (s = t ∧ j = i) ∧ ¬ q ++ [j] <+: p := by
    intro p t i σ' own' hreached hj
    refine ⟨?_, fun hle => hj (hle.trans (prefix_append p [i]))⟩
    rintro ⟨rfl, rfl⟩
    have heq := (hreached.own_le s _ hs).symm.trans hreached.at_path
    cases heq
    exact hj (prefix_refl _)
  induction hway with
  | start => rfl
  | keep hway _ ih =>
    obtain ⟨hp, -⟩ := hp.of_snoc
    obtain ⟨own', hreached, -⟩ := hway.reached h hp
    obtain ⟨hne, hj⟩ := hnext hreached hj
    rw [write_of_ne _ _ hne, ih hp hj]
  | create hway _ _ halloc ih | split hway _ _ _ halloc ih =>
    obtain ⟨hp, -⟩ := hp.of_snoc
    obtain ⟨own', hreached, -⟩ := hway.reached h hp
    obtain ⟨hne, hj⟩ := hnext hreached hj
    have hsu := Forest.ne_of_own (hreached.own_le s _ hs) (hreached.hierarchy.fresh halloc)
    rw [install_of_ne _ _ _ _ hsu hne, ih hp hj]

end

end BeastOs.Vmm
