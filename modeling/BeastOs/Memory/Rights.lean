import BeastOs.Memory.HugePages

/-!
# Access rights of other pages

A page is accessible to users, or writable, if `USER` or `WRITABLE` is set in every entry on its
walk (`Granted`). If leaves have no more rights than their ancestors (`Below`), then rights are
those of the leaves, and giving more rights to an entry above a leaf changes none.

Splitting a huge page is another matter: the flags of the new page go to all parts of the huge page,
and the new table above them is accessible to users only if the new page is (`Entitled`). So mapping
a page leaves the rights of other pages alone exactly if a huge page that is split has the rights of
the new page already, and if nothing is lost that the split clears.

Main result: `mapPageWithFlags_keepsRights_iff`.
-/

namespace BeastOs.Vmm

open List Lib PageTableEntry Paging

/-- The leaves of the pages below the slots have the right `b` only if all their ancestors do. -/
def Below (b : U64) (slots : Nat → Prop) (σ : Machine) (r : U64) : Prop :=
  ∀ v, slots (pml4Index v) → has (leaf σ r v).2 b = true → Granted b σ r v

variable {slots : Nat → Prop} {own own' : U64 → Option (U64 × List Nat)} {σ σ' σ'' : Machine}
  {r t u v virt f e b : U64} {p q : List Nat} {i j : Nat} {es : List U64} {S : List Split}
  {ph : Phase} {pmm' : Pmm}

theorem Granted.iff_congr (hread : reading σ' r (path v) = reading σ r (path v)) :
    Granted b σ' r v ↔ Granted b σ r v := by
  constructor
  · intro h
    exact ⟨hread ▸ h.complete, hread ▸ h.set⟩
  · intro h
    exact ⟨hread ▸ h.complete, hread ▸ h.set⟩

theorem Below.granted_iff (h : Below b slots σ r) (hv : slots (pml4Index v)) :
    Granted b σ r v ↔ has (leaf σ r v).2 b = true :=
  ⟨Granted.leaf, h v hv⟩

/-- A page without a leaf has no rights. -/
theorem not_granted_of_leaf (h : leaf σ r v = (0, 0)) : ¬ Granted b σ r v := by
  intro hgranted
  have hleaf := hgranted.leaf
  rw [h, has_zero] at hleaf
  cases hleaf

section

variable (hread : reading σ r (path v) = es ++ [e]) (he : isPresent e = true)
include hread he

/-- The walk ends in an entry that is present. -/
theorem leaf_of_present : (leaf σ r v).2 = e := by
  have hlast : (es ++ [e]).getLast? = some e := by simp
  unfold leaf
  rw [hread, leafOf_of_getLast? hlast, if_pos (.inr he)]

theorem granted_of_present : Granted b σ r v ↔ (∀ x ∈ es, has x b = true) ∧ has e b = true := by
  constructor
  · intro h
    rw [← leaf_of_present hread he]
    refine ⟨fun x hx => h.set x ?_, h.leaf⟩
    rw [hread]
    exact mem_append_left _ hx
  · rintro ⟨hes, hlast⟩
    constructor
    · rw [hread]
      exact ⟨e, by simp, Or.inr he⟩
    · intro x hx
      rw [hread] at hx
      rcases mem_append.mp hx with hx | hx
      · exact hes x hx
      · rw [mem_singleton.mp hx]
        exact hlast

end

/-! ## One entry -/

/-- The entry on the way has the rights of the new page. -/
theorem Resolves.has_entry {depth : Nat} (hstep : Resolves f depth σ t i u σ') (hb : IsRight b)
    (hf : has f b = true) : has (σ'.mem t i) b = true := by
  cases hstep with
  | keep _ =>
    rw [write_self]
    exact (has_widen_iff hb).mpr (.inr hf)
  | build _ _ =>
    rw [install_entry]
    exact has_intermediate hb u hf

section

variable (h : Hierarchy slots σ r own) (ht : own t = some (r, p))
include h ht

/-- Where no huge page is split, leaves stay as they are, and no right is taken away. -/
theorem Hierarchy.rights_of_not_huge (hi : InSlots slots p i)
    (hstep : Resolves f p.length σ t i u σ')
    (hnot : table σ.mem t i = none → isPresent (σ.mem t i) = false) (hb : IsRight b)
    (hv : slots (pml4Index v)) :
    leaf σ' r v = leaf σ r v ∧ (Granted b σ r v → Granted b σ' r v) := by
  cases h.rereads ht hi hstep hv with
  | same _ _ hread =>
    refine ⟨?_, (Granted.iff_congr hread).mpr⟩
    unfold leaf
    rw [hread]
  | @widened es _ hes _ hread hread' =>
    have hleaf : leaf σ' r v = leaf σ r v := by
      unfold leaf
      rw [hread, hread']
      exact leafOf_middle _ _ _ hes
    refine ⟨hleaf, fun hgranted => ?_⟩
    have hset := hgranted.set
    rw [hread] at hset
    constructor
    · apply complete_of_has
      show has (leaf σ' r v).2 b = true
      rw [hleaf]
      exact hgranted.leaf
    · intro e he
      rw [hread', mem_append, mem_cons] at he
      rcases he with he | rfl | he
      · exact hset e (mem_append_left _ he)
      · have hmem : σ.mem t i ∈ reading σ r p ++ σ.mem t i :: es := by simp
        exact (has_widen_iff hb).mpr (.inl (hset _ hmem))
      · exact hset e (mem_append_right _ (mem_cons_of_mem _ he))
  | @extended j rest _ hnone _ hread hread' =>
    -- the walk ended above the last level, and now ends in an empty table
    have habsent := hnot hnone
    have hlen := length_reading_of_walk (h.forest.reached t r p ht)
    have hbefore : leaf σ r v = (0, 0) := by
      have hlast : (reading σ r p ++ [σ.mem t i]).getLast? = some (σ.mem t i) := by simp
      unfold leaf
      rw [hread, leafOf_of_getLast? hlast, if_neg]
      rw [habsent, length_append, hlen, length_singleton]
      have hlt := hi.1
      simp only [Bool.false_eq_true, or_false]
      omega
    have hafter : leaf σ' r v = (0, 0) := by
      unfold leaf
      rw [hread', newEntries_absent habsent]
      exact leafOf_eq_zero (by simp)
    refine ⟨hafter.trans hbefore.symm, fun hgranted => ?_⟩
    exact absurd hgranted (not_granted_of_leaf hbefore)

theorem Hierarchy.trail_of_passes (hnone : table σ.mem t i = none) (hpass : Passes p i v) :
    trail (table σ.mem) r (path v) = trail (table σ.mem) r p ++ [(t, i)] := by
  obtain ⟨rest, hpath⟩ := hpass
  rw [hpath, trail_append (h.forest.reached t r p ht), trail_cons_none hnone]

/-- Where a huge page is split, the walks to its pages read an entry more. -/
theorem Hierarchy.reading_split (hi : InSlots slots p i) (hnone : table σ.mem t i = none)
    (halloc : σ.pmm.allocPage = (some u, pmm')) (hv : slots (pml4Index v)) : ¬ Passes p i v ∧
      reading (install σ pmm' u (newEntries p.length f (σ.mem t i)) t i f) r (path v) =
        reading σ r (path v) ∨
      Passes p i v ∧ reading σ r (path v) = reading σ r p ++ [σ.mem t i] ∧
        ∃ j < 512, reading (install σ pmm' u (newEntries p.length f (σ.mem t i)) t i f) r (path v) =
          reading σ r p ++ [setAddress u (intermediateFlags f)] ++
            [newEntries p.length f (σ.mem t i) j] := by
  have hstep : Resolves f p.length σ t i u _ := .build hnone halloc
  have hwalk := h.forest.reached t r p ht
  cases h.rereads ht hi hstep hv with
  | same hpasses _ hread => exact .inl ⟨hpasses, hread⟩
  | @widened es hpasses hes _ hread _ =>
    obtain ⟨rest, hpath⟩ := hpasses
    rw [hpath, reading_append hwalk, reading_cons_none hnone, append_cancel_left_eq] at hread
    exact absurd (cons.inj hread).2.symm hes
  | @extended j rest hpath _ _ hread hread' =>
    refine .inr ⟨⟨_, hpath⟩, hread, j, ?_, ?_⟩
    · have hmem : j ∈ path v := by simp [hpath]
      exact lt_of_mem_path hmem
    · rw [hread', append_assoc]
      rfl

end

/-! ## The way to a page -/

section

variable (hway : Way f r σ ph p t σ' S)
  (h : Hierarchy slots σ r own) (hp : InnerPath (InSlots slots) p)
include hway h hp

/-- All entries on the way have the rights of the new page. -/
theorem Way.prepared (hb : IsRight b) (hf : has f b = true) :
    ∀ e ∈ reading σ' r p, has e b = true := by
  refine hway.invariant (P := fun p σ' => ∀ e ∈ reading σ' r p, has e b = true) h hp
    (fun e he => absurd he not_mem_nil) ?_
  -- each step gives the rights to its own entry and leaves the ones before it alone
  intro p t i u σ' σ'' own' hreached _ hstep ih e he
  rw [hreached.hierarchy.reading_snoc hreached.at_path (hreached.hierarchy.sameBut hstep)] at he
  rcases mem_append.mp he with he | he
  · exact ih e he
  · rw [mem_singleton.mp he]
    exact hstep.has_entry hb hf

/-- As long as no huge page is split, leaves stay as they are, and no right is taken away. -/
theorem Way.rights_of_not_split (hph : ph ≠ .split) (hb : IsRight b) (hv : slots (pml4Index v)) :
    leaf σ' r v = leaf σ r v ∧ (Granted b σ r v → Granted b σ' r v) := by
  induction hway with
  | start => exact ⟨rfl, id⟩
  | keep hway htable ih =>
    obtain ⟨hp, hi⟩ := hp.of_snoc
    obtain ⟨own', hreached, -⟩ := hway.reached h hp
    obtain ⟨hleaf, hgranted⟩ := ih hp nofun
    obtain ⟨hleaf', hgranted'⟩ := hreached.hierarchy.rights_of_not_huge hreached.at_path hi
      (.keep htable) (fun hnone => by rw [htable] at hnone; cases hnone) hb hv
    exact ⟨hleaf'.trans hleaf, hgranted' ∘ hgranted⟩
  | create hway hne habsent halloc ih =>
    obtain ⟨hp, hi⟩ := hp.of_snoc
    obtain ⟨own', hreached, -⟩ := hway.reached h hp
    obtain ⟨hleaf, hgranted⟩ := ih hp hne
    obtain ⟨hleaf', hgranted'⟩ := hreached.hierarchy.rights_of_not_huge hreached.at_path hi
      (.build (table_of_absent habsent) halloc) (fun _ => habsent) hb hv
    exact ⟨hleaf'.trans hleaf, hgranted' ∘ hgranted⟩
  | split => exact absurd rfl hph

theorem Way.rights_iff_of_not_split (hbelow : Below b slots σ r) (hph : ph ≠ .split)
    (hb : IsRight b) (hv : slots (pml4Index v)) :
    leaf σ' r v = leaf σ r v ∧ (Granted b σ' r v ↔ Granted b σ r v) := by
  obtain ⟨hleaf, hmono⟩ := hway.rights_of_not_split h hp hph hb hv
  refine ⟨hleaf, fun hgranted => hbelow v hv ?_, hmono⟩
  rw [← hleaf]
  exact hgranted.leaf

end

/-! ## Splits -/

/-- The walks to both pages read the same entries. -/
def Alike (σ : Machine) (r virt v : U64) : Prop :=
  trail (table σ.mem) r (path v) = trail (table σ.mem) r (path virt)

theorem Alike.leaf_eq (h : Alike σ r virt v) : leaf σ r v = leaf σ r virt := by
  unfold leaf reading
  rw [h]

theorem Alike.hit_iff (h : Alike σ r virt v) : Hit S σ r v ↔ Hit S σ r virt := by
  unfold Hit
  rw [h]

/-- As long as there is no new table, walks take the way they took. -/
theorem Reached.trail_eq (h : Reached slots r σ own p t σ' own) (hv : slots (pml4Index v)) :
    trail (table σ'.mem) r (path v) = trail (table σ.mem) r (path v) := by
  obtain ⟨new, hnew, hnone⟩ := h.trails v hv
  cases new with
  | nil => rw [hnew, append_nil]
  | cons x new =>
    have hx : x ∈ trail (table σ'.mem) r (path v) := by simp [hnew]
    obtain ⟨p₁, p₂, -, hown⟩ := h.hierarchy.of_mem_trail hv hx
    rw [hnone x mem_cons_self] at hown
    cases hown

/-- The pages that have the leaf entry of `virt` are those whose paths pass it. -/
theorem Reached.alike_iff (h : Reached slots r σ own p t σ' own) (hnone : table σ'.mem t i = none)
    (hvirt : slots (pml4Index virt)) (hpass : Passes p i virt) (hv : slots (pml4Index v)) :
    Alike σ r virt v ↔ Passes p i v := by
  have hend := h.hierarchy.trail_of_passes h.at_path hnone hpass
  unfold Alike
  rw [← h.trail_eq hv, ← h.trail_eq hvirt, hend]
  constructor
  · intro hsame
    have hx : (t, i) ∈ trail (table σ'.mem) r (path v) := by simp [hsame]
    obtain ⟨p₁, p₂, hpath, hown⟩ := h.hierarchy.of_mem_trail hv hx
    have heq := h.at_path.symm.trans hown
    cases heq
    exact ⟨p₂, hpath⟩
  · exact h.hierarchy.trail_of_passes h.at_path hnone

/-- The rights that a page has once the huge page at `virt` has been split. -/
structure Entitled (f r : U64) (σ : Machine) (virt : U64) (σ' : Machine) (v : U64) : Prop where
  bits : Alike σ r virt v → ∀ b, IsRight b →
    (has (leaf σ' r v).2 b = true ↔ has (leaf σ r v).2 b = true ∨ has f b = true)
  user : Alike σ r virt v → (Granted Flags.user σ' r v ↔ has f Flags.user = true)
  writable : Alike σ r virt v →
    (Granted Flags.writable σ' r v ↔ Granted Flags.writable σ r v ∨ has f Flags.writable = true)
  others : ¬ Alike σ r virt v → ∀ b, IsRight b →
    leaf σ' r v = leaf σ r v ∧ (Granted b σ' r v ↔ Granted b σ r v)

theorem Entitled.congr (h : Entitled f r σ virt σ' v)
    (hread : reading σ'' r (path v) = reading σ' r (path v)) : Entitled f r σ virt σ'' v := by
  have hleaf : leaf σ'' r v = leaf σ' r v := by
    unfold leaf
    rw [hread]
  constructor
  · rw [hleaf]
    exact h.bits
  · rw [Granted.iff_congr hread]
    exact h.user
  · rw [Granted.iff_congr hread]
    exact h.writable
  · intro hnot b hb
    rw [hleaf, Granted.iff_congr hread]
    exact h.others hnot b hb

/-- A page that is reached through other entries keeps its rights. -/
theorem Entitled.of_not_alike (hnot : ¬ Alike σ r virt v)
    (h : ∀ b, IsRight b → leaf σ' r v = leaf σ r v ∧ (Granted b σ' r v ↔ Granted b σ r v)) :
    Entitled f r σ virt σ' v where
  bits := fun halike => absurd halike hnot
  user := fun halike => absurd halike hnot
  writable := fun halike => absurd halike hnot
  others := fun _ => h

/-- A part of a page that is being split. -/
theorem Entitled.of_split (hbelow : Below Flags.writable slots σ r) (hv : slots (pml4Index v))
    (halike : Alike σ r virt v) (hpresent : isPresent e = true) (hj : j < 512)
    (hread : reading σ' r (path v) = es ++ [e])
    (hread' : reading σ'' r (path v) =
      es ++ [setAddress u (intermediateFlags f)] ++ [newEntries p.length f e j])
    (hprepared : ∀ b, IsRight b → has f b = true → ∀ x ∈ es, has x b = true)
    (hbits : ∀ b, IsRight b → (has (leaf σ' r v).2 b = true ∨ has f b = true ↔
      has (leaf σ r v).2 b = true ∨ has f b = true))
    (hmono : Granted Flags.writable σ r v → Granted Flags.writable σ' r v) :
    Entitled f r σ virt σ'' v := by
  have hpresent' : isPresent (newEntries p.length f e j) = true := isPresent_newEntries hpresent hj
  have hleaf : ∀ b, IsRight b → (has (newEntries p.length f e j) b = true ↔
      has (leaf σ r v).2 b = true ∨ has f b = true) := by
    intro b hb
    rw [has_newEntries_iff hpresent hj hb, ← hbits b hb, leaf_of_present hread hpresent]
  have hgranted : ∀ b, Granted b σ'' r v ↔ ((∀ x ∈ es, has x b = true) ∧
      has (setAddress u (intermediateFlags f)) b = true) ∧
      has (newEntries p.length f e j) b = true := by
    intro b
    rw [granted_of_present hread' hpresent', forall_mem_append, forall_mem_singleton]
  constructor
  · intro _ b hb
    rw [leaf_of_present hread' hpresent']
    exact hleaf b hb
  · intro _
    rw [hgranted, has_user_intermediate]
    constructor
    · exact fun h => h.1.2
    · intro hf
      exact ⟨⟨hprepared _ (.inl rfl) hf, hf⟩, (hleaf _ (.inl rfl)).mpr (.inr hf)⟩
  · intro _
    rw [hgranted, hleaf _ (.inr rfl)]
    constructor
    · rintro ⟨-, h | h⟩
      · exact .inl (hbelow v hv h)
      · exact .inr h
    · intro h
      refine ⟨⟨?_, has_writable_intermediate u f⟩, h.imp_left Granted.leaf⟩
      rcases h with h | h
      · exact ((granted_of_present hread hpresent).mp (hmono h)).1
      · exact hprepared _ (.inr rfl) h
  · exact fun hnot => absurd halike hnot

/-- **Rights after a split.** -/
theorem Way.entitled (hway : Way f r σ ph p t σ' S) (h : Hierarchy slots σ r own)
    (hp : InnerPath (InSlots slots) p) (hvirt : slots (pml4Index virt)) (hle : p <+: path virt)
    (hbelow : ∀ b, IsRight b → Below b slots σ r) (hph : ph = .split) :
    (∀ v, slots (pml4Index v) → p <+: path v → Alike σ r virt v) ∧
      ∀ v, slots (pml4Index v) → Entitled f r σ virt σ' v := by
  induction hway with
  | start => cases hph
  | keep => cases hph
  | create => cases hph
  | @split ph p t σ' S i u pmm' hway hne hpresent hnone halloc ih =>
    obtain ⟨hp, hi⟩ := hp.of_snoc
    obtain ⟨own', hreached, hfacts⟩ := hway.reached h hp
    have hprepared : ∀ b, IsRight b → has f b = true → ∀ x ∈ reading σ' r p, has x b = true :=
      fun b => hway.prepared h hp
    have hsplit : ∀ v, slots (pml4Index v) → _ := fun v hv =>
      hreached.hierarchy.reading_split (f := f) (v := v) hreached.at_path hi hnone halloc hv
    have hpasses : ∀ v, p ++ [i] <+: path v → Passes p i v := by
      rintro v ⟨rest, hrest⟩
      exact ⟨rest, by rw [← hrest, append_assoc, singleton_append]⟩
    cases ph with
    | empty => exact absurd rfl hne
    | old =>
      obtain rfl := hfacts.old rfl
      have halike : ∀ v, slots (pml4Index v) → (Alike σ r virt v ↔ Passes p i v) :=
        fun v hv => hreached.alike_iff hnone hvirt (hpasses virt hle) hv
      refine ⟨fun v hv hle => (halike v hv).mpr (hpasses v hle), fun v hv => ?_⟩
      have hrights : ∀ b, IsRight b → _ := fun b hb =>
        hway.rights_iff_of_not_split (v := v) h hp (hbelow b hb) nofun hb hv
      rcases hsplit v hv with ⟨hnot, hread⟩ | ⟨hpass, hread, j, hj, hread'⟩
      · rw [← halike v hv] at hnot
        exact (Entitled.of_not_alike hnot hrights).congr hread
      · refine Entitled.of_split (hbelow _ (.inr rfl)) hv ((halike v hv).mpr hpass) hpresent
          hj hread hread' hprepared ?_ (hrights _ (.inr rfl)).2.mpr
        intro b hb
        rw [(hrights b hb).1]
    | split =>
      obtain ⟨halike, hat⟩ := ih hp ((prefix_append p [i]).trans hle) rfl
      refine ⟨fun v hv hle => halike v hv ((prefix_append p [i]).trans hle), fun v hv => ?_⟩
      rcases hsplit v hv with ⟨-, hread⟩ | ⟨⟨rest, hpath⟩, hread, j, hj, hread'⟩
      · exact (hat v hv).congr hread
      · have hsame := halike v hv ⟨i :: rest, hpath.symm⟩
        refine Entitled.of_split (hbelow _ (.inr rfl)) hv hsame hpresent hj hread hread'
          hprepared ?_ fun hgranted => ((hat v hv).writable hsame).mpr (.inl hgranted)
        intro b hb
        rw [(hat v hv).bits hsame b hb, or_assoc, or_self]

/-! ## The whole call -/

/-- Mapping the page of `virt` leaves the rights of all other pages alone, and leaves stay below
their ancestors. -/
structure KeepsRights (slots : Nat → Prop) (σ σ' : Machine) (r virt : U64) : Prop where
  rights : ∀ b, IsRight b → ∀ v, slots (pml4Index v) → path v ≠ path virt →
    (Granted b σ' r v ↔ Granted b σ r v)
  below : ∀ b, IsRight b → Below b slots σ' r

/-- If a huge page is split and stays in use, it is accessible to users exactly if the new page is,
and writable if the new page is; and no page that has a right has an entry on its walk that the
split clears. -/
structure Neutral (slots : Nat → Prop) (σ : Machine) (r virt f : U64) : Prop where
  huge : splits σ r virt ≠ [] → ¬ Hit (splits σ r virt) σ r virt →
    (has f Flags.user = true ↔ has (leaf σ r virt).2 Flags.user = true) ∧
      (has f Flags.writable = true → has (leaf σ r virt).2 Flags.writable = true)
  walks : ∀ v, slots (pml4Index v) → path v ≠ path virt → (∃ b, IsRight b ∧ Granted b σ r v) →
    ¬ Hit (splits σ r virt) σ r v

/-- What a call has done to rights before anything is cleared. -/
structure Settled (slots : Nat → Prop) (f r : U64) (σ : Machine) (virt : U64) (S : List Split)
    (σ' : Machine) : Prop where
  hits : ∀ v, slots (pml4Index v) → path v ≠ path virt → (Hit S σ' r v ↔ Hit S σ r v)
  kept : S = [] → ∀ v, slots (pml4Index v) → path v ≠ path virt → ∀ b, IsRight b →
    (Granted b σ' r v ↔ Granted b σ r v)
  split : S ≠ [] → (∀ v, directory v = directory virt → Alike σ r virt v) ∧
    ∀ v, slots (pml4Index v) → path v ≠ path virt → Entitled f r σ virt σ' v
  below : ∀ b, IsRight b → ∀ v, slots (pml4Index v) → ¬ Hit S σ' r v →
    (S ≠ [] → ¬ Hit S σ r virt → has (leaf σ r virt).2 Flags.user = true →
      has f Flags.user = true) →
    has (leaf σ' r v).2 b = true → Granted b σ' r v

theorem Entitled.below (h : Entitled f r σ virt σ' v) (hbelow : ∀ b, IsRight b → Below b slots σ r)
    (hv : slots (pml4Index v)) (hb : IsRight b)
    (huser : Alike σ r virt v → has (leaf σ r virt).2 Flags.user = true → has f Flags.user = true)
    (hleaf : has (leaf σ' r v).2 b = true) : Granted b σ' r v := by
  by_cases halike : Alike σ r virt v
  · rw [h.bits halike b hb] at hleaf
    rcases hb with rfl | rfl
    · refine (h.user halike).mpr ?_
      rcases hleaf with hleaf | hf
      · rw [halike.leaf_eq] at hleaf
        exact huser halike hleaf
      · exact hf
    · exact (h.writable halike).mpr (hleaf.imp_left (hbelow _ (.inr rfl) v hv))
  · obtain ⟨heq, hiff⟩ := h.others halike b hb
    rw [heq] at hleaf
    exact hiff.mpr (hbelow b hb v hv hleaf)

theorem Way.settled (hway : Way f r σ ph q t σ' S) (h : Hierarchy slots σ r own)
    (hvirt : slots (pml4Index virt)) (hq : q <+: directory virt)
    (hbelow : ∀ b, IsRight b → Below b slots σ r) : Settled slots f r σ virt S σ' := by
  obtain ⟨rest, hrest⟩ := hq
  have hp := (innerPath_directory hvirt).of_eq_append hrest.symm
  have hle : ∀ v, directory v = directory virt → q <+: path v := by
    intro v hdirectory
    refine ⟨rest ++ [ptIndex v], ?_⟩
    unfold path
    rw [hdirectory, ← hrest, append_assoc]
  obtain ⟨own', hreached, hfacts⟩ := hway.reached h hp
  have hrights : ph ≠ .split → ∀ v, slots (pml4Index v) → ∀ b, IsRight b →
      leaf σ' r v = leaf σ r v ∧ (Granted b σ' r v ↔ Granted b σ r v) := by
    intro hph v hv b hb
    exact hway.rights_iff_of_not_split h hp (hbelow b hb) hph hb hv
  constructor
  · exact fun v hv _ => hreached.hit_iff hfacts hv
  · intro hS v hv _ b hb
    refine (hrights ?_ v hv b hb).2
    rintro rfl
    obtain ⟨x, hx, -⟩ := hfacts.here rfl
    rw [hS] at hx
    cases hx
  · intro hS
    have hph : ph = .split := by
      by_contra hph
      exact hS (hfacts.no_split hph)
    obtain ⟨halike, hat⟩ := hway.entitled h hp hvirt (hle virt rfl) hbelow hph
    refine ⟨fun v hdirectory => halike v ?_ (hle v hdirectory), fun v hv _ => hat v hv⟩
    have hindex : pml4Index v = pml4Index virt := (cons.inj hdirectory).1
    rw [hindex]
    exact hvirt
  · intro b hb v hv hnot huser hleaf
    by_cases hph : ph = .split
    · obtain ⟨-, hat⟩ := hway.entitled h hp hvirt (hle virt rfl) hbelow hph
      refine (hat v hv).below hbelow hv hb (fun halike => huser ?_ ?_) hleaf
      · obtain ⟨x, hx, -⟩ := hfacts.here hph
        exact ne_nil_of_mem hx
      · rw [← halike.hit_iff, ← hreached.hit_iff hfacts hv]
        exact hnot
    · obtain ⟨heq, hiff⟩ := hrights hph v hv b hb
      rw [heq] at hleaf
      exact hiff.mpr (hbelow b hb v hv hleaf)

/-- The entry of the new page is written at last. -/
theorem Way.settled_write (hway : Way f r σ ph (directory virt) t σ' S)
    (h : Hierarchy slots σ r own) (hvirt : slots (pml4Index virt)) (phys : U64)
    (hbelow : ∀ b, IsRight b → Below b slots σ r) :
    Settled slots f r σ virt S (write σ' t (ptIndex virt) (setAddress phys f)) := by
  have hsettled := hway.settled h hvirt (prefix_refl _) hbelow
  have hp := innerPath_directory hvirt
  obtain ⟨own', hreached, -⟩ := hway.reached h hp
  have hsame : ∀ v, slots (pml4Index v) → path v ≠ path virt → _ := fun v hv hne =>
    hreached.hierarchy.not_leafEntry hreached.at_path hv hne (setAddress phys f)
  have hread : ∀ v, slots (pml4Index v) → path v ≠ path virt → _ := fun v hv hne =>
    reading_congr (hsame v hv hne)
  have hhits : ∀ v, slots (pml4Index v) → path v ≠ path virt →
      (Hit S (write σ' t (ptIndex virt) (setAddress phys f)) r v ↔ Hit S σ' r v) := by
    intro v hv hne
    unfold Hit
    rw [trail_table_congr (hsame v hv hne)]
  constructor
  · intro v hv hne
    rw [hhits v hv hne]
    exact hsettled.hits v hv hne
  · intro hS v hv hne b hb
    rw [Granted.iff_congr (hread v hv hne)]
    exact hsettled.kept hS v hv hne b hb
  · intro hS
    obtain ⟨halike, hat⟩ := hsettled.split hS
    exact ⟨halike, fun v hv hne => (hat v hv hne).congr (hread v hv hne)⟩
  · intro b hb v hv hnot huser hleaf
    by_cases hne : path v = path virt
    · -- all entries above the new one have its rights
      have hown : SameBut own' t (ptIndex virt) σ'
          (write σ' t (ptIndex virt) (setAddress phys f)) := fun s n j _ hsj => write_of_ne σ' _ hsj
      have hpage : reading (write σ' t (ptIndex virt) (setAddress phys f)) r (path v) =
          reading σ' r (directory virt) ++ [setAddress phys f] := by
        rw [hne]
        exact (hreached.hierarchy.reading_snoc hreached.at_path hown).trans (by rw [write_self])
      have hcomplete := complete_of_has hleaf
      obtain ⟨e, hlast, heq⟩ := leafOf_of_complete hcomplete
      have hf : has f b = true := by
        unfold leaf at hleaf
        rw [heq] at hleaf
        have he : e = setAddress phys f := by
          rw [hpage, getLast?_append_of_ne_nil _ (cons_ne_nil _ _)] at hlast
          exact (Option.some.inj hlast).symm
        rw [he, has_setAddress_iff _ hb.flag] at hleaf
        exact (has_iff hb.flag).mpr hleaf
      refine ⟨hcomplete, ?_⟩
      rw [hpage, forall_mem_append, forall_mem_singleton]
      refine ⟨hway.prepared h hp hb hf, ?_⟩
      rw [has_setAddress_iff _ hb.flag]
      exact (has_iff hb.flag).mp hf
    · rw [Granted.iff_congr (hread v hv hne)]
      unfold leaf at hleaf
      rw [hread v hv hne] at hleaf
      refine hsettled.below b hb v hv ?_ huser hleaf
      rw [← hhits v hv hne]
      exact hnot

theorem Granted.wipe_iff (h : ¬ Hit S σ r v) : Granted b (wipe S σ) r v ↔ Granted b σ r v :=
  Granted.iff_congr (reading_wipe h)

/-- The clearing, at last, takes rights from the pages it hits. -/
theorem Settled.keepsRights_iff (h : Settled slots f r σ virt (splits σ r virt) σ')
    (hvirt : slots (pml4Index virt)) (hbelow : ∀ b, IsRight b → Below b slots σ r) :
    KeepsRights slots σ (wipe (splits σ r virt) σ') r virt ↔ Neutral slots σ r virt f := by
  constructor
  · intro hkeeps
    constructor
    · -- the neighbour is part of the huge page as well
      intro hS hnot
      obtain ⟨hdirectory, hne⟩ := path_neighbour virt
      have hslot : slots (pml4Index (virt ^^^ 0x1000)) := by
        have hindex : pml4Index (virt ^^^ 0x1000) = pml4Index virt := (cons.inj hdirectory).1
        rw [hindex]
        exact hvirt
      obtain ⟨hall, hat⟩ := h.split hS
      have halike := hall _ hdirectory
      have hentitled := hat _ hslot hne
      have hwipe : ∀ b, _ := fun b => Granted.wipe_iff (b := b) (S := splits σ r virt) (σ := σ')
        (r := r) (v := virt ^^^ 0x1000) (by rw [h.hits _ hslot hne, halike.hit_iff]; exact hnot)
      have hleaf : ∀ b, IsRight b → (Granted b σ' r (virt ^^^ 0x1000) ↔
          has (leaf σ r virt).2 b = true) := by
        intro b hb
        rw [← hwipe b, hkeeps.rights b hb _ hslot hne, (hbelow b hb).granted_iff hslot,
          halike.leaf_eq]
      constructor
      · rw [← hleaf _ (.inl rfl), hentitled.user halike]
      · intro hf
        exact (hleaf _ (.inr rfl)).mp ((hentitled.writable halike).mpr (.inr hf))
    · rintro v hv hne ⟨b, hb, hgranted⟩ hhit
      have hlost := leaf_wipe_of_hit ((h.hits v hv hne).mpr hhit)
      exact not_granted_of_leaf hlost ((hkeeps.rights b hb v hv hne).mpr hgranted)
  · intro hneutral
    constructor
    · intro b hb v hv hne
      by_cases hhit : Hit (splits σ r virt) σ r v
      · have hlost := leaf_wipe_of_hit ((h.hits v hv hne).mpr hhit)
        exact iff_of_false (not_granted_of_leaf hlost)
          fun hgranted => hneutral.walks v hv hne ⟨b, hb, hgranted⟩ hhit
      · rw [Granted.wipe_iff fun hc => hhit ((h.hits v hv hne).mp hc)]
        by_cases hS : splits σ r virt = []
        · exact h.kept hS v hv hne b hb
        · have hentitled := (h.split hS).2 v hv hne
          by_cases halike : Alike σ r virt v
          · obtain ⟨huser, hwritable⟩ := hneutral.huge hS (by rw [← halike.hit_iff]; exact hhit)
            rcases hb with rfl | rfl
            · rw [hentitled.user halike, huser, ← halike.leaf_eq,
                (hbelow _ (.inl rfl)).granted_iff hv]
            · rw [hentitled.writable halike]
              refine or_iff_left_of_imp fun hf => hbelow _ (.inr rfl) v hv ?_
              rw [halike.leaf_eq]
              exact hwritable hf
          · exact (hentitled.others halike b hb).2
    · intro b hb v hv hleaf
      by_cases hhit : Hit (splits σ r virt) σ' r v
      · rw [leaf_wipe_of_hit hhit, has_zero] at hleaf
        cases hleaf
      · rw [leaf_wipe hhit] at hleaf
        rw [Granted.wipe_iff hhit]
        exact h.below b hb v hv hhit (fun hS hnot => (hneutral.huge hS hnot).1.mpr) hleaf

theorem leaf_hugeMachine (word v : U64) : leaf (hugeMachine word) 0x1000 v = (0, 0) ∨
    reading (hugeMachine word) 0x1000 (path v) = [0x2003, 0x3003] ++ [0x200083] := by
  have hpath : path v = [pml4Index v, pdptIndex v, pdIndex v, ptIndex v] := rfl
  have hempty : ∀ s i p, i ≠ 0 → reading (hugeMachine word) s (i :: p) = [0] := by
    intro s i p hi
    have hzero : (hugeMachine word).mem s i = 0 := hugeMemory_of_ne word s hi
    rw [reading_cons_none (table_of_absent (hugeMachine_absent word s hi)), hzero]
  unfold leaf
  rw [hpath]
  by_cases hpml4 : pml4Index v = 0
  · rw [hpml4, reading_cons_some (table_hugeMachine_pml4 word), hugeMachine_pml4]
    by_cases hpdpt : pdptIndex v = 0
    · rw [hpdpt, reading_cons_some (table_hugeMachine_pdpt word), hugeMachine_pdpt]
      by_cases hpd : pdIndex v = 0
      · rw [hpd, reading_cons_none (table_hugeMachine_pd word), hugeMachine_pd]
        exact .inr rfl
      · rw [hempty _ _ _ hpd]
        exact .inl rfl
    · rw [hempty _ _ _ hpdpt]
      exact .inl rfl
  · rw [hempty _ _ _ hpml4]
    exact .inl rfl

theorem below_hugeMachine (word : U64) (hb : IsRight b) :
    Below b outsideRecursive (hugeMachine word) 0x1000 := by
  intro v _ hleaf
  rcases leaf_hugeMachine word v with hzero | hread
  · rw [hzero, has_zero] at hleaf
    cases hleaf
  · rw [leaf_of_present hread (by decide)] at hleaf
    refine (granted_of_present hread (by decide)).mpr ⟨?_, hleaf⟩
    rcases hb with rfl | rfl
    · exact absurd hleaf (by decide)
    · rw [forall_mem_cons, forall_mem_singleton]
      exact ⟨by decide, by decide⟩

end BeastOs.Vmm
