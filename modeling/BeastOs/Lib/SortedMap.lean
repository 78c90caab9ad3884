import Mathlib.Algebra.BigOperators.Group.List.Basic
import Mathlib.Algebra.Ring.Nat
import Mathlib.Data.List.Nodup
import Mathlib.Data.List.Perm.Basic
import Mathlib.Order.Lattice

/-!
# Maps kept in the order of their keys

An ordered map is the list of its entries, sorted by key; that the keys are strictly increasing is
part of the structure, so every key has at most one entry. `lookup`, `insert` and `erase` are the
usual operations.

Two kinds of facts are proved about them. Pointwise: what `lookup` returns after an update. And for
totals over the whole map, such as a number of bytes or a number of entries with some property,
`weight f` sums `f` over the entries; an update changes it by the entries that come and go.
-/

namespace BeastOs.Lib

open Function List

/-- A finite map whose entries are listed in the order of their keys. -/
structure SortedMap (κ ν : Type) [LinearOrder κ] where
  entries : List (κ × ν)
  sorted : entries.Pairwise fun a b => a.1 < b.1

namespace SortedMap

variable {κ ν μ : Type} [LinearOrder κ] {k : κ} {v : ν} {es : List (κ × ν)}

/-! ## The operations on lists of entries -/

/-- The value of the first entry with key `k`. -/
def find (k : κ) : List (κ × ν) → Option ν
  | [] => none
  | e :: es => if e.1 = k then some e.2 else find k es

/-- Put an entry in its place, replacing the one with the same key. -/
def place (k : κ) (v : ν) : List (κ × ν) → List (κ × ν)
  | [] => [(k, v)]
  | e :: es =>
    if k < e.1 then (k, v) :: e :: es
    else if e.1 = k then (k, v) :: es
    else e :: place k v es

theorem mem_place {x : κ × ν} (hx : x ∈ place k v es) : x = (k, v) ∨ x ∈ es := by
  induction es with
  | nil => simpa [place] using hx
  | cons e es ih =>
    rw [place] at hx
    split_ifs at hx with hlt heq
    · simpa using hx
    · rcases mem_cons.mp hx with h | h
      · exact .inl h
      · exact .inr (mem_cons_of_mem _ h)
    · rcases mem_cons.mp hx with h | h
      · exact .inr (h ▸ mem_cons_self)
      · exact (ih h).imp_right (mem_cons_of_mem _)

theorem sorted_place (k : κ) (v : ν) (hs : es.Pairwise fun a b => a.1 < b.1) :
    (place k v es).Pairwise fun a b => a.1 < b.1 := by
  induction es with
  | nil => simp [place]
  | cons e es ih =>
    obtain ⟨he, hes⟩ := pairwise_cons.mp hs
    rw [place]
    split_ifs with hlt heq
    · refine pairwise_cons.mpr ⟨fun x hx => ?_, hs⟩
      rcases mem_cons.mp hx with h | h
      · exact h ▸ hlt
      · exact hlt.trans (he x h)
    · exact pairwise_cons.mpr ⟨fun x hx => heq ▸ he x hx, hes⟩
    · refine pairwise_cons.mpr ⟨fun x hx => ?_, ih hes⟩
      rcases mem_place hx with h | h
      · exact h ▸ lt_of_le_of_ne (not_lt.mp hlt) heq
      · exact he x h

theorem find_place (k k' : κ) [Decidable (k' = k)] (v : ν) (es : List (κ × ν)) :
    find k' (place k v es) = if k' = k then some v else find k' es := by
  by_cases hk : k' = k
  · subst hk
    rw [if_pos rfl]
    induction es with
    | nil => simp [place, find]
    | cons e es ih =>
      rw [place]
      split_ifs with hlt heq
      · simp [find]
      · simp [find]
      · rw [find, if_neg heq, ih]
  · rw [if_neg hk]
    induction es with
    | nil => simp [place, find, Ne.symm hk]
    | cons e es ih =>
      rw [place]
      split_ifs with hlt heq
      · simp [find, Ne.symm hk]
      · simp [find, heq, Ne.symm hk]
      · rw [find, find, ih]

theorem find_eq_none_iff : find k es = none ↔ ∀ e ∈ es, e.1 ≠ k := by
  induction es with
  | nil => simp [find]
  | cons e es ih =>
    rw [find]
    by_cases he : e.1 = k <;> simp [he, ih]

variable (hs : es.Pairwise fun a b => a.1 < b.1)

include hs in
/-- In a sorted list every entry is the one that is found. -/
theorem find_of_mem (hmem : (k, v) ∈ es) : find k es = some v := by
  induction es with
  | nil => cases hmem
  | cons e es ih =>
    obtain ⟨he, hes⟩ := pairwise_cons.mp hs
    rw [find]
    rcases mem_cons.mp hmem with rfl | hmem
    · rw [if_pos rfl]
    · rw [if_neg (he (k, v) hmem).ne, ih hes hmem]

/-- Without its entry for `k`, a sorted list finds nothing at `k` and the same at other keys. -/
theorem find_filter (k k' : κ) [Decidable (k' = k)] (es : List (κ × ν)) :
    find k' (es.filter fun e => e.1 ≠ k) = if k' = k then none else find k' es := by
  induction es with
  | nil => simp [find]
  | cons e es ih =>
    by_cases he : e.1 = k
    · rw [filter_cons_of_neg (by simpa using he), ih]
      by_cases hk : k' = k
      · simp [hk]
      · simp [hk, find, he, Ne.symm hk]
    · rw [filter_cons_of_pos (by simpa using he), find, ih, find]
      by_cases hk : k' = k
      · simp [hk, he]
      · simp [hk]

include hs in
/-- The entries with another key, when there is an entry for `k`, are all but that one. -/
theorem perm_of_find (hv : find k es = some v) :
    es.Perm ((k, v) :: es.filter fun e => e.1 ≠ k) := by
  induction es with
  | nil => cases hv
  | cons e es ih =>
    obtain ⟨he, hes⟩ := pairwise_cons.mp hs
    rw [find] at hv
    split_ifs at hv with hk
    · -- the entries behind the first have larger keys
      have hrest : es.filter (fun x => x.1 ≠ k) = es := by
        apply filter_eq_self.mpr
        intro x hx
        simpa using fun h => (he x hx).ne (hk.trans h.symm)
      rw [filter_cons_of_neg (by simpa using hk), hrest, ← hk, ← Option.some.inj hv]
    · rw [filter_cons_of_pos (by simpa using hk)]
      exact ((ih hes hv).cons e).trans (List.Perm.swap _ _ _)

include hs in
/-- A placed entry comes on top of the entries with another key. -/
theorem place_perm :
    (place k v es).Perm ((k, v) :: es.filter fun e => e.1 ≠ k) := by
  induction es with
  | nil => simp [place]
  | cons e es ih =>
    obtain ⟨he, hes⟩ := pairwise_cons.mp hs
    have hfilter : k ≤ e.1 → es.filter (fun x => x.1 ≠ k) = es := by
      intro hle
      apply filter_eq_self.mpr
      intro x hx
      simpa using (hle.trans_lt (he x hx)).ne'
    rw [place]
    split_ifs with hlt heq
    · rw [filter_cons_of_pos (by simpa using hlt.ne'), hfilter hlt.le]
    · rw [filter_cons_of_neg (by simpa using heq), hfilter heq.ge]
    · rw [filter_cons_of_pos (by simpa using heq)]
      exact ((ih hes).cons e).trans (List.Perm.swap _ _ _)

/-! ## The operations on maps -/

def empty : SortedMap κ ν := ⟨[], List.Pairwise.nil⟩

def lookup (m : SortedMap κ ν) (k : κ) : Option ν := find k m.entries

def insert (m : SortedMap κ ν) (k : κ) (v : ν) : SortedMap κ ν :=
  ⟨place k v m.entries, sorted_place k v m.sorted⟩

def erase (m : SortedMap κ ν) (k : κ) : SortedMap κ ν :=
  ⟨m.entries.filter fun e => e.1 ≠ k, m.sorted.filter _⟩

variable (m : SortedMap κ ν) (k k' : κ) (v : ν)

@[simp] theorem lookup_empty : (empty : SortedMap κ ν).lookup k = none := rfl

-- the decision procedure for keys is a parameter: a type can have another one than its order's
theorem lookup_insert [Decidable (k' = k)] :
    (m.insert k v).lookup k' = if k' = k then some v else m.lookup k' :=
  find_place k k' v m.entries

@[simp] theorem lookup_insert_self : (m.insert k v).lookup k = some v := by
  rw [lookup_insert, if_pos rfl]

theorem lookup_insert_of_ne {k k' : κ} (h : k' ≠ k) : (m.insert k v).lookup k' = m.lookup k' := by
  rw [lookup_insert, if_neg h]

theorem lookup_erase [Decidable (k' = k)] :
    (m.erase k).lookup k' = if k' = k then none else m.lookup k' :=
  find_filter k k' m.entries

@[simp] theorem lookup_erase_self : (m.erase k).lookup k = none := by
  rw [lookup_erase, if_pos rfl]

theorem lookup_erase_of_ne {k k' : κ} (h : k' ≠ k) : (m.erase k).lookup k' = m.lookup k' := by
  rw [lookup_erase, if_neg h]

/-- An insertion is an update of the lookup function. -/
theorem lookup_insert_eq_update [DecidableEq κ] :
    (m.insert k v).lookup = update m.lookup k (some v) := by
  funext k'
  rw [lookup_insert, update_apply]

theorem lookup_erase_eq_update [DecidableEq κ] : (m.erase k).lookup = update m.lookup k none := by
  funext k'
  rw [lookup_erase, update_apply]

variable {m k}

theorem lookup_of_mem {v : ν} (h : (k, v) ∈ m.entries) : m.lookup k = some v :=
  find_of_mem m.sorted h

theorem mem_keys_iff : k ∈ m.entries.map (·.1) ↔ (m.lookup k).isSome := by
  constructor
  · intro h
    obtain ⟨e, he, rfl⟩ := mem_map.mp h
    rw [lookup_of_mem he]
    rfl
  · intro h
    by_contra hno
    have hnone : m.lookup k = none := by
      refine find_eq_none_iff.mpr fun e he heq => hno ?_
      exact mem_map.mpr ⟨e, he, heq⟩
    rw [hnone] at h
    cases h

/-! ## Totals over a map -/

/-- The sum of `f` over the entries. -/
def weight (f : κ → ν → Nat) (m : SortedMap κ ν) : Nat := (m.entries.map fun e => f e.1 e.2).sum

variable (f : κ → ν → Nat)

/-- Erasing an entry takes its share off the total. -/
theorem weight_erase {v : ν} (h : m.lookup k = some v) :
    weight f m = f k v + weight f (m.erase k) := by
  have hperm := perm_of_find m.sorted h
  simpa [weight, erase] using (hperm.map fun e => f e.1 e.2).sum_eq

/-- A new entry adds its share to what the other keys have. -/
theorem weight_insert : weight f (m.insert k v) = f k v + weight f (m.erase k) := by
  have hperm := place_perm (k := k) (v := v) m.sorted
  simpa [weight, insert, erase] using (hperm.map fun e => f e.1 e.2).sum_eq

theorem erase_eq_self (h : m.lookup k = none) : m.erase k = m := by
  have hfilter : m.entries.filter (fun e => e.1 ≠ k) = m.entries := by
    apply filter_eq_self.mpr
    intro e he
    simpa using find_eq_none_iff.mp h e he
  simp only [erase, hfilter]

theorem weight_insert_new (h : m.lookup k = none) :
    weight f (m.insert k v) = f k v + weight f m := by
  rw [weight_insert, erase_eq_self h]

theorem weight_insert_old {w : ν} (h : m.lookup k = some w) :
    weight f (m.insert k v) + f k w = weight f m + f k v := by
  rw [weight_insert, weight_erase f h]
  omega

/-- The total of an indicator counts entries. -/
theorem weight_indicator (p : κ → ν → Bool) :
    weight (fun k v => if p k v then 1 else 0) m = m.entries.countP fun e => p e.1 e.2 := by
  unfold weight
  induction m.entries with
  | nil => rfl
  | cons e es ih =>
    rw [map_cons, sum_cons, ih, countP_cons, add_comm]

/-- An entry's share is part of the total. -/
theorem le_weight {w : ν} (h : m.lookup k = some w) : f k w ≤ weight f m := by
  rw [weight_erase f h]
  omega

/-! ## Changing the values

`mapValues g` keeps the keys. It lets a proof forget the parts of the values it does not need: an
update of such a part is no update at all (`insert_eq_self`). -/

include hs in
theorem place_eq_self {v : ν} (h : find k es = some v) : place k v es = es := by
  induction es with
  | nil => cases h
  | cons e es ih =>
    obtain ⟨he, hes⟩ := pairwise_cons.mp hs
    rw [find] at h
    split_ifs at h with hk
    · rw [place, if_neg (by rw [hk]; exact lt_irrefl k), if_pos hk, ← hk, ← Option.some.inj h]
    · -- the entry for `k` stands behind `e`
      have hmem : ∃ x ∈ es, x.1 = k := by
        by_contra hno
        push Not at hno
        rw [find_eq_none_iff.mpr hno] at h
        cases h
      obtain ⟨x, hx, hxk⟩ := hmem
      rw [place, if_neg (not_lt.mpr (hxk ▸ (he x hx).le)), if_neg hk, ih hes h]

theorem insert_eq_self {v : ν} (h : m.lookup k = some v) : m.insert k v = m := by
  have hplace := place_eq_self m.sorted h
  simp only [insert, hplace]

theorem insert_eq_self_iff {v : ν} : m.insert k v = m ↔ m.lookup k = some v := by
  refine ⟨fun heq => ?_, insert_eq_self⟩
  rw [← heq, lookup_insert_self]

variable (m k) (g : ν → μ)

def mapValues (m : SortedMap κ ν) : SortedMap κ μ :=
  ⟨m.entries.map fun e => (e.1, g e.2), List.pairwise_map.mpr m.sorted⟩

theorem lookup_mapValues : (m.mapValues g).lookup k = (m.lookup k).map g := by
  show find k (m.entries.map fun e => (e.1, g e.2)) = (find k m.entries).map g
  induction m.entries with
  | nil => rfl
  | cons e es ih =>
    rw [map_cons, find, find, ih]
    split <;> rfl

theorem mapValues_insert : (m.insert k v).mapValues g = (m.mapValues g).insert k (g v) := by
  have hplace : ∀ es : List (κ × ν),
      (place k v es).map (fun e => (e.1, g e.2)) =
        place k (g v) (es.map fun e => (e.1, g e.2)) := by
    intro es
    induction es with
    | nil => rfl
    | cons e es ih =>
      rw [place, map_cons, place]
      split_ifs <;> simp [ih]
  simp only [mapValues, insert, hplace]

theorem mapValues_erase : (m.erase k).mapValues g = (m.mapValues g).erase k := by
  simp only [mapValues, erase, filter_map, Function.comp_def]

end SortedMap

end BeastOs.Lib
