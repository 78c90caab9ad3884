import Mathlib.Data.List.Lex
import BeastOs.Lib.Runs
import BeastOs.Lib.SortedMap
import BeastOs.Word

/-!
# The content-addressable store

`storage/cas.rs` keeps every object under the hash of its data, with the number of references to it
and the times of its creation and last access; `total_bytes` is maintained along the way.

Counts, sizes and times are natural numbers. All objects are in memory at the same time, next to the
slice that is being stored, so their sizes add up to less than the address space; counts are assumed
to stay below `2 ^ 64`. Subtraction is where such a number can go wrong: each one is `checkedSub`,
and an operation that underflows has no result.

Main result: `store_accounting`, the books after any sequence of operations.
-/

namespace BeastOs.Storage

open Option Function Lib

/-- Words are ordered as numbers, so that maps can be keyed by them. -/
scoped instance wordOrder {w : Nat} : LinearOrder (BitVec w) where
  le_refl := BitVec.le_refl
  le_trans _ _ _ := BitVec.le_trans
  le_antisymm _ _ := BitVec.le_antisymm
  le_total := BitVec.le_total
  lt_iff_le_not_ge _ _ :=
    ⟨fun h => ⟨BitVec.le_of_lt h, BitVec.not_le.mpr h⟩, fun h => BitVec.not_le.mp h.2⟩
  toDecidableLE := inferInstance

/-- The difference of two counters; `none` when it would underflow. -/
def checkedSub (a b : Nat) : Option Nat := if b ≤ a then some (a - b) else none

theorem checkedSub_of_le {a b : Nat} (h : b ≤ a) : checkedSub a b = some (a - b) := if_pos h

/-! ## Hashes -/

/-- `Hash([u8; 32])`, ordered byte by byte. -/
abbrev Hash := { bytes : List U8 // bytes.length = 32 }

def Hash.zero : Hash := ⟨List.replicate 32 0, List.length_replicate⟩

/-- The loop of `of_data`: byte `i` of the data is written to place `i`, if there is such a place.
-/
def Hash.fill (hash : List U8) (data : List (U8 × Nat)) : List U8 :=
  data.foldl (fun hash b => if b.2 < 32 then hash.set b.2 b.1 else hash) hash

theorem Hash.length_fill (hash : List U8) (data : List (U8 × Nat)) :
    (Hash.fill hash data).length = hash.length := by
  induction data generalizing hash with
  | nil => rfl
  | cons b data ih =>
    show (Hash.fill (if b.2 < 32 then hash.set b.2 b.1 else hash) data).length = hash.length
    rw [ih]
    split <;> simp

/-- The placeholder hash: the first 32 bytes, filled up with zeros. -/
def Hash.ofData (data : List U8) : Hash :=
  ⟨Hash.fill (List.replicate 32 0) data.zipIdx, by rw [Hash.length_fill, List.length_replicate]⟩

-- data that agree on their first 32 bytes, and data that differ by final zeros, have one hash
example : Hash.ofData [7] = Hash.ofData [7, 0] := by decide
example : Hash.ofData (List.replicate 32 1 ++ [2]) = Hash.ofData (List.replicate 33 1) := by decide

/-! ## The store -/

inductive StorageError
  | outOfSpace
  | notFound
  deriving DecidableEq, Repr

structure StoredObject where
  data : List U8
  refCount : Nat
  created : Nat
  lastAccessed : Nat
  deriving DecidableEq

/-- `maxBytes = 0` means unlimited. -/
structure ContentAddressableStorage where
  objects : SortedMap Hash StoredObject
  totalBytes : Nat
  maxBytes : Nat

namespace ContentAddressableStorage

def new : ContentAddressableStorage := ⟨SortedMap.empty, 0, 0⟩

def setMaxBytes (cas : ContentAddressableStorage) (max : Nat) : ContentAddressableStorage :=
  { cas with maxBytes := max }

def «exists» (cas : ContentAddressableStorage) (hash : Hash) : Bool :=
  (cas.objects.lookup hash).isSome

def refCount (cas : ContentAddressableStorage) (hash : Hash) : Nat :=
  ((cas.objects.lookup hash).map (·.refCount)).getD 0

/-- Thirty days, in the seconds of `current_time`. -/
def thirtyDays : Nat := 30 * 24 * 60 * 60

/-- The removing loop of `garbage_collect`: it stops once enough is freed. -/
def collect (needed : Nat) (objects : SortedMap Hash StoredObject) (freed : Nat) :
    List Hash → SortedMap Hash StoredObject × Nat
  | [] => (objects, freed)
  | hash :: toRemove =>
    match objects.lookup hash with
    | some obj =>
      if needed ≤ freed + obj.data.length then (objects.erase hash, freed + obj.data.length)
      else collect needed (objects.erase hash) (freed + obj.data.length) toRemove
    | none => collect needed objects freed toRemove

/-- The objects `garbage_collect` may remove, in the order of their hashes. -/
def toRemove (objects : SortedMap Hash StoredObject) (cutoff : Nat) : List Hash :=
  (objects.entries.filter fun e => e.2.refCount = 0 ∧ e.2.lastAccessed < cutoff).map (·.1)

def garbageCollect (cas : ContentAddressableStorage) (now needed : Nat) :
    Option (Except StorageError Unit × ContentAddressableStorage) := do
  let cutoff ← checkedSub now thirtyDays
  let collected := collect needed cas.objects 0 (toRemove cas.objects cutoff)
  let total ← checkedSub cas.totalBytes collected.2
  return (.ok (), { cas with objects := collected.1, totalBytes := total })

/-- The last part of `put`: a new object with one reference. -/
def store (cas : ContentAddressableStorage) (now : Nat) (data : List U8) :
    Except StorageError Hash × ContentAddressableStorage :=
  (.ok (Hash.ofData data),
    { cas with
      totalBytes := cas.totalBytes + data.length
      objects := cas.objects.insert (Hash.ofData data) ⟨data, 1, now, now⟩ })

def put (cas : ContentAddressableStorage) (now : Nat) (data : List U8) :
    Option (Except StorageError Hash × ContentAddressableStorage) :=
  match cas.objects.lookup (Hash.ofData data) with
  | some existing =>
    some (.ok (Hash.ofData data),
      { cas with
        objects :=
          cas.objects.insert (Hash.ofData data)
            { existing with refCount := existing.refCount + 1 } })
  | none =>
    if 0 < cas.maxBytes ∧ cas.maxBytes < cas.totalBytes + data.length then
      (cas.garbageCollect now data.length).bind fun r =>
        match r.1 with
        | .error e => some (.error e, r.2)
        | .ok () =>
          if r.2.maxBytes < r.2.totalBytes + data.length then some (.error .outOfSpace, r.2)
          else some (r.2.store now data)
    else some (cas.store now data)

def get (cas : ContentAddressableStorage) (now : Nat) (hash : Hash) :
    Option (List U8) × ContentAddressableStorage :=
  match cas.objects.lookup hash with
  | some object =>
    (some object.data,
      { cas with objects := cas.objects.insert hash { object with lastAccessed := now } })
  | none => (none, cas)

def refInc (cas : ContentAddressableStorage) (hash : Hash) :
    Except StorageError Unit × ContentAddressableStorage :=
  match cas.objects.lookup hash with
  | some object =>
    (.ok (),
      { cas with
        objects := cas.objects.insert hash { object with refCount := object.refCount + 1 } })
  | none => (.error .notFound, cas)

def refDec (cas : ContentAddressableStorage) (hash : Hash) :
    Option (Except StorageError Unit × ContentAddressableStorage) :=
  match cas.objects.lookup hash with
  | some object =>
    (checkedSub object.refCount 1).bind fun newCount =>
      if newCount = 0 then
        (checkedSub cas.totalBytes object.data.length).map fun total =>
          (.ok (), { cas with totalBytes := total, objects := cas.objects.erase hash })
      else
        some (.ok (),
          { cas with objects := cas.objects.insert hash { object with refCount := newCount } })
  | none => some (.error .notFound, cas)

def remove (cas : ContentAddressableStorage) (hash : Hash) :
    Option (Bool × ContentAddressableStorage) :=
  match cas.objects.lookup hash with
  | some obj =>
    (checkedSub cas.totalBytes obj.data.length).map fun total =>
      (true, { cas with totalBytes := total, objects := cas.objects.erase hash })
  | none => some (false, cas)

/-! ## The books -/

/-- The bytes of one entry of the store. -/
def objectBytes (_hash : Hash) (object : StoredObject) : Nat := object.data.length

/-- The bytes of all stored objects. -/
def storedBytes (objects : SortedMap Hash StoredObject) : Nat := objects.weight objectBytes

/-- `total_bytes` is the number of bytes stored, and everything stored is referenced. -/
structure Accounted (cas : ContentAddressableStorage) : Prop where
  total : cas.totalBytes = storedBytes cas.objects
  referenced : ∀ hash object, cas.objects.lookup hash = some object → 1 ≤ object.refCount

variable {cas cas' : ContentAddressableStorage} {hash : Hash} {object : StoredObject}

theorem accounted_new : Accounted new where
  total := rfl
  referenced := by simp [new]

variable (h : Accounted cas) (ho : cas.objects.lookup hash = some object)

include h ho in
theorem Accounted.length_le :
    object.data.length ≤ cas.totalBytes := by
  rw [h.total]
  exact SortedMap.le_weight objectBytes ho

include h ho in
/-- An object may be replaced by one with the same data and at least one reference. -/
theorem Accounted.replace
    {object' : StoredObject} (hdata : object'.data = object.data) (hcount : 1 ≤ object'.refCount) :
    Accounted { cas with objects := cas.objects.insert hash object' } where
  total := by
    have hw := SortedMap.weight_insert_old object' objectBytes ho
    show cas.totalBytes = storedBytes (cas.objects.insert hash object')
    rw [h.total]
    simp only [objectBytes, hdata] at hw
    simp only [storedBytes]
    omega
  referenced := by
    intro hash' o ho'
    simp only [SortedMap.lookup_insert] at ho'
    split at ho'
    · exact some.inj ho' ▸ hcount
    · exact h.referenced _ _ ho'

include h ho in
/-- An object may go if its bytes are taken off the total. -/
theorem Accounted.erase :
    Accounted { cas with
      totalBytes := cas.totalBytes - object.data.length, objects := cas.objects.erase hash } where
  total := by
    have hw := SortedMap.weight_erase objectBytes ho
    have ht := h.total
    show cas.totalBytes - object.data.length = storedBytes (cas.objects.erase hash)
    simp only [storedBytes, objectBytes] at hw ht ⊢
    omega
  referenced := by
    intro hash' o ho'
    simp only [SortedMap.lookup_erase] at ho'
    split at ho'
    · cases ho'
    · exact h.referenced _ _ ho'

variable (now : Nat)

include h in
theorem Accounted.store {data : List U8}
    (hnew : cas.objects.lookup (Hash.ofData data) = none) : Accounted (cas.store now data).2 where
  total := by
    have hw := SortedMap.weight_insert_new ⟨data, 1, now, now⟩ objectBytes hnew
    have ht := h.total
    simp only [ContentAddressableStorage.store, storedBytes, objectBytes] at hw ht ⊢
    omega
  referenced := by
    intro hash' o ho'
    simp only [ContentAddressableStorage.store, SortedMap.lookup_insert] at ho'
    split at ho'
    · exact some.inj ho' ▸ le_refl 1
    · exact h.referenced _ _ ho'

/-! ## Collection -/

/-- What the loop removes, it counts; it adds nothing. -/
theorem collect_spec (needed : Nat) (objects : SortedMap Hash StoredObject) (freed : Nat)
    (hashes : List Hash) :
    storedBytes (collect needed objects freed hashes).1 + (collect needed objects freed hashes).2 =
        storedBytes objects + freed ∧
      ∀ hash object, (collect needed objects freed hashes).1.lookup hash = some object →
        objects.lookup hash = some object := by
  induction hashes generalizing objects freed with
  | nil => exact ⟨rfl, fun _ _ h => h⟩
  | cons hash hashes ih =>
    have herase : ∀ hash' object, (objects.erase hash).lookup hash' = some object →
        objects.lookup hash' = some object := by
      intro hash' object h
      rw [SortedMap.lookup_erase] at h
      split at h
      · cases h
      · exact h
    rw [collect]
    split
    next obj hobj =>
      have hw : storedBytes objects = obj.data.length + storedBytes (objects.erase hash) :=
        SortedMap.weight_erase _ hobj
      split
      · refine ⟨?_, herase⟩
        simp only
        omega
      · obtain ⟨ihw, ihl⟩ := ih (objects.erase hash) (freed + obj.data.length)
        exact ⟨by omega, fun hash' object h => herase _ _ (ihl _ _ h)⟩
    · exact ih objects freed

include h in
/-- Thirty days after boot `garbage_collect` always succeeds and keeps the books right. -/
theorem garbageCollect_spec {now : Nat} (hnow : thirtyDays ≤ now)
    (needed : Nat) : ∃ cas', cas.garbageCollect now needed = some (.ok (), cas') ∧ Accounted cas' ∧
      cas'.maxBytes = cas.maxBytes ∧
      ∀ hash object, cas'.objects.lookup hash = some object →
        cas.objects.lookup hash = some object := by
  obtain ⟨hw, hl⟩ := collect_spec needed cas.objects 0 (toRemove cas.objects (now - thirtyDays))
  have ht := h.total
  unfold garbageCollect
  rw [checkedSub_of_le hnow]
  simp only [bind_eq_bind, bind_some]
  rw [checkedSub_of_le (by omega)]
  refine ⟨_, rfl, ⟨?_, ?_⟩, rfl, hl⟩
  · simp only
    omega
  · intro hash object ho
    exact h.referenced hash object (hl hash object ho)

/-! ## One operation -/

include h in
/-- A `put` returns, keeps the books, and stores nothing new beyond the limit. -/
theorem put_spec {now : Nat} (hnow : thirtyDays ≤ now) (data : List U8) :
    ∃ r, cas.put now data = some r ∧ Accounted r.2 ∧ r.2.maxBytes = cas.maxBytes ∧
      ∀ hash, r.1 = .ok hash → hash = Hash.ofData data ∧
        (cas.objects.lookup hash = none → 0 < cas.maxBytes → r.2.totalBytes ≤ cas.maxBytes) := by
  unfold put
  split
  next existing hex =>
    refine ⟨_, rfl, h.replace hex rfl (by simp), rfl, ?_⟩
    intro hash hok
    obtain rfl := Except.ok.inj hok
    refine ⟨rfl, fun hnone => ?_⟩
    rw [hex] at hnone
    cases hnone
  next hnew =>
    split
    · obtain ⟨cas₁, hgc, h₁, hmax, hsub⟩ := garbageCollect_spec h hnow data.length
      have hnew₁ : cas₁.objects.lookup (Hash.ofData data) = none := by
        cases ho : cas₁.objects.lookup (Hash.ofData data) with
        | none => rfl
        | some o => rw [hsub _ _ ho] at hnew; cases hnew
      rw [hgc]
      simp only [bind_some]
      split
      · refine ⟨_, rfl, h₁, hmax, ?_⟩
        intro hash hok
        cases hok
      · refine ⟨_, rfl, h₁.store now hnew₁, hmax, ?_⟩
        intro hash hok
        refine ⟨(Except.ok.inj hok).symm, fun _ _ => ?_⟩
        simp only [store]
        omega
    next hroom =>
      refine ⟨_, rfl, h.store now hnew, rfl, ?_⟩
      intro hash hok
      refine ⟨(Except.ok.inj hok).symm, fun _ _ => ?_⟩
      simp only [store]
      omega

include h in
theorem get_spec (hash : Hash) : Accounted (cas.get now hash).2 := by
  unfold get
  split
  next object ho => exact h.replace ho rfl (h.referenced hash object ho)
  · exact h

include h in
theorem refInc_spec (hash : Hash) : Accounted (cas.refInc hash).2 := by
  unfold refInc
  split
  next object ho => exact h.replace ho rfl (by simp)
  · exact h

include h in
theorem remove_spec (hash : Hash) : ∃ r, cas.remove hash = some r ∧ Accounted r.2 := by
  unfold remove
  split
  next obj ho =>
    rw [checkedSub_of_le (h.length_le ho)]
    exact ⟨_, rfl, h.erase ho⟩
  · exact ⟨_, rfl, h⟩

/-! ## What the store holds

For its users the store is a map from hashes to data and a number of references. -/

def held (cas : ContentAddressableStorage) (hash : Hash) : Option (List U8 × Nat) :=
  (cas.objects.lookup hash).map fun object => (object.data, object.refCount)

theorem refCount_eq_held : cas.refCount hash = ((cas.held hash).map (·.2)).getD 0 := by
  unfold refCount held
  cases cas.objects.lookup hash <;> rfl

/-- Entering an object changes what is held under its hash only. -/
theorem held_insert {max total : Nat} (object : StoredObject) :
    held ⟨cas.objects.insert hash object, total, max⟩ =
      update cas.held hash (some (object.data, object.refCount)) := by
  funext hash'
  rw [update_apply]
  simp only [held, SortedMap.lookup_insert]
  split <;> rfl

theorem held_erase {max total : Nat} :
    held ⟨cas.objects.erase hash, total, max⟩ = update cas.held hash none := by
  funext hash'
  rw [update_apply]
  simp only [held, SortedMap.lookup_erase]
  split <;> rfl

/-- One more reference; if nothing is held yet, to `data`. -/
def referenced (data : List U8) : Option (List U8 × Nat) → List U8 × Nat
  | some (stored, n) => (stored, n + 1)
  | none => (data, 1)

include h in
/-- Without a limit `put` always succeeds. -/
theorem put_of_unlimited (hmax : cas.maxBytes = 0) (now : Nat) (data : List U8) :
    ∃ cas', cas.put now data = some (.ok (Hash.ofData data), cas') ∧ Accounted cas' ∧
      cas'.maxBytes = 0 ∧
      cas'.held = update cas.held (Hash.ofData data)
        (some (referenced data (cas.held (Hash.ofData data)))) := by
  unfold put
  split
  next existing hex =>
    refine ⟨_, rfl, h.replace hex rfl (by simp), hmax, ?_⟩
    rw [held_insert, held, hex]
    rfl
  next hnew =>
    rw [if_neg (by omega)]
    refine ⟨_, rfl, h.store now hnew, hmax, ?_⟩
    show held ⟨cas.objects.insert (Hash.ofData data) ⟨data, 1, now, now⟩, _, _⟩ = _
    rw [held_insert, held, hnew]
    rfl

variable (hash : Hash)

theorem held_get : (cas.get now hash).2.held = cas.held := by
  unfold get
  split
  next object ho =>
    rw [held_insert]
    apply update_eq_self_iff.mpr
    rw [held, ho]
    rfl
  · rfl

theorem get_eq_held :
    (cas.get now hash).1 = (cas.held hash).map (·.1) := by
  unfold get held
  cases cas.objects.lookup hash <;> rfl

theorem maxBytes_get : (cas.get now hash).2.maxBytes = cas.maxBytes := by
  unfold get
  split <;> rfl

theorem held_refInc : (cas.refInc hash).2.held =
      update cas.held hash ((cas.held hash).map fun e => (e.1, e.2 + 1)) := by
  unfold refInc
  split
  next object ho =>
    rw [held_insert, held, ho]
    rfl
  next hnone =>
    symm
    apply update_eq_self_iff.mpr
    rw [held, hnone]
    rfl

theorem maxBytes_refInc : (cas.refInc hash).2.maxBytes = cas.maxBytes := by
  unfold refInc
  split <;> rfl

include h in
/-- The last reference takes the data with it. -/
theorem held_refDec :
    ∃ r, cas.refDec hash = some r ∧ Accounted r.2 ∧ r.2.maxBytes = cas.maxBytes ∧
      r.2.held = update cas.held hash
        ((cas.held hash).bind fun e => if e.2 = 1 then none else some (e.1, e.2 - 1)) := by
  unfold refDec
  split
  next object ho =>
    have hpos := h.referenced _ _ ho
    have hheld : cas.held hash = some (object.data, object.refCount) := by rw [held, ho]; rfl
    rw [checkedSub_of_le hpos, bind_some, hheld, bind_some]
    split
    next hlast =>
      rw [checkedSub_of_le (h.length_le ho), if_pos (show object.refCount = 1 by omega)]
      exact ⟨_, rfl, h.erase ho, rfl, held_erase⟩
    next hmore =>
      rw [if_neg (show object.refCount ≠ 1 by omega)]
      exact ⟨_, rfl, h.replace ho rfl (by simp only; omega), rfl, held_insert _⟩
  next hnone =>
    refine ⟨_, rfl, h, rfl, ?_⟩
    symm
    apply update_eq_self_iff.mpr
    rw [held, hnone]
    rfl

/-! ## Any sequence of operations -/

inductive Op
  | put (data : List U8)
  | get (hash : Hash)
  | refInc (hash : Hash)
  | refDec (hash : Hash)
  | remove (hash : Hash)
  | setMaxBytes (max : Nat)

/-- An operation at a time. -/
structure Call where
  now : Nat
  op : Op

/-- `none` when a subtraction underflows. -/
def step (cas : ContentAddressableStorage) (call : Call) : Option ContentAddressableStorage :=
  match call.op with
  | .put data => (cas.put call.now data).map (·.2)
  | .get hash => some (cas.get call.now hash).2
  | .refInc hash => some (cas.refInc hash).2
  | .refDec hash => (cas.refDec hash).map (·.2)
  | .remove hash => (cas.remove hash).map (·.2)
  | .setMaxBytes max => some (cas.setMaxBytes max)

include h in
/-- Only `put` looks at the clock in a way that can fail. -/
theorem step_spec_of_put {call : Call}
    (hput : ∀ data, call.op = .put data → ∃ r, cas.put call.now data = some r ∧ Accounted r.2) :
    ∃ cas', cas.step call = some cas' ∧ Accounted cas' := by
  unfold step
  cases hop : call.op with
  | put data =>
    obtain ⟨r, hr, h'⟩ := hput data hop
    exact ⟨r.2, by simp [hr], h'⟩
  | get hash => exact ⟨_, rfl, get_spec h call.now hash⟩
  | refInc hash => exact ⟨_, rfl, refInc_spec h hash⟩
  | refDec hash =>
    obtain ⟨r, hr, h', -⟩ := held_refDec h hash
    exact ⟨r.2, by simp [hr], h'⟩
  | remove hash =>
    obtain ⟨r, hr, h'⟩ := remove_spec h hash
    exact ⟨r.2, by simp [hr], h'⟩
  | setMaxBytes max => exact ⟨_, rfl, h.total, h.referenced⟩

include h in
/-- No subtraction underflows, and the books are right afterwards. -/
theorem step_spec {call : Call} (hnow : thirtyDays ≤ call.now) :
    ∃ cas', cas.step call = some cas' ∧ Accounted cas' := by
  apply step_spec_of_put h
  intro data _
  obtain ⟨r, hr, h', -⟩ := put_spec h hnow data
  exact ⟨r, hr, h'⟩

theorem accounted_of_run {τ : List (Transition ContentAddressableStorage Call)}
    (hrun : Run (Steps step) new τ cas) (hclock : ∀ t ∈ τ, thirtyDays ≤ t.label.now) :
    Accounted cas := by
  refine hrun.invariant (C := fun t => thirtyDays ≤ t.label.now) accounted_new ?_ hclock
  intro m call m' hm hstep hnow
  obtain ⟨m₁, hm₁, h₁⟩ := step_spec hm hnow
  exact some.inj (hm₁.symm.trans hstep) ▸ h₁

/-- **Content store accounting.** After any sequence of operations `total_bytes` is the sum of the
lengths of the stored data and every stored object is referenced; no operation then underflows, and
one that stores a new object under a limit ends within the limit. -/
theorem store_accounting {τ : List (Transition ContentAddressableStorage Call)}
    (hrun : Run (Steps step) new τ cas) (hclock : ∀ t ∈ τ, thirtyDays ≤ t.label.now) :
    cas.totalBytes = (cas.objects.entries.map fun e => e.2.data.length).sum ∧
      (∀ hash object, cas.objects.lookup hash = some object → 1 ≤ object.refCount) ∧
      (∀ call : Call, thirtyDays ≤ call.now → (cas.step call).isSome) ∧
      ∀ now data hash cas', thirtyDays ≤ now → cas.put now data = some (.ok hash, cas') →
        cas.objects.lookup hash = none → 0 < cas.maxBytes → cas'.totalBytes ≤ cas'.maxBytes := by
  have h := accounted_of_run hrun hclock
  refine ⟨h.total, h.referenced, ?_, ?_⟩
  · intro call hnow
    obtain ⟨cas', hcas', -⟩ := step_spec h hnow
    rw [hcas']
    rfl
  · intro now data hash cas' hnow hput hnew hpos
    obtain ⟨r, hr, -, hmax, hlimit⟩ := put_spec h hnow data
    rw [hput] at hr
    obtain rfl := some.inj hr
    show cas'.totalBytes ≤ cas'.maxBytes
    rw [hmax]
    exact (hlimit hash rfl).2 hnew hpos

/-- Under a limit of four bytes: three bytes stored, the same again, then two more refused. -/
def threeOfFour : List Call :=
  [⟨thirtyDays, .setMaxBytes 4⟩, ⟨thirtyDays, .put [1, 2, 3]⟩, ⟨thirtyDays, .put [1, 2, 3]⟩,
    ⟨thirtyDays, .put [4, 5]⟩]

/-- The three bytes are counted once. -/
theorem store_accounting_threeOfFour :
    ∃ cas, perform step new threeOfFour = some cas ∧ cas.totalBytes = 3 ∧
      cas.totalBytes = (cas.objects.entries.map fun e => e.2.data.length).sum := by
  obtain ⟨cas, hcas⟩ : ∃ cas, perform step new threeOfFour = some cas :=
    isSome_iff_exists.mp (by decide)
  have htotal : (perform step new threeOfFour).map (·.totalBytes) = some 3 := by decide
  obtain ⟨τ, hrun, hlabels⟩ := exists_run_of_perform hcas
  have hclock : ∀ t ∈ τ, thirtyDays ≤ t.label.now :=
    forall_label (P := fun call => thirtyDays ≤ call.now) hlabels (by decide)
  rw [hcas] at htotal
  exact ⟨cas, hcas, some.inj htotal, (store_accounting hrun hclock).1⟩

end ContentAddressableStorage

end BeastOs.Storage
