import Mathlib.Data.Fintype.Card
import Mathlib.Data.Fin.Basic
import BeastOs.Lib.Runs
import BeastOs.Word

/-!
# The capability table

`CapabilityTable` of `libs/beast_capability`: an array of 256 entries and a counter. A capability is
inserted into the first entry that is not active and found again by the index of that entry, its
handle.

For its users the table is a map from handles to capabilities; `lookup` is that map. `lookup_insert`
and `lookup_revoke` say what the operations do to it, and `boundedHandleMap` that this describes the
table after any history.
-/

namespace BeastOs.Capabilities

open Option Function Lib

/-! ## Capabilities -/

/-- A set of rights, one bit each. -/
abbrev Rights := BitVec 16

/-- `lo` is the object id (48 bits) and the rights, `hi` the generation (32 bits), the owner and the
nonce. -/
structure Capability where
  lo : U64
  hi : U64
  deriving DecidableEq

namespace Capability

def new (objectId : U64) (rightsMask : Rights) (generation : BitVec 32) (owner nonce : BitVec 16) :
    Capability where
  lo := (objectId &&& 0xFFFFFFFFFFFF) ||| (rightsMask.setWidth 64 <<< 48)
  hi := generation.setWidth 64 ||| (owner.setWidth 64 <<< 32) ||| (nonce.setWidth 64 <<< 48)

def null : Capability := ⟨0, 0⟩

def rights (cap : Capability) : Rights := (cap.lo >>> 48).setWidth 16

def hasRight (cap : Capability) (right : Rights) : Bool := cap.rights &&& right = right

/-- A capability has the rights asked for if every bit of them is one of its own. -/
theorem hasRight_iff {cap : Capability} {right : Rights} :
    cap.hasRight right ↔ ∀ bit, right.getLsbD bit → cap.rights.getLsbD bit := by
  rw [hasRight, decide_eq_true_iff]
  constructor
  · intro hand bit hbit
    rw [← hand, BitVec.getLsbD_and, Bool.and_eq_true] at hbit
    exact hbit.1
  · intro hbits
    apply BitVec.eq_of_getLsbD_eq
    intro bit _
    rw [BitVec.getLsbD_and]
    cases hbit : right.getLsbD bit with
    | false => rw [Bool.and_false]
    | true => rw [hbits bit hbit, Bool.and_true]

end Capability

inductive CapError
  | invalidHandle
  | insufficientRights
  | staleGeneration
  | revoked
  deriving DecidableEq, Repr

/-! ## The table -/

def capTableSize : Nat := 256

structure CapEntry where
  cap : Capability
  active : Bool

def CapEntry.empty : CapEntry := ⟨Capability.null, false⟩

/-- What an entry stands for. -/
def CapEntry.view (entry : CapEntry) : Option Capability :=
  if entry.active then some entry.cap else none

structure CapabilityTable where
  entries : Fin capTableSize → CapEntry
  count : Nat

namespace CapabilityTable

def new : CapabilityTable := ⟨fun _ => CapEntry.empty, 0⟩

/-- The first entry that is not active gets the capability. -/
def insert (table : CapabilityTable) (cap : Capability) : Option Nat × CapabilityTable :=
  match Fin.find? fun i => !(table.entries i).active with
  | some i => (some i, ⟨Function.update table.entries i ⟨cap, true⟩, table.count + 1⟩)
  | none => (none, table)

def lookup (table : CapabilityTable) (handle : Nat) : Option Capability :=
  if h : handle < capTableSize then
    if (table.entries ⟨handle, h⟩).active then some (table.entries ⟨handle, h⟩).cap else none
  else none

def validate (table : CapabilityTable) (handle : Nat) (requiredRights : Rights) :
    Except CapError Capability :=
  match table.lookup handle with
  | none => .error .invalidHandle
  | some cap => if cap.hasRight requiredRights then .ok cap else .error .insufficientRights

/-- `none` when the counter would underflow. -/
def revoke (table : CapabilityTable) (handle : Nat) : Option (Bool × CapabilityTable) :=
  if h : handle < capTableSize then
    if (table.entries ⟨handle, h⟩).active then
      if table.count = 0 then none
      else
        some (true,
          ⟨Function.update table.entries ⟨handle, h⟩ ⟨Capability.null, false⟩, table.count - 1⟩)
    else some (false, table)
  else some (false, table)

/-- The active entries. -/
def actives (table : CapabilityTable) : Finset (Fin capTableSize) :=
  Finset.univ.filter fun i => (table.entries i).active

/-- The counter counts the active entries. -/
def Counted (table : CapabilityTable) : Prop := table.count = table.actives.card

variable {table table' : CapabilityTable} {cap : Capability} {handle : Nat}

theorem mem_actives {i : Fin capTableSize} : i ∈ table.actives ↔ (table.entries i).active := by
  simp [actives]

theorem counted_new : Counted new := by
  simp [Counted, actives, new, CapEntry.empty]

/-! ## What the operations do to the map of handles -/

variable (i : Fin capTableSize)

theorem lookup_val : table.lookup i = (table.entries i).view :=
  dif_pos i.isLt

theorem lookup_of_le (h : capTableSize ≤ handle) : table.lookup handle = none :=
  dif_neg (not_lt.mpr h)

theorem lookup_new (handle : Nat) : new.lookup handle = none := by
  by_cases hlt : handle < capTableSize
  · exact lookup_val ⟨handle, hlt⟩
  · exact lookup_of_le (not_lt.mp hlt)

/-- Writing an entry changes what its handle stands for. -/
theorem lookup_update (entry : CapEntry) (count : Nat) :
    lookup ⟨update table.entries i entry, count⟩ = update table.lookup i.val entry.view := by
  funext handle
  by_cases hlt : handle < capTableSize
  · have hval : lookup ⟨update table.entries i entry, count⟩ handle =
        (update table.entries i entry ⟨handle, hlt⟩).view := lookup_val ⟨handle, hlt⟩
    rw [hval]
    by_cases heq : (⟨handle, hlt⟩ : Fin capTableSize) = i
    · subst heq
      rw [update_self, update_self]
    · have hne : handle ≠ i.val := fun h => heq (Fin.ext h)
      rw [update_of_ne heq, update_of_ne hne, ← lookup_val]
  · have hne : handle ≠ i.val := by
      have hi := i.isLt
      omega
    simp only [update_of_ne hne, lookup_of_le (not_lt.mp hlt)]

/-- Writing an entry makes it active or not. -/
theorem actives_update (entry : CapEntry) (count : Nat) :
    actives ⟨update table.entries i entry, count⟩ =
      if entry.active then Insert.insert i table.actives else table.actives.erase i := by
  ext j
  by_cases hj : j = i <;> cases hactive : entry.active <;> simp [hj, hactive, mem_actives]

/-- `insert` finds the least inactive handle, unless there is none. -/
theorem insert_cases (table : CapabilityTable) (cap : Capability) :
    (∃ i : Fin capTableSize, (table.entries i).active = false ∧
        (∀ j < i, (table.entries j).active) ∧
        table.insert cap =
          (some i.val, ⟨update table.entries i ⟨cap, true⟩, table.count + 1⟩)) ∨
      (∀ i, (table.entries i).active) ∧ table.insert cap = (none, table) := by
  unfold insert
  split
  next i hfind =>
    obtain ⟨hfree, hleast⟩ := Fin.find?_eq_some_iff.mp hfind
    refine .inl ⟨i, by simpa using hfree, fun j hj => ?_, rfl⟩
    simpa using hleast j hj
  next hnone =>
    refine .inr ⟨fun i => ?_, rfl⟩
    simpa using Fin.find?_eq_none_iff.mp hnone i

/-- `revoke` frees an active handle; the counter does not underflow. -/
theorem revoke_cases (h : Counted table) (handle : Nat) :
    (∃ i : Fin capTableSize, i.val = handle ∧ i ∈ table.actives ∧
        table.revoke handle = some (true,
          ⟨update table.entries i ⟨Capability.null, false⟩, table.count - 1⟩)) ∨
      table.lookup handle = none ∧ table.revoke handle = some (false, table) := by
  unfold revoke
  split
  next hlt =>
    have hval : table.lookup handle = (table.entries ⟨handle, hlt⟩).view := lookup_val ⟨handle, hlt⟩
    split
    next hactive =>
      have hmem : (⟨handle, hlt⟩ : Fin capTableSize) ∈ table.actives := mem_actives.mpr hactive
      have hpos : table.count ≠ 0 := by
        rw [h]
        exact (Finset.card_pos.mpr ⟨_, hmem⟩).ne'
      refine .inl ⟨⟨handle, hlt⟩, rfl, hmem, ?_⟩
      rw [if_neg hpos]
    next hactive =>
      rw [CapEntry.view, if_neg hactive] at hval
      exact .inr ⟨hval, rfl⟩
  next hle => exact .inr ⟨lookup_of_le (not_lt.mp hle), rfl⟩

/-- All entries are active when there are as many as entries. -/
theorem card_actives_eq_iff :
    table.actives.card = capTableSize ↔ ∀ i, (table.entries i).active := by
  have hcard := Finset.card_eq_iff_eq_univ table.actives
  rw [Fintype.card_fin, Finset.eq_univ_iff_forall] at hcard
  rw [hcard]
  simp only [mem_actives]

/-! ## Runs -/

inductive Call
  | insert (cap : Capability)
  | lookup (handle : Nat)
  | validate (handle : Nat) (requiredRights : Rights)
  | revoke (handle : Nat)

/-- The table after a call. -/
def step (table : CapabilityTable) : Call → Option CapabilityTable
  | .insert cap => some (table.insert cap).2
  | .lookup _ | .validate .. => some table
  | .revoke handle => (table.revoke handle).map (·.2)

/-- What a call adds to or takes from the capabilities handed out. -/
def handOut (given : Nat → Option Capability) (t : Transition CapabilityTable Call) :
    Nat → Option Capability :=
  match t.label with
  | .insert cap =>
    match (t.src.insert cap).1 with
    | some handle => Function.update given handle (some cap)
    | none => given
  | .revoke handle => Function.update given handle none
  | .lookup _ | .validate .. => given

/-- The capability last inserted at each handle and not revoked since. -/
def lastInserted (τ : List (Transition CapabilityTable Call)) : Nat → Option Capability :=
  τ.foldl handOut fun _ => none

/-- The counter is right and handles stand for what was inserted. -/
structure Sound (τ : List (Transition CapabilityTable Call)) (table : CapabilityTable) : Prop where
  counted : Counted table
  lookup : table.lookup = lastInserted τ

theorem Counted.insert (h : Counted table) (cap : Capability) : Counted (table.insert cap).2 := by
  obtain ⟨i, hfree, -, hinsert⟩ | ⟨-, hinsert⟩ := insert_cases table cap
  · have hnot : i ∉ table.actives := by
      rw [mem_actives, hfree]
      exact Bool.false_ne_true
    rw [hinsert, Counted, actives_update, if_pos rfl, Finset.card_insert_of_notMem hnot, ← h]
  · rw [hinsert]
    exact h

theorem Counted.revoke (h : Counted table) {r : Bool × CapabilityTable}
    (hrevoke : table.revoke handle = some r) : Counted r.2 := by
  obtain ⟨i, -, hmem, hsome⟩ | ⟨-, hsome⟩ := revoke_cases h handle
  · obtain rfl := some.inj (hsome.symm.trans hrevoke)
    rw [Counted, actives_update, if_neg Bool.false_ne_true, Finset.card_erase_of_mem hmem, ← h]
  · obtain rfl := some.inj (hsome.symm.trans hrevoke)
    exact h

variable {τ : List (Transition CapabilityTable Call)}

/-- **One call** keeps the counter right and the handles as they were handed out. -/
theorem Sound.step (h : Sound τ table) {call : Call}
    (hstep : table.step call = some table') : Sound (τ ++ [⟨table, call, table'⟩]) table' := by
  have hlast : lastInserted (τ ++ [⟨table, call, table'⟩]) =
      handOut table.lookup ⟨table, call, table'⟩ := by
    simp only [h.lookup, lastInserted, List.foldl_append, List.foldl_cons, List.foldl_nil]
  cases call with
  | insert cap =>
    obtain rfl := some.inj hstep
    refine ⟨h.counted.insert cap, ?_⟩
    rw [hlast]
    unfold handOut
    dsimp only
    obtain ⟨i, -, -, hinsert⟩ | ⟨-, hinsert⟩ := insert_cases table cap
    · rw [hinsert, lookup_update]
      rfl
    · rw [hinsert]
  | lookup handle | validate handle requiredRights =>
    obtain rfl := some.inj hstep
    exact ⟨h.counted, by rw [hlast]; rfl⟩
  | revoke handle =>
    obtain ⟨r, hrevoke, rfl⟩ := map_eq_some_iff.mp hstep
    refine ⟨h.counted.revoke hrevoke, ?_⟩
    rw [hlast]
    show r.2.lookup = update table.lookup handle none
    obtain ⟨i, rfl, -, hsome⟩ | ⟨hnone, hsome⟩ := revoke_cases h.counted handle
    · obtain rfl := some.inj (hsome.symm.trans hrevoke)
      rw [lookup_update]
      rfl
    · obtain rfl := some.inj (hsome.symm.trans hrevoke)
      exact (update_eq_self_iff.mpr hnone.symm).symm

/-- After any history the counter is right and the handles stand for what was inserted. -/
theorem sound_of_run
    (hrun : Run (Steps step) new τ table) : Sound τ table := by
  induction hrun with
  | nil =>
    exact ⟨counted_new, funext lookup_new⟩
  | snoc _ hstep ih => exact ih.step hstep

theorem Counted.step_isSome (h : Counted table) (call : Call) : (table.step call).isSome := by
  cases call with
  | insert | lookup | validate => rfl
  | revoke handle =>
    rw [step, isSome_map]
    obtain ⟨_, _, _, hsome⟩ | ⟨_, hsome⟩ := revoke_cases h handle <;> rw [hsome] <;> rfl

/-- `insert` in terms of handles: the least that stands for nothing, if there is one. -/
theorem insert_spec (table : CapabilityTable) (cap : Capability) :
    (∃ handle, (table.insert cap).1 = some handle ∧ handle < capTableSize ∧
        table.lookup handle = none ∧ (∀ handle' < handle, (table.lookup handle').isSome) ∧
        (table.insert cap).2.lookup = update table.lookup handle (some cap)) ∨
      (∀ i, (table.entries i).active) ∧ (table.insert cap).1 = none ∧
        (table.insert cap).2 = table := by
  obtain ⟨i, hfree, hleast, hinsert⟩ | ⟨hfull, hinsert⟩ := insert_cases table cap
  · left
    rw [hinsert]
    refine ⟨i, rfl, i.isLt, ?_, fun handle hlt => ?_, lookup_update i _ _⟩
    · rw [lookup_val, CapEntry.view, hfree, if_neg Bool.false_ne_true]
    · have hactive := hleast ⟨handle, hlt.trans i.isLt⟩ hlt
      have hval : table.lookup handle = (table.entries ⟨handle, hlt.trans i.isLt⟩).view :=
        lookup_val ⟨handle, hlt.trans i.isLt⟩
      rw [CapEntry.view, if_pos hactive] at hval
      rw [hval]
      rfl
  · right
    rw [hinsert]
    exact ⟨hfull, rfl, rfl⟩

/-- `insert` fails exactly on a full table. -/
theorem insert_eq_none_iff (cap : Capability) :
    (table.insert cap).1 = none ↔ table.actives.card = capTableSize := by
  rw [card_actives_eq_iff]
  obtain ⟨i, hfree, -, hinsert⟩ | ⟨hfull, hinsert⟩ := insert_cases table cap
  · rw [hinsert]
    refine iff_of_false (some_ne_none _) fun hfull => ?_
    rw [hfull i] at hfree
    cases hfree
  · rw [hinsert]
    exact iff_of_true rfl hfull

/-- `revoke` in terms of handles. -/
theorem Counted.revoke_spec (h : Counted table) (handle : Nat) :
    ∃ table', table.revoke handle = some ((table.lookup handle).isSome, table') ∧
      table'.lookup = update table.lookup handle none := by
  obtain ⟨i, rfl, hmem, hsome⟩ | ⟨hnone, hsome⟩ := revoke_cases h handle
  · have hlookup : (table.lookup i).isSome = true := by
      rw [lookup_val, CapEntry.view, if_pos (mem_actives.mp hmem)]
      rfl
    rw [hsome, hlookup]
    exact ⟨_, rfl, lookup_update i ⟨Capability.null, false⟩ _⟩
  · rw [hsome, hnone]
    exact ⟨table, rfl, (update_eq_self_iff.mpr hnone.symm).symm⟩

theorem validate_eq_ok_iff {requiredRights : Rights} :
    table.validate handle requiredRights = .ok cap ↔ table.lookup handle = some cap ∧
      ∀ bit, requiredRights.getLsbD bit → cap.rights.getLsbD bit := by
  rw [← Capability.hasRight_iff]
  unfold validate
  cases table.lookup handle with
  | none => simp
  | some cap' =>
    dsimp only
    by_cases hright : cap'.hasRight requiredRights
    · rw [if_pos hright, Except.ok.injEq, some.injEq]
      constructor
      · rintro rfl
        exact ⟨rfl, hright⟩
      · exact And.left
    · rw [if_neg hright]
      refine iff_of_false nofun ?_
      rintro ⟨hcap, hcap'⟩
      obtain rfl := some.inj hcap
      exact hright hcap'

/-- **The table is a bounded handle map.** After any history of calls on a new table:

* the counter is the number of active entries, and no further call underflows it;
* a handle stands for the capability last inserted at it and not revoked since;
* `insert` returns the least handle that stands for nothing and makes it, and no other, stand for
  the capability; it returns nothing and changes nothing exactly if all 256 entries are active;
* `revoke` succeeds exactly on handles that stand for something, and frees that handle only;
* `validate` succeeds exactly if the handle stands for a capability with every right asked for, and
  like `lookup` changes nothing. -/
theorem boundedHandleMap {τ : List (Transition CapabilityTable Call)}
    (hrun : Run (Steps step) new τ table) :
    table.count = table.actives.card ∧
      (∀ call, (table.step call).isSome) ∧
      table.lookup = lastInserted τ ∧
      (∀ cap,
        (∃ handle, (table.insert cap).1 = some handle ∧ handle < capTableSize ∧
            table.lookup handle = none ∧ (∀ handle' < handle, (table.lookup handle').isSome) ∧
            (table.insert cap).2.lookup = Function.update table.lookup handle (some cap)) ∨
          (∀ i, (table.entries i).active) ∧ (table.insert cap).1 = none ∧
            (table.insert cap).2 = table) ∧
      (∀ cap, (table.insert cap).1 = none ↔ table.actives.card = capTableSize) ∧
      (∀ handle, ∃ table', table.revoke handle = some ((table.lookup handle).isSome, table') ∧
        table'.lookup = Function.update table.lookup handle none) ∧
      (∀ handle requiredRights cap, table.validate handle requiredRights = .ok cap ↔
        table.lookup handle = some cap ∧
          ∀ bit, requiredRights.getLsbD bit → cap.rights.getLsbD bit) ∧
      ∀ handle requiredRights, table.step (.lookup handle) = some table ∧
        table.step (.validate handle requiredRights) = some table := by
  obtain ⟨hcounted, hlookup⟩ := sound_of_run hrun
  refine ⟨hcounted, hcounted.step_isSome, hlookup, table.insert_spec, insert_eq_none_iff,
    hcounted.revoke_spec, fun _ _ _ => validate_eq_ok_iff, fun _ _ => ⟨rfl, rfl⟩⟩

/-- Read access to an object. -/
def readObject (objectId : U64) : Capability := Capability.new objectId 1 0 0 0

/-- Two capabilities are inserted, the first is revoked, and its handle is used again. -/
def reuse : List Call :=
  [.insert (readObject 7), .insert (readObject 8), .revoke 0, .insert (readObject 9)]

/-- Handle 0 then has the third capability. -/
theorem boundedHandleMap_reuse : ∃ table τ, Run (Steps step) new τ table ∧
    τ.map (·.label) = reuse ∧ table.actives.card = 2 ∧ lastInserted τ 0 = some (readObject 9) := by
  have hstate : (perform step new reuse).map (fun table => (table.count, table.lookup 0)) =
      some (2, some (readObject 9)) := by decide +kernel
  obtain ⟨table, htable, hvalues⟩ := map_eq_some_iff.mp hstate
  obtain ⟨hcount, hlookup⟩ := Prod.mk.inj hvalues
  obtain ⟨τ, hrun, hlabels⟩ := exists_run_of_perform htable
  obtain ⟨hcounted, -, hlast, -⟩ := boundedHandleMap hrun
  exact ⟨table, τ, hrun, hlabels, hcounted.symm.trans hcount, hlast ▸ hlookup⟩

end CapabilityTable

end BeastOs.Capabilities
