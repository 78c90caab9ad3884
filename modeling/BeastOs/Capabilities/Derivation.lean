import BeastOs.Capabilities.Table
import BeastOs.Lib.PackedWord

/-!
# Derived capabilities

`Capability::restrict` of `libs/beast_capability` unpacks the fields of a capability and packs them
again with fewer rights. `fields_new` says that what is packed is read back, field by field, so that
`restrict` changes the rights and nothing else, and a capability derived in any number of steps has
no right the first one lacks (`restrictAll_weakens`).
-/

namespace BeastOs.Capabilities

open BitVec Lib

namespace Capability

def objectId (cap : Capability) : U64 := cap.lo &&& 0xFFFFFFFFFFFF

def generation (cap : Capability) : BitVec 32 := cap.hi.setWidth 32

def owner (cap : Capability) : BitVec 16 := (cap.hi >>> 32).setWidth 16

def nonce (cap : Capability) : BitVec 16 := (cap.hi >>> 48).setWidth 16

/-- Rights can be removed, never added. -/
def restrict (cap : Capability) (newRights : Rights) : Capability :=
  new cap.objectId (cap.rights &&& newRights) cap.generation cap.owner cap.nonce

/-- Restrict by each of the masks in turn. -/
def restrictAll (cap : Capability) (masks : List Rights) : Capability := masks.foldl restrict cap

/-! ## Packing -/

/-- What the getters return. -/
structure Fields where
  objectId : U64
  rights : Rights
  generation : BitVec 32
  owner : BitVec 16
  nonce : BitVec 16

def fields (cap : Capability) : Fields :=
  ⟨cap.objectId, cap.rights, cap.generation, cap.owner, cap.nonce⟩

variable {cap : Capability} {id : U64} {r : Rights} {gen : BitVec 32} {own non : BitVec 16}

theorem lo_new : (new id r gen own non).lo = place 64 0 (id.setWidth 48) ||| place 64 48 r := by
  have hmask := and_mask_eq_place (k := 48) (by decide) id
  rw [← hmask]
  rfl

theorem hi_new :
    (new id r gen own non).hi = place 64 0 gen ||| place 64 32 own ||| place 64 48 non := by
  unfold new place
  rw [shiftLeft_zero]

theorem rights_new : (new id r gen own non).rights = r := by
  unfold rights
  rw [setWidth_ushiftRight_eq_extractLsb, lo_new, extractLsb'_or,
    extractLsb'_place_of_disjoint _ (.inr (by decide)), extractLsb'_place _ (by decide),
    zero_or]

theorem objectId_eq : cap.objectId = place 64 0 (cap.lo.extractLsb' 0 48) := by
  have hmask := and_mask_eq_place (k := 48) (by decide) cap.lo
  rw [← setWidth_eq_extractLsb' (by decide), ← hmask]
  rfl

theorem objectId_new : (new id r gen own non).objectId = place 64 0 (id.setWidth 48) := by
  rw [objectId_eq, lo_new, extractLsb'_or, extractLsb'_place _ (by decide),
    extractLsb'_place_of_disjoint _ (.inl (by decide)), or_zero]

theorem generation_new : (new id r gen own non).generation = gen := by
  unfold generation
  rw [setWidth_eq_extractLsb' (by decide), hi_new, extractLsb'_or,
    extractLsb'_or, extractLsb'_place _ (by decide),
    extractLsb'_place_of_disjoint _ (.inl (by decide)),
    extractLsb'_place_of_disjoint _ (.inl (by decide)), or_zero, or_zero]

theorem owner_new : (new id r gen own non).owner = own := by
  unfold owner
  rw [setWidth_ushiftRight_eq_extractLsb, hi_new, extractLsb'_or,
    extractLsb'_or, extractLsb'_place_of_disjoint _ (.inr (by decide)),
    extractLsb'_place _ (by decide), extractLsb'_place_of_disjoint _ (.inl (by decide)),
    zero_or, or_zero]

theorem nonce_new : (new id r gen own non).nonce = non := by
  unfold nonce
  rw [setWidth_ushiftRight_eq_extractLsb, hi_new, extractLsb'_or,
    extractLsb'_or, extractLsb'_place_of_disjoint _ (.inr (by decide)),
    extractLsb'_place_of_disjoint _ (.inr (by decide)), extractLsb'_place _ (by decide),
    zero_or, zero_or]

/-- **Packing loses nothing** but the bits of an object id from bit 48 on. -/
theorem fields_new :
    (new id r gen own non).fields = ⟨place 64 0 (id.setWidth 48), r, gen, own, non⟩ := by
  unfold fields
  rw [objectId_new, rights_new, generation_new, owner_new, nonce_new]

/-! ## Restricting -/

/-- `restrict` changes the rights and nothing else. -/
theorem fields_restrict (cap : Capability) (mask : Rights) :
    (cap.restrict mask).fields = { cap.fields with rights := cap.rights &&& mask } := by
  have hid : place 64 0 (cap.objectId.setWidth 48) = cap.objectId := by
    rw [objectId_eq, setWidth_eq_extractLsb' (by decide), extractLsb'_place _ (by decide)]
  unfold restrict
  rw [fields_new, hid]
  rfl

/-- **A chain of derivations**: the masks are intersected, the other fields stay. -/
theorem fields_restrictAll (cap : Capability) (masks : List Rights) :
    (cap.restrictAll masks).fields =
      { cap.fields with rights := masks.foldl (· &&& ·) cap.rights } := by
  induction masks generalizing cap with
  | nil => rfl
  | cons mask masks ih =>
    have hstep := fields_restrict cap mask
    have hrights : (cap.restrict mask).rights = cap.rights &&& mask :=
      congrArg Fields.rights hstep
    show ((cap.restrict mask).restrictAll masks).fields = _
    rw [ih, hstep, hrights]
    rfl

/-- Intersecting with masks adds no right. -/
theorem getLsbD_of_foldl_and {masks : List Rights} {bit : Nat}
    (h : (masks.foldl (· &&& ·) r).getLsbD bit) : r.getLsbD bit := by
  induction masks generalizing r with
  | nil => exact h
  | cons mask masks ih =>
    have hand : (r &&& mask).getLsbD bit := ih h
    rw [getLsbD_and, Bool.and_eq_true] at hand
    exact hand.1

/-- An object id of 48 bits is packed as it is. -/
theorem place_objectId (h : id.toNat < 2 ^ 48) : place 64 0 (id.setWidth 48) = id := by
  apply eq_of_toNat_eq
  unfold place
  simp only [shiftLeft_zero, toNat_setWidth, Nat.mod_eq_of_lt h, Nat.mod_eq_of_lt id.isLt]

end Capability

namespace CapabilityTable

/-- What was inserted is found under the handle it got. -/
theorem lookup_of_insert {table table' : CapabilityTable} {cap : Capability} {handle : Nat}
    (h : table.insert cap = (some handle, table')) : table'.lookup handle = some cap := by
  obtain ⟨i, -, -, hinsert⟩ | ⟨-, hinsert⟩ := insert_cases table cap
  · rw [hinsert] at h
    cases h
    rw [lookup_update, Function.update_self]
    rfl
  · rw [hinsert] at h
    cases h

/-- `validate` fails when a right is asked for that the capability lacks. -/
theorem validate_eq_error {table : CapabilityTable} {cap : Capability} {handle bit : Nat}
    {required : Rights} (h : table.lookup handle = some cap) (hbit : required.getLsbD bit)
    (hnot : ¬ cap.rights.getLsbD bit) :
    table.validate handle required = .error .insufficientRights := by
  have hright : ¬ cap.hasRight required := fun hhas =>
    hnot (Capability.hasRight_iff.mp hhas bit hbit)
  unfold validate
  rw [h]
  exact if_neg hright

end CapabilityTable

namespace Capability

/-- **Capabilities can only be weakened.** A capability derived from a new one by any chain of
restrictions has its fields and the rights that all masks leave, and a table that holds it, as a
table does after inserting it, validates no right that the new one lacks. -/
theorem restrictAll_weakens (objectId : U64) (rights : Rights) (generation : BitVec 32)
    (owner nonce : BitVec 16) (masks : List Rights) (h : objectId.toNat < 2 ^ 48) :
    let derived := (new objectId rights generation owner nonce).restrictAll masks
    derived.fields = ⟨objectId, masks.foldl (· &&& ·) rights, generation, owner, nonce⟩ ∧
      (∀ (table table' : CapabilityTable) (handle : Nat),
        table.insert derived = (some handle, table') → table'.lookup handle = some derived) ∧
      ∀ (table : CapabilityTable) (handle : Nat), table.lookup handle = some derived →
        ∀ (required : Rights) (bit : Nat), required.getLsbD bit → ¬ rights.getLsbD bit →
          table.validate handle required = .error .insufficientRights := by
  intro derived
  have hfields := fields_restrictAll (new objectId rights generation owner nonce) masks
  rw [fields_new, place_objectId h, rights_new] at hfields
  have hrights : derived.rights = masks.foldl (· &&& ·) rights := congrArg Fields.rights hfields
  refine ⟨hfields, fun _ _ _ => CapabilityTable.lookup_of_insert, ?_⟩
  intro table handle hlookup required bit hrequired hlacks
  refine CapabilityTable.validate_eq_error hlookup hrequired fun hbit => ?_
  rw [hrights] at hbit
  exact hlacks (getLsbD_of_foldl_and hbit)

/-- A capability to read and write object 7, restricted to reading. -/
def readOnly : Capability := (new 7 3 1 2 9).restrictAll [0xFF, 1]

/-- It does not allow executing. -/
theorem restrictAll_weakens_readOnly : (7 : U64).toNat < 2 ^ 48 ∧
    (CapabilityTable.new.insert readOnly).2.validate 0 4 = .error .insufficientRights := by
  have hid : (7 : U64).toNat < 2 ^ 48 := by decide
  obtain ⟨-, hinserted, hvalidate⟩ := restrictAll_weakens 7 3 1 2 9 [0xFF, 1] hid
  have hhandle : (CapabilityTable.new.insert readOnly).1 = some 0 := by decide +kernel
  rcases hinsert : CapabilityTable.new.insert readOnly with ⟨handle, table⟩
  rw [hinsert] at hhandle
  obtain rfl : handle = some 0 := hhandle
  have hlookup := hinserted CapabilityTable.new table 0 hinsert
  exact ⟨hid, hvalidate table 0 hlookup 4 2 (by decide) (by decide)⟩

end Capability

end BeastOs.Capabilities
