import BeastOs.Fs.Merkle

/-!
# Verifying the Merkle tree

`verify_integrity` recomputes the hash of the root from its node in the cache. `update_hash` notes
no children in a node, so a folder is compared with what its hash would be without any.

`visit` lists the tokens that an update comes to, with the hashes of their children and without a
cache. The cache then has, under each hash, a node for the first token of the list with that hash
(`updateHash_spec`). The tree verifies exactly if the children of the token that stands under the
root hash add nothing to its hash: their names and hashes, xored together, cancel out.

Main result: `verifies_iff`.
-/

namespace BeastOs.Fs.MerkleTree

open Lib List Option Storage

/-- `none` when the call does not return: the cache stays locked while the children are verified,
and each of them locks it again. -/
def verifyNode (registry : Registry) (tree : MerkleTree) (hash : Hash) :
    Option (Except MerkleError Bool) :=
  match tree.nodeCache.lookup hash with
  | none => some (.error .nodeNotFound)
  | some node =>
    let recomputed : Except MerkleError Hash :=
      if node.isDirectory then .ok (hashFolder node.name node.parentHash node.children)
      else
        match registry.lookup node.tokenId with
        | none => .error .tokenNotFound
        | some token => .ok (hashFile token.contentHash node.name node.parentHash)
    match recomputed with
    | .error e => some (.error e)
    | .ok recomputed =>
      if recomputed ≠ hash then some (.ok false)
      else if node.children.entries = [] then some (.ok true) else none

def verifyIntegrity (registry : Registry) (tree : MerkleTree) : Option (Except MerkleError Bool) :=
  match tree.rootHash with
  | none => some (.error .noRoot)
  | some rootHash => verifyNode registry tree rootHash

/-! ## Data with one hash -/

/-- What the data, from index `n` on, add to place `j` of the hash. -/
def folded : List U8 → Nat → Nat → U8
  | [], _, _ => 0
  | b :: data, n, j => (if n % 32 = j then b else 0) ^^^ folded data (n + 1) j

theorem folded_append (data data' : List U8) (n j : Nat) :
    folded (data ++ data') n j = folded data n j ^^^ folded data' (n + data.length) j := by
  induction data generalizing n with
  | nil => simp [folded]
  | cons b data ih =>
    rw [cons_append, folded, folded, ih, BitVec.xor_assoc, length_cons]
    congr 3
    omega

/-- Data that start later go around to other places, each to its own. -/
theorem folded_add (data : List U8) (n m : Nat) {j : Nat} (hj : j < 32) :
    folded data (n + m) ((j + m) % 32) = folded data n j := by
  induction data generalizing n with
  | nil => rfl
  | cons b data ih =>
    have hplace : (n + m) % 32 = (j + m) % 32 ↔ n % 32 = j := by omega
    simp only [folded, hplace]
    rw [← ih (n + 1), Nat.add_right_comm]

theorem getElem?_mix (hash data : List U8) (n j : Nat) :
    (mix hash (data.zipIdx n))[j]? = hash[j]?.map (· ^^^ folded data n j) := by
  induction data generalizing hash n with
  | nil => simp [mix, folded]
  | cons b data ih =>
    rw [zipIdx_cons]
    show (mix (hash.modify (n % 32) (· ^^^ b)) (data.zipIdx (n + 1)))[j]? = _
    rw [ih, List.getElem?_modify]
    cases hash[j]? with
    | none => rfl
    | some c => by_cases hj : n % 32 = j <;> simp [folded, hj, BitVec.xor_assoc]

theorem simpleHash_eq_iff {data data' : List U8} :
    simpleHash data = simpleHash data' ↔ ∀ j < 32, folded data 0 j = folded data' 0 j := by
  have hplace : ∀ (data : List U8) (j : Nat), j < 32 →
      (simpleHash data).val[j]? = some (folded data 0 j) := by
    intro data j hj
    show (mix (List.replicate 32 0) (data.zipIdx 0))[j]? = _
    rw [getElem?_mix, List.getElem?_replicate_of_lt hj]
    simp
  constructor
  · intro heq j hj
    exact some.inj ((hplace data j hj).symm.trans (heq ▸ hplace data' j hj))
  · intro hsame
    refine Subtype.ext (ext_getElem? fun j => ?_)
    by_cases hj : j < 32
    · rw [hplace data j hj, hplace data' j hj, hsame j hj]
    · rw [List.getElem?_eq_none (by rw [(simpleHash data).2]; omega),
        List.getElem?_eq_none (by rw [(simpleHash data').2]; omega)]

/-- Equal data in front do not decide whether two hashes are equal. -/
theorem simpleHash_append_eq_iff (front data data' : List U8) :
    simpleHash (front ++ data) = simpleHash (front ++ data') ↔
      simpleHash data = simpleHash data' := by
  simp only [simpleHash_eq_iff, folded_append, BitVec.xor_right_inj]
  constructor
  · intro h j hj
    rw [← folded_add data 0 front.length hj, ← folded_add data' 0 front.length hj]
    exact h _ (Nat.mod_lt _ (by decide))
  · intro h j hj
    -- the place that goes around to `j`
    obtain ⟨i, hi, rfl⟩ : ∃ i < 32, (i + front.length) % 32 = j :=
      ⟨(j + (32 - front.length % 32)) % 32, Nat.mod_lt _ (by decide), by omega⟩
    rw [folded_add _ _ _ hi, folded_add _ _ _ hi]
    exact h i hi

/-! ## Hashing without the cache -/

/-- A token that an update comes to, and the hashes of its children. -/
structure Visit where
  id : TokenId
  token : Token
  children : SortedMap Path Hash

/-- The names and hashes of the children, one after the other. -/
def childBytes (children : SortedMap Path Hash) : List U8 :=
  children.entries.flatMap fun child => pathBytes child.1 ++ child.2.val

namespace Visit

def hash (v : Visit) : Hash :=
  if v.token.tokenType = .file then hashFile v.token.contentHash v.token.path none
  else hashFolder v.token.path none v.children

/-- The node that `update_hash` makes for the token. -/
def node (v : Visit) : MerkleNode :=
  ⟨v.hash, v.id, v.token.path, none, SortedMap.empty, v.token.tokenType = .folder, v.token.size⟩

/-- The children add to the hash what is hashed in their place when the token is verified: nothing
for a folder, and the content for a share or a move, which are verified like files. -/
def Bare (v : Visit) : Prop :=
  v.token.tokenType = .file ∨
    simpleHash (childBytes v.children) =
      simpleHash (if v.token.tokenType = .folder then [] else v.token.contentHash.val)

end Visit

/-- The tokens below some children, and the hashes of the children by their paths. -/
def visitChildren (visit : TokenId → Option (List Visit × Visit)) (registry : Registry) :
    List TokenId → SortedMap Path Hash → Option (List Visit × SortedMap Path Hash)
  | [], hashes => some ([], hashes)
  | id :: ids, hashes =>
    (registry.lookup id).bind fun child => (visit id).bind fun r =>
      (visitChildren visit registry ids (hashes.insert child.path r.2.hash)).map fun r' =>
        (r.1 ++ [r.2] ++ r'.1, r'.2)

/-- The tokens below a token, children before their folder, and the token itself; `none` when one is
missing or when folders nest deeper than `depth`. -/
def visit (registry : Registry) : (depth : Nat) → TokenId → Option (List Visit × Visit)
  | 0, _ => none
  | depth + 1, id =>
    (registry.lookup id).bind fun token =>
      (if token.tokenType = .file then some ([], SortedMap.empty)
        else visitChildren (visit registry depth) registry token.children SortedMap.empty).map
          fun r => (r.1, ⟨id, token, r.2⟩)

section Depth

variable {registry : Registry} {v v' : TokenId → Option (List Visit × Visit)} {id : TokenId}
  {r r' : List Visit × Visit} {depth depth' : Nat}

theorem visitChildren_mono (h : ∀ id r, v id = some r → v' id = some r) {ids : List TokenId}
    {hashes : SortedMap Path Hash} {r : List Visit × SortedMap Path Hash}
    (hr : visitChildren v registry ids hashes = some r) :
    visitChildren v' registry ids hashes = some r := by
  induction ids generalizing hashes r with
  | nil => exact hr
  | cons id ids ih =>
    obtain ⟨child, hchild, hr⟩ := bind_eq_some_iff.mp hr
    obtain ⟨below, hbelow, hr⟩ := bind_eq_some_iff.mp hr
    obtain ⟨rest, hrest, rfl⟩ := map_eq_some_iff.mp hr
    rw [visitChildren, hchild, bind_some, h id below hbelow, bind_some, ih hrest, map_some]

theorem visit_succ (h : visit registry depth id = some r) :
    visit registry (depth + 1) id = some r := by
  induction depth generalizing id r with
  | zero => cases h
  | succ depth ih =>
    obtain ⟨token, htoken, h⟩ := bind_eq_some_iff.mp h
    obtain ⟨below, hbelow, rfl⟩ := map_eq_some_iff.mp h
    rw [visit, htoken, bind_some]
    split at hbelow
    next hfile => rw [if_pos hfile, hbelow, map_some]
    next hfile =>
      rw [if_neg hfile, visitChildren_mono (fun _ _ => ih) hbelow, map_some]

theorem visit_mono (h : visit registry depth id = some r) (hle : depth ≤ depth') :
    visit registry depth' id = some r := by
  induction hle with
  | refl => exact h
  | step _ ih => exact visit_succ ih

/-- The depth does not matter, as long as it is enough. -/
theorem visit_unique (h : visit registry depth id = some r)
    (h' : visit registry depth' id = some r') : r = r' :=
  some.inj ((visit_mono h (le_max_left ..)).symm.trans (visit_mono h' (le_max_right ..)))

theorem lookup_of_visit (h : visit registry depth id = some r) :
    r.2.id = id ∧ registry.lookup id = some r.2.token := by
  cases depth with
  | zero => cases h
  | succ depth =>
    obtain ⟨token, htoken, h⟩ := bind_eq_some_iff.mp h
    obtain ⟨below, -, rfl⟩ := map_eq_some_iff.mp h
    exact ⟨rfl, htoken⟩

end Depth

/-! ## The cache -/

/-- The cache has a node for the first token with each hash, and these tokens have been visited with
all that is below them. -/
structure Shows (registry : Registry) (tree : MerkleTree) (visits : List Visit) : Prop where
  cached : ∀ hash, tree.nodeCache.lookup hash = (visits.find? (·.hash = hash)).map Visit.node
  closed : ∀ v ∈ visits, ∃ depth below, visit registry depth v.id = some (below, v) ∧
    below ⊆ visits

variable {registry : Registry} {tree tree' : MerkleTree} {visits more : List Visit} {v : Visit}
  {tokenId : TokenId} {token : Token} {hash : Hash}

/-- Visiting tokens again leaves the cache as it is. -/
theorem Shows.append (h : Shows registry tree visits) (hmore : more ⊆ visits) :
    Shows registry tree (visits ++ more) := by
  refine ⟨fun hash => ?_, fun v hv => ?_⟩
  · rw [h.cached, List.find?_append]
    cases hfirst : visits.find? (·.hash = hash) with
    | some v => rfl
    | none =>
      have hnone : more.find? (·.hash = hash) = none :=
        List.find?_eq_none.mpr fun v hv => List.find?_eq_none.mp hfirst v (hmore hv)
      rw [hnone, none_or]
  · have hv' : v ∈ visits := (mem_append.mp hv).elim id fun hv => hmore hv
    obtain ⟨depth, below, hvisit, hbelow⟩ := h.closed v hv'
    exact ⟨depth, below, hvisit, fun w hw => mem_append_left _ (hbelow hw)⟩

/-- A token is recorded after what is below it. -/
theorem Shows.record (h : Shows registry tree visits) {depth : Nat} {below : List Visit}
    (hvisit : visit registry depth v.id = some (below, v)) (hbelow : below ⊆ visits) :
    Shows registry (tree.record v.id v.token v.hash) (visits ++ [v]) := by
  refine ⟨fun hash => ?_, fun w hw => ?_⟩
  · rw [List.find?_append, List.find?_singleton]
    have hcached := h.cached v.hash
    unfold MerkleTree.record
    cases hfirst : visits.find? (·.hash = v.hash) with
    | none =>
      rw [hfirst] at hcached
      simp only [hcached, map_none, SortedMap.lookup_insert]
      by_cases heq : hash = v.hash
      · subst heq
        rw [hfirst]
        simp [Visit.node]
      · simp [heq, Ne.symm heq, h.cached hash]
    | some w =>
      have hw : w.hash = v.hash := of_decide_eq_true (List.find?_some hfirst :)
      rw [hfirst] at hcached
      simp only [hcached, map_some, SortedMap.lookup_insert]
      by_cases heq : hash = v.hash
      · subst heq
        rw [hfirst]
        simp [Visit.node, hw]
      · simp [heq, Ne.symm heq, h.cached hash]
  · rcases mem_append.mp hw with hw | hw
    · obtain ⟨depth', below', hvisit', hbelow'⟩ := h.closed w hw
      exact ⟨depth', below', hvisit', fun x hx => mem_append_left _ (hbelow' hx)⟩
    · obtain rfl := mem_singleton.mp hw
      exact ⟨depth, below, hvisit, fun x hx => mem_append_left _ (hbelow hx)⟩

/-- A computation that returns the hash of the token and leaves a node for all it comes to. -/
def Hashes (registry : Registry) (hashOf : TokenId → Update Hash) : Prop :=
  ∀ ⦃id tree hash tree' visits⦄, hashOf id tree = some (.ok hash, tree') →
    Shows registry tree visits → ∃ depth below v, visit registry depth id = some (below, v) ∧
      v.hash = hash ∧ Shows registry tree' (visits ++ (below ++ [v]))

/-- A node that is found belongs to a token that was visited before. -/
theorem hashes_getHashForToken {update : TokenId → Update Hash} (hupdate : Hashes registry update) :
    Hashes registry (getHashForToken update) := by
  intro id tree hash tree' visits hhash h
  unfold getHashForToken at hhash
  split at hhash
  next found node hfound =>
    cases hhash
    have hlookup := SortedMap.lookup_of_mem (mem_of_find?_eq_some hfound)
    have hid : node.tokenId = id := of_decide_eq_true (List.find?_some hfound :)
    rw [h.cached] at hlookup
    obtain ⟨v, hv, rfl⟩ := map_eq_some_iff.mp hlookup
    obtain rfl : v.id = id := hid
    obtain ⟨depth, below, hvisit, hbelow⟩ := h.closed v (mem_of_find?_eq_some hv)
    refine ⟨depth, below, v, hvisit, of_decide_eq_true (List.find?_some hv :), h.append ?_⟩
    exact append_subset.mpr
      ⟨hbelow, cons_subset.mpr ⟨mem_of_find?_eq_some hv, nil_subset _⟩⟩
  · exact hupdate hhash h

theorem getChildrenHashes_spec {hashOf : TokenId → Update Hash} (hof : Hashes registry hashOf)
    {children : List TokenId} {hashes hashes' : SortedMap Path Hash}
    (hr : getChildrenHashes hashOf registry children hashes tree = some (.ok hashes', tree'))
    (h : Shows registry tree visits) :
    ∃ depth below, visitChildren (visit registry depth) registry children hashes =
      some (below, hashes') ∧ Shows registry tree' (visits ++ below) := by
  induction children generalizing hashes tree visits with
  | nil =>
    cases hr
    exact ⟨0, [], rfl, by rwa [append_nil]⟩
  | cons id children ih =>
    unfold getChildrenHashes at hr
    split at hr
    · cases hr
    next child hchild =>
      obtain ⟨⟨result, tree₁⟩, hhash, hr⟩ := bind_eq_some_iff.mp hr
      cases result with
      | error e => cases hr
      | ok hash =>
        obtain ⟨depth₁, below₁, v, hvisit, rfl, h₁⟩ := hof hhash h
        obtain ⟨depth₂, below₂, hrest, h₂⟩ := ih hr h₁
        refine ⟨max depth₁ depth₂, below₁ ++ [v] ++ below₂, ?_, by rwa [append_assoc] at h₂⟩
        have hrest' := visitChildren_mono
          (fun _ _ hvisit => visit_mono hvisit (le_max_right depth₁ depth₂)) hrest
        rw [visitChildren, hchild, bind_some, visit_mono hvisit (le_max_left ..), bind_some,
          hrest', map_some]

/-- **What an update leaves in the cache.** -/
theorem updateHash_spec (registry : Registry) (fuel : Nat) :
    Hashes registry (updateHash registry fuel) := by
  induction fuel with
  | zero => exact fun _ _ _ _ _ hr => by cases hr
  | succ fuel ih =>
    intro id tree hash tree' visits hr h
    unfold updateHash at hr
    split at hr
    · cases hr
    next token htoken =>
      obtain ⟨⟨result, tree₁⟩, hhash, hr⟩ := map_eq_some_iff.mp hr
      cases result with
      | error e => cases hr
      | ok newHash =>
        cases hr
        -- what is below the token, and the hashes of its children
        obtain ⟨depth, below, hashes, hbelow, hnew, h₁⟩ : ∃ depth below hashes,
            visit registry (depth + 1) id = some (below, ⟨id, token, hashes⟩) ∧
            Visit.hash ⟨id, token, hashes⟩ = hash ∧ Shows registry tree₁ (visits ++ below) := by
          unfold tokenHash at hhash
          split at hhash
          next hfile =>
            cases hhash
            refine ⟨0, [], SortedMap.empty, ?_, if_pos hfile, by rwa [append_nil]⟩
            rw [visit, htoken, bind_some, if_pos hfile, map_some]
          next hfile =>
            obtain ⟨⟨result, tree₂⟩, hchildren, hr⟩ := map_eq_some_iff.mp hhash
            cases result with
            | error e => cases hr
            | ok hashes =>
              cases hr
              obtain ⟨depth, below, hvisit, h₁⟩ :=
                getChildrenHashes_spec (hashes_getHashForToken ih) hchildren h
              refine ⟨depth, below, hashes, ?_, if_neg hfile, h₁⟩
              rw [visit, htoken, bind_some, if_neg hfile, hvisit, map_some]
        refine ⟨depth + 1, below, ⟨id, token, hashes⟩, hbelow, hnew, ?_⟩
        rw [← append_assoc, ← hnew]
        exact h₁.record (v := ⟨id, token, hashes⟩) hbelow (subset_append_right _ _)

/-- A token without a parent becomes the root. -/
theorem updateHash_rootHash {fuel : Nat} (htoken : registry.lookup tokenId = some token)
    (hparent : token.parent = none)
    (hok : updateHash registry fuel tokenId tree = some (.ok hash, tree')) :
    tree'.rootHash = some hash := by
  cases fuel with
  | zero => cases hok
  | succ fuel =>
    rw [updateHash, htoken] at hok
    obtain ⟨⟨result, tree₁⟩, -, hr⟩ := map_eq_some_iff.mp hok
    cases result with
    | error e => cases hr
    | ok newHash =>
      cases hr
      exact if_pos hparent

/-! ## Verification -/

/-- The token under a hash is compared with what it would be without children. -/
theorem Shows.verifyNode_iff (h : Shows registry tree visits)
    (hv : visits.find? (·.hash = hash) = some v) :
    verifyNode registry tree hash = some (.ok true) ↔ v.Bare := by
  have hhash : v.hash = hash := of_decide_eq_true (List.find?_some hv :)
  obtain ⟨depth, below, hvisit, -⟩ := h.closed v (mem_of_find?_eq_some hv)
  have hlookup : registry.lookup v.id = some v.token := (lookup_of_visit hvisit).2
  have hentries : (SortedMap.empty : SortedMap Path Hash).entries = [] := rfl
  have hcompare : ∀ a b : Hash, (if a ≠ b then some (.ok false) else some (.ok true)) =
      (some (.ok true) : Option (Except MerkleError Bool)) ↔ a = b := by
    intro a b
    by_cases heq : a = b <;> simp [heq]
  have hiff : ∀ data, simpleHash (parentBytes none ++ pathBytes v.token.path ++ data) =
      hashFolder v.token.path none v.children ↔
        simpleHash (childBytes v.children) = simpleHash data :=
    fun data => (simpleHash_append_eq_iff _ _ _).trans eq_comm
  unfold verifyNode
  rw [h.cached, hv, map_some, ← hhash]
  unfold Visit.node Visit.Bare Visit.hash
  simp only [hlookup, hentries, decide_eq_true_eq, if_true]
  cases htype : v.token.tokenType with
  | file => simp
  | folder =>
    simp only [reduceCtorEq, if_true, if_false, false_or]
    exact (hcompare _ _).trans (hiff [])
  | share | move =>
    simp only [reduceCtorEq, if_false, false_or]
    exact (hcompare _ _).trans (hiff _)

/-- **A freshly hashed tree** verifies exactly if the first token with the hash of the root (that is
the root, unless something below it has the same hash) has no children, or children that cancel
out. -/
theorem verifies_iff {fuel : Nat} (htoken : registry.lookup tokenId = some token)
    (hparent : token.parent = none)
    (hok : updateHash registry fuel tokenId new = some (.ok hash, tree)) :
    verifyIntegrity registry tree = some (.ok true) ↔
      ∃ depth below root v, visit registry depth tokenId = some (below, root) ∧
        (below ++ [root]).find? (·.hash = root.hash) = some v ∧ v.Bare := by
  have hnew : Shows registry new [] := ⟨fun _ => rfl, by simp⟩
  obtain ⟨depth, below, root, hvisit, hroot, h⟩ := updateHash_spec registry fuel hok hnew
  rw [nil_append] at h
  obtain ⟨v, hv⟩ : ∃ v, (below ++ [root]).find? (·.hash = root.hash) = some v := by
    refine isSome_iff_exists.mp (List.find?_isSome.mpr ⟨root, ?_, decide_eq_true rfl⟩)
    exact mem_append_right _ (mem_singleton_self _)
  unfold verifyIntegrity
  rw [updateHash_rootHash htoken hparent hok, ← hroot]
  refine (h.verifyNode_iff hv).trans ⟨fun hbare => ⟨_, _, _, _, hvisit, hv, hbare⟩, ?_⟩
  rintro ⟨depth', below', root', v', hvisit', hv', hbare⟩
  obtain ⟨rfl, rfl⟩ := Prod.mk.inj (visit_unique hvisit hvisit')
  exact some.inj (hv.symm.trans hv') ▸ hbare

/-- A folder with a file in it. -/
def folderRegistry (data : List U8) : Registry :=
  let folder := { Token.newFolder 1 "/d".toList 0 Permissions.read with children := [2] }
  (SortedMap.empty.insert 1 folder).insert 2
    (Token.newFile 2 "/d/f".toList (Hash.ofData data) 0 1 Permissions.read)

/-- A content that undoes the name of the file and the name in its hash. -/
def cancelling : List U8 := List.replicate 24 0 ++ pathBytes "/d/f/d/f".toList

/-- The folder verifies if its file has such a content. -/
theorem verifies_cancelling : ∃ hash tree,
    updateHash (folderRegistry cancelling) 2 1 new = some (.ok hash, tree) ∧
      verifyIntegrity (folderRegistry cancelling) tree = some (.ok true) := by
  obtain ⟨hash, tree, hok⟩ : ∃ hash tree,
      updateHash (folderRegistry cancelling) 2 1 new = some (.ok hash, tree) := ⟨_, _, rfl⟩
  refine ⟨hash, tree, hok, (verifies_iff rfl rfl hok).mpr ?_⟩
  refine ⟨2, _, _, _, rfl, rfl, ?_⟩
  exact .inr (by decide +kernel)

/-- With another content it does not. -/
theorem not_verifies_folder :
    (updateHash (folderRegistry [7]) 2 1 new).bind
      (fun r => r.1.toOption.bind fun _ => verifyIntegrity (folderRegistry [7]) r.2) =
      some (.ok false) := by decide +kernel

end BeastOs.Fs.MerkleTree
