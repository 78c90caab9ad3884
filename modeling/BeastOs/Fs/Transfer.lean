import BeastOs.Fs.References
import BeastOs.Ipc.BoostRing

/-!
# Transfers between processes

`RingTransferManager` of `fs/ring_transfer.rs` works on the same registry as the file system. A
transfer passes a token id through a ring; `accept_transfer` registers a second token for the same
content, but the store's count is not raised.

So the count of an object is the number of tokens the file system made for it, and deleting the last
of those drops content that an accepted token still refers to. `present_iff_keepsShared` says that
this is the only way: in a run every registered token's content is there exactly as long as every
deletion that drops an object finds no other token for it.
-/

namespace BeastOs.Fs

open Option Function Lib Storage

/-! ## The manager -/

structure FileTransferRequest where
  requestId : U64
  sourceTokenHigh : U64
  sourceTokenLow : U64
  targetProcess : Nat
  transferType : U8
  permissions : Permissions
  expiresInSeconds : Nat

def FileTransferRequest.sourceTokenId (request : FileTransferRequest) : TokenId :=
  TokenId.fromRaw request.sourceTokenHigh request.sourceTokenLow

structure FileTransferResponse where
  requestId : U64
  success : U8
  newTokenHigh : U64
  newTokenLow : U64
  contentHash : Hash
  errorCode : U8

inductive TransferType
  | tokenOnly
  | tokenWithContent
  deriving DecidableEq, Repr

def TransferType.toU8 : TransferType → U8
  | .tokenOnly => 0
  | .tokenWithContent => 1

inductive TransferError
  | tokenNotFound
  | permissionDenied
  | ringFull
  | expired
  | contentNotFound
  | notADirectory
  deriving DecidableEq, Repr

structure TransferState where
  sourceToken : Token
  targetProcess : Nat
  created : Nat

structure RingTransferManager where
  requestRing : BeastSpscRing FileTransferRequest 8
  responseRing : BeastSpscRing FileTransferResponse 8
  activeTransfers : SortedMap U64 TransferState
  nextRequestId : U64

namespace RingTransferManager

/-- Zeroed slots, as in a new ring. -/
def new : RingTransferManager where
  requestRing := .new ⟨0, 0, 0, 0, 0, 0, 0⟩
  responseRing := .new ⟨0, 0, 0, 0, Hash.ofData [], 0⟩
  activeTransfers := SortedMap.empty
  nextRequestId := 1

/-- `none` when the permission check does not end (see `Token.checkPermission`). -/
def sendFile (manager : RingTransferManager) (registry : Registry) (ticks : Nat)
    (sourceTokenId : TokenId) (targetProcess : Nat) (transferType : TransferType)
    (permissions : Permissions) (expiresInSeconds : Option Nat) (senderUserId : Nat) :
    Option (Except TransferError U64 × RingTransferManager) :=
  match registry.lookup sourceTokenId with
  | none => some (.error .tokenNotFound, manager)
  | some sourceToken =>
    (sourceToken.checkPermission registry ticks Permissions.share senderUserId
      (Token.chainBound registry)).map fun allowed =>
        if allowed then
          let requestId := manager.nextRequestId
          let request : FileTransferRequest :=
            ⟨requestId, sourceTokenId.high, sourceTokenId.low, targetProcess, transferType.toU8,
              permissions, expiresInSeconds.getD 0⟩
          let state : TransferState :=
            ⟨sourceToken, targetProcess, FileSystem.currentTime ticks⟩
          let enqueued := manager.requestRing.enqueue request
          ((match enqueued.1 with
            | .ok () => .ok requestId
            | .error _ => .error .ringFull),
            { manager with
              nextRequestId := requestId + 1
              activeTransfers := manager.activeTransfers.insert requestId state
              requestRing := enqueued.2 })
        else (.error .permissionDenied, manager)

def receiveTransfers (manager : RingTransferManager) :
    List FileTransferRequest × RingTransferManager :=
  let ring := manager.requestRing
  let drained := ring.drain ((ring.tail - ring.head).toNat + 1)
  (drained.1, { manager with requestRing := drained.2 })

/-- `id` is the random id of the new token. A full response ring is an error, but the token is
registered by then. -/
def acceptTransfer (manager : RingTransferManager) (registry : Registry) (ticks : Nat)
    (id : TokenId) (request : FileTransferRequest) (recipientUserId : Nat) (recipientPath : Path) :
    Except TransferError TokenId × RingTransferManager × Registry :=
  if 0 < request.expiresInSeconds ∧ request.expiresInSeconds < FileSystem.currentTime ticks then
    (.error .expired, manager, registry)
  else
    match registry.lookup request.sourceTokenId with
    | none => (.error .tokenNotFound, manager, registry)
    | some sourceToken =>
      let newToken := Token.newFile id recipientPath sourceToken.contentHash recipientUserId
        sourceToken.size request.permissions
      let response : FileTransferResponse :=
        ⟨request.requestId, 1, id.high, id.low, sourceToken.contentHash, 0⟩
      let enqueued := manager.responseRing.enqueue response
      ((match enqueued.1 with
        | .ok () => .ok id
        | .error _ => .error .ringFull),
        { manager with responseRing := enqueued.2 }, newToken.register registry)

end RingTransferManager

/-! ## The file system and the transfers -/

structure Exchange where
  fs : FileSystem
  manager : RingTransferManager

namespace Exchange

inductive Event
  | file (call : Call)
  | send (ticks : Nat) (sourceTokenId : TokenId) (targetProcess : Nat)
      (transferType : TransferType) (permissions : Permissions) (expiresInSeconds : Option Nat)
      (senderUserId : Nat)
  | receive
  | accept (ticks : Nat) (id : TokenId) (request : FileTransferRequest) (recipientUserId : Nat)
      (recipientPath : Path)

def new : Exchange := ⟨.new, .new⟩

/-- Token ids are fresh. -/
def step (s : Exchange) : Event → Option Exchange
  | .file call => (s.fs.step call).map fun fs => { s with fs := fs }
  | .send ticks sourceTokenId targetProcess transferType permissions expiresInSeconds userId =>
    (s.manager.sendFile s.fs.registry ticks sourceTokenId targetProcess transferType permissions
      expiresInSeconds userId).map fun r => { s with manager := r.2 }
  | .receive => some { s with manager := s.manager.receiveTransfers.2 }
  | .accept ticks id request userId path =>
    if s.fs.registry.lookup id = none then
      let r := s.manager.acceptTransfer s.fs.registry ticks id request userId path
      some ⟨{ s.fs with registry := r.2.2 }, r.2.1⟩
    else none

/-- No registered file token is dangling. -/
def Present (s : Exchange) : Prop :=
  ∀ id token, s.fs.registry.lookup id = some token → token.tokenType = .file →
    s.fs.cas.exists token.contentHash

/-- A deletion that succeeds and drops the last counted reference to an object finds no other
registered token for it. -/
def KeepsShared (t : Transition Exchange Event) : Prop :=
  ∀ ticks path userId, t.label = .file ⟨ticks, .delete path userId⟩ →
    ∀ fs', t.src.fs.deleteFile ticks path userId = some (.ok (), fs') →
      ∀ id token, t.src.fs.pathCache.resolve path = some id →
        t.src.fs.registry.lookup id = some token → t.src.fs.cas.refCount token.contentHash = 1 →
        ∀ id' token', t.src.fs.registry.lookup id' = some token' →
          token'.contentHash = token.contentHash → id' = id

variable {s s' : Exchange} {e : Event} {id : TokenId} {file : File}

/-- The links are in order and no token is dangling. -/
structure Sound (s : Exchange) : Prop where
  wired : s.fs.Wired
  present : ∀ id file, s.fs.files.lookup id = some file →
    (s.fs.cas.held file.contentHash).isSome

theorem sound_new : Sound new where
  wired := FileSystem.wired_new
  present := by intro id file h; cases h

theorem present_iff (h : s.fs.Wired) : Present s ↔ ∀ id file, s.fs.files.lookup id = some file →
      (s.fs.cas.held file.contentHash).isSome := by
  have hheld : ∀ hash, (s.fs.cas.held hash).isSome = s.fs.cas.exists hash := by
    intro hash
    rw [ContentAddressableStorage.held, isSome_map]
    rfl
  constructor
  · intro hpresent id file hfile
    have htype := (h.links.file id file hfile).2.1
    rw [FileSystem.lookup_files] at hfile
    obtain ⟨token, htoken, rfl⟩ := map_eq_some_iff.mp hfile
    rw [hheld]
    exact hpresent id token htoken htype
  · intro hpresent id token htoken _
    rw [← hheld]
    exact hpresent id token.file (FileSystem.files_registered htoken)

/-- What an event can do to the files. -/
theorem step_cases (h : s.fs.Wired) (hstep : s.step e = some s') :
    (∃ call r, e = .file call ∧ s.fs.run call = some (r, s'.fs) ∧ s'.fs.Wired ∧
        FileSystem.Effect s.fs call.op r s'.fs) ∨
      ((∀ call, e ≠ .file call) ∧ s'.fs.cas = s.fs.cas ∧ s'.fs.pathCache = s.fs.pathCache ∧
        (s'.fs.files = s.fs.files ∨ ∃ id sourceId file owner permissions,
          s.fs.files.lookup sourceId = some file ∧
          s'.fs.files = s.fs.files.insert id (.fresh id file.contentHash owner permissions))) := by
  cases e with
  | file call =>
    left
    obtain ⟨fs', hcall, rfl⟩ := map_eq_some_iff.mp hstep
    unfold FileSystem.step at hcall
    split at hcall
    next hfresh =>
      obtain ⟨r, fs₁, hrun, hwired, heffect⟩ := FileSystem.run_spec h hfresh
      rw [hrun] at hcall
      obtain rfl := some.inj hcall
      exact ⟨call, r, rfl, hrun, hwired, heffect⟩
    · cases hcall
  | send =>
    right
    obtain ⟨r, -, rfl⟩ := map_eq_some_iff.mp hstep
    exact ⟨fun _ hcall => (by cases hcall), rfl, rfl, Or.inl rfl⟩
  | receive =>
    right
    obtain rfl := some.inj hstep
    exact ⟨fun _ hcall => (by cases hcall), rfl, rfl, Or.inl rfl⟩
  | accept ticks id request userId path =>
    right
    dsimp only [step] at hstep
    split at hstep
    · obtain rfl := some.inj hstep
      refine ⟨fun _ hcall => (by cases hcall), rfl, rfl, ?_⟩
      show FileSystem.files { s.fs with registry := _ } = s.fs.files ∨ _
      unfold RingTransferManager.acceptTransfer
      split
      · exact .inl rfl
      · split
        · exact .inl rfl
        next sourceToken hsource =>
          refine .inr ⟨id, request.sourceTokenId, sourceToken.file, userId,
            request.permissions, ?_, SortedMap.mapValues_insert _ _ _ _⟩
          exact FileSystem.files_registered hsource
    · cases hstep

/-- Every event leaves the links in order. -/
theorem Sound.wired_step (h : Sound s) (hstep : s.step e = some s') : s'.fs.Wired := by
  obtain ⟨_, _, _, _, hwired, _⟩ | ⟨_, hcas, hcache, hfiles⟩ := step_cases h.wired hstep
  · exact hwired
  · refine ⟨hcas ▸ h.wired.accounted, hcas ▸ h.wired.unlimited, ?_⟩
    rw [hcache]
    rcases hfiles with hsame | ⟨id, _, file, owner, permissions, _, hinsert⟩
    · rw [hsame]
      exact h.wired.links
    · rw [hinsert]
      exact h.wired.links.register

/-- Content stays present where neither the objects nor the files change. -/
theorem present_of_same (h : Sound s) (hwired : s'.fs.Wired)
    (hheld : s'.fs.cas.held = s.fs.cas.held) (hfiles : s'.fs.files = s.fs.files) : Present s' := by
  rw [present_iff hwired, hheld, hfiles]
  exact h.present

/-- Content stays present where every object is kept and a new token refers to one that is there. -/
theorem present_of_insert (h : Sound s) (hwired : s'.fs.Wired)
    (hheld : ∀ hash, (s.fs.cas.held hash).isSome → (s'.fs.cas.held hash).isSome)
    (hfiles : s'.fs.files = s.fs.files.insert id file)
    (hnew : (s'.fs.cas.held file.contentHash).isSome) : Present s' := by
  rw [present_iff hwired, hfiles]
  intro id' file' hfile'
  rw [SortedMap.lookup_insert] at hfile'
  split at hfile'
  · cases hfile'
    exact hnew
  · exact hheld _ (h.present id' file' hfile')

/-- A deletion leaves content present exactly if it does not drop an object another file needs. -/
theorem Sound.present_delete_iff (h : Sound s) (hwired : s'.fs.Wired)
    (hfile : s.fs.files.lookup id = some file)
    (hheld : s'.fs.cas.held = update s.fs.cas.held file.contentHash
      ((s.fs.cas.held file.contentHash).bind fun e =>
        if e.2 = 1 then none else some (e.1, e.2 - 1)))
    (hfiles : s'.fs.files = s.fs.files.erase id) :
    Present s' ↔ (s.fs.cas.refCount file.contentHash = 1 →
      ∀ id' file', s.fs.files.lookup id' = some file' →
        file'.contentHash = file.contentHash → id' = id) := by
  obtain ⟨entry, hentry⟩ := isSome_iff_exists.mp (h.present id file hfile)
  have hcount : s.fs.cas.refCount file.contentHash = entry.2 := by
    rw [ContentAddressableStorage.refCount_eq_held, hentry]
    rfl
  rw [present_iff hwired, hfiles, hheld, hcount, hentry, bind_some]
  constructor
  · intro hpresent hlast id' file' hfile' hhash
    by_contra hne
    -- the other file would be left without its content
    have hsome := hpresent id' file' (by rw [SortedMap.lookup_erase_of_ne _ hne, hfile'])
    rw [hhash, update_self, if_pos hlast] at hsome
    cases hsome
  · intro hshared id' file' hfile'
    rw [SortedMap.lookup_erase] at hfile'
    split at hfile'
    · cases hfile'
    next hne =>
      rw [update_apply]
      split
      next hhash =>
        have hmore : entry.2 ≠ 1 := fun hlast => hne (hshared hlast id' file' hfile' hhash)
        rw [if_neg hmore]
        rfl
      · exact h.present id' file' hfile'

/-- An event that deletes nothing has nothing to keep. -/
theorem keepsShared_of_not_delete {ticks : Nat} {op : Op} {r : Except FileError Unit}
    (hrun : s.fs.run ⟨ticks, op⟩ = some (r, s'.fs))
    (hne : ∀ path userId, op = .delete path userId → ∃ e, r = .error e) :
    KeepsShared ⟨s, .file ⟨ticks, op⟩, s'⟩ := by
  intro ticks' path userId hlabel fs' hdelete
  cases hlabel
  obtain ⟨e, rfl⟩ := hne path userId rfl
  cases hdelete.symm.trans hrun

/-- What a deletion has to keep, in terms of the files. -/
theorem keepsShared_delete_iff {ticks userId : Nat} {path : Path}
    (hrun : s.fs.run ⟨ticks, .delete path userId⟩ = some (.ok (), s'.fs))
    (hpath : s.fs.pathCache.resolve path = some id) (hfile : s.fs.files.lookup id = some file) :
    KeepsShared ⟨s, .file ⟨ticks, .delete path userId⟩, s'⟩ ↔
      (s.fs.cas.refCount file.contentHash = 1 →
        ∀ id' file', s.fs.files.lookup id' = some file' →
          file'.contentHash = file.contentHash → id' = id) := by
  obtain ⟨token, htoken, rfl⟩ : ∃ token, s.fs.registry.lookup id = some token ∧
      token.file = file := by
    rw [FileSystem.lookup_files] at hfile
    exact map_eq_some_iff.mp hfile
  constructor
  · intro hkeeps hlast id' file' hfile' hhash
    rw [FileSystem.lookup_files] at hfile'
    obtain ⟨token', htoken', rfl⟩ := map_eq_some_iff.mp hfile'
    exact hkeeps ticks path userId rfl s'.fs hrun id token hpath htoken hlast id' token'
      htoken' hhash
  · intro hshared ticks' path' userId' hlabel fs' _ id₁ token₁ hpath₁ htoken₁ hlast id' token'
      htoken' hhash
    cases hlabel
    obtain rfl := some.inj (hpath.symm.trans hpath₁)
    obtain rfl := some.inj (htoken.symm.trans htoken₁)
    exact hshared hlast id' token'.file
      (FileSystem.files_registered htoken') hhash

/-- **One event.** Content stays present exactly if the event keeps what is shared. -/
theorem Sound.present_step_iff (h : Sound s) (hstep : s.step e = some s') :
    Present s' ↔ KeepsShared ⟨s, e, s'⟩ := by
  have hwired := h.wired_step hstep
  obtain ⟨⟨ticks, op⟩, r, rfl, hrun, -, heffect⟩ | ⟨hcall, hcas, hcache, hfiles⟩ :=
    step_cases h.wired hstep
  · have hother := keepsShared_of_not_delete hrun
    cases heffect with
    | kept hquiet hheld hfiles hcache =>
      refine iff_of_true (present_of_same h hwired hheld hfiles) (hother ?_)
      rintro path userId rfl
      rcases hquiet with ⟨_, _, hread⟩ | herror
      · cases hread
      · exact herror
    | @saved id path data owner permissions fs' hfresh hheld hfiles hcache =>
      refine iff_of_true (present_of_insert h hwired ?_ hfiles ?_)
        (hother nofun)
      · intro hash hsome
        rw [hheld, update_apply]
        split
        · rfl
        · exact hsome
      · rw [hheld]
        show (update s.fs.cas.held (Hash.ofData data) _ (Hash.ofData data)).isSome
        rw [update_self]
        rfl
    | moved hold hheld hfiles hcache =>
      exact iff_of_true (present_of_same h hwired hheld hfiles)
        (hother nofun)
    | @copied id src dst userId srcId file fs' hfresh hsrc hfile hheld hfiles hcache =>
      have hmono : ∀ hash, (s.fs.cas.held hash).isSome → (s'.fs.cas.held hash).isSome := by
        intro hash hsome
        rw [hheld, update_apply]
        split
        next heq =>
          rw [isSome_map, ← heq]
          exact hsome
        · exact hsome
      exact iff_of_true (present_of_insert h hwired hmono hfiles
        (hmono _ (h.present srcId file hfile))) (hother nofun)
    | @deleted path userId id file fs' hpath hfile hheld hfiles hcache =>
      rw [h.present_delete_iff hwired hfile hheld hfiles]
      exact (keepsShared_delete_iff hrun hpath hfile).symm
  · have hkeeps : KeepsShared ⟨s, e, s'⟩ := by
      intro ticks path userId hlabel
      exact absurd hlabel (hcall _)
    refine iff_of_true ?_ hkeeps
    have hheld : s'.fs.cas.held = s.fs.cas.held := by rw [hcas]
    rcases hfiles with hsame | ⟨id, sourceId, source, owner, permissions, hsource, hinsert⟩
    · exact present_of_same h hwired hheld hsame
    · refine present_of_insert h hwired (fun hash => ?_) hinsert ?_
      · rw [hheld]
        exact fun hsome => hsome
      · rw [hheld]
        exact h.present sourceId source hsource

/-- **No dangling content across transfers**, up to deletions of shared content: in a run every
registered file token's content is in the store in every state exactly if no deletion drops an
object that another registered token refers to. -/
theorem present_iff_keepsShared {τ : List (Transition Exchange Event)}
    (hrun : Run (Steps step) new τ s) :
    (∀ t ∈ τ, Present t.dst) ↔ ∀ t ∈ τ, KeepsShared t := by
  refine hrun.forall_iff sound_new (fun m e m' hm hstep => hm.present_step_iff hstep) ?_
  intro m e m' hm hstep hkeeps
  have hwired := hm.wired_step hstep
  exact ⟨hwired, (present_iff hwired).mp ((hm.present_step_iff hstep).mpr hkeeps)⟩

/-- User 5 saves a file and sends it, user 6 accepts it. -/
def accepted : List Event :=
  [.file ⟨0, .save 1 "/a".toList [7] 5 Permissions.all⟩,
    .send 0 1 6 .tokenOnly Permissions.read none 5,
    .receive,
    .accept 0 2 ⟨1, 0, 1, 6, 0, Permissions.read, 0⟩ 6 "/b".toList]

/-- No file is deleted, so all contents are present. -/
theorem present_accepted : ∃ s τ, Run (Steps step) new τ s ∧ τ.map (·.label) = accepted ∧
    ∀ t ∈ τ, Present t.dst := by
  obtain ⟨s, hs⟩ : ∃ s, perform step new accepted = some s :=
    isSome_iff_exists.mp (by decide +kernel)
  obtain ⟨τ, hrun, hlabels⟩ := exists_run_of_perform hs
  have hnone : ∀ t ∈ τ, ∀ ticks path userId, t.label ≠ .file ⟨ticks, .delete path userId⟩ := by
    refine forall_label
      (P := fun e => ∀ ticks path userId, e ≠ .file ⟨ticks, .delete path userId⟩) hlabels ?_
    intro e he ticks path userId hdelete
    simp only [accepted, List.mem_cons, List.not_mem_nil, or_false] at he
    rcases he with rfl | rfl | rfl | rfl <;> cases hdelete
  refine ⟨s, τ, hrun, hlabels, (present_iff_keepsShared hrun).mpr fun t ht => ?_⟩
  intro ticks path userId hlabel
  exact absurd hlabel (hnone t ht ticks path userId)

/-- When the sender deletes the original, the accepted token's content goes with it. -/
theorem dangling_after_delete : ∃ s τ, Run (Steps step) new τ s ∧
    τ.map (·.label) = accepted ++ [.file ⟨0, .delete "/a".toList 5⟩] ∧ ¬ Present s := by
  obtain ⟨s, hs⟩ : ∃ s,
      perform step new (accepted ++ [.file ⟨0, .delete "/a".toList 5⟩]) = some s :=
    isSome_iff_exists.mp (by decide +kernel)
  have htoken : (perform step new (accepted ++ [.file ⟨0, .delete "/a".toList 5⟩])).map
      (fun s => (s.fs.registry.lookup 2).map fun token =>
        (token.tokenType, s.fs.cas.exists token.contentHash)) =
      some (some (.file, false)) := by decide +kernel
  obtain ⟨τ, hrun, hlabels⟩ := exists_run_of_perform hs
  refine ⟨s, τ, hrun, hlabels, fun hpresent => ?_⟩
  rw [hs, map_some] at htoken
  obtain ⟨token, hlookup, hpair⟩ := map_eq_some_iff.mp (some.inj htoken)
  obtain ⟨htype, hexists⟩ := Prod.mk.inj hpair
  have hthere := hpresent 2 token hlookup htype
  rw [hexists] at hthere
  cases hthere

end Exchange

end BeastOs.Fs
