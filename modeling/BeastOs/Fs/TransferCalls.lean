import BeastOs.Fs.TransferRights

/-!
# Transfers that fail and transfers that are late

`send_file` notes the transfer before it enqueues the request, and `accept_transfer` registers the
recipient's token before it enqueues the response. Neither is taken back when the ring is full;
every other error is found before anything is written (`leavesNoTrace_iff`).

The request carries the lifetime its sender gave, and not when it was sent; `accept_transfer`
compares the lifetime with the time since boot. So a request expires too early whenever it was sent
late enough (`countsFromSending_iff`).
-/

namespace BeastOs.Fs

open Lib Storage

namespace RingTransferManager

variable {manager manager' : RingTransferManager} {registry registry' : Registry} {ticks : Nat}
  {sourceTokenId : TokenId} {targetProcess : Nat} {transferType : TransferType}
  {permissions : Permissions} {expiresInSeconds : Option Nat} {senderUserId : Nat}
  {id : TokenId} {request : FileTransferRequest} {recipientUserId : Nat} {recipientPath : Path}
  {e : TransferError}

/-! ## What an error leaves behind -/

/-- The same rings and the same noted transfers. -/
def SameTransfers (manager manager' : RingTransferManager) : Prop :=
  manager'.requestRing = manager.requestRing ∧ manager'.responseRing = manager.responseRing ∧
    manager'.activeTransfers = manager.activeTransfers

/-- The checks of `send_file` pass: the token exists, and its sender may share it. -/
def MaySend (registry : Registry) (ticks : Nat) (sourceTokenId : TokenId) (senderUserId : Nat) :
    Prop :=
  ∃ source, registry.lookup sourceTokenId = some source ∧
    source.checkPermission registry ticks Permissions.share senderUserId
      (Token.chainBound registry) = some true

/-- The checks of `accept_transfer` pass: the request has not expired, and its token exists. -/
def MayAccept (registry : Registry) (ticks : Nat) (request : FileTransferRequest) : Prop :=
  ¬ (0 < request.expiresInSeconds ∧ request.expiresInSeconds < FileSystem.currentTime ticks) ∧
    (registry.lookup request.sourceTokenId).isSome

/-- The transfer is noted as `send_file` would note it. -/
def Noted (manager : RingTransferManager) (registry : Registry) (ticks : Nat)
    (sourceTokenId : TokenId) (targetProcess : Nat) : Prop :=
  ∃ source, registry.lookup sourceTokenId = some source ∧
    manager.activeTransfers.lookup manager.nextRequestId =
      some ⟨source, targetProcess, FileSystem.currentTime ticks⟩

/-- The token is registered as `accept_transfer` would register it. -/
def Registered (registry : Registry) (id : TokenId) (request : FileTransferRequest)
    (recipientUserId : Nat) (recipientPath : Path) : Prop :=
  ∃ source, registry.lookup request.sourceTokenId = some source ∧
    registry.lookup id = some (Token.newFile id recipientPath source.contentHash recipientUserId
      source.size request.permissions)

/-- A `send_file` that fails writes something only after its checks, and then the ring is full. -/
theorem sendFile_error
    (hsend : manager.sendFile registry ticks sourceTokenId targetProcess transferType permissions
      expiresInSeconds senderUserId = some (.error e, manager')) : SameTransfers manager manager' ↔
      (manager.requestRing.IsFull → MaySend registry ticks sourceTokenId senderUserId →
        Noted manager registry ticks sourceTokenId targetProcess) := by
  unfold sendFile at hsend
  split at hsend
  next hnone =>
    cases hsend
    refine iff_of_true ⟨rfl, rfl, rfl⟩ ?_
    rintro - ⟨source, hsource, -⟩
    rw [hnone] at hsource
    cases hsource
  next source hsource =>
    obtain ⟨allowed, hcheck, hallowed⟩ := Option.map_eq_some_iff.mp hsend
    split at hallowed
    next htrue =>
      obtain ⟨hresult, rfl⟩ := Prod.mk.inj hallowed
      split at hresult
      · cases hresult
      next v hfull =>
        cases hresult
        obtain ⟨hisFull, hring⟩ := BeastSpscRing.enqueue_error hfull
        have hmay : MaySend registry ticks sourceTokenId senderUserId :=
          ⟨source, hsource, by rw [hcheck, htrue]⟩
        simp [SameTransfers, Noted, hsource, hring, hisFull, hmay, SortedMap.insert_eq_self_iff]
    next hfalse =>
      cases hallowed
      refine iff_of_true ⟨rfl, rfl, rfl⟩ ?_
      rintro - ⟨source', hsource', htrue⟩
      obtain rfl := Option.some.inj (hsource.symm.trans hsource')
      exact absurd (Option.some.inj (hcheck.symm.trans htrue)) hfalse

/-- When an `accept_transfer` that fails leaves no trace. -/
theorem acceptTransfer_error
    (haccept : manager.acceptTransfer registry ticks id request recipientUserId recipientPath =
      (.error e, manager', registry')) : SameTransfers manager manager' ∧ registry' = registry ↔
      (manager.responseRing.IsFull → MayAccept registry ticks request →
        Registered registry id request recipientUserId recipientPath) := by
  unfold acceptTransfer at haccept
  split at haccept
  next hlate =>
    cases haccept
    exact iff_of_true ⟨⟨rfl, rfl, rfl⟩, rfl⟩ fun _ hmay => absurd hlate hmay.1
  next hintime =>
    split at haccept
    next hnone =>
      cases haccept
      refine iff_of_true ⟨⟨rfl, rfl, rfl⟩, rfl⟩ ?_
      rintro - ⟨-, hsome⟩
      rw [hnone] at hsome
      cases hsome
    next source hsource =>
      obtain ⟨hresult, hrest⟩ := Prod.mk.inj haccept
      obtain ⟨rfl, rfl⟩ := Prod.mk.inj hrest
      split at hresult
      · cases hresult
      next v hfull =>
        cases hresult
        obtain ⟨hisFull, hring⟩ := BeastSpscRing.enqueue_error hfull
        have hmay : MayAccept registry ticks request := ⟨hintime, by rw [hsource]; rfl⟩
        have hid : (Token.newFile id recipientPath source.contentHash recipientUserId source.size
          request.permissions).id = id := rfl
        rw [hring]
        simp [SameTransfers, Registered, hsource, hisFull, hmay, Token.register,
          SortedMap.insert_eq_self_iff, hid]

/-- **A failed call leaves no trace, except for a full ring.** The rings, the noted transfers and
the registry are as before exactly if there is room in the ring, or one of the checks before it
fails, or what the call writes was there already. -/
theorem leavesNoTrace_iff (manager : RingTransferManager) (registry : Registry) (ticks : Nat) :
    (∀ sourceTokenId targetProcess transferType permissions expiresInSeconds senderUserId e
      manager',
      sendFile manager registry ticks sourceTokenId targetProcess transferType permissions
        expiresInSeconds senderUserId = some (.error e, manager') →
      (SameTransfers manager manager' ↔
        (manager.requestRing.IsFull → MaySend registry ticks sourceTokenId senderUserId →
          Noted manager registry ticks sourceTokenId targetProcess))) ∧
    ∀ id request recipientUserId recipientPath e manager' registry',
      acceptTransfer manager registry ticks id request recipientUserId recipientPath =
        (.error e, manager', registry') →
      (SameTransfers manager manager' ∧ registry' = registry ↔
        (manager.responseRing.IsFull → MayAccept registry ticks request →
          Registered registry id request recipientUserId recipientPath)) :=
  ⟨fun _ _ _ _ _ _ _ _ => sendFile_error, fun _ _ _ _ _ _ _ => acceptTransfer_error⟩

/-- Both rings are full. -/
def full : RingTransferManager :=
  { new with
    requestRing := { new.requestRing with tail := 256 }
    responseRing := { new.responseRing with tail := 256 } }

/-- User 5's request is refused, but noted; user 6's acceptance is refused, but they have a token.
-/
theorem trace_of_full :
    (∃ manager', full.sendFile sharedOnly 0 1 6 .tokenOnly Permissions.read none 5 =
        some (.error .ringFull, manager') ∧
      manager'.activeTransfers ≠ full.activeTransfers) ∧
    ∃ manager' registry', full.acceptTransfer sharedOnly 0 2 ⟨1, 0, 1, 6, 0, Permissions.read, 0⟩ 6
        "/b".toList = (.error .ringFull, manager', registry') ∧
      registry' ≠ sharedOnly := by
  refine ⟨⟨_, rfl, fun hsame => ?_⟩, ⟨_, _, rfl, fun hsame => ?_⟩⟩
  all_goals
    have hkeys := congrArg (fun m => m.entries.length) hsame
    exact absurd hkeys (by decide)

/-! ## When a request expires -/

theorem acceptTransfer_expired_iff :
    (manager.acceptTransfer registry ticks id request recipientUserId recipientPath).1 =
        .error .expired ↔
      0 < request.expiresInSeconds ∧
        request.expiresInSeconds < FileSystem.currentTime ticks := by
  unfold acceptTransfer
  split
  next hlate => simp [hlate]
  next hintime =>
    refine iff_of_false ?_ hintime
    split
    · simp
    · dsimp only
      split <;> simp

/-- **A lifetime counts from boot.** A request that was sent with a lifetime expires after that time
exactly if it is not accepted later than the lifetime after boot but within it after the sending. -/
theorem countsFromSending_iff {seconds ticks' : Nat} {requestId : U64}
    {receiver : RingTransferManager} (hseconds : 0 < seconds)
    (hsend : manager.sendFile registry ticks sourceTokenId targetProcess transferType permissions
      (some seconds) senderUserId = some (.ok requestId, manager'))
    (hrequest : manager'.receiveTransfers.1.getLast? = some request) :
    ((receiver.acceptTransfer registry' ticks' id request recipientUserId recipientPath).1 =
        .error .expired ↔
      FileSystem.currentTime ticks + seconds < FileSystem.currentTime ticks') ↔
    ¬ (seconds < FileSystem.currentTime ticks' ∧
      FileSystem.currentTime ticks' ≤ FileSystem.currentTime ticks + seconds) := by
  obtain ⟨-, hreceived⟩ := sendFile_spec hsend
  rw [hreceived, List.getLast?_concat] at hrequest
  obtain rfl := Option.some.inj hrequest
  rw [acceptTransfer_expired_iff]
  simp only [Option.getD_some]
  omega

/-- User 5 sends the shared file for 60 seconds. -/
theorem send_minute (ticks : Nat) : ∃ manager request,
    new.sendFile sharedOnly ticks 1 6 .tokenOnly Permissions.read (some 60) 5 =
      some (.ok 1, manager) ∧
    manager.receiveTransfers.1.getLast? = some request := by
  obtain ⟨manager, hsend⟩ : ∃ manager, new.sendFile sharedOnly ticks 1 6 .tokenOnly
      Permissions.read (some 60) 5 = some (.ok 1, manager) := ⟨_, rfl⟩
  have hreceived := congrArg List.getLast? (sendFile_spec hsend).2
  exact ⟨manager, _, hsend, hreceived.trans List.getLast?_concat⟩

/-- A request from boot is in time after half a minute. -/
theorem countsFromSending_boot : ∃ manager request,
    new.sendFile sharedOnly 0 1 6 .tokenOnly Permissions.read (some 60) 5 =
      some (.ok 1, manager) ∧
    (manager.acceptTransfer sharedOnly 3000 2 request 6 "/b".toList).1 ≠ .error .expired := by
  obtain ⟨manager, request, hsend, hrequest⟩ := send_minute 0
  refine ⟨manager, request, hsend, fun hexpired => ?_⟩
  have hlate := ((countsFromSending_iff (by decide) hsend hrequest).mpr (by decide)).mp hexpired
  exact absurd hlate (by decide)

/-- One that is sent 100 seconds after boot has expired at once. -/
theorem expired_at_once : ∃ manager request,
    new.sendFile sharedOnly 10000 1 6 .tokenOnly Permissions.read (some 60) 5 =
      some (.ok 1, manager) ∧
    manager.receiveTransfers.1.getLast? = some request ∧
    (manager.acceptTransfer sharedOnly 10000 2 request 6 "/b".toList).1 = .error .expired ∧
    ¬ FileSystem.currentTime 10000 + 60 < FileSystem.currentTime 10000 := by
  obtain ⟨manager, request, hsend, hrequest⟩ := send_minute 10000
  refine ⟨manager, request, hsend, hrequest, ?_, by decide⟩
  rw [acceptTransfer_expired_iff]
  rw [(sendFile_spec hsend).2, List.getLast?_concat] at hrequest
  obtain rfl := Option.some.inj hrequest
  decide

end RingTransferManager

end BeastOs.Fs
