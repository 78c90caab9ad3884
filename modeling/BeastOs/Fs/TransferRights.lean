import BeastOs.Fs.Transfer

/-!
# Rights that come with a transfer

`send_file` asks whether the sender may share the token; the rights it passes on are the caller's
argument. They go through the request ring unchanged, and `accept_transfer` makes the recipient's
token with exactly those rights.

So the recipient's rights are within those of the source exactly if the sender asked for no others
(`attenuated_iff_within`).
-/

namespace BeastOs.Fs

open Lib Storage

/-- Every right of the first is a right of the second. -/
def Permissions.Within (permissions permissions' : Permissions) : Prop :=
  ∀ bit, permissions.getLsbD bit → permissions'.getLsbD bit

/-! ## From the sender's argument to the recipient's token -/

namespace RingTransferManager

variable {manager manager' : RingTransferManager} {registry : Registry} {ticks : Nat}
  {sourceTokenId : TokenId} {targetProcess : Nat} {transferType : TransferType}
  {permissions : Permissions} {expiresInSeconds : Option Nat} {senderUserId : Nat}
  {requestId : U64}

/-- A request that was sent is for a registered token. It is the last the recipient finds, with the
rights the sender asked for. -/
theorem sendFile_spec
    (hsend : manager.sendFile registry ticks sourceTokenId targetProcess transferType permissions
      expiresInSeconds senderUserId = some (.ok requestId, manager')) :
    (∃ source, registry.lookup sourceTokenId = some source) ∧
      manager'.receiveTransfers.1 = manager.receiveTransfers.1 ++
        [⟨requestId, sourceTokenId.high, sourceTokenId.low, targetProcess, transferType.toU8,
          permissions, expiresInSeconds.getD 0⟩] := by
  unfold sendFile at hsend
  split at hsend
  · cases hsend
  next sourceToken hsource =>
    refine ⟨⟨sourceToken, hsource⟩, ?_⟩
    obtain ⟨allowed, -, hallowed⟩ := Option.map_eq_some_iff.mp hsend
    split at hallowed
    · obtain ⟨hresult, rfl⟩ := Prod.mk.inj hallowed
      split at hresult
      next hok =>
        cases hresult
        exact BeastSpscRing.drained_enqueue (by decide) (Prod.ext hok rfl)
      · cases hresult
    · cases hallowed

section Accept

variable {request : FileTransferRequest} {id : TokenId} {recipientUserId : Nat}
  {recipientPath : Path}

/-- A request that does not expire gives the recipient a token for the source's content. -/
theorem lookup_acceptTransfer (hexpires : request.expiresInSeconds = 0) {source : Token}
    (hsource : registry.lookup request.sourceTokenId = some source) :
    (manager.acceptTransfer registry ticks id request recipientUserId recipientPath).2.2.lookup id =
      some (Token.newFile id recipientPath source.contentHash recipientUserId source.size
        request.permissions) := by
  unfold acceptTransfer
  rw [if_neg (by omega), hsource]
  exact SortedMap.lookup_insert_self registry id _

/-- A token that appears at a fresh id has the rights of the request. -/
theorem permissions_acceptTransfer {token : Token} (hfresh : registry.lookup id = none)
    (htoken : (manager.acceptTransfer registry ticks id request recipientUserId
      recipientPath).2.2.lookup id = some token) : token.permissions = request.permissions := by
  unfold acceptTransfer at htoken
  split at htoken
  · rw [hfresh] at htoken
    cases htoken
  · split at htoken
    · rw [hfresh] at htoken
      cases htoken
    next source _ =>
      have hnew := SortedMap.lookup_insert_self registry id
        (Token.newFile id recipientPath source.contentHash recipientUserId source.size
          request.permissions)
      obtain rfl := Option.some.inj (hnew.symm.trans htoken)
      rfl

end Accept

/-- **A transfer passes on the rights the sender asks for.** Whatever is accepted of a request that
was sent, at any later time and in any later state, the recipient's token has only rights the source
had when it was sent exactly if the sender asked for no others. -/
theorem attenuated_iff_within
    (hsend : manager.sendFile registry ticks sourceTokenId targetProcess transferType permissions
      expiresInSeconds senderUserId = some (.ok requestId, manager'))
    {request : FileTransferRequest} (hrequest : manager'.receiveTransfers.1.getLast? = some request)
    {receiver : RingTransferManager} {registry' : Registry} {ticks' : Nat} {id : TokenId}
    {recipientUserId : Nat} {recipientPath : Path} {token : Token}
    (hfresh : registry'.lookup id = none)
    (htoken : (receiver.acceptTransfer registry' ticks' id request recipientUserId
      recipientPath).2.2.lookup id = some token) :
    ∃ source, registry.lookup sourceTokenId = some source ∧
      (token.permissions.Within source.permissions ↔
        permissions.Within source.permissions) := by
  obtain ⟨⟨source, hsource⟩, hreceived⟩ := sendFile_spec hsend
  rw [hreceived, List.getLast?_concat] at hrequest
  obtain rfl := Option.some.inj hrequest
  refine ⟨source, hsource, ?_⟩
  rw [permissions_acceptTransfer hfresh htoken]

/-- A file of user 5 that they may read and share. -/
def shared : Token :=
  Token.newFile 1 "/a".toList (Hash.ofData [7]) 5 1 (Permissions.read ||| Permissions.share)

/-- The registry with that file. -/
def sharedOnly : Registry := shared.register SortedMap.empty

/-- User 5 sends the file with the given rights. -/
def sendShared (permissions : Permissions) :
    Option (Except TransferError U64 × RingTransferManager) :=
  new.sendFile sharedOnly 0 1 6 .tokenOnly permissions none 5

/-- User 6 finds the request and gets a token with those rights. -/
theorem accept_shared (permissions : Permissions) :
    ∃ manager request, sendShared permissions = some (.ok 1, manager) ∧
      manager.receiveTransfers.1.getLast? = some request ∧
      (manager.acceptTransfer sharedOnly 0 2 request 6 "/b".toList).2.2.lookup 2 =
        some (Token.newFile 2 "/b".toList shared.contentHash 6 shared.size permissions) := by
  obtain ⟨manager, hsend⟩ : ∃ manager, sendShared permissions = some (.ok 1, manager) := ⟨_, rfl⟩
  obtain ⟨-, hreceived⟩ := sendFile_spec hsend
  refine ⟨manager, ⟨1, 0, 1, 6, 0, permissions, 0⟩, hsend, ?_, ?_⟩
  · rw [hreceived]
    rfl
  · have hsource : sharedOnly.lookup (TokenId.fromRaw 0 1) = some shared := by decide
    refine lookup_acceptTransfer ?_ hsource
    rfl

/-- Only read access is sent, which the sender has. -/
theorem attenuated_read : ∃ manager request token,
    sendShared Permissions.read = some (.ok 1, manager) ∧
      manager.receiveTransfers.1.getLast? = some request ∧
      (manager.acceptTransfer sharedOnly 0 2 request 6 "/b".toList).2.2.lookup 2 = some token ∧
      token.permissions.Within shared.permissions := by
  obtain ⟨manager, request, hsend, hrequest, htoken⟩ := accept_shared Permissions.read
  obtain ⟨source, hsource, hiff⟩ := attenuated_iff_within hsend hrequest (by decide) htoken
  obtain rfl : shared = source := Option.some.inj hsource
  refine ⟨manager, request, _, hsend, hrequest, htoken, hiff.mpr fun bit hbit => ?_⟩
  show (Permissions.read ||| Permissions.share).getLsbD bit
  rw [BitVec.getLsbD_or, hbit, Bool.true_or]

/-- The recipient may write and delete what user 5 may only read and share. -/
theorem not_attenuated_all : ∃ manager request token,
    sendShared Permissions.all = some (.ok 1, manager) ∧
      manager.receiveTransfers.1.getLast? = some request ∧
      (manager.acceptTransfer sharedOnly 0 2 request 6 "/b".toList).2.2.lookup 2 = some token ∧
      ¬ token.permissions.Within shared.permissions := by
  obtain ⟨manager, request, hsend, hrequest, htoken⟩ := accept_shared Permissions.all
  refine ⟨manager, request, _, hsend, hrequest, htoken, fun hwithin => ?_⟩
  exact absurd (hwithin 1 rfl) (by decide)

end RingTransferManager

end BeastOs.Fs
