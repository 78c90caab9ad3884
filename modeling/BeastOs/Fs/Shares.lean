import BeastOs.Fs.Token

/-!
# Shares

A share hands a part of the rights on another token to others, and that token may itself be a share
(`fs/token.rs`). A right that is granted on a share should be among the rights that every share on
the way allows, and all tokens on the way should still be registered and not expired.

`check_permission` does not see to this. A share belongs to user 0, and an owner's rights are read
off the token itself: user 0 has the rights that the first share allows, whatever became of the
tokens behind it. For every other user the check goes on to the end of the chain without a look at
what the shares on the way allow.

Main result: `attenuates_iff_tight` says for which chains and users that makes no difference.
-/

namespace BeastOs.Fs

open List Lib Storage

/-! ## Registries -/

/-- A token as its constructors make it. -/
inductive Built : Token → Prop
  | file (id : TokenId) (path : Path) (contentHash : Storage.Hash) (owner size : Nat)
      (permissions : Permissions) :
      Built (Token.newFile id path contentHash owner size permissions)
  | folder (id : TokenId) (path : Path) (owner : Nat) (permissions : Permissions) :
      Built (Token.newFolder id path owner permissions)
  | share (id : TokenId) (ticks hz : Nat) (targetToken : TokenId) (expiresInSeconds : Nat)
      (allowedPermissions : Permissions) :
      Built (Token.newShare id ticks hz targetToken expiresInSeconds allowedPermissions)

theorem Built.owner_of_share {token : Token} (h : Built token) (hshare : token.tokenType = .share) :
    token.owner = 0 := by
  cases h with
  | file | folder => cases hshare
  | share => rfl

inductive RegistryOp
  | register (token : Token)
  | revoke (id : TokenId)

def registryStep (registry : Registry) : RegistryOp → Registry → Prop
  | .register token, registry' => Built token ∧ registry' = token.register registry
  | .revoke id, registry' => registry' = (Token.revoke id registry).1

/-- Only tokens as they were made are registered. -/
def Registry.AllBuilt (registry : Registry) : Prop :=
  ∀ id token, registry.lookup id = some token → Built token

theorem Registry.AllBuilt.step {registry registry' : Registry} {op : RegistryOp}
    (h : registry.AllBuilt) (hstep : registryStep registry op registry') : registry'.AllBuilt := by
  intro id token hlookup
  cases op with
  | register new =>
    obtain ⟨hnew, rfl⟩ := hstep
    unfold Token.register at hlookup
    rw [SortedMap.lookup_insert] at hlookup
    split at hlookup
    · cases hlookup
      exact hnew
    · exact h id token hlookup
  | revoke old =>
    rw [show registry' = registry.erase old from hstep, SortedMap.lookup_erase] at hlookup
    split at hlookup
    · cases hlookup
    · exact h id token hlookup

theorem Registry.allBuilt_of_run {τ : List (Transition Registry RegistryOp)} {registry : Registry}
    (hrun : Run registryStep SortedMap.empty τ registry) : registry.AllBuilt := by
  refine hrun.invariant' ?_ fun _ _ _ h hstep => h.step hstep
  intro id token hlookup
  cases hlookup

/-! ## Chains -/

/-- The token that its id stands for. A token that was revoked is no longer registered. -/
def Registry.Knows (registry : Registry) (token : Token) : Prop :=
  registry.lookup token.id = some token ∨ registry.lookup token.id = none ∧ Built token

/-- Shares, each of the next token, and at the end a token that is no share. -/
inductive Chain (registry : Registry) : List Token → Prop
  | last {token : Token} : token.tokenType ≠ .share → registry.Knows token → Chain registry [token]
  | share {share token : Token} {rest : List Token} : share.tokenType = .share →
      share.parent = some token.id → registry.Knows share → Chain registry (token :: rest) →
      Chain registry (share :: token :: rest)

/-- A right, by its bit. -/
def Permissions.single (bit : Fin 8) : Permissions := 1 <<< bit.val

def Permissions.Allows (permissions : Permissions) (bit : Fin 8) : Prop :=
  permissions.getLsbD bit = true

instance (permissions : Permissions) (bit : Fin 8) : Decidable (permissions.Allows bit) :=
  inferInstanceAs (Decidable (_ = _))

theorem Permissions.has_single (permissions : Permissions) (bit : Fin 8) :
    permissions.has (single bit) = decide (permissions.Allows bit) := by
  have hsingle : permissions &&& single bit = if permissions.Allows bit then single bit else 0 :=
    BitVec.and_twoPow permissions bit
  have hne : ∀ bit : Fin 8, single bit ≠ 0 := by decide
  unfold Permissions.has
  rw [hsingle]
  split
  next hallows => simpa [hallows] using hne bit
  next hallows => simp [hallows]

/-- Neither revoked nor expired. -/
structure Live (registry : Registry) (ticks : Nat) (token : Token) : Prop where
  registered : registry.lookup token.id = some token
  unexpired : token.isExpired ticks = false

/-- A right on a chain of shares that every token of the chain stands for. -/
structure Attenuated (registry : Registry) (ticks : Nat) (bit : Fin 8) (chain : List Token) :
    Prop where
  live : ∀ token ∈ chain, Live registry ticks token
  allows : ∀ token ∈ chain, token.permissions.Allows bit

/-! ## The check along a chain -/

/-- `check_permission` succeeds. -/
def Granted (registry : Registry) (ticks : Nat) (bit : Fin 8) (userId : Nat) (token : Token) :
    Prop :=
  ∃ fuel, token.checkPermission registry ticks (Permissions.single bit) userId fuel = some true

variable {registry : Registry} {ticks userId : Nat} {bit : Fin 8} {required : Permissions}
  {token share : Token} {rest chain : List Token}

/-- One call of the check, in terms of the call for the parent. -/
theorem granted_iff : Granted registry ticks bit userId token ↔
    token.isExpired ticks = false ∧
      if token.owner = userId then token.permissions.Allows bit
      else token.tokenType = .share ∧ ∃ parent parentToken, token.parent = some parent ∧
        registry.lookup parent = some parentToken ∧
        Granted registry ticks bit userId parentToken := by
  constructor
  · rintro ⟨fuel, h⟩
    cases fuel with
    | zero => cases h
    | succ fuel =>
      rw [Token.checkPermission] at h
      cases hexpired : token.isExpired ticks with
      | true => simp [hexpired] at h
      | false =>
        rw [hexpired, if_neg Bool.false_ne_true] at h
        refine ⟨rfl, ?_⟩
        split_ifs at h ⊢ with howner hshare
        · simpa [Permissions.has_single] using h
        · refine ⟨hshare, ?_⟩
          split at h
          next parent hparent =>
            split at h
            next parentToken hlookup => exact ⟨parent, parentToken, hparent, hlookup, fuel, h⟩
            · cases h
          · cases h
        · cases h
  · rintro ⟨hexpired, h⟩
    split_ifs at h with howner
    · exact ⟨1, by simp [Token.checkPermission, hexpired, howner, Permissions.has_single, h]⟩
    · obtain ⟨hshare, parent, parentToken, hparent, hlookup, fuel, hcheck⟩ := h
      refine ⟨fuel + 1, ?_⟩
      simp [Token.checkPermission, hexpired, howner, hshare, hparent, hlookup, hcheck]

/-- User 0 owns every share. -/
theorem granted_zero (hbuilt : Built share) (hshare : share.tokenType = .share) :
    Granted registry ticks bit 0 share ↔
      share.isExpired ticks = false ∧ share.permissions.Allows bit := by
  rw [granted_iff, if_pos (hbuilt.owner_of_share hshare)]

/-- What lets the check succeed for a user who owns the last token: what the shares allow is not
part of it, nor whether the first token is registered. -/
structure Reached (registry : Registry) (ticks : Nat) (bit : Fin 8) (userId : Nat)
    (chain : List Token) : Prop where
  unexpired : ∀ token ∈ chain, token.isExpired ticks = false
  registered : ∀ token ∈ chain.tail, registry.lookup token.id = some token
  owned : ∀ token ∈ chain.getLast?, token.owner = userId ∧ token.permissions.Allows bit

theorem Registry.Knows.built (hbuilt : registry.AllBuilt) (h : registry.Knows token) :
    Built token := by
  rcases h with h | h
  · exact hbuilt _ _ h
  · exact h.2

theorem Chain.knows_head (h : Chain registry (token :: rest)) : registry.Knows token := by
  cases h with
  | last _ hknows | share _ _ hknows _ => exact hknows

/-- The other users have no rights on the shares themselves. -/
theorem granted_iff_reached (hbuilt : registry.AllBuilt) (huser : userId ≠ 0)
    (hchain : Chain registry (token :: rest)) : Granted registry ticks bit userId token ↔
      Reached registry ticks bit userId (token :: rest) := by
  generalize heq : token :: rest = chain at hchain
  induction hchain generalizing token rest with
  | @last last hlast _ =>
    cases heq
    rw [granted_iff]
    constructor
    · rintro ⟨hexpired, h⟩
      split_ifs at h with howner
      · exact ⟨by simpa using hexpired, by simp, by simpa using ⟨howner, h⟩⟩
      · exact absurd h.1 hlast
    · rintro ⟨hexpired, -, howned⟩
      obtain ⟨howner, hallows⟩ := howned last (by simp)
      exact ⟨hexpired last (by simp), by rwa [if_pos howner]⟩
  | @share share next rest hshare hparent hknows hnext ih =>
    cases heq
    have howner : share.owner ≠ userId := by
      rw [(hknows.built hbuilt).owner_of_share hshare]
      exact huser.symm
    rw [granted_iff, if_neg howner]
    constructor
    · rintro ⟨hexpired, -, parent, parentToken, hparent', hlookup, hgranted⟩
      rw [hparent] at hparent'
      cases hparent'
      have hregistered : registry.lookup next.id = some next := by
        rcases hnext.knows_head with h | h
        · exact h
        · rw [h.1] at hlookup
          cases hlookup
      rw [hregistered] at hlookup
      cases hlookup
      obtain ⟨hunexpired, hrest, howned⟩ := (ih rfl).mp hgranted
      refine ⟨forall_mem_cons.mpr ⟨hexpired, hunexpired⟩, ?_, ?_⟩
      · exact forall_mem_cons.mpr ⟨hregistered, hrest⟩
      · rwa [getLast?_cons_cons]
    · rintro ⟨hunexpired, hregistered, howned⟩
      rw [forall_mem_cons] at hunexpired
      rw [tail_cons, forall_mem_cons] at hregistered
      exact ⟨hunexpired.1, hshare, next.id, next, hparent, hregistered.1,
        (ih rfl).mpr ⟨hunexpired.2, hregistered.2, howned⟩⟩

/-! ## Attenuation -/

/-- What a user is granted on the first share of a chain, the whole chain stands for. -/
def Attenuates (registry : Registry) (ticks : Nat) (bit : Fin 8) (userId : Nat) (share : Token)
    (rest : List Token) : Prop :=
  Granted registry ticks bit userId share → Attenuated registry ticks bit (share :: rest)

/-- The chains on which the check makes no mistake. -/
structure Tight (registry : Registry) (ticks : Nat) (bit : Fin 8) (userId : Nat) (share : Token)
    (rest : List Token) : Prop where
  /-- for user 0 the first share has to be as good as the chain -/
  zero : userId = 0 → share.isExpired ticks = false → share.permissions.Allows bit →
    Attenuated registry ticks bit (share :: rest)
  /-- for the owner of the last token each share has to be as good as that token -/
  owner : userId ≠ 0 → Reached registry ticks bit userId (share :: rest) →
    registry.lookup share.id = some share ∧
      ∀ token ∈ (share :: rest).dropLast, token.permissions.Allows bit

theorem Reached.attenuated_iff (h : Reached registry ticks bit userId (share :: rest)) :
    Attenuated registry ticks bit (share :: rest) ↔ registry.lookup share.id = some share ∧
      ∀ token ∈ (share :: rest).dropLast, token.permissions.Allows bit := by
  constructor
  · intro hatt
    refine ⟨(hatt.live share mem_cons_self).registered, ?_⟩
    intro token htoken
    exact hatt.allows token (dropLast_subset _ htoken)
  · rintro ⟨hregistered, hallows⟩
    constructor
    · intro token htoken
      refine ⟨?_, h.unexpired token htoken⟩
      rcases mem_cons.mp htoken with rfl | hrest
      · exact hregistered
      · exact h.registered token hrest
    · intro token htoken
      have hne : share :: rest ≠ [] := cons_ne_nil _ _
      rw [← dropLast_append_getLast hne] at htoken
      rcases mem_append.mp htoken with hmem | hmem
      · exact hallows token hmem
      · rw [mem_singleton.mp hmem]
        exact (h.owned _ (getLast?_eq_some_getLast hne)).2

/-- **When shares only attenuate.** On a chain of shares in a registry made by the constructors,
`register` and `revoke`, a right that is granted on the first share is one that the whole chain
stands for, exactly when the chain is tight for the user. -/
theorem attenuates_iff_tight {τ : List (Transition Registry RegistryOp)}
    (hrun : Run registryStep SortedMap.empty τ registry) (hshare : share.tokenType = .share)
    (hchain : Chain registry (share :: rest)) :
    Attenuates registry ticks bit userId share rest ↔
      Tight registry ticks bit userId share rest := by
  have hbuilt := Registry.allBuilt_of_run hrun
  unfold Attenuates
  by_cases huser : userId = 0
  · rw [huser, granted_zero (hchain.knows_head.built hbuilt) hshare]
    constructor
    · intro h
      exact ⟨fun _ hexpired hallows => h ⟨hexpired, hallows⟩, fun hne => absurd rfl hne⟩
    · rintro h ⟨hexpired, hallows⟩
      exact h.zero rfl hexpired hallows
  · rw [granted_iff_reached hbuilt huser hchain]
    constructor
    · intro h
      exact ⟨fun hzero => absurd hzero huser, fun _ hreached =>
        hreached.attenuated_iff.mp (h hreached)⟩
    · intro h hreached
      exact hreached.attenuated_iff.mpr (h.owner huser hreached)

/-! ## A file that is shared for reading -/

/-- A file of user 5. -/
def ownFile : Token := Token.newFile 1 ['/', 'a'] Storage.Hash.zero 5 0 Permissions.all

/-- A share of it for reading, for a minute. -/
def readShare : Token := Token.newShare 2 0 100 1 60 Permissions.read

def fileAndShare : Registry := readShare.register (ownFile.register SortedMap.empty)

theorem run_fileAndShare : Run registryStep SortedMap.empty
    [⟨SortedMap.empty, .register ownFile, ownFile.register SortedMap.empty⟩,
      ⟨ownFile.register SortedMap.empty, .register readShare, fileAndShare⟩] fileAndShare :=
  .snoc (.single ⟨.file _ _ _ _ _ _, rfl⟩) ⟨.share _ _ _ _ _ _, rfl⟩

theorem chain_fileAndShare : Chain fileAndShare [readShare, ownFile] :=
  .share rfl rfl (.inl rfl) (.last (by decide) (.inl rfl))

/-- The owner of the file may read it through the share, and both tokens stand for that. -/
theorem attenuates_read : Granted fileAndShare 0 0 5 readShare ∧
    Attenuated fileAndShare 0 0 [readShare, ownFile] := by
  have hgranted : Granted fileAndShare 0 0 5 readShare := ⟨2, by decide⟩
  refine ⟨hgranted, (attenuates_iff_tight run_fileAndShare rfl chain_fileAndShare).mpr ?_ hgranted⟩
  constructor
  · intro hzero
    cases hzero
  · intro _ _
    exact ⟨rfl, forall_mem_singleton.mpr (by decide)⟩

/-- The owner may also write through the share that is for reading only; and user 0 may read through
it when the file's token has been revoked. -/
theorem not_attenuates_read :
    (∃ τ registry, Run registryStep SortedMap.empty τ registry ∧
      Chain registry [readShare, ownFile] ∧ ¬ Attenuates registry 0 1 5 readShare [ownFile]) ∧
    ∃ τ registry, Run registryStep SortedMap.empty τ registry ∧
      Chain registry [readShare, ownFile] ∧ ¬ Attenuates registry 0 0 0 readShare [ownFile] := by
  constructor
  · refine ⟨_, fileAndShare, run_fileAndShare, chain_fileAndShare, ?_⟩
    intro hatt
    have hallows := (hatt ⟨2, by decide⟩).allows readShare (by simp)
    revert hallows
    decide
  · have hrevoke : registryStep fileAndShare (.revoke 1) (Token.revoke 1 fileAndShare).1 := rfl
    refine ⟨_, _, .snoc run_fileAndShare hrevoke, ?_, ?_⟩
    · exact .share rfl rfl (.inl rfl)
        (.last (by decide) (.inr ⟨rfl, .file _ _ _ _ _ _⟩))
    · intro hatt
      have hlive := (hatt ⟨1, by decide⟩).live ownFile (by simp)
      cases hlive.registered

end BeastOs.Fs
