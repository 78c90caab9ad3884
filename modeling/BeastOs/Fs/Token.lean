import Mathlib.Data.Char
import BeastOs.Storage.Cas

/-!
# Tokens, the token registry and the path cache

`fs/token.rs` and `fs/path_cache.rs`. A file is a token in the global registry; the path cache says
which token a path stands for. A path is the list of its characters.

`TokenId::random` is an argument wherever a token is created. The cache's hit and miss counters are
left out: no operation reads them.
-/

namespace BeastOs.Fs

open Lib Storage

abbrev Path := List Char

/-! ## Tokens -/

/-- A 128-bit capability. -/
abbrev TokenId := BitVec 128

namespace TokenId

def high (id : TokenId) : U64 := id.extractLsb' 64 64

def low (id : TokenId) : U64 := id.extractLsb' 0 64

def fromRaw (high low : U64) : TokenId := high ++ low

end TokenId

/-- A set of rights, one bit each. -/
abbrev Permissions := BitVec 8

namespace Permissions

def read : Permissions := 1 <<< 0
def write : Permissions := 1 <<< 1
def delete : Permissions := 1 <<< 3
def share : Permissions := 1 <<< 5
def all : Permissions := 0b00111111

def has (permissions perm : Permissions) : Bool := permissions &&& perm ≠ 0

end Permissions

inductive TokenType
  | file
  | folder
  | share
  | move
  deriving DecidableEq, Repr

structure Token where
  id : TokenId
  path : Path
  contentHash : Hash
  tokenType : TokenType
  permissions : Permissions
  owner : Nat
  size : Nat
  created : Nat
  modified : Nat
  parent : Option TokenId
  expires : Option Nat
  children : List TokenId
  deriving DecidableEq

/-- `TOKEN_REGISTRY`. -/
abbrev Registry := SortedMap TokenId Token

namespace Token

def newFile (id : TokenId) (path : Path) (contentHash : Hash) (owner size : Nat)
    (permissions : Permissions) : Token where
  id := id
  path := path
  contentHash := contentHash
  tokenType := .file
  permissions := permissions
  owner := owner
  size := size
  created := 0
  modified := 0
  parent := none
  expires := none
  children := []

def newFolder (id : TokenId) (path : Path) (owner : Nat) (permissions : Permissions) : Token where
  id := id
  path := path
  contentHash := Hash.zero
  tokenType := .folder
  permissions := permissions
  owner := owner
  size := 0
  created := 0
  modified := 0
  parent := none
  expires := none
  children := []

/-- A share of another token. `ticks` and `hz` are those of the timer; the deadline is a `u64`. -/
def newShare (id : TokenId) (ticks hz : Nat) (targetToken : TokenId) (expiresInSeconds : Nat)
    (allowedPermissions : Permissions) : Token where
  id := id
  path := []
  contentHash := Hash.zero
  tokenType := .share
  permissions := allowedPermissions
  owner := 0
  size := 0
  created := 0
  modified := 0
  parent := some targetToken
  expires := some ((ticks + expiresInSeconds * hz) % 2 ^ 64)
  children := []

def register (token : Token) (registry : Registry) : Registry := registry.insert token.id token

/-- Also answers whether the token was registered. -/
def revoke (id : TokenId) (registry : Registry) : Registry × Bool :=
  (registry.erase id, (registry.lookup id).isSome)

def isExpired (token : Token) (ticks : Nat) : Bool :=
  match token.expires with
  | some deadline => deadline ≤ ticks
  | none => false

/-- A share defers to the token it shares. `none` when the chain of shares is longer than `fuel`. -/
def checkPermission (registry : Registry) (ticks : Nat) (required : Permissions) (userId : Nat) :
    Nat → Token → Option Bool
  | 0, _ => none
  | fuel + 1, token =>
    if token.isExpired ticks then some false
    else if token.owner = userId then some (token.permissions.has required)
    else if token.tokenType = .share then
      match token.parent with
      | some parent =>
        match registry.lookup parent with
        | some parentToken => checkPermission registry ticks required userId fuel parentToken
        | none => some false
      | none => some false
    else some false

/-- A chain of shares that visits no token twice has at most this many links. -/
def chainBound (registry : Registry) : Nat := registry.entries.length + 1

/-- Only its owner has rights on a token that is not a share, those it grants. -/
theorem checkPermission_of_ne_share {registry : Registry} {ticks : Nat} {required : Permissions}
    {userId : Nat} {token : Token} (hshare : token.tokenType ≠ .share)
    (hexpires : token.expires = none) :
    checkPermission registry ticks required userId (chainBound registry) token =
      some (token.owner = userId ∧ token.permissions.has required : Bool) := by
  have hexpired : token.isExpired ticks = false := by rw [isExpired, hexpires]
  show checkPermission registry ticks required userId (registry.entries.length + 1) token = _
  rw [checkPermission, hexpired, if_neg Bool.false_ne_true, if_neg hshare]
  by_cases howner : token.owner = userId <;> simp [howner]

end Token

/-! ## The path cache -/

structure PathCache where
  pathToToken : SortedMap Path TokenId
  tokenToPath : SortedMap TokenId Path

namespace PathCache

def new : PathCache := ⟨SortedMap.empty, SortedMap.empty⟩

def resolve (cache : PathCache) (path : Path) : Option TokenId := cache.pathToToken.lookup path

def insert (cache : PathCache) (path : Path) (tokenId : TokenId) : PathCache where
  pathToToken := cache.pathToToken.insert path tokenId
  tokenToPath := cache.tokenToPath.insert tokenId path

def remove (cache : PathCache) (path : Path) : PathCache :=
  match cache.pathToToken.lookup path with
  | some tokenId =>
    { pathToToken := cache.pathToToken.erase path
      tokenToPath := cache.tokenToPath.erase tokenId }
  | none => cache

def updatePath (cache : PathCache) (oldPath newPath : Path) : PathCache :=
  match cache.pathToToken.lookup oldPath with
  | some tokenId =>
    { pathToToken := (cache.pathToToken.erase oldPath).insert newPath tokenId
      tokenToPath := cache.tokenToPath.insert tokenId newPath }
  | none => cache

variable (cache : PathCache) (path path' : Path) (id : TokenId)

theorem resolve_insert :
    (cache.insert path id).resolve path' = if path' = path then some id else cache.resolve path' :=
  SortedMap.lookup_insert _ _ _ _

theorem resolve_remove :
    (cache.remove path).resolve path' = if path' = path then none else cache.resolve path' := by
  unfold remove
  split
  next tokenId _ => exact SortedMap.lookup_erase _ _ _
  next hnone =>
    by_cases h : path' = path
    · rw [if_pos h, h]
      exact hnone
    · rw [if_neg h]

/-- A moved entry keeps its token and gives way to nothing else. -/
theorem resolve_updatePath {cache : PathCache} {old : Path} {id : TokenId}
    (hold : cache.resolve old = some id) (new path : Path) :
    (cache.updatePath old new).resolve path =
      if path = new then some id else if path = old then none else cache.resolve path := by
  have hlookup : cache.pathToToken.lookup old = some id := hold
  simp only [updatePath, hlookup, resolve, SortedMap.lookup_insert, SortedMap.lookup_erase]

end PathCache

/-! ## Paths -/

namespace PathNormalizer

/-- One component of the path, against the components kept so far. -/
def push (components : List (List Char)) (part : List Char) : List (List Char) :=
  if part = [] ∨ part = ['.'] then components
  else if part = ['.', '.'] then components.dropLast
  else components ++ [part]

def normalize (path : Path) : Path :=
  let components := (path.splitOn '/').foldl push []
  if components = [] then ['/'] else components.flatMap ('/' :: ·)

def join (base child : Path) : Path :=
  let full := if base.getLast? = some '/' then base else base ++ ['/']
  normalize (full ++ child)

/-- The place of the last occurrence. -/
def rfind (path : Path) (c : Char) : Option Nat :=
  (path.zipIdx.filter fun x => x.1 = c).getLast?.map (·.2)

def parent (path : Path) : Option Path :=
  if normalize path = ['/'] then none
  else
    (rfind (normalize path) '/').map fun lastSlash =>
      if lastSlash = 0 then ['/'] else (normalize path).take lastSlash

example : normalize "/a//b/./c/../d".toList = "/a/b/d".toList := by decide
example : normalize "/a/../../b".toList = "/b".toList := by decide
example : parent "/home/user/doc.txt".toList = some "/home/user".toList := by decide
example : parent "home".toList = some "/".toList := by decide
example : parent "/".toList = none := by decide

end PathNormalizer

end BeastOs.Fs
