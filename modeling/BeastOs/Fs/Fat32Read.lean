import BeastOs.Fs.Fat32Chain
import BeastOs.Fs.Mounts
import BeastOs.Lib.Blocks
import BeastOs.Lib.Runs
import BeastOs.Lib.WrappingIndex

/-!
# Reading a FAT32 file

`Fat32File` of `fs/fat32.rs`: a list of clusters, a position and a size. A read goes through the
clusters from the position on, fetches the sectors it needs of each one and copies the part that was
asked for.

The disk answers each request for a sector, or fails to; answers can differ between requests for one
sector, so they depend on how many requests there have been. `SectorReads.of contents ok` is the
disk with the given contents whose `n`-th request succeeds if `ok n`.

What the file is made of is `chainData`, the contents of its clusters one after the other.
`readClusters_eq_take` says that the loop copies the part of it that was asked for if every request
succeeds, and `reads_exact` what follows for sequences of reads and seeks.
-/

namespace BeastOs.Fs

open List Lib Fat32Instance

/-- What the disk answers to the `n`-th request, if that is for sector `lba`. -/
abbrev SectorReads := Nat → U64 → Option Sector

/-- A disk with the given contents and some requests that fail. -/
def SectorReads.of (contents : U64 → Sector) (ok : Nat → Bool) : SectorReads :=
  fun n lba => if ok n then some (contents lba) else none

/-! ## The driver -/

/-- The bytes read into a buffer of `bufLen` bytes, of which `offset` are filled, and the number of
requests made, `attempt` of them before. -/
def readSectors (ahci : SectorReads) (bufLen : Nat) :
    (count : Nat) → (lba : U64) → (offset attempt : Nat) → List U8 × Nat
  | 0, _, _, attempt => ([], attempt)
  | count + 1, lba, offset, attempt =>
    if offset + sectorSize > bufLen then ([], attempt)
    else
      match ahci attempt lba with
      | none => ([], attempt + 1)
      | some sector =>
        let rest := readSectors ahci bufLen count (lba + 1) (offset + sectorSize) (attempt + 1)
        (List.ofFn sector ++ rest.1, rest.2)

/-- The bytes to read of a cluster from `offset` on, if `left` are asked for. -/
def toRead (inst : Fat32Instance) (left offset : Nat) : Nat :=
  min left (inst.clusterBytes - offset)

/-- The sectors these bytes lie in. -/
def sectorsNeeded (inst : Fat32Instance) (left offset : Nat) : Nat :=
  (offset % sectorSize + toRead inst left offset + sectorSize - 1) / sectorSize

/-- The loop over the clusters; `offset` is where to start in the first one. -/
def readClusters (ahci : SectorReads) (inst : Fat32Instance) (maxToRead : Nat) :
    List U32 → (offset attempt : Nat) → (read : List U8) → List U8
  | [], _, _, read => read
  | cluster :: clusters, offset, attempt, read =>
    if read.length ≥ maxToRead then read
    else
      let lba := inst.clusterToLba cluster + BitVec.ofNat 64 (offset / sectorSize)
      let sectorOffset := offset % sectorSize
      let left := maxToRead - read.length
      let tmp := readSectors ahci (sectorsNeeded inst left offset * sectorSize)
        (sectorsNeeded inst left offset) lba 0 attempt
      let actualCopy := min (tmp.1.length - sectorOffset) (toRead inst left offset)
      readClusters ahci inst maxToRead clusters 0 tmp.2
        (read ++ (tmp.1.drop sectorOffset).take actualCopy)

structure Fat32File where
  inst : Fat32Instance
  clusters : List U32
  position : U64
  fileSize : U64
  deriving DecidableEq

namespace Fat32File

/-- The bytes put into a buffer of `len` bytes; `none` is a division by zero. -/
def read (file : Fat32File) (ahci : SectorReads) (len : Nat) : Option (List U8 × Fat32File) :=
  if file.clusters = [] then some ([], file)
  else if file.inst.clusterBytes = 0 then none
  else
    let start := file.position.toNat / file.inst.clusterBytes
    if start ≥ file.clusters.length ∨ file.position ≥ file.fileSize then some ([], file)
    else
      let maxToRead := min len (file.fileSize - file.position).toNat
      let bytes := readClusters ahci file.inst maxToRead (file.clusters.drop start)
        (file.position.toNat % file.inst.clusterBytes) 0 []
      some (bytes, { file with position := file.position + BitVec.ofNat 64 bytes.length })

def seek (file : Fat32File) (offset : U64) : Except FsError U64 × Fat32File :=
  if offset ≤ file.fileSize then (.ok offset, { file with position := offset })
  else (.error .ioError, file)

end Fat32File

/-! ## What is on the disk -/

/-- The contents of `count` sectors from `lba` on. -/
def sectorsData (contents : U64 → Sector) (lba : U64) (count : Nat) : List U8 :=
  (window lba count).flatMap fun lba => List.ofFn (contents lba)

def clusterData (contents : U64 → Sector) (inst : Fat32Instance) (cluster : U32) :
    List U8 :=
  sectorsData contents (inst.clusterToLba cluster) inst.sectorsPerCluster

/-- The clusters one after the other. -/
def chainData (contents : U64 → Sector) (inst : Fat32Instance) (clusters : List U32) :
    List U8 :=
  clusters.flatMap (clusterData contents inst)

variable {contents : U64 → Sector} {ok : Nat → Bool} {inst : Fat32Instance} {offset maxToRead : Nat}

theorem length_ofFn_sector (lba : U64) : (List.ofFn (contents lba)).length = sectorSize :=
  length_ofFn

theorem length_sectorsData (lba : U64) (count : Nat) :
    (sectorsData contents lba count).length = count * sectorSize := by
  rw [sectorsData, length_flatMap_blocks length_ofFn_sector, length_window]

variable (cluster : U32)

theorem length_clusterData :
    (clusterData contents inst cluster).length = inst.clusterBytes :=
  length_sectorsData _ _

variable (clusters : List U32)

theorem length_chainData : (chainData contents inst clusters).length =
      clusters.length * inst.clusterBytes :=
  length_flatMap_blocks length_clusterData _

theorem drop_chainData (n : Nat) :
    (chainData contents inst clusters).drop (n * inst.clusterBytes) =
      chainData contents inst (clusters.drop n) :=
  drop_flatMap_blocks length_clusterData _ _

theorem length_drop_clusterData (offset : Nat) :
    ((clusterData contents inst cluster).drop offset).length =
      inst.clusterBytes - offset := by
  rw [length_drop, length_clusterData]

/-- The rest of the first cluster comes first, then the other clusters. -/
theorem drop_chainData_cons (hoffset : offset ≤ inst.clusterBytes) {cluster : U32}
    {clusters : List U32} : (chainData contents inst (cluster :: clusters)).drop offset =
      (clusterData contents inst cluster).drop offset ++ chainData contents inst clusters := by
  rw [chainData, flatMap_cons, drop_append_of_le_length]
  · rfl
  · rw [length_clusterData]
    exact hoffset

/-- The bytes `s` to `s + k` of some sectors are those of fewer sectors, if these are enough. -/
theorem slice_sectorsData (lba : U64) {m count s k : Nat} (hm : m ≤ count)
    (hk : k ≤ m * sectorSize - s) : ((sectorsData contents lba m).drop s).take k =
      ((sectorsData contents lba count).drop s).take k := by
  have htake : sectorsData contents lba m =
      (sectorsData contents lba count).take (m * sectorSize) := by
    rw [sectorsData, sectorsData, take_flatMap_blocks length_ofFn_sector, take_window lba hm]
  rw [htake, drop_take, take_take, min_eq_left hk]

/-- Sectors of a cluster from the one that `offset` lies in: where `offset` lies in them. -/
theorem drop_clusterData (offset : Nat) : (clusterData contents inst cluster).drop offset =
      (sectorsData contents (inst.clusterToLba cluster + BitVec.ofNat 64 (offset / sectorSize))
        (inst.sectorsPerCluster - offset / sectorSize)).drop (offset % sectorSize) := by
  have hsplit : offset = offset / sectorSize * sectorSize + offset % sectorSize := by
    rw [mul_comm, Nat.div_add_mod]
  conv_lhs => rw [hsplit]
  rw [← drop_drop, clusterData, sectorsData, drop_flatMap_blocks length_ofFn_sector, drop_window]
  rfl

/-! ## What is read -/

/-- How many of `count` requests succeed before the first that fails, and the number of requests
made then. -/
def sectorsRead (ok : Nat → Bool) : (count attempt : Nat) → Nat × Nat
  | 0, attempt => (0, attempt)
  | count + 1, attempt =>
    if ok attempt then
      ((sectorsRead ok count (attempt + 1)).1 + 1, (sectorsRead ok count (attempt + 1)).2)
    else (0, attempt + 1)

theorem sectorsRead_le (count attempt : Nat) : (sectorsRead ok count attempt).1 ≤ count := by
  induction count generalizing attempt with
  | zero => exact le_rfl
  | succ count ih =>
    rw [sectorsRead]
    split
    · exact Nat.succ_le_succ (ih _)
    · exact Nat.zero_le _

theorem sectorsRead_of_ok (hok : ∀ n, ok n) (count attempt : Nat) :
    (sectorsRead ok count attempt).1 = count := by
  induction count generalizing attempt with
  | zero => rfl
  | succ count ih => rw [sectorsRead, if_pos (hok _), ih]

/-- A buffer with room for all sectors gets those before the first that fails. -/
theorem readSectors_eq (count : Nat) (lba : U64) (offset attempt : Nat) {bufLen : Nat}
    (hroom : offset + count * sectorSize ≤ bufLen) :
    readSectors (.of contents ok) bufLen count lba offset attempt =
      (sectorsData contents lba (sectorsRead ok count attempt).1,
        (sectorsRead ok count attempt).2) := by
  induction count generalizing lba offset attempt with
  | zero => rfl
  | succ count ih =>
    rw [Nat.succ_mul] at hroom
    rw [readSectors, if_neg (by omega), sectorsRead, SectorReads.of]
    by_cases hok : ok attempt
    · rw [if_pos hok, if_pos hok]
      rw [ih _ _ _ (by omega)]
      rfl
    · rw [if_neg hok, if_neg hok]
      rfl

/-- The number of bytes that a cluster delivers. -/
def delivered (ok : Nat → Bool) (inst : Fat32Instance) (left offset attempt : Nat) : Nat :=
  min ((sectorsRead ok (sectorsNeeded inst left offset) attempt).1 * sectorSize -
    offset % sectorSize) (toRead inst left offset)

theorem sectorsNeeded_le {left : Nat} (hoffset : offset < inst.clusterBytes) :
    sectorsNeeded inst left offset ≤ inst.sectorsPerCluster - offset / sectorSize := by
  unfold sectorsNeeded toRead
  have hle := min_le_right left (inst.clusterBytes - offset)
  generalize min left (inst.clusterBytes - offset) = k at hle
  unfold clusterBytes sectorSize at *
  omega

/-- The sectors that are read hold all bytes that are asked for. -/
theorem toRead_le (left offset : Nat) : toRead inst left offset ≤
      sectorsNeeded inst left offset * sectorSize - offset % sectorSize := by
  unfold sectorsNeeded
  generalize toRead inst left offset = k
  unfold sectorSize
  omega

/-- A cluster delivers everything if its sectors can be read. -/
theorem delivered_of_ok (hok : ∀ n, ok n) (left offset attempt : Nat) :
    delivered ok inst left offset attempt = toRead inst left offset := by
  rw [delivered, sectorsRead_of_ok hok, min_eq_right (toRead_le left offset)]

/-- **One cluster** delivers a beginning of what is left of it. -/
theorem readClusters_cons (attempt : Nat) {read : List U8}
    (hread : read.length < maxToRead) (hoffset : offset < inst.clusterBytes) :
    readClusters (.of contents ok) inst maxToRead (cluster :: clusters) offset attempt read =
      readClusters (.of contents ok) inst maxToRead clusters 0
        (sectorsRead ok (sectorsNeeded inst (maxToRead - read.length) offset) attempt).2
        (read ++ ((clusterData contents inst cluster).drop offset).take
          (delivered ok inst (maxToRead - read.length) offset attempt)) := by
  rw [readClusters, if_neg (not_le.mpr hread)]
  dsimp only
  rw [readSectors_eq _ _ _ _ (le_of_eq (zero_add _)), drop_clusterData, length_sectorsData]
  refine congrArg (fun bytes => readClusters _ inst maxToRead clusters 0 _ (read ++ bytes)) ?_
  apply slice_sectorsData
  · exact (sectorsRead_le _ _).trans (sectorsNeeded_le hoffset)
  · exact min_le_left _ _

/-- Nothing more is read once there is enough. -/
theorem readClusters_of_le {ahci : SectorReads} {read : List U8} (hread : maxToRead ≤ read.length)
    (clusters : List U32) (offset attempt : Nat) :
    readClusters ahci inst maxToRead clusters offset attempt read = read := by
  cases clusters with
  | nil => rfl
  | cons cluster clusters => rw [readClusters, if_pos hread]

/-- A loop that stops at `maxToRead` bytes reads no more. -/
theorem length_readClusters_le (ahci : SectorReads) (clusters : List U32) (offset attempt : Nat)
    (read : List U8) (hread : read.length ≤ maxToRead) :
    (readClusters ahci inst maxToRead clusters offset attempt read).length ≤ maxToRead := by
  induction clusters generalizing offset attempt read with
  | nil => exact hread
  | cons cluster clusters ih =>
    rw [readClusters]
    split
    · exact hread
    · apply ih
      rw [length_append, length_take, toRead]
      omega

/-- **If every request succeeds the loop reads what was asked for**, as far as the clusters go. -/
theorem readClusters_eq_take (hok : ∀ n, ok n) (clusters : List U32)
    (hoffset : offset < inst.clusterBytes) (maxToRead attempt : Nat)
    (read : List U8) : readClusters (.of contents ok) inst maxToRead clusters offset attempt read =
      read ++ ((chainData contents inst clusters).drop offset).take (maxToRead - read.length) := by
  induction clusters generalizing offset attempt read with
  | nil => rw [chainData, flatMap_nil, drop_nil, take_nil, append_nil]; rfl
  | cons cluster clusters ih =>
    by_cases hread : read.length < maxToRead
    · set left := maxToRead - read.length with hleft
      have hlength : ((clusterData contents inst cluster).drop offset).length = _ :=
        length_drop_clusterData cluster offset
      rw [readClusters_cons cluster clusters attempt hread hoffset, delivered_of_ok hok,
        ih (Nat.lt_of_le_of_lt (Nat.zero_le _) hoffset), drop_zero, append_assoc]
      rw [drop_chainData_cons hoffset.le, take_append, hlength, toRead, ← hleft]
      congr 2
      · rw [← hlength, ← take_eq_take_min]
      · rw [length_append, length_take, hlength]
        congr 1
        omega
    · rw [readClusters_of_le (Nat.not_lt.mp hread), Nat.sub_eq_zero_of_le (Nat.not_lt.mp hread),
        take_zero, append_nil]

/-! ## Reads and seeks -/

namespace Fat32File

variable {file file' : Fat32File}

/-- The bytes of the clusters of the file. -/
def data (file : Fat32File) (contents : U64 → Sector) : List U8 :=
  chainData contents file.inst file.clusters

/-- The bytes there are from the position on, in the file and in its clusters. -/
def available (file : Fat32File) : Nat :=
  min (file.fileSize.toNat - file.position.toNat)
    (file.clusters.length * file.inst.clusterBytes - file.position.toNat)

/-- The file at another position. -/
def advance (file : Fat32File) (n : Nat) : Fat32File :=
  { file with position := BitVec.ofNat 64 (file.position.toNat + n) }

theorem toNat_position_advance {n : Nat} (hn : n ≤ file.available) :
    (file.advance n).position.toNat = file.position.toNat + n := by
  have hsize := file.fileSize.isLt
  have hposition := file.position.isLt
  have havailable : file.available ≤ file.fileSize.toNat - file.position.toNat :=
    min_le_left _ _
  show (BitVec.ofNat 64 (file.position.toNat + n)).toNat = _
  rw [BitVec.toNat_ofNat, Nat.mod_eq_of_lt (by omega)]

theorem advance_zero : file.advance 0 = file := by
  rw [advance, add_zero, BitVec.ofNat_toNat, BitVec.setWidth_eq]

theorem length_drop_data (file : Fat32File) :
    ((file.data contents).drop file.position.toNat).length =
      file.clusters.length * file.inst.clusterBytes - file.position.toNat := by
  rw [length_drop, data, length_chainData]

/-- From the position on: the clusters from the one it lies in, and where it lies in that one. -/
theorem drop_data (file : Fat32File) :
    (chainData contents file.inst (file.clusters.drop
        (file.position.toNat / file.inst.clusterBytes))).drop
      (file.position.toNat % file.inst.clusterBytes) =
        (file.data contents).drop file.position.toNat := by
  rw [← drop_chainData, drop_drop]
  congr 1
  rw [mul_comm]
  exact Nat.div_add_mod _ _

/-- The bytes that the loop over the clusters reads from the position on. -/
def loop (file : Fat32File) (ahci : SectorReads) (len : Nat) : List U8 :=
  readClusters ahci file.inst (min len (file.fileSize.toNat - file.position.toNat))
    (file.clusters.drop (file.position.toNat / file.inst.clusterBytes))
    (file.position.toNat % file.inst.clusterBytes) 0 []

/-- A read is the loop: where it returns early, the loop reads nothing. -/
theorem read_eq_loop (hspc : 0 < file.inst.sectorsPerCluster) (ahci : SectorReads) (len : Nat) :
    file.read ahci len = some (file.loop ahci len, file.advance (file.loop ahci len).length) := by
  have hnothing : file.loop ahci len = [] → some (([] : List U8), file) =
      some (file.loop ahci len, file.advance (file.loop ahci len).length) := by
    intro hnil
    rw [hnil, length_nil, advance_zero]
  unfold read
  split
  next hnil =>
    apply hnothing
    rw [loop, hnil, drop_nil]
    rfl
  · rw [if_neg (clusterBytes_pos hspc).ne']
    dsimp only
    split
    next hend =>
      apply hnothing
      rcases hend with hchain | hsize
      · rw [loop, drop_eq_nil_of_le hchain]
        rfl
      · have hzero : file.fileSize.toNat - file.position.toNat = 0 := Nat.sub_eq_zero_of_le hsize
        rw [loop, hzero, Nat.min_zero, readClusters_of_le (Nat.zero_le _)]
    next hinside =>
      have hlt : file.position.toNat < file.fileSize.toNat :=
        Nat.lt_of_not_le fun hle => hinside (.inr hle)
      have hsub : (file.fileSize - file.position).toNat =
          file.fileSize.toNat - file.position.toNat := BitVec.toNat_sub_of_le hlt.le
      rw [hsub, ← loop, advance, BitVec.ofNat_add, BitVec.ofNat_toNat, BitVec.setWidth_eq]

/-- The loop takes what is available. -/
theorem loop_eq (hok : ∀ n, ok n) (hspc : 0 < file.inst.sectorsPerCluster) (len : Nat) :
    file.loop (.of contents ok) len =
      ((file.data contents).drop file.position.toNat).take (min len file.available) := by
  have hoffset : file.position.toNat % file.inst.clusterBytes < file.inst.clusterBytes :=
    Nat.mod_lt _ (clusterBytes_pos hspc)
  rw [loop, readClusters_eq_take hok _ hoffset, drop_data, nil_append, length_nil,
    Nat.sub_zero, take_eq_take_min, length_drop_data, available, Nat.min_assoc]

/-- **A read at position `q`** returns the bytes from `q` on, as many as asked for or available, and
moves the position past them. -/
theorem read_eq (hok : ∀ n, ok n) (hspc : 0 < file.inst.sectorsPerCluster) (len : Nat) :
    file.read (.of contents ok) len =
      some (((file.data contents).drop file.position.toNat).take (min len file.available),
        file.advance (min len file.available)) := by
  have hlength : min (min len file.available)
      (file.clusters.length * file.inst.clusterBytes - file.position.toNat) =
      min len file.available := by
    apply min_eq_left
    exact (min_le_right _ _).trans (min_le_right _ _)
  rw [read_eq_loop hspc, loop_eq hok hspc, length_take, length_drop_data, hlength]

/-- The file after reads of the given lengths, and the bytes they return one after the other. -/
def readAll (contents : U64 → Sector) : Fat32File → List ((Nat → Bool) × Nat) →
    Option (List U8 × Fat32File)
  | file, [] => some ([], file)
  | file, (ok, len) :: reads =>
    (file.read (.of contents ok) len).bind fun r =>
      (readAll contents r.2 reads).map fun rest => (r.1 ++ rest.1, rest.2)

theorem available_advance {n : Nat} (hn : n ≤ file.available) :
    (file.advance n).available = file.available - n := by
  unfold available
  rw [toNat_position_advance hn]
  show min (file.fileSize.toNat - _) (file.clusters.length * file.inst.clusterBytes - _) = _
  omega

theorem advance_advance {m n : Nat} (hm : m ≤ file.available) :
    (file.advance m).advance n = file.advance (m + n) := by
  have hposition := toNat_position_advance hm
  rw [advance, hposition, add_assoc]
  rfl

/-- **Reads in pieces** return what one read returns. -/
theorem readAll_eq_read (hspc : 0 < file.inst.sectorsPerCluster)
    (reads : List ((Nat → Bool) × Nat)) (hreads : ∀ r ∈ reads, ∀ n, r.1 n) (hok : ∀ n, ok n) :
    file.readAll contents reads = file.read (.of contents ok) (reads.map (·.2)).sum := by
  rw [read_eq hok hspc]
  induction reads generalizing file with
  | nil =>
    rw [map_nil, sum_nil, Nat.zero_min, take_zero, advance_zero]
    rfl
  | cons r reads ih =>
    obtain ⟨ok', len⟩ := r
    rw [forall_mem_cons] at hreads
    have hle := min_le_right len file.available
    have hdata : (file.advance (min len file.available)).data contents = file.data contents := rfl
    have hspc' : 0 < (file.advance (min len file.available)).inst.sectorsPerCluster := hspc
    rw [readAll, read_eq hreads.1 hspc, Option.bind_some]
    rw [ih hspc' hreads.2, Option.map_some, available_advance hle, hdata,
      toNat_position_advance hle, advance_advance hle, ← drop_drop, ← take_add,
      map_cons, sum_cons]
    have hsum : min len file.available + min (reads.map (·.2)).sum
        (file.available - min len file.available) =
        min (len + (reads.map (·.2)).sum) file.available := by omega
    rw [hsum]

/-- A call on an open file; the `n`-th request for a sector that a read makes succeeds if `ok n`. -/
inductive Call
  | read (ok : Nat → Bool) (len : Nat)
  | seek (offset : U64)

def step (contents : U64 → Sector) (file : Fat32File) : Call → Option Fat32File
  | .read ok len => (file.read (.of contents ok) len).map (·.2)
  | .seek offset => some (file.seek offset).2

/-- Calls move the position only. -/
def SameFile (start file : Fat32File) : Prop :=
  ∃ position, file = { start with position := position }

/-- A read that returns has put no more into the buffer than there is room for. -/
theorem read_spec {ahci : SectorReads} {len : Nat} {r : List U8 × Fat32File}
    (h : file.read ahci len = some r) : r.1.length ≤ len ∧ SameFile file r.2 := by
  unfold read at h
  split at h
  · cases h
    exact ⟨Nat.zero_le _, _, rfl⟩
  · split at h
    · cases h
    · dsimp only at h
      split at h
      · cases h
        exact ⟨Nat.zero_le _, _, rfl⟩
      · cases h
        refine ⟨?_, _, rfl⟩
        exact (length_readClusters_le _ _ _ _ _ (Nat.zero_le _)).trans (min_le_left _ _)

theorem SameFile.step {start : Fat32File} (h : SameFile start file) {call : Call}
    (hstep : file.step contents call = some file') : SameFile start file' := by
  obtain ⟨position, rfl⟩ := h
  cases call with
  | read ok len =>
    obtain ⟨r, hread, rfl⟩ := Option.map_eq_some_iff.mp hstep
    obtain ⟨-, position', hfile⟩ := read_spec hread
    exact ⟨position', hfile⟩
  | seek offset =>
    obtain rfl := Option.some.inj hstep
    unfold seek
    split <;> exact ⟨_, rfl⟩

/-- The number of bytes a read of `len` bytes at position `q` returns. -/
def readable (file : Fat32File) (q len : Nat) : Nat :=
  min len (min (file.fileSize.toNat - q) (file.clusters.length * file.inst.clusterBytes - q))

/-- **Reading is exact when the disk works.** In every sequence of reads and seeks on an open file
in which all requests for sectors succeed, a read of `len` bytes at position `q` returns `k` bytes,
the bytes `q` to `q + k` of the clusters of the file, and moves the position to `q + k`, where `k`
is the least of `len`, the rest of the file and the rest of the clusters. So reads in pieces return
what one read returns. -/
theorem reads_exact {start : Fat32File} (hspc : 0 < start.inst.sectorsPerCluster)
    {τ : List (Transition Fat32File Call)} (hrun : Run (Steps (step contents)) start τ file)
    (hok : ∀ t ∈ τ, ∀ ok len, t.label = .read ok len → ∀ n, ok n) :
    (∀ t ∈ τ, ∀ ok len, t.label = .read ok len → ∃ bytes,
        t.src.read (.of contents ok) len = some (bytes, t.dst) ∧
        bytes.length = start.readable t.src.position.toNat len ∧
        bytes = ((start.data contents).drop t.src.position.toNat).take
          (start.readable t.src.position.toNat len) ∧
        t.dst.position.toNat =
          t.src.position.toNat + start.readable t.src.position.toNat len) ∧
      ∀ reads ok, (∀ r ∈ reads, ∀ n, r.1 n) → (∀ n, ok n) →
        file.readAll contents reads = file.read (.of contents ok) (reads.map (·.2)).sum := by
  have hsame : ∀ t ∈ τ, SameFile start t.src ∧ Steps (step contents) t.src t.label t.dst :=
    hrun.forall_mem ⟨start.position, rfl⟩ fun _ _ _ h hstep => h.step hstep
  have hfile : SameFile start file :=
    hrun.invariant' ⟨start.position, rfl⟩ fun _ _ _ h hstep => h.step hstep
  constructor
  · intro t ht ok len hlabel
    obtain ⟨⟨position, hsrc⟩, hstep⟩ := hsame t ht
    have hspc' : 0 < t.src.inst.sectorsPerCluster := by rw [hsrc]; exact hspc
    have hdata : t.src.data contents = start.data contents := by rw [hsrc]; rfl
    have havailable : min len t.src.available = start.readable t.src.position.toNat len := by
      rw [hsrc]
      rfl
    have hread : t.src.read (.of contents ok) len = _ := read_eq (hok t ht ok len hlabel) hspc' len
    have hdst : t.dst = t.src.advance (min len t.src.available) := by
      rw [hlabel, Steps, step, hread] at hstep
      exact (Option.some.inj hstep).symm
    have hlength : (((t.src.data contents).drop t.src.position.toNat).take
        (min len t.src.available)).length = min len t.src.available := by
      rw [length_take, length_drop_data]
      apply min_eq_left
      exact (min_le_right _ _).trans (min_le_right _ _)
    refine ⟨_, by rw [hread, hdst], ?_, ?_, ?_⟩
    · rw [hlength, havailable]
    · rw [hdata, havailable]
    · rw [hdst, toNat_position_advance (min_le_right _ _), havailable]
  · intro reads ok hreads hworks
    have hspc' : 0 < file.inst.sectorsPerCluster := by
      obtain ⟨position, rfl⟩ := hfile
      exact hspc
    exact readAll_eq_read hspc' reads hreads hworks

/-- Every byte of a sector is the sector's number. -/
def numbered : U64 → Sector := fun lba _ => lba.setWidth 8

/-- A file of 600 bytes in the clusters 2 and 3, of one sector each, at the sectors 64 and 65. -/
def small : Fat32File := ⟨smallInstance, [2, 3], 0, 600⟩

/-- Four bytes are read across the end of the first cluster. -/
theorem reads_exact_small : ∃ file τ, Run (Steps (step numbered)) small τ file ∧
    τ.map (·.label) = [.seek 510, .read (fun _ => true) 4] ∧
    (small.advance 510).read (.of numbered fun _ => true) 4 = some ([64, 64, 65, 65], file) := by
  have hseek : small.step numbered (.seek 510) = some (small.advance 510) := by decide
  have hread : (small.advance 510).step numbered (.read (fun _ => true) 4) =
      some (small.advance 514) := by decide +kernel
  have hrun : Run (Steps (step numbered)) small
      [⟨small, .seek 510, small.advance 510⟩,
        ⟨small.advance 510, .read (fun _ => true) 4, small.advance 514⟩] (small.advance 514) :=
    Run.cons hseek (Run.single hread)
  refine ⟨_, _, hrun, rfl, ?_⟩
  obtain ⟨bytes, hbytes, -, hdata, -⟩ := (reads_exact (by decide) hrun (by
    intro t ht ok len hlabel n
    simp only [mem_cons, not_mem_nil, or_false] at ht
    rcases ht with rfl | rfl
    · cases hlabel
    · cases hlabel
      rfl)).1 _ (mem_cons_of_mem _ mem_cons_self) _ _ rfl
  have hvalues : ((small.data numbered).drop 510).take 4 = [64, 64, 65, 65] := by decide +kernel
  have hfour : bytes = ((small.data numbered).drop 510).take 4 := hdata
  rw [hfour, hvalues] at hbytes
  exact hbytes

end Fat32File

end BeastOs.Fs
