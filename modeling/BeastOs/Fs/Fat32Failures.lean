import BeastOs.Fs.Fat32Chain
import BeastOs.Fs.Fat32Read

/-!
# Reading a FAT32 file from a failing disk

A sector that cannot be read ends the reading of its cluster. The loop over the clusters goes on,
and the bytes of the next cluster are put where the missing bytes should have been.

`transfers` lists, for each cluster that a read comes to, how many bytes were wanted of it and how
many it delivered. `readsRight_iff_noGap`: a read returns bytes of the file at the right place,
whatever the disk contains, exactly if no cluster delivers bytes after one that has come up short.
-/

namespace BeastOs.Fs

open List Lib Fat32Instance

/-- The bytes wanted of each cluster and the bytes delivered by it. -/
def transfers (ok : Nat → Bool) (inst : Fat32Instance) (maxToRead : Nat) :
    List U32 → (offset attempt bytesRead : Nat) → List (Nat × Nat)
  | [], _, _, _ => []
  | _ :: clusters, offset, attempt, bytesRead =>
    if bytesRead ≥ maxToRead then []
    else
      let left := maxToRead - bytesRead
      let got := delivered ok inst left offset attempt
      (toRead inst left offset, got) :: transfers ok inst maxToRead clusters 0
        (sectorsRead ok (sectorsNeeded inst left offset) attempt).2 (bytesRead + got)

/-- After a cluster that came up short no other delivers anything. -/
def GapFree (transfers : List (Nat × Nat)) : Prop :=
  transfers.Pairwise fun a b => a.2 < a.1 → b.2 = 0

instance (transfers : List (Nat × Nat)) : Decidable (GapFree transfers) :=
  inferInstanceAs (Decidable (transfers.Pairwise _))

variable {contents : U64 → Sector} {ok : Nat → Bool} {inst : Fat32Instance}
  {maxToRead offset attempt bytesRead : Nat} {cluster : U32} {clusters : List U32} {read : List U8}
  {rest : List (Nat × Nat)} {first : Nat × Nat}

theorem transfers_cons (h : bytesRead < maxToRead) :
    transfers ok inst maxToRead (cluster :: clusters) offset attempt bytesRead =
      (toRead inst (maxToRead - bytesRead) offset,
          delivered ok inst (maxToRead - bytesRead) offset attempt) ::
        transfers ok inst maxToRead clusters 0
          (sectorsRead ok (sectorsNeeded inst (maxToRead - bytesRead) offset) attempt).2
          (bytesRead + delivered ok inst (maxToRead - bytesRead) offset attempt) := by
  rw [transfers, if_neg (not_le.mpr h)]

theorem transfers_of_le (h : maxToRead ≤ bytesRead) :
    transfers ok inst maxToRead clusters offset attempt bytesRead = [] := by
  cases clusters with
  | nil => rfl
  | cons cluster clusters => rw [transfers, if_pos h]

theorem delivered_le (left offset attempt : Nat) :
    delivered ok inst left offset attempt ≤ toRead inst left offset :=
  min_le_right _ _

/-- What a cluster delivers is as long as it says. -/
theorem length_delivered (left offset attempt : Nat) :
    (((clusterData contents inst cluster).drop offset).take
      (delivered ok inst left offset attempt)).length =
      delivered ok inst left offset attempt := by
  rw [length_take, length_drop_clusterData]
  apply min_eq_left
  exact (delivered_le _ _ _).trans (min_le_right _ _)

/-- The loop adds to what was read before. -/
theorem exists_readClusters_append (contents : U64 → Sector) (ok : Nat → Bool) (maxToRead : Nat)
    (clusters : List U32) (offset attempt : Nat) (read : List U8)
    (hoffset : offset < inst.clusterBytes) :
    ∃ bytes, readClusters (.of contents ok) inst maxToRead clusters offset attempt read =
      read ++ bytes := by
  induction clusters generalizing offset attempt read with
  | nil => exact ⟨[], (append_nil _).symm⟩
  | cons cluster clusters ih =>
    by_cases hread : read.length < maxToRead
    · rw [readClusters_cons cluster clusters attempt hread hoffset]
      obtain ⟨bytes, hbytes⟩ := ih 0 _ _ (Nat.lt_of_le_of_lt (Nat.zero_le _) hoffset)
      exact ⟨_, hbytes.trans (append_assoc _ _ _)⟩
    · exact ⟨[], by rw [readClusters_of_le (Nat.not_lt.mp hread), append_nil]⟩

/-! ## Without a gap -/

section

variable (clusters : List U32)
  (offset attempt : Nat) (read : List U8) (hoffset : offset < inst.clusterBytes)
include hoffset

/-- Clusters that deliver nothing change nothing. -/
theorem readClusters_of_silent
    (hsilent : ∀ b ∈ transfers ok inst maxToRead clusters offset attempt read.length, b.2 = 0) :
    readClusters (.of contents ok) inst maxToRead clusters offset attempt read = read := by
  induction clusters generalizing offset attempt with
  | nil => rfl
  | cons cluster clusters ih =>
    by_cases hread : read.length < maxToRead
    · rw [transfers_cons hread, forall_mem_cons] at hsilent
      obtain ⟨hzero, hrest⟩ := hsilent
      dsimp only at hzero
      rw [hzero, Nat.add_zero] at hrest
      rw [readClusters_cons cluster clusters attempt hread hoffset, hzero, take_zero, append_nil]
      exact ih 0 _ (Nat.lt_of_le_of_lt (Nat.zero_le _) hoffset) hrest
    · exact readClusters_of_le (Nat.not_lt.mp hread) _ _ _

/-- **Without a gap the loop reads on** from where it was. -/
theorem readClusters_of_gapFree
    (hgap : GapFree (transfers ok inst maxToRead clusters offset attempt read.length)) :
    ∃ k, readClusters (.of contents ok) inst maxToRead clusters offset attempt read =
      read ++ ((chainData contents inst clusters).drop offset).take k := by
  induction clusters generalizing offset attempt read with
  | nil => exact ⟨0, (append_nil _).symm⟩
  | cons cluster clusters ih =>
    have hzero : 0 < inst.clusterBytes := Nat.zero_lt_of_lt hoffset
    by_cases hread : read.length < maxToRead
    · set left := maxToRead - read.length with hleft
      set got := delivered ok inst left offset attempt with hgot
      have hle : got ≤ toRead inst left offset := delivered_le _ _ _
      have hcluster : toRead inst left offset ≤
          ((clusterData contents inst cluster).drop offset).length := by
        rw [length_drop_clusterData]
        exact Nat.min_le_right _ _
      have hlength : (read ++ ((clusterData contents inst cluster).drop offset).take got).length =
          read.length + got := by
        rw [length_append, length_delivered]
      rw [transfers_cons hread, ← hleft, ← hgot] at hgap
      obtain ⟨hhead, hrest⟩ := pairwise_cons.mp hgap
      rw [← hlength] at hhead hrest
      rw [readClusters_cons cluster clusters attempt hread hoffset, ← hleft, ← hgot,
        drop_chainData_cons hoffset.le]
      by_cases hshort : got < toRead inst left offset
      · -- the other clusters deliver nothing
        rw [readClusters_of_silent _ _ _ _ hzero fun b hb => hhead b hb hshort]
        exact ⟨got, by rw [take_append_of_le_length (hle.trans hcluster)]⟩
      · by_cases henough : maxToRead ≤ read.length + got
        · rw [readClusters_of_le (hlength ▸ henough)]
          exact ⟨got, by rw [take_append_of_le_length (hle.trans hcluster)]⟩
        · -- the whole rest of the cluster was delivered
          have hall : got = ((clusterData contents inst cluster).drop offset).length := by
            rw [length_drop_clusterData]
            unfold toRead at hshort hle
            omega
          obtain ⟨k, hk⟩ := ih 0 _ _ hzero hrest
          refine ⟨got + k, ?_⟩
          rw [hk, drop_zero, append_assoc, hall, take_length, take_length_add_append]
    · exact ⟨0, by rw [readClusters_of_le (Nat.not_lt.mp hread), take_zero, append_nil]⟩

end

/-! ## With a gap -/

variable (hspc : 0 < inst.sectorsPerCluster)

include hspc in
theorem exists_clusterData_eq_cons (contents : U64 → Sector) (cluster : U32) :
    ∃ rest, clusterData contents inst cluster = contents (inst.clusterToLba cluster) 0 :: rest := by
  obtain ⟨n, hn⟩ := Nat.exists_eq_succ_of_ne_zero hspc.ne'
  rw [clusterData, sectorsData, hn, window, flatMap_cons, ofFn_succ, cons_append]
  exact ⟨_, rfl⟩

include hspc in
/-- The first cluster that delivers anything starts with its first byte. -/
theorem readClusters_first (clusters : List U32) (attempt bytesRead : Nat)
    (hsome : ∃ b ∈ transfers ok inst maxToRead clusters 0 attempt bytesRead, b.2 ≠ 0) :
    ∃ cluster ∈ clusters, ∀ (contents : U64 → Sector) (read : List U8), read.length = bytesRead →
      ∃ rest, readClusters (.of contents ok) inst maxToRead clusters 0 attempt read =
        read ++ contents (inst.clusterToLba cluster) 0 :: rest := by
  have hzero := clusterBytes_pos hspc
  induction clusters generalizing attempt with
  | nil =>
    obtain ⟨b, hb, -⟩ := hsome
    cases hb
  | cons cluster clusters ih =>
    by_cases hread : bytesRead < maxToRead
    · rw [transfers_cons hread] at hsome
      set got := delivered ok inst (maxToRead - bytesRead) 0 attempt with hgot
      by_cases hnone : got = 0
      · rw [hnone, Nat.add_zero, exists_mem_cons_iff] at hsome
        obtain ⟨cluster', hmem, hfirst⟩ := ih _ (hsome.resolve_left fun h => h rfl)
        refine ⟨cluster', mem_cons_of_mem _ hmem, fun contents read hlength => ?_⟩
        subst hlength
        rw [readClusters_cons cluster clusters attempt hread hzero, ← hgot, hnone, take_zero,
          append_nil]
        exact hfirst contents read rfl
      · refine ⟨cluster, mem_cons_self, fun contents read hlength => ?_⟩
        subst hlength
        obtain ⟨bytes, hbytes⟩ := exists_readClusters_append contents ok maxToRead clusters 0
          (sectorsRead ok (sectorsNeeded inst (maxToRead - read.length) 0) attempt).2
          (read ++ ((clusterData contents inst cluster).drop 0).take got) hzero
        obtain ⟨first, hfirst⟩ := exists_clusterData_eq_cons hspc contents cluster
        obtain ⟨n, hn⟩ := Nat.exists_eq_succ_of_ne_zero hnone
        rw [readClusters_cons cluster clusters attempt hread hzero, ← hgot, hbytes, hfirst, hn,
          drop_zero, take_succ_cons, append_assoc, cons_append]
        exact ⟨_, rfl⟩
    · rw [transfers_of_le (Nat.not_lt.mp hread)] at hsome
      obtain ⟨b, hb, -⟩ := hsome
      cases hb

/-- The sectors of a cluster. -/
def sectorsOf (inst : Fat32Instance) (cluster : U32) : List U64 :=
  window (inst.clusterToLba cluster) inst.sectorsPerCluster

/-- No cluster starts in another one. -/
def Apart (inst : Fat32Instance) (clusters : List U32) : Prop :=
  clusters.Pairwise fun a b => inst.clusterToLba b ∉ sectorsOf inst a

/-- A disk with ones in one sector and zeros elsewhere. -/
def marked (lba : U64) : U64 → Sector := fun lba' _ => if lba' = lba then 1 else 0

theorem eq_zero_of_mem_clusterData {lba : U64} (hlba : lba ∉ sectorsOf inst cluster) {b : U8}
    (hb : b ∈ clusterData (marked lba) inst cluster) : b = 0 := by
  obtain ⟨lba', hmem, hsector⟩ := mem_flatMap.mp hb
  obtain ⟨i, rfl⟩ := mem_ofFn.mp hsector
  refine if_neg ?_
  rintro rfl
  exact hlba hmem

include hspc in
/-- Bytes after a gap are in the place of others: those of another cluster. -/
theorem ne_take_of_short (hapart : ∀ c ∈ clusters, inst.clusterToLba c ∉ sectorsOf inst cluster)
    {got : Nat} (hshort : got < inst.clusterBytes - offset)
    (hoffset : offset < inst.clusterBytes)
    (hsome : ∃ b ∈ transfers ok inst maxToRead clusters 0 attempt (bytesRead + got), b.2 ≠ 0) :
    ∃ contents : U64 → Sector, ∀ (read : List U8) (k : Nat), read.length = bytesRead →
      readClusters (.of contents ok) inst maxToRead clusters 0 attempt
          (read ++ ((clusterData contents inst cluster).drop offset).take got) ≠
        read ++ ((chainData contents inst (cluster :: clusters)).drop offset).take k := by
  obtain ⟨cluster', hmem, hfirst⟩ := readClusters_first hspc clusters attempt _ hsome
  refine ⟨marked (inst.clusterToLba cluster'), fun read k hlength heq => ?_⟩
  set contents := marked (inst.clusterToLba cluster') with hcontents
  set rest := (clusterData contents inst cluster).drop offset with hrest
  have hlt : got < rest.length := by
    rw [hrest, length_drop_clusterData]
    exact hshort
  obtain ⟨tail, htail⟩ := hfirst contents (read ++ rest.take got)
    (by rw [length_append, length_take, Nat.min_eq_left hlt.le, hlength])
  rw [htail, drop_chainData_cons hoffset.le, ← hrest, append_assoc, append_cancel_left_eq] at heq
  -- the byte after those delivered by the first cluster
  have hone : (rest.take got ++ contents (inst.clusterToLba cluster') 0 :: tail)[got]? =
      some 1 := by
    have hgot : (rest.take got).length = got := by rw [length_take, Nat.min_eq_left hlt.le]
    rw [getElem?_append_right hgot.le, hgot, Nat.sub_self, getElem?_cons_zero]
    exact congrArg some (if_pos rfl)
  rw [heq, getElem?_take] at hone
  split at hone
  · rw [getElem?_append_left hlt] at hone
    have hmem' := mem_of_mem_drop (mem_of_getElem? hone)
    exact absurd (eq_zero_of_mem_clusterData (hapart cluster' hmem) hmem') (by decide)
  · cases hone

/-- Bytes after a gap that comes after a complete cluster are in the place of others, too. -/
theorem ne_take_of_complete {k : Nat} (hoffset : offset < inst.clusterBytes)
    (hne : ∀ k, readClusters (.of contents ok) inst maxToRead clusters 0 attempt
        (read ++ (clusterData contents inst cluster).drop offset) ≠
      read ++ (clusterData contents inst cluster).drop offset ++
        ((chainData contents inst clusters).drop 0).take k) :
    readClusters (.of contents ok) inst maxToRead clusters 0 attempt
        (read ++ (clusterData contents inst cluster).drop offset) ≠
      read ++ ((chainData contents inst (cluster :: clusters)).drop offset).take k := by
  intro heq
  set rest := (clusterData contents inst cluster).drop offset with hrest
  rw [drop_chainData_cons hoffset.le, ← hrest] at heq
  obtain ⟨bytes, hbytes⟩ := exists_readClusters_append contents ok maxToRead clusters 0 attempt
    (read ++ rest) (Nat.lt_of_le_of_lt (Nat.zero_le _) hoffset)
  have hk : rest.length ≤ k := by
    have hlengths := congrArg length (hbytes.symm.trans heq)
    simp only [length_append, length_take] at hlengths
    omega
  obtain ⟨k', rfl⟩ := Nat.exists_eq_add_of_le hk
  rw [take_length_add_append, ← append_assoc] at heq
  exact hne k' heq

theorem exists_ne_zero_of_gap
    (hgap : ¬ GapFree (first :: rest)) : ∃ b ∈ rest, b.2 ≠ 0 := by
  by_contra hno
  push Not at hno
  refine hgap (pairwise_cons.mpr ⟨fun b hb _ => hno b hb, ?_⟩)
  exact List.Pairwise.imp_of_mem (fun _ hb _ _ => hno _ hb)
    (pairwise_of_forall fun _ _ => trivial)

theorem not_gapFree_of_cons
    (hgap : ¬ GapFree (first :: rest)) (hcomplete : ¬ first.2 < first.1) : ¬ GapFree rest :=
  fun h => hgap (pairwise_cons.mpr ⟨fun _ _ hlt => absurd hlt hcomplete, h⟩)

include hspc in
/-- **With a gap there is a disk whose contents are not read in place.** -/
theorem exists_ne_take_of_gap (clusters : List U32) (hapart : Apart inst clusters)
    (offset attempt bytesRead : Nat) (hoffset : offset < inst.clusterBytes)
    (hgap : ¬ GapFree (transfers ok inst maxToRead clusters offset attempt bytesRead)) :
    ∃ contents : U64 → Sector, ∀ (read : List U8) (k : Nat), read.length = bytesRead →
      readClusters (.of contents ok) inst maxToRead clusters offset attempt read ≠
        read ++ ((chainData contents inst clusters).drop offset).take k := by
  induction clusters generalizing offset attempt bytesRead with
  | nil => exact absurd List.Pairwise.nil hgap
  | cons cluster clusters ih =>
    obtain ⟨hfirst, hothers⟩ := pairwise_cons.mp hapart
    by_cases hread : bytesRead < maxToRead
    · rw [transfers_cons hread] at hgap
      set left := maxToRead - bytesRead with hleft
      set got := delivered ok inst left offset attempt with hgot
      have hle : got ≤ toRead inst left offset := delivered_le _ _ _
      by_cases hshort : got < toRead inst left offset
      · -- something is delivered after the first cluster
        have hroom : got < inst.clusterBytes - offset :=
          Nat.lt_of_lt_of_le hshort (Nat.min_le_right _ _)
        obtain ⟨contents, hne⟩ := ne_take_of_short hspc hfirst hroom hoffset
          (exists_ne_zero_of_gap hgap)
        refine ⟨contents, fun read k hlength => ?_⟩
        rw [readClusters_cons cluster clusters attempt (hlength ▸ hread) hoffset, hlength]
        exact hne read k hlength
      · -- the first cluster is complete, and the gap is further on
        have hrest := not_gapFree_of_cons hgap hshort
        have hmore : bytesRead + got < maxToRead := by
          by_contra hle
          exact hrest (transfers_of_le (Nat.not_lt.mp hle) ▸ List.Pairwise.nil)
        have hall : got = inst.clusterBytes - offset := by
          unfold toRead at hshort hle
          omega
        obtain ⟨contents, hne⟩ := ih hothers 0 _ _ (Nat.lt_of_le_of_lt (Nat.zero_le _) hoffset)
          hrest
        refine ⟨contents, fun read k hlength => ?_⟩
        have hdata : ((clusterData contents inst cluster).drop offset).length = got :=
          (length_drop_clusterData cluster offset).trans hall.symm
        rw [readClusters_cons cluster clusters attempt (hlength ▸ hread) hoffset, hlength,
          ← hleft, ← hgot, ← hdata, take_length]
        apply ne_take_of_complete hoffset
        intro k
        apply hne
        rw [length_append, hlength, hdata]
    · exact absurd (transfers_of_le (Nat.not_lt.mp hread) ▸ List.Pairwise.nil) hgap

/-! ## Clusters of a chain -/

theorem clusterToLba_eq {c : U32} (hc : 2 ≤ c.toNat) : inst.clusterToLba c =
      inst.dataStartLba + BitVec.ofNat 64 ((c.toNat - 2) * inst.sectorsPerCluster) := by
  have hsub : c.setWidth 64 - 2 = BitVec.ofNat 64 (c.toNat - 2) := by bv_omega
  rw [clusterToLba, hsub, BitVec.ofNat_mul]

/-- **Different clusters have different sectors.** -/
theorem apart_of_nodup (hspc : inst.sectorsPerCluster < 256)
    (hcluster : ∀ c ∈ clusters, Fat32Instance.IsCluster c) (hnodup : clusters.Nodup) :
    Apart inst clusters := by
  have htwo : ∀ c ∈ clusters, 2 ≤ c.toNat := fun c hc =>
    Nat.not_lt.mp (not_or.mp (hcluster c hc)).1
  refine List.Pairwise.imp_of_mem ?_ hnodup
  intro a b ha hb hne hmem
  rw [sectorsOf, window_eq_map, mem_map, clusterToLba_eq (htwo a ha),
    clusterToLba_eq (htwo b hb)] at hmem
  obtain ⟨i, hi, heq⟩ := hmem
  rw [mem_range] at hi
  rw [add_assoc, ← BitVec.ofNat_add] at heq
  -- the sectors of all clusters are far fewer than there are numbers of sectors
  have hbound : ∀ c : U32, (c.toNat - 2) * inst.sectorsPerCluster ≤ 2 ^ 32 * 256 := fun c =>
    Nat.mul_le_mul ((Nat.sub_le _ _).trans c.isLt.le) hspc.le
  have hsame : (a.toNat - 2) * inst.sectorsPerCluster + i =
      (b.toNat - 2) * inst.sectorsPerCluster := by
    have ha' := hbound a
    have hb' := hbound b
    rcases Nat.le_total ((a.toNat - 2) * inst.sectorsPerCluster + i)
      ((b.toNat - 2) * inst.sectorsPerCluster) with hle | hle
    · exact index_inj _ hle (by omega) heq
    · exact (index_inj _ hle (by omega) heq.symm).symm
  have hquot := congrArg (· / inst.sectorsPerCluster) hsame
  have hpos : 0 < inst.sectorsPerCluster := Nat.zero_lt_of_lt hi
  rw [Nat.mul_comm, Nat.mul_add_div hpos, Nat.div_eq_of_lt hi, Nat.add_zero,
    Nat.mul_div_cancel _ hpos] at hquot
  have ha' := htwo a ha
  have hb' := htwo b hb
  exact hne (BitVec.eq_of_toNat_eq (by omega))

/-- The clusters of a chain are apart. -/
theorem apart_clusterChain {disk : Disk} {inst : Fat32Instance} {fuel : Nat} {start : U32}
    (hspc : inst.sectorsPerCluster < 256)
    (hchain : inst.clusterChain disk fuel start = some clusters) :
    Apart inst clusters := by
  by_cases hstart : Fat32Instance.IsCluster start
  · exact apart_of_nodup hspc
      (fun c hc => isCluster_of_mem_clusterChain hchain hc)
      (nodup_clusterChain hstart hchain)
  · cases fuel with
    | zero => cases hchain
    | succ fuel =>
      rw [clusterChain, if_pos (not_not.mp hstart)] at hchain
      obtain rfl := Option.some.inj hchain
      exact List.Pairwise.nil

/-! ## What a read returns -/

namespace Fat32File

variable {file : Fat32File}

/-- The bytes of the file. -/
def bytes (file : Fat32File) (contents : U64 → Sector) : List U8 :=
  (file.data contents).take file.fileSize.toNat

/-- What a read returns are the bytes of the file from the position on. -/
def ReadsRight (file : Fat32File) (contents : U64 → Sector) (ok : Nat → Bool) (len : Nat) : Prop :=
  ∀ read file', file.read (.of contents ok) len = some (read, file') →
    read = ((file.bytes contents).drop file.position.toNat).take read.length

/-- No cluster of the file delivers bytes to the read after one that has come up short. -/
def NoGap (file : Fat32File) (ok : Nat → Bool) (len : Nat) : Prop :=
  GapFree (transfers ok file.inst (min len (file.fileSize.toNat - file.position.toNat))
    (file.clusters.drop (file.position.toNat / file.inst.clusterBytes))
    (file.position.toNat % file.inst.clusterBytes) 0 0)

instance (file : Fat32File) (ok : Nat → Bool) (len : Nat) : Decidable (file.NoGap ok len) :=
  inferInstanceAs (Decidable (GapFree _))

/-- A read that returns bytes of the clusters at the position returns bytes of the file: it does not
read past the end. -/
theorem readsRight_iff (hspc : 0 < file.inst.sectorsPerCluster) (len : Nat) :
    file.ReadsRight contents ok len ↔ ∃ k, file.loop (.of contents ok) len =
      ((file.data contents).drop file.position.toNat).take k := by
  have hle : (file.loop (.of contents ok) len).length ≤
      file.fileSize.toNat - file.position.toNat :=
    (length_readClusters_le _ _ _ _ _ (Nat.zero_le _)).trans (Nat.min_le_right _ _)
  have hbytes : ((file.bytes contents).drop file.position.toNat).take
      (file.loop (.of contents ok) len).length =
      ((file.data contents).drop file.position.toNat).take
        (file.loop (.of contents ok) len).length := by
    rw [bytes, drop_take, take_take, Nat.min_eq_left hle]
  constructor
  · intro hright
    exact ⟨_, (hright _ _ (read_eq_loop hspc _ _)).trans hbytes⟩
  · rintro ⟨k, hk⟩ read file' hread
    rw [read_eq_loop hspc] at hread
    obtain ⟨rfl, -⟩ := Prod.mk.inj (Option.some.inj hread)
    rw [hbytes]
    conv_lhs => rw [hk]
    rw [hk, length_take, ← take_eq_take_min]

/-- **A read returns bytes of the file whatever the disk contains, exactly if there is no gap.** The
file is one whose clusters the driver has collected: any start cluster, any contents of the table,
any size and position; any of the requests for sectors may fail. -/
theorem readsRight_iff_noGap {disk : Disk} {inst : Fat32Instance} {fuel : Nat} {start : U32}
    {clusters : List U32} (hspc : 0 < inst.sectorsPerCluster) (hbyte : inst.sectorsPerCluster < 256)
    (hchain : inst.clusterChain disk fuel start = some clusters)
    (position fileSize : U64) (ok : Nat → Bool) (len : Nat) :
    (∀ contents, ReadsRight ⟨inst, clusters, position, fileSize⟩ contents ok len) ↔
      NoGap ⟨inst, clusters, position, fileSize⟩ ok len := by
  set file : Fat32File := ⟨inst, clusters, position, fileSize⟩
  have hoffset : file.position.toNat % file.inst.clusterBytes < file.inst.clusterBytes :=
    Nat.mod_lt _ (clusterBytes_pos hspc)
  constructor
  · intro hall
    by_contra hgap
    have hapart : Apart file.inst (file.clusters.drop
        (file.position.toNat / file.inst.clusterBytes)) :=
      (apart_clusterChain hbyte hchain).sublist (drop_sublist _ _)
    obtain ⟨contents, hne⟩ := exists_ne_take_of_gap hspc _ hapart _ 0 0 hoffset hgap
    obtain ⟨k, hk⟩ := (readsRight_iff hspc len).mp (hall contents)
    refine hne [] k rfl ?_
    rw [drop_data]
    exact hk
  · intro hgap contents
    have hreads : ∃ k, file.loop (.of contents ok) len = [] ++
        ((chainData contents file.inst (file.clusters.drop
          (file.position.toNat / file.inst.clusterBytes))).drop
          (file.position.toNat % file.inst.clusterBytes)).take k :=
      readClusters_of_gapFree _ _ 0 [] hoffset hgap
    rw [drop_data] at hreads
    exact (readsRight_iff hspc len).mpr hreads

/-- The table of a file in the clusters 2 and 3. -/
def twoClusters : Disk := fun _ => some fun i => if i.val = 8 then 3 else 0

/-- When the second of two sectors fails, a read returns the first one. -/
theorem readsRight_second_fails : smallInstance.clusterChain twoClusters 3 2 = some [2, 3] ∧
    ReadsRight small numbered (fun n => n != 1) 600 := by
  have hchain : smallInstance.clusterChain twoClusters 3 2 = some [2, 3] := by decide
  refine ⟨hchain, ?_⟩
  have hnoGap : NoGap small (fun n => n != 1) 600 := by decide +kernel
  exact (readsRight_iff_noGap (by decide) (by decide) hchain 0 600 (fun n => n != 1) 600).mpr
    hnoGap numbered

/-- When the first of two sectors fails, a read at position 0 returns bytes of the second one. -/
theorem not_readsRight_first_fails : smallInstance.clusterChain twoClusters 3 2 = some [2, 3] ∧
    ¬ ReadsRight small numbered (fun n => n != 0) 1 ∧
    small.read (.of numbered fun n => n != 0) 1 = some ([65], small.advance 1) ∧
    (small.bytes numbered).take 1 = [64] := by
  have hchain : smallInstance.clusterChain twoClusters 3 2 = some [2, 3] := by decide
  have hread : small.read (.of numbered fun n => n != 0) 1 = some ([65], small.advance 1) := by
    decide +kernel
  have hbytes : (small.bytes numbered).take 1 = [64] := by decide +kernel
  refine ⟨hchain, fun hright => ?_, hread, hbytes⟩
  have hstart : small.position.toNat = 0 := rfl
  have heq := hright _ _ hread
  rw [hstart, drop_zero, length_singleton, hbytes] at heq
  exact absurd heq (by decide)

end Fat32File

end BeastOs.Fs
