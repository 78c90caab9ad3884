import Mathlib.Data.List.Chain
import BeastOs.Lib.Orbit
import BeastOs.Word

/-!
# Cluster chains

`read_fat_entry` and `cluster_chain` of `fs/fat32.rs`. The entry of a cluster in the file allocation
table is the next cluster of its file; `cluster_chain` follows the entries until one is not a
cluster or cannot be read.

Nothing on the disk says that this happens. `clusterChain_iff_noCycle`: the loop ends, with a list
of clusters that does not repeat and in which each is the successor of the one before it, exactly if
the entries do not lead back to a cluster that was visited. Otherwise it never ends.
-/

namespace BeastOs.Fs

open List Option Lib

def sectorSize : Nat := 512

abbrev Sector := Fin 512 → U8

/-- The sectors of the disk that can be read. -/
abbrev Disk := U64 → Option Sector

def fatEocMin : U32 := 0x0FFFFFF8

structure Fat32Instance where
  sectorsPerCluster : Nat
  fatStartLba : U64
  dataStartLba : U64
  deriving DecidableEq, Repr

namespace Fat32Instance

def clusterBytes (inst : Fat32Instance) : Nat := inst.sectorsPerCluster * sectorSize

theorem clusterBytes_pos {inst : Fat32Instance} (hspc : 0 < inst.sectorsPerCluster) :
    0 < inst.clusterBytes :=
  Nat.mul_pos hspc (by decide)

def clusterToLba (inst : Fat32Instance) (cluster : U32) : U64 :=
  inst.dataStartLba + (cluster.setWidth 64 - 2) * BitVec.ofNat 64 inst.sectorsPerCluster

def fromLeBytes (bytes : Fin 4 → U8) : U32 := bytes 3 ++ bytes 2 ++ bytes 1 ++ bytes 0

/-- The four bytes of a cluster's entry in its sector of the table. -/
def entryBytes (sector : Sector) (cluster : U32) (i : Fin 4) : U8 :=
  sector ⟨cluster.toNat * 4 % sectorSize + i, by unfold sectorSize; omega⟩

/-- The top four bits of an entry are reserved. -/
def readFatEntry (disk : Disk) (inst : Fat32Instance) (cluster : U32) : Option U32 :=
  let sectorIndex := cluster.toNat * 4 / sectorSize
  match disk (inst.fatStartLba + BitVec.ofNat 64 sectorIndex) with
  | none => none
  | some sector => some (fromLeBytes (entryBytes sector cluster) &&& 0x0FFFFFFF)

/-- The number of a cluster that holds data. -/
def IsCluster (cluster : U32) : Prop := ¬ (cluster < 2 ∨ fatEocMin ≤ cluster)

instance (cluster : U32) : Decidable (IsCluster cluster) := inferInstanceAs (Decidable (¬ _))

/-- The loop, at most `fuel` times; `none` if it has not ended by then. -/
def clusterChain (disk : Disk) (inst : Fat32Instance) : Nat → U32 → Option (List U32)
  | 0, _ => none
  | fuel + 1, cl =>
    if cl < 2 ∨ fatEocMin ≤ cl then some []
    else
      match inst.readFatEntry disk cl with
      | some next =>
        if next < 2 ∨ fatEocMin ≤ next then some [cl]
        else (clusterChain disk inst fuel next).map (cl :: ·)
      | none => some [cl]

/-! ## The clusters visited -/

/-- The next cluster, if the entry can be read and is one. -/
def successor (disk : Disk) (inst : Fat32Instance) (cluster : U32) : Option U32 :=
  (inst.readFatEntry disk cluster).filter fun next => IsCluster next

/-- The cluster that the entries lead to in `n` steps. -/
def visited (disk : Disk) (inst : Fat32Instance) (start : U32) (n : Nat) : Option U32 :=
  if IsCluster start then visit (inst.successor disk) start n else none

/-- The entries do not lead back to a cluster. -/
def NoCycle (disk : Disk) (inst : Fat32Instance) (start : U32) : Prop :=
  ∀ i j cluster, i < j → inst.visited disk start i = some cluster →
    inst.visited disk start j ≠ some cluster

variable {disk : Disk} {inst : Fat32Instance} {cl start : U32} {fuel : Nat} {clusters : List U32}

theorem successor_eq_some_iff {next : U32} : inst.successor disk cl = some next ↔
      inst.readFatEntry disk cl = some next ∧ IsCluster next := by
  rw [successor, filter_eq_some_iff, decide_eq_true_iff]

section

variable (hcl : IsCluster cl)
include hcl

/-- Without a successor the loop ends. -/
theorem clusterChain_last (hnone : inst.successor disk cl = none)
    (fuel : Nat) : clusterChain disk inst (fuel + 1) cl = some [cl] := by
  rw [clusterChain, if_neg hcl]
  split
  next next hentry =>
    apply if_pos
    by_contra hnext
    rw [successor_eq_some_iff.mpr ⟨hentry, hnext⟩] at hnone
    cases hnone
  · rfl

/-- With a successor it goes on there. -/
theorem clusterChain_next {next : U32} (hnext : inst.successor disk cl = some next) (fuel : Nat) :
    clusterChain disk inst (fuel + 1) cl = (clusterChain disk inst fuel next).map (cl :: ·) := by
  obtain ⟨hentry, hcluster⟩ := successor_eq_some_iff.mp hnext
  rw [clusterChain, if_neg hcl, hentry]
  exact if_neg hcluster

/-- A loop that has ended has collected the clusters on the way. -/
theorem getElem?_clusterChain (hchain : clusterChain disk inst fuel cl = some clusters) (n : Nat) :
    clusters[n]? = visit (inst.successor disk) cl n := by
  induction fuel generalizing cl clusters n with
  | zero => cases hchain
  | succ fuel ih =>
    cases hnext : inst.successor disk cl with
    | none =>
      rw [clusterChain_last hcl hnext] at hchain
      obtain rfl := some.inj hchain
      cases n with
      | zero => rfl
      | succ n => rw [visit_succ, hnext]; rfl
    | some next =>
      rw [clusterChain_next hcl hnext] at hchain
      obtain ⟨rest, hrest, rfl⟩ := map_eq_some_iff.mp hchain
      cases n with
      | zero => rfl
      | succ n =>
        rw [visit_succ, hnext, getElem?_cons_succ]
        exact ih (successor_eq_some_iff.mp hnext).2 hrest n

/-- A way that ends is one the loop comes to the end of. -/
theorem clusterChain_of_visit {n : Nat} (hend : visit (inst.successor disk) cl n = none) :
    ∃ clusters, clusterChain disk inst n cl = some clusters := by
  induction n generalizing cl with
  | zero => cases hend
  | succ n ih =>
    cases hnext : inst.successor disk cl with
    | none => exact ⟨[cl], clusterChain_last hcl hnext n⟩
    | some next =>
      rw [visit_succ, hnext, bind_some] at hend
      obtain ⟨rest, hrest⟩ := ih (successor_eq_some_iff.mp hnext).2 hend
      exact ⟨cl :: rest, by rw [clusterChain_next hcl hnext, hrest, map_some]⟩

end

/-- Only clusters are collected. -/
theorem isCluster_of_mem_clusterChain (hchain : clusterChain disk inst fuel cl = some clusters)
    {c : U32} (hc : c ∈ clusters) : IsCluster c := by
  induction fuel generalizing cl clusters with
  | zero => cases hchain
  | succ fuel ih =>
    by_cases hcl : IsCluster cl
    · cases hnext : inst.successor disk cl with
      | none =>
        rw [clusterChain_last hcl hnext] at hchain
        obtain rfl := some.inj hchain
        exact mem_singleton.mp hc ▸ hcl
      | some next =>
        rw [clusterChain_next hcl hnext] at hchain
        obtain ⟨rest, hrest, rfl⟩ := map_eq_some_iff.mp hchain
        rcases mem_cons.mp hc with rfl | hc
        · exact hcl
        · exact ih hrest hc
    · rw [clusterChain, if_pos (not_not.mp hcl)] at hchain
      obtain rfl := some.inj hchain
      cases hc

section

variable (hcl : IsCluster cl) (hchain : clusterChain disk inst fuel cl = some clusters)
include hcl hchain

/-- The clusters collected follow each other in the table. -/
theorem isChain_clusterChain : clusters.IsChain fun a b => inst.readFatEntry disk a = some b := by
  rw [isChain_iff_getElem]
  intro i hi
  have hthis := getElem?_clusterChain hcl hchain i
  have hnext := getElem?_clusterChain hcl hchain (i + 1)
  rw [getElem?_eq_getElem (by omega)] at hthis
  rw [getElem?_eq_getElem hi, visit, ← hthis, bind_some] at hnext
  exact (successor_eq_some_iff.mp hnext.symm).1

/-- No cluster is collected twice. -/
theorem nodup_clusterChain : clusters.Nodup := by
  have hget := getElem?_clusterChain hcl hchain
  have hend : visit (inst.successor disk) cl clusters.length = none := by
    rw [← hget, getElem?_eq_none le_rfl]
  rw [nodup_iff_getElem?_ne_getElem?]
  intro i j hij hj heq
  rw [hget, hget] at heq
  cases hi : visit (inst.successor disk) cl i with
  | none =>
    rw [← hget, getElem?_eq_getElem (hij.trans hj)] at hi
    cases hi
  | some c => exact visit_ne_none_of_repeat hij hi (heq ▸ hi) clusters.length hend

end

instance finite_clusters : Finite U32 :=
  Finite.of_injective BitVec.toFin fun _ _ => BitVec.eq_of_toFin_eq

/-- **Cluster-chain traversal ends where the table has no cycle.** For every content of the table
and every start, the loop ends and returns a list without repeated clusters, each the successor of
the one before it, exactly if the entries do not lead back to a cluster that was visited. -/
theorem clusterChain_iff_noCycle (disk : Disk) (inst : Fat32Instance) (start : U32) :
    (∃ fuel clusters, clusterChain disk inst fuel start = some clusters ∧ clusters.Nodup ∧
        clusters.IsChain fun a b => inst.readFatEntry disk a = some b) ↔
      inst.NoCycle disk start := by
  by_cases hstart : IsCluster start
  · have hvisited : inst.NoCycle disk start ↔
        ∃ n, visit (inst.successor disk) start n = none := by
      simp only [NoCycle, visited, if_pos hstart]
      exact (visit_ends_iff start).symm
    rw [hvisited]
    constructor
    · rintro ⟨fuel, clusters, hchain, -⟩
      refine ⟨clusters.length, ?_⟩
      rw [← getElem?_clusterChain hstart hchain, getElem?_eq_none le_rfl]
    · rintro ⟨n, hend⟩
      obtain ⟨clusters, hchain⟩ := clusterChain_of_visit hstart hend
      exact ⟨n, clusters, hchain, nodup_clusterChain hstart hchain,
        isChain_clusterChain hstart hchain⟩
  · -- nothing is visited from a number that is not a cluster's
    refine iff_of_true ⟨1, [], ?_, nodup_nil, isChain_nil⟩ ?_
    · rw [clusterChain, if_pos (not_not.mp hstart)]
    · intro i j cluster _ hi
      rw [visited, if_neg hstart] at hi
      cases hi

/-- A table in which the entry of every cluster is cluster 2. -/
def loopDisk : Disk := fun _ => some fun i => if i.val % 4 = 0 then 2 else 0

/-- One sector per cluster, a table at sector 32 and data from sector 64 on. -/
def smallInstance : Fat32Instance := ⟨1, 32, 64⟩

/-- When the table leads from cluster 2 to itself the loop never ends. -/
theorem clusterChain_loops : smallInstance.readFatEntry loopDisk 2 = some 2 ∧
    ¬ ∃ fuel clusters, clusterChain loopDisk smallInstance fuel 2 = some clusters := by
  have hcluster : IsCluster 2 := by decide
  have hself : smallInstance.successor loopDisk 2 = some 2 := by decide
  have hnone : ∀ fuel, clusterChain loopDisk smallInstance fuel 2 = none := by
    intro fuel
    induction fuel with
    | zero => rfl
    | succ fuel ih => rw [clusterChain_next hcluster hself, ih, map_none]
  refine ⟨(successor_eq_some_iff.mp hself).1, ?_⟩
  rintro ⟨fuel, clusters, hchain⟩
  rw [hnone] at hchain
  cases hchain

end Fat32Instance

end BeastOs.Fs
