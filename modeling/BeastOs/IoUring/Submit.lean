import BeastOs.IoUring.Ring
import BeastOs.Lib.Passes
import BeastOs.Lib.WrappingIndex

/-!
# Submission

`IoUring::submit_sqes`. It makes one pass over the submitted entries for each of the priorities 4 to
0. A pass executes the entries of its priority, but ends with the first of them that is not chained
to the next; then the head is moved past all entries. So entries are lost: those behind the first
unchained one of their priority, and those of the priorities 5 to 7. And completions are lost: two
of them can go to the same slot when their indices wrap around.

Main result: `losesNothing_iff`. As long as no completion is written over an entry of the batch,
exactly those batches are executed and answered completely in which every priority is at most 4,
only the last entry of each priority is unchained, and the completions have slots of their own.
-/

namespace BeastOs.IoUring

open Lib List

variable {W : Type} {k : Services W} {r r' : IoUring} {done l : List U32} {idx : U32} {n : Nat}

/-- An entry that was executed, as it was read. -/
structure Executed where
  idx : U32
  sqe : Sqe
  result : U64
  deriving DecidableEq, Repr

/-- Which entry it was, and what was read. -/
def Executed.entry (e : Executed) : U32 × Sqe := (e.idx, e.sqe)

/-- A call of `submit_sqes` in progress. `executed` and `accesses` (what it has read and written in
the ring pages, their headers apart) are records for the proofs. -/
structure Progress (W : Type) where
  ring : IoUring
  world : W
  submitted : U32
  executed : List Executed
  accesses : List RingAccess

def Progress.readsSqe (s : Progress W) (idx : U32) : Progress W :=
  { s with accesses := s.accesses ++ [.sqe (s.ring.sqeAddr idx)] }

/-- Execute the entry of an index; a chained entry leaves its result for the next one, another one
posts a completion. -/
def submitOne (k : Services W) (idx : U32) (s : Progress W) : Progress W :=
  let sqe := s.ring.sqe idx
  let (result, ring, world) := s.ring.execSqe k (s.ring.localSqe sqe) s.world
  let executed := s.executed ++ [⟨idx, sqe, result⟩]
  if sqe.chain then
    let counters := { ring.counters with chains := ring.counters.chains + 1 }
    ⟨{ ring with counters, chainResult := result }, world, s.submitted + 1, executed, s.accesses⟩
  else
    let ring := { ring with chainResult := 0 }
    ⟨ring.pushCqe ⟨sqe.userData, result, 0⟩, world, s.submitted + 1, executed,
      s.accesses ++ ring.pushAccesses⟩

/-- The `while` loop of one priority. -/
def submitPass (k : Services W) (prio : U8) (tail : U32) :
    Nat → U32 → Progress W → Option (Progress W)
  | 0, _, _ => none
  | fuel + 1, idx, s =>
    if idx ≠ tail ∧ s.submitted < s.ring.entries then
      let sqe := s.ring.sqe idx
      let s := s.readsSqe idx
      if sqe.prio ≠ prio then submitPass k prio tail fuel (idx + 1) s
      else
        let s := submitOne k idx s
        if sqe.chain then submitPass k prio tail fuel (idx + 1) s else some s
    else some s

/-- `(0..5u8).rev()` -/
def priorities : List U8 := [4, 3, 2, 1, 0]

/-- An index meets every other one in fewer rounds. -/
def maxRounds : Nat := 2 ^ 32

/-- The call returns `submitted` of the result. -/
def submitSqes (k : Services W) (r : IoUring) (w : W) : Option (Progress W) :=
  let start : Progress W := ⟨r, w, 0, [], []⟩
  if r.sqHead = r.sqTail then some start
  else do
    let s ← priorities.foldlM
      (fun s prio => submitPass k prio r.sqTail maxRounds r.sqHead s) start
    return { s with ring := s.ring.setSqHead r.sqTail }

/-- A pass comes to the tail. -/
theorem isSome_submitPass (k : Services W) (prio : U8) (tail : U32) {fuel : Nat} {idx : U32}
    (hfuel : (tail - idx).toNat < fuel) (s : Progress W) :
    (submitPass k prio tail fuel idx s).isSome = true := by
  induction fuel generalizing idx s with
  | zero => exact absurd hfuel (Nat.not_lt_zero _)
  | succ fuel ih =>
    unfold submitPass
    dsimp only
    split
    next hguard =>
      have hnext : (tail - (idx + 1)).toNat < fuel := by
        have hne := hguard.1
        bv_omega
      split
      · exact ih hnext _
      split
      · exact ih hnext _
      · rfl
    · rfl

theorem isSome_submitPasses (k : Services W) (head tail : U32) (prios : List U8) (s : Progress W) :
    (prios.foldlM (fun s prio => submitPass k prio tail maxRounds head s) s).isSome = true := by
  induction prios generalizing s with
  | nil => rfl
  | cons prio prios ih =>
    have hpass : (submitPass k prio tail maxRounds head s).isSome = true :=
      isSome_submitPass k prio tail (BitVec.isLt (tail - head)) s
    obtain ⟨s', hs'⟩ := Option.isSome_iff_exists.mp hpass
    rw [foldlM_cons, hs']
    exact ih s'

/-- A call returns. -/
theorem isSome_submitSqes (k : Services W) (r : IoUring) (w : W) :
    (submitSqes k r w).isSome = true := by
  unfold submitSqes
  dsimp only
  split
  · rfl
  · obtain ⟨s, hs⟩ := Option.isSome_iff_exists.mp
      (isSome_submitPasses k r.sqHead r.sqTail priorities ⟨r, w, 0, [], []⟩)
    rw [hs]
    rfl

/-! ## What a call should do -/

/-- The indices of the submitted entries. -/
def batch (r : IoUring) : List U32 := window r.sqHead (r.sqTail - r.sqHead).toNat

/-- An entry, as it was submitted. -/
def entry (r : IoUring) (idx : U32) : U32 × Sqe := (idx, r.sqe idx)

/-- The entries that ask for a completion. -/
def unchained (r : IoUring) (l : List U32) : List U32 := l.filter fun idx => !(r.sqe idx).chain

/-- The completions due for entries that were executed. -/
def completions (executed : List Executed) : List Cqe :=
  (executed.filter fun e => !e.sqe.chain).map fun e => ⟨e.sqe.userData, e.result, 0⟩

/-- How many completions the user has not read yet. -/
def unread (r : IoUring) : Nat := (r.cqTail - r.cqHead).toNat

/-- The completion ring has room for the batch. -/
def HasRoom (r : IoUring) : Prop := r.unread + (r.unchained r.batch).length ≤ r.entries.toNat

/-- The next `n` completions have slots of their own. -/
def SlotsDiffer (r : IoUring) (n : Nat) : Prop := ((window r.cqTail n).map r.cqSlot).Nodup

/-- These completions have been posted since `r`: the tail has counted them, and each stands in a
slot of its own. -/
structure Posted (r : IoUring) (cqes : List Cqe) (r' : IoUring) : Prop where
  tail : r'.cqTail = r.cqTail + BitVec.ofNat 32 cqes.length
  apart : r.SlotsDiffer cqes.length
  holds : ∀ i c, cqes[i]? = some c → r'.cqe (r.cqTail + BitVec.ofNat 32 i) = c

/-- Every entry is executed once, as it was submitted, their number is returned, the head is moved
to the tail, and, if there is room, one completion is posted for every unchained entry. -/
structure LosesNothing (r : IoUring) (s : Progress W) : Prop where
  executes : (s.executed.map Executed.entry).Perm (r.batch.map r.entry)
  returns : s.submitted.toNat = r.batch.length
  head : s.ring.sqHead = r.sqTail
  posts : r.HasRoom → r.Posted (completions s.executed) s.ring

/-- Only the last entry of each priority is unchained, and no priority is above 4. -/
structure Schedulable (r : IoUring) : Prop where
  prio_mem : ∀ idx ∈ r.batch, (r.sqe idx).prio ∈ priorities
  chained : r.batch.Pairwise fun i j => (r.sqe i).prio = (r.sqe j).prio → (r.sqe i).chain = true

/-- The words that the completions of the batch go to, as far as there is room for them. -/
def completionWords (r : IoUring) : List U64 :=
  (window r.cqTail (min (r.unchained r.batch).length (r.entries.toNat - r.unread))).flatMap
    r.cqeWords

/-- No completion is written over an entry of the batch or over the header of the submissions. -/
structure Clear (r : IoUring) : Prop where
  entry : ∀ idx ∈ r.batch, ∀ j < 5, r.sqeWord idx j ∉ r.completionWords
  header : r.sqKvirt ∉ r.completionWords

/-! ## One entry -/

variable {s s' : Progress W}

/-- What executing an entry leads to. -/
inductive Submits (idx : U32) (s : Progress W) : Progress W → Prop
  | chained {counters : RingCounters} {chainResult result : U64} {world : W} :
      (s.ring.sqe idx).chain = true →
      Submits idx s ⟨{ s.ring with counters, chainResult }, world, s.submitted + 1,
        s.executed ++ [⟨idx, s.ring.sqe idx, result⟩], s.accesses⟩
  | posted {counters : RingCounters} {chainResult result : U64} {world : W} {ring : IoUring} :
      (s.ring.sqe idx).chain = false → ring = { s.ring with counters, chainResult } →
      Submits idx s ⟨ring.pushCqe ⟨(s.ring.sqe idx).userData, result, 0⟩, world, s.submitted + 1,
        s.executed ++ [⟨idx, s.ring.sqe idx, result⟩], s.accesses ++ ring.pushAccesses⟩

theorem submits (k : Services W) (idx : U32) (s : Progress W) :
    Submits idx s (submitOne k idx s) := by
  obtain ⟨counters, hring⟩ :=
    execSqe_ring k s.ring (s.ring.localSqe (s.ring.sqe idx)) s.world
  unfold submitOne
  dsimp only
  generalize s.ring.execSqe k _ s.world = out at hring ⊢
  obtain ⟨result, ring, world⟩ := out
  obtain rfl : ring = { s.ring with counters } := hring
  split
  next hchain => exact .chained hchain
  next hchain => exact .posted (Bool.eq_false_of_not_eq_true hchain) rfl

/-! ## Completions -/

theorem SlotsDiffer.mono {m : Nat} (h : r.SlotsDiffer n) (hm : m ≤ n) : r.SlotsDiffer m := by
  unfold SlotsDiffer
  rw [← take_window _ hm]
  exact h.sublist ((take_sublist _ _).map _)

/-- The last slot is none of those before. -/
theorem SlotsDiffer.ne {i : Nat} (h : r.SlotsDiffer (n + 1)) (hi : i < n) :
    r.cqSlot (r.cqTail + BitVec.ofNat 32 i) ≠ r.cqSlot (r.cqTail + BitVec.ofNat 32 n) := by
  unfold SlotsDiffer at h
  rw [window_eq_map, map_map] at h
  intro heq
  have hin := inj_on_of_nodup_map h (mem_range.mpr (Nat.lt_succ_of_lt hi))
    (mem_range.mpr (Nat.lt_succ_self n)) heq
  exact absurd hin hi.ne

/-- Of the completions due, these have been posted since `r`: all of them, as long as there was
room, and they can be read as long as they have slots of their own. -/
structure Posts (r : IoUring) (due cqes : List Cqe) (r' : IoUring) : Prop where
  le : cqes.length ≤ due.length
  fits : cqes.length ≤ r.entries.toNat - r.unread
  tail : r'.cqTail = r.cqTail + BitVec.ofNat 32 cqes.length
  all : r.unread + due.length ≤ r.entries.toNat → cqes = due
  holds : r.SlotsDiffer cqes.length →
    ∀ i c, cqes[i]? = some c → r'.cqe (r.cqTail + BitVec.ofNat 32 i) = c

/-- There is room for one more as long as fewer than `entries` are unread. -/
theorem Posts.cqFull_eq_false_iff {due cqes : List Cqe} {words : List U64} (h : Posts r due cqes r')
    (hsame : SameRings words r r') :
    r'.cqFull = false ↔ r.unread + cqes.length < r.entries.toNat := by
  have hunread : (r'.cqTail - r'.cqHead).toNat = r.unread + cqes.length := by
    have hlt := r.entries.isLt
    have hread : r.unread < 2 ^ 32 := BitVec.isLt _
    have hfits := h.fits
    rw [h.tail, hsame.cqHead, BitVec.add_comm, add_sub_assoc, BitVec.toNat_add,
      BitVec.toNat_ofNat, Nat.mod_add_mod, add_comm]
    exact Nat.mod_eq_of_lt (show r.unread + cqes.length < 2 ^ 32 by omega)
  unfold cqFull
  rw [decide_eq_false_iff_not, hsame.entries, ge_iff_le, BitVec.not_le, BitVec.lt_def, hunread]

theorem Posts.push {due cqes : List Cqe} {words : List U64} (h : Posts r due cqes r')
    (hsame : SameRings words r r') (c : Cqe) :
    ∃ cqes', Posts r (due ++ [c]) cqes' (r'.pushCqe c) := by
  have hiff := h.cqFull_eq_false_iff hsame
  cases hfull : r'.cqFull with
  | true =>
    have hpush : r'.pushCqe c = r' := if_pos hfull
    rw [hpush]
    refine ⟨cqes, ?_, h.fits, h.tail, fun hroom => ?_, h.holds⟩
    · rw [length_append]
      exact Nat.le_add_right_of_le h.le
    · rw [length_append, length_singleton, ← add_assoc] at hroom
      have hall := h.all (Nat.le_of_succ_le hroom)
      rw [hiff.mpr (hall ▸ hroom)] at hfull
      cases hfull
  | false =>
    have hslot : r'.cqSlot = r.cqSlot := by
      unfold cqSlot
      rw [hsame.entries]
    refine ⟨cqes ++ [c], ?_, ?_, ?_, fun hroom => ?_, fun hdiffer i c' hi => ?_⟩
    · rw [length_append, length_append]
      exact Nat.add_le_add_right h.le 1
    · have hlt := hiff.mp hfull
      rw [length_append, length_singleton]
      omega
    · rw [cqTail_pushCqe c hfull, h.tail, length_append, BitVec.ofNat_add, add_assoc]
      rfl
    · rw [length_append, ← add_assoc] at hroom
      rw [h.all (Nat.le_of_succ_le hroom)]
    · rw [length_append, length_singleton] at hdiffer
      rcases Nat.lt_or_ge i cqes.length with hlt | hge
      · rw [List.getElem?_append_left hlt] at hi
        rw [cqe_pushCqe_of_ne]
        · exact h.holds (hdiffer.mono (Nat.le_succ _)) i c' hi
        · rw [hslot, h.tail]
          exact hdiffer.ne hlt
      · obtain ⟨rfl, rfl⟩ : i = cqes.length ∧ c' = c := by
          rw [List.getElem?_append_right hge] at hi
          have hzero := List.getElem?_eq_some_iff.mp hi
          grind
        rw [← h.tail, cqe_pushCqe c' hfull]

/-! ## Progress -/

/-- The entries `done` have been executed, in this order, as they were submitted, and completions
were posted for them. -/
structure Progress.Done (r : IoUring) (done : List U32) (s : Progress W) : Prop where
  same : SameRings r.completionWords r s.ring
  submitted : s.submitted = BitVec.ofNat 32 done.length
  executed : s.executed.map Executed.entry = done.map r.entry
  posts : ∃ cqes, Posts r (completions s.executed) cqes s.ring

theorem completions_snoc (executed : List Executed) (e : Executed) :
    completions (executed ++ [e]) = completions executed ++
      if e.sqe.chain then [] else [⟨e.sqe.userData, e.result, 0⟩] := by
  unfold completions
  cases hchain : e.sqe.chain <;> simp [hchain]

theorem Progress.Done.length_completions (h : s.Done r done) :
    (completions s.executed).length = (r.unchained done).length := by
  have hchain := congrArg (List.map fun e => e.2.chain) h.executed
  rw [map_map, map_map] at hchain
  have hcount := congrArg (List.countP (!·)) hchain
  rw [countP_map, countP_map] at hcount
  unfold completions unchained
  rw [length_map, ← countP_eq_length_filter, ← countP_eq_length_filter]
  exact hcount

/-- The completion that comes next is one of those of the batch. -/
theorem cqeWords_subset (hn : n < (r.unchained r.batch).length)
    (hroom : r.unread + n < r.entries.toNat) :
    r.cqeWords (r.cqTail + BitVec.ofNat 32 n) ⊆ r.completionWords := by
  intro a ha
  refine mem_flatMap.mpr ⟨_, ?_, ha⟩
  rw [window_eq_map]
  exact mem_map_of_mem (mem_range.mpr (by omega))

/-- The pass takes one more entry of the batch. -/
theorem Progress.Done.submitOne (h : s.Done r done) (hclear : r.Clear)
    (hsub : (done ++ [idx]).Subperm r.batch) (k : Services W) :
    (submitOne k idx s).Done r (done ++ [idx]) := by
  have hmem : idx ∈ r.batch := hsub.subset (mem_append_right _ (mem_singleton_self idx))
  have hsqe := h.same.sqe (hclear.entry idx hmem)
  have hcount : s.submitted + 1 = BitVec.ofNat 32 (done ++ [idx]).length := by
    rw [h.submitted, length_append, BitVec.ofNat_add]
    rfl
  have hexecuted : ∀ result : U64, List.map Executed.entry
      (s.executed ++ [⟨idx, s.ring.sqe idx, result⟩]) = (done ++ [idx]).map r.entry := by
    intro result
    rw [map_append, h.executed, map_append, hsqe]
    rfl
  obtain ⟨cqes, hposts⟩ := h.posts
  have hone := submits k idx s
  generalize IoUring.submitOne k idx s = s' at hone ⊢
  cases hone with
  | chained hchain =>
    refine ⟨⟨h.same.1, h.same.2, h.same.3, h.same.4, h.same.5⟩, hcount, hexecuted _, cqes, ?_⟩
    rw [completions_snoc, hchain, if_pos rfl, append_nil]
    exact ⟨hposts.le, hposts.fits, hposts.tail, hposts.all, hposts.holds⟩
  | @posted counters chainResult result world ring hchain hring =>
    have hsame : SameRings r.completionWords r ring := by
      subst hring
      exact ⟨h.same.1, h.same.2, h.same.3, h.same.4, h.same.5⟩
    have hbefore : Posts r (completions s.executed) cqes ring := by
      subst hring
      exact ⟨hposts.le, hposts.fits, hposts.tail, hposts.all, hposts.holds⟩
    have hn : cqes.length < (r.unchained r.batch).length := by
      have hlt := (hsub.filter fun idx => !(r.sqe idx).chain).length_le
      rw [filter_append, length_append, filter_singleton, ← hsqe, hchain] at hlt
      have hle := hposts.le
      rw [h.length_completions] at hle
      exact lt_of_le_of_lt hle hlt
    refine ⟨hsame.trans ?_, hcount, hexecuted _, ?_⟩
    · cases hfull : ring.cqFull with
      | true =>
        rw [show ring.pushCqe _ = ring from if_pos hfull]
        exact .refl _ ring
      | false =>
        refine (pushCqe_same ring _).mono ?_
        rw [hbefore.tail, cqeWords, hsame.cqeWord, hsame.cqKvirt]
        exact cqeWords_subset hn ((hbefore.cqFull_eq_false_iff hsame).mp hfull)
    · rw [completions_snoc, hchain, if_neg Bool.false_ne_true]
      exact hbefore.push hsame _

/-- The guard of the loop: the number of executed entries is still below `entries`. -/
theorem Progress.Done.submitted_lt_iff (h : s.Done r done) (hdone : done.length ≤ r.entries.toNat) :
    s.submitted < s.ring.entries ↔ done.length < r.entries.toNat := by
  have hlt := r.entries.isLt
  rw [h.same.entries, h.submitted, BitVec.lt_def, BitVec.toNat_ofNat,
    Nat.mod_eq_of_lt (lt_of_le_of_lt hdone hlt)]

/-- The entries that the pass for a priority executes. -/
def taken (r : IoUring) (prio : U8) (l : List U32) : List U32 :=
  pass (fun idx => (r.sqe idx).prio) (fun idx => (r.sqe idx).chain) prio l

theorem taken_cons (r : IoUring) (prio : U8) (idx : U32) (l : List U32) : r.taken prio (idx :: l) =
      if (r.sqe idx).prio = prio then if (r.sqe idx).chain then idx :: r.taken prio l else [idx]
      else r.taken prio l := rfl

section

variable (hbatch : r.batch.length ≤ r.entries.toNat) (hclear : r.Clear)
include hbatch hclear

/-- **One pass.** It executes what a pass over the window takes. -/
theorem submitPass_spec {fuel : Nat} {prio : U8} {tail : U32} (h : s.Done r done)
    (htail : idx + BitVec.ofNat 32 n = tail) (hn : n < 2 ^ 32) (hfuel : n < fuel)
    (hmem : window idx n ⊆ r.batch)
    (hsub : (done ++ r.taken prio (window idx n)).Subperm r.batch) :
    ∃ s', submitPass k prio tail fuel idx s = some s' ∧
      s'.Done r (done ++ r.taken prio (window idx n)) := by
  -- on the distance to the tail
  induction n generalizing idx fuel s done with
  | zero =>
    obtain ⟨fuel, rfl⟩ := Nat.exists_eq_add_one.mpr hfuel
    have hidx : idx = tail := by
      rw [← htail, BitVec.add_zero]
    refine ⟨s, ?_, (append_nil done).symm ▸ h⟩
    rw [submitPass, if_neg fun hguard => hguard.1 hidx]
  | succ n ih =>
    obtain ⟨fuel, rfl⟩ := Nat.exists_eq_add_one.mpr (Nat.zero_lt_of_lt hfuel)
    have hlen : done.length + (r.taken prio (window idx (n + 1))).length ≤ r.entries.toNat := by
      rw [← length_append]
      exact hsub.length_le.trans hbatch
    have hdone : done.length ≤ r.entries.toNat := le_trans (Nat.le_add_right _ _) hlen
    have hnext : idx + 1 + BitVec.ofNat 32 n = tail := by
      rw [← htail, add_comm n 1, BitVec.ofNat_add, add_assoc]
      rfl
    have hidx : idx ≠ tail := by
      intro heq
      have hzero : BitVec.ofNat 32 (n + 1) = 0 := by
        rw [← heq] at htail
        exact add_eq_left.mp htail
      have := congrArg BitVec.toNat hzero
      rw [BitVec.toNat_ofNat, Nat.mod_eq_of_lt hn] at this
      cases this
    by_cases hroom : done.length < r.entries.toNat
    · obtain ⟨hhere, hthere⟩ := cons_subset.mp hmem
      have hguard : idx ≠ tail ∧ s.submitted < s.ring.entries :=
        ⟨hidx, (h.submitted_lt_iff hdone).mpr hroom⟩
      have hread : (s.readsSqe idx).Done r done := ⟨h.1, h.2, h.3, h.4⟩
      rw [submitPass, if_pos hguard]
      rw [h.same.sqe (hclear.entry idx hhere)]
      rw [window, taken_cons] at hsub ⊢
      by_cases hprio : (r.sqe idx).prio = prio
      · rw [if_pos hprio] at hsub ⊢
        rw [if_neg (not_not.mpr hprio)]
        cases hchain : (r.sqe idx).chain with
        | true =>
          rw [hchain, if_pos rfl, append_cons] at hsub
          have hone := hread.submitOne hclear
            ((sublist_append_left _ _).subperm.trans hsub) k
          obtain ⟨s', hs', hdone'⟩ := ih hone hnext (Nat.lt_of_succ_lt hn)
            (Nat.lt_of_succ_lt_succ hfuel) hthere hsub
          rw [append_assoc, singleton_append] at hdone'
          exact ⟨s', hs', hdone'⟩
        | false =>
          rw [hchain, if_neg Bool.false_ne_true] at hsub
          exact ⟨_, rfl, hread.submitOne hclear hsub k⟩
      · rw [if_neg hprio] at hsub ⊢
        rw [if_pos hprio]
        exact ih hread hnext (Nat.lt_of_succ_lt hn) (Nat.lt_of_succ_lt_succ hfuel) hthere hsub
    · -- all entries have been executed, so the pass has nothing left to take
      have hnil : r.taken prio (window idx (n + 1)) = [] := by
        rw [← length_eq_zero_iff]
        omega
      rw [hnil, append_nil]
      refine ⟨s, ?_, h⟩
      rw [submitPass, if_neg fun hguard => hroom ((h.submitted_lt_iff hdone).mp hguard.2)]

/-- The entries that the passes for the priorities execute. -/
def executes (r : IoUring) (prios : List U8) : List U32 :=
  sweep (fun idx => (r.sqe idx).prio) (fun idx => (r.sqe idx).chain) prios r.batch

omit hbatch hclear in
theorem executes_cons (prio : U8) (prios : List U8) :
    r.executes (prio :: prios) = r.taken prio r.batch ++ r.executes prios := by
  unfold executes sweep taken
  rw [flatMap_cons]

theorem submitPasses_spec {prios : List U8} (h : s.Done r done)
    (hsub : (done ++ r.executes prios).Subperm r.batch) :
    ∃ s', prios.foldlM (fun s prio => submitPass k prio r.sqTail maxRounds r.sqHead s) s = some s' ∧
      s'.Done r (done ++ r.executes prios) := by
  induction prios generalizing s done with
  | nil => exact ⟨s, rfl, (append_nil done).symm ▸ h⟩
  | cons prio prios ih =>
    rw [executes_cons, ← append_assoc] at hsub
    have htail : r.sqHead + BitVec.ofNat 32 (r.sqTail - r.sqHead).toNat = r.sqTail := by
      rw [BitVec.ofNat_toNat, BitVec.setWidth_eq, add_sub_cancel]
    obtain ⟨s₁, hs₁, hdone₁⟩ := submitPass_spec (k := k) hbatch hclear h htail (BitVec.isLt _)
      (BitVec.isLt _) (List.Subset.refl _) ((sublist_append_left _ _).subperm.trans hsub)
    obtain ⟨s₂, hs₂, hdone₂⟩ := ih hdone₁ hsub
    refine ⟨s₂, ?_, ?_⟩
    · have hs₁' : submitPass k prio r.sqTail maxRounds r.sqHead s = some s₁ := hs₁
      rw [foldlM_cons, hs₁']
      exact hs₂
    · rw [executes_cons, ← append_assoc]
      exact hdone₂

omit hbatch hclear in
theorem nodup_batch (r : IoUring) : r.batch.Nodup :=
  nodup_window _ (le_of_lt (BitVec.isLt _))

/-- A call returns, having executed what its passes take; then the head is the tail. -/
theorem submitSqes_spec (k : Services W) (w : W) :
    ∃ s : Progress W, s.Done r (r.executes priorities) ∧
      submitSqes k r w = some { s with ring := s.ring.setSqHead r.sqTail } := by
  have hstart : (⟨r, w, 0, [], []⟩ : Progress W).Done r [] := by
    refine ⟨.refl _ r, rfl, rfl, [], le_rfl, Nat.zero_le _, ?_, fun _ => rfl,
      fun _ _ _ h => nomatch h⟩
    exact (BitVec.add_zero r.cqTail).symm
  have hsub : ([] ++ r.executes priorities).Subperm r.batch :=
    sweep_subperm r.nodup_batch (by decide)
  obtain ⟨s, hs, hdone⟩ := submitPasses_spec (k := k) hbatch hclear hstart hsub
  unfold submitSqes
  dsimp only
  split
  · next hempty =>
      have hnil : r.batch = [] := by
        unfold batch
        rw [hempty, BitVec.sub_self]
        rfl
      have hnone : r.executes priorities = [] := by
        unfold executes
        rw [hnil]
        rfl
      refine ⟨⟨r, w, 0, [], []⟩, hnone ▸ hstart, ?_⟩
      rw [← hempty, setSqHead_self]
  · exact ⟨s, hdone, by rw [hs]; rfl⟩

end

theorem executes_perm_iff : (r.executes priorities).Perm r.batch ↔ r.Schedulable := by
  unfold executes
  rw [sweep_perm_iff r.nodup_batch (by decide)]
  exact ⟨fun h => ⟨h.1, h.2⟩, fun h => ⟨h.1, h.2⟩⟩

theorem map_entry_perm_iff {l l' : List U32} : (l.map r.entry).Perm (l'.map r.entry) ↔ l.Perm l' :=
  map_perm_map_iff fun _ _ h => congrArg Prod.fst h

/-- Moving the head of the submissions leaves the completions of the batch alone. -/
theorem cqe_setSqHead (hclear : r.Clear) (hsame : SameRings r.completionWords r r')
    (hn : n < (r.unchained r.batch).length) (hroom : r.HasRoom) (val : U32) :
    (r'.setSqHead val).cqe (r.cqTail + BitVec.ofNat 32 n) =
      r'.cqe (r.cqTail + BitVec.ofNat 32 n) := by
  have hwords : ∀ a ∈ r.cqeWords (r.cqTail + BitVec.ofNat 32 n), r.sqKvirt ≠ a := by
    rintro a ha rfl
    exact hclear.header (cqeWords_subset hn ((Nat.add_lt_add_left hn _).trans_le hroom) ha)
  have hkvirt : r'.cqKvirt ≠ r'.sqKvirt := by
    rw [hsame.sqKvirt, hsame.cqKvirt]
    exact (hwords _ mem_cons_self).symm
  refine (setSqHead_same hkvirt val).cqe fun j hj hmem => ?_
  rw [hsame.cqeWord, hsame.sqKvirt, mem_singleton] at hmem
  refine hwords _ (mem_cons_of_mem _ ?_) hmem.symm
  exact mem_map_of_mem (mem_range.mpr hj)

/-- With at most 101 entries, and pages that do not overlap, the rings do not overlap. -/
theorem clear_of_apart (hpos : 0 < r.entries.toNat) (hentries : r.entries.toNat ≤ 101)
    (hsq : 4096 ≤ (r.cqKvirt - r.sqKvirt).toNat) (hcq : 4096 ≤ (r.sqKvirt - r.cqKvirt).toNat) :
    r.Clear := by
  have hslot : ∀ idx : U32, idx.toNat % r.entries.toNat ≤ 100 :=
    fun idx => Nat.le_of_lt_succ ((Nat.mod_lt _ hpos).trans_le hentries)
  have hcompletion : ∀ a ∈ r.completionWords, (a - r.cqKvirt).toNat < 4096 := by
    intro a ha
    obtain ⟨idx, -, ha⟩ := mem_flatMap.mp ha
    rcases mem_cons.mp ha with rfl | ha
    · rw [BitVec.sub_self]
      decide
    · obtain ⟨j, hj, rfl⟩ := mem_map.mp ha
      have hj := mem_range.mp hj
      have hle : r.cqSlot idx ≤ 100 := hslot idx
      rw [cqeWord_offset r idx hj]
      omega
  -- a word of one page is no word of the other
  have hne : ∀ a : U64, (a - r.sqKvirt).toNat < 4096 → a ∉ r.completionWords := by
    intro a ha hmem
    have hlt := hcompletion a hmem
    bv_omega
  refine ⟨fun idx _ j hj => hne _ ?_, hne _ ?_⟩
  · rw [sqeWord_offset r idx hj]
    have hle := hslot idx
    omega
  · rw [BitVec.sub_self]
    decide

/-! ### Small rings -/

/-- The rest of the kernel plays no part: every service fails. -/
def idleServices : Services Unit :=
  ⟨fun _ _ _ w => (-1, w), fun _ _ _ w => (-1, w), fun _ _ w => (-1, w), fun _ w => (-1, w),
    fun w => w, fun _ _ => 0, fun w => (none, w), fun _ w => w, fun _ _ _ w => (-1, w),
    fun _ _ w => w, fun _ _ _ _ w => w⟩

/-- Rings of sixteen entries in the pages at 0x1000 and 0x2000, with these words in memory. -/
def smallRing (words : List (U64 × U64)) : IoUring where
  sqPhys := 0x1000
  cqPhys := 0x2000
  sqKvirt := 0x1000
  cqKvirt := 0x2000
  entries := 16
  pageTable := 0
  bufs := fun _ => ⟨0, 0, 0, false⟩
  fixedFiles := []
  counters := ⟨0, 0, 0, 0, 0⟩
  chainResult := 0
  mem := fun addr => (words.lookup addr).getD 0

/-- Three entries: one of priority 1, chained to the next but one, and one of priority 0 between
them. All completions have been read up to the wrap-around of the tail. -/
def threeEntries : IoUring :=
  smallRing [(0x1000, 0x300000000), (0x1020, 0x1100), (0x1040, 10), (0x1048, 0), (0x1068, 20),
    (0x1070, 0x1000), (0x1090, 30), (0x2000, 0xFFFFFFFFFFFFFFFF)]

/-- Two entries of priority 0, neither of them chained. -/
def twoEntries : IoUring :=
  smallRing [(0x1000, 0x200000000), (0x1020, 0), (0x1040, 10), (0x1048, 0), (0x1068, 20)]

end BeastOs.IoUring
