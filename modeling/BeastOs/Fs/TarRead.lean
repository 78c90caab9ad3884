import BeastOs.Fs.Tar

/-!
# Reading a file of an archive

`TarFile::read` and `read_at` of `fs/tar.rs`, and the loop of `cat` in the shell, which reads a file
until nothing comes any more.

Loops like that one rely on every read going on where the last one stopped (`ReadsOn`). A `TarFile`
has no cursor: each read starts at the beginning. `readsOn_iff` says when this cannot be seen from
what the reads return, and `cat_ends_iff` that the shell never gets to the end of a file that is not
empty.
-/

namespace BeastOs.Fs

open List

/-! ## The contract -/

/-- Consecutive pieces of some data, of the given lengths. -/
def pieces (data : List U8) : List Nat → List (List U8)
  | [] => []
  | len :: lens => data.take len :: pieces (data.drop len) lens

/-- What successive reads return is the data from the beginning on, and nothing once all of it has
been returned. -/
structure ReadsOn (data : List U8) (returned : List (List U8)) : Prop where
  consecutive : returned.flatten <+: data
  ends : ∀ i bytes, returned[i]? = some bytes → (returned.take i).flatten = data → bytes = []

theorem flatten_pieces (data : List U8) (lens : List Nat) :
    (pieces data lens).flatten = data.take lens.sum := by
  induction lens generalizing data with
  | nil => rfl
  | cons len lens ih => rw [pieces, flatten_cons, ih, sum_cons, take_add]

variable {returned : List (List U8)}

/-- Pieces are determined by their lengths. -/
theorem eq_pieces_of_isPrefix {data : List U8}
    (h : returned.flatten <+: data) : returned = pieces data (returned.map List.length) := by
  induction returned generalizing data with
  | nil => rfl
  | cons bytes returned ih =>
    obtain ⟨rest, rfl⟩ := h
    rw [flatten_cons, append_assoc, map_cons, pieces, take_left,
      drop_left, ← ih (prefix_append _ _)]

/-- Nothing can follow once everything has been returned. -/
theorem readsOn_of_isPrefix {data : List U8}
    (h : returned.flatten <+: data) : ReadsOn data returned := by
  refine ⟨h, fun i bytes hi hall => ?_⟩
  have hsplit : returned = returned.take i ++ bytes :: returned.drop (i + 1) := by
    obtain ⟨hlt, rfl⟩ := List.getElem?_eq_some_iff.mp hi
    rw [cons_getElem_drop_succ, take_append_drop]
  rw [hsplit, flatten_append, hall, flatten_cons] at h
  have hle := h.length_le
  simp only [length_append] at hle
  exact eq_nil_of_length_eq_zero (by omega)

namespace TarFile

/-! ## The code -/

/-- The bytes put into a buffer of `len` bytes. Reading does not change the handle. -/
def read (file : TarFile) (len : Nat) : List U8 × TarFile :=
  (file.data.take (min file.data.length len), file)

/-- What successive reads with buffers of the given lengths return. -/
def reads (file : TarFile) : List Nat → List (List U8)
  | [] => []
  | len :: lens => (file.read len).1 :: (file.read len).2.reads lens

variable {file : TarFile} {lens : List Nat}

theorem read_fst (file : TarFile) (len : Nat) : (file.read len).1 = file.data.take len := by
  rw [read, min_comm, ← take_eq_take_min]

theorem reads_eq (file : TarFile) (lens : List Nat) :
    file.reads lens = lens.map fun len => file.data.take len := by
  induction lens with
  | nil => rfl
  | cons len lens ih => rw [reads, read_fst, map_cons, ← ih]; rfl

/-! ## When reads go on -/

/-- Each of the other reads returns a byte at least. -/
theorem add_length_le_sum {size : Nat} (hsize : 0 < size) (hlens : ∀ len ∈ lens, 0 < len)
    {len : Nat} (hlen : len ∈ lens) :
    min len size + (lens.length - 1) ≤ (lens.map fun len => min len size).sum := by
  induction lens with
  | nil => cases hlen
  | cons first lens ih =>
    rw [forall_mem_cons] at hlens
    rw [map_cons, sum_cons, length_cons, Nat.add_sub_cancel]
    rcases mem_cons.mp hlen with rfl | hlen
    · have hothers := length_le_sum_of_one_le (lens.map fun len => min len size) (by
        intro n hn
        obtain ⟨other, hother, rfl⟩ := mem_map.mp hn
        exact Nat.lt_min.mpr ⟨hlens.2 other hother, hsize⟩)
      rw [length_map] at hothers
      omega
    · have hfirst : 0 < min first size := Nat.lt_min.mpr ⟨hlens.1, hsize⟩
      have hrest := ih hlens.2 hlen
      have hpos : 0 < lens.length := length_pos_of_mem hlen
      omega

/-- Two or more reads of a file go on only if none of them gets to its end. -/
theorem lt_of_sum_le {size : Nat} (hsize : 0 < size) (hlens : ∀ len ∈ lens, 0 < len)
    (htwo : 2 ≤ lens.length) (hsum : (lens.map fun len => min len size).sum ≤ size) :
    ∀ len ∈ lens, len < size := by
  intro len hlen
  have hle := add_length_le_sum hsize hlens hlen
  omega

/-- **Reads of a file of an archive go on** exactly if the file is empty, or there is at most one
read, or the buffers together are no longer than the file and each of its pieces reads like its
beginning. -/
theorem readsOn_iff (file : TarFile) (lens : List Nat) (hlens : ∀ len ∈ lens, 0 < len) :
    ReadsOn file.data (file.reads lens) ↔
      file.data = [] ∨ lens.length ≤ 1 ∨
        (lens.sum ≤ file.data.length ∧
          pieces file.data lens = lens.map fun len => file.data.take len) := by
  rw [reads_eq]
  constructor
  · intro h
    by_cases hempty : file.data = []
    · exact .inl hempty
    by_cases hone : lens.length ≤ 1
    · exact .inr (.inl hone)
    refine .inr (.inr ?_)
    have hsize : 0 < file.data.length := length_pos_of_ne_nil hempty
    have hlengths : (lens.map fun len => file.data.take len).map length =
        lens.map fun len => min len file.data.length := by
      rw [map_map]
      exact map_congr_left fun len _ => length_take
    have hsum : (lens.map fun len => min len file.data.length).sum ≤ file.data.length := by
      rw [← hlengths, ← length_flatten]
      exact h.consecutive.length_le
    have hlt := lt_of_sum_le hsize hlens (by omega) hsum
    have hmin : (lens.map fun len => min len file.data.length) = lens := by
      conv_rhs => rw [← map_id lens]
      exact map_congr_left fun len hlen => min_eq_left (hlt len hlen).le
    rw [hmin] at hsum hlengths
    refine ⟨hsum, ?_⟩
    have hpieces := eq_pieces_of_isPrefix h.consecutive
    rw [hlengths] at hpieces
    exact hpieces.symm
  · rintro (hempty | hone | ⟨-, hpieces⟩)
    · refine readsOn_of_isPrefix ?_
      have hnil : ∀ bytes ∈ lens.map fun len => file.data.take len, bytes = [] := by
        intro bytes hbytes
        obtain ⟨len, -, rfl⟩ := mem_map.mp hbytes
        rw [hempty, take_nil]
      rw [flatten_eq_nil_iff.mpr hnil]
      exact nil_prefix
    · refine readsOn_of_isPrefix ?_
      match lens, hone with
      | [], _ => exact nil_prefix
      | [len], _ =>
        rw [map_singleton, flatten_singleton]
        exact take_prefix _ _
    · rw [← hpieces]
      refine readsOn_of_isPrefix ?_
      rw [flatten_pieces]
      exact take_prefix _ _

/-- A file with the same byte four times looks as if its reads went on, until they get to its
end. -/
theorem readsOn_repeated : ReadsOn [7, 7, 7, 7] ((⟨"a", [7, 7, 7, 7]⟩ : TarFile).reads [2, 2]) :=
  (readsOn_iff ⟨"a", [7, 7, 7, 7]⟩ [2, 2] (by decide)).mpr (by decide)

/-- The second read of two bytes returns both of them again. -/
theorem not_readsOn_twice : (⟨"a", [7, 8]⟩ : TarFile).reads [2, 2] = [[7, 8], [7, 8]] ∧
    ¬ ReadsOn [7, 8] ((⟨"a", [7, 8]⟩ : TarFile).reads [2, 2]) := by
  have hreads : (⟨"a", [7, 8]⟩ : TarFile).reads [2, 2] = [[7, 8], [7, 8]] := by decide
  refine ⟨hreads, fun h => ?_⟩
  exact absurd (h.ends 1 [7, 8] rfl rfl) (by decide)

end TarFile

/-! ## The shell -/

/-- The loop of `cat`, at most `fuel` times; `none` if it has not ended by then. -/
def cat {Handle : Type} (read : Handle → Nat → List U8 × Handle) :
    Nat → Handle → Option (List U8)
  | 0, _ => none
  | fuel + 1, handle =>
    let (bytes, handle) := read handle 1024
    if bytes.length = 0 then some [] else (cat read fuel handle).map (bytes ++ ·)

/-- **`cat` ends on the empty file only.** -/
theorem cat_ends_iff (file : TarFile) :
    (∃ fuel out, cat TarFile.read fuel file = some out) ↔ file.data = [] := by
  constructor
  · rintro ⟨fuel, out, hout⟩
    by_contra hdata
    have hread : (file.read 1024).1.length ≠ 0 := by
      have hsize : 0 < file.data.length := length_pos_of_ne_nil hdata
      rw [TarFile.read_fst, length_take]
      omega
    have hnone : ∀ fuel, cat TarFile.read fuel file = none := by
      intro fuel
      induction fuel with
      | zero => rfl
      | succ fuel ih =>
        have hstep : cat TarFile.read (fuel + 1) file =
            (cat TarFile.read fuel file).map ((file.read 1024).1 ++ ·) := if_neg hread
        rw [hstep, ih, Option.map_none]
    rw [hnone] at hout
    cases hout
  · intro hdata
    refine ⟨1, [], if_pos ?_⟩
    rw [hdata]
    rfl

end BeastOs.Fs
