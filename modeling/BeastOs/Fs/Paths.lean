import BeastOs.Fs.Token

/-!
# Canonical paths

`PathNormalizer::normalize` splits a path at the slashes, drops empty components and `.`, lets `..`
take back the component before it, and puts the components together again. A path it returns is
canonical, and a canonical path is returned as it is.

What makes paths compose is that only the components matter: a path may be normalized before another
one is appended to it (`normalize_append`). `parent` and `basename` cut a canonical path at its last
slash, and `join` puts the parts together again (`split_join`).
-/

namespace BeastOs.Fs.PathNormalizer

open List

/-- A component that `normalize` keeps. -/
structure Plain (part : List Char) : Prop where
  ne_nil : part ≠ []
  ne_dot : part ≠ ['.']
  ne_dots : part ≠ ['.', '.']

/-- An absolute path without empty, `.` or `..` components and, unless it is the root, without a
slash at its end. -/
structure Canonical (path : Path) : Prop where
  absolute : path.head? = some '/'
  plain : path ≠ ['/'] → ∀ part ∈ (path.splitOn '/').tail, Plain part
  trailing : path ≠ ['/'] → path.getLast? ≠ some '/'

/-! ## Components -/

/-- The components that are left of a path. -/
def components (path : Path) : List (List Char) := (path.splitOn '/').foldl push []

/-- The canonical path with these components. -/
def render (components : List (List Char)) : Path :=
  if components = [] then ['/'] else components.flatMap ('/' :: ·)

theorem normalize_eq_render (path : Path) : normalize path = render (components path) := rfl

variable {part : List Char} {parts kept : List (List Char)} {path base child : Path}

theorem push_plain (h : Plain part) : push kept part = kept ++ [part] := by
  rw [push, if_neg (not_or.mpr ⟨h.ne_nil, h.ne_dot⟩), if_neg h.ne_dots]

theorem foldl_push_of_plain (h : ∀ part ∈ parts, Plain part) :
    parts.foldl push kept = kept ++ parts := by
  induction parts generalizing kept with
  | nil => simp
  | cons part parts ih =>
    rw [forall_mem_cons] at h
    rw [foldl_cons, push_plain h.1, ih h.2, append_assoc]
    rfl

/-- A slash separates components. -/
theorem not_mem_of_mem_splitOn (h : part ∈ path.splitOn '/') : '/' ∉ part := by
  induction path generalizing part with
  | nil =>
    rw [splitOn_nil, mem_singleton] at h
    simp [h]
  | cons c path ih =>
    rw [splitOn_cons_eq_if_modifyHead] at h
    split at h
    · rcases mem_cons.mp h with rfl | h
      · simp
      · exact ih h
    next hc =>
      cases hsplit : path.splitOn '/' with
      | nil => exact absurd hsplit (splitOn_ne_nil _ _)
      | cons first rest =>
        rw [hsplit] at h ih
        rcases mem_cons.mp h with rfl | h
        · have hfirst := ih mem_cons_self
          simpa [hfirst] using fun heq : '/' = c => hc (by simp [← heq])
        · exact ih (mem_cons_of_mem _ h)

/-- What is pushed on plain components leaves plain components. -/
theorem mem_push (h : part ∈ push kept base) : part ∈ kept ∨ part = base ∧ Plain part := by
  unfold push at h
  split_ifs at h with hempty hdots
  · exact .inl h
  · exact .inl (dropLast_subset _ h)
  · rcases mem_append.mp h with h | h
    · exact .inl h
    · obtain rfl := mem_singleton.mp h
      rw [not_or] at hempty
      exact .inr ⟨rfl, hempty.1, hempty.2, hdots⟩

theorem mem_foldl_push (h : part ∈ parts.foldl push kept) :
    part ∈ kept ∨ part ∈ parts ∧ Plain part := by
  induction parts generalizing kept with
  | nil => exact .inl h
  | cons first parts ih =>
    rcases ih h with h | ⟨h, hplain⟩
    · rcases mem_push h with h | ⟨rfl, hplain⟩
      · exact .inl h
      · exact .inr ⟨mem_cons_self, hplain⟩
    · exact .inr ⟨mem_cons_of_mem _ h, hplain⟩

theorem mem_components (h : part ∈ components path) : '/' ∉ part ∧ Plain part := by
  rcases mem_foldl_push h with h | ⟨h, hplain⟩
  · cases h
  · exact ⟨not_mem_of_mem_splitOn h, hplain⟩

variable (base child : Path)

/-- The components of what follows a slash are pushed on those before it. -/
theorem components_append :
    components (base ++ '/' :: child) = (child.splitOn '/').foldl push (components base) := by
  rw [components, splitOn_append_cons_self, foldl_append]
  rfl

/-! ## Rendering -/

theorem splitOn_append_flatMap (hpart : '/' ∉ part) (hparts : ∀ part ∈ parts, '/' ∉ part) :
    (part ++ parts.flatMap ('/' :: ·)).splitOn '/' = part :: parts := by
  induction parts generalizing part with
  | nil => simpa using splitOn_eq_singleton hpart
  | cons next parts ih =>
    rw [forall_mem_cons] at hparts
    rw [flatMap_cons, cons_append, splitOn_append_cons_self_of_not_mem hpart, ih hparts.1 hparts.2]

theorem splitOn_flatMap (hparts : ∀ part ∈ parts, '/' ∉ part) :
    (parts.flatMap ('/' :: ·)).splitOn '/' = [] :: parts :=
  splitOn_append_flatMap not_mem_nil hparts

variable (h : ∀ part ∈ parts, '/' ∉ part ∧ Plain part)

include h in
/-- The components of a rendered path are those it was rendered from. -/
theorem components_render :
    components (render parts) = parts := by
  unfold render
  split
  next hnil =>
    rw [hnil]
    rfl
  · rw [components, splitOn_flatMap fun part hpart => (h part hpart).1, foldl_cons]
    exact foldl_push_of_plain fun part hpart => (h part hpart).2

/-- Only the components of a path matter for what is appended to it. -/
theorem normalize_append :
    normalize (normalize base ++ '/' :: child) = normalize (base ++ '/' :: child) := by
  have hbase : components (normalize base) = components base :=
    components_render fun _ => mem_components
  calc normalize (normalize base ++ '/' :: child)
      = render ((child.splitOn '/').foldl push (components (normalize base))) := by
        rw [← components_append]
        rfl
    _ = normalize (base ++ '/' :: child) := by
        rw [hbase, ← components_append]
        rfl

/-- `join` may put one slash less between its arguments, which makes no difference. -/
theorem join_eq : join base child = normalize (base ++ '/' :: child) := by
  show normalize ((if base.getLast? = some '/' then base else base ++ ['/']) ++ child) = _
  split
  next hlast =>
    obtain ⟨front, rfl⟩ := getLast?_eq_some_iff.mp hlast
    simp only [append_assoc, singleton_append, normalize_eq_render, components_append]
    -- the second slash ends an empty component
    rfl
  · rw [append_assoc, singleton_append]

/-! ## Canonical paths -/

theorem canonical_root : Canonical ['/'] :=
  ⟨rfl, fun h => absurd rfl h, fun h => absurd rfl h⟩

/-- What `normalize` returns is canonical. -/
theorem canonical_normalize (path : Path) : Canonical (normalize path) := by
  rw [normalize_eq_render]
  unfold render
  split
  · exact canonical_root
  next hne =>
    have hsplit := splitOn_flatMap fun part (hpart : part ∈ components path) =>
      (mem_components hpart).1
    refine ⟨?_, ?_, ?_⟩
    · obtain ⟨part, rest, hcons⟩ := exists_cons_of_ne_nil hne
      rw [hcons]
      rfl
    · intro _ part hpart
      rw [hsplit] at hpart
      exact (mem_components hpart).2
    · intro _
      -- the last character is that of the last component
      rw [← dropLast_append_getLast hne, flatMap_append, flatMap_singleton]
      obtain ⟨hslash, hplain⟩ := mem_components (getLast_mem hne)
      obtain ⟨front, c, hlast⟩ := eq_nil_or_concat'  _ |>.resolve_left hplain.ne_nil
      rw [hlast] at hslash ⊢
      rw [← cons_append, ← append_assoc, getLast?_concat]
      rintro ⟨⟩
      simp at hslash

theorem flatMap_cons_eq_intercalate (hne : parts ≠ []) :
    parts.flatMap ('/' :: ·) = '/' :: List.intercalate ['/'] parts := by
  induction parts with
  | nil => exact absurd rfl hne
  | cons part parts ih =>
    cases parts with
    | nil => simp [intercalate]
    | cons next parts =>
      rw [flatMap_cons, ih (cons_ne_nil _ _), intercalate_cons_cons]
      simp

/-- A canonical path is returned as it is. -/
theorem Canonical.normalize_eq (h : Canonical path) : normalize path = path := by
  by_cases hroot : path = ['/']
  · rw [hroot]
    rfl
  · obtain ⟨rest, rfl⟩ := head?_eq_some_iff.mp h.absolute
    have hplain := h.plain hroot
    have hcomponents : components ('/' :: rest) = rest.splitOn '/' := by
      exact foldl_push_of_plain hplain
    have hne : rest.splitOn '/' ≠ [] := splitOn_ne_nil _ _
    rw [normalize_eq_render, hcomponents, render, if_neg hne, flatMap_cons_eq_intercalate hne,
      intercalate_splitOn]

/-! ## Splitting and joining -/

def basename (path : Path) : Path :=
  if normalize path = ['/'] then ['/'] else ((normalize path).splitOn '/').getLast?.getD []

theorem rfind_append (front : Path) (h : '/' ∉ part) :
    rfind (front ++ '/' :: part) '/' = some front.length := by
  have hrest : (part.zipIdx (front.length + 1)).filter (fun x => x.1 = '/') = [] := by
    rw [filter_eq_nil_iff]
    intro x hx
    have hmem := fst_mem_of_mem_zipIdx hx
    simpa using fun heq : x.1 = '/' => h (heq ▸ hmem)
  simp [rfind, zipIdx_append, hrest]

include h in
theorem canonical_render :
    Canonical (render parts) := by
  have hcanonical := canonical_normalize (render parts)
  rwa [normalize_eq_render, components_render h] at hcanonical

/-- The last component is what `parent` cuts off and `basename` returns. -/
theorem cut_last (h : components path = parts ++ [part]) :
    parent path = some (render parts) ∧ basename path = part := by
  have hall : ∀ part' ∈ parts ++ [part], '/' ∉ part' ∧ Plain part' :=
    fun _ hmem => mem_components (h ▸ hmem)
  obtain ⟨hslash, hplain⟩ := hall part (by simp)
  have hnormal : normalize path = parts.flatMap ('/' :: ·) ++ '/' :: part := by
    simp [normalize_eq_render, h, render]
  have hroot : normalize path ≠ ['/'] := by
    rw [hnormal]
    have := length_pos_of_ne_nil hplain.ne_nil
    intro heq
    have := congrArg length heq
    simp only [length_append, length_cons, length_nil] at this
    omega
  constructor
  · rw [parent, if_neg hroot, hnormal, rfind_append _ hslash]
    cases parts with
    | nil => rfl
    | cons first parts =>
      rw [Option.map_some, if_neg (by simp), take_left', render, if_neg (by simp)]
      rfl
  · have hsplit := splitOn_flatMap fun part' hpart' => (hall part' hpart').1
    rw [basename, if_neg hroot, normalize_eq_render, h, render, if_neg (by simp), hsplit,
      ← cons_append, getLast?_concat]
    rfl

theorem components_join (base : Path) (hslash : '/' ∉ part) (hplain : Plain part) :
    components (join base part) = components base ++ [part] := by
  have hcomponents : components (base ++ '/' :: part) = components base ++ [part] := by
    rw [components_append, splitOn_eq_singleton hslash]
    exact push_plain hplain
  rw [join_eq, normalize_eq_render, components_render fun _ => mem_components, hcomponents]

/-- **Splitting and joining are inverse.** -/
theorem split_join :
    (∀ path, normalize (normalize path) = normalize path) ∧
      (∀ path, normalize path ≠ ['/'] → ∃ base, parent path = some base ∧ Canonical base ∧
        ('/' ∉ basename path ∧ Plain (basename path)) ∧
        join base (basename path) = normalize path) ∧
      ∀ base part, '/' ∉ part → Plain part →
        parent (join base part) = some (normalize base) ∧ basename (join base part) = part := by
  refine ⟨fun path => (canonical_normalize path).normalize_eq, ?_, ?_⟩
  · intro path hroot
    obtain hnil | ⟨parts, part, hcut⟩ := eq_nil_or_concat' (components path)
    · exact absurd (by rw [normalize_eq_render, hnil]; rfl) hroot
    · have hall : ∀ part' ∈ parts ++ [part], '/' ∉ part' ∧ Plain part' :=
        fun _ hmem => mem_components (hcut ▸ hmem)
      obtain ⟨hslash, hplain⟩ := hall part (by simp)
      have hparts : ∀ part' ∈ parts, '/' ∉ part' ∧ Plain part' :=
        fun part' hmem => hall part' (mem_append_left _ hmem)
      obtain ⟨hparent, hbase⟩ := cut_last hcut
      rw [hbase]
      refine ⟨_, hparent, canonical_render hparts, ⟨hslash, hplain⟩, ?_⟩
      have hjoin := (canonical_normalize (render parts ++ '/' :: part)).normalize_eq
      rw [← join_eq, normalize_eq_render, components_join _ hslash hplain,
        components_render hparts, ← hcut] at hjoin
      exact hjoin.symm
  · intro base part hslash hplain
    exact cut_last (components_join base hslash hplain)

/-- The parts of `a//b/c`. -/
theorem split_join_file :
    parent (join "a//b".toList "c".toList) = some (normalize "a//b".toList) ∧
      basename (join "a//b".toList "c".toList) = "c".toList :=
  split_join.2.2 _ _ (by decide) ⟨by decide, by decide, by decide⟩

end BeastOs.Fs.PathNormalizer
