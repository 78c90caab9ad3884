import BeastOs.Lib.Forest

/-!
# Walks, entry by entry

A walk along a path of indices reads one entry after the other, and ends early where an entry refers
to no table. The entries it reads are its `trail`. A walk depends on its trail only (`trail_congr`),
and in a forest the tables on a trail are owned by the beginnings of the path
(`Forest.of_mem_trail`).
-/

namespace BeastOs.Lib

open List

variable {α ι : Type} {child child' : α → ι → Option α} {inner : List ι → ι → Prop} {roots : Set α}
  {own : α → Option (α × List ι)} {t u r : α} {p p' q : List ι} {i : ι} {x : α × ι}

/-- The entries that a walk reads. -/
def trail (child : α → ι → Option α) : α → List ι → List (α × ι)
  | _, [] => []
  | t, i :: p => (t, i) :: (child t i).elim [] fun u => trail child u p

/-- All entries on the path `p` but the last one are inner; `q` has led to its start. -/
def InnerTo (inner : List ι → ι → Prop) (q p : List ι) : Prop :=
  ∀ p₁ i p₂, p = p₁ ++ i :: p₂ → p₂ ≠ [] → inner (q ++ p₁) i

theorem trail_cons_some (h : child t i = some u) (p : List ι) :
    trail child t (i :: p) = (t, i) :: trail child u p := by
  rw [trail, h]
  rfl

theorem trail_cons_none (h : child t i = none) (p : List ι) :
    trail child t (i :: p) = [(t, i)] := by
  rw [trail, h]
  rfl

section

variable (h : ∀ x ∈ trail child t p, child' x.1 x.2 = child x.1 x.2)
include h

theorem trail_congr : trail child' t p = trail child t p := by
  induction p generalizing t with
  | nil => rfl
  | cons i p ih =>
    have hhead : child' t i = child t i := h (t, i) mem_cons_self
    cases hi : child t i with
    | none => rw [trail_cons_none hi, trail_cons_none (hhead.trans hi)]
    | some u =>
      rw [trail_cons_some hi] at h ⊢
      rw [trail_cons_some (hhead.trans hi), ih fun x hx => h x (mem_cons_of_mem _ hx)]

theorem walk_congr_trail : walk child' t p = walk child t p := by
  induction p generalizing t with
  | nil => rfl
  | cons i p ih =>
    have hhead : child' t i = child t i := h (t, i) mem_cons_self
    rw [walk, walk, hhead]
    cases hi : child t i with
    | none => rfl
    | some u =>
      rw [trail_cons_some hi] at h
      exact ih fun x hx => h x (mem_cons_of_mem _ hx)

end

/-- A walk that starts with a path to a table goes on there. -/
theorem trail_append (h : walk child t q = some u) (p : List ι) :
    trail child t (q ++ p) = trail child t q ++ trail child u p := by
  induction q generalizing t with
  | nil =>
    cases h
    rfl
  | cons i q ih =>
    obtain ⟨s, hs, hwalk⟩ := Option.bind_eq_some_iff.mp h
    simp only [cons_append, trail_cons_some hs, ih hwalk]

/-- A walk that has ended does not go on. -/
theorem trail_append_none (h : walk child t q = none) (p : List ι) :
    trail child t (q ++ p) = trail child t q := by
  induction q generalizing t with
  | nil => cases h
  | cons i q ih =>
    rw [cons_append]
    cases hi : child t i with
    | none => simp only [trail_cons_none hi]
    | some u =>
      rw [walk, hi] at h
      simp only [trail_cons_some hi, ih h]

/-- A longer walk reads what a shorter one has read. -/
theorem mem_trail_append (h : x ∈ trail child t p) (p' : List ι) : x ∈ trail child t (p ++ p') := by
  cases hwalk : walk child t p with
  | none => rwa [trail_append_none hwalk]
  | some u =>
    rw [trail_append hwalk]
    exact mem_append_left _ h

/-- A walk that ends early has come to an entry that refers to no table. -/
theorem exists_of_walk_eq_none (h : walk child t p = none) :
    ∃ p₁ i p₂ u, p = p₁ ++ i :: p₂ ∧ walk child t p₁ = some u ∧ child u i = none := by
  induction p generalizing t with
  | nil => cases h
  | cons j p ih =>
    cases hj : child t j with
    | none => exact ⟨[], j, p, t, rfl, rfl, hj⟩
    | some s =>
      rw [walk, hj] at h
      obtain ⟨p₁, i, p₂, u, rfl, hwalk, hi⟩ := ih h
      exact ⟨j :: p₁, i, p₂, u, rfl, by rw [walk, hj]; exact hwalk, hi⟩

theorem length_trail_of_walk (h : walk child t q = some u) :
    (trail child t q).length = q.length := by
  induction q generalizing t with
  | nil => rfl
  | cons i q ih =>
    obtain ⟨s, hs, hwalk⟩ := Option.bind_eq_some_iff.mp h
    rw [trail_cons_some hs, length_cons, length_cons, ih hwalk]

theorem InnerPath.of_append (h : InnerPath inner p) {p₁ p₂ : List ι} (hp : p = p₁ ++ i :: p₂) :
    inner p₁ i := by
  induction h generalizing p₂ with
  | nil => exact absurd hp (by simp)
  | @snoc q j _ hj ih =>
    rcases eq_nil_or_concat p₂ with rfl | ⟨p₃, k, rfl⟩
    · obtain ⟨rfl, hij⟩ := append_inj' hp rfl
      cases hij
      exact hj
    · rw [concat_eq_append, ← cons_append, ← append_assoc] at hp
      exact ih (append_inj' hp rfl).1

theorem InnerPath.of_snoc (h : InnerPath inner (p ++ [i])) : InnerPath inner p ∧ inner p i := by
  refine ⟨?_, h.of_append rfl⟩
  generalize hq : p ++ [i] = q at h
  cases h with
  | nil => exact absurd hq (by simp)
  | snoc hp _ =>
    obtain ⟨rfl, -⟩ := append_inj' hq rfl
    exact hp

theorem InnerPath.of_eq_append (h : InnerPath inner q) (hq : q = p ++ p') : InnerPath inner p := by
  induction h generalizing p' with
  | nil =>
    rw [(append_eq_nil_iff.mp hq.symm).1]
    exact .nil
  | snoc hp hi ih =>
    rcases eq_nil_or_concat p' with rfl | ⟨p'', k, rfl⟩
    · rw [← append_nil p, ← hq]
      exact hp.snoc hi
    · rw [concat_eq_append, ← append_assoc] at hq
      exact ih (append_inj' hq rfl).1

theorem InnerPath.innerTo (h : InnerPath inner p) : InnerTo inner [] p :=
  fun _ _ _ hp _ => h.of_append hp

/-- The last entry of a path need not be inner. -/
theorem InnerPath.innerTo_snoc (h : InnerPath inner p) (i : ι) : InnerTo inner [] (p ++ [i]) := by
  intro p₁ j p₂ hp hne
  obtain ⟨p₃, k, rfl⟩ := (eq_nil_or_concat p₂).resolve_left hne
  rw [concat_eq_append, ← cons_append, ← append_assoc] at hp
  exact h.of_append (append_inj' hp rfl).1

theorem InnerTo.of_append (h : InnerTo inner q (p ++ i :: p')) :
    InnerTo inner (q ++ p ++ [i]) p' := by
  intro p₁ j p₂ hp hne
  have hinner := h (p ++ i :: p₁) j p₂ (by rw [hp, append_assoc, cons_append]) hne
  simpa using hinner

namespace Forest

/-- The tables on a trail, with the paths that lead to them. -/
theorem of_mem_trail (h : Forest inner child roots own) (ht : own t = some (r, q))
    (hp : InnerTo inner q p) (hx : x ∈ trail child t p) :
    ∃ p₁ p₂, p = p₁ ++ x.2 :: p₂ ∧ own x.1 = some (r, q ++ p₁) := by
  induction p generalizing t q with
  | nil => cases hx
  | cons i p ih =>
    have hhead : x = (t, i) →
        ∃ p₁ p₂, i :: p = p₁ ++ x.2 :: p₂ ∧ own x.1 = some (r, q ++ p₁) := by
      rintro rfl
      exact ⟨[], p, rfl, by rw [append_nil]; exact ht⟩
    cases hi : child t i with
    | none =>
      rw [trail_cons_none hi] at hx
      exact hhead (mem_singleton.mp hx)
    | some u =>
      rw [trail_cons_some hi] at hx
      rcases mem_cons.mp hx with hx | hx
      · exact hhead hx
      · cases p with
        | nil => cases hx
        | cons j p =>
          have hinner : inner q i := by
            have hfirst := hp [] i (j :: p) rfl (cons_ne_nil _ _)
            rwa [append_nil] at hfirst
          have hrest : InnerTo inner (q ++ [i]) (j :: p) := by
            intro p₁ k p₂ heq hne
            rw [append_assoc]
            exact hp (i :: p₁) k p₂ (by rw [heq, cons_append]) hne
          obtain ⟨p₁, p₂, hpath, hown⟩ := ih (h.owned t r q i u ht hinner hi) hrest hx
          refine ⟨i :: p₁, p₂, by rw [hpath, cons_append], ?_⟩
          rw [hown, append_assoc, singleton_append]

end Forest

end BeastOs.Lib
