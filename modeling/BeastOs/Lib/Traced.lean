import BeastOs.Lib.Runs

/-!
# Programs that record their steps

A program over a transition relation `R` starts in a state, takes steps of `R` one after the other,
and returns a value or fails. Its outcome keeps the steps it has taken, together with the fact that
they are a run: there is no other way to build one.

Two properties of transitions may only agree on the steps of a program as a whole, and only while
some invariant holds. `Agree` is the judgement for that, with one rule for each way to compose
programs. It speaks of programs that return: whatever a failed program has done, it has not
returned.
-/

namespace BeastOs.Lib

open List

variable {σ ℓ ε δ α β : Type} {R : σ → ℓ → σ → Prop}

/-- Where a program has come to from the state `s`. -/
structure Traced.Outcome (R : σ → ℓ → σ → Prop) (ε α : Type) (s : σ) where
  result : Except ε α
  trace : List (Transition σ ℓ)
  state : σ
  run : Run R s trace state

def Traced (R : σ → ℓ → σ → Prop) (ε α : Type) := (s : σ) → Traced.Outcome R ε α s

namespace Traced

/-! ## Composing programs -/

def ret (a : α) : Traced R ε α := fun s => ⟨.ok a, [], s, .nil⟩

def bind (x : Traced R ε α) (f : α → Traced R ε β) : Traced R ε β := fun s =>
  match x s with
  | ⟨.ok a, τ, m, h⟩ =>
    match f a m with
    | ⟨result, τ', s', h'⟩ => ⟨result, τ ++ τ', s', h.append h'⟩
  | ⟨.error e, τ, m, h⟩ => ⟨.error e, τ, m, h⟩

instance : Monad (Traced R ε) where
  pure := ret
  bind := bind

def fail (e : ε) : Traced R ε α := fun s => ⟨.error e, [], s, .nil⟩

/-- An early return with an error. -/
def failIf (c : Prop) [Decidable c] (e : ε) : Traced R ε Unit :=
  if c then fail e else pure ()

/-- Something of the state. -/
def reads (f : σ → α) : Traced R ε α := fun s => ⟨.ok (f s), [], s, .nil⟩

/-- One step, which may fail as well. -/
def step (l : ℓ) (next : σ → Except ε α × σ) (h : ∀ s, R s l (next s).2) : Traced R ε α := fun s =>
  ⟨(next s).1, [⟨s, l, (next s).2⟩], (next s).2, .single (h s)⟩

def mapError (f : ε → δ) (x : Traced R ε α) : Traced R δ α := fun s =>
  ⟨(x s).result.mapError f, (x s).trace, (x s).state, (x s).run⟩

variable {x : Traced R ε α} {f : α → Traced R ε β} {s : σ} {a : α} {b : β}
  {g : β → Traced R ε PUnit} {Q : ℓ → Prop} {next : σ → Except ε α × σ}

/-- What a program returns that consists of two parts. -/
theorem bind_eq_ok (h : ((x >>= f) s).result = .ok b) :
    ∃ a, (x s).result = .ok a ∧ (f a (x s).state).result = .ok b ∧
      ((x >>= f) s).trace = (x s).trace ++ (f a (x s).state).trace ∧
      ((x >>= f) s).state = (f a (x s).state).state := by
  have hbind : (x >>= f) s = bind x f s := rfl
  unfold bind at hbind
  rw [hbind] at h ⊢
  generalize x s = o at h ⊢
  obtain ⟨result, τ, m, hrun⟩ := o
  cases result with
  | error e => cases h
  | ok a => exact ⟨a, rfl, h, rfl, rfl⟩

theorem mapError_eq_ok {g : ε → δ} (h : (mapError g x s).result = .ok a) :
    (x s).result = .ok a := by
  have hresult : (x s).result.mapError g = .ok a := h
  cases hx : (x s).result with
  | error e =>
    rw [hx] at hresult
    cases hresult
  | ok b =>
    rw [hx] at hresult
    cases hresult
    rfl

/-- A loop that returns has been through all of its list. -/
theorem forM_eq_ok {l : List β} {u : PUnit}
    (h : (l.forM g s).result = .ok u) (hb : b ∈ l) :
    ∃ m v, (g b m).result = .ok v ∧ (g b m).trace ⊆ (l.forM g s).trace := by
  induction l generalizing s with
  | nil => cases hb
  | cons c l ih =>
    obtain ⟨v, hc, hl, htrace, -⟩ := bind_eq_ok (x := g c) (f := fun _ => l.forM g) h
    have htrace' : ((c :: l).forM g s).trace =
        (g c s).trace ++ (l.forM g (g c s).state).trace := htrace
    rw [htrace']
    rcases mem_cons.mp hb with rfl | hb
    · exact ⟨s, v, hc, subset_append_left _ _⟩
    · obtain ⟨m, w, hw, hsub⟩ := ih hl hb
      exact ⟨m, w, hw, fun t ht => mem_append_right _ (hsub ht)⟩

/-! ## Properties that agree on what a program does -/

/-- Started with the invariant `I`, a program that returns has taken steps which all have the
property `P` if and only if all have the property `C`, and then `J` holds of what it returns. -/
def Agree (P C : Transition σ ℓ → Prop) (I : σ → Prop) (x : Traced R ε α) (J : α → σ → Prop) :
    Prop :=
  ∀ s, I s → ∀ a, (x s).result = .ok a →
    ((∀ t ∈ (x s).trace, P t) ↔ ∀ t ∈ (x s).trace, C t) ∧
      ((∀ t ∈ (x s).trace, C t) → J a (x s).state)

namespace Agree

variable {P C : Transition σ ℓ → Prop} {I I' : σ → Prop} {J J' : α → σ → Prop}
  {K : β → σ → Prop}

theorem imp (h : Agree P C I x J) (hI : ∀ s, I' s → I s) (hJ : ∀ a s, J a s → J' a s) :
    Agree P C I' x J' := by
  intro s hs a ha
  obtain ⟨hiff, hpost⟩ := h s (hI s hs) a ha
  exact ⟨hiff, fun hC => hJ a _ (hpost hC)⟩

/-- A program that takes no step. -/
theorem of_silent (htrace : ∀ s, (x s).trace = [])
    (hJ : ∀ s a, I s → (x s).result = .ok a → J a (x s).state) : Agree P C I x J := by
  intro s hs a ha
  rw [htrace s]
  exact ⟨by simp, fun _ => hJ s a hs ha⟩

theorem ret (a : α) : Agree P C I (pure a : Traced R ε α) fun _ => I :=
  of_silent (fun _ => rfl) fun _ _ hs _ => hs

theorem fail (e : ε) : Agree P C I (Traced.fail e : Traced R ε α) J := by
  intro s _ a ha
  cases ha

theorem reads (g : σ → α) : Agree P C I (Traced.reads g : Traced R ε α) fun _ => I :=
  of_silent (fun _ => rfl) fun _ _ hs _ => hs

theorem ite {c : Prop} [Decidable c] {y : Traced R ε α} (hx : Agree P C I x J)
    (hy : Agree P C I y J) : Agree P C I (if c then x else y) J := by
  by_cases hc : c
  · rw [if_pos hc]
    exact hx
  · rw [if_neg hc]
    exact hy

theorem failIf (c : Prop) [Decidable c] (e : ε) :
    Agree P C I (Traced.failIf c e : Traced R ε Unit) fun _ => I :=
  .ite (.fail e) (.ret ())

theorem mapError {g : ε → δ} (h : Agree P C I x J) : Agree P C I (Traced.mapError g x) J :=
  fun s hs a ha => h s hs a (mapError_eq_ok ha)

theorem bind (hx : Agree P C I x J) (hf : ∀ a, Agree P C (J a) (f a) K) :
    Agree P C I (x >>= f) K := by
  intro s hs b hb
  obtain ⟨a, ha, hfa, htrace, hstate⟩ := bind_eq_ok hb
  obtain ⟨hiff, hpost⟩ := hx s hs a ha
  simp only [htrace, hstate, forall_mem_append]
  refine ⟨⟨?_, ?_⟩, fun hC => (hf a _ (hpost hC.1) b hfa).2 hC.2⟩
  · rintro ⟨hP, hP'⟩
    -- the first part keeps the invariant, which makes the second part comparable
    have hC := hiff.mp hP
    exact ⟨hC, (hf a _ (hpost hC) b hfa).1.mp hP'⟩
  · rintro ⟨hC, hC'⟩
    exact ⟨hiff.mpr hC, (hf a _ (hpost hC) b hfa).1.mpr hC'⟩

theorem forM {l : List β}
    (h : ∀ b ∈ l, Agree P C I (g b) fun _ => I) : Agree P C I (l.forM g) fun _ => I := by
  induction l with
  | nil => exact .ret PUnit.unit
  | cons b l ih =>
    refine .bind (h b (mem_cons_self ..)) fun _ => ih fun c hc => ?_
    exact h c (mem_cons_of_mem b hc)

/-- What every step with the property `P` keeps is kept. -/
theorem keeping {H : σ → Prop} (h : Agree P C I x J) (hH : ∀ t, P t → H t.src → H t.dst) :
    Agree P C (fun s => I s ∧ H s) x fun a s => J a s ∧ H s := by
  intro s hs a ha
  obtain ⟨hiff, hpost⟩ := h s hs.1 a ha
  refine ⟨hiff, fun hC => ⟨hpost hC, ?_⟩⟩
  exact (x s).run.invariant hs.2 (fun _ _ _ hm _ hP => hH _ hP hm) (hiff.mpr hC)

/-- One step. -/
theorem step {l : ℓ} {next : σ → Except ε α × σ} {hR : ∀ s, R s l (next s).2}
    (hiff : ∀ s, I s → (P ⟨s, l, (next s).2⟩ ↔ C ⟨s, l, (next s).2⟩))
    (hpost : ∀ s a, I s → (next s).1 = .ok a → C ⟨s, l, (next s).2⟩ → J a (next s).2) :
    Agree P C I (Traced.step l next hR) J := by
  intro s hs a ha
  show ((∀ t ∈ [_], P t) ↔ ∀ t ∈ [_], C t) ∧ ((∀ t ∈ [_], C t) → J a (next s).2)
  simp only [forall_mem_singleton]
  exact ⟨hiff s hs, hpost s a hs ha⟩

end Agree

/-- Every step of the program is under a label with the property. -/
def Logs (Q : ℓ → Prop) (x : Traced R ε α) : Prop :=
  Agree (fun t => Q t.label) (fun _ => True) (fun _ => True) x fun _ _ => True

theorem Logs.forall (h : Logs Q x) (ha : (x s).result = .ok a) : ∀ t ∈ (x s).trace, Q t.label :=
  (h s trivial a ha).1.mpr fun _ _ => trivial

theorem Logs.step {l : ℓ} {hR : ∀ s, R s l (next s).2} (hl : Q l) :
    Logs Q (Traced.step l next hR) :=
  Agree.step (fun _ _ => ⟨fun _ => trivial, fun _ => hl⟩) fun _ _ _ _ _ => trivial

theorem Logs.bind (hx : Logs Q x) (hf : ∀ a, Logs Q (f a)) : Logs Q (x >>= f) :=
  Agree.bind hx hf

/-- Started with `I`, a program that returns ends with `J`. -/
def Leads (I : σ → Prop) (x : Traced R ε α) (J : α → σ → Prop) : Prop :=
  Agree (fun _ => True) (fun _ => True) I x J

namespace Leads

variable {I : σ → Prop} {J : α → σ → Prop} {γ : Type}

theorem post (h : Leads I x J) (hs : I s) (ha : (x s).result = .ok a) : J a (x s).state :=
  (h s hs a ha).2 fun _ _ => trivial

theorem step {l : ℓ} {hR : ∀ s, R s l (next s).2}
    (h : ∀ s a, I s → (next s).1 = .ok a → J a (next s).2) : Leads I (Traced.step l next hR) J :=
  Agree.step (fun _ _ => Iff.rfl) fun s a hs ha _ => h s a hs ha

theorem imp {I' : σ → Prop} {J' : α → σ → Prop} (h : Leads I x J) (hI : ∀ s, I' s → I s)
    (hJ : ∀ a s, J a s → J' a s) : Leads I' x J' :=
  Agree.imp h hI hJ

theorem bind {K : β → σ → Prop} (hx : Leads I x J) (hf : ∀ a, Leads (J a) (f a) K) :
    Leads I (x >>= f) K :=
  Agree.bind hx hf

/-- What is read of the state may be used. -/
theorem reads_bind {g : σ → γ} {f : γ → Traced R ε α} (h : ∀ s, Leads I (f (g s)) J) :
    Leads I (Traced.reads g >>= f) J := by
  intro s hs b hb
  obtain ⟨a, ha, hfa, htrace, hstate⟩ := bind_eq_ok hb
  cases ha
  exact h s s hs b hfa

/-- What is known before may be given by examples. -/
theorem of_forall {κ : Type} {I : κ → σ → Prop} (h : ∀ k, Leads (I k) x J) :
    Leads (fun s => ∃ k, I k s) x J := by
  rintro s ⟨k, hs⟩ a ha
  exact h k s hs a ha

/-- A loop whose invariant says how far it has come. -/
theorem forM_range {g : Nat → Traced R ε PUnit} {I : Nat → σ → Prop} {n : Nat}
    (h : ∀ k < n, Leads (I k) (g k) fun _ => I (k + 1)) :
    Leads (I 0) ((List.range n).forM g) fun _ => I n := by
  have hfrom : ∀ m k, m + k = n → Leads (I m) ((range' m k).forM g) fun _ => I n := by
    intro m k
    induction k generalizing m with
    | zero =>
      rintro rfl
      exact .ret PUnit.unit
    | succ k ih =>
      intro hn
      exact .bind (h m (by omega)) fun _ => ih (m + 1) (by omega)
  rw [range_eq_range']
  exact hfrom 0 n (Nat.zero_add n)

end Leads

/-- A program that only looks. -/
def Silent (x : Traced R ε α) : Prop := ∀ s, (x s).trace = [] ∧ (x s).state = s

theorem Silent.agree {P C : Transition σ ℓ → Prop} {I : σ → Prop} (h : Silent x) :
    Agree P C I x fun _ => I := by
  refine .of_silent (fun s => (h s).1) fun s a hs _ => ?_
  rw [(h s).2]
  exact hs

end Traced

end BeastOs.Lib
