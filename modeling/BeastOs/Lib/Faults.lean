import BeastOs.Lib.Traced

/-!
# Programs with checks

Some operations of a program are only meaningful under a condition: a read has to be in range, a sum
has to fit into its type. `checked` is such an operation, and fails with a fault of its own if the
condition does not hold.

`Checks x y` says that `x` is `y` with checks: either a check fails, and until then `x` has done
what `y` does, or both do the same. `Ends` is a judgement about how a program ends, in whatever
state it is started; it says when a check fails and when none does.
-/

namespace BeastOs.Lib

variable {σ ℓ ε α β γ : Type} {R : σ → ℓ → σ → Prop}

/-- The errors of a program with checks. -/
inductive WithFault (ε : Type)
  | fault
  | error (e : ε)
  deriving DecidableEq, Repr

namespace Traced

/-- A value that is only there under a condition. -/
def checked (c : Prop) [Decidable c] (a : α) : Traced R (WithFault ε) α :=
  if c then pure a else fail .fault

/-- A program that needs no checks. -/
def lift (y : Traced R ε α) : Traced R (WithFault ε) α := mapError .error y

section Bind

variable {x : Traced R ε α} {f : α → Traced R ε β} {s : σ}

theorem bind_of_ok {a : α} (h : (x s).result = .ok a) :
    ((x >>= f) s).result = (f a (x s).state).result ∧
      ((x >>= f) s).trace = (x s).trace ++ (f a (x s).state).trace ∧
      ((x >>= f) s).state = (f a (x s).state).state := by
  have hbind : (x >>= f) s = bind x f s := rfl
  unfold bind at hbind
  rw [hbind]
  generalize x s = o at h ⊢
  obtain ⟨result, τ, m, hrun⟩ := o
  cases h
  exact ⟨rfl, rfl, rfl⟩

theorem bind_of_error {e : ε} (h : (x s).result = .error e) :
    ((x >>= f) s).result = .error e ∧ ((x >>= f) s).trace = (x s).trace ∧
      ((x >>= f) s).state = (x s).state := by
  have hbind : (x >>= f) s = bind x f s := rfl
  unfold bind at hbind
  rw [hbind]
  generalize x s = o at h ⊢
  obtain ⟨result, τ, m, hrun⟩ := o
  cases h
  exact ⟨rfl, rfl, rfl⟩

theorem trace_prefix_bind : (x s).trace <+: ((x >>= f) s).trace := by
  cases h : (x s).result with
  | ok a =>
    rw [(bind_of_ok h).2.1]
    exact List.prefix_append _ _
  | error e =>
    exact ⟨[], by rw [List.append_nil, (bind_of_error h).2.1]⟩

end Bind

/-! ## Adding checks to a program -/

/-- Started in `s`, no check of `x` fails: it does what `y` does. -/
def Passes (s : σ) (x : Traced R (WithFault ε) α) (y : Traced R ε α) : Prop :=
  (x s).result = (y s).result.mapError .error ∧ (x s).trace = (y s).trace ∧
    (x s).state = (y s).state

/-- Started in `s`, `x` does what `y` does, up to a check that fails. -/
def ChecksAt (s : σ) (x : Traced R (WithFault ε) α) (y : Traced R ε α) : Prop :=
  ((x s).result = .error .fault ∧ (x s).trace <+: (y s).trace) ∨ Passes s x y

/-- `x` is `y` with checks. -/
def Checks (x : Traced R (WithFault ε) α) (y : Traced R ε α) : Prop := ∀ s, ChecksAt s x y

variable {y : Traced R ε α} {f : γ → Traced R (WithFault ε) α} {c : Prop}

theorem Passes.result_ne {s : σ} {x : Traced R (WithFault ε) α}
    (h : Passes s x y) : (x s).result ≠ .error .fault := by
  rw [h.1]
  cases (y s).result with
  | ok a => exact nofun
  | error e => exact nofun

namespace Checks

variable {x : Traced R (WithFault ε) α} {y : Traced R ε α}

theorem passes_iff (h : Checks x y) (s : σ) : Passes s x y ↔ (x s).result ≠ .error .fault :=
  ⟨Passes.result_ne, fun hne => (h s).resolve_left fun hfault => hne hfault.1⟩

theorem lift (y : Traced R ε α) : Checks (Traced.lift y) y := fun _ => .inr ⟨rfl, rfl, rfl⟩

theorem ret (a : α) : Checks (pure a : Traced R (WithFault ε) α) (pure a) :=
  fun _ => .inr ⟨rfl, rfl, rfl⟩

theorem fail (e : ε) : Checks (Traced.fail (.error e) : Traced R (WithFault ε) α) (Traced.fail e) :=
  fun _ => .inr ⟨rfl, rfl, rfl⟩

theorem ite {c : Prop} [Decidable c] {x' : Traced R (WithFault ε) α} {y' : Traced R ε α}
    (h : Checks x y) (h' : Checks x' y') : Checks (if c then x else x') (if c then y else y') := by
  by_cases hc : c
  · rw [if_pos hc, if_pos hc]
    exact h
  · rw [if_neg hc, if_neg hc]
    exact h'

theorem failIf (c : Prop) [Decidable c] (e : ε) :
    Checks (Traced.failIf c (.error e) : Traced R (WithFault ε) Unit) (Traced.failIf c e) :=
  .ite (.fail e) (.ret ())

theorem bind {f : α → Traced R (WithFault ε) β} {g : α → Traced R ε β} (h : Checks x y)
    (hf : ∀ a, Checks (f a) (g a)) : Checks (x >>= f) (y >>= g) := by
  intro s
  rcases h s with ⟨hfault, htrace⟩ | ⟨hresult, htrace, hstate⟩
  · obtain ⟨hresult, htrace', -⟩ := bind_of_error (f := f) hfault
    rw [ChecksAt, hresult, htrace']
    exact .inl ⟨rfl, htrace.trans trace_prefix_bind⟩
  · cases hy : (y s).result with
    | error e =>
      rw [hy] at hresult
      obtain ⟨hx₁, hx₂, hx₃⟩ := bind_of_error (f := f) hresult
      obtain ⟨hy₁, hy₂, hy₃⟩ := bind_of_error (f := g) hy
      rw [ChecksAt, Passes, hx₁, hx₂, hx₃, hy₁, hy₂, hy₃]
      exact .inr ⟨rfl, htrace, hstate⟩
    | ok a =>
      rw [hy] at hresult
      obtain ⟨hx₁, hx₂, hx₃⟩ := bind_of_ok (f := f) hresult
      obtain ⟨hy₁, hy₂, hy₃⟩ := bind_of_ok (f := g) hy
      rw [ChecksAt, Passes, hx₁, hx₂, hx₃, hy₁, hy₂, hy₃, htrace, hstate]
      rcases hf a (y s).state with ⟨hfault, hprefix⟩ | ⟨hrest, htrace', hstate'⟩
      · exact .inl ⟨hfault, (List.prefix_append_right_inj _).mpr hprefix⟩
      · exact .inr ⟨hrest, congrArg _ htrace', hstate'⟩

theorem forM {l : List β} {f : β → Traced R (WithFault ε) PUnit} {g : β → Traced R ε PUnit}
    (h : ∀ b ∈ l, Checks (f b) (g b)) : Checks (l.forM f) (l.forM g) := by
  induction l with
  | nil => exact .ret PUnit.unit
  | cons b l ih =>
    rw [List.forall_mem_cons] at h
    exact .bind h.1 fun _ => ih h.2

/-- A look at the state, which the program with checks can do without. -/
theorem of_reads {g : σ → γ} {f : γ → Traced R ε α} (h : ∀ s, Checks x (f (g s))) :
    Checks x (reads g >>= f) := by
  intro s
  exact h s s

/-- Both programs read the same of the state, and go on with it. -/
theorem reads_bind {g : σ → γ} {f : γ → Traced R (WithFault ε) α} {f' : γ → Traced R ε α}
    (h : ∀ s, Checks (f (g s)) (f' (g s))) : Checks (reads g >>= f) (reads g >>= f') := by
  intro s
  exact h s s

end Checks

/-- If no check fails the program returns `a`, and it takes no step. -/
def Gives (x : Traced R (WithFault ε) α) (a : α) : Prop :=
  ∀ s, (x s).trace = [] ∧ (x s).state = s ∧
    ((x s).result = .ok a ∨ (x s).result = .error .fault)

namespace Gives

variable {x : Traced R (WithFault ε) α} {a : α} {f : α → Traced R (WithFault ε) β}

theorem ret (a : α) : Gives (pure a : Traced R (WithFault ε) α) a :=
  fun _ => ⟨rfl, rfl, .inl rfl⟩

theorem checked {c : Prop} [Decidable c] {b : α} (h : c → b = a) :
    Gives (Traced.checked c b : Traced R (WithFault ε) α) a := by
  unfold Traced.checked
  split
  next hc => exact h hc ▸ ret b
  · exact fun _ => ⟨rfl, rfl, .inr rfl⟩

theorem ite {c : Prop} [Decidable c] {y : Traced R (WithFault ε) α} {b : α} (hx : Gives x a)
    (hy : Gives y b) : Gives (if c then x else y) (if c then a else b) := by
  by_cases hc : c
  · rw [if_pos hc, if_pos hc]
    exact hx
  · rw [if_neg hc, if_neg hc]
    exact hy

theorem bind {b : β} (hx : Gives x a) (hf : Gives (f a) b) : Gives (x >>= f) b := by
  intro s
  obtain ⟨htrace, hstate, hok | hfault⟩ := hx s
  · obtain ⟨h₁, h₂, h₃⟩ := bind_of_ok (f := f) hok
    rw [h₁, h₂, h₃, htrace, hstate]
    exact hf s
  · obtain ⟨h₁, h₂, h₃⟩ := bind_of_error (f := f) hfault
    rw [h₁, h₂, h₃]
    exact ⟨htrace, hstate, .inr rfl⟩

/-- Only what comes after it is compared. -/
theorem checks_bind {y : Traced R ε β} (hx : Gives x a)
    (hf : Checks (f a) y) : Checks (x >>= f) y := by
  intro s
  obtain ⟨htrace, hstate, hok | hfault⟩ := hx s
  · obtain ⟨h₁, h₂, h₃⟩ := bind_of_ok (f := f) hok
    rw [ChecksAt, Passes, h₁, h₂, h₃, htrace, hstate, List.nil_append]
    exact hf s
  · obtain ⟨h₁, h₂, -⟩ := bind_of_error (f := f) hfault
    rw [ChecksAt, h₁, h₂, htrace]
    exact .inl ⟨rfl, List.nil_prefix⟩

end Gives

/-- Only what comes after a check is compared. -/
theorem Checks.checked_bind [Decidable c] {a : γ}
    (h : c → Checks (f a) y) : Checks (checked c a >>= f) y := by
  by_cases hc : c
  · exact (Gives.checked fun _ => rfl).checks_bind (h hc)
  · intro s
    have hfault : ((checked c a : Traced R (WithFault ε) γ) s).result = .error .fault := by
      rw [checked, if_neg hc]
      rfl
    obtain ⟨h₁, h₂, -⟩ := bind_of_error (f := f) hfault
    rw [ChecksAt, h₁, h₂, checked, if_neg hc]
    exact .inl ⟨rfl, List.nil_prefix⟩

/-! ## How a program ends -/

/-- Started in `s`, the program returns a value and ends in a state with the property `Q`, or fails
with an error with the property `E`. -/
def EndsAt (s : σ) (x : Traced R ε α) (Q : α → σ → Prop) (E : ε → Prop) : Prop :=
  (∀ a, (x s).result = .ok a → Q a (x s).state) ∧ ∀ e, (x s).result = .error e → E e

namespace EndsAt

variable {s : σ} {x : Traced R ε α} {Q : α → σ → Prop} {E : ε → Prop}

theorem ret {a : α} (ha : Q a s) : EndsAt s (pure a : Traced R ε α) Q E := by
  refine ⟨fun b hb => ?_, nofun⟩
  cases hb
  exact ha

theorem fail {e : ε} (he : E e) : EndsAt s (Traced.fail e : Traced R ε α) Q E := by
  refine ⟨nofun, fun e' he' => ?_⟩
  cases he'
  exact he

theorem ite [Decidable c] (hx : c → EndsAt s x Q E)
    (hy : ¬ c → EndsAt s y Q E) : EndsAt s (if c then x else y) Q E :=
  iteInduction (motive := (EndsAt s · Q E)) hx hy

theorem bind {f : α → Traced R ε β} {K : β → σ → Prop} (hx : EndsAt s x Q E)
    (hf : ∀ a s', Q a s' → EndsAt s' (f a) K E) : EndsAt s (x >>= f) K E := by
  cases hresult : (x s).result with
  | ok a =>
    rw [EndsAt, (bind_of_ok hresult).1, (bind_of_ok hresult).2.2]
    exact hf a _ (hx.1 a hresult)
  | error e =>
    rw [EndsAt, (bind_of_error hresult).1]
    refine ⟨nofun, fun e' he' => ?_⟩
    cases he'
    exact hx.2 e hresult

theorem reads_bind {g : σ → γ} {f : γ → Traced R ε α} (h : EndsAt s (f (g s)) Q E) :
    EndsAt s (reads g >>= f) Q E := by
  exact h

theorem checked [Decidable c] {a : α} {E : WithFault ε → Prop} (hfault : ¬ c → E .fault)
    (h : c → Q a s) : EndsAt s (Traced.checked c a : Traced R (WithFault ε) α) Q E :=
  .ite (fun hc => .ret (h hc)) fun hc => .fail (hfault hc)

end EndsAt

/-- Whatever state it is started in, a value that is returned has the property `Q`, and an error the
property `E`. -/
def Ends (x : Traced R ε α) (Q : α → Prop) (E : ε → Prop) : Prop :=
  ∀ s, EndsAt s x (fun a _ => Q a) E

namespace Ends

variable {x : Traced R ε α} {Q Q' : α → Prop} {E E' : ε → Prop}

theorem imp (h : Ends x Q E) (hQ : ∀ a, Q a → Q' a) (hE : ∀ e, E e → E' e) : Ends x Q' E' :=
  fun s => ⟨fun a ha => hQ a ((h s).1 a ha), fun e he => hE e ((h s).2 e he)⟩

theorem ret {a : α} (ha : Q a) : Ends (pure a : Traced R ε α) Q E := fun _ => .ret ha

theorem fail {e : ε} (he : E e) : Ends (Traced.fail e : Traced R ε α) Q E := fun _ => .fail he

theorem ite [Decidable c] (hx : c → Ends x Q E) (hy : ¬ c → Ends y Q E) :
    Ends (if c then x else y) Q E :=
  iteInduction (motive := (Ends · Q E)) hx hy

theorem failIf [Decidable c] {e : ε} (he : c → E e) :
    Ends (Traced.failIf c e : Traced R ε Unit) (fun _ => ¬ c) E :=
  .ite (fun hc => .fail (he hc)) fun hc => .ret hc

theorem bind {f : α → Traced R ε β} {P : β → Prop} (hx : Ends x Q E)
    (hf : ∀ a, Q a → Ends (f a) P E) : Ends (x >>= f) P E :=
  fun s => (hx s).bind fun a s' ha => hf a ha s'

theorem reads_bind {g : σ → γ} {f : γ → Traced R ε α} (h : ∀ s, Ends (f (g s)) Q E) :
    Ends (reads g >>= f) Q E := by
  intro s
  exact h s s

/-- A loop ends at the first index at which its body does, or comes to its end. -/
theorem forM_range {f : Nat → Traced R ε PUnit} {P : Nat → Prop} {E : Nat → ε → Prop} {n : Nat}
    (h : ∀ k < n, Ends (f k) (fun _ => P k) (E k)) :
    Ends ((List.range n).forM f) (fun _ => ∀ k < n, P k)
      fun e => ∃ k < n, (∀ j < k, P j) ∧ E k e := by
  have hfrom : ∀ m k, m + k = n → (∀ j < m, P j) →
      Ends ((List.range' m k).forM f) (fun _ => ∀ k < n, P k)
        fun e => ∃ k < n, (∀ j < k, P j) ∧ E k e := by
    intro m k
    induction k generalizing m with
    | zero =>
      intro hn hbefore
      exact .ret fun j hj => hbefore j (by omega)
    | succ k ih =>
      intro hn hbefore
      have hm : m < n := by omega
      refine .bind ((h m hm).imp (fun _ hP => hP) fun e he => ⟨m, hm, hbefore, he⟩) ?_
      intro _ hP
      refine ih (m + 1) (by omega) fun j hj => ?_
      rcases Nat.lt_succ_iff_lt_or_eq.mp hj with hlt | rfl
      · exact hbefore j hlt
      · exact hP
  rw [List.range_eq_range']
  exact hfrom 0 n (Nat.zero_add n) fun j hj => absurd hj (Nat.not_lt_zero j)

theorem checked [Decidable c] {E : WithFault ε → Prop} (a : α) (hfault : ¬ c → E .fault) :
    Ends (Traced.checked c a : Traced R (WithFault ε) α) (fun b => b = a ∧ c) E :=
  .ite (fun hc => .ret ⟨rfl, hc⟩) fun hc => .fail (hfault hc)

theorem checked_bind [Decidable c] {a : γ} {E : WithFault ε → Prop} (hfault : ¬ c → E .fault)
    (h : c → Ends (f a) Q E) : Ends (Traced.checked c a >>= f) Q E := by
  refine .bind (.checked a hfault) ?_
  rintro b ⟨rfl, hc⟩
  exact h hc

theorem lift {E : WithFault ε → Prop} (h : Ends x Q fun e => E (.error e)) :
    Ends (Traced.lift x) Q E := by
  intro s
  have hresult : (Traced.lift x s).result = (x s).result.mapError .error := rfl
  rw [EndsAt, hresult]
  cases hx : (x s).result with
  | ok a =>
    refine ⟨fun b hb => ?_, nofun⟩
    cases hb
    exact (h s).1 a hx
  | error e =>
    refine ⟨nofun, fun e' he' => ?_⟩
    cases he'
    exact (h s).2 e hx

theorem step {l : ℓ} {next : σ → Except ε α × σ} {hR : ∀ s, R s l (next s).2}
    (h : ∀ s e, (next s).1 = .error e → E e) : Ends (Traced.step l next hR) (fun _ => True) E :=
  fun s => ⟨fun _ _ => trivial, h s⟩

/-- A program of which it is known when a check fails, unless it ends with the error `m` before. -/
theorem ne_fault_iff {x : Traced R (WithFault ε) α} {S : Prop} {m : ε}
    (h : Ends x (fun _ => S) fun e => e = .error m ∨ (e = .fault ∧ ¬ S) ∨ (e ≠ .fault ∧ S))
    (s : σ) : (x s).result ≠ .error .fault ↔ ((x s).result ≠ .error (.error m) → S) := by
  cases hresult : (x s).result with
  | ok a => exact ⟨fun _ _ => (h s).1 a hresult, fun _ => nofun⟩
  | error e =>
    rcases (h s).2 e hresult with rfl | ⟨rfl, hS⟩ | ⟨hne, hS⟩
    · exact ⟨fun _ hne => absurd rfl hne, fun _ => nofun⟩
    · exact ⟨fun hne => absurd rfl hne, fun hsafe => absurd (hsafe nofun) hS⟩
    · exact ⟨fun _ _ => hS, fun _ heq => hne (Except.error.inj heq)⟩

end Ends

end Traced

end BeastOs.Lib
