import Mathlib

/-!
# Total correctness of a step function

`after step k s` is the state that `k` steps of a machine lead to from `s`, or the
error that one of them stops with.  `Leads step k P Q` is the triple of a program that is
given by its machine: from every state with `P`, `k` steps go through and end in a state
with `Q`.  Triples of a step compose in sequence (`Leads.trans`), under consequence
(`Leads.mono`) and around a loop with its count (`Leads.loop`), and one whose end stops
the machine says how it stops (`Leads.stops`).

A `Simulation` carries them from one machine to another: a relation, which may count the
steps, that every step of the first extends by a step of the second.  What the first one
does the second one does after as many steps (`Simulation.after`), and so does the second
what a triple of the first promises (`Simulation.leads`).
-/

namespace Hoare

variable {σ τ ε ε' : Type*} {step : σ → Except ε σ} {step' : τ → Except ε' τ}

/-! ### Counted steps -/

/-- The state after `k` steps, or the error that a step before stopped with. -/
def after (step : σ → Except ε σ) : Nat → σ → Except ε σ
  | 0, s => .ok s
  | k + 1, s => (step s).bind (after step k)

theorem after_succ_of_ok {s t : σ} (h : step s = .ok t) (k : Nat) :
    after step (k + 1) s = after step k t := by
  rw [after, h]
  rfl

theorem after_succ_ok {s u : σ} {k : Nat} (h : after step (k + 1) s = .ok u) :
    ∃ t, step s = .ok t ∧ after step k t = .ok u := by
  rw [after] at h
  cases hs : step s with
  | error e =>
    rw [hs] at h
    cases h
  | ok t =>
    rw [hs] at h
    exact ⟨t, rfl, h⟩

theorem after_add {s t : σ} {k : Nat} (h : after step k s = .ok t) (l : Nat) :
    after step (k + l) s = after step l t := by
  induction k generalizing s with
  | zero =>
    cases h
    rw [Nat.zero_add]
  | succ k ih =>
    obtain ⟨u, hu, ht⟩ := after_succ_ok h
    rw [Nat.add_right_comm, after_succ_of_ok hu, ih ht]

theorem step_of_after_ok {s u : σ} {j k : Nat} (h : after step k s = .ok u) (hj : j < k) :
    ∃ t t', after step j s = .ok t ∧ step t = .ok t' := by
  induction j generalizing s k with
  | zero =>
    obtain ⟨l, rfl⟩ : ∃ l, k = l + 1 := ⟨k - 1, by omega⟩
    obtain ⟨t, ht, -⟩ := after_succ_ok h
    exact ⟨s, t, rfl, ht⟩
  | succ j ih =>
    obtain ⟨l, rfl⟩ : ∃ l, k = l + 1 := ⟨k - 1, by omega⟩
    obtain ⟨t, ht, hu⟩ := after_succ_ok h
    obtain ⟨v, v', hv, hv'⟩ := ih hu (Nat.lt_of_succ_lt_succ hj)
    exact ⟨v, v', by rw [after_succ_of_ok ht, hv], hv'⟩

theorem after_concat_ok {s u : σ} {k : Nat} (h : after step (k + 1) s = .ok u) :
    ∃ t, after step k s = .ok t ∧ step t = .ok u := by
  obtain ⟨t, t', ht, ht'⟩ := step_of_after_ok h (Nat.lt_succ_self k)
  rw [after_add ht, after_succ_of_ok ht'] at h
  cases h
  exact ⟨t, ht, ht'⟩

theorem after_error {s : σ} {k : Nat} {e : ε} (h : after step k s = .error e) :
    ∃ j < k, ∃ t, after step j s = .ok t ∧ step t = .error e := by
  induction k generalizing s with
  | zero => cases h
  | succ k ih =>
    cases hs : step s with
    | error e' =>
      rw [after, hs] at h
      cases h
      exact ⟨0, Nat.succ_pos k, s, rfl, hs⟩
    | ok u =>
      rw [after_succ_of_ok hs] at h
      obtain ⟨j, hj, t, ht, he⟩ := ih h
      exact ⟨j + 1, Nat.succ_lt_succ hj, t, by rw [after_succ_of_ok hs, ht], he⟩

theorem after_of_error {s t : σ} {j k : Nat} {e : ε} (ht : after step j s = .ok t)
    (he : step t = .error e) (hj : j < k) : after step k s = .error e := by
  obtain ⟨l, rfl⟩ : ∃ l, k = j + (l + 1) := ⟨k - j - 1, by omega⟩
  rw [after_add ht, after, he]
  rfl

theorem after_map {f : σ → σ} {s : σ} {k : Nat}
    (h : ∀ j < k, ∀ t, after step j s = .ok t → step (f t) = (step t).map f) :
    after step k (f s) = (after step k s).map f := by
  induction k generalizing s with
  | zero => rfl
  | succ k ih =>
    have hs := h 0 (Nat.succ_pos k) s rfl
    cases ht : step s with
    | error e =>
      rw [ht] at hs
      rw [after, after, hs, ht]
      rfl
    | ok t =>
      rw [ht] at hs
      rw [after_succ_of_ok hs, after_succ_of_ok ht]
      apply ih
      intro j hj u hu
      exact h (j + 1) (Nat.succ_lt_succ hj) u ((after_succ_of_ok ht j).trans hu)

/-! ### Triples -/

/-- From every state with `P`, `k` steps go through and end in a state with `Q`. -/
def Leads (step : σ → Except ε σ) (k : Nat) (P Q : σ → Prop) : Prop :=
  ∀ s, P s → ∃ t, after step k s = .ok t ∧ Q t

namespace Leads

variable {k l : Nat} {P P' Q Q' R : σ → Prop}

theorem refl (P : σ → Prop) : Leads step 0 P P := by
  intro s h
  exact ⟨s, rfl, h⟩

theorem of_step (h : ∀ s, P s → ∃ t, step s = .ok t ∧ Q t) : Leads step 1 P Q := by
  intro s hs
  obtain ⟨t, ht, hq⟩ := h s hs
  exact ⟨t, after_succ_of_ok ht 0, hq⟩

theorem trans (h : Leads step k P Q) (h' : Leads step l Q R) : Leads step (k + l) P R := by
  intro s hs
  obtain ⟨t, ht, hq⟩ := h s hs
  obtain ⟨u, hu, hr⟩ := h' t hq
  exact ⟨u, (after_add ht l).trans hu, hr⟩

theorem mono (h : Leads step k P Q) (hp : ∀ s, P' s → P s) (hq : ∀ s, Q s → Q' s) :
    Leads step k P' Q' := by
  intro s hs
  obtain ⟨t, ht, h⟩ := h s (hp s hs)
  exact ⟨t, ht, hq t h⟩

/-- **Loop**: a body that counts down is run as often as the count says. -/
theorem loop {I : Nat → σ → Prop} (h : ∀ n, Leads step k (I (n + 1)) (I n)) :
    ∀ n, Leads step (k * n) (I n) (I 0) := by
  intro n
  induction n with
  | zero => exact refl (I 0)
  | succ n ih =>
    rw [Nat.mul_succ, Nat.add_comm]
    exact (h n).trans ih

theorem stops {e : ε} (h : Leads step k P Q) (he : ∀ s, Q s → step s = .error e) {s : σ}
    (hs : P s) : after step (k + 1) s = .error e := by
  obtain ⟨t, ht, hq⟩ := h s hs
  exact after_of_error ht (he t hq) (Nat.lt_succ_self k)

end Leads

/-! ### Simulation -/

/-- Each step of the first machine is a step of the second, from related states to
related states.  `R k` relates what the two have come to in `k` steps. -/
def Simulation (step : σ → Except ε σ) (step' : τ → Except ε' τ) (R : Nat → σ → τ → Prop) : Prop :=
  ∀ k s t s', R k s t → step s = .ok s' → ∃ t', step' t = .ok t' ∧ R (k + 1) s' t'

namespace Simulation

variable {R : Nat → σ → τ → Prop}

/-- **What the first machine does, the second does.** -/
theorem after (h : Simulation step step' R) {i k : Nat} {s s' : σ} {t : τ} (hr : R i s t)
    (hs : after step k s = .ok s') : ∃ t', Hoare.after step' k t = .ok t' ∧ R (i + k) s' t' := by
  induction k generalizing i s t with
  | zero =>
    cases hs
    exact ⟨t, rfl, hr⟩
  | succ k ih =>
    obtain ⟨u, hu, hs'⟩ := after_succ_ok hs
    obtain ⟨v, hv, hr'⟩ := h i s t u hr hu
    obtain ⟨t', ht', hr''⟩ := ih hr' hs'
    refine ⟨t', (after_succ_of_ok hv k).trans ht', ?_⟩
    rw [Nat.add_right_comm] at hr''
    exact hr''

/-- **They stop together**, where an error of the first is one of the second. -/
theorem after_error (h : Simulation step step' R) {e : ε} {e' : ε'}
    (he : ∀ k s t, R k s t → step s = .error e → step' t = .error e') {k : Nat} {s : σ} {t : τ}
    (hr : R 0 s t) (hs : Hoare.after step k s = .error e) :
    Hoare.after step' k t = .error e' := by
  obtain ⟨j, hj, u, hu, hend⟩ := Hoare.after_error hs
  obtain ⟨v, hv, hr'⟩ := h.after hr hu
  exact after_of_error hv (he _ u v hr' hend) hj

/-- **A triple of the first machine is one of the second.** -/
theorem leads (h : Simulation step step' R) {k : Nat} {P Q : σ → Prop} (hk : Leads step k P Q) :
    Leads step' k (fun t => ∃ s, R 0 s t ∧ P s) (fun t => ∃ s, R k s t ∧ Q s) := by
  rintro t ⟨s, hr, hp⟩
  obtain ⟨s', hs', hq⟩ := hk s hp
  obtain ⟨t', ht', hr'⟩ := h.after hr hs'
  rw [Nat.zero_add] at hr'
  exact ⟨t', ht', s', hr', hq⟩

end Simulation

end Hoare
