import Mathlib

/-!
# Runs of a step function that can stop

A step takes a state and an input to the next state, or stops with a reason.
`run step s as` feeds the inputs `as` in order; a stop ends the run.  What one
step keeps, a run keeps, for any relation between a state and the inputs read so
far (`run_history`), and a run stops where its first failing step does
(`run_concat_error_iff`).  A map between the states that commutes with the steps
commutes with the runs (`run_map`).  `lastSet` is what the inputs of a run last set a
variable to.
-/

namespace Run

universe u

variable {σ α ε : Type*} {step : σ → α → Except ε σ}

theorem ok_bind {τ τ' : Type u} (s : τ) (f : τ → Except ε τ') : (.ok s >>= f) = f s := rfl

theorem error_bind {τ τ' : Type u} (e : ε) (f : τ → Except ε τ') :
    (.error e >>= f) = Except.error e := rfl

/-- The state after the inputs, or the reason for which the run stopped. -/
def run (step : σ → α → Except ε σ) (s : σ) (as : List α) : Except ε σ :=
  as.foldlM step s

@[simp] theorem run_nil (s : σ) : run step s [] = .ok s := rfl

theorem run_cons (s : σ) (a : α) (as : List α) :
    run step s (a :: as) = step s a >>= fun t => run step t as := List.foldlM_cons

theorem run_singleton (s : σ) (a : α) : run step s [a] = step s a := by
  rw [run_cons]
  exact bind_pure _

theorem run_append (s : σ) (as bs : List α) :
    run step s (as ++ bs) = run step s as >>= fun t => run step t bs := by
  rw [run, List.foldlM_append]
  rfl

theorem run_concat (s : σ) (as : List α) (a : α) :
    run step s (as ++ [a]) = run step s as >>= fun t => step t a := by
  rw [run_append]
  exact bind_congr fun t => run_singleton t a

/-- A run of one more input that does not stop: the run before it did not, and
neither did the last step. -/
theorem run_concat_ok {s u : σ} {as : List α} {a : α} (h : run step s (as ++ [a]) = .ok u) :
    ∃ t, run step s as = .ok t ∧ step t a = .ok u := by
  rw [run_concat] at h
  cases ht : run step s as with
  | error e =>
    rw [ht, error_bind] at h
    cases h
  | ok t =>
    rw [ht, ok_bind] at h
    exact ⟨t, rfl, h⟩

theorem run_concat_of_ok {s t u : σ} {as : List α} {a : α} (ht : run step s as = .ok t)
    (hu : step t a = .ok u) : run step s (as ++ [a]) = .ok u := by
  rw [run_concat, ht, ok_bind, hu]

/-- A run of one more input stops where the run before it did, or in the last
step. -/
theorem run_concat_error_iff {s : σ} {as : List α} {a : α} {e : ε} :
    run step s (as ++ [a]) = .error e ↔
      run step s as = .error e ∨ ∃ t, run step s as = .ok t ∧ step t a = .error e := by
  rw [run_concat]
  cases ht : run step s as with
  | error e' => simp [error_bind]
  | ok t => simp [ok_bind]

/-- A run that stops: some step of it does, after inputs that it came through. -/
theorem run_error {s : σ} {as : List α} {e : ε} (h : run step s as = .error e) :
    ∃ as₁ a as₂ t, as = as₁ ++ a :: as₂ ∧ run step s as₁ = .ok t ∧ step t a = .error e := by
  induction as using List.reverseRecOn with
  | nil => cases h
  | append_singleton as a ih =>
    rcases run_concat_error_iff.mp h with h | ⟨t, ht, he⟩
    · obtain ⟨as₁, b, as₂, t, rfl, ht, he⟩ := ih h
      exact ⟨as₁, b, as₂ ++ [a], t, by simp, ht, he⟩
    · exact ⟨as, a, [], t, rfl, ht, he⟩

/-- **What every step keeps, every run keeps**, where what is kept may speak of
the inputs read so far. -/
theorem run_history {R : List α → σ → Prop} {s : σ} (h0 : R [] s)
    (hstep : ∀ as a t u, R as t → step t a = .ok u → R (as ++ [a]) u) :
    ∀ (as : List α) (t : σ), run step s as = .ok t → R as t := by
  intro as
  induction as using List.reverseRecOn with
  | nil => intro t h; cases h; exact h0
  | append_singleton as a ih =>
    intro u h
    obtain ⟨t, ht, hu⟩ := run_concat_ok h
    exact hstep as a t u (ih t ht) hu

/-! ### Maps between runs -/

theorem map_bind {τ τ' τ'' : Type u} (f : τ' → τ'') (x : Except ε τ) (k : τ → Except ε τ') :
    (x >>= k).map f = x >>= fun s => (k s).map f := by
  cases x <;> rfl

theorem bind_map {τ τ' τ'' : Type u} (f : τ → τ') (x : Except ε τ) (k : τ' → Except ε τ'') :
    (x.map f >>= k) = x >>= fun s => k (f s) := by
  cases x <;> rfl

/-- **A map that commutes with the step commutes with the run.** -/
theorem run_map {τ : Type*} {step' : τ → α → Except ε τ} {f : σ → τ}
    (h : ∀ s a, step' (f s) a = (step s a).map f) (s : σ) (as : List α) :
    run step' (f s) as = (run step s as).map f := by
  induction as generalizing s with
  | nil => rfl
  | cons a as ih =>
    rw [run, run, List.foldlM_cons, List.foldlM_cons, h]
    cases step s a with
    | error e => rfl
    | ok t => exact ih t

/-! ### The value last set -/

/-- The value that the last input to set one did set, or the default. -/
def lastSet {β : Type*} (sets : α → Option β) (default : β) (as : List α) : β :=
  (as.reverse.findSome? sets).getD default

theorem lastSet_concat {β : Type*} (sets : α → Option β) (default : β) (as : List α) (a : α) :
    lastSet sets default (as ++ [a]) = (sets a).getD (lastSet sets default as) := by
  rw [lastSet, List.reverse_append, List.reverse_singleton, List.singleton_append,
    List.findSome?_cons]
  cases sets a <;> rfl

theorem lastSet_cons {β : Type*} (sets : α → Option β) (default : β) (a : α) (as : List α) :
    lastSet sets default (a :: as) = lastSet sets ((sets a).getD default) as := by
  rw [lastSet, lastSet, List.reverse_cons, List.findSome?_append, List.findSome?_singleton]
  cases as.reverse.findSome? sets <;> rfl

end Run
