import Mathlib

/-!
# Two runs side by side

`observe step n s` runs a step function `n` times from `s`: the results of the steps, and
the state at the end or the reason for which the run stopped.

A relation between states that the step function respects (related states give the same
result and related states again, or stop for the same reason) relates runs of any length:
the results are the same at each step, and the ends are related (`Respects.observe`).
This is the unwinding rule of noninterference, for a relation that says what an observer
can see.
-/

namespace Unwinding

variable {σ ρ ε α β : Type*}

/-- Both computations end with related results, or both stop for the same reason. -/
inductive Agree (R : α → β → Prop) : Except ε α → Except ε β → Prop
  | ok {a : α} {b : β} : R a b → Agree R (.ok a) (.ok b)
  | error (e : ε) : Agree R (.error e) (.error e)

/-- The results of `n` steps, and the end of the run. -/
def observe (step : σ → Except ε (ρ × σ)) : Nat → σ → List ρ × Except ε σ
  | 0, s => ([], .ok s)
  | n + 1, s =>
    match step s with
    | .error e => ([], .error e)
    | .ok (r, t) => (r :: (observe step n t).1, (observe step n t).2)

def Respects (step : σ → Except ε (ρ × σ)) (R : σ → σ → Prop) : Prop :=
  ∀ s t, R s t → Agree (fun x y : ρ × σ => x.1 = y.1 ∧ R x.2 y.2) (step s) (step t)

/-- **The unwinding rule.** -/
theorem Respects.observe {step : σ → Except ε (ρ × σ)} {R : σ → σ → Prop}
    (h : Respects step R) (n : Nat) {s t : σ} (hst : R s t) :
    (observe step n s).1 = (observe step n t).1 ∧
      Agree R (observe step n s).2 (observe step n t).2 := by
  induction n generalizing s t with
  | zero => exact ⟨rfl, .ok hst⟩
  | succ n ih =>
    have hstep := h s t hst
    rw [Unwinding.observe, Unwinding.observe]
    generalize step s = x at hstep ⊢
    generalize step t = y at hstep ⊢
    cases hstep with
    | error e => exact ⟨rfl, .error e⟩
    | @ok a b hab =>
      obtain ⟨r, s'⟩ := a
      obtain ⟨r', t'⟩ := b
      obtain ⟨rfl, hR⟩ := hab
      obtain ⟨hrs, hend⟩ := ih hR
      exact ⟨congrArg (r :: ·) hrs, hend⟩

end Unwinding
