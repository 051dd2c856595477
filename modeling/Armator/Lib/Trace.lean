import Mathlib

/-!
# Computations that leave a trace

A `Traced ε α` is a value of type `α` with the events of type `ε` that occurred on the way
to it.  One computation after another has the events of both, and `Each P x` says that
every event of `x` satisfies `P`: `each_bind` takes it apart.
-/

/-- A value with the events on the way to it. -/
structure Traced (ε α : Type) where
  value : α
  events : List ε
  deriving DecidableEq, Repr

namespace Traced

variable {ε α β : Type}

instance : Monad (Traced ε) where
  pure a := ⟨a, []⟩
  bind x f := ⟨(f x.value).value, x.events ++ (f x.value).events⟩

/-- One event. -/
def emit (e : ε) (a : α) : Traced ε α := ⟨a, [e]⟩

@[simp] theorem value_pure (a : α) : (pure a : Traced ε α).value = a := rfl

@[simp] theorem value_bind (x : Traced ε α) (f : α → Traced ε β) :
    (x >>= f).value = (f x.value).value := rfl

@[simp] theorem value_emit (e : ε) (a : α) : (emit e a).value = a := rfl

/-- Every event satisfies `P`. -/
def Each (P : ε → Prop) (x : Traced ε α) : Prop := ∀ e ∈ x.events, P e

instance (P : ε → Prop) [DecidablePred P] (x : Traced ε α) : Decidable (x.Each P) :=
  inferInstanceAs (Decidable (∀ e ∈ x.events, P e))

variable {P : ε → Prop}

@[simp] theorem each_pure (a : α) : (pure a : Traced ε α).Each P := by
  intro e he
  cases he

theorem each_ite_pure (c : Prop) [Decidable c] (a b : α) :
    (if c then pure a else pure b : Traced ε α).Each P := by
  split
  · exact each_pure a
  · exact each_pure b

@[simp] theorem each_emit (e : ε) (a : α) : (emit e a).Each P ↔ P e := List.forall_mem_singleton

@[simp] theorem each_bind (x : Traced ε α) (f : α → Traced ε β) :
    (x >>= f).Each P ↔ x.Each P ∧ (f x.value).Each P := List.forall_mem_append

end Traced
