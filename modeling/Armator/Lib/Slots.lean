import Mathlib

/-!
# Arrays with an index that nobody checks

An array of C has `n` cells, and an access through any other index is undefined.
`read` and `write` do the access where the index lies in the array, and stop with the
caller's reason where it does not.  An index is an `int`, so it can also lie below the
array.
-/

namespace Slots

variable {ε α : Type*} {n : ℕ}

/-- The cell with the index `i`. -/
def read (outside : ε) (a : Vector α n) (i : ℤ) : Except ε α :=
  if h : 0 ≤ i ∧ i < n then .ok (a.get ⟨i.toNat, by omega⟩) else .error outside

/-- The array after `x` is written to the cell with the index `i`. -/
def write (outside : ε) (a : Vector α n) (i : ℤ) (x : α) : Except ε (Vector α n) :=
  if h : 0 ≤ i ∧ i < n then .ok (a.set i.toNat x (by omega)) else .error outside

variable (outside : ε) (a : Vector α n)

theorem read_of_getElem? {i : ℕ} {x : α} (h : a[i]? = some x) : read outside a i = .ok x := by
  obtain ⟨hi, rfl⟩ := Vector.getElem?_eq_some_iff.mp h
  rw [read, dif_pos ⟨Int.natCast_nonneg i, Int.ofNat_lt.mpr hi⟩]
  rfl

theorem write_of_lt {i : ℕ} (h : i < n) (x : α) : write outside a i x = .ok (a.set i x h) := by
  rw [write, dif_pos ⟨Int.natCast_nonneg i, Int.ofNat_lt.mpr h⟩]
  rfl

theorem write_of_le {i : ℤ} (h : n ≤ i) (x : α) : write outside a i x = .error outside := by
  rw [write, dif_neg]
  rintro ⟨-, hi⟩
  omega

end Slots
