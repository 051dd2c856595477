import Mathlib

/-!
# Sorted lists by their indices

Two facts about lists in a linear order that a program with an array uses through
indices.  Inserting a value before the first one that is not below it is
`List.orderedInsert` (`insertIdx_place`), and the value goes behind all others where
these are below it (`place_eq_length_iff`).  A search keeps the indices where a value can
stand between two bounds (`Within`), and a comparison with one element moves one of
them (`Within.above`, `Within.below`).
-/

namespace Sorted

variable {α : Type*} {l : List α} {a b : α}

/-! ### Search -/

/-- The indices at which `a` stands in `l` go from `lo` to `hi`. -/
def Within (l : List α) (a : α) (lo hi : ℤ) : Prop := ∀ k : ℕ, l[k]? = some a → lo ≤ k ∧ k ≤ hi

theorem within_all (l : List α) (a : α) : Within l a 0 (l.length - 1) := by
  intro k hk
  obtain ⟨hlt, -⟩ := List.getElem?_eq_some_iff.mp hk
  omega

theorem Within.notMem {lo hi : ℤ} (h : Within l a lo hi) (hlt : hi < lo) : a ∉ l := by
  intro ha
  obtain ⟨k, hk⟩ := List.mem_iff_getElem?.mp ha
  have := h k hk
  omega

theorem Within.mem_iff {m : ℕ} (h : Within l a m m) (hm : l[m]? = some b) : a ∈ l ↔ b = a := by
  constructor
  · intro ha
    obtain ⟨k, hk⟩ := List.mem_iff_getElem?.mp ha
    have hkm : k = m := by have := h k hk; omega
    subst hkm
    exact Option.some.inj (hm.symm.trans hk)
  · rintro rfl
    exact List.mem_iff_getElem?.mpr ⟨m, hm⟩

variable [LinearOrder α]

theorem lt_of_getElem?_lt (hs : l.Pairwise (· ≤ ·)) {i j : ℕ} (ha : l[i]? = some a)
    (hb : l[j]? = some b) (h : a < b) : i < j := by
  obtain ⟨hi, rfl⟩ := List.getElem?_eq_some_iff.mp ha
  obtain ⟨hj, rfl⟩ := List.getElem?_eq_some_iff.mp hb
  have hlt : (⟨i, hi⟩ : Fin l.length) < ⟨j, hj⟩ := hs.sortedLE.monotone_get.reflect_lt h
  exact hlt

/-- Below `a` at `m`: only what comes behind is left. -/
theorem Within.above {lo hi : ℤ} (h : Within l a lo hi) (hs : l.Pairwise (· ≤ ·)) {m : ℕ}
    (hm : l[m]? = some b) (hb : b < a) : Within l a (m + 1) hi := by
  intro k hk
  have := lt_of_getElem?_lt hs hm hk hb
  exact ⟨by omega, (h k hk).2⟩

/-- Above `a` at `m`: only what comes before is left. -/
theorem Within.below {lo hi : ℤ} (h : Within l a lo hi) (hs : l.Pairwise (· ≤ ·)) {m : ℕ}
    (hm : l[m]? = some b) (hb : a < b) : Within l a lo (m - 1) := by
  intro k hk
  have := lt_of_getElem?_lt hs hk hm hb
  exact ⟨(h k hk).1, by omega⟩

/-! ### Insertion -/

/-- The index of the first value that is not below `a`, the length if there is none. -/
def place (a : α) (l : List α) : ℕ := l.findIdx (a ≤ ·)

theorem place_le_length (a : α) (l : List α) : place a l ≤ l.length := List.findIdx_le_length

theorem lt_of_lt_place {i : ℕ} (h : i < place a l) (hb : l[i]? = some b) : b < a := by
  obtain ⟨hi, rfl⟩ := List.getElem?_eq_some_iff.mp hb
  simpa using List.not_of_lt_findIdx h

theorem le_at_place (hb : l[place a l]? = some b) : a ≤ b := by
  obtain ⟨hi, rfl⟩ := List.getElem?_eq_some_iff.mp hb
  exact of_decide_eq_true (List.findIdx_getElem (w := hi))

theorem place_eq_length_iff : place a l = l.length ↔ ∀ b ∈ l, b < a := by
  rw [place, List.findIdx_eq_length]
  simp

theorem insertIdx_place (a : α) (l : List α) :
    l.insertIdx (place a l) a = l.orderedInsert (· ≤ ·) a := by
  induction l with
  | nil => rfl
  | cons b l ih =>
    rw [List.orderedInsert_cons]
    split
    next h => simp [place, List.findIdx_cons, h]
    next h =>
      have hplace : place a (b :: l) = place a l + 1 := by simp [place, List.findIdx_cons, h]
      rw [hplace, List.insertIdx_succ_cons, ih]

end Sorted
