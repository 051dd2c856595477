import Armator.Lib.Text

/-!
# Strings in the order of `strcmp`

`CString` is a string of C, the bytes before its NUL.  `strcmp` compares two of them as
`unsigned char`s, up to the first difference, where the NUL is below everything else.  Its
sign is the lexicographic order (`strcmp_neg_iff`, `strcmp_eq_zero_iff`,
`strcmp_pos_iff`), which makes the strings a linear order.
-/

namespace Text

structure CString where
  bytes : List Byte
  noNul : 0 ∉ bytes

/-- What `strcmp` returns for the strings with these bytes. -/
def compareBytes : List Byte → List Byte → ℤ
  | [], [] => 0
  | [], b :: _ => 0 - b.toNat
  | a :: _, [] => a.toNat - 0
  | a :: s, b :: t => if a = b then compareBytes s t else a.toNat - b.toNat

def strcmp (s t : CString) : ℤ := compareBytes s.bytes t.bytes

/-! ### The order -/

/-- The bytes as numbers. -/
def CString.key (s : CString) : List ℕ := s.bytes.map BitVec.toNat

theorem CString.key_injective : Function.Injective CString.key := by
  rintro ⟨s, hs⟩ ⟨t, ht⟩ h
  have : s = t := List.map_injective_iff.mpr (fun _ _ => BitVec.eq_of_toNat_eq) h
  subst this
  rfl

instance : LinearOrder CString := LinearOrder.lift' CString.key CString.key_injective

theorem compareBytes_swap (s t : List Byte) : compareBytes t s = -compareBytes s t := by
  induction s generalizing t with
  | nil => cases t <;> simp [compareBytes]
  | cons a s ih =>
    cases t with
    | nil => simp [compareBytes]
    | cons b t =>
      by_cases h : a = b
      · subst h
        simpa [compareBytes] using ih t
      · simp [compareBytes, h, Ne.symm h]

theorem toNat_pos {b : Byte} (h : 0 ≠ b) : 0 < b.toNat := by
  by_contra h0
  exact h (BitVec.eq_of_toNat_eq (by simpa using (Nat.eq_zero_of_not_pos h0).symm))

theorem compareBytes_neg_iff {s t : List Byte} (hs : 0 ∉ s) (ht : 0 ∉ t) :
    compareBytes s t < 0 ↔ s.map BitVec.toNat < t.map BitVec.toNat := by
  induction s generalizing t with
  | nil =>
    cases t with
    | nil => simp [compareBytes]
    | cons b t =>
      have hb : 0 < b.toNat := toNat_pos (fun h => ht (h ▸ List.mem_cons_self))
      simpa [compareBytes] using hb
  | cons a s ih =>
    cases t with
    | nil => simp [compareBytes]
    | cons b t =>
      have ih := ih (fun h => hs (List.mem_cons_of_mem a h)) (fun h => ht (List.mem_cons_of_mem b h))
      rw [List.map_cons, List.map_cons, List.cons_lt_cons_iff, ← ih]
      by_cases h : a = b
      · simp [compareBytes, h]
      · have hne : a.toNat ≠ b.toNat := fun e => h (BitVec.eq_of_toNat_eq e)
        simp [compareBytes, h, hne]

theorem strcmp_neg_iff (s t : CString) : strcmp s t < 0 ↔ s < t :=
  compareBytes_neg_iff s.noNul t.noNul

theorem strcmp_pos_iff (s t : CString) : 0 < strcmp s t ↔ t < s := by
  rw [← strcmp_neg_iff, strcmp, strcmp, compareBytes_swap s.bytes t.bytes]
  omega

theorem strcmp_eq_zero_iff (s t : CString) : strcmp s t = 0 ↔ s = t := by
  constructor
  · intro h
    apply le_antisymm
    · exact not_lt.mp fun hlt => absurd ((strcmp_pos_iff s t).mpr hlt) (by omega)
    · exact not_lt.mp fun hlt => absurd ((strcmp_neg_iff s t).mpr hlt) (by omega)
  · rintro rfl
    apply le_antisymm
    · exact not_lt.mp fun hlt => lt_irrefl s ((strcmp_pos_iff s s).mp hlt)
    · exact not_lt.mp fun hlt => lt_irrefl s ((strcmp_neg_iff s s).mp hlt)

end Text
