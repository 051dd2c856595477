import Armator.DataProcessing.Flags

/-!
# The flags of an addition

`add` and `cmn` compute N, Z and C of the sum.  Their V comes from `overflowFrom`
with its `add` argument set, which compares signs of the *difference* of the
operands: for operands of the same sign it tells which of the two is greater
(`overflowFrom_add_iff`).  So V is that of the sum exactly where the order of the
operands happens to agree with the overflow of their sum (`OrderTellsOverflow`,
`addsRight_iff`).
-/

namespace Armator

/-- The flags of `q` are those of the sum of `rn` and `so`. -/
def SumFlags (p q : ArmCore) (rn so : Word) : Prop :=
  ExactFlags p q (rn + so) (2 ^ 32 ≤ rn.toNat + so.toNat) (rn.toInt + so.toInt)

structure AddsRight (p : ArmCore) (rd : Fin 16) (rn so : Word) : Prop where
  add : SumFlags p (Alu.add p rd rn so true) rn so
  result : armReadRegister (Alu.add p rd rn so true) rd = rn + so
  cmn : ∀ s, SumFlags p (Alu.cmn p rd rn so s) rn so

/-- For operands of the same sign, the order of the operands tells whether their
sum is too large, or too small. -/
def OrderTellsOverflow (x y : Int) : Prop :=
  (0 ≤ x → 0 ≤ y → (x < y ↔ 2 ^ 31 ≤ x + y)) ∧ (x < 0 → y < 0 → (y ≤ x ↔ x + y < -2 ^ 31))

theorem overflowFrom_add_iff (a b : Word) :
    overflowFrom a b true = true ↔
      (0 ≤ a.toInt ∧ 0 ≤ b.toInt ∧ a.toInt < b.toInt) ∨
        (a.toInt < 0 ∧ b.toInt < 0 ∧ b.toInt ≤ a.toInt) := by
  have ha := a.isLt
  have hb := b.isLt
  have hd := toNat_sub_eq a b
  simp only [overflowFrom, if_true, decide_eq_true_iff, ne_eq, getBit_sign_eq_iff, toInt_eq a,
    toInt_eq b]
  split at hd <;> split <;> split <;> omega

theorem overflowFrom_add_right_iff (a b : Word) :
    (overflowFrom a b true = true ↔ ¬Fits (a.toInt + b.toInt)) ↔
      OrderTellsOverflow a.toInt b.toInt := by
  have ha := a.toInt_lt
  have ha' := a.le_toInt
  have hb := b.toInt_lt
  have hb' := b.le_toInt
  rw [overflowFrom_add_iff, Fits, OrderTellsOverflow]
  simp only [Nat.add_one_sub_one] at ha ha' hb hb'
  generalize a.toInt = x at *
  generalize b.toInt = y at *
  by_cases hx : 0 ≤ x <;> by_cases hy : 0 ≤ y <;> omega

theorem sumFlags_updateFlags3_iff {p q : ArmCore} (rn so : Word)
    (h : armReadCpsr q = armReadCpsr p) :
    SumFlags p (updateFlags3 q (rn + so) rn so) rn so ↔
      OrderTellsOverflow rn.toInt so.toInt := by
  rw [SumFlags, updateFlags3, exactFlags_setFlags_iff h, and_iff_right (carryFrom_iff rn so),
    overflowFrom_add_right_iff]

/-- **When `add` and `cmn` set the flags of the sum**: exactly when the operands
have different signs, or their order tells whether the sum overflows. -/
theorem addsRight_iff (p : ArmCore) (rd : Fin 16) (rn so : Word) (h : rd ≠ 15) :
    AddsRight p rd rn so ↔ OrderTellsOverflow rn.toInt so.toInt := by
  have hadd : SumFlags p (Alu.add p rd rn so true) rn so ↔
      OrderTellsOverflow rn.toInt so.toInt := by
    rw [Alu.add, Alu.aluWrite_flags _ _ _ h]
    exact sumFlags_updateFlags3_iff rn so (armReadCpsr_writeRegister ..)
  constructor
  · intro hr
    exact hadd.mp hr.add
  · intro hv
    refine ⟨hadd.mpr hv, ?_, fun s => (sumFlags_updateFlags3_iff rn so rfl).mpr hv⟩
    rw [Alu.add, Alu.aluWrite_flags _ _ _ h, updateFlags3, armReadRegister_writeCpsr,
      armReadRegister_write_same _ _ h]

theorem addsRight_two_one : AddsRight (coreOfWord 0) 0 2 1 :=
  (addsRight_iff _ _ _ _ (by decide)).mpr (by unfold OrderTellsOverflow; decide)

/-- 1 and 2: V is set. -/
theorem one_plus_two_overflows :
    ¬ ∀ (p : ArmCore) (rd : Fin 16) (rn so : Word), rd ≠ 15 → AddsRight p rd rn so := by
  intro h
  have hc := (h (coreOfWord 0) 0 1 2 (by decide)).cmn true
  have ht := (sumFlags_updateFlags3_iff (p := coreOfWord 0) 1 2 rfl).mp hc
  revert ht
  unfold OrderTellsOverflow
  decide

end Armator
