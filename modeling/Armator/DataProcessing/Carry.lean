import Armator.DataProcessing.Addition

/-!
# The flags of the operations with carry

`adc`, `sbc` and `rsc` put their three-term results together from two two-term ones,
and so they do with the flags.

* `adc` combines the two carries in the right way.  Its V inherits the defect of
  `overflowFrom` for additions: the order of the operands stands for the overflow of
  their sum, and a sum of 0 for the overflow of adding the carry (`adcRight_iff`).
* `sbc` and `rsc` combine the absences of the two borrows with an or: one of them is
  always absent, and C is always set (`noBorrow_or`).  Their V is right where there is
  no borrow, so that the flags are right exactly there (`sbc_rsc_iff`).
-/

namespace Armator

theorem toInt_add_cases (a b : Word) :
    (a + b).toInt = a.toInt + b.toInt ∨ (a + b).toInt = a.toInt + b.toInt - 2 ^ 32 ∨
      (a + b).toInt = a.toInt + b.toInt + 2 ^ 32 := by
  have ha := a.isLt
  have hb := b.isLt
  have hab := BitVec.toNat_add a b
  rw [toInt_eq, toInt_eq, toInt_eq]
  split <;> split <;> split <;> omega

/-! ### Addition with carry -/

/-- The value and the flags of `rn + so + c`. -/
structure AdcRight (p : ArmCore) (rd : Fin 16) (rn so : Word) : Prop where
  result : armReadRegister (Alu.adc p rd rn so true) rd =
    BitVec.ofNat 32 (rn.toNat + so.toNat + carry p)
  flags : ExactFlags p (Alu.adc p rd rn so true)
    (BitVec.ofNat 32 (rn.toNat + so.toNat + carry p)) (2 ^ 32 ≤ rn.toNat + so.toNat + carry p)
    (rn.toInt + so.toInt + carry p)

/-- What the overflow of `adc` takes for granted about two operands and the carry:
their sum with it does not come from 0, and for operands of the same sign their order
tells whether the sum is too large, or too small. -/
def OrderTellsAdcOverflow (x y : Int) (c : Nat) : Prop :=
  ¬ (c = 1 ∧ x + y = 0) ∧
    (0 ≤ x → 0 ≤ y → (x < y ↔ 2 ^ 31 ≤ x + y + c)) ∧
    (x < 0 → y < 0 → (y ≤ x ↔ x + y + c < -2 ^ 31))

theorem toInt_carry (p : ArmCore) : (getBit (armReadCpsr p) flagC).toInt = carry p := by
  have hc := carry_le p
  rw [toInt_eq, toNat_carry, if_pos (by omega)]

theorem adc_result (p : ArmCore) (rn so : Word) :
    rn + so + getBit (armReadCpsr p) flagC =
      BitVec.ofNat 32 (rn.toNat + so.toNat + carry p) := by
  apply BitVec.eq_of_toNat_eq
  rw [BitVec.toNat_add, BitVec.toNat_add, BitVec.toNat_ofNat, toNat_carry, Nat.mod_add_mod]

theorem adc_carry_iff (p : ArmCore) (rn so : Word) :
    (carryFrom rn so || carryFrom (rn + so) (getBit (armReadCpsr p) flagC)) = true ↔
      2 ^ 32 ≤ rn.toNat + so.toNat + carry p := by
  have hrn := rn.isLt
  have hso := so.isLt
  have hc := carry_le p
  rw [Bool.or_eq_true, carryFrom_iff, carryFrom_iff, toNat_carry, BitVec.toNat_add]
  omega

/-- The second partial addition is taken to overflow where it adds 1 to 0. -/
theorem overflowFrom_carry_iff (p : ArmCore) (a : Word) :
    overflowFrom a (getBit (armReadCpsr p) flagC) true = true ↔ carry p = 1 ∧ a.toInt = 0 := by
  have hc := carry_le p
  rw [overflowFrom_add_iff, toInt_carry]
  omega

theorem adc_overflow_iff (p : ArmCore) (rn so : Word) :
    ((overflowFrom rn so true || overflowFrom (rn + so) (getBit (armReadCpsr p) flagC) true) = true ↔
        ¬Fits (rn.toInt + so.toInt + carry p)) ↔
      OrderTellsAdcOverflow rn.toInt so.toInt (carry p) := by
  have hx := rn.toInt_lt
  have hx' := rn.le_toInt
  have hy := so.toInt_lt
  have hy' := so.le_toInt
  have hz := (rn + so).toInt_lt
  have hz' := (rn + so).le_toInt
  have hc := carry_le p
  have hs := toInt_add_cases rn so
  rw [Bool.or_eq_true, overflowFrom_add_iff, overflowFrom_carry_iff, Fits, OrderTellsAdcOverflow]
  simp only [Nat.add_one_sub_one] at hx hx' hy hy' hz hz'
  generalize rn.toInt = x at *
  generalize so.toInt = y at *
  generalize (rn + so).toInt = z at *
  generalize carry p = c at *
  rcases Nat.le_one_iff_eq_zero_or_eq_one.mp hc with rfl | rfl
  · by_cases h0 : 0 ≤ x <;> by_cases h1 : 0 ≤ y <;> omega
  · by_cases h0 : 0 ≤ x <;> by_cases h1 : 0 ≤ y <;> omega

theorem exactFlags_adcFlags_iff {p q : ArmCore} (h : armReadCpsr q = armReadCpsr p)
    (res rn so : Word) :
    ExactFlags p (Alu.adcFlags q res rn so) res (2 ^ 32 ≤ rn.toNat + so.toNat + carry p)
        (rn.toInt + so.toInt + carry p) ↔
      OrderTellsAdcOverflow rn.toInt so.toInt (carry p) := by
  have hc : carry p = carry q := by rw [carry, carry, h]
  rw [hc, ← adc_overflow_iff q, Alu.adcFlags, exactFlags_setFlags_iff h,
    and_iff_right (adc_carry_iff q rn so)]

/-- **When `adc` sets the flags of the sum with the carry**: its value, N, Z and C are
always right, and V exactly under what its computation takes for granted. -/
theorem adcRight_iff (p : ArmCore) (rd : Fin 16) (rn so : Word) (h : rd ≠ 15) :
    AdcRight p rd rn so ↔ OrderTellsAdcOverflow rn.toInt so.toInt (carry p) := by
  have hadc : Alu.adc p rd rn so true =
      Alu.adcFlags (armWriteRegister p rd (BitVec.ofNat 32 (rn.toNat + so.toNat + carry p)))
        (BitVec.ofNat 32 (rn.toNat + so.toNat + carry p)) rn so := by
    rw [Alu.adc, Alu.aluWrite_flags _ _ _ h, adc_result]
  have hflags := exactFlags_adcFlags_iff (armReadCpsr_writeRegister p rd
    (BitVec.ofNat 32 (rn.toNat + so.toNat + carry p)))
    (BitVec.ofNat 32 (rn.toNat + so.toNat + carry p)) rn so
  constructor
  · intro hr
    have hf := hr.flags
    rw [hadc] at hf
    exact hflags.mp hf
  · intro hv
    refine ⟨?_, ?_⟩
    · rw [hadc, Alu.adcFlags, armReadRegister_writeCpsr, armReadRegister_write_same _ _ h]
    · rw [hadc]
      exact hflags.mpr hv

theorem adcRight_three_two : AdcRight (coreOfWord 0) 0 3 2 :=
  (adcRight_iff _ _ _ _ (by decide)).mpr (by unfold OrderTellsAdcOverflow; decide)

/-- 1 and 2, with the carry clear: V is set. -/
theorem one_plus_two_with_carry_overflows :
    ¬ ∀ (p : ArmCore) (rd : Fin 16) (rn so : Word), rd ≠ 15 → AdcRight p rd rn so := by
  intro h
  have hf := (h (coreOfWord 0) 0 1 2 (by decide)).flags
  have hv : bit (armReadCpsr (Alu.adc (coreOfWord 0) 0 1 2 true)) flagV = true := by
    decide +kernel
  exact hf.v.mp hv (by unfold Fits; decide)

/-! ### Subtraction with carry -/

/-- The borrow into a subtraction, as a number. -/
def borrowIn (p : ArmCore) : Nat := 1 - carry p

theorem borrowIn_le_one (p : ArmCore) : borrowIn p ≤ 1 := Nat.sub_le ..

theorem toNat_notCarry (p : ArmCore) : (Alu.notCarry p).toNat = borrowIn p := by
  unfold Alu.notCarry borrowIn
  rcases carry_cases p with ⟨hb, hc⟩ | ⟨hb, hc⟩
  · rw [hb, hc]
    rfl
  · rw [hb, hc]
    rfl

theorem toInt_notCarry (p : ArmCore) : (Alu.notCarry p).toInt = borrowIn p := by
  have hb := borrowIn_le_one p
  rw [toInt_eq, toNat_notCarry, if_pos (by omega)]

/-- What `q` holds is the value and the flags of `a - b` with the borrow of `p`. -/
structure SubtractsRight (p q : ArmCore) (rd : Fin 16) (a b : Word) : Prop where
  result : armReadRegister q rd = BitVec.ofInt 32 (a.toNat - b.toNat - borrowIn p)
  flags : ExactFlags p q (BitVec.ofInt 32 (a.toNat - b.toNat - borrowIn p))
    (b.toNat + borrowIn p ≤ a.toNat) (a.toInt - b.toInt - borrowIn p)

theorem sbc_result (p : ArmCore) (a b : Word) :
    a - b - Alu.notCarry p = BitVec.ofInt 32 (a.toNat - b.toNat - borrowIn p) := by
  have ha := a.isLt
  have hb := b.isLt
  have hn := borrowIn_le_one p
  apply BitVec.eq_of_toNat_eq
  rw [BitVec.toNat_ofInt, BitVec.toNat_sub, BitVec.toNat_sub, toNat_notCarry]
  omega

/-- **One of the two partial subtractions never borrows**: where `a - b` does, its
wrapped value is not 0. -/
theorem noBorrow_or (p : ArmCore) (a b : Word) :
    (!borrowFrom a b || !borrowFrom (a - b) (Alu.notCarry p)) = true := by
  have ha := a.isLt
  have hb := b.isLt
  have hn := borrowIn_le_one p
  have hd := toNat_sub_eq a b
  rw [Bool.or_eq_true, Bool.not_iff_not, Bool.not_iff_not, borrowFrom_iff, borrowFrom_iff,
    toNat_notCarry]
  split at hd <;> omega

/-- Without a borrow, the two partial overflows tell the whole one. -/
theorem sbc_overflow_iff {p : ArmCore} {a b : Word} (h : b.toNat + borrowIn p ≤ a.toNat) :
    (overflowFrom a b false || overflowFrom (a - b) (Alu.notCarry p) false) = true ↔
      ¬Fits (a.toInt - b.toInt - borrowIn p) := by
  have ha := a.isLt
  have hb := b.isLt
  have hn := borrowIn_le_one p
  have hd := toNat_sub_eq a b
  rw [Bool.or_eq_true, overflowFrom_sub_iff, overflowFrom_sub_iff, toInt_notCarry, Fits, Fits, Fits,
    toInt_eq a, toInt_eq b, toInt_eq (a - b)]
  split at hd
  · split <;> split <;> split <;> omega
  · omega

theorem exactFlags_sbcFlags_iff {p q : ArmCore} (h : armReadCpsr q = armReadCpsr p)
    (res a b : Word) :
    ExactFlags p (Alu.sbcFlags q res a b) res (b.toNat + borrowIn p ≤ a.toNat)
        (a.toInt - b.toInt - borrowIn p) ↔
      b.toNat + borrowIn p ≤ a.toNat := by
  have hn : borrowIn p = borrowIn q := by rw [borrowIn, borrowIn, carry, carry, h]
  rw [hn, Alu.sbcFlags, exactFlags_setFlags_iff h]
  constructor
  · rintro ⟨hc, -⟩
    exact hc.mp (noBorrow_or q a b)
  · intro hle
    exact ⟨iff_of_true (noBorrow_or q a b) hle, sbc_overflow_iff hle⟩

/-- Both subtractions write `a - b` with the borrow and leave it to `sbcFlags`. -/
theorem subtractsRight_iff (p : ArmCore) {rd : Fin 16} (a b : Word) (h : rd ≠ 15) :
    SubtractsRight p
        (Alu.aluWrite (Alu.sbcFlags · (a - b - Alu.notCarry p) a b) p rd (a - b - Alu.notCarry p) true)
        rd a b ↔
      b.toNat + borrowIn p ≤ a.toNat := by
  rw [Alu.aluWrite_flags _ _ _ h, sbc_result]
  have hflags := exactFlags_sbcFlags_iff (armReadCpsr_writeRegister p rd
    (BitVec.ofInt 32 (a.toNat - b.toNat - borrowIn p)))
    (BitVec.ofInt 32 (a.toNat - b.toNat - borrowIn p)) a b
  constructor
  · intro hr
    exact hflags.mp hr.flags
  · intro hle
    refine ⟨?_, hflags.mpr hle⟩
    rw [Alu.sbcFlags, armReadRegister_writeCpsr, armReadRegister_write_same _ _ h]

/-- **When `sbc` and `rsc` set the flags of the difference**: exactly when there is no
borrow, since they set C whether or not there is one. -/
theorem sbc_rsc_iff (p : ArmCore) (rd : Fin 16) (rn so : Word) (h : rd ≠ 15) :
    (SubtractsRight p (Alu.sbc p rd rn so true) rd rn so ↔
        so.toNat + borrowIn p ≤ rn.toNat) ∧
      (SubtractsRight p (Alu.rsc p rd rn so true) rd so rn ↔
        rn.toNat + borrowIn p ≤ so.toNat) :=
  ⟨subtractsRight_iff p rn so h, subtractsRight_iff p so rn h⟩

theorem sbc_three_two : SubtractsRight (coreOfWord 0) (Alu.sbc (coreOfWord 0) 0 3 2 true) 0 3 2 :=
  (sbc_rsc_iff (coreOfWord 0) 0 3 2 (by decide)).1.mpr (by decide)

/-- `sbc` of 0 and 1: C says that there is no borrow. -/
theorem sbc_zero_one_hides_borrow :
    ¬ ∀ (p : ArmCore) (rd : Fin 16) (rn so : Word), rd ≠ 15 →
      SubtractsRight p (Alu.sbc p rd rn so true) rd rn so ∧
        SubtractsRight p (Alu.rsc p rd rn so true) rd so rn := by
  intro h
  have hf := (h (coreOfWord 0) 0 0 1 (by decide)).1.flags
  have hc : bit (armReadCpsr (Alu.sbc (coreOfWord 0) 0 0 1 true)) flagC = true := by
    decide +kernel
  exact absurd (hf.c.mp hc) (by decide)

end Armator
