import Armator.Instruction

/-!
# The flags and the conditions

`arm_data_processing.c` computes the flags from wrapped 32-bit arithmetic and
`arm_instruction.c` reads them back in the condition table.  This file says what
the flags of a subtraction mean as numbers, and joins the two: after `cmp` the
condition field selects exactly the comparison of the operands that its name
says (`conditionPassed_cmp`).

Each flag is read on its own (`bit_setFlags_n` to `bit_setFlags_v`), and the
bits below them stay as they were (`getLsbD_setFlags`).  The borrow is the
unsigned order (`borrowFrom_iff`).  The overflow says that the exact signed
difference is not a 32-bit number (`overflowFrom_sub_iff`), and with the sign of
the wrapped difference it decides the signed order (`sign_eq_overflow_iff`).
All the flags of a result together are right where C and V are
(`exactFlags_setFlags_iff`).
-/

namespace Armator

/-! ### Reading one flag -/

theorem getLsbD_setFlags (cpsr res : Word) (c v : Bool) {j : Nat} (h : j < 28) :
    (setFlags cpsr res c v).getLsbD j = cpsr.getLsbD j := by
  simp only [setFlags, flagN, flagZ, flagC, flagV]
  rw [getLsbD_albit _ (by omega), if_neg (by omega), getLsbD_albit _ (by omega), if_neg (by omega),
    getLsbD_albit _ (by omega), if_neg (by omega), getLsbD_albit _ (by omega), if_neg (by omega)]

@[simp] theorem bit_setFlags_n (cpsr res : Word) (c v : Bool) :
    bit (setFlags cpsr res c v) flagN = bit res 31 := by
  simp [setFlags, bit_albit, flagN, flagZ, flagC, flagV]

@[simp] theorem bit_setFlags_z (cpsr res : Word) (c v : Bool) :
    bit (setFlags cpsr res c v) flagZ = (res == 0) := by
  simp [setFlags, bit_albit, flagN, flagZ, flagC, flagV]

@[simp] theorem bit_setFlags_c (cpsr res : Word) (c v : Bool) :
    bit (setFlags cpsr res c v) flagC = c := by
  simp [setFlags, bit_albit, flagN, flagZ, flagC, flagV]

@[simp] theorem bit_setFlags_v (cpsr res : Word) (c v : Bool) :
    bit (setFlags cpsr res c v) flagV = v := by
  simp [setFlags, bit_albit, flagN, flagZ, flagC, flagV]

/-- The C flag as a number. -/
def carry (p : ArmCore) : Nat := (bit (armReadCpsr p) flagC).toNat

theorem carry_le (p : ArmCore) : carry p ≤ 1 := Bool.toNat_le _

theorem carry_cases (p : ArmCore) :
    bit (armReadCpsr p) flagC = false ∧ carry p = 0 ∨
      bit (armReadCpsr p) flagC = true ∧ carry p = 1 := by
  unfold carry
  cases bit (armReadCpsr p) flagC with
  | false => exact Or.inl ⟨rfl, rfl⟩
  | true => exact Or.inr ⟨rfl, rfl⟩

theorem toNat_carry (p : ArmCore) : (getBit (armReadCpsr p) flagC).toNat = carry p := by
  rw [getBit_eq_ite]
  rcases carry_cases p with ⟨hb, hc⟩ | ⟨hb, hc⟩
  · rw [hb, hc]
    rfl
  · rw [hb, hc]
    rfl

/-! ### Signs, borrows and overflows as numbers -/

/-- The exact result of a signed operation is a 32-bit number. -/
def Fits (x : Int) : Prop := -2 ^ 31 ≤ x ∧ x < 2 ^ 31

instance (x : Int) : Decidable (Fits x) := inferInstanceAs (Decidable (_ ∧ _))

theorem bit_sign_iff (x : Word) : bit x 31 = true ↔ 2 ^ 31 ≤ x.toNat := by
  have := x.isLt
  rw [bit_iff x (by decide)]
  omega

theorem getBit_sign_eq_iff (x y : Word) :
    getBit x 31 = getBit y 31 ↔ (2 ^ 31 ≤ x.toNat ↔ 2 ^ 31 ≤ y.toNat) := by
  rw [getBit_eq_getBit_iff, Bool.eq_iff_iff, bit_sign_iff, bit_sign_iff]

theorem toInt_eq (x : Word) :
    x.toInt = if x.toNat < 2 ^ 31 then (x.toNat : Int) else x.toNat - 2 ^ 32 := by
  rw [BitVec.toInt_eq_toNat_cond]
  split <;> split <;> omega

theorem toNat_sub_eq (a b : Word) :
    (a - b).toNat = if b.toNat ≤ a.toNat then a.toNat - b.toNat else 2 ^ 32 + a.toNat - b.toNat := by
  have := a.isLt
  have := b.isLt
  rw [BitVec.toNat_sub]
  split <;> omega

theorem bit_sign_iff_neg (x : Word) : bit x 31 = true ↔ x.toInt < 0 := by
  have := x.isLt
  rw [bit_sign_iff, toInt_eq]
  split <;> omega

theorem borrowFrom_iff (a b : Word) : borrowFrom a b = true ↔ a.toNat < b.toNat := by
  rw [borrowFrom, decide_eq_true_iff, BitVec.lt_def]

theorem carryFrom_iff (a b : Word) : carryFrom a b = true ↔ 2 ^ 32 ≤ a.toNat + b.toNat := by
  have := a.isLt
  have := b.isLt
  rw [carryFrom, decide_eq_true_iff, BitVec.lt_def, BitVec.toNat_add]
  omega

/-- **The overflow flag of a subtraction says that the exact difference does not
fit.** -/
theorem overflowFrom_sub_iff (a b : Word) :
    overflowFrom a b false = true ↔ ¬Fits (a.toInt - b.toInt) := by
  have ha := a.isLt
  have hb := b.isLt
  have hd := toNat_sub_eq a b
  simp only [overflowFrom, Bool.false_eq_true, if_false, decide_eq_true_iff, ne_eq,
    getBit_sign_eq_iff, Fits, toInt_eq a, toInt_eq b]
  split at hd <;> split <;> split <;> omega

/-- **The sign of the wrapped difference and its overflow agree exactly when the
exact difference is not negative.** -/
theorem sign_eq_overflow_iff (a b : Word) :
    overflowFrom a b false = bit (a - b) 31 ↔ b.toInt ≤ a.toInt := by
  have ha := a.isLt
  have hb := b.isLt
  have hd := toNat_sub_eq a b
  rw [Bool.eq_iff_iff, overflowFrom_sub_iff, bit_sign_iff, Fits, toInt_eq a, toInt_eq b]
  split at hd <;> split <;> split <;> omega

theorem sub_eq_zero_iff_eq (a b : Word) : (a - b == 0) = true ↔ a = b := by
  rw [beq_iff_eq]
  exact sub_eq_zero

/-! ### All the flags of a result -/

/-- The flags of `q` are those of the result `res`, with the carry that `c` says and
the exact signed value `x`, and the other bits of the CPSR are those of `p`. -/
structure ExactFlags (p q : ArmCore) (res : Word) (c : Prop) (x : Int) : Prop where
  n : bit (armReadCpsr q) flagN = bit res 31
  z : bit (armReadCpsr q) flagZ = true ↔ res = 0
  c : bit (armReadCpsr q) flagC = true ↔ c
  v : bit (armReadCpsr q) flagV = true ↔ ¬Fits x
  rest : ∀ j < 28, (armReadCpsr q).getLsbD j = (armReadCpsr p).getLsbD j

/-- N, Z and the rest are always right. -/
theorem exactFlags_setFlags_iff {p q : ArmCore} (h : armReadCpsr q = armReadCpsr p) (res : Word)
    (cBit vBit : Bool) (c : Prop) (x : Int) :
    ExactFlags p (armWriteCpsr q (setFlags (armReadCpsr q) res cBit vBit)) res c x ↔
      (cBit = true ↔ c) ∧ (vBit = true ↔ ¬Fits x) := by
  constructor
  · intro hf
    have hc := hf.c
    have hv := hf.v
    rw [armReadCpsr_writeCpsr, bit_setFlags_c] at hc
    rw [armReadCpsr_writeCpsr, bit_setFlags_v] at hv
    exact ⟨hc, hv⟩
  · rintro ⟨hc, hv⟩
    refine ⟨?_, ?_, ?_, ?_, ?_⟩
    · rw [armReadCpsr_writeCpsr, bit_setFlags_n]
    · rw [armReadCpsr_writeCpsr, bit_setFlags_z, beq_iff_eq]
    · rw [armReadCpsr_writeCpsr, bit_setFlags_c]
      exact hc
    · rw [armReadCpsr_writeCpsr, bit_setFlags_v]
      exact hv
    · intro j hj
      rw [armReadCpsr_writeCpsr, getLsbD_setFlags _ _ _ _ hj, h]

/-! ### Comparing and branching -/

/-- The comparison of `a` with `b` that a condition field asks for. -/
def comparison (a b : Word) : Nat → Prop
  | 0b0000 => a = b
  | 0b0001 => a ≠ b
  | 0b0010 => a.toNat ≥ b.toNat
  | 0b0011 => a.toNat < b.toNat
  | 0b0100 => (a - b).toInt < 0
  | 0b0101 => ¬(a - b).toInt < 0
  | 0b0110 => ¬Fits (a.toInt - b.toInt)
  | 0b0111 => Fits (a.toInt - b.toInt)
  | 0b1000 => a.toNat > b.toNat
  | 0b1001 => a.toNat ≤ b.toNat
  | 0b1010 => a.toInt ≥ b.toInt
  | 0b1011 => a.toInt < b.toInt
  | 0b1100 => a.toInt > b.toInt
  | 0b1101 => a.toInt ≤ b.toInt
  | 0b1110 => True
  | _ => False

/-- The four flags after `cmp`. -/
theorem cmp_flags (p : ArmCore) (rd : Fin 16) (a b : Word) (s : Bool) :
    let q := Alu.cmp p rd a b s
    bit (armReadCpsr q) flagN = bit (a - b) 31 ∧ bit (armReadCpsr q) flagZ = (a - b == 0) ∧
      bit (armReadCpsr q) flagC = !borrowFrom a b ∧
      bit (armReadCpsr q) flagV = overflowFrom a b false := by
  simp [Alu.cmp, updateFlags2]

/-- **After `cmp` every condition is the comparison it is named after**, for all
operands: unsigned through C, signed through N and V jointly. -/
theorem conditionPassed_cmp (p : ArmCore) (rd : Fin 16) (a b : Word) (s : Bool) (ins : Word) :
    conditionPassed (Alu.cmp p rd a b s) ins = true ↔
      comparison a b (getBits ins 31 28).toNat := by
  obtain ⟨hn, hz, hc, hv⟩ := cmp_flags p rd a b s
  have hZ := sub_eq_zero_iff_eq a b
  have hC := borrowFrom_iff a b
  have hN := bit_sign_iff_neg (a - b)
  have hV := overflowFrom_sub_iff a b
  have hS := sign_eq_overflow_iff a b
  have hU : a = b ↔ a.toNat = b.toNat := BitVec.toNat_inj.symm
  have hI : a = b ↔ a.toInt = b.toInt := BitVec.toInt_inj.symm
  simp only [conditionPassed, hn, hz, hc, hv]
  generalize (getBits ins 31 28).toNat = cond
  split
  -- EQ, NE, CS, CC, MI, PL, VS, VC: one flag or its negation
  · exact hZ
  · exact Bool.not_iff_not.trans (not_congr hZ)
  · exact Bool.not_iff_not.trans ((not_congr hC).trans not_lt)
  · rw [Bool.not_not]
    exact hC
  · exact hN
  · exact Bool.not_iff_not.trans (not_congr hN)
  · exact hV
  · exact Bool.not_iff_not.trans ((not_congr hV).trans not_not)
  -- HI, LS: C and Z
  · rw [Bool.and_eq_true, Bool.not_iff_not, Bool.not_iff_not, hC, hZ, hU]
    show _ ↔ a.toNat > b.toNat
    omega
  · rw [Bool.not_not, Bool.or_eq_true, hC, hZ, hU]
    show _ ↔ a.toNat ≤ b.toNat
    omega
  -- GE, LT, GT, LE: N and V, with Z for the strict orders
  · exact beq_iff_eq.trans hS
  · exact bne_iff_ne.trans ((not_congr hS).trans not_le)
  · rw [Bool.and_eq_true, Bool.not_iff_not, hZ, beq_iff_eq, hS, hI]
    show _ ↔ a.toInt > b.toInt
    omega
  · rw [Bool.or_eq_true, bne_iff_ne, ne_eq, hS, hZ, hI]
    show _ ↔ a.toInt ≤ b.toInt
    omega
  -- AL, and the field that never passes
  · exact iff_of_true rfl trivial
  · unfold comparison
    split <;> simp_all

end Armator
