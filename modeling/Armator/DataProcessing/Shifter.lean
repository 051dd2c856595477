import Armator.DataProcessing
import Armator.Lib.Shift

/-!
# The shifter

`decode_so` codes every kind of shift and every range of amounts as a case of its own,
for the value and for the carry.  This file compares it with the shifter that moves
the operand one place at a time (`Lib/Shift.lean`): `shifted kind n v c` is what `n`
places give, from the operand `v` and the carry flag `c`.

The immediate forms are that shifter, with the readings that an amount of 0 has for
LSR, ASR and ROR (`decodeSo_immediate`).  Of the shifts by a register, LSR and ASR
keep these readings, which are wrong for them: by an amount of 0 they shift by 32
(`registerShift_iff`).
-/

namespace Armator

/-! ### One place at a time -/

/-- One place of the shift that bits 6 and 5 select. -/
def shiftStep (kind : Nat) : Word × Bool → Word × Bool :=
  match kind with
  | 0 => Shift.lsl
  | 1 => Shift.lsr
  | 2 => Shift.asr
  | _ => Shift.ror

/-- A carry as `shifter_carry_out` holds it. -/
def carryWord (c : Bool) : Word := if c then 1 else 0

/-- The operand shifted by `n` places, with the carry. -/
def shifted (kind n : Nat) (v : Word) (c : Bool) : Word × Word :=
  let r := (shiftStep kind)^[n] (v, c)
  (r.1, carryWord r.2)

theorem shifted_zero (kind : Nat) (v : Word) (c : Bool) : shifted kind 0 v c = (v, carryWord c) :=
  rfl

theorem shifted_lsl {n : Nat} (h : 0 < n) (v : Word) (c : Bool) :
    shifted 0 n v c = (v <<< n, carryWord (v.getMsbD (n - 1))) := by
  rw [shifted, shiftStep, Shift.iterate_lsl, if_neg (by omega)]

theorem shifted_lsr {n : Nat} (h : 0 < n) (v : Word) (c : Bool) :
    shifted 1 n v c = (v >>> n, carryWord (v.getLsbD (n - 1))) := by
  rw [shifted, shiftStep, Shift.iterate_lsr, if_neg (by omega)]

theorem shifted_asr {n : Nat} (h : 0 < n) (v : Word) (c : Bool) :
    shifted 2 n v c = (v.sshiftRight n, carryWord ((v.sshiftRight (n - 1)).getLsbD 0)) := by
  rw [shifted, shiftStep, Shift.iterate_asr, if_neg (by omega)]

theorem shifted_ror {kind n : Nat} (hk : 3 ≤ kind) (h : 0 < n) (v : Word) (c : Bool) :
    shifted kind n v c = (v.rotateRight n, carryWord (v.getLsbD ((n - 1) % 32))) := by
  have hstep : shiftStep kind = Shift.ror := by
    unfold shiftStep
    split <;> first | rfl | omega
  rw [shifted, hstep, Shift.iterate_ror, if_neg (by omega),
    Shift.getLsbD_rotateRight_mod _ _ (by omega), Nat.zero_add]

/-! ### The host's shifts -/

theorem shl_eq (x : Word) {n : Nat} (h : n < 32) : shl x n = x <<< n := by
  rw [shl, Nat.mod_eq_of_lt h]

theorem shr_eq (x : Word) {n : Nat} (h : n < 32) : shr x n = x >>> n := by
  rw [shr, Nat.mod_eq_of_lt h]

theorem getBit_eq_carryWord (x : Word) {i : Nat} (h : i < 32) :
    getBit x i = carryWord (x.getLsbD i) := by
  rw [getBit_eq_ite, bit_eq_getLsbD x h, carryWord]

theorem getBit_flag (cpsr : Word) : getBit cpsr flagC = carryWord (bit cpsr flagC) :=
  getBit_eq_ite cpsr flagC

/-- **`ror` rotates.**  By 0 places, both of its halves are the word itself. -/
theorem ror_eq (v : Word) {n : Nat} (h : n < 32) : ror v n = v.rotateRight n := by
  rw [ror, BitVec.rotateRight_def, Nat.mod_eq_of_lt h, shr_eq v h]
  rcases Nat.eq_zero_or_pos n with rfl | hn
  · simp [shl]
  · rw [shl_eq v (by omega)]

theorem msb_eq_bit (v : Word) : v.msb = bit v 31 := by
  rw [bit_eq_getLsbD v (by decide), BitVec.msb_eq_getLsbD_last]

/-- **`asr` shifts in copies of the sign.** -/
theorem asr_eq (v : Word) {n : Nat} (h0 : 0 < n) (h : n < 32) : asr v n = v.sshiftRight n := by
  rw [asr, shr_eq v h, shl_eq _ (by omega), show (~~~0 : Word) = BitVec.allOnes 32 from rfl]
  apply BitVec.eq_of_getLsbD_eq
  intro i hi
  rw [BitVec.getLsbD_or, BitVec.getLsbD_ushiftRight, BitVec.getLsbD_sshiftRight, msb_eq_bit,
    decide_eq_false (by omega), Bool.not_false, Bool.true_and]
  by_cases hin : n + i < 32
  · -- a bit of the word, below the copies of the sign
    have hlt : i < 32 - n := by omega
    cases bit v 31 <;> simp [hin, hlt, hi]
  · have hge : ¬ i < 32 - n := by omega
    have hlt : i - (32 - n) < 32 := by omega
    rw [if_neg hin, BitVec.getLsbD_of_ge v (n + i) (by omega), Bool.false_or]
    cases bit v 31
    · simp
    · rw [if_pos rfl, BitVec.getLsbD_shiftLeft, BitVec.getLsbD_allOnes, decide_eq_true hi,
        decide_eq_false hge, decide_eq_true hlt]
      rfl

/-- A word shifted out entirely is its sign. -/
theorem sshiftRight_of_ge (v : Word) {n : Nat} (h : 32 ≤ n) :
    v.sshiftRight n = if getBit v 31 = 0 then 0 else -1 := by
  cases hb : bit v 31 with
  | false =>
    rw [getBit_eq_ite, hb, BitVec.sshiftRight_eq_of_msb_false (by rw [msb_eq_bit, hb]),
      BitVec.ushiftRight_eq_zero h]
    rfl
  | true =>
    rw [getBit_eq_ite, hb, BitVec.sshiftRight_eq_of_msb_true (by rw [msb_eq_bit, hb]),
      BitVec.ushiftRight_eq_zero h]
    rfl

theorem carry_sshiftRight_of_ge (v : Word) {n : Nat} (h : 32 ≤ n) :
    carryWord ((v.sshiftRight (n - 1)).getLsbD 0) = getBit v 31 := by
  have hb : (v.sshiftRight (n - 1)).getLsbD 0 = v.getLsbD 31 := by
    rw [BitVec.getLsbD_sshiftRight, Nat.add_zero, msb_eq_bit, bit_eq_getLsbD v (by decide)]
    by_cases hn : n = 32
    · rw [hn, if_pos (by decide)]
      rfl
    · rw [if_neg (by omega)]
      rfl
  rw [hb, getBit_eq_carryWord v (by decide)]

/-! ### Shifts by an immediate -/

theorem kind_cases {kind : Nat} (h : kind < 4) : kind = 0 ∨ kind = 1 ∨ kind = 2 ∨ kind = 3 := by
  omega

/-- Where the amount is not 0, nor out of the range of the host's shifts. -/
theorem decodeSoShiftImm_pos (cpsr rm : Word) {kind n : Nat} (hk : kind < 4) (hn : n < 32)
    (h : 0 < n) :
    decodeSoShiftImm cpsr rm kind n = shifted kind n rm (bit cpsr flagC) := by
  rcases kind_cases hk with rfl | rfl | rfl | rfl
  · rw [decodeSoShiftImm, if_neg (by omega), shifted_lsl h, shl_eq rm hn,
      getBit_eq_carryWord rm (by omega), BitVec.getMsbD_eq_getLsbD, decide_eq_true (by omega),
      Bool.true_and, show 32 - 1 - (n - 1) = 32 - n by omega]
  · rw [decodeSoShiftImm, if_neg (by omega), shifted_lsr h, shr_eq rm hn,
      getBit_eq_carryWord rm (by omega)]
  · rw [decodeSoShiftImm, if_neg (by omega), shifted_asr h, asr_eq rm h hn,
      getBit_eq_carryWord rm (by omega), BitVec.getLsbD_sshiftRight, if_pos (by omega),
      Nat.add_zero]
    rfl
  · rw [decodeSoShiftImm, if_neg (by omega), shifted_ror (Nat.le_refl 3) h, ror_eq rm hn,
      getBit_eq_carryWord rm (by omega), Nat.mod_eq_of_lt (by omega)]
    all_goals decide

/-- What a shift by an immediate stands for: an amount of 0 means 32 places for LSR
and ASR, and one place through the carry (RRX) for ROR. -/
def immediateShift (kind shiftImm : Nat) (rm : Word) (c : Bool) : Word × Word :=
  if kind = 3 ∧ shiftImm = 0 then
    (carryWord c <<< 31 ||| rm >>> 1, carryWord (rm.getLsbD 0))
  else shifted kind (if shiftImm = 0 ∧ (kind = 1 ∨ kind = 2) then 32 else shiftImm) rm c

theorem decodeSoShiftImm_zero (cpsr rm : Word) {kind : Nat} (hk : kind < 4) :
    decodeSoShiftImm cpsr rm kind 0 = immediateShift kind 0 rm (bit cpsr flagC) := by
  rcases kind_cases hk with rfl | rfl | rfl | rfl
  · rw [immediateShift, if_neg (by decide), if_neg (by decide), shifted_zero, ← getBit_flag]
    rfl
  · rw [immediateShift, if_neg (by decide), if_pos (by decide), shifted_lsr (by decide),
      BitVec.ushiftRight_eq_zero (Nat.le_refl 32), ← getBit_eq_carryWord rm (by decide)]
    rfl
  · rw [immediateShift, if_neg (by decide), if_pos (by decide), shifted_asr (by decide),
      sshiftRight_of_ge rm (Nat.le_refl 32), carry_sshiftRight_of_ge rm (Nat.le_refl 32)]
    rcases getBit_eq_zero_or_one rm 31 with e | e
    · rw [e, if_pos rfl]
      simp only [decodeSoShiftImm, e, if_true]
    · rw [e, if_neg (by decide)]
      simp only [decodeSoShiftImm, e, if_true]
      rfl
  · rw [immediateShift, if_pos (by decide), ← getBit_flag, ← getBit_eq_carryWord rm (by decide),
      ← shl_eq _ (by decide), ← shr_eq _ (by decide)]
    rfl

/-- **A register shifted by an immediate**, for every kind and amount. -/
theorem decodeSoShiftImm_eq (cpsr rm : Word) {kind shiftImm : Nat} (hk : kind < 4)
    (hn : shiftImm < 32) :
    decodeSoShiftImm cpsr rm kind shiftImm = immediateShift kind shiftImm rm (bit cpsr flagC) := by
  rcases Nat.eq_zero_or_pos shiftImm with rfl | h
  · exact decodeSoShiftImm_zero cpsr rm hk
  · rw [decodeSoShiftImm_pos cpsr rm hk hn h, immediateShift, if_neg (by omega), if_neg (by omega)]

/-- **An immediate is rotated by twice its rotate field.** -/
theorem decodeSoImmediate_eq (cpsr ins : Word) :
    decodeSoImmediate cpsr ins =
      shifted 3 (2 * (getBits ins 11 8).toNat) (getBits ins 7 0) (bit cpsr flagC) := by
  have hr : (getBits ins 11 8).toNat < 16 := toNat_getBits_lt ins (by decide) (by decide)
  rw [decodeSoImmediate, Nat.mul_comm, ror_eq _ (by omega)]
  by_cases h0 : getBits ins 11 8 = 0
  · rw [if_pos h0, h0, getBit_flag]
    exact congrArg (·, _) (Shift.rotateRight_zero _)
  · have hpos : 0 < (getBits ins 11 8).toNat := by
      rw [Nat.pos_iff_ne_zero]
      exact fun e => h0 (BitVec.eq_of_toNat_eq e)
    rw [if_neg h0, shifted_ror (by decide) (by omega), getBit_eq_carryWord _ (by decide),
      Shift.getLsbD_rotateRight_mod _ _ (by decide)]
    congr 3
    omega

/-! ### Shifts by a register -/

/-- By an amount that is not 0, however large. -/
theorem decodeSoShiftReg_pos (cpsr rm : Word) {kind n : Nat} (hk : kind < 4) (h : 0 < n) :
    decodeSoShiftReg cpsr rm kind n = shifted kind n rm (bit cpsr flagC) := by
  rcases kind_cases hk with rfl | rfl | rfl | rfl
  · rw [decodeSoShiftReg]
    rcases Nat.lt_trichotomy n 32 with hn | rfl | hn
    · rw [if_neg (by omega), if_neg (by omega), if_neg (by omega), ← decodeSoShiftImm_pos cpsr rm hk hn h,
        decodeSoShiftImm, if_neg (by omega)]
    · rw [if_pos rfl, shifted_lsl h, BitVec.shiftLeft_eq_zero (Nat.le_refl 32),
        getBit_eq_carryWord rm (by decide), BitVec.getMsbD_eq_getLsbD]
      rfl
    · rw [if_neg (by omega), if_pos hn, shifted_lsl h, BitVec.shiftLeft_eq_zero (by omega),
        BitVec.getMsbD_of_ge _ _ (by omega)]
      rfl
  · rw [decodeSoShiftReg]
    rcases Nat.lt_trichotomy n 32 with hn | rfl | hn
    · rw [if_neg (by omega), if_neg (by omega), if_neg (by omega), ← decodeSoShiftImm_pos cpsr rm hk hn h,
        decodeSoShiftImm, if_neg (by omega)]
    · rw [if_pos rfl, shifted_lsr h, BitVec.ushiftRight_eq_zero (Nat.le_refl 32),
        getBit_eq_carryWord rm (by decide)]
      rfl
    · rw [if_neg (by omega), if_pos hn, shifted_lsr h, BitVec.ushiftRight_eq_zero (by omega),
        BitVec.getLsbD_of_ge _ _ (by omega)]
      rfl
  · rw [decodeSoShiftReg]
    by_cases hn : 32 ≤ n
    · rw [if_pos hn, shifted_asr h, sshiftRight_of_ge rm hn, carry_sshiftRight_of_ge rm hn]
      split <;> rfl
    · rw [if_neg hn, if_neg (by omega), ← decodeSoShiftImm_pos cpsr rm hk (by omega) h,
        decodeSoShiftImm, if_neg (by omega)]
  · -- whole turns and the rest
    have hlt : n % 32 < 32 := Nat.mod_lt _ (by decide)
    rw [decodeSoShiftReg, if_neg (by omega), shifted_ror (Nat.le_refl 3) h,
      ← BitVec.rotateRight_mod_eq_rotateRight]
    by_cases h5 : n % 32 = 0
    · rw [if_pos h5, h5, Shift.rotateRight_zero, getBit_eq_carryWord rm (by decide),
        show (n - 1) % 32 = 31 by omega]
    · rw [if_neg h5, ror_eq rm hlt, getBit_eq_carryWord rm (by omega),
        show (n - 1) % 32 = n % 32 - 1 by omega]
    all_goals decide

/-- By an amount of 0, LSR and ASR leave the operand and the carry as they are only
where the sign says the same as all of them. -/
def ZeroShiftRight (kind : Nat) (rm : Word) (c : Bool) : Prop :=
  (kind = 1 → rm = 0 ∧ c = false) ∧
    (kind = 2 → rm = 0 ∧ c = false ∨ rm = -1 ∧ c = true)

theorem carryWord_inj {b c : Bool} : carryWord b = carryWord c ↔ b = c := by
  revert b c
  decide

theorem decodeSoShiftReg_zero_iff (cpsr rm : Word) {kind : Nat} (hk : kind < 4) :
    decodeSoShiftReg cpsr rm kind 0 = (rm, carryWord (bit cpsr flagC)) ↔
      ZeroShiftRight kind rm (bit cpsr flagC) := by
  generalize hc : bit cpsr flagC = c
  rcases kind_cases hk with rfl | rfl | rfl | rfl
  · rw [decodeSoShiftReg, getBit_flag, hc]
    simp [ZeroShiftRight]
  · rw [decodeSoShiftReg, if_neg (by decide), if_neg (by decide), if_pos rfl, Prod.mk.injEq]
    constructor
    · rintro ⟨rfl, hb⟩
      have hf : carryWord c = carryWord false := hb.symm
      exact ⟨fun _ => ⟨rfl, carryWord_inj.mp hf⟩, fun h => absurd h (by decide)⟩
    · intro h
      obtain ⟨rfl, rfl⟩ := h.1 rfl
      exact ⟨rfl, rfl⟩
  · rw [decodeSoShiftReg, if_neg (by decide), if_pos rfl]
    constructor
    · intro h
      refine ⟨fun h => absurd h (by decide), fun _ => ?_⟩
      split at h
      · obtain ⟨h0, hb⟩ := Prod.mk.inj h
        exact Or.inl ⟨h0.symm, (carryWord_inj (c := false)).mp hb.symm⟩
      · obtain ⟨h0, hb⟩ := Prod.mk.inj h
        exact Or.inr ⟨h0.symm, (carryWord_inj (c := true)).mp hb.symm⟩
    · intro h
      rcases h.2 rfl with ⟨rfl, rfl⟩ | ⟨rfl, rfl⟩
      · rfl
      · rfl
  · rw [decodeSoShiftReg, getBit_flag, hc]
    simp [ZeroShiftRight]
    all_goals decide

/-! ### The shifter operand -/

/-- `decode_so` returns the value of `r`, and leaves its carry in
`shifter_carry_out` and everything else as it was. -/
def Yields (p : ArmCore) (ins : Word) (r : Word × Word) : Prop :=
  decodeSo p ins = (r.1, { p with shifterCarryOut := r.2 })

theorem yields_iff (p : ArmCore) (ins : Word) (r : Word × Word) :
    Yields p ins r ↔ shifterOperand p ins = r := by
  rw [Yields, decodeSo]
  constructor
  · intro h
    obtain ⟨hv, hp⟩ := Prod.mk.inj h
    exact Prod.ext hv (congrArg ArmCore.shifterCarryOut hp)
  · rintro rfl
    rfl

section Operand

variable (p : ArmCore) (ins : Word)

theorem kind_lt : (getBits ins 6 5).toNat < 4 := toNat_getBits_lt ins (by decide) (by decide)

theorem shiftImm_lt : (getBits ins 11 7).toNat < 32 := toNat_getBits_lt ins (by decide) (by decide)

/-- **Immediate operands.**  `decode_so` gives what the one-bit shifter gives: for an
immediate, rotated right by twice the rotate field; and for a register shifted by an
immediate. -/
theorem decodeSo_immediate :
    (bit ins 25 = true →
      Yields p ins (shifted 3 (2 * (getBits ins 11 8).toNat) (getBits ins 7 0)
        (bit (armReadCpsr p) flagC))) ∧
    (bit ins 25 = false → bit ins 4 = false →
      Yields p ins (immediateShift (getBits ins 6 5).toNat (getBits ins 11 7).toNat
        (armReadRegister p (regNum (getBits ins 3 0))) (bit (armReadCpsr p) flagC))) := by
  simp only [yields_iff, shifterOperand]
  constructor
  · intro h25
    rw [if_pos h25, decodeSoImmediate_eq]
  · intro h25 h4
    rw [if_neg (by rw [h25]; decide), if_pos (by rw [h4]; rfl),
      decodeSoShiftImm_eq _ _ (kind_lt ins) (shiftImm_lt ins)]

/-- `and r0, r1, r2, ror #0` is read as RRX. -/
theorem decodeSo_immediate_rrx :
    Yields (coreOfWord 0) 0xE0010062 (0, 0) ∧ Yields (coreOfWord 0) 0xE201040F (0x0F000000, 0) :=
  ⟨(decodeSo_immediate _ _).2 (by decide) (by decide), (decodeSo_immediate _ _).1 (by decide)⟩

/-- **Shifts by a register.**  `decode_so` gives what as many steps of the one-bit
shifter give as the low byte of the register says, unless this is 0 and the shift is
LSR or ASR. -/
theorem registerShift_iff (h25 : bit ins 25 = false) (h4 : bit ins 4 = true) :
    let rm := armReadRegister p (regNum (getBits ins 3 0))
    let n := (armReadRegister p (regNum (getBits ins 11 8))).toNat % 256
    let c := bit (armReadCpsr p) flagC
    Yields p ins (shifted (getBits ins 6 5).toNat n rm c) ↔
      (n = 0 → ZeroShiftRight (getBits ins 6 5).toNat rm c) := by
  intro rm n c
  have hn : (armReadRegister p (regNum (getBits ins 11 8)) &&& 0xFF).toNat = n := by
    rw [BitVec.toNat_and]
    exact Nat.and_two_pow_sub_one_eq_mod _ 8
  rw [yields_iff, shifterOperand, if_neg (by rw [h25]; decide), if_neg (by rw [h4]; decide)]
  dsimp only
  rw [hn]
  rcases Nat.eq_zero_or_pos n with h0 | hpos
  · rw [h0, shifted_zero, decodeSoShiftReg_zero_iff _ _ (kind_lt ins)]
    exact ⟨fun h _ => h, fun h => h rfl⟩
  · rw [decodeSoShiftReg_pos _ _ (kind_lt ins) hpos]
    exact iff_of_true rfl fun h0 => absurd h0 (by omega)

end Operand

/-- `mov r0, r1, lsl r2` with 1 in r1 and 33 in r2. -/
theorem registerShift_lsl33 :
    Yields (armWriteRegister (armWriteRegister (coreOfWord 0) 1 1) 2 33) 0xE1A00211 (0, 0) :=
  (registerShift_iff _ 0xE1A00211 (by decide) (by decide)).mpr fun h => absurd h (by decide)

/-- `mov r0, r1, lsr r2` with 1 in r1 and 0 in r2: the operand is lost. -/
theorem lsr_by_zero_loses_operand :
    (decodeSo (armWriteRegister (coreOfWord 0) 1 1) 0xE1A00231).1 = 0 ∧
    ¬ ∀ (p : ArmCore) (ins : Word), bit ins 25 = false → bit ins 4 = true → bit ins 7 = false →
      Yields p ins (shifted (getBits ins 6 5).toNat
        ((armReadRegister p (regNum (getBits ins 11 8))).toNat % 256)
        (armReadRegister p (regNum (getBits ins 3 0))) (bit (armReadCpsr p) flagC)) := by
  refine ⟨by decide +kernel, ?_⟩
  intro h
  have hy := (yields_iff _ _ _).mp
    (h (armWriteRegister (coreOfWord 0) 1 1) 0xE1A00231 (by decide) (by decide) (by decide))
  exact absurd hy (by decide +kernel)

end Armator
