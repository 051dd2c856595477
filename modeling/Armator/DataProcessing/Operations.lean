import Armator.DataProcessing.Flags
import Armator.DataProcessing.Shifter

/-!
# The operations without carry

Eleven of the sixteen operations: the logical ones, the moves, and the differences of
two operands.  They have two ways of setting the flags.  C and V are those of the
shifter and of the CPSR, or those of a difference; `Operation.carry` and
`Operation.overflow` are the two in one (`select_writes`, `select_compares`).

`dataProcessing_operation` says everything an operation does: the value it writes, the
four flags, and that the rest of the machine stays as it was.
-/

namespace Armator

/-- The operations that do not add and do not use the carry. -/
inductive Operation
  | and
  | eor
  | sub
  | rsb
  | tst
  | teq
  | cmp
  | orr
  | mov
  | bic
  | mvn
  deriving DecidableEq, Repr

namespace Operation

def opcode : Operation → Nat
  | and => 0b0000
  | eor => 0b0001
  | sub => 0b0010
  | rsb => 0b0011
  | tst => 0b1000
  | teq => 0b1001
  | cmp => 0b1010
  | orr => 0b1100
  | mov => 0b1101
  | bic => 0b1110
  | mvn => 0b1111

/-- The operations that only set the flags. -/
def compares : Operation → Bool
  | tst => true
  | teq => true
  | cmp => true
  | _ => false

def result (o : Operation) (rn op2 : Word) : Word :=
  match o with
  | and => rn &&& op2
  | eor => rn ^^^ op2
  | sub => rn - op2
  | rsb => op2 - rn
  | tst => rn &&& op2
  | teq => rn ^^^ op2
  | cmp => rn - op2
  | orr => rn ||| op2
  | mov => op2
  | bic => rn &&& ~~~op2
  | mvn => ~~~op2

/-- The minuend and the subtrahend of an operation that subtracts. -/
def difference (o : Operation) (rn op2 : Word) : Option (Word × Word) :=
  match o with
  | sub => some (rn, op2)
  | cmp => some (rn, op2)
  | rsb => some (op2, rn)
  | _ => none

/-- The C flag of an operation, `sc` being the carry of the shifter: a difference that
takes no borrow sets it. -/
def carry (o : Operation) (rn op2 sc : Word) : Bool :=
  match o.difference rn op2 with
  | some (a, b) => decide (a.toNat ≥ b.toNat)
  | none => sc != 0

/-- The V flag of an operation, `v` being the one before it: a difference sets it that is
not a signed word. -/
def overflow (o : Operation) (rn op2 : Word) (v : Bool) : Bool :=
  match o.difference rn op2 with
  | some (a, b) => decide (¬Fits (a.toInt - b.toInt))
  | none => v

/-- The core with the flags of an operation. -/
def flags (o : Operation) (rn op2 : Word) (p : ArmCore) : ArmCore :=
  armWriteCpsr p (setFlags (armReadCpsr p) (o.result rn op2) (o.carry rn op2 p.shifterCarryOut)
    (o.overflow rn op2 (bit (armReadCpsr p) flagV)))

end Operation

/-! ### The two families of flags -/

theorem albit_bit_self (x : Word) {i : Nat} (h : i < 32) : albit x i (bit x i) = x := by
  apply BitVec.eq_of_getLsbD_eq
  intro j _
  rw [getLsbD_albit x h]
  by_cases hj : j = i
  · rw [if_pos hj, hj, bit_eq_getLsbD x h]
  · rw [if_neg hj]

/-- `update_flags1` sets V to what it is. -/
theorem updateFlags1_eq (p : ArmCore) (res : Word) :
    updateFlags1 p res =
      armWriteCpsr p (setFlags (armReadCpsr p) res (p.shifterCarryOut != 0)
        (bit (armReadCpsr p) flagV)) := by
  have hv : ∀ c : Bool, bit (albit (albit (albit (armReadCpsr p) flagN (bit res 31)) flagZ (res == 0))
      flagC c) flagV = bit (armReadCpsr p) flagV := by
    intro c
    simp [bit_albit, flagN, flagZ, flagC, flagV]
  rw [updateFlags1, setFlags, ← hv (p.shifterCarryOut != 0), albit_bit_self _ (by decide)]

theorem updateFlags2_eq (p : ArmCore) (res a b : Word) :
    updateFlags2 p res a b =
      armWriteCpsr p (setFlags (armReadCpsr p) res (decide (a.toNat ≥ b.toNat))
        (decide (¬Fits (a.toInt - b.toInt)))) := by
  have hc : (!borrowFrom a b) = decide (a.toNat ≥ b.toNat) := by
    rw [Bool.eq_iff_iff, decide_eq_true_iff]
    exact Bool.not_iff_not.trans ((not_congr (borrowFrom_iff a b)).trans not_lt)
  have hv : overflowFrom a b false = decide (¬Fits (a.toInt - b.toInt)) := by
    rw [Bool.eq_iff_iff, decide_eq_true_iff]
    exact overflowFrom_sub_iff a b
  rw [updateFlags2, hc, hv]

/-- An operation that writes a register. -/
theorem select_writes {o : Operation} (h : o.compares = false) (p : ArmCore) (rd : Fin 16)
    (rn op2 : Word) (s : Bool) :
    Alu.select o.opcode p rd rn op2 s =
      Alu.aluWrite (o.flags rn op2) p rd (o.result rn op2) s := by
  have hlogical : ∀ res, (fun q => updateFlags1 q res) = fun q =>
      armWriteCpsr q (setFlags (armReadCpsr q) res (q.shifterCarryOut != 0)
        (bit (armReadCpsr q) flagV)) := by
    intro res
    funext q
    exact updateFlags1_eq q res
  have hdifference : ∀ res a b, (fun q => updateFlags2 q res a b) = fun q =>
      armWriteCpsr q (setFlags (armReadCpsr q) res (decide (a.toNat ≥ b.toNat))
        (decide (¬Fits (a.toInt - b.toInt)))) := by
    intro res a b
    funext q
    exact updateFlags2_eq q res a b
  cases o with
  | tst => cases h
  | teq => cases h
  | cmp => cases h
  | sub => exact congrArg (Alu.aluWrite · p rd _ s) (hdifference _ _ _)
  | rsb => exact congrArg (Alu.aluWrite · p rd _ s) (hdifference _ _ _)
  | and => exact congrArg (Alu.aluWrite · p rd _ s) (hlogical _)
  | eor => exact congrArg (Alu.aluWrite · p rd _ s) (hlogical _)
  | orr => exact congrArg (Alu.aluWrite · p rd _ s) (hlogical _)
  | mov => exact congrArg (Alu.aluWrite · p rd _ s) (hlogical _)
  | bic => exact congrArg (Alu.aluWrite · p rd _ s) (hlogical _)
  | mvn => exact congrArg (Alu.aluWrite · p rd _ s) (hlogical _)

/-- An operation that does not. -/
theorem select_compares {o : Operation} (h : o.compares = true) (p : ArmCore) (rd : Fin 16)
    (rn op2 : Word) (s : Bool) :
    Alu.select o.opcode p rd rn op2 s = o.flags rn op2 p := by
  cases o with
  | tst => exact updateFlags1_eq p _
  | teq => exact updateFlags1_eq p _
  | cmp => exact updateFlags2_eq p _ _ _
  | _ => cases h

/-! ### The carry of the shifter -/

theorem shifterOperand_carry (p : ArmCore) (ins : Word) :
    ∃ c, (shifterOperand p ins).2 = carryWord c := by
  have hreg : ∀ cpsr rm kind, kind < 4 →
      ∃ c, (decodeSoShiftReg cpsr rm kind 0).2 = carryWord c := by
    intro cpsr rm kind hk
    rcases kind_cases hk with rfl | rfl | rfl | rfl
    · exact ⟨_, getBit_flag cpsr⟩
    · exact ⟨_, getBit_eq_carryWord rm (by decide)⟩
    · rw [decodeSoShiftReg, if_neg (by decide), if_pos rfl]
      split
      · exact ⟨false, rfl⟩
      · exact ⟨true, rfl⟩
    · exact ⟨_, getBit_flag cpsr⟩
  rw [shifterOperand]
  dsimp only
  split
  · rw [decodeSoImmediate_eq]
    exact ⟨_, rfl⟩
  · split
    · rw [decodeSoShiftImm_eq _ _ (kind_lt ins) (shiftImm_lt ins), immediateShift]
      split
      · exact ⟨_, rfl⟩
      · exact ⟨_, rfl⟩
    · rcases Nat.eq_zero_or_pos
        (armReadRegister p (regNum (getBits ins 11 8)) &&& 0xFF).toNat with h0 | hpos
      · rw [h0]
        exact hreg _ _ _ (kind_lt ins)
      · rw [decodeSoShiftReg_pos _ _ (kind_lt ins) hpos]
        exact ⟨_, rfl⟩

/-! ### What an operation does -/

/-- The CPSR of `q` has the flags of the operation, and the other bits of that of `p`. -/
structure OperationFlags (p q : ArmCore) (o : Operation) (rn op2 sc : Word) : Prop where
  n : bit (armReadCpsr q) flagN = bit (o.result rn op2) 31
  z : bit (armReadCpsr q) flagZ = true ↔ o.result rn op2 = 0
  logical : o.difference rn op2 = none →
    getBit (armReadCpsr q) flagC = sc ∧ bit (armReadCpsr q) flagV = bit (armReadCpsr p) flagV
  subtracts : ∀ a b, o.difference rn op2 = some (a, b) →
    (bit (armReadCpsr q) flagC = true ↔ a.toNat ≥ b.toNat) ∧
      (bit (armReadCpsr q) flagV = true ↔ ¬Fits (a.toInt - b.toInt))
  rest : ∀ j < 28, (armReadCpsr q).getLsbD j = (armReadCpsr p).getLsbD j

theorem operationFlags_flags {p q : ArmCore} {c : Bool} (h : armReadCpsr q = armReadCpsr p)
    (hc : q.shifterCarryOut = carryWord c) (o : Operation) (rn op2 : Word) :
    OperationFlags p (o.flags rn op2 q) o rn op2 (carryWord c) := by
  refine ⟨?_, ?_, ?_, ?_, ?_⟩
  · rw [Operation.flags, armReadCpsr_writeCpsr, bit_setFlags_n]
  · rw [Operation.flags, armReadCpsr_writeCpsr, bit_setFlags_z, beq_iff_eq]
  · intro hd
    rw [Operation.flags, armReadCpsr_writeCpsr, getBit_eq_ite, bit_setFlags_c, bit_setFlags_v,
      Operation.carry, Operation.overflow, hd, hc, h]
    exact ⟨by cases c <;> rfl, rfl⟩
  · intro a b hd
    rw [Operation.flags, armReadCpsr_writeCpsr, bit_setFlags_c, bit_setFlags_v, Operation.carry,
      Operation.overflow, hd]
    exact ⟨decide_eq_true_iff, decide_eq_true_iff⟩
  · intro j hj
    rw [Operation.flags, armReadCpsr_writeCpsr, getLsbD_setFlags _ _ _ _ hj, h]

/-- `q` is what the operation makes of `p`: the value in `rd`, the flags when the S bit
is set, and nothing else. -/
structure OperationEffect (p q : ArmCore) (o : Operation) (rd : Fin 16) (s : Bool)
    (rn op2 sc : Word) : Prop where
  result : o.compares = false → armReadRegister q rd = o.result rn op2
  flags : s = true → OperationFlags p q o rn op2 sc
  cpsr : s = false → armReadCpsr q = armReadCpsr p
  registers : ∀ c ≠ cpsrCell, o.compares = true ∨ c ≠ cell (getModeNum p.reg) rd.castSucc →
    q.reg.registers c = p.reg.registers c
  mode : q.reg.mode = p.reg.mode
  mem : q.mem = p.mem

theorem armWriteCpsr_registers (p : ArmCore) (value : Word) {c : Fin 37} (h : c ≠ cpsrCell) :
    (armWriteCpsr p value).reg.registers c = p.reg.registers c := by
  rw [armWriteCpsr, writeCpsr_eq]
  exact Registers.set_of_ne _ _ h

theorem armWriteRegister_registers (p : ArmCore) {rd : Fin 16} (value : Word) {c : Fin 37}
    (h : c ≠ cell (getModeNum p.reg) rd.castSucc) :
    (armWriteRegister p rd value).reg.registers c = p.reg.registers c :=
  Registers.set_of_ne _ _ h

theorem effect_writes {p : ArmCore} {o : Operation} {rd : Fin 16} (ho : o.compares = false)
    (h : rd ≠ 15) (s : Bool) (rn op2 : Word) {c : Bool} (hc : p.shifterCarryOut = carryWord c) :
    OperationEffect p (Alu.select o.opcode p rd rn op2 s) o rd s rn op2 (carryWord c) := by
  rw [select_writes ho]
  cases s with
  | false =>
    have he : Alu.aluWrite (o.flags rn op2) p rd (o.result rn op2) false =
        armWriteRegister p rd (o.result rn op2) := by
      simp [Alu.aluWrite, handleRd15]
    rw [he]
    refine ⟨?_, ?_, ?_, ?_, rfl, rfl⟩
    · intro _
      exact armReadRegister_write_same _ _ h
    · intro hs
      cases hs
    · intro _
      exact armReadCpsr_writeRegister ..
    · intro c _ hcell
      rcases hcell with hcell | hcell
      · rw [ho] at hcell
        cases hcell
      · exact armWriteRegister_registers p _ hcell
  | true =>
    rw [Alu.aluWrite_flags _ _ _ h]
    refine ⟨?_, ?_, ?_, ?_, rfl, rfl⟩
    · intro _
      rw [Operation.flags, armReadRegister_writeCpsr, armReadRegister_write_same _ _ h]
    · intro _
      exact operationFlags_flags (armReadCpsr_writeRegister p rd (o.result rn op2)) hc o rn op2
    · intro hs
      cases hs
    · intro c hcpsr hcell
      rcases hcell with hcell | hcell
      · rw [ho] at hcell
        cases hcell
      · rw [Operation.flags, armWriteCpsr_registers _ _ hcpsr, armWriteRegister_registers _ _ hcell]

theorem effect_compares {p : ArmCore} {o : Operation} (rd : Fin 16) (ho : o.compares = true)
    (rn op2 : Word) {c : Bool} (hc : p.shifterCarryOut = carryWord c) :
    OperationEffect p (Alu.select o.opcode p rd rn op2 true) o rd true rn op2 (carryWord c) := by
  rw [select_compares ho]
  refine ⟨?_, ?_, ?_, ?_, rfl, rfl⟩
  · intro h
    rw [ho] at h
    cases h
  · intro _
    exact operationFlags_flags rfl hc o rn op2
  · intro hs
    cases hs
  · intro c hcpsr _
    exact armWriteCpsr_registers _ _ hcpsr

/-- **What the operations without carry do**, with the operands and the carry that
`decode_so` yields, to any register but r15. -/
theorem dataProcessing_operation (p : ArmCore) (ins : Word) (o : Operation)
    (ho : (getBits ins 24 21).toNat = o.opcode)
    (h : o.compares = false ∧ regNum (getBits ins 15 12) ≠ 15 ∨
      o.compares = true ∧ bit ins 20 = true) :
    (armDataProcessingShift p ins).1 = 0 ∧
      OperationEffect p (armDataProcessingShift p ins).2 o (regNum (getBits ins 15 12)) (bit ins 20)
        (armReadRegister p (regNum (getBits ins 19 16))) (decodeSo p ins).1
        (decodeSo p ins).2.shifterCarryOut := by
  obtain ⟨c, hc⟩ := shifterOperand_carry p ins
  have hsc : (decodeSo p ins).2.shifterCarryOut = carryWord c := hc
  refine ⟨rfl, ?_⟩
  -- the core that `decode_so` leaves differs from `p` in the carry of the shifter only
  have heffect : OperationEffect (decodeSo p ins).2 (armDataProcessingShift p ins).2 o
      (regNum (getBits ins 15 12)) (bit ins 20) (armReadRegister p (regNum (getBits ins 19 16)))
      (decodeSo p ins).1 (carryWord c) := by
    rw [armDataProcessingShift, ho]
    rcases h with ⟨hw, hrd⟩ | ⟨hcmp, hs⟩
    · exact effect_writes hw hrd _ _ _ hsc
    · rw [hs]
      exact effect_compares _ hcmp _ _ hsc
  rw [hsc]
  exact ⟨heffect.result, fun hs => ⟨(heffect.flags hs).n, (heffect.flags hs).z,
    (heffect.flags hs).logical, (heffect.flags hs).subtracts, (heffect.flags hs).rest⟩,
    heffect.cpsr, heffect.registers, heffect.mode, heffect.mem⟩

/-- `rsbs r1, r1, r2` and `teq r1, r2` with 1 in r1 and 3 in r2. -/
theorem dataProcessing_operation_rsbs_teq :
    let p := armWriteRegister (armWriteRegister (coreOfWord 0) 1 1) 2 3
    OperationEffect p (armDataProcessingShift p 0xE0711002).2 .rsb 1 true 1 3 0 ∧
      OperationEffect p (armDataProcessingShift p 0xE1310002).2 .teq 0 true 1 3 0 :=
  ⟨(dataProcessing_operation _ 0xE0711002 .rsb (by decide) (Or.inl (by decide))).2,
    (dataProcessing_operation _ 0xE1310002 .teq (by decide) (Or.inr (by decide))).2⟩

end Armator
