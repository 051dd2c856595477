import Armator.Lib.Hoare
import Armator.LoadStore.Stack
import Armator.Machine.Assembly

/-!
# The simulator follows the machine

Each instruction class of the simulator, handed the word of an `Instr`, shows what the
instruction does to what was shown (`Displays.dispatch_ok`).  So a step of the simulator is
the step of `Visible` (`step_displays`), and any number of them are (`simulator_runs`): the
core shows what the machine has come to, hides what it hid, has counted the steps, and no
step has raised an exception.
-/

namespace Armator

/-! ### Words and operations -/

theorem select_additive (o : Additive) (p : ArmCore) (rd : Fin 16) (rn op2 : Word)
    {n : Nat} (h : Additive.ofOpcode n = some o) :
    Alu.select n p rd rn op2 false =
      armWriteRegister p rd (o.result rn op2 (bit (armReadCpsr p) flagC)) := by
  have hplain : ∀ (flags : ArmCore → ArmCore) (res : Word),
      Alu.aluWrite flags p rd res false = armWriteRegister p rd res := by
    intro flags res
    simp [Alu.aluWrite, handleRd15]
  have hborrow : Alu.notCarry p = carryWord (!bit (armReadCpsr p) flagC) := by
    rw [Alu.notCarry, carryWord]
    cases bit (armReadCpsr p) flagC <;> rfl
  unfold Additive.ofOpcode at h
  split at h
  · cases h
    exact hplain (updateFlags3 · (rn + op2) rn op2) _
  · cases h
    rw [Additive.result, ← getBit_flag]
    exact hplain (Alu.adcFlags · (rn + op2 + getBit (armReadCpsr p) flagC) rn op2) _
  · cases h
    rw [Additive.result, ← hborrow]
    exact hplain (Alu.sbcFlags · (rn - op2 - Alu.notCarry p) rn op2) _
  · cases h
    rw [Additive.result, ← hborrow]
    exact hplain (Alu.sbcFlags · (op2 - rn - Alu.notCarry p) op2 rn) _
  · cases h

theorem Operation.eq_opcode {n : Nat} {o : Operation} (h : Operation.ofOpcode n = some o) :
    n = o.opcode := by
  unfold Operation.ofOpcode at h
  split at h <;> cases h <;> rfl

/-- The operations that `mrs` and `msr` take the place of are not read off. -/
theorem decodeData_not_status {ins : Word} {i : Instr} (h : decodeData ins = some i) :
    ¬ (bit ins 24 = true ∧ ¬ bit ins 23 = true ∧ ¬ bit ins 20 = true) := by
  rintro ⟨h24, h23, h20⟩
  have hop : 8 ≤ (getBits ins 24 21).toNat ∧ (getBits ins 24 21).toNat < 12 := by
    rw [bit_iff ins (by decide)] at h24 h23
    rw [toNat_getBits ins (by decide) (by decide)]
    omega
  have hs : bit ins 20 = false := Bool.eq_false_iff.mpr h20
  rw [decodeData] at h
  generalize (getBits ins 24 21).toNat = n at h hop
  obtain ⟨hl, hr⟩ := hop
  interval_cases n <;> simp [Operation.ofOpcode, Additive.ofOpcode, Operation.compares, hs] at h

/-- The classes of the single transfers have bit 26. -/
theorem bit_of_transfer {ins : Word} {n : Nat} (hn : n = 2 ∨ n = 3)
    (h : (getBits ins 27 25).toNat = n) : bit ins 26 = true := by
  rw [toNat_getBits ins (by decide) (by decide)] at h
  rw [bit_iff ins (by decide)]
  omega

/-! ### The exit -/

theorem loads_ne_exit (m : Visible) (address : Word) (l : List (Fin 16)) :
    m.loads address l ≠ .error .exit := by
  induction l generalizing m address with
  | nil =>
    intro h
    cases h
  | cons i l ih =>
    intro h
    rw [Visible.loads] at h
    split at h
    · exact ih _ _ h
    · cases h

theorem stores_ne_exit (m : Visible) (address : Word) (l : List (Fin 16)) :
    m.stores address l ≠ .error .exit := by
  induction l generalizing m address with
  | nil =>
    intro h
    cases h
  | cons i l ih =>
    intro h
    rw [Visible.stores] at h
    split at h
    · exact ih _ _ h
    · cases h

theorem block_ne_exit (m : Visible) (load : Bool) (rn : Fin 16) (l : List (Fin 16))
    (pBit wBit : Bool) : m.block load rn l pBit wBit ≠ .error .exit := by
  intro h
  have hmap : ∀ {x : Except Ending Visible} {f : Visible → Visible},
      x ≠ .error .exit → x.map f ≠ .error .exit := by
    intro x f hx hf
    cases x with
    | ok m' => cases hf
    | error e =>
      cases hf
      exact hx rfl
  refine hmap ?_ h
  cases load with
  | true => exact loads_ne_exit m _ l
  | false => exact stores_ne_exit m _ l

/-- Only `Instr.exit` exits. -/
theorem exec_exit {m : Visible} {i : Instr} (he : i.exec m = .error .exit) : i = .exit := by
  cases i with
  | operation o sBit rd rn x =>
    rw [Instr.exec] at he
    split at he <;> cases he
  | additive o rd rn x =>
    rw [Instr.exec] at he
    split at he <;> cases he
  | transfer t rd rn x pBit uBit wBit =>
    rw [Instr.exec, Visible.transfer] at he
    split at he
    · split at he <;> cases he
    · cases he
  | block load rn l pBit wBit => exact absurd he (block_ne_exit m load rn l pBit wBit)
  | branch link offset => cases he
  | exit => rfl

theorem decodeData_ne_exit (ins : Word) : decodeData ins ≠ some .exit := by
  intro h
  simp only [decodeData] at h
  split at h
  · split at h <;> cases h
  · split at h <;> cases h
  · cases h

/-- The simulator decodes the exit as `decodeInstr` does. -/
theorem dispatch_exit (q : ArmCore) {ins : Word} (hi : decodeInstr ins = some .exit) :
    armDispatch q ins = .error .exited := by
  unfold decodeInstr at hi
  split at hi
  case h_7 hcl =>
    split at hi
    next hx =>
      rw [armDispatch, hcl]
      show armCoprocessorOthersSwi q ins = .error .exited
      rw [armCoprocessorOthersSwi, if_pos hx.1, if_pos hx.2]
    next => cases hi
  case h_1 =>
    split at hi
    · cases hi
    · exact absurd hi (decodeData_ne_exit ins)
  case h_2 => exact absurd hi (decodeData_ne_exit ins)
  case h_4 => split at hi <;> cases hi
  case h_5 => split at hi <;> cases hi
  all_goals cases hi

/-! ### The loops of the block transfers -/

/-- The loop of an incrementing `ldm`, which nothing aborts. -/
theorem Displays.loads {p : ArmCore} {b : Block} {m m' : Visible} (hb : Displays p b.p m)
    {l : List (Fin 16)} (he : m.loads b.address l = .ok m') :
    Displays p (ldmBlock armWriteRegister 4 b l).p m' ∧
      (ldmBlock armWriteRegister 4 b l).failed = b.failed := by
  induction l generalizing b m with
  | nil =>
    cases he
    exact ⟨hb, rfl⟩
  | cons i l ih =>
    rw [Visible.loads] at he
    split at he
    next hin =>
      have hread : armReadWord b.p b.address = some (m.mem.value b.address 4) := by
        rw [← hb.mem_eq] at hin ⊢
        exact read_inMemory .word hin
      have hstep : ldmRegister armWriteRegister (loaded i) 4 b i =
          ⟨armWriteRegister b.p i (loaded i (m.mem.value b.address 4)), b.address + 4,
            m.mem.value b.address 4, b.failed⟩ := by
        simp only [ldmRegister, hread, Option.getD_some, Option.isNone_some, Bool.or_false]
      obtain ⟨hd, hf⟩ := @ih (ldmRegister armWriteRegister (loaded i) 4 b i) _
        (by rw [hstep]; exact hb.write _ _) (by rw [hstep]; exact he)
      exact ⟨hd, hf.trans (by rw [hstep])⟩
    next => cases he

/-- The loop of an incrementing `stm`, which nothing aborts. -/
theorem Displays.stores {p : ArmCore} {b : Block} {m m' : Visible} (hb : Displays p b.p m)
    (ha : (m.r 15).toNat % 4 = 0) {l : List (Fin 16)} (he : m.stores b.address l = .ok m') :
    Displays p (stmBlock armReadRegister 4 b l).p m' ∧
      (stmBlock armReadRegister 4 b l).failed = b.failed := by
  induction l generalizing b m with
  | nil =>
    cases he
    exact ⟨hb, rfl⟩
  | cons i l ih =>
    rw [Visible.stores] at he
    split at he
    next hin =>
      have hread := hb.armReadRegister_eq ha i
      have hwrite : armWriteWord b.p b.address (m.read i) =
          (0, { b.p with mem := m.mem.stored b.address 4 (m.read i) }) := by
        rw [← hb.mem_eq] at hin ⊢
        exact write_inMemory .word (m.read i) hin
      have hstep : stmRegister armReadRegister 4 b i =
          ⟨{ b.p with mem := m.mem.stored b.address 4 (m.read i) }, b.address + 4, m.read i,
            b.failed⟩ := by
        rw [stmRegister, hread]
        simp only [hwrite, bne_self_eq_false, Bool.or_false]
      obtain ⟨hd, hf⟩ := @ih (stmRegister armReadRegister 4 b i)
        { m with mem := m.mem.stored b.address 4 (m.read i) }
        (by rw [hstep]; exact hb.store _) ha (by rw [hstep]; exact he)
      exact ⟨hd, hf.trans (by rw [hstep])⟩
    next => cases he

/-- The end of an incrementing block transfer that nothing has aborted. -/
theorem Displays.blockEnd {p : ArmCore} {b : Block} {m : Visible} (hb : Displays p b.p m)
    {ins : Word} (hf : b.failed = false) {n : Nat} {base : Word}
    (haddr : b.address = blockStart ins base + (n : Word) * 4) :
    ∃ u, Armator.blockEnd ins b = (0, u) ∧
      Displays p u
        (if bit ins 21 then m.write (regNum (getBits ins 19 16)) (base + (n : Word) * 4) else m) := by
  have hbase : blockBase ins b.address = base + (n : Word) * 4 := by
    rw [haddr, blockBase_blockStart]
  rw [Armator.blockEnd, hf, hbase, if_neg Bool.false_ne_true]
  refine ⟨_, rfl, ?_⟩
  cases bit ins 21 with
  | true => exact hb.write _ _
  | false => exact hb

/-! ### The instruction classes -/

section Classes

variable {p q : ArmCore} {m : Visible} (h : Displays p q m) (ha : (m.r 15).toNat % 4 = 0)

include h

theorem Displays.conditionPassed_eq (ins : Word) :
    conditionPassed q ins = m.passes (getBits ins 31 28).toNat := by
  rw [← h.visible]
  rfl

/-- An operation whose flags are exact. -/
theorem Displays.operation (o : Operation) (sBit : Bool) (rd : Fin 16) (rn op2 : Word) {c : Word}
    (hc : q.shifterCarryOut = c)
    (hs : o.compares = true ∧ sBit = true ∨ o.compares = false ∧ (rd = 15 → sBit = false)) :
    Displays p (Alu.select o.opcode q rd rn op2 sBit) (m.operation o sBit rd rn (op2, c)) := by
  rw [Visible.operation]
  rcases hs with ⟨hcmp, rfl⟩ | ⟨hcmp, hrd⟩
  · rw [select_compares hcmp, if_pos hcmp, if_pos rfl, Operation.flags, hc, h.v_eq]
    exact h.setFlags ..
  · rw [select_writes hcmp, if_neg (show ¬ o.compares = true by rw [hcmp]; decide)]
    have hw := h.write rd (o.result rn op2)
    cases sBit with
    | false =>
      have hplain : Alu.aluWrite (o.flags rn op2) q rd (o.result rn op2) false =
          armWriteRegister q rd (o.result rn op2) := by
        simp [Alu.aluWrite, handleRd15]
      rw [hplain, if_neg Bool.false_ne_true]
      exact hw
    | true =>
      have h15 : rd ≠ 15 := fun e => absurd (hrd e) (by decide)
      have hv : bit (armReadCpsr (armWriteRegister q rd (o.result rn op2))) flagV = m.v := hw.v_eq
      have hcw : (armWriteRegister q rd (o.result rn op2)).shifterCarryOut = c := hc
      rw [Alu.aluWrite_flags _ _ _ h15, if_pos rfl, Operation.flags, hv, hcw]
      exact hw.setFlags ..

theorem Displays.writtenBack (rn : Fin 16) (base off : Word) (pBit uBit wBit : Bool) :
    Displays p (writeBack q rn base off pBit uBit wBit)
      (m.writtenBack rn base off pBit uBit wBit) := by
  have hw := h.write rn (transferAddress base off uBit)
  rw [writeBack, Visible.writtenBack]
  cases pBit <;> cases wBit
  all_goals first | exact h | exact hw

include ha

theorem Displays.immediateShift_eq (ins : Word) :
    decodeSoShiftImm (armReadCpsr q) (armReadRegister q (regNum (getBits ins 3 0)))
      (getBits ins 6 5).toNat (getBits ins 11 7).toNat = (decodeRegister ins).value m := by
  rw [decodeSoShiftImm_eq _ _ (kind_lt ins) (shiftImm_lt ins), h.armReadRegister_eq ha, h.c_eq]
  rfl

theorem Displays.byRegister_eq {ins : Word}
    (hk : (Operand.byRegister (regNum (getBits ins 3 0)) (getBits ins 6 5).toNat
      (regNum (getBits ins 11 8))).known m = true) :
    decodeSoShiftReg (armReadCpsr q) (armReadRegister q (regNum (getBits ins 3 0)))
        (getBits ins 6 5).toNat
        (armReadRegister q (regNum (getBits ins 11 8)) &&& 0xFF).toNat =
      (Operand.byRegister (regNum (getBits ins 3 0)) (getBits ins 6 5).toNat
        (regNum (getBits ins 11 8))).value m := by
  have hn : ∀ w : Word, (w &&& 0xFF).toNat = w.toNat % 256 := by
    intro w
    rw [BitVec.toNat_and]
    exact Nat.and_two_pow_sub_one_eq_mod _ 8
  rw [hn, h.armReadRegister_eq ha, h.armReadRegister_eq ha, Operand.value, ← h.c_eq]
  rw [Operand.known, decide_eq_true_iff] at hk
  rcases Nat.eq_zero_or_pos ((m.read (regNum (getBits ins 11 8))).toNat % 256) with h0 | hpos
  · rw [h0, shifted_zero]
    apply (decodeSoShiftReg_zero_iff _ _ (kind_lt ins)).mpr
    constructor
    · intro h1
      omega
    · intro h2
      omega
  · exact decodeSoShiftReg_pos _ _ (kind_lt ins) hpos

/-- `decode_so`, for the operands that are read off. -/
theorem Displays.decodeSo_eq {ins : Word} (hk : (decodeOperand ins).known m = true) :
    decodeSo q ins = (((decodeOperand ins).value m).1,
      { q with shifterCarryOut := ((decodeOperand ins).value m).2 }) := by
  have hso : shifterOperand q ins = (decodeOperand ins).value m := by
    rw [shifterOperand]
    rw [decodeOperand] at hk ⊢
    dsimp only
    cases h25 : bit ins 25 with
    | true =>
      rw [if_pos rfl, if_pos rfl, decodeSoImmediate_eq, h.c_eq]
      rfl
    | false =>
      rw [h25, if_neg Bool.false_ne_true] at hk
      rw [if_neg Bool.false_ne_true, if_neg Bool.false_ne_true]
      cases h4 : bit ins 4 with
      | true =>
        rw [h4, if_pos rfl] at hk
        exact h.byRegister_eq ha hk
      | false => exact h.immediateShift_eq ha ins
  rw [decodeSo, hso]

theorem Displays.decodeOff_eq (ins : Word) :
    decodeOff q ins =
      ((if bit ins 25 then decodeRegister ins else .immediate (getBits ins 11 0) 0).value m).1 := by
  cases h25 : bit ins 25 with
  | true => rw [if_pos rfl, decodeOff_register q h25, h.immediateShift_eq ha]
  | false =>
    rw [decodeOff, h25, if_neg Bool.false_ne_true, Operand.value, Nat.mul_zero, shifted_zero]
    rfl

theorem Displays.data {ins : Word} {i : Instr} (hi : decodeData ins = some i) {m' : Visible}
    (he : i.exec m = .ok m') : Displays p (armDataProcessingShift q ins).2 m' := by
  rw [decodeData] at hi
  cases ho : Operation.ofOpcode (getBits ins 24 21).toNat with
  | some o =>
    simp only [ho] at hi
    split at hi
    next hs =>
      cases hi
      rw [Instr.exec] at he
      split at he
      next hk =>
        cases he
        rw [armDataProcessingShift, h.decodeSo_eq ha hk, h.armReadRegister_eq ha,
          Operation.eq_opcode ho]
        exact (h.carry _).operation o _ _ _ _ rfl hs
      next => cases he
    next => cases hi
  | none =>
    cases ho' : Additive.ofOpcode (getBits ins 24 21).toNat with
    | some o =>
      simp only [ho, ho'] at hi
      split at hi
      next => cases hi
      next hs =>
        cases hi
        rw [Instr.exec] at he
        split at he
        next hk =>
          cases he
          have hcarry := h.carry ((decodeOperand ins).value m).2
          rw [armDataProcessingShift, h.decodeSo_eq ha hk, h.armReadRegister_eq ha]
          dsimp only
          rw [Bool.eq_false_iff.mpr hs, select_additive o _ _ _ _ ho', hcarry.c_eq]
          exact hcarry.write _ _
        next => cases he
    | none =>
      simp only [ho, ho'] at hi
      cases hi

theorem Displays.transfer {t : Transfer} {rd rn : Fin 16} {off : Word} {pBit uBit wBit : Bool}
    {m' : Visible} (he : m.transfer t rd rn off pBit uBit wBit = .ok m') :
    (t.exec q rd rn off pBit uBit wBit).1 = 0 ∧
      Displays p (t.exec q rd rn off pBit uBit wBit).2 m' := by
  have hbase := h.armReadRegister_eq ha rn
  rw [Visible.transfer, ← hbase, ← h.mem_eq] at he
  split at he
  next hin =>
    cases hl : t.loads with
    | true =>
      rw [hl, if_pos rfl] at he
      cases he
      rw [exec_load_inMemory t q rd rn off pBit uBit wBit hin hl]
      exact ⟨rfl, (h.writtenBack rn _ off pBit uBit wBit).write _ _⟩
    | false =>
      rw [hl, if_neg Bool.false_ne_true] at he
      cases he
      rw [exec_store_inMemory t q rd rn off pBit uBit wBit hin hl, ← h.armReadRegister_eq ha rd]
      exact ⟨rfl, (h.store _).writtenBack rn _ off pBit uBit wBit⟩
  next => cases he

theorem Displays.branch (ins : Word) :
    armBranch q ins = (0, (armBranch q ins).2) ∧
      Displays p (armBranch q ins).2 (m.branch (bit ins 24) (branchOffset ins)) := by
  refine ⟨rfl, ?_⟩
  have hlink : Displays p (linked q ins (armReadRegister q 15 - 4))
      (if bit ins 24 then m.write 14 (m.read 15 - 4) else m) := by
    rw [linked, h.armReadRegister_eq ha]
    split
    · exact h.write _ _
    · exact h
  have htarget : shl (if bit (getBits ins 23 0) 23 then getBits ins 23 0 ||| 0xFF000000
      else getBits ins 23 0) 2 = 4 * BitVec.ofInt 32 (branchOffset ins) := by
    rw [signExtend_field, shl_two]
    rfl
  have hpc : armReadRegister (linked q ins (armReadRegister q 15 - 4)) 15 = m.read 15 := by
    rw [armReadRegister_pc_linked, h.armReadRegister_eq ha]
  have hb : (armBranch q ins).2 =
      armWriteRegister (linked q ins (armReadRegister q 15 - 4)) 15
        (m.read 15 + 4 * BitVec.ofInt 32 (branchOffset ins)) := by
    rw [← htarget, ← hpc]
    rfl
  rw [hb]
  exact hlink.write _ _

/-- The two classes of single transfers. -/
theorem Displays.transfer_word {ins : Word} {n : Nat} (hcl : (getBits ins 27 25).toNat = n)
    (hn : n = 2 ∨ n = 3) {m' : Visible} (he : (decodeTransfer ins).exec m = .ok m') :
    ∃ u, armDispatch q ins = .ok (0, u) ∧ Displays p u m' := by
  have hd : armDispatch q ins = .ok (armLoadStore q ins) := by
    rw [armDispatch, hcl]
    rcases hn with rfl | rfl <;> rfl
  have h26 := bit_of_transfer hn hcl
  have hx := h.transfer ha he
  rw [← h.decodeOff_eq ha, ← armLoadStore_word h26] at hx
  refine ⟨_, ?_, hx.2⟩
  rw [hd, ← hx.1]

theorem Displays.block {ins : Word} (hcl : (getBits ins 27 25).toNat = 4) (h22 : bit ins 22 = false)
    (h23 : bit ins 23 = true) {m' : Visible}
    (he : (Instr.block (bit ins 20) (regNum (getBits ins 19 16)) (registerList ins) (bit ins 24)
      (bit ins 21)).exec m = .ok m') :
    ∃ u, armDispatch q ins = .ok (0, u) ∧ Displays p u m' := by
  have hstep : blockStep ins = 4 := by
    rw [blockStep, if_pos h23]
  have hdisp : armDispatch q ins = armLoadStoreMultiple q ins := by
    rw [armDispatch, hcl]
    rfl
  have hstart : (blockBegin q ins).address =
      blockStart ins (m.read (regNum (getBits ins 19 16))) := by
    rw [← h.armReadRegister_eq ha]
    rfl
  have hbegin : (blockBegin q ins).address =
      if bit ins 24 then m.read (regNum (getBits ins 19 16)) + 4
      else m.read (regNum (getBits ins 19 16)) := by
    rw [hstart, blockStart, hstep]
  rw [Instr.exec, Visible.block, ← hbegin] at he
  rw [hdisp, armLoadStoreMultiple]
  cases h20 : bit ins 20 with
  | true =>
    rw [h20, if_pos rfl] at he
    cases hl : m.loads (blockBegin q ins).address (registerList ins) with
    | error e =>
      rw [hl] at he
      cases he
    | ok m₁ =>
      rw [hl] at he
      cases he
      obtain ⟨hd, hf⟩ := Displays.loads (b := blockBegin q ins) h hl
      have haddr := @ldmBlock_address 4 (blockBegin q ins) (registerList ins)
      rw [hstart] at haddr
      obtain ⟨u, hu, hend⟩ := hd.blockEnd hf haddr
      refine ⟨u, ?_, hend⟩
      rw [if_pos rfl, ldm_eq q ins (by rw [h22]; rfl), ldmTransfer_eq h22, hstep, hu]
  | false =>
    rw [h20, if_neg Bool.false_ne_true] at he
    cases hl : m.stores (blockBegin q ins).address (registerList ins) with
    | error e =>
      rw [hl] at he
      cases he
    | ok m₁ =>
      rw [hl] at he
      cases he
      obtain ⟨hd, hf⟩ := Displays.stores (b := blockBegin q ins) h ha hl
      have haddr := @stmBlock_address armReadRegister 4 (blockBegin q ins) (registerList ins)
      rw [hstart] at haddr
      obtain ⟨u, hu, hend⟩ := hd.blockEnd hf haddr
      refine ⟨u, ?_, hend⟩
      rw [if_neg Bool.false_ne_true, stm_eq h22, hstep, hu]

/-! ### Dispatching -/

/-- **An instruction of the machine is one of the simulator.** -/
theorem Displays.dispatch_ok {ins : Word} {i : Instr} (hi : decodeInstr ins = some i) {m' : Visible}
    (he : i.exec m = .ok m') : ∃ u, armDispatch q ins = .ok (0, u) ∧ Displays p u m' := by
  unfold decodeInstr at hi
  split at hi
  next hcl =>
    -- the data processing, without its extension space
    split at hi
    next => cases hi
    next h4 =>
      refine ⟨_, ?_, h.data ha hi he⟩
      rw [armDispatch, hcl, if_neg h4,
        if_neg (fun e => decodeData_not_status hi ⟨e.1, e.2.1, e.2.2.1⟩)]
      rfl
  next hcl =>
    refine ⟨_, ?_, h.data ha hi he⟩
    rw [armDispatch, hcl]
    rfl
  next hcl =>
    cases hi
    exact h.transfer_word ha hcl (by decide) he
  next hcl =>
    split at hi
    next => cases hi
    next =>
      cases hi
      exact h.transfer_word ha hcl (by decide) he
  next hcl =>
    split at hi
    next hb =>
      cases hi
      exact h.block ha hcl hb.1 hb.2 he
    next => cases hi
  next hcl =>
    cases hi
    cases he
    obtain ⟨hb, hs⟩ := h.branch ha ins
    refine ⟨_, ?_, hs⟩
    rw [← hb, armDispatch, hcl]
    rfl
  next hcl =>
    split at hi
    next =>
      cases hi
      cases he
    next => cases hi
  next => cases hi

end Classes

/-! ### Steps -/

section Steps

variable {p : ArmCore} {m : Visible}

theorem Visible.Fetches.standsAt {ins : Word} (h : p.visible.Fetches ins) :
    StandsAt p (p.visible.r 15) ins := by
  refine ⟨rfl, h.aligned, h.inMemory, ?_⟩
  rw [← h.word]
  exact read_inMemory .word h.inMemory

/-- The fetch counts a cycle and moves the pc. -/
theorem displays_fetched {ins : Word} (h : p.visible.Fetches ins) :
    (armFetch p).1 = some ins ∧
      Displays { p with cycleCount := p.cycleCount + 1 } (armFetch p).2 p.visible.fetched := by
  rw [h.standsAt.armFetch_eq]
  exact ⟨rfl, (Displays.refl { p with cycleCount := p.cycleCount + 1 }).write 15 _⟩

theorem Visible.Fetches.aligned_fetched {ins : Word} (h : m.Fetches ins) :
    (m.fetched.r 15).toNat % 4 = 0 := by
  rw [Visible.fetched, Visible.write_r_same]
  exact aligned_add_four h.aligned

theorem conditionPassed_fetched {ins : Word} :
    conditionPassed (armFetch p).2 ins = p.visible.passes (getBits ins 31 28).toNat := by
  rw [conditionPassed_armFetch]
  exact (Displays.refl p).conditionPassed_eq ins

/-- **A step of the machine is a step of the simulator.** -/
theorem step_displays (h : p.visible.step = .ok m) :
    ∃ q, armStep p = .ok (0, q) ∧ Displays { p with cycleCount := p.cycleCount + 1 } q m := by
  obtain ⟨ins, hf, hcase⟩ := Visible.step_cases (m := p.visible) (by rw [h]; intro e; cases e)
  obtain ⟨hfetch, hdisp⟩ := displays_fetched hf
  rw [armStep_of_fetched hfetch, conditionPassed_fetched]
  rcases hcase with ⟨hc, hs⟩ | ⟨hc, i, hi, hs⟩
  · rw [h] at hs
    cases hs
    rw [hc, if_neg Bool.false_ne_true]
    exact ⟨_, rfl, hdisp⟩
  · rw [hc, if_pos rfl]
    exact hdisp.dispatch_ok hf.aligned_fetched hi (hs.symm.trans h)

/-- The machine and the simulator end together. -/
theorem step_exits (h : p.visible.step = .error .exit) : armStep p = .error .exited := by
  obtain ⟨ins, hf, hcase⟩ := Visible.step_cases (m := p.visible) (by rw [h]; intro e; cases e)
  rw [armStep_of_fetched (displays_fetched hf).1, conditionPassed_fetched]
  rcases hcase with ⟨hc, hs⟩ | ⟨hc, i, hi, hs⟩
  · rw [h] at hs
    cases hs
  · rw [hc, if_pos rfl]
    obtain rfl := exec_exit (hs.symm.trans h)
    exact dispatch_exit _ hi

/-! ### Runs -/

/-- `steps` counts the steps as `after` does. -/
theorem steps_eq_after (p : ArmCore) (k : Nat) : steps p k = Hoare.after (act · .step) k p := by
  induction k generalizing p with
  | zero => rfl
  | succ k ih =>
    rw [steps, machine, List.replicate_succ, Run.run_cons, Hoare.after]
    exact bind_congr fun q => ih q

/-- The core shows what the machine has come to in `k` steps. -/
def Following (p : ArmCore) (k : Nat) (m : Visible) (q : ArmCore) : Prop :=
  Displays { p with cycleCount := p.cycleCount + BitVec.ofNat 32 k } q m

theorem Following.refl (p : ArmCore) : Following p 0 p.visible p := by
  refine ⟨⟨rfl, fun _ _ => rfl, fun _ _ => rfl, ?_, rfl⟩, rfl⟩
  exact (BitVec.add_zero _).symm

theorem Following.succ {p q u : ArmCore} {k : Nat} {m m' : Visible} (h : Following p k m q)
    (hu : Displays { q with cycleCount := q.cycleCount + 1 } u m') : Following p (k + 1) m' u := by
  refine hu.trans ⟨h.mode, h.control, h.banked, ?_, h.host⟩
  show q.cycleCount + 1 = p.cycleCount + BitVec.ofNat 32 (k + 1)
  rw [h.cycleCount, BitVec.ofNat_add, ← BitVec.add_assoc]
  rfl

theorem act_step_of_ok {p q : ArmCore} {r : Int} (h : armStep p = .ok (r, q)) :
    act p .step = .ok q := by
  rw [act, h]
  rfl

/-- **Every step of the machine is a step of the simulator.** -/
theorem following_simulation (p : ArmCore) :
    Hoare.Simulation Visible.step (act · .step) (Following p) := by
  intro k m q m' hf hs
  rw [← hf.visible] at hs
  obtain ⟨u, hu, hdisp⟩ := step_displays hs
  exact ⟨u, act_step_of_ok hu, hf.succ hdisp⟩

theorem steps_exited {k : Nat} (h : Hoare.after Visible.step k p.visible = .error .exit) :
    steps p k = .error .exited := by
  rw [steps_eq_after]
  refine (following_simulation p).after_error ?_ (Following.refl p) h
  intro j m q hf hs
  rw [← hf.visible] at hs
  rw [act, step_exits hs]
  rfl

/-- **The simulator runs the programs of the machine.**  As long as the machine goes on,
the core shows what it has come to, hides what it hid before and has counted the steps,
none of which has raised an exception; and the two end together. -/
theorem simulator_runs (p : ArmCore) (k : Nat) :
    (∀ m, Hoare.after Visible.step k p.visible = .ok m →
      (∃ q, steps p k = .ok q ∧ Following p k m q) ∧
        ∀ j < k, ∃ q u, steps p j = .ok q ∧ armStep q = .ok (0, u)) ∧
      (Hoare.after Visible.step k p.visible = .error .exit → steps p k = .error .exited) := by
  have hsim := following_simulation p
  refine ⟨fun m hm => ?_, steps_exited⟩
  simp only [steps_eq_after]
  constructor
  · obtain ⟨q, hq, hf⟩ := hsim.after (Following.refl p) hm
    rw [Nat.zero_add] at hf
    exact ⟨q, hq, hf⟩
  · intro j hj
    obtain ⟨m', m'', hm', hs⟩ := Hoare.step_of_after_ok hm hj
    obtain ⟨q, hq, hf⟩ := hsim.after (Following.refl p) hm'
    rw [← hf.visible] at hs
    obtain ⟨u, hu, -⟩ := step_displays hs
    exact ⟨q, u, hq, hu⟩

end Steps

end Armator
