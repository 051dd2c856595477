import Armator.Instruction.Aborts
import Armator.Instruction.Decode

/-!
# Branches and returns

The pc runs ahead of the stored r15: the fetch stores the address plus 4, a read adds
4 more, and `arm_branch` takes 4 off again for the link.  At an aligned address `a`
the three together give the architected `a + 8` and `a + 4` (`armReadRegister_fetched`).

The 24-bit field is sign-extended by or-ing the high byte in and shifted
(`branchTarget_eq`).  A branch does nothing but set r15 and, with the L bit, r14
(`Branched`), and `mov pc, lr` at its target brings the pc back behind it.
-/

namespace Armator

/-- The core is about to fetch `ins` from the aligned address `a`. -/
structure StandsAt (p : ArmCore) (a ins : Word) : Prop where
  pc : readRegister p.reg 15 = a
  aligned : a.toNat % 4 = 0
  inMemory : (⟨a, 4⟩ : DataAccess).InMemory p.mem
  word : armReadWord p a = some ins

/-- The signed value of the 24-bit field of a branch. -/
def branchOffset (ins : Word) : Int := (ins.setWidth 24).toInt

/-- The address a branch at `a` goes to. -/
def branchTarget (a ins : Word) : Word := a + 8 + 4 * BitVec.ofInt 32 (branchOffset ins)

/-- `mov pc, lr` -/
def movPcLr : Word := 0xE1A0F00E

/-- What a branch at `a` does to the core: r15, with the L bit r14, the cycle count,
and nothing else. -/
structure Branched (p q : ArmCore) (a ins : Word) : Prop where
  pc : readRegister q.reg 15 = branchTarget a ins
  link : bit ins 24 = true → readRegister q.reg 14 = a + 4
  registers : ∀ c, c ≠ pcCell → (bit ins 24 = true → c ≠ cell (getModeNum p.reg) 14) →
    q.reg.registers c = p.reg.registers c
  mode : q.reg.mode = p.reg.mode
  mem : q.mem = p.mem
  cycleCount : q.cycleCount = p.cycleCount + 1
  shifterCarryOut : q.shifterCarryOut = p.shifterCarryOut

/-! ### The offset -/

theorem getLsbD_getBits (x : Word) {h l i : Nat} (hl : l < 32) (hw : h - l + 1 < 32) :
    (getBits x h l).getLsbD i = (decide (i < h - l + 1) && x.getLsbD (l + i)) := by
  rw [← BitVec.testBit_toNat, toNat_getBits x hl hw, Nat.testBit_mod_two_pow,
    Nat.testBit_div_two_pow, BitVec.testBit_toNat, Nat.add_comm i l]

/-- **Or-ing the high byte in is sign extension.** -/
theorem signExtend_field (ins : Word) :
    (if bit (getBits ins 23 0) 23 then getBits ins 23 0 ||| 0xFF000000 else getBits ins 23 0) =
      (ins.setWidth 24).signExtend 32 := by
  have hhigh : ∀ i < 32, (0xFF000000 : Word).getLsbD i = decide (24 ≤ i) := by decide
  have hfield : ∀ i, (getBits ins 23 0).getLsbD i = (decide (i < 24) && ins.getLsbD i) := by
    intro i
    rw [getLsbD_getBits ins (by omega) (by omega), Nat.zero_add]
  have hmsb : (ins.setWidth 24).msb = ins.getLsbD 23 := by
    rw [BitVec.msb_eq_getLsbD_last, BitVec.getLsbD_setWidth]
    rfl
  have hsign : bit (getBits ins 23 0) 23 = ins.getLsbD 23 := by
    rw [bit_eq_getLsbD _ (by omega), hfield]
    rfl
  apply BitVec.eq_of_getLsbD_eq
  intro i hi
  rw [hsign, BitVec.getLsbD_signExtend, BitVec.getLsbD_setWidth, hmsb, decide_eq_true hi]
  cases hs : ins.getLsbD 23 with
  | true =>
    rw [if_pos rfl, BitVec.getLsbD_or, hfield, hhigh i hi]
    by_cases h24 : i < 24
    · rw [decide_eq_true h24, decide_eq_false (show ¬ 24 ≤ i by omega), if_pos h24, Bool.or_false]
      rfl
    · rw [decide_eq_true (show 24 ≤ i by omega), if_neg h24, Bool.or_true]
      rfl
  | false =>
    rw [if_neg Bool.false_ne_true, hfield]
    by_cases h24 : i < 24
    · rw [decide_eq_true h24, if_pos h24]
      rfl
    · rw [decide_eq_false h24, if_neg h24]
      rfl

theorem shl_two (x : Word) : shl x 2 = 4 * x := by
  rw [shl, BitVec.shiftLeft_eq_mul_twoPow, BitVec.mul_comm]
  rfl

/-! ### The pc after a fetch -/

theorem fetchAddress_of_pc {u : ArmCore} {a : Word} (hpc : readRegister u.reg 15 = a)
    (h : a.toNat % 4 = 0) : fetchAddress u = a := by
  have hr : armReadRegister u 15 = pcView a := by
    rw [armReadRegister, hpc]
    rfl
  rw [fetchAddress, hr, pcView_sub_four h]

theorem StandsAt.armFetch_eq {p : ArmCore} {a ins : Word} (h : StandsAt p a ins) :
    armFetch p =
      (some ins, armWriteRegister { p with cycleCount := p.cycleCount + 1 } 15 (a + 4)) := by
  have hf : armFetch p = (armReadWord p (fetchAddress p),
      armWriteRegister { p with cycleCount := p.cycleCount + 1 } 15 (fetchAddress p + 4)) := rfl
  rw [hf, fetchAddress_of_pc h.pc h.aligned, h.word]

theorem aligned_add_four {a : Word} (h : a.toNat % 4 = 0) : (a + 4).toNat % 4 = 0 := by
  rw [BitVec.toNat_add, show (4 : Word).toNat = 4 from rfl]
  omega

/-- An instruction at an aligned address reads its own address plus 8. -/
theorem armReadRegister_fetched (p : ArmCore) {a : Word} (h : a.toNat % 4 = 0) :
    armReadRegister (armWriteRegister p 15 (a + 4)) 15 = a + 8 := by
  have hr : armReadRegister (armWriteRegister p 15 (a + 4)) 15 = pcView (a + 4) := by
    rw [armReadRegister, armWriteRegister, readRegister_write_same]
    rfl
  rw [hr, pcView_of_aligned (aligned_add_four h), add_assoc]
  rfl

theorem conditionPassed_armFetch (p : ArmCore) (ins : Word) :
    conditionPassed (armFetch p).2 ins = conditionPassed p ins := by
  have hc : armReadCpsr (armFetch p).2 = armReadCpsr p := armReadCpsr_writeRegister _ _ _
  rw [conditionPassed, conditionPassed, hc]

/-! ### A branch -/

/-- The core with r14 written, as a branch does with the L bit. -/
def linked (p : ArmCore) (ins link : Word) : ArmCore :=
  if bit ins 24 then armWriteRegister p 14 link else p

theorem armReadRegister_pc_linked (p : ArmCore) (ins link : Word) :
    armReadRegister (linked p ins link) 15 = armReadRegister p 15 := by
  rw [linked]
  split
  · exact armReadRegister_write_of_ne p link (by decide)
  · rfl

theorem linked_mode (p : ArmCore) (ins link : Word) :
    (linked p ins link).reg.mode = p.reg.mode := by
  rw [linked]
  split <;> rfl

theorem linked_registers (p : ArmCore) (ins link : Word) {c : Fin 37}
    (h : bit ins 24 = true → c ≠ cell (getModeNum p.reg) 14) :
    (linked p ins link).reg.registers c = p.reg.registers c := by
  rw [linked]
  split
  next hl => exact Registers.set_of_ne _ _ (h hl)
  next => rfl

/-- `arm_branch` after the fetch from `a`. -/
theorem armBranch_eq (p : ArmCore) (ins : Word) {a : Word} (h : a.toNat % 4 = 0) :
    armBranch (armWriteRegister p 15 (a + 4)) ins =
      (0, armWriteRegister (linked (armWriteRegister p 15 (a + 4)) ins (a + 4)) 15
        (branchTarget a ins)) := by
  have hpc := armReadRegister_fetched p h
  have hlink : a + 8 - 4 = a + 4 := by ring
  have htarget : shl (if bit (getBits ins 23 0) 23 then getBits ins 23 0 ||| 0xFF000000
      else getBits ins 23 0) 2 = 4 * BitVec.ofInt 32 (branchOffset ins) := by
    rw [signExtend_field, shl_two]
    rfl
  have hb : armBranch (armWriteRegister p 15 (a + 4)) ins =
      (0, armWriteRegister (linked (armWriteRegister p 15 (a + 4)) ins (a + 8 - 4)) 15
        (armReadRegister (linked (armWriteRegister p 15 (a + 4)) ins (a + 8 - 4)) 15 +
          4 * BitVec.ofInt 32 (branchOffset ins))) := by
    rw [← htarget, ← hpc]
    rfl
  rw [hb, armReadRegister_pc_linked, hpc, hlink]
  rfl

theorem branched_of_linked (p : ArmCore) (a ins : Word) :
    Branched p (armWriteRegister (linked (armWriteRegister
      { p with cycleCount := p.cycleCount + 1 } 15 (a + 4)) ins (a + 4)) 15
        (branchTarget a ins)) a ins := by
  generalize hq : armWriteRegister { p with cycleCount := p.cycleCount + 1 } 15 (a + 4) = q
  have hmode : q.reg.mode = p.reg.mode := by
    rw [← hq]
    rfl
  have hnum := getModeNum_congr hmode
  have hreg : ∀ c, c ≠ pcCell → q.reg.registers c = p.reg.registers c := by
    intro c hc
    rw [← hq, ← cell_pc (getModeNum p.reg)] at *
    exact Registers.set_of_ne _ _ hc
  refine ⟨readRegister_write_same _ _ _, fun hl => ?_, fun c hc hl => ?_, ?_, ?_, ?_, ?_⟩
  · refine (readRegister_write_of_ne _ _ (by decide)).trans ?_
    rw [linked, if_pos hl]
    exact readRegister_write_same _ _ _
  · have hlq : bit ins 24 = true → c ≠ cell (getModeNum q.reg) 14 := by
      rw [hnum]
      exact hl
    rw [← hreg c hc, ← linked_registers q ins (a + 4) hlq]
    refine Registers.set_of_ne _ _ ?_
    rw [show (15 : Fin 16).castSucc = 15 from rfl, cell_pc]
    exact hc
  · exact (linked_mode q ins (a + 4)).trans hmode
  all_goals
    rw [linked, ← hq]
    split <;> rfl

/-- What an instruction whose condition fails at `a` does: r15, the cycle count, and
nothing else. -/
structure Skipped (p q : ArmCore) (a : Word) : Prop where
  onlyFetched : OnlyFetched p q
  pc : readRegister q.reg 15 = a + 4
  cycleCount : q.cycleCount = p.cycleCount + 1
  shifterCarryOut : q.shifterCarryOut = p.shifterCarryOut

section Step

variable {p : ArmCore} {a ins : Word} (h : StandsAt p a ins)

include h

theorem StandsAt.armStep_failed (hc : conditionPassed p ins = false) :
    ∃ q, armStep p = .ok (0, q) ∧ Skipped p q a := by
  have hf : (armFetch p).1 = some ins := by rw [h.armFetch_eq]
  refine ⟨(armFetch p).2, ?_, onlyFetched_armFetch p, ?_, rfl, rfl⟩
  · rw [armStep_of_fetched hf, conditionPassed_armFetch, hc]
    rfl
  · rw [h.armFetch_eq]
    exact readRegister_write_same _ _ _

theorem StandsAt.armStep_passed (hc : conditionPassed p ins = true) :
    armStep p =
      armDispatch (armWriteRegister { p with cycleCount := p.cycleCount + 1 } 15 (a + 4)) ins := by
  have hf : (armFetch p).1 = some ins := by rw [h.armFetch_eq]
  rw [armStep_of_passed hf (by rw [conditionPassed_armFetch, hc]), h.armFetch_eq]

/-- A branch whose condition passes. -/
theorem StandsAt.armStep_branch (hb : getBits ins 27 25 = 0b101)
    (hc : conditionPassed p ins = true) : ∃ q, armStep p = .ok (0, q) ∧ Branched p q a ins := by
  refine ⟨_, ?_, branched_of_linked p a ins⟩
  rw [h.armStep_passed hc, armDispatch, hb]
  exact congrArg Except.ok (armBranch_eq _ ins h.aligned)

end Step

/-! ### A return -/

/-- `mov pc, lr` copies the r14 of the current mode to r15. -/
theorem armDispatch_movPcLr (p : ArmCore) :
    ∃ u, armDispatch p movPcLr = .ok (0, u) ∧ readRegister u.reg 15 = readRegister p.reg 14 := by
  have hd : armDispatch p movPcLr = .ok (armDataProcessingShift p movPcLr) := rfl
  refine ⟨_, hd, ?_⟩
  exact readRegister_write_same _ _ _

theorem StandsAt.armStep_movPcLr {p : ArmCore} {a : Word} (h : StandsAt p a movPcLr) :
    ∃ u, armStep p = .ok (0, u) ∧ readRegister u.reg 15 = readRegister p.reg 14 := by
  obtain ⟨u, hu, hpc⟩ := armDispatch_movPcLr
    (armWriteRegister { p with cycleCount := p.cycleCount + 1 } 15 (a + 4))
  refine ⟨u, (h.armStep_passed rfl).trans hu, hpc.trans ?_⟩
  exact readRegister_write_of_ne _ _ (by decide)

theorem branchTarget_aligned {a : Word} (h : a.toNat % 4 = 0) (ins : Word) :
    (branchTarget a ins).toNat % 4 = 0 := by
  generalize hx : BitVec.ofInt 32 (branchOffset ins) = x
  rw [branchTarget, hx, BitVec.toNat_add, BitVec.toNat_add, BitVec.toNat_mul,
    show (8 : Word).toNat = 8 from rfl, show (4 : Word).toNat = 4 from rfl]
  omega

/-- **Branch and return.**  A branch at an aligned address `a` whose condition passes
goes to `a + 8 + 4 * s`, with `a + 4` in r14 when it links, and does nothing else; if
it links and `mov pc, lr` stands at its target, one more step leads back behind it.
A branch whose condition fails is only stepped over. -/
theorem branch_and_return (p : ArmCore) (a ins : Word) (h : StandsAt p a ins)
    (hb : getBits ins 27 25 = 0b101) :
    (conditionPassed p ins = true →
      ∃ q, armStep p = .ok (0, q) ∧ Branched p q a ins ∧
        (bit ins 24 = true → (⟨branchTarget a ins, 4⟩ : DataAccess).InMemory p.mem →
          armReadWord p (branchTarget a ins) = some movPcLr →
          ∃ u, armStep q = .ok (0, u) ∧ fetchAddress u = a + 4)) ∧
    (conditionPassed p ins = false → ∃ q, armStep p = .ok (0, q) ∧ Skipped p q a) := by
  refine ⟨fun hc => ?_, h.armStep_failed⟩
  obtain ⟨q, hq, hbr⟩ := h.armStep_branch hb hc
  refine ⟨q, hq, hbr, fun hl hin hword => ?_⟩
  have hex : StandsAt q (branchTarget a ins) movPcLr := by
    refine ⟨hbr.pc, branchTarget_aligned h.aligned ins, ?_, ?_⟩
    · rw [hbr.mem]
      exact hin
    · rw [armReadWord_congr hbr.mem, hword]
  obtain ⟨u, hu, hpc⟩ := hex.armStep_movPcLr
  exact ⟨u, hu, fetchAddress_of_pc (hpc.trans (hbr.link hl)) (aligned_add_four h.aligned)⟩

/-- `bl` over one word to a `mov pc, lr` -/
def callAndReturn : ArmCore :=
  armCreate .little (memoryCreate 12 false (Bytes.store (Bytes.byteOf .little 4 0xEB000000) 8 4
    (Bytes.byteOf .little 4 movPcLr)))

theorem branch_and_return_bl :
    StandsAt callAndReturn 0 0xEB000000 ∧
      ∃ q, armStep callAndReturn = .ok (0, q) ∧ ∃ u, armStep q = .ok (0, u) ∧
        fetchAddress u = 4 := by
  have h : StandsAt callAndReturn 0 0xEB000000 :=
    ⟨by decide +kernel, by decide, by unfold DataAccess.InMemory; decide +kernel, by decide +kernel⟩
  obtain ⟨q, hq, -, hret⟩ :=
    (branch_and_return callAndReturn 0 0xEB000000 h (by decide)).1 (by decide +kernel)
  exact ⟨h, q, hq, hret (by decide) (by unfold DataAccess.InMemory; decide +kernel)
    (by decide +kernel)⟩

end Armator
