import Armator.Machine
import Armator.Lib.Unwinding

/-!
# The global carry does not leak

`shifter_carry_out` is a global variable: what one instruction leaves in it is still there
when the next one begins.  But no instruction reads what was left.  The data-processing
instructions are the only ones that look at it, and `decode_so` has rewritten it before
they do, on each of its paths (`armDataProcessingShift_withCarry`); every other
instruction takes it along (`armDispatch_withCarry`).

So two cores that differ in the leftover carry alone take the same steps, for ever, with
the same results (`no_carry_leak`).
-/

namespace Armator

open Unwinding

/-- The core with another leftover carry. -/
def ArmCore.withCarry (p : ArmCore) (c : Word) : ArmCore := { p with shifterCarryOut := c }

/-- The result of a step with another leftover carry. -/
def carried (c : Word) (x : Int × ArmCore) : Int × ArmCore := (x.1, x.2.withCarry c)

section Carry

variable (p : ArmCore) (c : Word)

@[simp] theorem armReadRegister_withCarry (i : Fin 16) :
    armReadRegister (p.withCarry c) i = armReadRegister p i := rfl

@[simp] theorem armReadSpsr_withCarry : armReadSpsr (p.withCarry c) = armReadSpsr p := rfl

@[simp] theorem armWriteRegister_withCarry (i : Fin 16) (v : Word) :
    armWriteRegister (p.withCarry c) i v = (armWriteRegister p i v).withCarry c := rfl

@[simp] theorem armWriteUsrRegister_withCarry (i : Fin 16) (v : Word) :
    armWriteUsrRegister (p.withCarry c) i v = (armWriteUsrRegister p i v).withCarry c := rfl

/-! ### The data-processing instructions -/

/-- **`decode_so` rewrites the carry**: what was left does not matter. -/
theorem decodeSo_withCarry (ins : Word) : decodeSo (p.withCarry c) ins = decodeSo p ins := rfl

theorem armDataProcessingShift_withCarry (ins : Word) :
    armDataProcessingShift (p.withCarry c) ins = armDataProcessingShift p ins := by
  simp only [armDataProcessingShift, decodeSo_withCarry, armReadRegister_withCarry]

/-! ### The transfers -/

theorem writeBack_withCarry (rn : Fin 16) (rnCont off : Word) (pBit uBit wBit : Bool) :
    writeBack (p.withCarry c) rn rnCont off pBit uBit wBit =
      (writeBack p rn rnCont off pBit uBit wBit).withCarry c := by
  unfold writeBack
  split
  · split
    · rfl
    · rfl
  · rfl

theorem storeSingle_withCarry {write : ArmCore → Word → Int × ArmCore}
    (hw : ∀ p a, write (p.withCarry c) a = carried c (write p a)) (rn : Fin 16) (off : Word)
    (pBit uBit wBit : Bool) :
    storeSingle write (p.withCarry c) rn off pBit uBit wBit =
      carried c (storeSingle write p rn off pBit uBit wBit) := by
  simp only [storeSingle, hw, carried, armReadRegister_withCarry, writeBack_withCarry]
  split
  · rfl
  · rfl

theorem loadSingle_withCarry {α : Type} {read : ArmCore → Word → Option α}
    {load : ArmCore → α → ArmCore} (hr : ∀ p a, read (p.withCarry c) a = read p a)
    (hl : ∀ p v, load (p.withCarry c) v = (load p v).withCarry c) (rn : Fin 16) (off : Word)
    (pBit uBit wBit : Bool) :
    loadSingle read load (p.withCarry c) rn off pBit uBit wBit =
      carried c (loadSingle read load p rn off pBit uBit wBit) := by
  simp only [loadSingle, hr, armReadRegister_withCarry, writeBack_withCarry]
  split
  · rfl
  · rw [hl]
    rfl

theorem armLoadStore_withCarry (ins : Word) :
    armLoadStore (p.withCarry c) ins = carried c (armLoadStore p ins) := by
  have ho : decodeOff (p.withCarry c) ins = decodeOff p ins := rfl
  have hh : decodeOffH (p.withCarry c) ins = decodeOffH p ins := rfl
  simp only [armLoadStore, ho, hh]
  split
  · split
    · rw [str, armReadRegister_withCarry]
      exact storeSingle_withCarry p c (fun _ _ => rfl) _ _ _ _ _
    · exact loadSingle_withCarry p c (fun _ _ => rfl) (fun _ _ => rfl) _ _ _ _ _
    · rw [strb, armReadRegister_withCarry]
      exact storeSingle_withCarry p c (fun _ _ => rfl) _ _ _ _ _
    · exact loadSingle_withCarry p c (fun _ _ => rfl) (fun _ _ => rfl) _ _ _ _ _
  · split
    · exact loadSingle_withCarry p c (fun _ _ => rfl) (fun _ _ => rfl) _ _ _ _ _
    · rw [strh, armReadRegister_withCarry]
      exact storeSingle_withCarry p c (fun _ _ => rfl) _ _ _ _ _

/-! ### The block transfers -/

/-- The variables of a block transfer with another leftover carry. -/
def Block.withCarry (b : Block) (c : Word) : Block := { b with p := b.p.withCarry c }

/-- A loop over registers whose body takes the leftover carry along does so too. -/
theorem foldl_withCarry {n : Nat} {f : Block → Fin n → Block}
    (hf : ∀ b i, f (b.withCarry c) i = (f b i).withCarry c) (is : List (Fin n)) (b : Block) :
    is.foldl f (b.withCarry c) = (is.foldl f b).withCarry c :=
  List.foldl_hom (Block.withCarry · c) hf

theorem ldmLoop_withCarry {write : ArmCore → Fin 16 → Word → ArmCore}
    (hw : ∀ p i v, write (p.withCarry c) i v = (write p i v).withCarry c) (ins : Word) (b : Block) :
    ldmLoop write ins (b.withCarry c) = (ldmLoop write ins b).withCarry c := by
  have hreg : ∀ load delta (b : Block) i,
      ldmRegister write load delta (b.withCarry c) i =
        (ldmRegister write load delta b i).withCarry c := by
    intro load delta b i
    simp only [ldmRegister, Block.withCarry, hw]
    rfl
  simp only [ldmLoop]
  rw [foldl_withCarry c]
  · split
    · exact hreg _ _ _ _
    · rfl
  · intro b i
    split
    · exact hreg _ _ _ _
    · rfl

theorem stmLoop_withCarry {read : ArmCore → Fin 16 → Word}
    (hr : ∀ p i, read (p.withCarry c) i = read p i) (ins : Word) (b : Block) :
    stmLoop read ins (b.withCarry c) = (stmLoop read ins b).withCarry c := by
  refine foldl_withCarry c (fun b i => ?_) (List.finRange 16) b
  split
  · simp only [stmRegister, Block.withCarry, hr]
    rfl
  · rfl

theorem blockEnd_withCarry (ins : Word) (b : Block) :
    blockEnd ins (b.withCarry c) = carried c (blockEnd ins b) := by
  by_cases hw : bit ins 21 = true
  · simp only [blockEnd, Block.withCarry, if_pos hw]
    cases b.failed with
    | true => rfl
    | false => rfl
  · simp only [blockEnd, Block.withCarry, if_neg hw]
    cases b.failed with
    | true => rfl
    | false => rfl

theorem ldmTransfer_withCarry (ins : Word) (b : Block) :
    ldmTransfer ins (b.withCarry c) = (ldmTransfer ins b).withCarry c := by
  have husr := ldmLoop_withCarry c (fun p i v => armWriteUsrRegister_withCarry p c i v) ins
  have hreg := ldmLoop_withCarry c (fun p i v => armWriteRegister_withCarry p c i v) ins
  cases h22 : bit ins 22 with
  | false =>
    simp only [ldmTransfer, h22, Bool.false_and, Bool.false_eq_true, if_false, Bool.not_false, if_true]
    exact hreg b
  | true =>
    cases h15 : bit ins 15 with
    | false =>
      simp only [ldmTransfer, h22, h15, Bool.not_false, Bool.and_self, if_true, Bool.not_true,
        Bool.false_eq_true, if_false]
      exact husr b
    | true =>
      simp only [ldmTransfer, h22, h15, Bool.not_true, Bool.and_false, Bool.false_eq_true, if_false]

theorem ldm_withCarry (ins : Word) :
    ldm (p.withCarry c) ins = (ldm p ins).map (carried c) := by
  cases hr : (bit ins 22 && bit ins 15) with
  | false =>
    rw [ldm_eq _ ins hr, ldm_eq p ins hr]
    change Except.ok (blockEnd ins (ldmTransfer ins ((blockBegin p ins).withCarry c))) = _
    rw [ldmTransfer_withCarry, blockEnd_withCarry]
    rfl
  | true =>
    cases hs : armReadSpsr p with
    | error e =>
      simp only [ldm, hr, armReadSpsr_withCarry, hs]
      rfl
    | ok v =>
      simp only [ldm, hr, armReadSpsr_withCarry, hs]
      change Except.ok (blockEnd ins (ldmTransfer ins (Block.withCarry ⟨armWriteCpsr p v,
        blockStart ins (armReadRegister p (regNum (getBits ins 19 16))), 0, false⟩ c))) = _
      rw [ldmTransfer_withCarry, blockEnd_withCarry]
      rfl

theorem stm_withCarry (ins : Word) : stm (p.withCarry c) ins = carried c (stm p ins) := by
  have hr : ∀ p i, (if bit ins 22 then armReadUsrRegister else armReadRegister)
      (ArmCore.withCarry p c) i = (if bit ins 22 then armReadUsrRegister else armReadRegister) p i := by
    intro p i
    split
    · rfl
    · rfl
  have hl := stmLoop_withCarry c hr ins (blockBegin p ins)
  simp only [stm]
  rw [← blockEnd_withCarry]
  exact congrArg (blockEnd ins) hl

theorem armLoadStoreMultiple_withCarry (ins : Word) :
    armLoadStoreMultiple (p.withCarry c) ins = (armLoadStoreMultiple p ins).map (carried c) := by
  unfold armLoadStoreMultiple
  split
  · exact ldm_withCarry p c ins
  · rw [stm_withCarry]
    rfl

/-! ### The other classes -/

theorem armMiscellaneous_withCarry (ins : Word) :
    armMiscellaneous (p.withCarry c) ins = (armMiscellaneous p ins).map (carried c) := by
  unfold armMiscellaneous
  dsimp only
  split
  · rw [armReadSpsr_withCarry]
    cases armReadSpsr p with
    | error e => rfl
    | ok v => rfl
  · rfl

theorem armBranch_withCarry (ins : Word) :
    armBranch (p.withCarry c) ins = carried c (armBranch p ins) := by
  simp only [armBranch]
  split
  · rfl
  · rfl

theorem armCoprocessorOthersSwi_withCarry (ins : Word) :
    armCoprocessorOthersSwi (p.withCarry c) ins =
      (armCoprocessorOthersSwi p ins).map (carried c) := by
  unfold armCoprocessorOthersSwi
  split
  · split
    · rfl
    · rfl
  · rfl

/-- **No instruction looks at the leftover carry**: it overwrites it, or takes it along. -/
theorem armDispatch_withCarry (ins : Word) :
    armDispatch (p.withCarry c) ins = armDispatch p ins ∨
      armDispatch (p.withCarry c) ins = (armDispatch p ins).map (carried c) := by
  have hls : Except.ok (ε := Halt) (armLoadStore (p.withCarry c) ins) =
      (Except.ok (armLoadStore p ins)).map (carried c) :=
    congrArg Except.ok (armLoadStore_withCarry p c ins)
  have hdp : Except.ok (ε := Halt) (armDataProcessingShift (p.withCarry c) ins) =
      .ok (armDataProcessingShift p ins) :=
    congrArg Except.ok (armDataProcessingShift_withCarry p c ins)
  unfold armDispatch
  generalize (getBits ins 27 25).toNat = k
  split
  · split
    · exact Or.inr hls
    · split
      · exact Or.inr (armMiscellaneous_withCarry p c ins)
      · exact Or.inl hdp
  · exact Or.inl hdp
  · exact Or.inr hls
  · exact Or.inr hls
  · exact Or.inr (armLoadStoreMultiple_withCarry p c ins)
  · exact Or.inr (congrArg Except.ok (armBranch_withCarry p c ins))
  · exact Or.inr (armCoprocessorOthersSwi_withCarry p c ins)
  · exact Or.inr rfl

/-! ### Steps -/

theorem armFetch_withCarry :
    armFetch (p.withCarry c) = ((armFetch p).1, (armFetch p).2.withCarry c) := rfl

theorem conditionPassed_withCarry (ins : Word) :
    conditionPassed (p.withCarry c) ins = conditionPassed p ins := rfl

/-- **A step does not look at the leftover carry.** -/
theorem armStep_withCarry :
    armStep (p.withCarry c) = armStep p ∨
      armStep (p.withCarry c) = (armStep p).map (carried c) := by
  rw [armStep_eq, armStep_eq, armExecuteInstruction, armExecuteInstruction, armFetch_withCarry]
  obtain ⟨value, q⟩ := armFetch p
  cases value with
  | none => exact Or.inr rfl
  | some ins =>
    dsimp only
    rw [conditionPassed_withCarry]
    split
    · exact armDispatch_withCarry q c ins
    · exact Or.inr rfl

end Carry

/-- The cores are equal in registers and mode, memory and cycle count, on one host: the
leftover carry may differ. -/
structure EqualButCarry (p q : ArmCore) : Prop where
  reg : p.reg = q.reg
  mem : p.mem = q.mem
  cycleCount : p.cycleCount = q.cycleCount
  host : p.host = q.host

theorem equalButCarry_withCarry (p : ArmCore) (c : Word) : EqualButCarry p (p.withCarry c) :=
  ⟨rfl, rfl, rfl, rfl⟩

theorem EqualButCarry.eq_withCarry {p q : ArmCore} (h : EqualButCarry p q) :
    q = p.withCarry q.shifterCarryOut := by
  obtain ⟨cycleCount, reg, mem, carry, host⟩ := q
  obtain ⟨rfl, rfl, rfl, rfl⟩ := h
  rfl

/-- **The step function respects equality but for the carry.** -/
theorem respects_equalButCarry : Respects armStep EqualButCarry := by
  intro p q h
  rw [h.eq_withCarry]
  rcases armStep_withCarry p q.shifterCarryOut with he | he
  · rw [he]
    cases armStep p with
    | error e => exact .error e
    | ok x => exact .ok ⟨rfl, rfl, rfl, rfl, rfl⟩
  · rw [he]
    cases armStep p with
    | error e => exact .error e
    | ok x => exact .ok ⟨rfl, equalButCarry_withCarry x.2 _⟩

/-- **The leftover carry does not leak.**  Two cores that are equal but for it take the
same steps, any number of them: the results are the same at each step and the cores at
the end are equal but for the carry, or the process ends in the same way.  And where the
carry is looked at, in the data-processing instructions, `decode_so` has made the cores
equal before. -/
theorem no_carry_leak (p q : ArmCore) (h : EqualButCarry p q) :
    (∀ n, (observe armStep n p).1 = (observe armStep n q).1 ∧
      Agree EqualButCarry (observe armStep n p).2 (observe armStep n q).2) ∧
    ∀ ins, decodeSo p ins = decodeSo q ins ∧
      armDataProcessingShift p ins = armDataProcessingShift q ins := by
  refine ⟨fun n => respects_equalButCarry.observe n h, fun ins => ?_⟩
  rw [h.eq_withCarry]
  exact ⟨(decodeSo_withCarry p _ ins).symm, (armDataProcessingShift_withCarry p _ ins).symm⟩

/-- Two steps from a `movs r0, r0`, with the carry left at 0 and at 1: the second does not
find an instruction. -/
theorem no_carry_leak_movs :
    (coreOfWord 0xE1B00000).shifterCarryOut ≠ 1 ∧
    (observe armStep 2 (coreOfWord 0xE1B00000)).1 = [0, -1] ∧
    (observe armStep 2 (coreOfWord 0xE1B00000)).1 =
      (observe armStep 2 ((coreOfWord 0xE1B00000).withCarry 1)).1 :=
  ⟨by decide +kernel, by decide +kernel,
    ((no_carry_leak _ _ (equalButCarry_withCarry (coreOfWord 0xE1B00000) 1)).1 2).1⟩

end Armator
