import Armator.Machine

/-!
# Hosts of either byte order

The memory is accessed through pointers of the host, whose byte order `is_big_endian`
finds out at run time; the code reverses what it reads and writes where the host keeps its
bytes the other way round than the simulated memory.  So it does not show: on a host of
the other order every function of the core does the same (`ArmCore.onHost`), up to
whole steps (`armStep_onHost`).  The host is one of the things about a core that can be
changed without a function noticing (`Neutral`).
-/

namespace Armator

/-- The core on another host. -/
def ArmCore.onHost (p : ArmCore) (host : Endian) : ArmCore := { p with host := host }

/-- What a function of the core gives, on another host. -/
def movedTo (host : Endian) (x : Int × ArmCore) : Int × ArmCore := (x.1, x.2.onHost host)

section

variable (p : ArmCore) (host : Endian)

/-! ### The memory -/

theorem armReadHalf_onHost (address : Word) :
    armReadHalf (p.onHost host) address = armReadHalf p address := by
  rw [armReadHalf, armReadHalf, memoryReadHalf_eq, memoryReadHalf_eq]
  rfl

theorem armReadWord_onHost (address : Word) :
    armReadWord (p.onHost host) address = armReadWord p address := by
  rw [armReadWord, armReadWord, memoryReadWord_eq, memoryReadWord_eq]
  rfl

theorem armWriteHalf_onHost (address : Word) (value : Half) :
    armWriteHalf (p.onHost host) address value = movedTo host (armWriteHalf p address value) := by
  rw [armWriteHalf, armWriteHalf, memoryWriteHalf_eq, memoryWriteHalf_eq]
  rfl

theorem armWriteWord_onHost (address : Word) (value : Word) :
    armWriteWord (p.onHost host) address value = movedTo host (armWriteWord p address value) := by
  rw [armWriteWord, armWriteWord, memoryWriteWord_eq, memoryWriteWord_eq]
  rfl

theorem armFetch_onHost :
    armFetch (p.onHost host) = ((armFetch p).1, (armFetch p).2.onHost host) := by
  have h := armReadWord_onHost p host (armReadRegister p 15 - 4)
  exact Prod.ext h rfl

/-! ### The data-processing instructions -/

theorem handleRd15_onHost (rd : Fin 16) (sBit : Bool) :
    handleRd15 (p.onHost host) rd sBit = (handleRd15 p rd sBit).onHost host := by
  unfold handleRd15
  split
  · by_cases h : armCurrentModeHasSpsr p = true
    · rw [dif_pos h, dif_pos (show armCurrentModeHasSpsr (p.onHost host) = true from h)]
      rfl
    · rw [dif_neg h, dif_neg (show ¬ armCurrentModeHasSpsr (p.onHost host) = true from h)]
  · rfl

theorem aluWrite_onHost {flags : ArmCore → ArmCore}
    (hf : ∀ q, flags (q.onHost host) = (flags q).onHost host) (rd : Fin 16) (res : Word)
    (sBit : Bool) :
    Alu.aluWrite flags (p.onHost host) rd res sBit = (Alu.aluWrite flags p rd res sBit).onHost host := by
  simp only [Alu.aluWrite]
  rw [show armWriteRegister (p.onHost host) rd res = (armWriteRegister p rd res).onHost host from rfl,
    handleRd15_onHost]
  split
  · exact hf _
  · rfl

theorem select_onHost (opcode : ℕ) (rd : Fin 16) (rn so : Word) (sBit : Bool) :
    Alu.select opcode (p.onHost host) rd rn so sBit =
      (Alu.select opcode p rd rn so sBit).onHost host := by
  unfold Alu.select
  split
  all_goals
    simp only [Alu.and, Alu.eor, Alu.sub, Alu.rsb, Alu.add, Alu.adc, Alu.sbc, Alu.rsc, Alu.tst,
      Alu.teq, Alu.cmp, Alu.cmn, Alu.orr, Alu.mov, Alu.bic, Alu.mvn]
    first
    | exact aluWrite_onHost p host (fun _ => rfl) _ _ _
    | rfl

theorem armDataProcessingShift_onHost (ins : Word) :
    armDataProcessingShift (p.onHost host) ins = movedTo host (armDataProcessingShift p ins) := by
  have hso : decodeSo (p.onHost host) ins = ((decodeSo p ins).1, (decodeSo p ins).2.onHost host) := rfl
  simp only [armDataProcessingShift, hso, select_onHost]
  rfl

/-! ### The transfers -/

theorem writeBack_onHost (rn : Fin 16) (rnCont off : Word) (pBit uBit wBit : Bool) :
    writeBack (p.onHost host) rn rnCont off pBit uBit wBit =
      (writeBack p rn rnCont off pBit uBit wBit).onHost host := by
  unfold writeBack
  split
  · split
    · rfl
    · rfl
  · rfl

theorem storeSingle_onHost {write : ArmCore → Word → Int × ArmCore}
    (hw : ∀ p a, write (p.onHost host) a = movedTo host (write p a)) (rn : Fin 16) (off : Word)
    (pBit uBit wBit : Bool) :
    storeSingle write (p.onHost host) rn off pBit uBit wBit =
      movedTo host (storeSingle write p rn off pBit uBit wBit) := by
  have hr : armReadRegister (p.onHost host) rn = armReadRegister p rn := rfl
  simp only [storeSingle, hr, hw, movedTo, writeBack_onHost]
  split
  · rfl
  · rfl

theorem loadSingle_onHost {α : Type} {read : ArmCore → Word → Option α}
    {load : ArmCore → α → ArmCore} (hread : ∀ p a, read (p.onHost host) a = read p a)
    (hload : ∀ p v, load (p.onHost host) v = (load p v).onHost host) (rn : Fin 16) (off : Word)
    (pBit uBit wBit : Bool) :
    loadSingle read load (p.onHost host) rn off pBit uBit wBit =
      movedTo host (loadSingle read load p rn off pBit uBit wBit) := by
  have hr : armReadRegister (p.onHost host) rn = armReadRegister p rn := rfl
  simp only [loadSingle, hr, hread, writeBack_onHost]
  split
  · rfl
  · rw [hload]
    rfl

theorem armLoadStore_onHost (ins : Word) :
    armLoadStore (p.onHost host) ins = movedTo host (armLoadStore p ins) := by
  have ho : decodeOff (p.onHost host) ins = decodeOff p ins := rfl
  have hh : decodeOffH (p.onHost host) ins = decodeOffH p ins := rfl
  have hr : ∀ i, armReadRegister (p.onHost host) i = armReadRegister p i := fun _ => rfl
  simp only [armLoadStore, ho, hh]
  split
  · split
    · rw [str, hr]
      exact storeSingle_onHost p host (fun p a => armWriteWord_onHost p host a _) _ _ _ _ _
    · exact loadSingle_onHost p host (fun p a => armReadWord_onHost p host a) (fun _ _ => rfl)
        _ _ _ _ _
    · rw [strb, hr]
      exact storeSingle_onHost p host (fun _ _ => rfl) _ _ _ _ _
    · exact loadSingle_onHost p host (fun _ _ => rfl) (fun _ _ => rfl) _ _ _ _ _
  · split
    · exact loadSingle_onHost p host (fun p a => armReadHalf_onHost p host a) (fun _ _ => rfl)
        _ _ _ _ _
    · rw [strh, hr]
      exact storeSingle_onHost p host (fun p a => armWriteHalf_onHost p host a _) _ _ _ _ _

/-! ### The block transfers -/

def Block.onHost (b : Block) (host : Endian) : Block := { b with p := b.p.onHost host }

theorem ldmRegister_onHost {write : ArmCore → Fin 16 → Word → ArmCore}
    (hw : ∀ p i v, write (p.onHost host) i v = (write p i v).onHost host) (load : Word → Word)
    (delta : Word) (b : Block) (i : Fin 16) :
    ldmRegister write load delta (b.onHost host) i =
      (ldmRegister write load delta b i).onHost host := by
  simp only [ldmRegister, Block.onHost, armReadWord_onHost, hw]

theorem ldmLoop_onHost {write : ArmCore → Fin 16 → Word → ArmCore}
    (hw : ∀ p i v, write (p.onHost host) i v = (write p i v).onHost host) (ins : Word) (b : Block) :
    ldmLoop write ins (b.onHost host) = (ldmLoop write ins b).onHost host := by
  have hfold : ∀ (is : List (Fin 15)) (b : Block),
      is.foldl (fun b (i : Fin 15) =>
        if bit ins i then ldmRegister write id (blockStep ins) b i.castSucc else b) (b.onHost host) =
      (is.foldl (fun b (i : Fin 15) =>
        if bit ins i then ldmRegister write id (blockStep ins) b i.castSucc else b) b).onHost host := by
    refine fun is b => List.foldl_hom (Block.onHost · host) fun b i => ?_
    split
    · exact ldmRegister_onHost host hw _ _ _ _
    · rfl
  simp only [ldmLoop, hfold]
  split
  · exact ldmRegister_onHost host hw _ _ _ _
  · rfl

theorem stmLoop_onHost {read : ArmCore → Fin 16 → Word}
    (hr : ∀ p i, read (p.onHost host) i = read p i) (ins : Word) (b : Block) :
    stmLoop read ins (b.onHost host) = (stmLoop read ins b).onHost host := by
  refine List.foldl_hom (Block.onHost · host) fun b i => ?_
  split
  · simp only [stmRegister, Block.onHost, hr, armWriteWord_onHost]
    rfl
  · rfl

theorem blockEnd_onHost (ins : Word) (b : Block) :
    blockEnd ins (b.onHost host) = movedTo host (blockEnd ins b) := by
  by_cases hw : bit ins 21 = true
  · simp only [blockEnd, Block.onHost, if_pos hw]
    cases b.failed with
    | true => rfl
    | false => rfl
  · simp only [blockEnd, Block.onHost, if_neg hw]
    cases b.failed with
    | true => rfl
    | false => rfl

theorem ldmTransfer_onHost (ins : Word) (b : Block) :
    ldmTransfer ins (b.onHost host) = (ldmTransfer ins b).onHost host := by
  have husr : ∀ b, ldmLoop armWriteUsrRegister ins (Block.onHost b host) =
      (ldmLoop armWriteUsrRegister ins b).onHost host :=
    ldmLoop_onHost host (fun _ _ _ => rfl) ins
  have hreg : ∀ b, ldmLoop armWriteRegister ins (Block.onHost b host) =
      (ldmLoop armWriteRegister ins b).onHost host :=
    ldmLoop_onHost host (fun _ _ _ => rfl) ins
  cases h22 : bit ins 22 with
  | false =>
    simp only [ldmTransfer, h22, Bool.false_and, Bool.false_eq_true, if_false, Bool.not_false, if_true]
    exact hreg b
  | true =>
    simp only [ldmTransfer, h22, Bool.true_and, Bool.not_true, Bool.false_eq_true, if_false]
    split
    · exact husr b
    · rfl

theorem ldm_onHost (ins : Word) :
    ldm (p.onHost host) ins = (ldm p ins).map (movedTo host) := by
  simp only [ldm]
  have hend : ∀ q address, blockEnd ins (ldmTransfer ins ⟨ArmCore.onHost q host, address, 0, false⟩) =
      movedTo host (blockEnd ins (ldmTransfer ins ⟨q, address, 0, false⟩)) := by
    intro q address
    rw [← blockEnd_onHost, ← ldmTransfer_onHost]
    rfl
  split
  · rw [show armReadSpsr (p.onHost host) = armReadSpsr p from rfl]
    cases armReadSpsr p with
    | error e => rfl
    | ok v => exact congrArg Except.ok (hend (armWriteCpsr p v) _)
  · exact congrArg Except.ok (hend p _)

theorem stm_onHost (ins : Word) : stm (p.onHost host) ins = movedTo host (stm p ins) := by
  have hr : ∀ p i, (if bit ins 22 then armReadUsrRegister else armReadRegister)
      (ArmCore.onHost p host) i = (if bit ins 22 then armReadUsrRegister else armReadRegister) p i := by
    intro p i
    split
    · rfl
    · rfl
  simp only [stm]
  rw [← blockEnd_onHost]
  exact congrArg (blockEnd ins) (stmLoop_onHost host hr ins (blockBegin p ins))

theorem armLoadStoreMultiple_onHost (ins : Word) :
    armLoadStoreMultiple (p.onHost host) ins = (armLoadStoreMultiple p ins).map (movedTo host) := by
  unfold armLoadStoreMultiple
  split
  · exact ldm_onHost p host ins
  · rw [stm_onHost]
    rfl

/-! ### The other classes -/

theorem armMiscellaneous_onHost (ins : Word) :
    armMiscellaneous (p.onHost host) ins = (armMiscellaneous p ins).map (movedTo host) := by
  unfold armMiscellaneous
  dsimp only
  split
  · rw [show armReadSpsr (p.onHost host) = armReadSpsr p from rfl]
    cases armReadSpsr p with
    | error e => rfl
    | ok v => rfl
  · rfl

theorem armBranch_onHost (ins : Word) :
    armBranch (p.onHost host) ins = movedTo host (armBranch p ins) := by
  simp only [armBranch]
  split
  · rfl
  · rfl

theorem armCoprocessorOthersSwi_onHost (ins : Word) :
    armCoprocessorOthersSwi (p.onHost host) ins =
      (armCoprocessorOthersSwi p ins).map (movedTo host) := by
  unfold armCoprocessorOthersSwi
  split
  · split
    · rfl
    · rfl
  · rfl

theorem armDispatch_onHost (ins : Word) :
    armDispatch (p.onHost host) ins = (armDispatch p ins).map (movedTo host) := by
  have hls : Except.ok (ε := Halt) (armLoadStore (p.onHost host) ins) =
      (Except.ok (armLoadStore p ins)).map (movedTo host) :=
    congrArg Except.ok (armLoadStore_onHost p host ins)
  have hdp : Except.ok (ε := Halt) (armDataProcessingShift (p.onHost host) ins) =
      (Except.ok (armDataProcessingShift p ins)).map (movedTo host) :=
    congrArg Except.ok (armDataProcessingShift_onHost p host ins)
  unfold armDispatch
  generalize (getBits ins 27 25).toNat = k
  split
  · split
    · exact hls
    · split
      · exact armMiscellaneous_onHost p host ins
      · exact hdp
  · exact hdp
  · exact hls
  · exact hls
  · exact armLoadStoreMultiple_onHost p host ins
  · exact congrArg Except.ok (armBranch_onHost p host ins)
  · exact armCoprocessorOthersSwi_onHost p host ins
  · rfl

/-- **A step does the same on a host of either byte order.** -/
theorem armStep_onHost : armStep (p.onHost host) = (armStep p).map (movedTo host) := by
  rw [armStep_eq, armStep_eq, armExecuteInstruction, armExecuteInstruction, armFetch_onHost]
  obtain ⟨value, q⟩ := armFetch p
  cases value with
  | none => rfl
  | some ins =>
    dsimp only
    rw [show conditionPassed (q.onHost host) ins = conditionPassed q ins from rfl]
    split
    · exact armDispatch_onHost q host ins
    · rfl

end

/-! ### What no function of the core looks at -/

/-- A change of the core that leaves its registers and its memory alone, and that no function
of it notices. -/
structure Neutral (f : ArmCore → ArmCore) : Prop where
  reg : ∀ p, (f p).reg = p.reg
  mem : ∀ p, (f p).mem = p.mem
  write : ∀ p reg mem, f { p with reg := reg, mem := mem } = { f p with reg := reg, mem := mem }
  word : ∀ p address, armReadWord (f p) address = armReadWord p address
  step : ∀ p, armStep (f p) = (armStep p).map fun x => (x.1, f x.2)

theorem neutral_id : Neutral id where
  reg _ := rfl
  mem _ := rfl
  write _ _ _ := rfl
  word _ _ := rfl
  step p := by
    rw [id]
    cases armStep p <;> rfl

theorem neutral_onHost (host : Endian) : Neutral (·.onHost host) where
  reg _ := rfl
  mem _ := rfl
  write _ _ _ := rfl
  word p address := armReadWord_onHost p host address
  step p := armStep_onHost p host

namespace Neutral

variable {f : ArmCore → ArmCore} (h : Neutral f) (p : ArmCore)
include h

theorem armReadRegister (i : Fin 16) : armReadRegister (f p) i = armReadRegister p i := by
  rw [Armator.armReadRegister, h.reg]
  rfl

theorem armReadCpsr : armReadCpsr (f p) = armReadCpsr p := by
  rw [Armator.armReadCpsr, h.reg]
  rfl

theorem armWriteRegister (i : Fin 16) (value : Word) :
    armWriteRegister (f p) i value = f (armWriteRegister p i value) := by
  have hw := h.write p (writeRegister p.reg i value) p.mem
  rw [Armator.armWriteRegister, h.reg]
  refine Eq.trans ?_ hw.symm
  rw [← h.mem p]

theorem armWriteCpsr (value : Word) : armWriteCpsr (f p) value = f (armWriteCpsr p value) := by
  have hw := h.write p (writeCpsr p.reg value) p.mem
  rw [Armator.armWriteCpsr, h.reg]
  refine Eq.trans ?_ hw.symm
  rw [← h.mem p]

theorem setMem (mem : Memory) : { f p with mem := mem } = f { p with mem := mem } := by
  refine Eq.trans ?_ (h.write p p.reg mem).symm
  rw [← h.reg p]

end Neutral

end Armator
