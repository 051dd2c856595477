import Armator.Machine
import Armator.DataProcessing.Flags

/-!
# What no instruction can break

An instruction changes the core only through the accessors of `arm_core.c`, the global
carry and the cycle count.  The CPSR it writes in two ways only: its flags, or the whole
of it from the SPSR of a mode that has one.  A property that none of these breaks is
`Closed`, and then no instruction breaks it: it is kept by a step (`Closed.armStep`) and
by any number of them (`Closed.steps`).

The size and the byte order of the memory are such properties (`closed_sameShape`).
-/

namespace Armator

/-- No elementary change of the core breaks the property. -/
structure Closed (R : ArmCore → Prop) : Prop where
  armWriteRegister : ∀ {p} i v, R p → R (armWriteRegister p i v)
  armWriteUsrRegister : ∀ {p} i v, R p → R (armWriteUsrRegister p i v)
  writeFlags : ∀ {p} v, (∀ j < 28, v.getLsbD j = (armReadCpsr p).getLsbD j) → R p →
    R (armWriteCpsr p v)
  restoreCpsr : ∀ {p} (h : armCurrentModeHasSpsr p), R p → R (armWriteCpsr p (spsr p.reg h))
  armWriteByte : ∀ {p} a v, R p → R (armWriteByte p a v).2
  armWriteHalf : ∀ {p} a v, R p → R (armWriteHalf p a v).2
  armWriteWord : ∀ {p} a v, R p → R (armWriteWord p a v).2
  shifterCarryOut : ∀ {p} c, R p → R { p with shifterCarryOut := c }
  cycleCount : ∀ {p} n, R p → R { p with cycleCount := n }

theorem armReadSpsr_ok {p : ArmCore} {v : Word} (h : armReadSpsr p = .ok v) :
    ∃ hm : armCurrentModeHasSpsr p, v = spsr p.reg hm := by
  rw [armReadSpsr, readSpsr] at h
  split at h
  · rename_i hm
    exact ⟨hm, (Except.ok.inj h).symm⟩
  · cases h

namespace Closed

variable {R : ArmCore → Prop} (hR : Closed R) {p : ArmCore} (h : R p)

/-! ### The loops of the block transfers -/

theorem ldmLoop {write : ArmCore → Fin 16 → Word → ArmCore}
    (hw : ∀ {p} i v, R p → R (write p i v)) (ins : Word) {b : Block} (h : R b.p) :
    R (ldmLoop write ins b).p := by
  have hloop := List.foldlRecOn (motive := fun b : Block => R b.p) (List.finRange 15)
    (fun b (i : Fin 15) =>
      if bit ins i then ldmRegister write id (blockStep ins) b i.castSucc else b) h
    (fun b hb i _ => by
      split
      · exact hw _ _ hb
      · exact hb)
  simp only [Armator.ldmLoop]
  split
  · exact hw _ _ hloop
  · exact hloop

include hR

theorem stmLoop (read : ArmCore → Fin 16 → Word) (ins : Word) {b : Block} (h : R b.p) :
    R (stmLoop read ins b).p :=
  List.foldlRecOn (motive := fun b : Block => R b.p) (List.finRange 16) _ h
    fun b hb i _ => by
      split
      · exact hR.armWriteWord _ _ hb
      · exact hb

theorem ldmTransfer (ins : Word) {b : Block} (h : R b.p) : R (ldmTransfer ins b).p := by
  have h1 : R (if bit ins 22 && !bit ins 15 then
      Armator.ldmLoop Armator.armWriteUsrRegister ins b else b).p := by
    split
    · exact ldmLoop hR.armWriteUsrRegister ins h
    · exact h
  simp only [Armator.ldmTransfer]
  split
  · exact ldmLoop hR.armWriteRegister ins h1
  · exact h1

theorem blockEnd (ins : Word) {b : Block} (h : R b.p) : R (blockEnd ins b).2 := by
  simp only [Armator.blockEnd]
  split
  · split
    · exact hR.armWriteRegister _ _ h
    · exact h
  · split
    · exact hR.armWriteRegister _ _ h
    · exact h

include h

/-! ### The instruction classes -/

theorem aluWrite {flags : ArmCore → ArmCore} (hf : ∀ p, R p → R (flags p)) (rd : Fin 16)
    (res : Word) (sBit : Bool) : R (Alu.aluWrite flags p rd res sBit) := by
  have hr : R (handleRd15 (Armator.armWriteRegister p rd res) rd sBit) := by
    have hw := hR.armWriteRegister rd res h
    rw [handleRd15]
    split
    · split
      · exact hR.restoreCpsr _ hw
      · exact hw
    · exact hw
  simp only [Alu.aluWrite]
  split
  · exact hf _ hr
  · exact hr

/-! The flags are written to the CPSR. -/

theorem updateFlags1 (res : Word) : R (Armator.updateFlags1 p res) := by
  refine hR.writeFlags _ (fun j hj => ?_) h
  simp only [flagN, flagZ, flagC]
  rw [getLsbD_albit _ (by omega), if_neg (by omega), getLsbD_albit _ (by omega), if_neg (by omega),
    getLsbD_albit _ (by omega), if_neg (by omega)]

theorem writeSetFlags (res : Word) (c v : Bool) :
    R (armWriteCpsr p (setFlags (armReadCpsr p) res c v)) :=
  hR.writeFlags _ (fun _ hj => getLsbD_setFlags _ _ _ _ hj) h

theorem updateFlags2 (res rn so : Word) : R (Armator.updateFlags2 p res rn so) := by
  rw [Armator.updateFlags2]
  exact hR.writeSetFlags h ..

theorem updateFlags3 (res rn so : Word) : R (Armator.updateFlags3 p res rn so) := by
  rw [Armator.updateFlags3]
  exact hR.writeSetFlags h ..

theorem adcFlags (res rn so : Word) : R (Alu.adcFlags p res rn so) := by
  rw [Alu.adcFlags]
  exact hR.writeSetFlags h ..

theorem sbcFlags (res a b : Word) : R (Alu.sbcFlags p res a b) := by
  rw [Alu.sbcFlags]
  exact hR.writeSetFlags h ..

/-- The sixteen operations write a register and the flags, or the flags alone. -/
theorem select (opcode : Nat) (rd : Fin 16) (rn so : Word) (sBit : Bool) :
    R (Alu.select opcode p rd rn so sBit) := by
  have logical : ∀ res, R (Alu.aluWrite (Armator.updateFlags1 · res) p rd res sBit) := fun res =>
    hR.aluWrite h (fun _ hq => hR.updateFlags1 hq res) rd res sBit
  unfold Alu.select
  split
  · exact logical _
  · exact logical _
  · rw [Alu.sub]
    exact hR.aluWrite h (fun _ hq => hR.updateFlags2 hq _ _ _) rd _ sBit
  · rw [Alu.rsb]
    exact hR.aluWrite h (fun _ hq => hR.updateFlags2 hq _ _ _) rd _ sBit
  · rw [Alu.add]
    exact hR.aluWrite h (fun _ hq => hR.updateFlags3 hq _ _ _) rd _ sBit
  · rw [Alu.adc]
    exact hR.aluWrite h (fun _ hq => hR.adcFlags hq _ _ _) rd _ sBit
  · rw [Alu.sbc]
    exact hR.aluWrite h (fun _ hq => hR.sbcFlags hq _ _ _) rd _ sBit
  · rw [Alu.rsc]
    exact hR.aluWrite h (fun _ hq => hR.sbcFlags hq _ _ _) rd _ sBit
  · exact hR.updateFlags1 h _
  · exact hR.updateFlags1 h _
  · exact hR.updateFlags2 h _ _ _
  · exact hR.updateFlags3 h _ _ _
  · exact logical _
  · exact logical _
  · exact logical _
  · exact logical _

theorem writeBack (rn : Fin 16) (rnCont off : Word) (pBit uBit wBit : Bool) :
    R (writeBack p rn rnCont off pBit uBit wBit) := by
  unfold Armator.writeBack
  split
  · split
    · exact hR.armWriteRegister _ _ h
    · exact h
  · exact hR.armWriteRegister _ _ h

theorem storeSingle {write : ArmCore → Word → Int × ArmCore}
    (hw : ∀ {p} a, R p → R (write p a).2) (rn : Fin 16) (off : Word) (pBit uBit wBit : Bool) :
    R (storeSingle write p rn off pBit uBit wBit).2 := by
  have hb := hR.writeBack (hw (accessAddress (armReadRegister p rn) off pBit uBit) h) rn
    (armReadRegister p rn) off pBit uBit wBit
  simp only [Armator.storeSingle]
  split
  · exact hb
  · exact hb

theorem loadSingle {α : Type} (read : ArmCore → Word → Option α) {load : ArmCore → α → ArmCore}
    (hl : ∀ {p} v, R p → R (load p v)) (rn : Fin 16) (off : Word) (pBit uBit wBit : Bool) :
    R (loadSingle read load p rn off pBit uBit wBit).2 := by
  have hb := hR.writeBack h rn (armReadRegister p rn) off pBit uBit wBit
  simp only [Armator.loadSingle]
  split
  · exact hb
  · exact hl _ hb

theorem armLoadStore (ins : Word) : R (armLoadStore p ins).2 := by
  simp only [Armator.armLoadStore]
  split
  · split
    · exact hR.storeSingle h (fun a => hR.armWriteWord a _) _ _ _ _ _
    · exact hR.loadSingle h _ (fun v => hR.armWriteRegister _ _) _ _ _ _ _
    · exact hR.storeSingle h (fun a => hR.armWriteByte a _) _ _ _ _ _
    · exact hR.loadSingle h _ (fun v => hR.armWriteRegister _ _) _ _ _ _ _
  · split
    · exact hR.loadSingle h _ (fun v => hR.armWriteRegister _ _) _ _ _ _ _
    · exact hR.storeSingle h (fun a => hR.armWriteHalf a _) _ _ _ _ _

theorem armLoadStoreMultiple {ins : Word} {r : Int} {q : ArmCore}
    (hd : armLoadStoreMultiple p ins = .ok (r, q)) : R q := by
  rw [Armator.armLoadStoreMultiple] at hd
  split at hd
  · cases hr : (bit ins 22 && bit ins 15) with
    | false =>
      rw [ldm_eq p ins hr] at hd
      have hb := hR.blockEnd ins (hR.ldmTransfer ins (b := blockBegin p ins) h)
      rw [Except.ok.inj hd] at hb
      exact hb
    | true =>
      cases hs : armReadSpsr p with
      | error e =>
        simp only [ldm, hr, hs] at hd
        cases hd
      | ok v =>
        simp only [ldm, hr, hs] at hd
        have hv : R (armWriteCpsr p v) := by
          obtain ⟨hm, rfl⟩ := armReadSpsr_ok hs
          exact hR.restoreCpsr hm h
        have hb := hR.blockEnd ins (hR.ldmTransfer ins (b := ⟨armWriteCpsr p v,
          blockStart ins (armReadRegister p (regNum (getBits ins 19 16))), 0, false⟩) hv)
        have e : Armator.blockEnd ins _ = (r, q) := Except.ok.inj hd
        rw [e] at hb
        exact hb
  · have hb := hR.blockEnd ins (hR.stmLoop (if bit ins 22 then armReadUsrRegister
      else armReadRegister) ins (b := blockBegin p ins) h)
    have e : Armator.blockEnd ins _ = (r, q) := Except.ok.inj hd
    rw [blockBegin, e] at hb
    exact hb

theorem armMiscellaneous {ins : Word} {r : Int} {q : ArmCore}
    (hd : armMiscellaneous p ins = .ok (r, q)) : R q := by
  unfold Armator.armMiscellaneous at hd
  dsimp only at hd
  split at hd
  · cases hs : armReadSpsr p with
    | error e =>
      rw [hs] at hd
      cases hd
    | ok v =>
      rw [hs] at hd
      cases hd
      exact hR.armWriteRegister _ _ h
  · cases hd
    exact hR.armWriteRegister _ _ h

theorem armBranch (ins : Word) : R (armBranch p ins).2 := by
  simp only [Armator.armBranch]
  refine hR.armWriteRegister _ _ ?_
  split
  · exact hR.armWriteRegister _ _ h
  · exact h

/-! ### Steps -/

theorem armDispatch {ins : Word} {r : Int} {q : ArmCore} (hd : armDispatch p ins = .ok (r, q)) :
    R q := by
  revert r q
  have hok : ∀ {x : Int × ArmCore}, R x.2 → ∀ {r : Int} {q : ArmCore},
      (.ok x : Except Halt _) = .ok (r, q) → R q := by
    rintro x hx r q ⟨⟩
    exact hx
  apply armDispatch_cases (motive := fun x => ∀ {r : Int} {q : ArmCore}, x = .ok (r, q) → R q)
  case loadStore => exact hok (hR.armLoadStore h ins)
  case miscellaneous => exact hR.armMiscellaneous h
  case dataProcessing => exact hok (hR.select (hR.shifterCarryOut _ h) _ _ _ _ _)
  case loadStoreMultiple => exact hR.armLoadStoreMultiple h
  case branch => exact hok (hR.armBranch h ins)
  case exited =>
    intro r q hd
    cases hd
  case softwareInterrupt => exact hok h
  case undefined => exact hok h

theorem armFetch : R (armFetch p).2 := hR.armWriteRegister _ _ (hR.cycleCount _ h)

/-- **A step keeps what is closed.** -/
theorem armStep {r : Int} {q : ArmCore} (hs : armStep p = .ok (r, q)) : R q := by
  have hf := hR.armFetch h
  rcases armStep_ok_cases hs with ⟨-, -, rfl⟩ | ⟨ins, -, ⟨-, -, rfl⟩ | ⟨-, hd⟩⟩
  · exact hf
  · exact hf
  · exact hR.armDispatch hf hd

/-- And so do any number of steps. -/
theorem steps {n : Nat} {q : ArmCore} (hs : steps p n = .ok q) : R q := by
  induction n generalizing q with
  | zero =>
    cases hs
    exact h
  | succ n ih =>
    obtain ⟨r, q', hq', hq⟩ := steps_succ_ok hs
    exact hR.armStep (ih hq') hq

end Closed

/-! ### The shape of the memory -/

/-- The memories have the same size and byte order. -/
def SameShape (m m' : Memory) : Prop := m'.size = m.size ∧ m'.isBigEndian = m.isBigEndian

theorem sameShape_written {m : Memory} {p : ArmCore} (h : SameShape m p.mem) {m' : Option Memory}
    (hm : ∀ x, m' = some x → SameShape p.mem x) : SameShape m (p.written m').2.mem := by
  cases m' with
  | none => exact h
  | some x => exact ⟨(hm x rfl).1.trans h.1, (hm x rfl).2.trans h.2⟩

theorem sameShape_memoryWrite {n : Nat} {rev : BitVec (8 * n) → BitVec (8 * n)} {host : Endian}
    {m m' : Memory} {address : Word} {value : BitVec (8 * n)}
    (h : memoryWrite n rev host m address value = some m') : SameShape m m' := by
  rw [memoryWrite] at h
  split at h
  · cases h
    exact ⟨rfl, rfl⟩
  · cases h

theorem closed_sameShape (m : Memory) : Closed fun p => SameShape m p.mem where
  armWriteRegister _ _ h := h
  armWriteUsrRegister _ _ h := h
  writeFlags _ _ h := h
  restoreCpsr _ h := h
  armWriteByte a v h := by
    refine sameShape_written h fun x hx => ?_
    rw [memoryWriteByte] at hx
    split at hx
    · cases hx
      exact ⟨rfl, rfl⟩
    · cases hx
  armWriteHalf a v h := sameShape_written h fun _ hx => sameShape_memoryWrite hx
  armWriteWord a v h := sameShape_written h fun _ hx => sameShape_memoryWrite hx
  shifterCarryOut _ h := h
  cycleCount _ h := h

/-- **Steps do not change the size of the memory.** -/
theorem steps_mem_size {p q : ArmCore} {n : Nat} (h : steps p n = .ok q) :
    q.mem.size = p.mem.size :=
  ((closed_sameShape p.mem).steps (show SameShape p.mem p.mem from ⟨rfl, rfl⟩) h).1

end Armator
