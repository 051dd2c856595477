import Armator.Machine

/-!
# The alignment of the pc

A read of r15 masks with `0xFFFFFFFD`, which clears bit 1 and keeps bit 0.  So the
pc is seen aligned exactly when the stored r15 is even (`pcAligned_iff`), and it is
up to the instructions that write r15 to keep it so.  Branches, `ldr` and `ldm` do;
the others write what they computed.

`writesOddPc` says, from the operands of an instruction, that it leaves an odd
value in r15: a data processing instruction to r15 whose result has its lowest bit
set, an `mrs` to r15 of an odd status register, an `ldrb` or `ldrh` to r15 of an odd
value, and a single transfer that writes an odd offset back to r15.  Starting from
an aligned pc, a run stays aligned exactly as long as it executes none of them
(`steps_pcAligned_iff`).
-/

namespace Armator

/-- The two values the code takes from the pc are multiples of 4. -/
def PcAligned (p : ArmCore) : Prop :=
  (armReadRegister p 15).toNat % 4 = 0 ∧ (fetchAddress p).toNat % 4 = 0

/-! ### The instructions that write an odd pc -/

/-- The lowest bit of a word. -/
def low (w : Word) : Bool := w.getLsbD 0

/-- The lowest bit of the result of an operation, from those of its operands and
the carry; the comparisons write no register. -/
def aluLow (opcode : Nat) (rn so c : Bool) : Option Bool :=
  match opcode with
  | 0b0000 => some (rn && so)
  | 0b0001 => some (rn ^^ so)
  | 0b0010 => some (rn ^^ so)
  | 0b0011 => some (rn ^^ so)
  | 0b0100 => some (rn ^^ so)
  | 0b0101 => some (rn ^^ so ^^ c)
  | 0b0110 => some (rn ^^ so ^^ !c)
  | 0b0111 => some (rn ^^ so ^^ !c)
  | 0b1000 => none
  | 0b1001 => none
  | 0b1010 => none
  | 0b1011 => none
  | 0b1100 => some (rn || so)
  | 0b1101 => some so
  | 0b1110 => some (rn && !so)
  | _ => some !so

/-- A data processing instruction to r15 with an odd result. -/
def dataProcessingOdd (p : ArmCore) (ins : Word) : Bool :=
  regNum (getBits ins 15 12) = 15 &&
    (aluLow (getBits ins 24 21).toNat (low (armReadRegister p (regNum (getBits ins 19 16))))
      (low (shifterOperand p ins).1) (bit (armReadCpsr p) flagC)).getD false

/-- The offset of a single transfer. -/
def singleOffset (p : ArmCore) (ins : Word) : Word :=
  if bit ins 26 then decodeOff p ins else decodeOffH p ins

/-- The write-back of a single transfer to r15 by an odd offset. -/
def writeBackOdd (rn : Fin 16) (off : Word) (pBit wBit : Bool) : Bool :=
  rn = 15 && (!pBit || wBit) && low off

/-- A load: of an odd value to r15, or one that leaves r15 to the write-back. -/
def loadOdd (rd : Fin 16) (value : Option Bool) (back : Bool) : Bool :=
  match value with
  | some odd => if rd = 15 then odd else back
  | none => back

/-- A single transfer that leaves r15 odd.  The word that `ldr` loads to r15 has its
low bits cleared, the byte of `ldrb` and the half of `ldrh` have not. -/
def singleOdd (p : ArmCore) (ins : Word) : Bool :=
  let rn := regNum (getBits ins 19 16)
  let rd := regNum (getBits ins 15 12)
  let off := singleOffset p ins
  let address := accessAddress (armReadRegister p rn) off (bit ins 24) (bit ins 23)
  let back := writeBackOdd rn off (bit ins 24) (bit ins 21)
  if !bit ins 20 then back
  else if !bit ins 26 then loadOdd rd ((armReadHalf p address).map (·.getLsbD 0)) back
  else if bit ins 22 then loadOdd rd ((armReadByte p address).map (·.getLsbD 0)) back
  else loadOdd rd ((armReadWord p address).map fun _ => false) back

/-- An `mrs` to r15 of an odd status register. -/
def miscellaneousOdd (p : ArmCore) (ins : Word) : Bool :=
  regNum (getBits ins 15 12) = 15 &&
    if bit ins 22 then
      match armReadSpsr p with
      | .ok value => low value
      | .error _ => false
    else low (armReadCpsr p)

/-- The instruction leaves an odd value in r15. -/
def writesOddPc (p : ArmCore) (ins : Word) : Bool :=
  match (getBits ins 27 25).toNat with
  | 0b000 =>
    if bit ins 7 ∧ bit ins 4 then singleOdd p ins
    else if bit ins 24 ∧ ¬bit ins 23 ∧ ¬bit ins 20 ∧ ¬bit ins 4 then miscellaneousOdd p ins
    else dataProcessingOdd p ins
  | 0b001 => dataProcessingOdd p ins
  | 0b010 => singleOdd p ins
  | 0b011 => singleOdd p ins
  | _ => false

/-- The next step executes such an instruction. -/
def stepsToOddPc (p : ArmCore) : Bool :=
  match armFetch p with
  | (some ins, q) => conditionPassed q ins && writesOddPc q ins
  | (none, _) => false

/-! ### The stored pc -/

/-- The stored r15 is odd. -/
def pcOdd (p : ArmCore) : Bool := low (p.reg.registers pcCell)

theorem low_add (a b : Word) : low (a + b) = (low a ^^ low b) := by
  rw [low, BitVec.getLsbD_add (by omega)]
  simp [low]

theorem low_sub (a b : Word) : low (a - b) = (low a ^^ low b) := by
  rw [← Bool.xor_right_inj (x := low b), ← low_add, add_comm, sub_add_cancel, Bool.xor_comm,
    Bool.xor_assoc, Bool.xor_self, Bool.xor_false]

theorem low_pcView (value : Word) : low (pcView value) = low value := by
  have h : low (pcView value) = low (value + 4) := by simp [low, pcView]
  rw [h, low_add]
  exact Bool.xor_false _

theorem low_armReadRegister_pc (p : ArmCore) : low (armReadRegister p 15) = pcOdd p := by
  have h : armReadRegister p 15 = pcView (p.reg.registers pcCell) := by
    show pcView (p.reg.registers (cell _ 15)) = _
    rw [cell_pc]
  rw [h, low_pcView]
  rfl

theorem low_iff (w : Word) : low w = false ↔ w.toNat % 2 = 0 := by
  rw [low, ← BitVec.testBit_toNat, Nat.testBit_zero]
  simp

/-- **The pc is seen aligned exactly when the stored r15 is even.** -/
theorem pcAligned_iff (p : ArmCore) : PcAligned p ↔ pcOdd p = false := by
  have hbit : (armReadRegister p 15).getLsbD 1 = false := by
    show (pcView _).getLsbD 1 = false
    simp [pcView]
  have hmod : (armReadRegister p 15).toNat % 4 = 0 ↔ (armReadRegister p 15).toNat % 2 = 0 := by
    rw [← BitVec.testBit_toNat, Nat.testBit_eq_decide_div_mod_eq, decide_eq_false_iff_not] at hbit
    omega
  have hfetch : (fetchAddress p).toNat % 4 = (armReadRegister p 15).toNat % 4 := by
    rw [fetchAddress, BitVec.toNat_sub, show (4 : Word).toNat = 4 from rfl]
    omega
  rw [PcAligned, hfetch, and_self, hmod, ← low_iff, low_armReadRegister_pc]

/-- Every mode sees the one r15. -/
theorem low_set (r : Registers) (m : Fin 7) (reg : Fin 16) (value : Word) :
    low ((r.set (cell m reg.castSucc) value).registers pcCell) =
      if reg = 15 then low value else low (r.registers pcCell) := by
  split
  next h =>
    subst h
    rw [show (15 : Fin 16).castSucc = 15 from rfl, cell_pc, Registers.set_same]
  next h =>
    rw [Registers.set_of_ne _ _ fun e => h ?_]
    rw [← cell_pc m] at e
    exact Fin.castSucc_injective _ (cell_injective _ e).symm

theorem pcOdd_armWriteRegister (p : ArmCore) (reg : Fin 16) (value : Word) :
    pcOdd (armWriteRegister p reg value) = if reg = 15 then low value else pcOdd p :=
  low_set p.reg _ reg value

theorem pcOdd_armWriteUsrRegister (p : ArmCore) (reg : Fin 16) (value : Word) :
    pcOdd (armWriteUsrRegister p reg value) = if reg = 15 then low value else pcOdd p :=
  low_set p.reg _ reg value

@[simp] theorem pcOdd_armWriteCpsr (p : ArmCore) (value : Word) :
    pcOdd (armWriteCpsr p value) = pcOdd p := by
  simp only [pcOdd, armWriteCpsr, writeCpsr_eq]
  rw [Registers.set_of_ne _ _ (by decide)]

theorem pcOdd_of_reg {p q : ArmCore} (h : q.reg = p.reg) : pcOdd q = pcOdd p := by
  rw [pcOdd, h]
  rfl

theorem pcOdd_armFetch (p : ArmCore) : pcOdd (armFetch p).2 = pcOdd p := by
  show pcOdd (armWriteRegister { p with cycleCount := p.cycleCount + 1 } 15
    (armReadRegister { p with cycleCount := p.cycleCount + 1 } 15 - 4 + 4)) = pcOdd p
  rw [pcOdd_armWriteRegister, if_pos rfl, sub_add_cancel, low_armReadRegister_pc]
  rfl

/-! ### Data processing -/

theorem pcOdd_handleRd15 (p : ArmCore) (rd : Fin 16) (sBit : Bool) :
    pcOdd (handleRd15 p rd sBit) = pcOdd p := by
  unfold handleRd15
  split
  · split
    · rw [pcOdd_armWriteCpsr]
    · rfl
  · rfl

theorem pcOdd_aluWrite {flags : ArmCore → ArmCore} (hf : ∀ q, pcOdd (flags q) = pcOdd q)
    (p : ArmCore) (rd : Fin 16) (res : Word) (sBit : Bool) :
    pcOdd (Alu.aluWrite flags p rd res sBit) = if rd = 15 then low res else pcOdd p := by
  have hr : pcOdd (handleRd15 (armWriteRegister p rd res) rd sBit) =
      if rd = 15 then low res else pcOdd p := by
    rw [pcOdd_handleRd15, pcOdd_armWriteRegister]
  simp only [Alu.aluWrite]
  split
  · rw [hf, hr]
  · exact hr

theorem low_notCarry (p : ArmCore) : low (Alu.notCarry p) = !bit (armReadCpsr p) flagC := by
  rw [Alu.notCarry]
  cases bit (armReadCpsr p) flagC <;> rfl

theorem low_getBit (x : Word) (i : Nat) : low (getBit x i) = bit x i := by
  rw [getBit_eq_ite]
  cases bit x i <;> rfl

/-- What each operation leaves in r15. -/
theorem pcOdd_select (opcode : Nat) {p : ArmCore} (hp : pcOdd p = false) (rd : Fin 16)
    (rn so : Word) (sBit : Bool) :
    pcOdd (Alu.select opcode p rd rn so sBit) =
      (rd = 15 && (aluLow opcode (low rn) (low so) (bit (armReadCpsr p) flagC)).getD false) := by
  have hw : ∀ {flags : ArmCore → ArmCore} {res : Word} {b : Bool},
      (∀ q, pcOdd (flags q) = pcOdd q) → low res = b →
      pcOdd (Alu.aluWrite flags p rd res sBit) = (decide (rd = 15) && (some b).getD false) := by
    intro flags res b hf hb
    rw [pcOdd_aluWrite hf, hp, hb]
    by_cases h : rd = 15 <;> simp [h]
  have hn : ∀ {q : ArmCore}, pcOdd q = pcOdd p →
      pcOdd q = (decide (rd = 15) && (none : Option Bool).getD false) := by
    intro q hq
    rw [hq, hp, Option.getD_none, Bool.and_false]
  unfold Alu.select
  split
  · exact hw (fun _ => pcOdd_armWriteCpsr _ _) (by simp [low])
  · exact hw (fun _ => pcOdd_armWriteCpsr _ _) (by simp [low])
  · exact hw (fun _ => pcOdd_armWriteCpsr _ _) (low_sub _ _)
  · exact hw (fun _ => pcOdd_armWriteCpsr _ _) (by rw [low_sub, Bool.xor_comm])
  · exact hw (fun _ => pcOdd_armWriteCpsr _ _) (low_add _ _)
  · exact hw (fun _ => pcOdd_armWriteCpsr _ _) (by rw [low_add, low_add, low_getBit])
  · exact hw (fun _ => pcOdd_armWriteCpsr _ _) (by rw [low_sub, low_sub, low_notCarry])
  · exact hw (fun _ => pcOdd_armWriteCpsr _ _)
      (by rw [low_sub, low_sub, low_notCarry, Bool.xor_comm (low so)])
  · exact hn (pcOdd_armWriteCpsr _ _)
  · exact hn (pcOdd_armWriteCpsr _ _)
  · exact hn (pcOdd_armWriteCpsr _ _)
  · exact hn (pcOdd_armWriteCpsr _ _)
  · exact hw (fun _ => pcOdd_armWriteCpsr _ _) (by simp [low])
  · exact hw (fun _ => pcOdd_armWriteCpsr _ _) rfl
  · exact hw (fun _ => pcOdd_armWriteCpsr _ _) (by simp [low])
  · have hmvn : aluLow opcode (low rn) (low so) (bit (armReadCpsr p) flagC) = some (!low so) := by
      unfold aluLow
      split <;> first | rfl | contradiction
    rw [hmvn]
    exact hw (fun _ => pcOdd_armWriteCpsr _ _) (by simp [low])

theorem pcOdd_armDataProcessingShift {p : ArmCore} (hp : pcOdd p = false) (ins : Word) :
    pcOdd (armDataProcessingShift p ins).2 = dataProcessingOdd p ins :=
  pcOdd_select _ (p := (decodeSo p ins).2) hp _ _ _ _

/-! ### Single transfers -/

section Single

variable {p : ArmCore} (hp : pcOdd p = false)

include hp

theorem low_transferAddress_pc (off : Word) (uBit : Bool) :
    low (transferAddress (armReadRegister p 15) off uBit) = low off := by
  rw [transferAddress]
  split
  · rw [low_add, low_armReadRegister_pc, hp, Bool.false_xor]
  · rw [low_sub, low_armReadRegister_pc, hp, Bool.false_xor]

theorem pcOdd_writeBack {q : ArmCore} (hq : pcOdd q = false) (rn : Fin 16) (off : Word)
    (pBit uBit wBit : Bool) :
    pcOdd (writeBack q rn (armReadRegister p rn) off pBit uBit wBit) =
      writeBackOdd rn off pBit wBit := by
  have hw : pcOdd (armWriteRegister q rn (transferAddress (armReadRegister p rn) off uBit)) =
      (decide (rn = 15) && low off) := by
    rw [pcOdd_armWriteRegister, hq]
    split
    next h => rw [h, low_transferAddress_pc hp]; rfl
    next h => simp [h]
  unfold writeBack writeBackOdd
  cases pBit with
  | true =>
    cases wBit with
    | true => simpa using hw
    | false => simpa using hq
  | false => simpa using hw

theorem pcOdd_storeSingle {write : ArmCore → Word → Int × ArmCore}
    (hw : ∀ q a, (write q a).2.reg = q.reg) (rn : Fin 16) (off : Word) (pBit uBit wBit : Bool) :
    pcOdd (storeSingle write p rn off pBit uBit wBit).2 = writeBackOdd rn off pBit wBit := by
  have hb := pcOdd_writeBack hp (q := (write p (accessAddress (armReadRegister p rn) off pBit uBit)).2)
    ((pcOdd_of_reg (hw _ _)).trans hp) rn off pBit uBit wBit
  simp only [storeSingle]
  split
  · exact hb
  · exact hb

/-- A load, where `odd` is the lowest bit of what goes to r15. -/
theorem pcOdd_loadSingle {α : Type} {read : ArmCore → Word → Option α}
    {load : ArmCore → α → ArmCore} {rd : Fin 16} {odd : α → Bool}
    (hl : ∀ q v, pcOdd (load q v) = if rd = 15 then odd v else pcOdd q) (rn : Fin 16)
    (off : Word) (pBit uBit wBit : Bool) :
    pcOdd (loadSingle read load p rn off pBit uBit wBit).2 =
      loadOdd rd ((read p (accessAddress (armReadRegister p rn) off pBit uBit)).map odd)
        (writeBackOdd rn off pBit wBit) := by
  have hb := pcOdd_writeBack hp hp rn off pBit uBit wBit
  simp only [loadSingle]
  cases read p (accessAddress (armReadRegister p rn) off pBit uBit) with
  | none => exact hb
  | some v => exact (hl _ v).trans (by rw [hb]; rfl)

theorem pcOdd_ldr (rd rn : Fin 16) (off : Word) (pBit uBit wBit : Bool) :
    pcOdd (ldr p rd rn off pBit uBit wBit).2 =
      loadOdd rd ((armReadWord p (accessAddress (armReadRegister p rn) off pBit uBit)).map
        fun _ => false) (writeBackOdd rn off pBit wBit) := by
  refine pcOdd_loadSingle hp (fun q v => ?_) rn off pBit uBit wBit
  rw [pcOdd_armWriteRegister]
  split
  · simp [low]
  · rfl

theorem pcOdd_ldrb (rd rn : Fin 16) (off : Word) (pBit uBit wBit : Bool) :
    pcOdd (ldrb p rd rn off pBit uBit wBit).2 =
      loadOdd rd ((armReadByte p (accessAddress (armReadRegister p rn) off pBit uBit)).map
        (·.getLsbD 0)) (writeBackOdd rn off pBit wBit) := by
  refine pcOdd_loadSingle hp (fun q v => ?_) rn off pBit uBit wBit
  rw [pcOdd_armWriteRegister]
  simp [low]

theorem pcOdd_ldrh (rd rn : Fin 16) (off : Word) (pBit uBit wBit : Bool) :
    pcOdd (ldrh p rd rn off pBit uBit wBit).2 =
      loadOdd rd ((armReadHalf p (accessAddress (armReadRegister p rn) off pBit uBit)).map
        (·.getLsbD 0)) (writeBackOdd rn off pBit wBit) := by
  refine pcOdd_loadSingle hp (fun q v => ?_) rn off pBit uBit wBit
  rw [pcOdd_armWriteRegister]
  simp [low]

theorem pcOdd_armLoadStore (ins : Word) : pcOdd (armLoadStore p ins).2 = singleOdd p ins := by
  simp only [armLoadStore, singleOdd, singleOffset]
  cases bit ins 26 with
  | true =>
    simp only [if_true, Bool.not_true, Bool.false_eq_true, if_false]
    cases bit ins 22 with
    | true =>
      cases bit ins 20 with
      | true => exact pcOdd_ldrb hp ..
      | false => exact pcOdd_storeSingle hp (fun _ _ => rfl) ..
    | false =>
      cases bit ins 20 with
      | true => exact pcOdd_ldr hp ..
      | false => exact pcOdd_storeSingle hp (fun _ _ => rfl) ..
  | false =>
    simp only [Bool.false_eq_true, if_false, Bool.not_false, if_true]
    cases bit ins 20 with
    | true =>
      simp only [if_true, Bool.not_true, Bool.false_eq_true, if_false]
      exact pcOdd_ldrh hp ..
    | false =>
      simp only [if_true, Bool.not_false, Bool.false_eq_true, if_false, strh]
      exact pcOdd_storeSingle hp (fun _ _ => rfl) ..

end Single

/-! ### Block transfers -/

/-- The invariant of the loops: r15 stays even, and the address keeps the lowest bit
it started with. -/
structure EvenBlock (a : Bool) (b : Block) : Prop where
  pc : pcOdd b.p = false
  address : low b.address = a

theorem low_blockStep (ins : Word) : low (blockStep ins) = false := by
  rw [blockStep]
  cases bit ins 23 <;> rfl

theorem low_add_blockStep (ins address : Word) :
    low (address + blockStep ins) = low address := by
  rw [low_add, low_blockStep, Bool.xor_false]

namespace EvenBlock

variable {a : Bool} {b : Block}

theorem ldmLoop {write : ArmCore → Fin 16 → Word → ArmCore}
    (hw : ∀ q i v, pcOdd (write q i v) = if i = 15 then low v else pcOdd q) (ins : Word)
    (h : EvenBlock a b) : EvenBlock a (ldmLoop write ins b) := by
  have hloop := List.foldlRecOn (motive := EvenBlock a) (List.finRange 15)
    (fun b (i : Fin 15) =>
      if bit ins i then ldmRegister write id (blockStep ins) b i.castSucc else b) h
    (fun b hb i _ => by
      split
      · refine ⟨?_, (low_add_blockStep ins _).trans hb.address⟩
        exact (hw _ _ _).trans ((if_neg (Fin.castSucc_lt_last i).ne).trans hb.pc)
      · exact hb)
  simp only [Armator.ldmLoop]
  split
  · refine ⟨?_, (low_add_blockStep ins _).trans hloop.address⟩
    refine (hw _ _ _).trans ?_
    simp [low]
  · exact hloop

theorem stmLoop (read : ArmCore → Fin 16 → Word) (ins : Word) (h : EvenBlock a b) :
    EvenBlock a (stmLoop read ins b) := by
  refine List.foldlRecOn (motive := EvenBlock a) (List.finRange 16) _ h fun b hb i _ => ?_
  split
  · exact ⟨hb.pc, (low_add_blockStep ins _).trans hb.address⟩
  · exact hb

theorem ldmTransfer (ins : Word) (h : EvenBlock a b) : EvenBlock a (ldmTransfer ins b) := by
  have h1 : EvenBlock a (if bit ins 22 && !bit ins 15 then
      Armator.ldmLoop armWriteUsrRegister ins b else b) := by
    split
    · exact h.ldmLoop pcOdd_armWriteUsrRegister ins
    · exact h
  simp only [Armator.ldmTransfer]
  split
  · exact h1.ldmLoop pcOdd_armWriteRegister ins
  · exact h1

/-- The final write-back to r15 gives back a base that was even. -/
theorem blockEnd (ins : Word) (h : EvenBlock a b)
    (ha : regNum (getBits ins 19 16) = 15 → a = false) : pcOdd (blockEnd ins b).2 = false := by
  have hbase : low (blockBase ins b.address) = a := by
    rw [blockBase, ← h.address]
    split
    · rfl
    · rfl
    · rw [low_add]; exact Bool.xor_false _
    · rw [low_sub]; exact Bool.xor_false _
  have hb : pcOdd (if bit ins 21 then
      armWriteRegister b.p (regNum (getBits ins 19 16)) (blockBase ins b.address)
      else b.p) = false := by
    split
    · rw [pcOdd_armWriteRegister, hbase, h.pc]
      split
      next h15 => exact ha h15
      next => rfl
    · exact h.pc
  simp only [Armator.blockEnd]
  split
  · exact hb
  · exact hb

end EvenBlock

section Classes

variable {p : ArmCore} (hp : pcOdd p = false)

include hp

theorem low_blockStart {ins : Word} {rn : Fin 16} (h : rn = 15) :
    low (blockStart ins (armReadRegister p rn)) = false := by
  rw [blockStart, h]
  split
  · rw [low_add_blockStep, low_armReadRegister_pc, hp]
  · rw [low_armReadRegister_pc, hp]

theorem pcOdd_armLoadStoreMultiple {ins : Word} {r : Int} {q : ArmCore}
    (h : armLoadStoreMultiple p ins = .ok (r, q)) : pcOdd q = false := by
  have hbegin : ∀ p', pcOdd p' = false →
      EvenBlock (low (blockBegin p ins).address) ⟨p', (blockBegin p ins).address, 0, false⟩ :=
    fun p' hp' => ⟨hp', rfl⟩
  have hres : ∀ {x : Int × ArmCore}, (.ok x : Except Halt _) = .ok (r, q) → pcOdd x.2 = false →
      pcOdd q = false := by
    intro x e hx
    rwa [Except.ok.inj e] at hx
  rw [armLoadStoreMultiple] at h
  split at h
  · cases hr : (bit ins 22 && bit ins 15) with
    | false =>
      rw [ldm_eq p ins hr] at h
      exact hres h (((hbegin p hp).ldmTransfer ins).blockEnd ins (low_blockStart hp))
    | true =>
      cases hs : armReadSpsr p with
      | error e => simp only [ldm, hr, hs] at h; cases h
      | ok v =>
        simp only [ldm, hr, hs] at h
        have hc := hbegin (armWriteCpsr p v) ((pcOdd_armWriteCpsr p v).trans hp)
        exact hres h ((hc.ldmTransfer ins).blockEnd ins (low_blockStart hp))
  · exact hres h (((hbegin p hp).stmLoop _ ins).blockEnd ins (low_blockStart hp))

/-! ### Other instructions -/

theorem pcOdd_armMiscellaneous {ins : Word} {r : Int} {q : ArmCore}
    (h : armMiscellaneous p ins = .ok (r, q)) : pcOdd q = miscellaneousOdd p ins := by
  unfold armMiscellaneous at h
  unfold miscellaneousOdd
  dsimp only at h
  split at h
  next h22 =>
    cases hs : armReadSpsr p with
    | error e => rw [hs] at h; cases h
    | ok v =>
      rw [hs] at h
      cases h
      rw [pcOdd_armWriteRegister, hp, if_pos h22]
      by_cases h15 : regNum (getBits ins 15 12) = 15 <;> simp [h15]
  next h22 =>
    cases h
    rw [pcOdd_armWriteRegister, hp, if_neg h22]
    by_cases h15 : regNum (getBits ins 15 12) = 15 <;> simp [h15]

theorem pcOdd_armBranch (ins : Word) : pcOdd (armBranch p ins).2 = false := by
  have hlink : pcOdd (if bit ins 24 then armWriteRegister p 14 (armReadRegister p 15 - 4) else p) =
      false := by
    split
    · rw [pcOdd_armWriteRegister, if_neg (by decide), hp]
    · exact hp
  have hshift : ∀ target, low (shl target 2) = false := by
    intro target
    simp [low, shl]
  simp only [armBranch]
  rw [pcOdd_armWriteRegister, if_pos rfl, low_add, low_armReadRegister_pc, hlink, hshift]
  rfl

/-! ### A step -/

/-- **What an instruction leaves in an even r15.** -/
theorem pcOdd_armDispatch {ins : Word} {r : Int} {q : ArmCore}
    (h : armDispatch p ins = .ok (r, q)) : pcOdd q = writesOddPc p ins := by
  have hres : ∀ {x : Int × ArmCore} {b : Bool}, (.ok x : Except Halt _) = .ok (r, q) →
      pcOdd x.2 = b → pcOdd q = b := by
    intro x b e hx
    rwa [Except.ok.inj e] at hx
  rw [armDispatch] at h
  rw [writesOddPc]
  generalize (getBits ins 27 25).toNat = c at h ⊢
  split at h
  · simp only
    split at h
    next h74 => rw [if_pos h74]; exact hres h (pcOdd_armLoadStore hp ins)
    next h74 =>
      rw [if_neg h74]
      split at h
      next hm => rw [if_pos hm]; exact pcOdd_armMiscellaneous hp h
      next hm => rw [if_neg hm]; exact hres h (pcOdd_armDataProcessingShift hp ins)
  · exact hres h (pcOdd_armDataProcessingShift hp ins)
  · exact hres h (pcOdd_armLoadStore hp ins)
  · exact hres h (pcOdd_armLoadStore hp ins)
  · exact pcOdd_armLoadStoreMultiple hp h
  · exact hres h (pcOdd_armBranch hp ins)
  · rw [armCoprocessorOthersSwi] at h
    split at h
    · split at h
      · cases h
      · exact hres h hp
    · exact hres h hp
  · simp only
    exact hres h hp

omit hp in
/-- An instruction that leaves an odd value in r15 does not end the process. -/
theorem armDispatch_of_writesOddPc {ins : Word} (h : writesOddPc p ins = true) :
    ∃ x, armDispatch p ins = .ok x := by
  rw [writesOddPc] at h
  rw [armDispatch]
  generalize (getBits ins 27 25).toNat = c at h ⊢
  split
  · split
    · exact ⟨_, rfl⟩
    · split
      next h74 hm =>
        simp only at h
        rw [if_neg h74, if_pos hm, miscellaneousOdd, Bool.and_eq_true] at h
        rw [armMiscellaneous]
        split
        next h22 =>
          rw [if_pos h22] at h
          cases hs : armReadSpsr p with
          | error e => rw [hs] at h; exact absurd h.2 Bool.false_ne_true
          | ok v => exact ⟨_, rfl⟩
        next => exact ⟨_, rfl⟩
      next => exact ⟨_, rfl⟩
  · exact ⟨_, rfl⟩
  · exact ⟨_, rfl⟩
  · exact ⟨_, rfl⟩
  · exact absurd h Bool.false_ne_true
  · exact ⟨_, rfl⟩
  · exact absurd h Bool.false_ne_true
  · exact ⟨_, rfl⟩

theorem pcOdd_armStep {r : Int} {q : ArmCore} (h : armStep p = .ok (r, q)) :
    pcOdd q = stepsToOddPc p := by
  have hf := (pcOdd_armFetch p).trans hp
  rw [stepsToOddPc]
  rcases armStep_ok_cases h with ⟨hn, -, rfl⟩ | ⟨ins, hins, ⟨hc, -, rfl⟩ | ⟨hc, hd⟩⟩
  · rw [show armFetch p = (none, (armFetch p).2) by rw [← hn]]
    exact hf
  · rw [show armFetch p = (some ins, (armFetch p).2) by rw [← hins]]
    simp only [hc, Bool.false_and]
    exact hf
  · rw [show armFetch p = (some ins, (armFetch p).2) by rw [← hins]]
    simp only [hc, Bool.true_and]
    exact pcOdd_armDispatch hf hd

omit hp in
theorem armStep_of_stepsToOddPc (h : stepsToOddPc p = true) : ∃ r q, armStep p = .ok (r, q) := by
  rw [stepsToOddPc] at h
  rw [armStep_eq, armExecuteInstruction]
  split at h
  next ins q e =>
    rw [Bool.and_eq_true] at h
    obtain ⟨x, hx⟩ := armDispatch_of_writesOddPc h.2
    rw [e]
    simp only [h.1, if_true]
    exact ⟨x.1, x.2, hx⟩
  next => cases h

end Classes

/-! ### Runs -/

theorem steps_pcOdd {p : ArmCore} (hp : pcOdd p = false) {n : Nat}
    (h : ∀ k < n, ∀ q, steps p k = .ok q → stepsToOddPc q = false) :
    ∀ k ≤ n, ∀ q, steps p k = .ok q → pcOdd q = false := by
  intro k
  induction k with
  | zero => intro _ q hq; cases hq; exact hp
  | succ k ih =>
    intro hk u hu
    obtain ⟨r, q, hq, hs⟩ := steps_succ_ok hu
    rw [pcOdd_armStep (ih (by omega) q hq) hs]
    exact h k (by omega) q hq

theorem pcOdd_armCreate (host : Endian) (mem : Memory) : pcOdd (armCreate host mem) = false := by
  show pcOdd (armWriteUsrRegister _ 15 0) = false
  rw [pcOdd_armWriteUsrRegister]
  rfl

/-- **The pc of a run from the creation of the core stays aligned exactly as long as
no step executes an instruction that leaves an odd value in r15.** -/
theorem steps_pcAligned_iff (host : Endian) (mem : Memory) (n : Nat) :
    (∀ k ≤ n, ∀ q, steps (armCreate host mem) k = .ok q → PcAligned q) ↔
      ∀ k < n, ∀ q, steps (armCreate host mem) k = .ok q → stepsToOddPc q = false := by
  simp only [pcAligned_iff]
  constructor
  · intro h k hk q hq
    rw [Bool.eq_false_iff]
    intro hodd
    -- such a step does not end the process, so it leads to an odd pc
    obtain ⟨r, u, hu⟩ := armStep_of_stepsToOddPc hodd
    have hu' := h (k + 1) (by omega) u (steps_succ_of_ok hq hu)
    rw [pcOdd_armStep (h k (by omega) q hq) hu, hodd] at hu'
    cases hu'
  · exact steps_pcOdd (pcOdd_armCreate host mem)

/-- After `mov pc, #1` the pc is seen at 5. -/
theorem mov_pc_one_misaligned :
    ¬ ∀ (host : Endian) (mem : Memory) (n : Nat) (q : ArmCore),
      steps (armCreate host mem) n = .ok q → PcAligned q := by
  intro h
  have hs : (steps (coreOfWord 0xE3A0F001) 1).map (fun q => (armReadRegister q 15).toNat) =
      .ok 5 := by
    decide +kernel
  cases hq : steps (coreOfWord 0xE3A0F001) 1 with
  | error e => rw [hq] at hs; cases hs
  | ok q =>
    rw [hq] at hs
    have ha := (h .little _ 1 q hq).1
    rw [show (armReadRegister q 15).toNat = 5 from Except.ok.inj hs] at ha
    exact absurd ha (by decide)

end Armator
