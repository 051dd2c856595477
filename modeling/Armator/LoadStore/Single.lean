import Armator.DataProcessing.Shifter
import Armator.Instruction.Aborts

/-!
# Single transfers

The six single transfers (`Transfer`) differ in their access only.  Each is a load or
a store of a byte, a half or a word; the address, the write-back and the abort are one scheme.

* A transfer whose access lies in the memory does what it says, and nothing else
  (`Transferred`, `exec_transferred`).
* A transfer whose access does not aborts, and only the base register may have changed
  (`Aborted`, `transfer_abort`).

The offsets are decoded apart from that.  That of a word or byte transfer is the
shifter operand of the data processing (`decodeOff_eq_decodeSo`, `wordTransfer_effect`).
That of a half-word transfer takes the immediate for the register and the register for
the immediate, and is right exactly where the two are equal (`halfRight_iff`).
-/

namespace Armator

/-- How much an access transfers. -/
inductive Width
  | byte
  | half
  | word
  deriving DecidableEq, Repr

def Width.bytes : Width → Nat
  | byte => 1
  | half => 2
  | word => 4

inductive Transfer
  | str
  | strb
  | strh
  | ldr
  | ldrb
  | ldrh
  deriving DecidableEq, Repr

namespace Transfer

def width : Transfer → Width
  | str => .word
  | strb => .byte
  | strh => .half
  | ldr => .word
  | ldrb => .byte
  | ldrh => .half

def loads : Transfer → Bool
  | str => false
  | strb => false
  | strh => false
  | ldr => true
  | ldrb => true
  | ldrh => true

def exec (t : Transfer) : ArmCore → Fin 16 → Fin 16 → Word → Bool → Bool → Bool → Int × ArmCore :=
  match t with
  | str => Armator.str
  | strb => Armator.strb
  | strh => Armator.strh
  | ldr => Armator.ldr
  | ldrb => Armator.ldrb
  | ldrh => Armator.ldrh

/-- What a load puts in its destination: a word loaded into r15 loses its low bits. -/
def loadedValue (t : Transfer) (rd : Fin 16) (value : Word) : Word :=
  if t = ldr ∧ rd = 15 then value &&& 0xFFFFFFFC else value

end Transfer

/-! ### Memory as numbers -/

/-- The number that `n` bytes from `address` on make, in the memory's order. -/
def Memory.value (m : Memory) (address : Word) (n : Nat) : Word :=
  (Bytes.ofBytes m.order n fun k => m.memory (address.toNat + k)).setWidth 32

/-- `m'` is `m` with the low `n` bytes of `v` at `address`. -/
structure StoredAt (m m' : Memory) (address : Word) (n : Nat) (v : Word) : Prop where
  value : m'.value address n = (v.setWidth (8 * n)).setWidth 32
  bytes : ∀ i, i < address.toNat ∨ address.toNat + n ≤ i → m'.memory i = m.memory i
  size : m'.size = m.size
  order : m'.isBigEndian = m.isBigEndian

/-- The memory after a store. -/
def Memory.stored (m : Memory) (address : Word) (n : Nat) (v : Word) : Memory :=
  { m with
    memory := Bytes.store m.memory address.toNat n (Bytes.byteOf m.order n (v.setWidth (8 * n))) }

theorem storedAt_stored (m : Memory) (address : Word) (n : Nat) (v : Word) :
    StoredAt m (m.stored address n v) address n v := by
  refine ⟨?_, ?_, rfl, rfl⟩
  · exact congrArg (BitVec.setWidth 32) (Bytes.ofBytes_store_same m.order n m.memory _ _)
  · intro i hi
    exact Bytes.store_of_not_mem _ _ _ _ hi

/-! ### The accesses -/

/-- The write of the low bytes of a value. -/
def Width.write (w : Width) (value : Word) (p : ArmCore) (address : Word) : Int × ArmCore :=
  match w with
  | byte => armWriteByte p address (value.setWidth 8)
  | half => armWriteHalf p address (value.setWidth 16)
  | word => armWriteWord p address value

/-- The value read, extended to a word. -/
def Width.read (w : Width) (p : ArmCore) (address : Word) : Option Word :=
  match w with
  | byte => (armReadByte p address).map (BitVec.setWidth 32)
  | half => (armReadHalf p address).map (BitVec.setWidth 32)
  | word => armReadWord p address

section Accesses

variable (w : Width) {p : ArmCore} {address : Word}

theorem byteOf_one (e : Endian) (v : Byte) : Bytes.byteOf e 1 v 0 = v := by
  cases e <;> simp [Bytes.byteOf, Endian.place]

theorem ofBytes_one (e : Endian) (f : Nat → Byte) : Bytes.ofBytes e 1 f = f 0 := by
  have h := Bytes.ofBytes_byteOf e 1 (f 0)
  rw [← h]
  refine Bytes.ofBytes_congr e fun k hk => ?_
  rw [Nat.lt_one_iff.mp hk, byteOf_one]

/-- **A write in the memory goes through.** -/
theorem write_inMemory (value : Word) (h : (⟨address, w.bytes⟩ : DataAccess).InMemory p.mem) :
    w.write value p address = (0, { p with mem := p.mem.stored address w.bytes value }) := by
  cases w with
  | byte =>
    have hb : Bytes.store p.mem.memory address.toNat 1 (fun _ => value.setWidth 8) =
        Bytes.store p.mem.memory address.toNat 1
          (Bytes.byteOf p.mem.order 1 (value.setWidth (8 * 1))) := by
      refine Bytes.store_congr _ _ fun k hk => ?_
      rw [Nat.lt_one_iff.mp hk]
      exact (byteOf_one p.mem.order _).symm
    rw [Width.write, armWriteByte, memoryWriteByte, if_pos (Nat.lt_of_succ_le h), hb]
    rfl
  | half =>
    have ha : p.mem.admits 2 address = true := admits_of_inMemory address (by decide) h
    rw [Width.write, armWriteHalf, memoryWriteHalf_eq, if_pos ha]
    rfl
  | word =>
    have ha : p.mem.admits 4 address = true := admits_of_inMemory address (by decide) h
    rw [Width.write, armWriteWord_admitted _ ha, Memory.stored, Width.bytes, BitVec.setWidth_eq]

/-- **A read in the memory finds the number that is there.** -/
theorem read_inMemory (h : (⟨address, w.bytes⟩ : DataAccess).InMemory p.mem) :
    w.read p address = some (p.mem.value address w.bytes) := by
  cases w with
  | byte =>
    rw [Width.read, armReadByte, memoryReadByte, if_pos (Nat.lt_of_succ_le h), Memory.value,
      Width.bytes, ofBytes_one]
    rfl
  | half =>
    have ha : p.mem.admits 2 address = true := admits_of_inMemory address (by decide) h
    rw [Width.read, armReadHalf, memoryReadHalf_eq, if_pos ha]
    rfl
  | word =>
    have ha : p.mem.admits 4 address = true := admits_of_inMemory address (by decide) h
    rw [Width.read, armReadWord, memoryReadWord_eq, if_pos ha, Memory.value, Width.bytes,
      BitVec.setWidth_eq]

theorem written_of_ne_zero {m : Option Memory} (h : (p.written m).1 ≠ 0) : (p.written m).2 = p := by
  rw [(written_status_ne_zero_iff m).mp h]
  rfl

/-- A write that is refused changes nothing. -/
theorem write_refused {value : Word} (h : (w.write value p address).1 ≠ 0) :
    (w.write value p address).2 = p := by
  cases w with
  | byte => exact written_of_ne_zero h
  | half => exact written_of_ne_zero h
  | word => exact written_of_ne_zero h

theorem write_reg (value : Word) : (w.write value p address).2.reg = p.reg := by
  cases w with
  | byte => rfl
  | half => rfl
  | word => rfl

theorem read_eq_none_iff (hs : 4 ≤ p.mem.size.toNat) :
    w.read p address = none ↔ ¬ (⟨address, w.bytes⟩ : DataAccess).InMemory p.mem := by
  cases w with
  | byte => exact Option.map_eq_none_iff.trans (armReadByte_none_iff address)
  | half => exact Option.map_eq_none_iff.trans (armReadHalf_none_iff hs address)
  | word => exact armReadWord_none_iff hs address

theorem write_status_iff (hs : 4 ≤ p.mem.size.toNat) (value : Word) :
    (w.write value p address).1 ≠ 0 ↔ ¬ (⟨address, w.bytes⟩ : DataAccess).InMemory p.mem := by
  cases w with
  | byte => exact armWriteByte_status_iff address _
  | half => exact armWriteHalf_status_iff hs address _
  | word => exact armWriteWord_status_iff hs address _

end Accesses

/-! ### The scheme -/

/-- Where an access is made: with the P bit at the base plus or minus the offset, without
it at the base. -/
def effectiveAddress (rnCont off : Word) (pBit uBit : Bool) : Word :=
  match pBit, uBit with
  | true, true => rnCont + off
  | true, false => rnCont - off
  | false, _ => rnCont

/-- The base register after a transfer: the base plus or minus the offset when the P bit is
clear or the W bit is set, and otherwise what was there. -/
def baseAfter (p : ArmCore) (rn : Fin 16) (off : Word) (pBit uBit wBit : Bool) : Word :=
  if pBit = false ∨ wBit = true then
    if uBit = true then armReadRegister p rn + off else armReadRegister p rn - off
  else readRegister p.reg rn

theorem accessAddress_eq (rnCont off : Word) (pBit uBit : Bool) :
    accessAddress rnCont off pBit uBit = effectiveAddress rnCont off pBit uBit := by
  cases pBit <;> cases uBit <;> rfl

theorem transferAddress_eq (rnCont off : Word) (uBit : Bool) :
    transferAddress rnCont off uBit = if uBit = true then rnCont + off else rnCont - off := rfl

section Scheme

variable (t : Transfer) (p : ArmCore) (rd rn : Fin 16) (off : Word) (pBit uBit wBit : Bool)

theorem exec_store (h : t.loads = false) :
    t.exec p rd rn off pBit uBit wBit =
      storeSingle (t.width.write (armReadRegister p rd)) p rn off pBit uBit wBit := by
  cases t with
  | str => rfl
  | strb => rfl
  | strh => rfl
  | _ => cases h

theorem exec_load (h : t.loads = true) :
    t.exec p rd rn off pBit uBit wBit =
      loadSingle t.width.read (fun p v => armWriteRegister p rd (t.loadedValue rd v))
        p rn off pBit uBit wBit := by
  have hmap : ∀ {n : Nat} (read : ArmCore → Word → Option (BitVec n)),
      loadSingle read (fun p v => armWriteRegister p rd (v.setWidth 32)) p rn off pBit uBit wBit =
        loadSingle (fun p a => (read p a).map (BitVec.setWidth 32))
          (fun p v => armWriteRegister p rd v) p rn off pBit uBit wBit := by
    intro n read
    simp only [loadSingle]
    cases read p (accessAddress (armReadRegister p rn) off pBit uBit) <;> rfl
  cases t with
  | ldr =>
    simp only [Transfer.loadedValue, true_and]
    rfl
  | ldrb => exact hmap armReadByte
  | ldrh => exact hmap armReadHalf
  | _ => cases h

/-- What the write-back leaves, whatever the access did to the memory. -/
theorem writeBack_base {q : ArmCore} (h : q.reg = p.reg) :
    readRegister (writeBack q rn (armReadRegister p rn) off pBit uBit wBit).reg rn =
      baseAfter p rn off pBit uBit wBit := by
  have hw : ∀ v, readRegister (armWriteRegister q rn v).reg rn = v :=
    fun v => readRegister_write_same q.reg rn v
  unfold writeBack baseAfter
  cases pBit <;> cases wBit <;> simp [transferAddress_eq, hw, h]

theorem writeBack_registers (q : ArmCore) (rnCont : Word) {c : Fin 37}
    (h : c ≠ cell (getModeNum q.reg) rn.castSucc) :
    (writeBack q rn rnCont off pBit uBit wBit).reg.registers c = q.reg.registers c := by
  have hw : ∀ v, (armWriteRegister q rn v).reg.registers c = q.reg.registers c :=
    fun v => Registers.set_of_ne _ _ h
  unfold writeBack
  cases pBit <;> cases wBit <;> simp [hw]

theorem writeBack_mode (q : ArmCore) (rnCont : Word) :
    (writeBack q rn rnCont off pBit uBit wBit).reg.mode = q.reg.mode := by
  unfold writeBack
  cases pBit <;> cases wBit <;> rfl

theorem writeBack_mem (q : ArmCore) (rnCont : Word) :
    (writeBack q rn rnCont off pBit uBit wBit).mem = q.mem := by
  unfold writeBack
  cases pBit <;> cases wBit <;> rfl

/-- `q` is what the transfer makes of `p`: the base, the memory of a store, the
destination of a load, and nothing else. -/
structure Transferred (q : ArmCore) : Prop where
  base : (t.loads = true → rd ≠ rn) → readRegister q.reg rn = baseAfter p rn off pBit uBit wBit
  store : t.loads = false →
    StoredAt p.mem q.mem (effectiveAddress (armReadRegister p rn) off pBit uBit) t.width.bytes
      (armReadRegister p rd)
  load : t.loads = true →
    q.mem = p.mem ∧ readRegister q.reg rd = t.loadedValue rd
      (p.mem.value (effectiveAddress (armReadRegister p rn) off pBit uBit) t.width.bytes)
  registers : ∀ c ≠ cell (getModeNum p.reg) rn.castSucc,
    (t.loads = true → c ≠ cell (getModeNum p.reg) rd.castSucc) →
    q.reg.registers c = p.reg.registers c
  mode : q.reg.mode = p.reg.mode

/-- `q` is what an abort makes of `p`: the base, and nothing else. -/
structure Aborted (q : ArmCore) : Prop where
  base : readRegister q.reg rn = baseAfter p rn off pBit uBit wBit
  mem : q.mem = p.mem
  cpsr : armReadCpsr q = armReadCpsr p
  registers : ∀ c ≠ cell (getModeNum p.reg) rn.castSucc, q.reg.registers c = p.reg.registers c
  mode : q.reg.mode = p.reg.mode

theorem aborted_writeBack :
    Aborted p rn off pBit uBit wBit
      (writeBack p rn (armReadRegister p rn) off pBit uBit wBit) := by
  have hreg : ∀ c ≠ cell (getModeNum p.reg) rn.castSucc,
      (writeBack p rn (armReadRegister p rn) off pBit uBit wBit).reg.registers c =
        p.reg.registers c := by
    intro c hc
    exact writeBack_registers rn off pBit uBit wBit p _ hc
  refine ⟨writeBack_base p rn off pBit uBit wBit rfl, writeBack_mem .., ?_, hreg,
    writeBack_mode ..⟩
  rw [armReadCpsr, armReadCpsr, readCpsr_eq, readCpsr_eq]
  exact hreg _ (cell_ne_cpsr _ _).symm

section InMemory

variable (h : (⟨effectiveAddress (armReadRegister p rn) off pBit uBit, t.width.bytes⟩ :
  DataAccess).InMemory p.mem)

include h

theorem exec_store_inMemory (hl : t.loads = false) :
    t.exec p rd rn off pBit uBit wBit =
      (0, writeBack
        { p with
          mem := p.mem.stored (effectiveAddress (armReadRegister p rn) off pBit uBit) t.width.bytes
            (armReadRegister p rd) }
        rn (armReadRegister p rn) off pBit uBit wBit) := by
  rw [exec_store t p rd rn off pBit uBit wBit hl, storeSingle, accessAddress_eq]
  dsimp only
  rw [write_inMemory t.width _ h]
  rfl

theorem exec_load_inMemory (hl : t.loads = true) :
    t.exec p rd rn off pBit uBit wBit =
      (0, armWriteRegister (writeBack p rn (armReadRegister p rn) off pBit uBit wBit) rd
        (t.loadedValue rd (p.mem.value (effectiveAddress (armReadRegister p rn) off pBit uBit)
          t.width.bytes))) := by
  rw [exec_load t p rd rn off pBit uBit wBit hl, loadSingle, accessAddress_eq,
    read_inMemory t.width h]

/-- **A transfer in the memory does what it says.** -/
theorem exec_transferred :
    (t.exec p rd rn off pBit uBit wBit).1 = 0 ∧
      Transferred t p rd rn off pBit uBit wBit (t.exec p rd rn off pBit uBit wBit).2 := by
  cases hl : t.loads with
  | false =>
    rw [exec_store_inMemory t p rd rn off pBit uBit wBit h hl]
    refine ⟨rfl, ?_, ?_, ?_, ?_, ?_⟩
    · intro _
      exact writeBack_base p rn off pBit uBit wBit rfl
    · intro _
      rw [writeBack_mem]
      exact storedAt_stored ..
    · intro hl'
      rw [hl] at hl'
      cases hl'
    · intro c hc _
      exact writeBack_registers rn off pBit uBit wBit _ _ hc
    · exact writeBack_mode ..
  | true =>
    rw [exec_load_inMemory t p rd rn off pBit uBit wBit h hl]
    have hmode := writeBack_mode rn off pBit uBit wBit p (armReadRegister p rn)
    refine ⟨rfl, ?_, ?_, ?_, ?_, ?_⟩
    · intro hne
      refine (readRegister_write_of_ne _ _ (hne hl).symm).trans ?_
      exact writeBack_base p rn off pBit uBit wBit rfl
    · intro hl'
      rw [hl] at hl'
      cases hl'
    · intro _
      exact ⟨writeBack_mem .., readRegister_write_same _ _ _⟩
    · intro c hc hd
      -- the load comes after the write-back, in the same mode
      refine (Registers.set_of_ne _ _ ?_).trans (writeBack_registers rn off pBit uBit wBit p _ hc)
      rw [getModeNum_congr hmode]
      exact hd hl
    · exact hmode

end InMemory

/-- Whatever becomes of the access, the base is written back, and only a load into the
base register itself overwrites it. -/
theorem exec_base (h : t.loads = true → rd ≠ rn) :
    readRegister (t.exec p rd rn off pBit uBit wBit).2.reg rn =
      baseAfter p rn off pBit uBit wBit := by
  cases hl : t.loads with
  | false =>
    rw [exec_store t p rd rn off pBit uBit wBit hl]
    simp only [storeSingle]
    split
    · exact writeBack_base p rn off pBit uBit wBit (write_reg ..)
    · exact writeBack_base p rn off pBit uBit wBit (write_reg ..)
  | true =>
    rw [exec_load t p rd rn off pBit uBit wBit hl]
    simp only [loadSingle]
    split
    · exact writeBack_base p rn off pBit uBit wBit rfl
    · refine (readRegister_write_of_ne _ _ (h hl).symm).trans ?_
      exact writeBack_base p rn off pBit uBit wBit rfl

theorem exec_abort_iff (hs : 4 ≤ p.mem.size.toNat) :
    (t.exec p rd rn off pBit uBit wBit).1 = Exception.dataAbort ↔
      ¬ (⟨effectiveAddress (armReadRegister p rn) off pBit uBit, t.width.bytes⟩ :
        DataAccess).InMemory p.mem := by
  cases hl : t.loads with
  | false =>
    rw [exec_store t p rd rn off pBit uBit wBit hl, storeSingle_abort_iff, accessAddress_eq]
    exact write_status_iff t.width hs _
  | true =>
    rw [exec_load t p rd rn off pBit uBit wBit hl, loadSingle_abort_iff, accessAddress_eq]
    exact read_eq_none_iff t.width hs

theorem exec_aborted (h : (t.exec p rd rn off pBit uBit wBit).1 = Exception.dataAbort) :
    Aborted p rn off pBit uBit wBit (t.exec p rd rn off pBit uBit wBit).2 := by
  cases hl : t.loads with
  | false =>
    rw [exec_store t p rd rn off pBit uBit wBit hl] at h ⊢
    have hw := (storeSingle_abort_iff p rn off pBit uBit wBit _).mp h
    have hq := write_refused t.width hw
    simp only [storeSingle, hq, if_pos hw]
    exact aborted_writeBack p rn off pBit uBit wBit
  | true =>
    rw [exec_load t p rd rn off pBit uBit wBit hl] at h ⊢
    have hr := (loadSingle_abort_iff p rn off pBit uBit wBit _ _).mp h
    simp only [loadSingle, hr]
    exact aborted_writeBack p rn off pBit uBit wBit

/-- **The base updated abort model.**  A transfer aborts exactly when its access does
not lie in the memory; it then leaves everything but the base register as it was, and
the base register as the transfer that goes through. -/
theorem transfer_abort (hs : 4 ≤ p.mem.size.toNat) :
    ((t.exec p rd rn off pBit uBit wBit).1 = Exception.dataAbort ↔
      ¬ (⟨effectiveAddress (armReadRegister p rn) off pBit uBit, t.width.bytes⟩ :
        DataAccess).InMemory p.mem) ∧
    ((t.exec p rd rn off pBit uBit wBit).1 = Exception.dataAbort →
      Aborted p rn off pBit uBit wBit (t.exec p rd rn off pBit uBit wBit).2) ∧
    ((t.exec p rd rn off pBit uBit wBit).1 ≠ Exception.dataAbort →
      (t.loads = true → rd ≠ rn) →
      readRegister (t.exec p rd rn off pBit uBit wBit).2.reg rn =
        baseAfter p rn off pBit uBit wBit) :=
  ⟨exec_abort_iff t p rd rn off pBit uBit wBit hs, exec_aborted t p rd rn off pBit uBit wBit,
    fun _ h => exec_base t p rd rn off pBit uBit wBit h⟩

end Scheme

/-- `ldr r0, [r1, #-4]!` with 12 in r1, from a memory of 4 bytes -/
theorem transfer_abort_ldr :
    let p := armWriteRegister (coreOfWord 7) 1 12
    (ldr p 0 1 4 true false true).1 = Exception.dataAbort ∧
      Aborted p 1 4 true false true (ldr p 0 1 4 true false true).2 ∧
      baseAfter p 1 4 true false true = 8 := by
  have h := transfer_abort .ldr (armWriteRegister (coreOfWord 7) 1 12) 0 1 4 true false true
    (by decide)
  have ha := h.1.mpr (by unfold DataAccess.InMemory; decide +kernel)
  exact ⟨ha, h.2.1 ha, by decide +kernel⟩

/-! ### The offset of a word or byte transfer -/

/-- Which word or byte transfer bits 22 and 20 select. -/
def wordTransfer (ins : Word) : Transfer :=
  match bit ins 22, bit ins 20 with
  | false, false => .str
  | false, true => .ldr
  | true, false => .strb
  | true, true => .ldrb

/-- The fields of the low twelve bits. -/
theorem low_fields {w ins : Word} (h : getBits w 11 0 = getBits ins 11 0) :
    getBits w 3 0 = getBits ins 3 0 ∧ bit w 4 = bit ins 4 ∧ getBits w 6 5 = getBits ins 6 5 ∧
      getBits w 11 7 = getBits ins 11 7 := by
  have hn := field_of_getBits (by decide) (by decide) h
  rw [toNat_getBits ins (by decide) (by decide)] at hn
  refine ⟨?_, ?_, ?_, ?_⟩
  · exact getBits_congr (by decide) (by decide) (by omega)
  · rw [Bool.eq_iff_iff, bit_iff w (by decide), bit_iff ins (by decide)]
    omega
  · exact getBits_congr (by decide) (by decide) (by omega)
  · exact getBits_congr (by decide) (by decide) (by omega)

theorem fields_of_plain {ins : Word} (h : getBits ins 11 4 = 0) :
    (getBits ins 6 5).toNat = 0 ∧ (getBits ins 11 7).toNat = 0 := by
  have hn := field_of_getBits (by decide) (by decide) h
  rw [show (0 : Word).toNat = 0 from rfl] at hn
  rw [toNat_getBits ins (by decide) (by decide), toNat_getBits ins (by decide) (by decide)]
  omega

/-- The offset shifter is the one of the data processing. -/
theorem decodeOff_register (p : ArmCore) {ins : Word} (h25 : bit ins 25 = true) :
    decodeOff p ins =
      (decodeSoShiftImm (armReadCpsr p) (armReadRegister p (regNum (getBits ins 3 0)))
        (getBits ins 6 5).toNat (getBits ins 11 7).toNat).1 := by
  rw [decodeOff, if_neg (by rw [h25]; decide)]
  dsimp only
  by_cases h : getBits ins 11 4 = 0
  · obtain ⟨hk, hn⟩ := fields_of_plain h
    rw [if_pos h, hk, hn]
    rfl
  · rw [if_neg h]
    generalize armReadRegister p (regNum (getBits ins 3 0)) = rm
    generalize (getBits ins 11 7).toNat = n
    generalize hk : (getBits ins 6 5).toNat = kind
    rcases kind_cases (hk ▸ kind_lt ins) with rfl | rfl | rfl | rfl
    · by_cases h0 : n = 0
      · rw [h0, shl_eq rm (by decide), BitVec.shiftLeft_zero]
        rfl
      · simp only [decodeSoShiftImm, if_neg h0]
    · by_cases h0 : n = 0
      · rw [h0]
        rfl
      · simp only [decodeSoShiftImm, if_neg h0]
    · by_cases h0 : n = 0
      · simp only [decodeSoShiftImm, if_pos h0, getBit_eq_ite]
        cases bit rm 31 <;> rfl
      · simp only [decodeSoShiftImm, if_neg h0]
    · by_cases h0 : n = 0
      · rw [h0]
        rfl
      · simp only [decodeSoShiftImm, if_neg h0]

/-- **The offset of a word or byte transfer**, where it is a register, is the operand
that `decode_so` gives for any word with the same low bits. -/
theorem decodeOff_eq_decodeSo (p : ArmCore) {ins w : Word} (h25 : bit ins 25 = true)
    (h4 : bit ins 4 = false) (hw : bit w 25 = false) (h : getBits w 11 0 = getBits ins 11 0) :
    decodeOff p ins = (decodeSo p w).1 := by
  obtain ⟨hrm, hb, hk, hn⟩ := low_fields h
  have hso : shifterOperand p w =
      decodeSoShiftImm (armReadCpsr p) (armReadRegister p (regNum (getBits ins 3 0)))
        (getBits ins 6 5).toNat (getBits ins 11 7).toNat := by
    rw [shifterOperand, if_neg (by rw [hw]; decide), if_pos (by rw [hb, h4]; rfl), hrm, hk, hn]
  rw [decodeOff_register p h25, decodeSo, hso]

theorem armLoadStore_word {ins : Word} (h : bit ins 26 = true) (p : ArmCore) :
    armLoadStore p ins =
      (wordTransfer ins).exec p (regNum (getBits ins 15 12)) (regNum (getBits ins 19 16))
        (decodeOff p ins) (bit ins 24) (bit ins 23) (bit ins 21) := by
  rw [armLoadStore, wordTransfer]
  dsimp only
  rw [if_pos h]
  cases bit ins 22 <;> cases bit ins 20 <;> rfl

theorem bit_of_class {ins : Word} (h : getBits ins 27 26 = 1) : bit ins 26 = true := by
  have hn := field_of_getBits (by decide) (by decide) h
  rw [show (1 : Word).toNat = 1 from rfl] at hn
  rw [bit_iff ins (by decide)]
  omega

/-- **Word and byte transfers**: the offset, and what the transfer does. -/
theorem wordTransfer_effect (p : ArmCore) (ins : Word) (h : getBits ins 27 26 = 1)
    (h4 : bit ins 25 = true → bit ins 4 = false)
    (hin : (⟨effectiveAddress (armReadRegister p (regNum (getBits ins 19 16))) (decodeOff p ins)
      (bit ins 24) (bit ins 23), (wordTransfer ins).width.bytes⟩ : DataAccess).InMemory p.mem) :
    (bit ins 25 = false → decodeOff p ins = getBits ins 11 0) ∧
    (bit ins 25 = true → ∀ w, bit w 25 = false → getBits w 11 0 = getBits ins 11 0 →
      decodeOff p ins = (decodeSo p w).1) ∧
    (armLoadStore p ins).1 = 0 ∧
    Transferred (wordTransfer ins) p (regNum (getBits ins 15 12)) (regNum (getBits ins 19 16))
      (decodeOff p ins) (bit ins 24) (bit ins 23) (bit ins 21) (armLoadStore p ins).2 := by
  refine ⟨?_, ?_, ?_⟩
  · intro h25
    rw [decodeOff, h25]
    rfl
  · intro h25 w hw hlow
    exact decodeOff_eq_decodeSo p h25 (h4 h25) hw hlow
  · rw [armLoadStore_word (bit_of_class h)]
    exact exec_transferred _ p _ _ _ _ _ _ hin

/-- `ldrb r0, [r1, -r2, lsl #1]!` with 7 in r1 and 2 in r2 -/
theorem wordTransfer_effect_ldrb :
    let p := armWriteRegister (armWriteRegister (coreOfWord 0xDDCCBBAA) 1 7) 2 2
    decodeOff p 0xE7710082 = 4 ∧ (armLoadStore p 0xE7710082).1 = 0 ∧
      Transferred .ldrb p 0 1 (decodeOff p 0xE7710082) true false true
        (armLoadStore p 0xE7710082).2 :=
  ⟨by decide +kernel,
    (wordTransfer_effect (armWriteRegister (armWriteRegister (coreOfWord 0xDDCCBBAA) 1 7) 2 2)
      0xE7710082 (by decide) (by decide) (by unfold DataAccess.InMemory; decide +kernel)).2.2⟩

/-! ### The offset of a half-word transfer -/

/-- The offset of the addressing mode of half-words: bit 22 says that it is an
immediate. -/
def halfOffset (p : ArmCore) (ins : Word) : Word :=
  if bit ins 22 then getBits ins 11 8 <<< 4 ||| getBits ins 3 0
  else armReadRegister p (regNum (getBits ins 3 0))

def halfwordTransfer (ins : Word) : Transfer := if bit ins 20 then .ldrh else .strh

/-- The transfer uses the offset of its addressing mode: for the address, for the
base and for the half-word that it loads or stores. -/
structure HalfRight (p : ArmCore) (ins : Word) : Prop where
  offset : decodeOffH p ins = halfOffset p ins
  base : ((halfwordTransfer ins).loads = true →
      regNum (getBits ins 15 12) ≠ regNum (getBits ins 19 16)) →
    readRegister (armLoadStore p ins).2.reg (regNum (getBits ins 19 16)) =
      baseAfter p (regNum (getBits ins 19 16)) (halfOffset p ins) (bit ins 24) (bit ins 23)
        (bit ins 21)
  abort : 4 ≤ p.mem.size.toNat → ((armLoadStore p ins).1 = Exception.dataAbort ↔
    ¬ (⟨effectiveAddress (armReadRegister p (regNum (getBits ins 19 16))) (halfOffset p ins)
      (bit ins 24) (bit ins 23), 2⟩ : DataAccess).InMemory p.mem)
  access : (⟨effectiveAddress (armReadRegister p (regNum (getBits ins 19 16))) (halfOffset p ins)
      (bit ins 24) (bit ins 23), 2⟩ : DataAccess).InMemory p.mem →
    (armLoadStore p ins).1 = 0 ∧
      Transferred (halfwordTransfer ins) p (regNum (getBits ins 15 12)) (regNum (getBits ins 19 16))
        (halfOffset p ins) (bit ins 24) (bit ins 23) (bit ins 21) (armLoadStore p ins).2

theorem armLoadStore_half {ins : Word} (h : bit ins 26 = false) (p : ArmCore) :
    armLoadStore p ins =
      (halfwordTransfer ins).exec p (regNum (getBits ins 15 12)) (regNum (getBits ins 19 16))
        (decodeOffH p ins) (bit ins 24) (bit ins 23) (bit ins 21) := by
  rw [armLoadStore, halfwordTransfer]
  dsimp only
  rw [if_neg (by rw [h]; decide)]
  cases bit ins 20 <;> rfl

theorem halfwordTransfer_bytes (ins : Word) : (halfwordTransfer ins).width.bytes = 2 := by
  rw [halfwordTransfer]
  cases bit ins 20 <;> rfl

/-- `decode_off_h` tests bit 22 the other way round. -/
theorem decodeOffH_eq_halfOffset_iff (p : ArmCore) (ins : Word) :
    decodeOffH p ins = halfOffset p ins ↔
      getBits ins 11 8 <<< 4 ||| getBits ins 3 0 =
        armReadRegister p (regNum (getBits ins 3 0)) := by
  rw [decodeOffH, halfOffset, shl_eq _ (by decide)]
  cases bit ins 22 with
  | false => exact Iff.rfl
  | true => exact eq_comm

/-- **When a half-word transfer uses its offset**: exactly when the immediate is the
content of the register that the word names. -/
theorem halfRight_iff (p : ArmCore) (ins : Word) (h : getBits ins 27 25 = 0) :
    HalfRight p ins ↔
      getBits ins 11 8 <<< 4 ||| getBits ins 3 0 =
        armReadRegister p (regNum (getBits ins 3 0)) := by
  have h26 : bit ins 26 = false := by
    have hn := field_of_getBits (by decide) (by decide) h
    rw [show (0 : Word).toNat = 0 from rfl] at hn
    rw [← Bool.not_eq_true, bit_iff ins (by decide)]
    omega
  have hexec := armLoadStore_half h26 p
  rw [← decodeOffH_eq_halfOffset_iff]
  constructor
  · intro hr
    exact hr.offset
  · intro hoff
    rw [hoff] at hexec
    refine ⟨hoff, ?_, ?_, ?_⟩
    · intro hne
      rw [hexec]
      exact exec_base _ p _ _ _ _ _ _ hne
    · intro hs
      rw [hexec, exec_abort_iff _ p _ _ _ _ _ _ hs, halfwordTransfer_bytes]
    · intro hin
      rw [hexec]
      rw [← halfwordTransfer_bytes ins] at hin
      exact exec_transferred _ p _ _ _ _ _ _ hin

/-- `ldrh r0, [r1, #-2]!` with 4 in r1 and 2 in r2 -/
theorem halfRight_two :
    HalfRight (armWriteRegister (armWriteRegister (coreOfWord 0xBBBBAAAA) 1 4) 2 2) 0xE17100B2 :=
  (halfRight_iff _ 0xE17100B2 (by decide)).mpr (by decide +kernel)

/-- `ldrh r0, [r1, #2]` with 0 in r2 loads the half-word at 0. -/
theorem ldrh_immediate_uses_register :
    armReadRegister (armLoadStore (coreOfWord 0xBBBBAAAA) 0xE1D100B2).2 0 = 0xAAAA ∧
    ¬ ∀ (p : ArmCore) (ins : Word), getBits ins 27 25 = 0 → getBits ins 7 4 = 0b1011 →
      HalfRight p ins := by
  have hv : readRegister (armLoadStore (coreOfWord 0xBBBBAAAA) 0xE1D100B2).2.reg 0 = 0xAAAA := by
    decide +kernel
  refine ⟨hv, ?_⟩
  intro h
  have hr := h (coreOfWord 0xBBBBAAAA) 0xE1D100B2 (by decide) (by decide)
  have hl := ((hr.access (by unfold DataAccess.InMemory; decide +kernel)).2.load (by decide)).2
  have hm : Transfer.ldrh.loadedValue 0
      ((coreOfWord 0xBBBBAAAA).mem.value 2 2) = 0xBBBB := by
    decide +kernel
  exact absurd (hv.symm.trans (hl.trans hm)) (by decide)

end Armator
