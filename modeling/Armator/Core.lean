import Armator.Registers
import Armator.Memory

/-!
# The processor core (`arm_core.c`, `arm_exception.c`)

The state of the simulated processor: the cycle count, the register file, the
memory, and the global `shifter_carry_out` of `arm_data_processing.c`.  `host`
is the byte order of the machine the simulator runs on.  The traces that the
accessors print are left out: nothing reads them back.

The stored r15 is one instruction behind what the code reads: `armReadRegister`
adds 4 and masks, and `armFetch` writes back the address it fetched from plus 4.
-/

namespace Armator

structure ArmCore where
  cycleCount : Word
  reg : Registers
  mem : Memory
  shifterCarryOut : Word
  host : Endian

/-! ### Constants -/

def flagN : Nat := 31
def flagZ : Nat := 30
def flagC : Nat := 29
def flagV : Nat := 28

namespace Exception

def reset : Int := 1
def undefinedInstruction : Int := 2
def softwareInterrupt : Int := 3
def prefetchAbort : Int := 4
def dataAbort : Int := 5
def interrupt : Int := 6
def fastInterrupt : Int := 7

end Exception

/-! ### Registers -/

def armCurrentModeHasSpsr (p : ArmCore) : Bool := currentModeHasSpsr p.reg

/-- What a read of r15 shows for the stored value. -/
def pcView (value : Word) : Word := (value + 4) &&& 0xFFFFFFFD

def armReadRegister (p : ArmCore) (reg : Fin 16) : Word :=
  let value := readRegister p.reg reg
  if reg = 15 then pcView value else value

def armReadUsrRegister (p : ArmCore) (reg : Fin 16) : Word :=
  let value := readUsrRegister p.reg reg
  if reg = 15 then pcView value else value

def armReadCpsr (p : ArmCore) : Word := readCpsr p.reg

def armReadSpsr (p : ArmCore) : Except Halt Word := readSpsr p.reg

def armWriteRegister (p : ArmCore) (reg : Fin 16) (value : Word) : ArmCore :=
  { p with reg := writeRegister p.reg reg value }

def armWriteUsrRegister (p : ArmCore) (reg : Fin 16) (value : Word) : ArmCore :=
  { p with reg := writeUsrRegister p.reg reg value }

def armWriteCpsr (p : ArmCore) (value : Word) : ArmCore :=
  { p with reg := writeCpsr p.reg value }

/-! ### Memory

The answer of an access is -1 when the memory refuses it. -/

/-- The `int` a memory access returns. -/
def status {α : Type} : Option α → Int
  | some _ => 0
  | none => -1

def armReadByte (p : ArmCore) (address : Word) : Option Byte := memoryReadByte p.mem address

def armReadHalf (p : ArmCore) (address : Word) : Option Half := memoryReadHalf p.host p.mem address

def armReadWord (p : ArmCore) (address : Word) : Option Word := memoryReadWord p.host p.mem address

/-- The core after a write that the memory answered with `m`. -/
def ArmCore.written (p : ArmCore) (m : Option Memory) : Int × ArmCore :=
  (status m, { p with mem := m.getD p.mem })

def armWriteByte (p : ArmCore) (address : Word) (value : Byte) : Int × ArmCore :=
  p.written (memoryWriteByte p.mem address value)

def armWriteHalf (p : ArmCore) (address : Word) (value : Half) : Int × ArmCore :=
  p.written (memoryWriteHalf p.host p.mem address value)

def armWriteWord (p : ArmCore) (address : Word) (value : Word) : Int × ArmCore :=
  p.written (memoryWriteWord p.host p.mem address value)

/-- The address the next instruction is fetched from. -/
def fetchAddress (p : ArmCore) : Word := armReadRegister p 15 - 4

/-- The instruction at the pc, `none` where the memory refuses the access, and
the core with the pc incremented in either case. -/
def armFetch (p : ArmCore) : Option Word × ArmCore :=
  let p := { p with cycleCount := p.cycleCount + 1 }
  let address := armReadRegister p 15 - 4
  let value := memoryReadWord p.host p.mem address
  (value, armWriteRegister p 15 (address + 4))

/-! ### Exceptions and creation -/

/-- The CPSR after a reset: SVC mode, interrupts disabled. -/
def resetCpsr : Word := 0x1d3

/-- Only a reset does something; the others are accepted and ignored. -/
def armException (p : ArmCore) (exception : BitVec 8) : ArmCore :=
  if (exception.toNat : Int) = Exception.reset then
    armWriteUsrRegister (armWriteCpsr p resetCpsr) 15 0
  else p

def armCreate (host : Endian) (mem : Memory) : ArmCore :=
  let p : ArmCore := ⟨0, registersCreate, mem, 0, host⟩
  { armException p (BitVec.ofInt 8 Exception.reset) with cycleCount := 0 }

/-- The core created over a little-endian memory of one word. -/
def coreOfWord (ins : Word) : ArmCore :=
  armCreate .little (memoryCreate 4 false (Bytes.byteOf .little 4 ins))

theorem armFetch_coreOfWord (ins : Word) : (armFetch (coreOfWord ins)).1 = some ins := by
  have ha : fetchAddress (coreOfWord ins) = 0 := by
    show pcView 0 - 4 = 0
    decide
  show memoryReadWord .little (memoryCreate 4 false (Bytes.byteOf .little 4 ins))
    (fetchAddress (coreOfWord ins)) = some ins
  rw [ha, memoryReadWord_eq, if_pos ((admits_iff (Nat.le_succ 4) (by decide) 0).mpr (Nat.le_refl 4))]
  exact congrArg some ((Bytes.ofBytes_congr _ fun k _ => by simp [memoryCreate]).trans
    (Bytes.ofBytes_byteOf .little 4 ins))

/-! ### The pc -/

/-- An aligned pc is not changed by the mask. -/
theorem pcView_of_aligned {v : Word} (h : v.toNat % 4 = 0) : pcView v = v + 4 := by
  have hmask : ∀ i < 32, (0xFFFFFFFD : Word).getLsbD i = decide (i ≠ 1) := by decide
  have hbit : (v + 4).getLsbD 1 = false := by
    rw [← BitVec.testBit_toNat, Nat.testBit_eq_decide_div_mod_eq, decide_eq_false_iff_not,
      BitVec.toNat_add, show (4 : Word).toNat = 4 from rfl]
    omega
  apply BitVec.eq_of_getLsbD_eq
  intro i hi
  rw [pcView, BitVec.getLsbD_and, hmask i hi]
  by_cases h1 : i = 1
  · rw [h1, hbit]
    rfl
  · simp [h1]

/-- An aligned pc is seen by the fetch and by the debugger as it is stored. -/
theorem pcView_sub_four {v : Word} (h : v.toNat % 4 = 0) : pcView v - 4 = v := by
  rw [pcView_of_aligned h, add_sub_cancel_right]

/-! ### Reading after a write -/

@[simp] theorem armReadCpsr_writeRegister (p : ArmCore) (reg : Fin 16) (value : Word) :
    armReadCpsr (armWriteRegister p reg value) = armReadCpsr p := by
  simp only [armReadCpsr, armWriteRegister, writeRegister, readCpsr_eq]
  exact Registers.set_of_ne _ _ (cell_ne_cpsr _ _).symm

@[simp] theorem armReadCpsr_writeCpsr (p : ArmCore) (value : Word) :
    armReadCpsr (armWriteCpsr p value) = value := by
  simp [armReadCpsr, armWriteCpsr, readCpsr_eq, writeCpsr_eq]

theorem armReadRegister_of_ne (p : ArmCore) {reg : Fin 16} (h : reg ≠ 15) :
    armReadRegister p reg = readRegister p.reg reg := by
  simp [armReadRegister, h]

theorem armReadRegister_write_same (p : ArmCore) {reg : Fin 16} (value : Word) (h : reg ≠ 15) :
    armReadRegister (armWriteRegister p reg value) reg = value := by
  rw [armReadRegister_of_ne _ h]
  exact readRegister_write_same p.reg reg value

theorem armReadRegister_write_of_ne (p : ArmCore) {reg reg' : Fin 16} (value : Word)
    (h : reg' ≠ reg) :
    armReadRegister (armWriteRegister p reg value) reg' = armReadRegister p reg' := by
  unfold armReadRegister armWriteRegister
  rw [readRegister_write_of_ne p.reg value h]

theorem armReadRegister_writeCpsr (p : ArmCore) (reg : Fin 16) (value : Word) :
    armReadRegister (armWriteCpsr p value) reg = armReadRegister p reg := by
  have h : readRegister (writeCpsr p.reg value) reg = readRegister p.reg reg := by
    rw [writeCpsr_eq]
    exact Registers.set_of_ne _ _ (cell_ne_cpsr _ _)
  unfold armReadRegister armWriteCpsr
  rw [h]

/-! ### Words after a write -/

/-- Two words that share no byte. -/
def Apart (a a' : Word) : Prop := a.toNat + 4 ≤ a'.toNat ∨ a'.toNat + 4 ≤ a.toNat

theorem Apart.symm {a a' : Word} (h : Apart a a') : Apart a' a := Or.symm h

theorem armReadWord_congr {p q : ArmCore} (h : q.mem = p.mem) (a : Word) :
    armReadWord q a = armReadWord p a := by
  rw [armReadWord, armReadWord, memoryReadWord_eq, memoryReadWord_eq, h]

@[simp] theorem armWriteWord_reg (p : ArmCore) (address value : Word) :
    (armWriteWord p address value).2.reg = p.reg := rfl

/-- A write that is refused changes nothing. -/
theorem armWriteWord_refused {p : ArmCore} {address : Word} (value : Word)
    (h : p.mem.admits 4 address = false) : armWriteWord p address value = (-1, p) := by
  rw [armWriteWord, memoryWriteWord_eq, if_neg (by simp [h])]
  rfl

theorem armWriteWord_admitted {p : ArmCore} {address : Word} (value : Word)
    (h : p.mem.admits 4 address = true) :
    armWriteWord p address value =
      (0, { p with mem := { p.mem with
        memory := Bytes.store p.mem.memory address.toNat 4 (Bytes.byteOf p.mem.order 4 value) } }) := by
  rw [armWriteWord, memoryWriteWord_eq, if_pos h]
  rfl

@[simp] theorem armWriteWord_admits (p : ArmCore) (address value : Word) (n : Nat) (a : Word) :
    (armWriteWord p address value).2.mem.admits n a = p.mem.admits n a := by
  cases h : p.mem.admits 4 address with
  | false => rw [armWriteWord_refused value h]
  | true => rw [armWriteWord_admitted value h]; rfl

theorem armWriteWord_status (p : ArmCore) (address value : Word) :
    ((armWriteWord p address value).1 != 0) = !p.mem.admits 4 address := by
  cases h : p.mem.admits 4 address with
  | false => rw [armWriteWord_refused value h]; rfl
  | true => rw [armWriteWord_admitted value h]; rfl

theorem armReadWord_write_same {p : ArmCore} {address : Word} (value : Word)
    (h : p.mem.admits 4 address = true) :
    armReadWord (armWriteWord p address value).2 address = some value := by
  have ha : (armWriteWord p address value).2.mem.admits 4 address = true := by
    rw [armWriteWord_admits, h]
  rw [armReadWord, memoryReadWord_eq, if_pos ha, armWriteWord_admitted value h]
  exact congrArg some (Bytes.ofBytes_store_same _ 4 _ _ _)

theorem armReadWord_write_apart (p : ArmCore) {address a : Word} (value : Word)
    (h : Apart address a) :
    armReadWord (armWriteWord p address value).2 a = armReadWord p a := by
  cases hw : p.mem.admits 4 address with
  | false => rw [armWriteWord_refused value hw]
  | true =>
    rw [armReadWord, armReadWord, memoryReadWord_eq, memoryReadWord_eq, armWriteWord_admits,
      armWriteWord_admitted value hw]
    congr 2
    exact Bytes.ofBytes_store_disjoint _ _ _ h

end Armator
