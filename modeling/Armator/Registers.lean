import Armator.Util

/-!
# The register file (`registers.c`)

Thirty-seven physical registers are seen through seven banks of eighteen
pointers, one bank for each processor mode: r0 to r15, the CPSR at 16 and the
SPSR at 17.  `virtualRegs m i` is the pointer `virtual_regs[m * 18 + i]` that
`registers_create` stores, `none` being `NULL`; the table is never written
again, so it is a constant here and not a part of the state.

Only the SPSR pointer of USR and SYS is `NULL` (`virtualRegs_isSome`), so
reading any of the registers 0 to 16 always goes through (`cell`), while
`readSpsr` and `writeSpsr` dereference a pointer that may be `NULL`.
-/

namespace Armator

/-! ### Modes -/

namespace Mode

def usr : BitVec 8 := 0x10
def fiq : BitVec 8 := 0x11
def irq : BitVec 8 := 0x12
def svc : BitVec 8 := 0x13
def abt : BitVec 8 := 0x17
def und : BitVec 8 := 0x1b
def sys : BitVec 8 := 0x1f

/-- The seven mode encodings. -/
def encodings : List (BitVec 8) := [usr, fiq, irq, svc, abt, und, sys]

end Mode

/-- Why the process ends inside a call of the simulator. -/
inductive Halt
  /-- `exit(0)` on `swi 0x123456`. -/
  | exited
  /-- A `NULL` SPSR pointer is dereferenced. -/
  | nullSpsr
  deriving DecidableEq, Repr

/-! ### The pointer table -/

def nb2BankedRegs : Nat := 5
def nb6BankedRegs : Nat := 2

/-- One mode's eighteen pointers, as indices into the physical registers: where
its r8 to r12 and its r13, r14 are banked, and its SPSR. -/
def bankOf (fiqBank bank : Nat) (spsr : Option Nat) (i : Nat) : Option Nat :=
  if i ≤ 7 then some i
  else if i ≤ 12 then some (i + fiqBank)
  else if i ≤ 14 then some (i + nb2BankedRegs + bank * nb6BankedRegs)
  else if i ≤ 16 then some (i + nb2BankedRegs + 5 * nb6BankedRegs)
  else spsr

/-- For the numerals that name modes. -/
instance neZero7 : NeZero 7 := ⟨by decide⟩

/-- For the numerals that name physical registers. -/
instance neZero37 : NeZero 37 := ⟨by decide⟩

/-- The pointer `virtual_regs[m * 18 + i]`. -/
def virtualRegs (m : Fin 7) (i : Fin 18) : Option (Fin 37) :=
  Option.map (Fin.ofNat 37) <|
    match m with
    | 0 => bankOf 0 0 none i
    | 1 => bankOf nb2BankedRegs 1 (some (17 + nb2BankedRegs + 5 * nb6BankedRegs)) i
    | 2 => bankOf 0 2 (some (17 + nb2BankedRegs + 5 * nb6BankedRegs + 1)) i
    | 3 => bankOf 0 3 (some (17 + nb2BankedRegs + 5 * nb6BankedRegs + 2)) i
    | 4 => bankOf 0 4 (some (17 + nb2BankedRegs + 5 * nb6BankedRegs + 3)) i
    | 5 => bankOf 0 5 (some (17 + nb2BankedRegs + 5 * nb6BankedRegs + 4)) i
    | 6 => bankOf 0 0 none i

theorem virtualRegs_isSome (m : Fin 7) (i : Fin 17) : (virtualRegs m i.castSucc).isSome := by
  revert m i
  decide

/-- The physical register behind r0 to r15 (0 to 15) and the CPSR (16). -/
def cell (m : Fin 7) (i : Fin 17) : Fin 37 :=
  (virtualRegs m i.castSucc).get (virtualRegs_isSome m i)

/-- The physical register that holds r15, in every mode. -/
def pcCell : Fin 37 := 30

/-- The physical register that holds the CPSR, in every mode. -/
def cpsrCell : Fin 37 := 31

theorem cell_pc (m : Fin 7) : cell m 15 = pcCell := by
  revert m
  decide

theorem cell_cpsr (m : Fin 7) : cell m 16 = cpsrCell := by
  revert m
  decide

theorem cell_ne_cpsr (m : Fin 7) (i : Fin 16) : cell m i.castSucc ≠ cpsrCell := by
  revert m i
  decide

/-- **Within one mode, different registers are different cells.** -/
theorem cell_injective (m : Fin 7) {i j : Fin 17} (h : cell m i = cell m j) : i = j := by
  revert m i j
  decide

/-! ### The register file -/

structure Registers where
  mode : BitVec 8
  registers : Fin 37 → Word

def getModeNum (r : Registers) : Fin 7 :=
  if r.mode = Mode.usr then 0
  else if r.mode = Mode.fiq then 1
  else if r.mode = Mode.irq then 2
  else if r.mode = Mode.svc then 3
  else if r.mode = Mode.abt then 4
  else if r.mode = Mode.und then 5
  else 6

def registersCreate : Registers where
  mode := Mode.sys
  registers := fun _ => 0

def Registers.set (r : Registers) (c : Fin 37) (value : Word) : Registers :=
  { r with registers := Function.update r.registers c value }

@[simp] theorem Registers.set_mode (r : Registers) (c : Fin 37) (value : Word) :
    (r.set c value).mode = r.mode := rfl

@[simp] theorem Registers.set_same (r : Registers) (c : Fin 37) (value : Word) :
    (r.set c value).registers c = value := by
  simp [Registers.set]

theorem Registers.set_of_ne (r : Registers) {c d : Fin 37} (value : Word) (h : d ≠ c) :
    (r.set c value).registers d = r.registers d := by
  simp [Registers.set, h]

@[simp] theorem getModeNum_set (r : Registers) (c : Fin 37) (value : Word) :
    getModeNum (r.set c value) = getModeNum r := rfl

theorem getModeNum_congr {r r' : Registers} (h : r'.mode = r.mode) :
    getModeNum r' = getModeNum r := by
  rw [getModeNum, getModeNum, h]

def currentModeHasSpsr (r : Registers) : Bool := (virtualRegs (getModeNum r) 17).isSome

def readRegister (r : Registers) (reg : Fin 16) : Word :=
  r.registers (cell (getModeNum r) reg.castSucc)

def readUsrRegister (r : Registers) (reg : Fin 16) : Word := r.registers (cell 0 reg.castSucc)

def readCpsr (r : Registers) : Word := r.registers (cell (getModeNum r) 16)

/-- The SPSR of a mode that has one. -/
def spsr (r : Registers) (h : currentModeHasSpsr r) : Word :=
  r.registers ((virtualRegs (getModeNum r) 17).get h)

def readSpsr (r : Registers) : Except Halt Word :=
  if h : currentModeHasSpsr r then .ok (spsr r h) else .error .nullSpsr

def writeRegister (r : Registers) (reg : Fin 16) (value : Word) : Registers :=
  r.set (cell (getModeNum r) reg.castSucc) value

def writeUsrRegister (r : Registers) (reg : Fin 16) (value : Word) : Registers :=
  r.set (cell 0 reg.castSucc) value

def writeCpsr (r : Registers) (value : Word) : Registers :=
  r.set (cell (getModeNum r) 16) value

def writeSpsr (r : Registers) (value : Word) : Except Halt Registers :=
  if h : currentModeHasSpsr r then .ok (r.set ((virtualRegs (getModeNum r) 17).get h) value)
  else .error .nullSpsr

/-- **The SPSR is read through a `NULL` pointer exactly in the modes that have
none.** -/
theorem readSpsr_eq_nullSpsr_iff (r : Registers) :
    readSpsr r = .error .nullSpsr ↔ currentModeHasSpsr r = false := by
  unfold readSpsr
  by_cases h : currentModeHasSpsr r = true
  · simp [h]
  · simp [h]

theorem readCpsr_eq (r : Registers) : readCpsr r = r.registers cpsrCell := by
  rw [readCpsr, cell_cpsr]

theorem writeCpsr_eq (r : Registers) (value : Word) : writeCpsr r value = r.set cpsrCell value := by
  rw [writeCpsr, cell_cpsr]

theorem readRegister_write_same (r : Registers) (reg : Fin 16) (value : Word) :
    readRegister (writeRegister r reg value) reg = value := by
  simp [readRegister, writeRegister]

theorem readRegister_write_of_ne (r : Registers) {reg reg' : Fin 16} (value : Word)
    (h : reg' ≠ reg) : readRegister (writeRegister r reg value) reg' = readRegister r reg' := by
  refine Registers.set_of_ne _ _ fun e => h ?_
  exact Fin.castSucc_injective _ (cell_injective _ e)

end Armator
