import Armator.Lib.Run
import Armator.Registers

/-!
# The architectural registers

What the pointer table is for.  The processor has thirty-seven registers
(`ArchReg`): r0 to r7, r15 and the CPSR are one register in all modes, FIQ has r8
to r12 of its own, each of the five exception modes has its own r13, r14 and SPSR,
and USR and SYS share everything.  `arch m a` is the register that the access `a`
names in mode `m`.

`cell_num` and `virtualRegs_num` say that the table sends an access to the physical
register that `layout` gives to the register it names, and `layout_injective` that
different registers are kept apart.  By induction over the calls every read returns what was
last written to the register it names (`registers_refine`).
-/

namespace Armator

/-! ### Names -/

inductive ExceptionMode
  | fiq | irq | svc | abt | und
  deriving DecidableEq

instance : Fintype ExceptionMode where
  elems := {.fiq, .irq, .svc, .abt, .und}
  complete e := by cases e <;> decide

inductive ProcessorMode
  | usr
  | sys
  | exception (e : ExceptionMode)
  deriving DecidableEq

inductive ArchReg
  /-- r0 to r7. -/
  | low (i : Fin 8)
  /-- r8 to r12, those of FIQ or those of the other modes. -/
  | middle (fiq : Bool) (i : Fin 5)
  /-- r13 and r14, those of an exception mode or those of USR and SYS. -/
  | banked (owner : Option ExceptionMode) (i : Fin 2)
  | pc
  | cpsr
  | spsr (owner : ExceptionMode)
  deriving DecidableEq, Fintype

/-- What the four reads and the four writes can name. -/
inductive Access
  | register (i : Fin 16)
  | usrRegister (i : Fin 16)
  | cpsr
  | spsr

def ProcessorMode.encoding : ProcessorMode → BitVec 8
  | usr => Mode.usr
  | sys => Mode.sys
  | exception .fiq => Mode.fiq
  | exception .irq => Mode.irq
  | exception .svc => Mode.svc
  | exception .abt => Mode.abt
  | exception .und => Mode.und

def ProcessorMode.owner : ProcessorMode → Option ExceptionMode
  | usr => none
  | sys => none
  | exception e => some e

/-- The register that r`i` is in mode `m`. -/
def archRegister (m : ProcessorMode) (i : Fin 16) : ArchReg :=
  if h : i.val < 8 then .low ⟨i, h⟩
  else if h : i.val < 13 then .middle (m.owner = some .fiq) ⟨i - 8, by omega⟩
  else if h : i.val < 15 then .banked m.owner ⟨i - 13, by omega⟩
  else .pc

/-- The register that an access names in mode `m`, `none` for the SPSR of a mode
that has none. -/
def arch (m : ProcessorMode) : Access → Option ArchReg
  | .register i => some (archRegister m i)
  | .usrRegister i => some (archRegister .usr i)
  | .cpsr => some .cpsr
  | .spsr => m.owner.map .spsr

/-! ### The calls -/

def Registers.inMode (r : Registers) (m : ProcessorMode) : Registers :=
  { r with mode := m.encoding }

def readAccess (r : Registers) : Access → Except Halt Word
  | .register i => .ok (readRegister r i)
  | .usrRegister i => .ok (readUsrRegister r i)
  | .cpsr => .ok (readCpsr r)
  | .spsr => readSpsr r

def writeAccess (r : Registers) (value : Word) : Access → Except Halt Registers
  | .register i => .ok (writeRegister r i value)
  | .usrRegister i => .ok (writeUsrRegister r i value)
  | .cpsr => .ok (writeCpsr r value)
  | .spsr => writeSpsr r value

/-- A call of one of the four writes, after the mode field is set. -/
structure WriteCall where
  mode : ProcessorMode
  access : Access
  value : Word

def WriteCall.exec (r : Registers) (c : WriteCall) : Except Halt Registers :=
  writeAccess (r.inMode c.mode) c.value c.access

/-- The value the call leaves in the register `x`, if it names it. -/
def WriteCall.sets (x : ArchReg) (c : WriteCall) : Option Word :=
  if arch c.mode c.access = some x then some c.value else none

/-- The value last written to the register `x`, 0 if there is none. -/
def lastWritten (cs : List WriteCall) (x : ArchReg) : Word := Run.lastSet (WriteCall.sets x) 0 cs

/-! ### The layout of the physical registers -/

def ExceptionMode.num : ExceptionMode → Nat
  | fiq => 0
  | irq => 1
  | svc => 2
  | abt => 3
  | und => 4

def layout : ArchReg → Fin 37
  | .low i => Fin.ofNat 37 i
  | .middle fiq i => Fin.ofNat 37 (8 + (if fiq then 5 else 0) + i)
  | .banked none i => Fin.ofNat 37 (18 + i)
  | .banked (some e) i => Fin.ofNat 37 (20 + 2 * e.num + i)
  | .pc => pcCell
  | .cpsr => cpsrCell
  | .spsr e => Fin.ofNat 37 (32 + e.num)

/-- **Different registers are kept apart.** -/
theorem layout_injective : Function.Injective layout := by
  decide +kernel

/-- The bank of pointers of a mode. -/
def ProcessorMode.num : ProcessorMode → Fin 7
  | usr => 0
  | sys => 6
  | exception .fiq => 1
  | exception .irq => 2
  | exception .svc => 3
  | exception .abt => 4
  | exception .und => 5

theorem getModeNum_inMode (r : Registers) (m : ProcessorMode) :
    getModeNum (r.inMode m) = m.num := by
  rcases m with _ | _ | e
  · rfl
  · rfl
  · cases e <;> rfl

theorem cell_num (m : ProcessorMode) (i : Fin 16) :
    cell m.num i.castSucc = layout (archRegister m i) := by
  rcases m with _ | _ | e
  · revert i; decide
  · revert i; decide
  · cases e <;> revert i <;> decide

theorem virtualRegs_num (m : ProcessorMode) :
    virtualRegs m.num 17 = m.owner.map fun e => layout (.spsr e) := by
  rcases m with _ | _ | e
  · rfl
  · rfl
  · cases e <;> rfl

theorem hasSpsr_inMode (r : Registers) (m : ProcessorMode) :
    currentModeHasSpsr (r.inMode m) = m.owner.isSome := by
  rw [currentModeHasSpsr, getModeNum_inMode, virtualRegs_num, Option.isSome_map]

/-! ### What an access does -/

/-- **A read gives the register it names.** -/
theorem readAccess_eq (r : Registers) {m : ProcessorMode} {a : Access} {x : ArchReg}
    (h : arch m a = some x) :
    readAccess (r.inMode m) a = .ok (r.registers (layout x)) := by
  cases a with
  | register i =>
    rw [← Option.some.inj h, ← cell_num, ← getModeNum_inMode r m]
    rfl
  | usrRegister i =>
    rw [← Option.some.inj h, ← cell_num]
    rfl
  | cpsr =>
    rw [← Option.some.inj h, readAccess, readCpsr_eq]
    rfl
  | spsr =>
    obtain ⟨e, he, rfl⟩ := Option.map_eq_some_iff.mp h
    have hs : currentModeHasSpsr (r.inMode m) = true := by rw [hasSpsr_inMode, he]; rfl
    have hc : virtualRegs (getModeNum (r.inMode m)) 17 = some (layout (.spsr e)) := by
      rw [getModeNum_inMode, virtualRegs_num, he]
      rfl
    simp only [readAccess, readSpsr, dif_pos hs, spsr, hc, Option.get_some]
    rfl

/-- **A write sets the register it names**, and nothing else. -/
theorem writeAccess_eq (r : Registers) (value : Word) {m : ProcessorMode} {a : Access}
    {x : ArchReg} (h : arch m a = some x) :
    writeAccess (r.inMode m) value a = .ok ((r.inMode m).set (layout x) value) := by
  cases a with
  | register i =>
    rw [← Option.some.inj h, ← cell_num, ← getModeNum_inMode r m]
    rfl
  | usrRegister i =>
    rw [← Option.some.inj h, ← cell_num]
    rfl
  | cpsr =>
    rw [← Option.some.inj h, writeAccess, writeCpsr_eq]
    rfl
  | spsr =>
    obtain ⟨e, he, rfl⟩ := Option.map_eq_some_iff.mp h
    have hs : currentModeHasSpsr (r.inMode m) = true := by rw [hasSpsr_inMode, he]; rfl
    have hc : virtualRegs (getModeNum (r.inMode m)) 17 = some (layout (.spsr e)) := by
      rw [getModeNum_inMode, virtualRegs_num, he]
      rfl
    simp only [writeAccess, writeSpsr, dif_pos hs, hc, Option.get_some]

theorem exec_eq_ok (r : Registers) {c : WriteCall} (h : (arch c.mode c.access).isSome) :
    ∃ r', c.exec r = .ok r' ∧
      ∀ x, r'.registers (layout x) = (c.sets x).getD (r.registers (layout x)) := by
  obtain ⟨y, hy⟩ := Option.isSome_iff_exists.mp h
  refine ⟨_, writeAccess_eq r c.value hy, fun x => ?_⟩
  by_cases hx : y = x
  · rw [hx, Registers.set_same, WriteCall.sets, hy, hx, if_pos rfl, Option.getD_some]
  · have hne : layout x ≠ layout y := fun e => hx (layout_injective e).symm
    rw [Registers.set_of_ne _ _ hne, WriteCall.sets, hy, if_neg (by simpa using hx)]
    rfl

/-- **The registers are the values last written**, by induction over the calls. -/
theorem run_exec (cs : List WriteCall) (h : ∀ c ∈ cs, (arch c.mode c.access).isSome) :
    ∃ r, Run.run WriteCall.exec registersCreate cs = .ok r ∧
      ∀ x, r.registers (layout x) = lastWritten cs x := by
  induction cs using List.reverseRecOn with
  | nil => exact ⟨registersCreate, rfl, fun _ => rfl⟩
  | append_singleton cs c ih =>
    obtain ⟨r, hr, hx⟩ := ih fun d hd => h d (List.mem_append_left _ hd)
    obtain ⟨r', hr', hx'⟩ := exec_eq_ok r (h c (by simp))
    refine ⟨r', Run.run_concat_of_ok hr hr', fun x => ?_⟩
    rw [hx', hx, lastWritten, lastWritten, Run.lastSet_concat]

/-- **The register file refines the architectural registers.**  After any calls
of the writes, each in any of the seven modes and on a register that exists in it,
every read in any mode returns the value last written to the register that it
names, or 0. -/
theorem registers_refine (cs : List WriteCall) (h : ∀ c ∈ cs, (arch c.mode c.access).isSome) :
    ∃ r, Run.run WriteCall.exec registersCreate cs = .ok r ∧
      ∀ m a x, arch m a = some x → readAccess (r.inMode m) a = .ok (lastWritten cs x) := by
  obtain ⟨r, hr, hx⟩ := run_exec cs h
  refine ⟨r, hr, fun m a x hax => ?_⟩
  rw [readAccess_eq r hax, hx]

/-- r13 of IRQ and of SYS, then r13 of USR again through `write_usr_register`. -/
theorem registers_refine_three :
    let cs : List WriteCall := [⟨.exception .irq, .register 13, 1⟩, ⟨.sys, .register 13, 2⟩,
      ⟨.exception .fiq, .usrRegister 13, 3⟩]
    ∃ r, Run.run WriteCall.exec registersCreate cs = .ok r ∧
      readAccess (r.inMode .usr) (.register 13) = .ok 3 ∧
      readAccess (r.inMode (.exception .irq)) (.register 13) = .ok 1 := by
  intro cs
  obtain ⟨r, hr, hread⟩ := registers_refine cs (by decide)
  exact ⟨r, hr, hread .usr (.register 13) _ rfl, hread (.exception .irq) (.register 13) _ rfl⟩

end Armator
