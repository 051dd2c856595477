import Armator.DataProcessing.Operations
import Armator.LoadStore.Single
import Armator.Machine.Branch

/-!
# What a program sees of the core

A program that stays in one mode sees sixteen registers, the four flags and the memory
(`Visible`).  The mode, the control bits of the CPSR, the registers of the other modes,
the cycle count and the carry that `shifter_carry_out` holds between two instructions are
hidden from it.

`Displays p q m` says that `q` shows `m` and hides what `p` hides.  The accessors of the core
keep it, each with its counterpart on what is seen (`Displays.write`, `Displays.setFlags`), and
an instruction that uses no others can be followed on what is seen alone.
-/

namespace Armator

/-- The registers of the current mode, r15 as it is stored, the flags and the memory. -/
@[ext] structure Visible where
  r : Fin 16 → Word
  n : Bool
  z : Bool
  c : Bool
  v : Bool
  mem : Memory

namespace Visible

/-- What an instruction reads: r15 is ahead of what is stored. -/
def read (m : Visible) (i : Fin 16) : Word := if i = 15 then m.r 15 + 4 else m.r i

def write (m : Visible) (i : Fin 16) (value : Word) : Visible :=
  { m with r := Function.update m.r i value }

def flagged (m : Visible) (n z c v : Bool) : Visible := { m with n := n, z := z, c := c, v := v }

@[simp] theorem write_r_same (m : Visible) (i : Fin 16) (value : Word) :
    (m.write i value).r i = value := Function.update_self ..

@[simp] theorem write_r_of_ne (m : Visible) {i j : Fin 16} (value : Word) (h : j ≠ i) :
    (m.write i value).r j = m.r j := Function.update_of_ne h ..

@[simp] theorem write_mem (m : Visible) (i : Fin 16) (value : Word) :
    (m.write i value).mem = m.mem := rfl

end Visible

/-- What the core shows. -/
def ArmCore.visible (p : ArmCore) : Visible where
  r := readRegister p.reg
  n := bit (armReadCpsr p) flagN
  z := bit (armReadCpsr p) flagZ
  c := bit (armReadCpsr p) flagC
  v := bit (armReadCpsr p) flagV
  mem := p.mem

/-- `q` hides what `p` hides. -/
structure SameHidden (p q : ArmCore) : Prop where
  mode : q.reg.mode = p.reg.mode
  control : ∀ j < 28, (armReadCpsr q).getLsbD j = (armReadCpsr p).getLsbD j
  banked : ∀ c, (∀ i, cell (getModeNum p.reg) i ≠ c) → q.reg.registers c = p.reg.registers c
  cycleCount : q.cycleCount = p.cycleCount
  host : q.host = p.host

/-- `q` shows `m` and hides what `p` hides. -/
structure Displays (p q : ArmCore) (m : Visible) : Prop extends SameHidden p q where
  visible : q.visible = m

theorem Displays.refl (p : ArmCore) : Displays p p p.visible :=
  ⟨⟨rfl, fun _ _ => rfl, fun _ _ => rfl, rfl, rfl⟩, rfl⟩

namespace Displays

variable {p q : ArmCore} {m : Visible} (h : Displays p q m)

include h

/-- An instruction at an aligned address reads what it sees. -/
theorem armReadRegister_eq (ha : (m.r 15).toNat % 4 = 0) (i : Fin 16) :
    armReadRegister q i = m.read i := by
  have hr : readRegister q.reg = m.r := congrArg Visible.r h.visible
  rw [armReadRegister, Visible.read, hr]
  by_cases hi : i = 15
  · rw [if_pos hi, if_pos hi, hi, pcView_of_aligned ha]
  · rw [if_neg hi, if_neg hi]

theorem mem_eq : q.mem = m.mem := congrArg Visible.mem h.visible

theorem c_eq : bit (armReadCpsr q) flagC = m.c := congrArg Visible.c h.visible

theorem v_eq : bit (armReadCpsr q) flagV = m.v := congrArg Visible.v h.visible

/-! ### The accessors -/

theorem write (i : Fin 16) (value : Word) :
    Displays p (armWriteRegister q i value) (m.write i value) := by
  have hr : readRegister q.reg = m.r := congrArg Visible.r h.visible
  refine ⟨⟨h.mode, ?_, ?_, h.cycleCount, h.host⟩, ?_⟩
  · rw [armReadCpsr_writeRegister]
    exact h.control
  · intro c hc
    refine (Registers.set_of_ne _ _ ?_).trans (h.banked c hc)
    rw [getModeNum_congr h.mode]
    exact (hc _).symm
  · have hread : readRegister (armWriteRegister q i value).reg = Function.update m.r i value := by
      funext j
      by_cases hj : j = i
      · rw [hj, Function.update_self]
        exact readRegister_write_same _ _ _
      · rw [Function.update_of_ne hj, ← hr]
        exact readRegister_write_of_ne _ _ hj
    rw [ArmCore.visible, hread, armReadCpsr_writeRegister, ← h.visible]
    rfl

theorem setFlags (res : Word) (c v : Bool) :
    Displays p (armWriteCpsr q (setFlags (armReadCpsr q) res c v))
      (m.flagged (bit res 31) (res == 0) c v) := by
  have hcpsr : armReadCpsr (armWriteCpsr q (Armator.setFlags (armReadCpsr q) res c v)) =
      Armator.setFlags (armReadCpsr q) res c v := armReadCpsr_writeCpsr _ _
  refine ⟨⟨h.mode, ?_, ?_, h.cycleCount, h.host⟩, ?_⟩
  · intro j hj
    rw [hcpsr, getLsbD_setFlags _ _ _ _ hj, h.control j hj]
  · intro c hc
    refine (armWriteCpsr_registers _ _ ?_).trans (h.banked c hc)
    rw [← cell_cpsr (getModeNum p.reg)]
    exact (hc 16).symm
  · have hread : ∀ i, readRegister (armWriteCpsr q
        (Armator.setFlags (armReadCpsr q) res c v)).reg i = readRegister q.reg i := by
      intro i
      exact armWriteCpsr_registers _ _ (cell_ne_cpsr _ _)
    rw [ArmCore.visible, hcpsr, bit_setFlags_n, bit_setFlags_z, bit_setFlags_c, bit_setFlags_v,
      funext hread, ← h.visible]
    rfl

theorem carry (x : Word) : Displays p { q with shifterCarryOut := x } m :=
  ⟨⟨h.mode, h.control, h.banked, h.cycleCount, h.host⟩, h.visible⟩

theorem store (mem : Memory) : Displays p { q with mem := mem } { m with mem := mem } := by
  refine ⟨⟨h.mode, h.control, h.banked, h.cycleCount, h.host⟩, ?_⟩
  rw [← h.visible]
  rfl

/-- What is hidden behind `q` is hidden behind what came before. -/
theorem trans {u : ArmCore} (hu : SameHidden u p) : Displays u q m := by
  refine ⟨⟨h.mode.trans hu.mode, ?_, ?_, h.cycleCount.trans hu.cycleCount, h.host.trans hu.host⟩,
    h.visible⟩
  · intro j hj
    rw [h.control j hj, hu.control j hj]
  · intro c hc
    rw [h.banked c (by rw [getModeNum_congr hu.mode]; exact hc), hu.banked c hc]

end Displays

end Armator
