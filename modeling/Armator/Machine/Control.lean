import Armator.Machine.Closed

/-!
# The control state of the core

In a mode without an SPSR no instruction reaches the control bits of the CPSR,
the mode of the register file or a register that USR and SYS do not see.
`SameControl p q` says that these are in `q` what they are in `p`.  No elementary
change of the core breaks it, the restore of the CPSR being impossible there
(`SameControl.closed`), and so a whole step keeps it (`SameControl.armStep`).

The core is created in SYS mode, which has no SPSR, so by induction over the
actions of a run nothing but a reset or a `G` packet ever sets a control bit.
-/

namespace Armator

/-- The control state of `q` is that of `p`: the mode of the register file, the
bits of the CPSR below the flags, and the registers that USR and SYS do not
see. -/
structure SameControl (p q : ArmCore) : Prop where
  mode : q.reg.mode = p.reg.mode
  control : ∀ j < 28, (armReadCpsr q).getLsbD j = (armReadCpsr p).getLsbD j
  banked : ∀ c, (∀ i, cell 6 i ≠ c) → q.reg.registers c = p.reg.registers c

theorem SameControl.refl (p : ArmCore) : SameControl p p :=
  ⟨rfl, fun _ _ => rfl, fun _ _ => rfl⟩

/-- A mode without an SPSR sees the cells that SYS sees. -/
theorem cell_of_no_spsr {m : Fin 7} (h : (virtualRegs m 17).isSome = false) (i : Fin 17) :
    cell m i = cell 6 i := by
  revert m i
  decide

namespace SameControl

variable {p q : ArmCore}

theorem hasSpsr (h : SameControl p q) : armCurrentModeHasSpsr q = armCurrentModeHasSpsr p := by
  simp only [armCurrentModeHasSpsr, currentModeHasSpsr, getModeNum, h.mode]

theorem of_reg (h : SameControl p q) {q' : ArmCore} (e : q'.reg = q.reg) : SameControl p q' := by
  refine ⟨by rw [e]; exact h.mode, fun j hj => ?_, fun c hc => by rw [e]; exact h.banked c hc⟩
  rw [armReadCpsr, e]
  exact h.control j hj

/-! ### Registers and flags -/

/-- Writing a register that USR and SYS see, the CPSR excepted. -/
theorem set (h : SameControl p q) (i : Fin 16) (value : Word) :
    SameControl p { q with reg := q.reg.set (cell 6 i.castSucc) value } := by
  refine ⟨h.mode, fun j hj => ?_, fun c hc => ?_⟩
  · rw [← h.control j hj]
    simp only [armReadCpsr, readCpsr_eq]
    rw [Registers.set_of_ne _ _ (cell_ne_cpsr _ _).symm]
  · rw [← h.banked c hc]
    exact Registers.set_of_ne _ _ (hc _).symm

theorem armWriteUsrRegister (h : SameControl p q) (i : Fin 16) (value : Word) :
    SameControl p (armWriteUsrRegister q i value) := by
  have hc : cell 0 i.castSucc = cell 6 i.castSucc := cell_of_no_spsr (by decide) _
  have hs := h.set i value
  rw [← hc] at hs
  exact hs

theorem writeFlags (h : SameControl p q) {value : Word}
    (hv : ∀ j < 28, value.getLsbD j = (armReadCpsr q).getLsbD j) :
    SameControl p (armWriteCpsr q value) := by
  refine ⟨h.mode, fun j hj => ?_, fun c hc => ?_⟩
  · rw [armReadCpsr_writeCpsr, hv j hj]
    exact h.control j hj
  · rw [← h.banked c hc]
    simp only [armWriteCpsr, writeCpsr_eq]
    exact Registers.set_of_ne _ _ fun e => hc 16 (by rw [cell_cpsr, e])

section NoSpsr

variable (hp : armCurrentModeHasSpsr p = false)

include hp

theorem armWriteRegister (h : SameControl p q) (i : Fin 16) (value : Word) :
    SameControl p (armWriteRegister q i value) := by
  have hq : (virtualRegs (getModeNum q.reg) 17).isSome = false := by
    have := h.hasSpsr
    rw [hp] at this
    exact this
  have hs := h.set i value
  rw [← cell_of_no_spsr hq] at hs
  exact hs

/-- **No elementary change breaks the control state of a mode without an SPSR.** -/
theorem closed : Closed (SameControl p) where
  armWriteRegister i v h := h.armWriteRegister hp i v
  armWriteUsrRegister i v h := h.armWriteUsrRegister i v
  writeFlags _ hv h := h.writeFlags hv
  restoreCpsr hm h := by
    rw [h.hasSpsr, hp] at hm
    cases hm
  armWriteByte _ _ h := h.of_reg rfl
  armWriteHalf _ _ h := h.of_reg rfl
  armWriteWord _ _ h := h.of_reg rfl
  shifterCarryOut _ h := h.of_reg rfl
  cycleCount _ h := h.of_reg rfl

theorem armFetch (h : SameControl p q) : SameControl p (armFetch q).2 := (closed hp).armFetch h

/-- **A step in a mode without an SPSR keeps the control state.** -/
theorem armStep (h : SameControl p q) {r : Int} {q' : ArmCore}
    (hs : armStep q = .ok (r, q')) : SameControl p q' := (closed hp).armStep h hs

end NoSpsr

end SameControl

end Armator
