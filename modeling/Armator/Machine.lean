import Armator.Lib.Run
import Armator.Instruction

/-!
# What can happen to the core

The core is driven from three sides: `arm_step`, called for the `s` and `c`
packets of the debugger; `arm_exception`, called for every byte received on the
interrupt port; and the register writes of the debugger, the `P` and `G` packets
of `gdb_protocol.c`.  An `Action` is one of them and a run of the machine is a
list of actions, which stops where the process ends.
-/

namespace Armator

/-- What the `P` packet does to the core. -/
def gdbWriteRegister (p : ArmCore) (reg : Fin 16) (value : Word) : ArmCore :=
  armWriteRegister p reg value

/-- What the `G` packet does to the core: r0 to r15 in order, then the CPSR. -/
def gdbWriteGeneralRegisters (p : ArmCore) (values : Fin 16 → Word) (cpsr : Word) : ArmCore :=
  armWriteCpsr ((List.finRange 16).foldl (fun p i => armWriteRegister p i (values i)) p) cpsr

inductive Action
  | step
  | exception (e : BitVec 8)
  | gdbWriteRegister (reg : Fin 16) (value : Word)
  | gdbWriteGeneralRegisters (values : Fin 16 → Word) (cpsr : Word)

/-- The action comes from the simulated machine, not from the debugger. -/
def Action.Internal : Action → Prop
  | step => True
  | exception _ => True
  | gdbWriteRegister _ _ => False
  | gdbWriteGeneralRegisters _ _ => False

def act (p : ArmCore) : Action → Except Halt ArmCore
  | .step => (armStep p).map Prod.snd
  | .exception e => .ok (armException p e)
  | .gdbWriteRegister reg value => .ok (gdbWriteRegister p reg value)
  | .gdbWriteGeneralRegisters values cpsr => .ok (gdbWriteGeneralRegisters p values cpsr)

/-- The core after a list of actions. -/
def machine (p : ArmCore) (as : List Action) : Except Halt ArmCore := Run.run act p as

/-- The core after `n` steps. -/
def steps (p : ArmCore) (n : Nat) : Except Halt ArmCore := machine p (List.replicate n .step)

/-- A step that does not end the process. -/
theorem act_step_ok {p q : ArmCore} (h : act p .step = .ok q) : ∃ r, armStep p = .ok (r, q) := by
  cases hs : armStep p with
  | error e => simp [act, hs, Except.map] at h
  | ok rq =>
    obtain ⟨r, q'⟩ := rq
    simp only [act, hs, Except.map, Except.ok.injEq] at h
    exact ⟨r, by rw [← h]⟩

/-- The steps after the first one. -/
theorem steps_succ_of_armStep {p q : ArmCore} {r : Int} (h : armStep p = .ok (r, q)) (n : Nat) :
    steps p (n + 1) = steps q n := by
  rw [steps, machine, List.replicate_succ, Run.run, List.foldlM_cons, act, h]
  rfl

theorem steps_succ_ok {p u : ArmCore} {n : Nat} (h : steps p (n + 1) = .ok u) :
    ∃ r q, steps p n = .ok q ∧ armStep q = .ok (r, u) := by
  rw [steps, machine, List.replicate_succ'] at h
  obtain ⟨q, hq, hu⟩ := Run.run_concat_ok h
  obtain ⟨r, hr⟩ := act_step_ok hu
  exact ⟨r, q, hq, hr⟩

theorem steps_succ_of_ok {p q u : ArmCore} {n : Nat} {r : Int} (hq : steps p n = .ok q)
    (hu : armStep q = .ok (r, u)) : steps p (n + 1) = .ok u := by
  rw [steps, machine, List.replicate_succ']
  refine Run.run_concat_of_ok hq ?_
  simp [act, hu, Except.map]

end Armator
