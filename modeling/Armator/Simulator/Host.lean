import Armator.Simulator.Serial

/-!
# The simulator on hosts of either byte order

`is_big_endian` is asked in `memory.c` for every access and in `gdb_protocol.c` for every
word of a packet.  Both put the bytes right, so that nothing of the host can be seen from
outside: whatever the debugger and the interrupts do to it, a simulator sends the same
bytes, executes the same instructions and stops for the same reason on hosts of either
byte order (`simulator_host`).
-/

namespace Armator

open Run (ok_bind error_bind)

theorem callNext_moved {f : ArmCore → ArmCore} (hf : Neutral f) (data : ParserData)
    (call : Option Call) :
    callNext (data.moved f, call) = (callNext (data, call)).map (·.moved f) := by
  cases call with
  | none => rfl
  | some c =>
    rw [callNext, callNext, Call.run, Call.run, show (data.moved f).gdb = data.gdb.moved f [] from rfl,
      call_moved hf]
    cases c.handler.call c.locals data.gdb c.data <;> rfl

/-- A rule does the same, whatever is neutral. -/
theorem onRule_moved {f : ArmCore → ArmCore} (hf : Neutral f) (data : ParserData)
    (x : Option Lexeme) : onRule (data.moved f) x = (onRule data x).map (·.moved f) := by
  rw [onRule_eq, onRule_eq, ruleToLock_moved, Run.bind_map, Run.map_bind]
  exact bind_congr fun y => callNext_moved hf y.1 y.2

theorem armException_onHost (p : ArmCore) (host : Endian) (b : Byte) :
    armException (p.onHost host) b = (armException p b).onHost host := by
  rw [armException, armException]
  split <;> rfl

def ParserData.onHost (data : ParserData) (host : Endian) : ParserData := data.moved (·.onHost host)

theorem onEvent_onHost (host : Endian) (data : ParserData) (e : Event) :
    onEvent (data.onHost host) e = (onEvent data e).map (·.onHost host) := by
  cases e with
  | rule x => exact onRule_moved (neutral_onHost host) data x
  | irq b =>
    rw [onEvent, onEvent, show (data.onHost host).gdb.arm = data.gdb.arm.onHost host from rfl,
      armException_onHost]
    rfl

/-- **The simulator is the same on hosts of either byte order.**  On the same memory and for
the same events it comes to the same state, with the same bytes sent, or stops for the same
reason. -/
theorem simulator_host (host host' : Endian) (mem : Memory) (target : Endian) (garbage : ℕ → Byte)
    (buffer : Vector Byte maxErrorSize) (es : List Event) :
    Run.run onEvent ⟨gdbInitData (armCreate host' mem) target garbage, buffer, 0⟩ es =
      (Run.run onEvent ⟨gdbInitData (armCreate host mem) target garbage, buffer, 0⟩ es).map
        fun data => data.onHost host' := by
  have h := Run.run_map (onEvent_onHost host')
    ⟨gdbInitData (armCreate host mem) target garbage, buffer, 0⟩ es
  rw [← h]
  rfl

end Armator
