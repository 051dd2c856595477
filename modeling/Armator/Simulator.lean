import Armator.Scanner
import Armator.Lib.Locking

/-!
# The simulator (`arm_simulator.c`)

Two threads share the core and its memory under one lock.  `gdb_listener` reads the
connection of the debugger with the scanner; `gdb_packet_analysis` takes the lock for the
call of a handler only, and acknowledges, refuses and reports without it.  `irq_listener`
takes it for every byte that comes over its connections, one connection after the other.

What a handler and `arm_exception` do while they hold the lock is a program of atomic
steps, and nothing is said about how fine these are: `Cuts` is any way of cutting them.

A configuration goes on after the end of `gdb_listener`, when `main` destroys the core and
the process ends.  A thread that stops the process, or fails, has no next step.
-/

namespace Armator

open Locking (Prog)

/-! ### What is done without the lock -/

/-- The call of a handler. -/
structure Call where
  handler : Handler
  locals : Locals
  data : List Byte

def Call.run (c : Call) (gdb : Gdb) : Except Stop Gdb := c.handler.call c.locals gdb c.data

/-- `gdb_packet_analysis` as far as `pthread_mutex_lock`, with the call that is to come, or to
its end. -/
def packetToLock (l : Locals) (gdb : Gdb) (packet : List Byte) (length : ℕ) :
    Except Stop (Gdb × Option Call) := do
  let i := max 1 (length - 3)
  let check := checksum ((packet.take i).drop 1)
  let s ← stringAt (packet.drop (i + 1))
  let given := ((Text.scanHexWord s).map Prod.fst).getD l.given
  if check.setWidth 32 = given then
    let gdb ← gdbSendAck gdb
    let packet := packet.set i 0
    match handler (packet.getD 1 0) with
    | some h => return (gdb, some ⟨h, l, packet.drop 2⟩)
    | none =>
      let gdb ← gdbSendData gdb []
      return (gdb, none)
  else
    let gdb ← gdbRequireRetransmission gdb
    return (gdb, none)

def tokenToLock (gdb : Gdb) : Token → Except Stop (Gdb × Option Call)
  | .ack => .ok (gdb, none)
  | .nack => do
    let gdb ← gdbTransmitPacket gdb
    return (gdb, none)
  | .packet p behind l => packetToLock l gdb (p.text ++ 0 :: behind) p.text.length

/-- A rule of the scanner as far as the lock, `none` for `<<EOF>>`. -/
def ruleToLock (data : ParserData) : Option Lexeme → Except Stop (ParserData × Option Call)
  | some (.token t) => do
    let data ← handleError data
    let (gdb, call) ← tokenToLock data.gdb t
    return ({ data with gdb := gdb }, call)
  | some (.other c) => do
    let data ← addCharacterToError data c
    return (data, none)
  | some .newline => .ok (data, none)
  | none => do
    let data ← handleError data
    return (data, none)

/-! ### The threads -/

inductive Thread
  | gdb
  | irq
  deriving DecidableEq

/-- Where `gdb_listener` is. -/
inductive GdbPlace
  | scanning
  /-- At `pthread_mutex_lock`. -/
  | locking (c : Call)
  | handling (prog : Prog Stop Gdb)
  | ended

/-- The core that `data` names is not looked at: it is the shared one that counts. -/
structure GdbListener where
  data : ParserData
  rest : List Lexeme
  place : GdbPlace

inductive IrqPlace
  | reading
  | locking (irq : Byte)
  | handling (prog : Prog Stop ArmCore)

/-- `connections` is what is still to come over this connection and the next ones. -/
structure IrqListener where
  connections : List (List Byte)
  place : IrqPlace

def Gdb.withArm (gdb : Gdb) (p : ArmCore) : Gdb := { gdb with arm := p }

def ParserData.withGdb (data : ParserData) (gdb : Gdb) : ParserData := { data with gdb := gdb }

def ParserData.withArm (data : ParserData) (p : ArmCore) : ParserData :=
  data.withGdb (data.gdb.withArm p)

/-- The steps in which the handlers and `arm_exception` use the core. -/
structure Cuts where
  call : Call → Prog Stop Gdb
  run_call : ∀ c, (call c).run = c.run
  exception : Byte → Prog Stop ArmCore
  run_exception : ∀ irq p, (exception irq).run p = .ok (armException p irq)

/-- The place after a rule. -/
def GdbPlace.after : Option Lexeme → Option Call → GdbPlace
  | _, some c => .locking c
  | some _, none => .scanning
  | none, none => .ended

inductive GdbListener.Own : GdbListener → GdbListener → Prop
  | lexeme {data d : ParserData} {x : Lexeme} {rest : List Lexeme} {call : Option Call}
    (h : ruleToLock data (some x) = .ok (d, call)) :
    Own ⟨data, x :: rest, .scanning⟩ ⟨d, rest, .after (some x) call⟩
  | eof {data d : ParserData} {call : Option Call} (h : ruleToLock data none = .ok (d, call)) :
    Own ⟨data, [], .scanning⟩ ⟨d, [], .after none call⟩

inductive GdbListener.Enter (cuts : Cuts) : GdbListener → GdbListener → Prop
  | lock {data : ParserData} {rest : List Lexeme} {c : Call} :
    Enter cuts ⟨data, rest, .locking c⟩ ⟨data, rest, .handling (cuts.call c)⟩

inductive GdbListener.Inside : ArmCore × GdbListener → ArmCore × GdbListener → Prop
  | step {p : ArmCore} {data : ParserData} {rest : List Lexeme} {prog prog' : Prog Stop Gdb} {g : Gdb}
    (h : Prog.Step (data.gdb.withArm p, prog) (g, prog')) :
    Inside (p, ⟨data, rest, .handling prog⟩) (g.arm, ⟨data.withGdb g, rest, .handling prog'⟩)

inductive GdbListener.Leave : GdbListener → GdbListener → Prop
  | unlock {data : ParserData} {rest : List Lexeme} :
    Leave ⟨data, rest, .handling .done⟩ ⟨data, rest, .scanning⟩

inductive IrqListener.Own : IrqListener → IrqListener → Prop
  | accept {connections : List (List Byte)} :
    Own ⟨[] :: connections, .reading⟩ ⟨connections, .reading⟩
  | read {irq : Byte} {rest : List Byte} {connections : List (List Byte)} :
    Own ⟨(irq :: rest) :: connections, .reading⟩ ⟨rest :: connections, .locking irq⟩

inductive IrqListener.Enter (cuts : Cuts) : IrqListener → IrqListener → Prop
  | lock {connections : List (List Byte)} {irq : Byte} :
    Enter cuts ⟨connections, .locking irq⟩ ⟨connections, .handling (cuts.exception irq)⟩

inductive IrqListener.Inside : ArmCore × IrqListener → ArmCore × IrqListener → Prop
  | step {p q : ArmCore} {connections : List (List Byte)} {prog prog' : Prog Stop ArmCore}
    (h : Prog.Step (p, prog) (q, prog')) :
    Inside (p, ⟨connections, .handling prog⟩) (q, ⟨connections, .handling prog'⟩)

inductive IrqListener.Leave : IrqListener → IrqListener → Prop
  | unlock {connections : List (List Byte)} :
    Leave ⟨connections, .handling .done⟩ ⟨connections, .reading⟩

/-- The state of its own that a thread has. -/
def Thread.State : Thread → Type
  | gdb => GdbListener
  | irq => IrqListener

/-- The two threads and their lock. -/
def simulator (cuts : Cuts) : Locking.System Thread ArmCore Thread.State where
  own
    | .gdb => GdbListener.Own
    | .irq => IrqListener.Own
  enter
    | .gdb => GdbListener.Enter cuts
    | .irq => IrqListener.Enter cuts
  inside
    | .gdb => GdbListener.Inside
    | .irq => IrqListener.Inside
  leave
    | .gdb => GdbListener.Leave
    | .irq => IrqListener.Leave

abbrev Simulator := Locking.Config Thread ArmCore Thread.State

def Simulator.gdb (c : Simulator) : GdbListener := c.threads .gdb

def Simulator.irq (c : Simulator) : IrqListener := c.threads .irq

def threadsOf (g : GdbListener) (i : IrqListener) : (t : Thread) → t.State
  | .gdb => g
  | .irq => i

@[simp] theorem update_threadsOf_gdb (g g' : GdbListener) (i : IrqListener) :
    Function.update (threadsOf g i) .gdb g' = threadsOf g' i := by
  funext t
  cases t <;> rfl

@[simp] theorem update_threadsOf_irq (g : GdbListener) (i i' : IrqListener) :
    Function.update (threadsOf g i) .irq i' = threadsOf g i' := by
  funext t
  cases t <;> rfl

/-- The simulator when `main` has started its threads, with what will come over their
connections. -/
def started (arm : ArmCore) (target : Endian) (garbage : ℕ → Byte)
    (buffer : Vector Byte maxErrorSize) (ls : List Lexeme) (connections : List (List Byte)) :
    Simulator :=
  ⟨arm, threadsOf ⟨⟨gdbInitData arm target garbage, buffer, 0⟩, ls, .scanning⟩
    ⟨connections, .reading⟩, none⟩

end Armator
