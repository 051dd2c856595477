import Armator.Gdb.Words
import Armator.Machine.Host

/-!
# What the protocol does not look at

The protocol writes to the connection and never looks at what it has written; and it does
not see what no function of the core sees.  So every function of it commutes with such
changes (`Gdb.moved`): with putting some bytes before the ones that were sent, and with a
neutral change of the core.  What only sends commutes with any change of the core.  Each
lemma here says so of one function, and `onToken_moved` of the whole protocol.  Hence a
token does the same to two connections that differ in their wires only (`onToken_quiet`),
and on hosts of either byte order.
-/

namespace Armator

open Text
open Run (ok_bind error_bind)

/-- Another connection with another core, over which `w` was sent before. -/
def Gdb.moved (f : ArmCore → ArmCore) (w : List Byte) (gdb : Gdb) : Gdb :=
  { gdb with arm := f gdb.arm, wire := w ++ gdb.wire }

/-- The connection without what was sent over it. -/
def Gdb.quiet (gdb : Gdb) : Gdb := { gdb with wire := [] }

theorem quiet_moved_wire (gdb : Gdb) : gdb.quiet.moved id gdb.wire = gdb := by
  cases gdb
  simp [Gdb.quiet, Gdb.moved]

theorem shut_of_quiet {g gdb : Gdb} (h : g.quiet = gdb.quiet) : g.shut = gdb.shut :=
  show g.quiet.shut = gdb.quiet.shut from congrArg Gdb.shut h

/-! ### Words -/

/-- **`read_uint32` reads the bytes in the target's order**, whatever the host. -/
theorem readUint32_eq_target (host target : Endian) (data : List Byte) (value : Word) :
    readUint32 host target data value =
      (readBytes 4 data value).map fun bytes => Bytes.ofBytes target 4 fun i => bytes.getD i 0 := by
  have hword : ∀ f : ℕ → Byte, Bytes.ofBytes host 4 (fun i => f (byteIndex host target i)) =
      Bytes.ofBytes target 4 f := by
    intro f
    rw [← Bytes.ofBytes_byteOf target 4 (Bytes.ofBytes host 4 _)]
    refine Bytes.ofBytes_congr target fun k hk => ?_
    rw [← byteOf_byteIndex host target _ hk, Bytes.byteOf_ofBytes host 4 _ (byteIndex_lt host target hk),
      byteIndex_byteIndex host target hk]
  rw [readUint32]
  cases readBytes 4 data value with
  | error e => rfl
  | ok bytes => exact congrArg Except.ok (hword fun i => bytes.getD i 0)

section

variable (f : ArmCore → ArmCore) (w : List Byte) (gdb : Gdb)

/-! ### Sending -/

theorem rioWriten_moved (s : List Byte) :
    rioWriten (gdb.moved f w) s = (rioWriten gdb s).map (Gdb.moved f w) := by
  rw [rioWriten, rioWriten]
  split
  next => rfl
  next =>
    rw [show (gdb.moved f w).shut = gdb.shut from rfl]
    split
    next => rfl
    next => simp [Except.map, Gdb.moved]

theorem writeText_moved (position : Nat) (s : List Byte) :
    (gdb.moved f w).writeText position s = (gdb.writeText position s).map (Gdb.moved f w) := by
  rw [Gdb.writeText, Gdb.writeText]
  split <;> rfl

theorem writeTexts_moved (position : Nat) (ss : List (List Byte)) :
    (gdb.moved f w).writeTexts position ss = (gdb.writeTexts position ss).map (Gdb.moved f w) := by
  induction ss generalizing gdb position with
  | nil => rfl
  | cons s ss ih =>
    rw [Gdb.writeTexts, Gdb.writeTexts, writeText_moved, Run.bind_map, Run.map_bind]
    exact bind_congr fun g => ih g _

theorem gdbSendBuffer_moved : gdbSendBuffer (gdb.moved f w) = (gdbSendBuffer gdb).map (Gdb.moved f w) := by
  have htext := writeText_moved f w { gdb with packet := Function.update gdb.packet 0 (char '$') }
  simp only [Gdb.moved] at htext
  rw [gdbSendBuffer, gdbSendBuffer]
  dsimp +instances only [Gdb.moved]
  split
  next => rfl
  next i _ =>
    rw [htext, Run.bind_map, Run.map_bind]
    exact bind_congr fun g => rioWriten_moved f w { g with len := i + 3 } _

theorem gdbSendData_moved (data : List Byte) :
    gdbSendData (gdb.moved f w) data = (gdbSendData gdb data).map (Gdb.moved f w) := by
  rw [gdbSendData, gdbSendData, writeText_moved, Run.bind_map, Run.map_bind]
  exact bind_congr fun g => gdbSendBuffer_moved f w g

theorem gdbSendStopReason_moved :
    gdbSendStopReason (gdb.moved f w) = (gdbSendStopReason gdb).map (Gdb.moved f w) :=
  gdbSendData_moved f w gdb _

/-! ### Handlers without the core -/

variable (l : Locals) (data : List Byte)

theorem query_moved : query (gdb.moved f w) data = (query gdb data).map (Gdb.moved f w) := by
  rw [query, query, Run.map_bind]
  exact bind_congr fun s => gdbSendData_moved f w gdb _

theorem setThread_moved :
    setThread (gdb.moved f w) data = (setThread gdb data).map (Gdb.moved f w) := by
  rw [setThread.eq_def, setThread.eq_def]
  split
  next => rfl
  next type data =>
    rw [Run.map_bind]
    refine bind_congr fun s => ?_
    dsimp only
    split
    next => exact gdbSendData_moved f w gdb _
    next => exact gdbSendData_moved f w gdb _

theorem readField_moved : readField l (gdb.moved f w) data = readField l gdb data := by
  funext k
  rw [readField, readField, readUint32_eq_target, readUint32_eq_target]
  rfl

end

section

variable {f : ArmCore → ArmCore} (hf : Neutral f) (w : List Byte) (gdb : Gdb)
include hf

/-! ### Handlers -/

theorem gdbStep_moved : gdbStep (gdb.moved f w) = (gdbStep gdb).map (Gdb.moved f w) := by
  rw [gdbStep, gdbStep, show (gdb.moved f w).arm = f gdb.arm from rfl, hf.step]
  cases armStep gdb.arm with
  | error e => rfl
  | ok x => rfl

theorem contLoop_moved (fuel : Nat) (instruction : Word) :
    contLoop fuel (gdb.moved f w) instruction =
      (contLoop fuel gdb instruction).map (Gdb.moved f w) := by
  induction fuel generalizing gdb instruction with
  | zero => rfl
  | succ fuel ih =>
    rw [contLoop, contLoop]
    simp only [show (gdb.moved f w).arm = f gdb.arm from rfl, hf.armReadRegister, hf.word]
    split
    next => rfl
    next =>
      rw [gdbStep_moved hf, Run.bind_map, Run.map_bind]
      exact bind_congr fun g => ih g _

theorem cont_moved (l : Locals) : cont l (gdb.moved f w) = (cont l gdb).map (Gdb.moved f w) := by
  rw [cont, cont, contLoop_moved hf, Run.bind_map, Run.map_bind]
  exact bind_congr fun g => gdbSendStopReason_moved f w g

theorem step_moved : step (gdb.moved f w) = (step gdb).map (Gdb.moved f w) := by
  rw [step, step, gdbStep_moved hf, Run.bind_map, Run.map_bind]
  exact bind_congr fun g => gdbSendStopReason_moved f w g

theorem generalRegisters_moved : generalRegisters (gdb.moved f w) = generalRegisters gdb := by
  simp only [generalRegisters, writeUint32_eq_target,
    show (gdb.moved f w).arm = f gdb.arm from rfl, hf.armReadRegister, hf.armReadCpsr]
  rfl

theorem readGeneralRegisters_moved :
    readGeneralRegisters (gdb.moved f w) = (readGeneralRegisters gdb).map (Gdb.moved f w) := by
  rw [readGeneralRegisters, readGeneralRegisters, generalRegisters_moved hf, writeTexts_moved,
    Run.bind_map, Run.map_bind]
  exact bind_congr fun g => gdbSendBuffer_moved f w g

theorem readMemoryLoop_moved (size : Nat) (address : Word) (position : Nat) :
    readMemoryLoop size address (gdb.moved f w) position =
      (readMemoryLoop size address gdb position).map (Gdb.moved f w) := by
  induction size generalizing gdb address position with
  | zero => rfl
  | succ size ih =>
    rw [readMemoryLoop, readMemoryLoop]
    simp only [show (gdb.moved f w).arm = f gdb.arm from rfl, hf.mem]
    split
    next => rfl
    next value _ =>
      rw [writeText_moved, Run.bind_map, Run.map_bind]
      exact bind_congr fun g => ih g _ _

variable (l : Locals) (data : List Byte)

theorem readMemory_moved :
    readMemory l (gdb.moved f w) data = (readMemory l gdb data).map (Gdb.moved f w) := by
  rw [readMemory, readMemory, Run.map_bind]
  refine bind_congr fun s => ?_
  dsimp only
  rw [writeText_moved, Run.bind_map, Run.map_bind]
  refine bind_congr fun g => ?_
  rw [readMemoryLoop_moved hf, Run.bind_map, Run.map_bind]
  exact bind_congr fun g => gdbSendBuffer_moved f w g

theorem readRegisterPacket_moved :
    readRegisterPacket (gdb.moved f w) data = (readRegisterPacket gdb data).map (Gdb.moved f w) := by
  rw [readRegisterPacket, readRegisterPacket, Run.map_bind]
  refine bind_congr fun s => ?_
  split
  next h =>
    simp only [writeUint32_eq_target, gdbRegister, show (gdb.moved f w).arm = f gdb.arm from rfl,
      show (gdb.moved f w).target = gdb.target from rfl, hf.armReadRegister]
    rw [writeText_moved, Run.bind_map, Run.map_bind]
    exact bind_congr fun g => gdbSendBuffer_moved f w g
  next => rfl

/-- The registers of a `G` packet, written one by one. -/
theorem writeFields_moved (is : List (Fin 16)) (p : ArmCore) (value : Fin 16 → Except Stop Word) :
    is.foldlM (fun arm i => do return armWriteRegister arm i (← value i)) (f p) =
      (is.foldlM (fun arm i => do return armWriteRegister arm i (← value i)) p).map f := by
  induction is generalizing p with
  | nil => rfl
  | cons i is ih =>
    rw [List.foldlM_cons, List.foldlM_cons, Run.map_bind, bind_assoc, bind_assoc]
    refine bind_congr fun v => ?_
    rw [pure_bind, pure_bind, hf.armWriteRegister]
    exact ih _

theorem writeGeneralRegisters_moved :
    writeGeneralRegisters l (gdb.moved f w) data =
      (writeGeneralRegisters l gdb data).map (Gdb.moved f w) := by
  rw [writeGeneralRegisters, writeGeneralRegisters, readField_moved,
    show (gdb.moved f w).arm = f gdb.arm from rfl,
    writeFields_moved hf _ _ fun i => readField l gdb data i, Run.bind_map, Run.map_bind]
  refine bind_congr fun arm => ?_
  rw [Run.map_bind]
  refine bind_congr fun _ => ?_
  rw [Run.map_bind]
  refine bind_congr fun value => ?_
  rw [hf.armWriteCpsr]
  exact gdbSendData_moved f w { gdb with arm := armWriteCpsr arm value } _

theorem writeMemoryBinary_moved :
    writeMemoryBinary l (gdb.moved f w) data =
      (writeMemoryBinary l gdb data).map (Gdb.moved f w) := by
  rw [writeMemoryBinary, writeMemoryBinary, Run.map_bind]
  refine bind_congr fun s => ?_
  dsimp only
  have hanswer : ∀ (writeOk : Bool) (mem : Memory) (g : Gdb),
      g = { gdb with arm := { gdb.arm with mem := mem } } →
      (if writeOk then gdbSendData (g.moved f w) (ascii "OK")
        else gdbSendData (g.moved f w) (ascii "E02")) =
      (if writeOk then gdbSendData g (ascii "OK") else gdbSendData g (ascii "E02")).map
        (Gdb.moved f w) := by
    intro writeOk mem g _
    split
    next => exact gdbSendData_moved f w g _
    next => exact gdbSendData_moved f w g _
  simp only [show (gdb.moved f w).arm = f gdb.arm from rfl, hf.mem, hf.setMem]
  split
  next =>
    rw [Run.map_bind]
    exact bind_congr fun r => hanswer r.1 r.2 _ rfl
  next => exact hanswer false gdb.arm.mem _ rfl

theorem writeRegisterPacket_moved :
    writeRegisterPacket l (gdb.moved f w) data =
      (writeRegisterPacket l gdb data).map (Gdb.moved f w) := by
  rw [writeRegisterPacket, writeRegisterPacket, Run.map_bind]
  refine bind_congr fun s => ?_
  dsimp only
  split
  next => rfl
  next =>
    simp only [readUint32_eq_target]
    rw [show (gdb.moved f w).arm = f gdb.arm from rfl,
      show (gdb.moved f w).target = gdb.target from rfl, Run.map_bind]
    refine bind_congr fun value => ?_
    split
    next h =>
      rw [gdbWriteRegister, hf.armWriteRegister]
      exact gdbSendData_moved f w { gdb with arm := gdbWriteRegister gdb.arm ⟨_, h⟩ value } _
    next => rfl

theorem call_moved (h : Handler) :
    h.call l (gdb.moved f w) data = (h.call l gdb data).map (Gdb.moved f w) := by
  cases h with
  | cont => exact cont_moved hf w gdb l
  | killRequest => rfl
  | query => exact query_moved f w gdb data
  | readGeneralRegisters => exact readGeneralRegisters_moved hf w gdb
  | readMemory => exact readMemory_moved hf w gdb l data
  | readRegister => exact readRegisterPacket_moved hf w gdb data
  | reason => exact gdbSendStopReason_moved f w gdb
  | setThread => exact setThread_moved f w gdb data
  | step => exact step_moved hf w gdb
  | writeGeneralRegisters => exact writeGeneralRegisters_moved hf w gdb l data
  | writeMemoryBinary => exact writeMemoryBinary_moved hf w gdb l data
  | writeRegister => exact writeRegisterPacket_moved hf w gdb l data

theorem gdbDispatch_moved (index : Byte) :
    gdbDispatch l (gdb.moved f w) index data =
      (gdbDispatch l gdb index data).map (Gdb.moved f w) := by
  rw [gdbDispatch, gdbDispatch]
  split
  next h _ => exact call_moved hf w gdb l data h
  next => exact gdbSendData_moved f w gdb _

/-! ### Tokens -/

theorem gdbPacketAnalysis_moved (packet : List Byte) (length : Nat) :
    gdbPacketAnalysis l (gdb.moved f w) packet length =
      (gdbPacketAnalysis l gdb packet length).map (Gdb.moved f w) := by
  rw [gdbPacketAnalysis, gdbPacketAnalysis]
  dsimp only
  rw [Run.map_bind]
  refine bind_congr fun s => ?_
  split
  next =>
    rw [gdbSendAck, gdbSendAck, rioWriten_moved, Run.bind_map, Run.map_bind]
    exact bind_congr fun g => gdbDispatch_moved hf w g l _ _
  next => exact rioWriten_moved f w gdb _

/-- **A token does the same, whatever was sent before and whatever is neutral.** -/
theorem onToken_moved (t : Token) :
    onToken (gdb.moved f w) t = (onToken gdb t).map (Gdb.moved f w) := by
  cases t with
  | ack => rfl
  | nack => exact rioWriten_moved f w gdb _
  | packet p behind l => exact gdbPacketAnalysis_moved hf w gdb l _ _

end

/-- What a token does to a connection, apart from the wire. -/
theorem onToken_quiet (gdb : Gdb) (t : Token) :
    (onToken gdb t).map Gdb.quiet = (onToken gdb.quiet t).map Gdb.quiet := by
  have h := onToken_moved neutral_id gdb.wire gdb.quiet t
  rw [quiet_moved_wire] at h
  rw [h]
  cases onToken gdb.quiet t <;> rfl

/-- What the tokens of a session do to a connection, apart from the wire. -/
theorem session_quiet (gdb : Gdb) (ts : List Token) :
    (session gdb ts).map Gdb.quiet = (session gdb.quiet ts).map Gdb.quiet := by
  have h := Run.run_map (onToken_moved neutral_id gdb.wire) gdb.quiet ts
  rw [quiet_moved_wire] at h
  rw [session, session, h]
  cases Run.run onToken gdb.quiet ts <;> rfl

end Armator
