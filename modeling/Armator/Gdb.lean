import Armator.Lib.Text
import Armator.Machine

/-!
# The debugger's protocol (`gdb_protocol.c`)

The state of the protocol is the simulated core, the last exception, the buffer
`packet` in which replies are built and kept for retransmission, and what has been
written to the connection so far (`wire`).  `target` is the byte order that
`BIG_ENDIAN_SIMULATOR` selects.  `gdb->mem` is the memory of the core.

A pointer into a received packet is the list of the bytes from it to the end of the
scanner's buffer, which goes on behind the packet.  What C leaves undefined stops
the model: a read outside that buffer, a write outside `packet`, a `NULL` pointer.
So does what ends the process: a failed assertion, a write to the connection after
`shutdown`, and the end of the simulated program.
-/

namespace Armator

open Text

/-- Why a packet does not get its answer. -/
inductive Stop
  /-- The simulated program ends the process. -/
  | halted (h : Halt)
  | assertion
  | nullPointer
  /-- A write outside `packet` or the buffer of the scanner. -/
  | overflow
  /-- A read outside an array. -/
  | overread
  /-- A write to a connection that is shut down. -/
  | brokenPipe
  /-- `cont` has not met a breakpoint yet. -/
  | looping
  deriving DecidableEq, Repr

def maxPacketSize : Nat := 1024

structure Gdb where
  arm : ArmCore
  targetException : Int
  packet : Nat → Byte
  len : Nat
  wire : List Byte
  shut : Bool
  target : Endian

def gdbInitData (arm : ArmCore) (target : Endian) (garbage : Nat → Byte) : Gdb :=
  ⟨arm, 0, garbage, 0, [], false, target⟩

/-- What a call finds in its uninitialised variables, and a bound on the iterations
of `cont`. -/
structure Locals where
  given : Word
  junk : Nat → Word
  fuel : Nat

/-! ### Sending -/

/-- `Rio_writen` to the connection. -/
def rioWriten (gdb : Gdb) (s : List Byte) : Except Stop Gdb :=
  if s = [] then .ok gdb
  else if gdb.shut then .error .brokenPipe
  else .ok { gdb with wire := gdb.wire ++ s }

def gdbSendAck (gdb : Gdb) : Except Stop Gdb := rioWriten gdb (ascii "+")

def gdbRequireRetransmission (gdb : Gdb) : Except Stop Gdb := rioWriten gdb (ascii "-")

/-- The reply kept in `packet`. -/
def Gdb.stored (gdb : Gdb) : List Byte := (List.range gdb.len).map gdb.packet

def gdbTransmitPacket (gdb : Gdb) : Except Stop Gdb := rioWriten gdb gdb.stored

/-- A text and its NUL, put in `packet` by `sprintf` or `strcpy`. -/
def Gdb.writeText (gdb : Gdb) (position : Nat) (s : List Byte) : Except Stop Gdb :=
  if position + s.length < maxPacketSize then
    .ok { gdb with packet := Bytes.store gdb.packet position (s.length + 1) fun k => s.getD k 0 }
  else .error .overflow

/-- Texts one behind the other. -/
def Gdb.writeTexts (gdb : Gdb) (position : Nat) : List (List Byte) → Except Stop Gdb
  | [] => .ok gdb
  | s :: ss => do
    let gdb ← gdb.writeText position s
    gdb.writeTexts (position + s.length) ss

/-- The `unsigned char` sum of some characters. -/
def checksum (s : List Byte) : Byte := s.foldl (· + ·) 0

def gdbSendBuffer (gdb : Gdb) : Except Stop Gdb := do
  let gdb := { gdb with packet := Function.update gdb.packet 0 (char '$') }
  match (List.range' 1 (maxPacketSize - 1)).find? fun i => gdb.packet i = 0 with
  | none => .error .overread
  | some i =>
    let check := checksum ((List.range' 1 (i - 1)).map gdb.packet)
    let gdb ← gdb.writeText i (char '#' :: hexByte check)
    gdbTransmitPacket { gdb with len := i + 3 }

def gdbSendData (gdb : Gdb) (data : List Byte) : Except Stop Gdb := do
  let gdb ← gdb.writeText 1 data
  gdbSendBuffer gdb

/-! ### Words in hexadecimal -/

/-- Where in the host's word the `k`-th byte of the text goes. -/
def byteIndex (host target : Endian) (k : Nat) : Nat :=
  if isBigEndian host = (target == .big) then k else 3 - k

/-- The text of `write_uint32`. -/
def writeUint32 (host target : Endian) (value : Word) : List Byte :=
  (List.range 4).flatMap fun k => hexByte (Bytes.byteOf host 4 value (byteIndex host target k))

def stringAt (data : List Byte) : Except Stop (List Byte) :=
  match cString data with
  | some s => .ok s
  | none => .error .overread

/-- The loop of `read_uint32`: a conversion that fails leaves `value` as it is. -/
def readBytes : Nat → List Byte → Word → Except Stop (List Byte)
  | 0, _, _ => .ok []
  | n + 1, data, value => do
    let s ← stringAt data
    let value := ((scanHex 2 s).map Prod.fst).getD value
    let rest ← readBytes n (data.drop 2) value
    return value.setWidth 8 :: rest

def readUint32 (host target : Endian) (data : List Byte) (value : Word) : Except Stop Word := do
  let bytes ← readBytes 4 data value
  return Bytes.ofBytes host 4 fun i => bytes.getD (byteIndex host target i) 0

/-! ### Stop reasons -/

def stopReason (exception : Int) : List Byte :=
  if exception = Exception.undefinedInstruction then ascii "S04"
  else if exception = Exception.prefetchAbort ∨ exception = Exception.dataAbort then ascii "S10"
  else ascii "S05"

def gdbSendStopReason (gdb : Gdb) : Except Stop Gdb :=
  gdbSendData gdb (stopReason gdb.targetException)

/-! ### Handlers -/

/-- `arm_step`, with its result kept for the stop reason. -/
def gdbStep (gdb : Gdb) : Except Stop Gdb := do
  let (result, arm) ← (armStep gdb.arm).mapError Stop.halted
  return { gdb with arm := arm, targetException := result }

/-- The loop of `cont`; `instruction` keeps its value where the read fails. -/
def contLoop : Nat → Gdb → Word → Except Stop Gdb
  | 0, _, _ => .error .looping
  | fuel + 1, gdb, instruction => do
    let r15 := armReadRegister gdb.arm 15 - 4
    let instruction := (armReadWord gdb.arm r15).getD instruction
    if instruction &&& 0xFFF000F0 = 0xE7F000F0 then return gdb
    else
      let gdb ← gdbStep gdb
      contLoop fuel gdb instruction

def cont (l : Locals) (gdb : Gdb) : Except Stop Gdb := do
  let gdb ← contLoop l.fuel gdb (l.junk 0)
  gdbSendStopReason gdb

def killRequest (gdb : Gdb) : Except Stop Gdb := .ok { gdb with shut := true }

/-- The answer to a query; also "Symbol::" gets an empty one. -/
def queryAnswer (s : List Byte) : List Byte :=
  if s = ascii "Offsets" then ascii "Text=0;Data=0;Bss=0"
  else if s.take 9 = ascii "Supported" then ascii "PacketSize=400"
  else if s = ascii "TStatus" then ascii "T0;tnotrun:0"
  else []

def query (gdb : Gdb) (data : List Byte) : Except Stop Gdb := do
  let s ← stringAt data
  gdbSendData gdb (queryAnswer s)

/-- The 42 fields of the register packets: r0 to r14, the pc before the fetch, the
floating point registers and their status, which are not implemented, and the CPSR. -/
def generalRegisters (gdb : Gdb) : List (List Byte) :=
  let text := writeUint32 gdb.arm.host gdb.target
  (List.finRange 15).map (fun i => text (armReadRegister gdb.arm i.castSucc)) ++
    text (armReadRegister gdb.arm 15 - 4) ::
    (List.replicate 25 (ascii "xxxxxxxx") ++ [text (armReadCpsr gdb.arm)])

def readGeneralRegisters (gdb : Gdb) : Except Stop Gdb := do
  let gdb ← gdb.writeTexts 1 (generalRegisters gdb)
  gdbSendBuffer gdb

/-- The loop of `read_memory`. -/
def readMemoryLoop : Nat → Word → Gdb → Nat → Except Stop Gdb
  | 0, _, gdb, _ => .ok gdb
  | size + 1, address, gdb, position =>
    match memoryReadByte gdb.arm.mem address with
    | none => .ok gdb
    | some value => do
      let gdb ← gdb.writeText position (hexByte value)
      readMemoryLoop size (address + 1) gdb (position + 2)

/-- The address and the size of a memory request, as far as they can be read. -/
def memoryRequest (l : Locals) (s : List Byte) : Word × Word :=
  ((scanHexPair s).1.getD (l.junk 0), (scanHexPair s).2.getD (l.junk 1))

def readMemory (l : Locals) (gdb : Gdb) (data : List Byte) : Except Stop Gdb := do
  let s ← stringAt data
  let (address, size) := memoryRequest l s
  let gdb ← gdb.writeText 1 []
  let gdb ← readMemoryLoop size.toNat address gdb 1
  gdbSendBuffer gdb

/-- The value of a register as the debugger sees it: the pc before the fetch. -/
def gdbRegister (p : ArmCore) (reg : Fin 16) : Word :=
  armReadRegister p reg - if reg = 15 then 4 else 0

def readRegisterPacket (gdb : Gdb) (data : List Byte) : Except Stop Gdb := do
  let s ← stringAt data
  if h : (atoi s).toNat < 16 then
    let value := gdbRegister gdb.arm ⟨(atoi s).toNat, h⟩
    let gdb ← gdb.writeText 1 (writeUint32 gdb.arm.host gdb.target value)
    gdbSendBuffer gdb
  else .error .assertion

def setThread (gdb : Gdb) (data : List Byte) : Except Stop Gdb :=
  match data with
  | [] => .error .overread
  | type :: data => do
    let s ← stringAt data
    let value := (atoi s).toInt
    if (type = char 'c' ∨ type = char 'g') ∧ value < 1 ∧ -2 < value then
      gdbSendData gdb (ascii "OK")
    else gdbSendData gdb (ascii "E01")

def step (gdb : Gdb) : Except Stop Gdb := do
  let gdb ← gdbStep gdb
  gdbSendStopReason gdb

/-- The `k`-th field of a register packet. -/
def readField (l : Locals) (gdb : Gdb) (data : List Byte) (k : Nat) : Except Stop Word :=
  readUint32 gdb.arm.host gdb.target (data.drop (8 * k)) (l.junk k)

def writeGeneralRegisters (l : Locals) (gdb : Gdb) (data : List Byte) : Except Stop Gdb := do
  let arm ← (List.finRange 16).foldlM (fun arm (i : Fin 16) => do
    let value ← readField l gdb data i
    return armWriteRegister arm i value) gdb.arm
  -- the fields that are not implemented are read and dropped
  let _ ← (List.range' 16 25).mapM (readField l gdb data)
  let value ← readField l gdb data 41
  gdbSendData { gdb with arm := armWriteCpsr arm value } (ascii "OK")

/-- The next byte of the binary data, with its escape undone. -/
def nextByte : Option (List Byte) → Except Stop (Byte × List Byte)
  | none => .error .nullPointer
  | some [] => .error .overread
  | some (b :: content) =>
    if b = 0x7d then
      match content with
      | [] => .error .overread
      | c :: content => .ok (c ^^^ 0x20, content)
    else .ok (b, content)

/-- The loop of `write_memory_binary`, with the last value of `write_ok`. -/
def writeMemoryLoop : Nat → Option (List Byte) → Word → Memory → Except Stop (Bool × Memory)
  | 0, _, _, mem => .ok (true, mem)
  | size + 1, content, address, mem => do
    let (value, content) ← nextByte content
    match memoryWriteByte mem address value with
    | none => .ok (false, mem)
    | some mem => writeMemoryLoop size (some content) (address + 1) mem

def writeMemoryBinary (l : Locals) (gdb : Gdb) (data : List Byte) : Except Stop Gdb := do
  let s ← stringAt data
  let (address, size) := memoryRequest l s
  let content := (index data (char ':')).map (List.drop 1)
  let (writeOk, mem) ←
    if address.toNat < gdb.arm.mem.size.toNat then
      writeMemoryLoop size.toNat content address gdb.arm.mem
    else .ok (false, gdb.arm.mem)
  let gdb := { gdb with arm := { gdb.arm with mem := mem } }
  if writeOk then gdbSendData gdb (ascii "OK") else gdbSendData gdb (ascii "E02")

def writeRegisterPacket (l : Locals) (gdb : Gdb) (data : List Byte) : Except Stop Gdb := do
  let s ← stringAt data
  let reg := ((scanHexWord s).map Prod.fst).getD (l.junk 0)
  match index data (char '=') with
  | none => .error .nullPointer
  | some data => do
    let value ← readUint32 gdb.arm.host gdb.target (data.drop 1) (l.junk 1)
    if h : reg.toNat < 16 then
      gdbSendData { gdb with arm := gdbWriteRegister gdb.arm ⟨reg.toNat, h⟩ value } (ascii "OK")
    else .error .assertion

/-! ### The handler table -/

inductive Handler
  | cont
  | killRequest
  | query
  | readGeneralRegisters
  | readMemory
  | readRegister
  | reason
  | setThread
  | step
  | writeGeneralRegisters
  | writeMemoryBinary
  | writeRegister
  deriving DecidableEq, Repr

/-- The table that `gdb_init` fills. -/
def handler (index : Byte) : Option Handler :=
  if index = char 'c' then some .cont
  else if index = char 'k' then some .killRequest
  else if index = char 'q' then some .query
  else if index = char 'g' then some .readGeneralRegisters
  else if index = char 'm' then some .readMemory
  else if index = char 'p' then some .readRegister
  else if index = char '?' then some .reason
  else if index = char 'H' then some .setThread
  else if index = char 's' then some .step
  else if index = char 'G' then some .writeGeneralRegisters
  else if index = char 'X' then some .writeMemoryBinary
  else if index = char 'P' then some .writeRegister
  else none

def Handler.call (l : Locals) (gdb : Gdb) (data : List Byte) : Handler → Except Stop Gdb
  | .cont => Armator.cont l gdb
  | .killRequest => Armator.killRequest gdb
  | .query => Armator.query gdb data
  | .readGeneralRegisters => Armator.readGeneralRegisters gdb
  | .readMemory => Armator.readMemory l gdb data
  | .readRegister => readRegisterPacket gdb data
  | .reason => gdbSendStopReason gdb
  | .setThread => Armator.setThread gdb data
  | .step => Armator.step gdb
  | .writeGeneralRegisters => Armator.writeGeneralRegisters l gdb data
  | .writeMemoryBinary => Armator.writeMemoryBinary l gdb data
  | .writeRegister => writeRegisterPacket l gdb data

/-- The request with the given first byte; one without a handler gets an empty
answer. -/
def gdbDispatch (l : Locals) (gdb : Gdb) (index : Byte) (data : List Byte) : Except Stop Gdb :=
  match handler index with
  | some h => h.call l gdb data
  | none => gdbSendData gdb []

def gdbPacketAnalysis (l : Locals) (gdb : Gdb) (packet : List Byte) (length : Nat) :
    Except Stop Gdb := do
  -- the loop leaves `i` at the `#`
  let i := max 1 (length - 3)
  let check := checksum ((packet.take i).drop 1)
  let s ← stringAt (packet.drop (i + 1))
  let given := ((scanHexWord s).map Prod.fst).getD l.given
  if check.setWidth 32 = given then
    let gdb ← gdbSendAck gdb
    let packet := packet.set i 0
    gdbDispatch l gdb (packet.getD 1 0) (packet.drop 2)
  else gdbRequireRetransmission gdb

/-! ### The scanner's tokens (`scanner.l`) -/

/-- What the rule `"$"[^$#]*"#"{HEX}{HEX}` matches. -/
structure Packet where
  payload : List Byte
  high : Byte
  low : Byte
  plain : ∀ b ∈ payload, b ≠ char '$' ∧ b ≠ char '#'
  digits : (digitValue high).isSome ∧ (digitValue low).isSome

def Packet.text (p : Packet) : List Byte :=
  char '$' :: (p.payload ++ [char '#', p.high, p.low])

/-- A token, a packet with what lies behind it in the scanner's buffer and what the
call that analyses it finds in its variables. -/
inductive Token
  | ack
  | nack
  | packet (p : Packet) (behind : List Byte) (l : Locals)

def onToken (gdb : Gdb) : Token → Except Stop Gdb
  | .ack => .ok gdb
  | .nack => gdbTransmitPacket gdb
  | .packet p behind l => gdbPacketAnalysis l gdb (p.text ++ 0 :: behind) p.text.length

/-- The state after the tokens of a connection. -/
def session (gdb : Gdb) (ts : List Token) : Except Stop Gdb := Run.run onToken gdb ts

end Armator
