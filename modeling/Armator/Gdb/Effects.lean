import Armator.Lib.Outcome
import Armator.Gdb.Handlers

/-!
# What a handler may do

The handlers of `gdb_protocol.c`, followed from one call to the next with the rules of
`Outcome`.  Only `m` can write outside `packet`, and only `s` and `c` change the last
exception (`Handler.call_keeps`).
-/

namespace Armator

open Outcome Text

/-- The computation does not stop with a write outside `packet`. -/
def InBuffer {α : Type} (x : Except Stop α) : Prop := Meets (· ≠ .overflow) (fun _ => True) x

/-- Nor does it change the last exception. -/
def Keeps (gdb : Gdb) (x : Except Stop Gdb) : Prop :=
  Meets (· ≠ .overflow) (fun g => g.targetException = gdb.targetException) x

theorem Keeps.inBuffer {gdb : Gdb} {x : Except Stop Gdb} (h : Keeps gdb x) : InBuffer x :=
  h.imp fun _ _ => trivial

theorem Keeps.of_replies {gdb : Gdb} {x : Except Stop Gdb} {s : List Byte}
    (h : ∃ g, x = .ok g ∧ Replies gdb g s) : Keeps gdb x := by
  obtain ⟨g, rfl, hr⟩ := h
  exact .ok hr.targetException

theorem inBuffer_iff {α : Type} {x : Except Stop α} : InBuffer x ↔ x ≠ .error .overflow := by
  constructor
  · intro h he
    exact h.of_error he rfl
  · intro h
    cases x with
    | ok a => exact .ok trivial
    | error e => exact .error fun he => h (congrArg _ he)

/-! ### Parsing -/

theorem stringAt_inBuffer (data : List Byte) : InBuffer (stringAt data) := by
  rw [stringAt]
  split
  · exact .ok trivial
  · exact .error Stop.noConfusion

theorem readUint32_inBuffer (host target : Endian) (data : List Byte) (value : Word) :
    InBuffer (readUint32 host target data value) := by
  have hbytes : ∀ n data value, InBuffer (readBytes n data value) := by
    intro n
    induction n with
    | zero =>
      intro data value
      exact .ok trivial
    | succ n ih =>
      intro data value
      rw [readBytes]
      exact (stringAt_inBuffer data).bind fun s _ => (ih _ _).bind fun rest _ => .ok trivial
  exact (hbytes 4 data value).bind fun bytes _ => .ok trivial

theorem nextByte_inBuffer (content : Option (List Byte)) : InBuffer (nextByte content) := by
  unfold nextByte
  split
  · exact .error Stop.noConfusion
  · exact .error Stop.noConfusion
  · split
    · split
      · exact .error Stop.noConfusion
      · exact .ok trivial
    · exact .ok trivial

theorem writeMemoryLoop_inBuffer (n : Nat) (content : Option (List Byte)) (a : Word)
    (mem : Memory) : InBuffer (writeMemoryLoop n content a mem) := by
  induction n generalizing content a mem with
  | zero => exact .ok trivial
  | succ n ih =>
    rw [writeMemoryLoop]
    refine (nextByte_inBuffer content).bind fun item _ => ?_
    dsimp only
    split
    · exact .ok trivial
    · exact ih _ _ _

theorem gdbStep_inBuffer (gdb : Gdb) : InBuffer (gdbStep gdb) := by
  rw [gdbStep]
  cases armStep gdb.arm with
  | error e => exact .error Stop.noConfusion
  | ok rq => exact .ok trivial

theorem contLoop_inBuffer (fuel : Nat) (gdb : Gdb) (instruction : Word) :
    InBuffer (contLoop fuel gdb instruction) := by
  induction fuel generalizing gdb instruction with
  | zero => exact .error Stop.noConfusion
  | succ fuel ih =>
    rw [contLoop]
    split
    · exact .ok trivial
    · exact (gdbStep_inBuffer gdb).bind fun g _ => ih g _

/-! ### The handlers -/

section Handlers

variable (l : Locals) (gdb : Gdb) (ho : gdb.shut = false)

include ho

theorem gdbSendData_keeps (p : ArmCore) {s : List Byte} (h0 : 0 ∉ s) (hl : s.length ≤ 1019) :
    Keeps gdb (gdbSendData { gdb with arm := p } s) := by
  obtain ⟨g, hg, hr⟩ := gdbSendData_replies { gdb with arm := p } ho h0 hl
  rw [hg]
  exact .ok hr.targetException

theorem gdbSendStopReason_keeps : Keeps gdb (gdbSendStopReason gdb) :=
  Keeps.of_replies (gdbSendStopReason_replies gdb ho)

theorem cont_inBuffer : InBuffer (cont l gdb) := by
  have h : Meets (· ≠ .overflow) (fun g => g.shut = false) (contLoop l.fuel gdb (l.junk 0)) := by
    cases hg : contLoop l.fuel gdb (l.junk 0) with
    | error e => exact .error ((contLoop_inBuffer _ _ _).of_error hg)
    | ok g =>
      obtain ⟨p, e, rfl⟩ := contLoop_ok hg
      exact .ok ho
  exact h.bind fun g hg => (gdbSendStopReason_keeps g hg).inBuffer

theorem step_inBuffer : InBuffer (step gdb) := by
  have h : Meets (· ≠ .overflow) (fun g => g.shut = false) (gdbStep gdb) := by
    rw [gdbStep]
    cases armStep gdb.arm with
    | error e => exact .error Stop.noConfusion
    | ok rq => exact .ok ho
  exact h.bind fun g hg => (gdbSendStopReason_keeps g hg).inBuffer

theorem query_keeps (data : List Byte) : Keeps gdb (query gdb data) := by
  refine (stringAt_inBuffer data).bind fun s _ => gdbSendData_keeps gdb ho gdb.arm ?_ ?_
  · unfold queryAnswer
    split
    · decide
    · split
      · decide
      · split <;> decide
  · unfold queryAnswer
    split
    · decide
    · split
      · decide
      · split <;> decide

theorem readGeneralRegisters_keeps : Keeps gdb (readGeneralRegisters gdb) :=
  Keeps.of_replies (readGeneralRegisters_replies gdb ho)

theorem readRegisterPacket_keeps {data : List Byte} (hd : 0 ∈ data) :
    Keeps gdb (readRegisterPacket gdb data) := by
  rw [readRegisterPacket_eq gdb (stringAt_eq hd)]
  split
  · refine gdbSendData_keeps gdb ho gdb.arm (notMem_writeUint32 _ _ _ rfl) ?_
    rw [length_writeUint32]
    decide
  · exact .error Stop.noConfusion

theorem setThread_keeps (data : List Byte) : Keeps gdb (setThread gdb data) := by
  cases data with
  | nil => exact .error Stop.noConfusion
  | cons type data =>
    refine (stringAt_inBuffer data).bind fun s _ => ?_
    dsimp only
    split
    · exact gdbSendData_keeps gdb ho gdb.arm (by decide) (by decide)
    · exact gdbSendData_keeps gdb ho gdb.arm (by decide) (by decide)

theorem writeGeneralRegisters_keeps (data : List Byte) :
    Keeps gdb (writeGeneralRegisters l gdb data) := by
  have hfield : ∀ k, InBuffer (readField l gdb data k) := fun k => readUint32_inBuffer _ _ _ _
  unfold writeGeneralRegisters
  refine @Meets.bind _ _ _ _ (fun _ => True) _ _ _ (meets_foldlM ?_ _ trivial) fun arm _ => ?_
  · intro arm i _
    exact (hfield i).bind fun v _ => .ok trivial
  · refine (meets_mapM hfield _).bind fun vs _ => (hfield 41).bind fun v _ => ?_
    exact gdbSendData_keeps gdb ho _ (by decide) (by decide)

theorem writeMemoryBinary_keeps (data : List Byte) : Keeps gdb (writeMemoryBinary l gdb data) := by
  have hsend : ∀ x : Bool × Memory, Keeps gdb
      (if x.1 = true then
        gdbSendData { gdb with arm := { gdb.arm with mem := x.2 } } (ascii "OK")
      else gdbSendData { gdb with arm := { gdb.arm with mem := x.2 } } (ascii "E02")) := by
    intro x
    split
    · exact gdbSendData_keeps gdb ho { gdb.arm with mem := x.2 } (by decide) (by decide)
    · exact gdbSendData_keeps gdb ho { gdb.arm with mem := x.2 } (by decide) (by decide)
  refine (stringAt_inBuffer data).bind fun s _ => ?_
  dsimp only
  split
  · exact (writeMemoryLoop_inBuffer _ _ _ _).bind fun x _ => hsend x
  · exact hsend (false, gdb.arm.mem)

theorem writeRegisterPacket_keeps (data : List Byte) :
    Keeps gdb (writeRegisterPacket l gdb data) := by
  refine (stringAt_inBuffer data).bind fun s _ => ?_
  dsimp only
  split
  · exact .error Stop.noConfusion
  · refine (readUint32_inBuffer _ _ _ _).bind fun v _ => ?_
    split
    · exact gdbSendData_keeps gdb ho _ (by decide) (by decide)
    · exact .error Stop.noConfusion

theorem readMemory_inBuffer_iff {data : List Byte} (hd : 0 ∈ data) :
    InBuffer (readMemory l gdb data) ↔
      readableLength gdb.arm.mem (memoryRequest l (textOf data)).2.toNat
        (memoryRequest l (textOf data)).1 ≤ 509 := by
  constructor
  · intro h
    by_contra hl
    refine inBuffer_iff.mp h (readMemory_overflow l gdb (stringAt_eq hd) rfl ?_)
    rw [length_readable]
    omega
  · intro hl
    obtain ⟨g, s, hg, -⟩ := (readMemory_answers l gdb ho hd).1 hl
    rw [hg]
    exact .ok trivial

theorem readMemory_targetException {data : List Byte} (hd : 0 ∈ data) {g : Gdb}
    (h : readMemory l gdb data = .ok g) : g.targetException = gdb.targetException := by
  have hl : (readable gdb.arm.mem (memoryRequest l (textOf data)).2.toNat
      (memoryRequest l (textOf data)).1).length ≤ 509 := by
    by_contra hl
    rw [readMemory_overflow l gdb (stringAt_eq hd) rfl (Nat.lt_of_not_le hl)] at h
    cases h
  obtain ⟨g', hg', hr⟩ := readMemory_replies l gdb (stringAt_eq hd) rfl ho hl
  cases h.symm.trans hg'
  exact hr.targetException

/-- **Only `m` can write outside the buffer, and only `s` and `c` change the last
exception.** -/
theorem Handler.call_keeps {data : List Byte} (hd : 0 ∈ data) {h : Handler}
    (hm : h ≠ .readMemory) (hc : h ≠ .cont) (hs : h ≠ .step) : Keeps gdb (h.call l gdb data) := by
  cases h with
  | cont => exact absurd rfl hc
  | killRequest => exact .ok rfl
  | query => exact query_keeps gdb ho data
  | readGeneralRegisters => exact readGeneralRegisters_keeps gdb ho
  | readMemory => exact absurd rfl hm
  | readRegister => exact readRegisterPacket_keeps gdb ho hd
  | reason => exact gdbSendStopReason_keeps gdb ho
  | setThread => exact setThread_keeps gdb ho data
  | step => exact absurd rfl hs
  | writeGeneralRegisters => exact writeGeneralRegisters_keeps l gdb ho data
  | writeMemoryBinary => exact writeMemoryBinary_keeps l gdb ho data
  | writeRegister => exact writeRegisterPacket_keeps l gdb ho data

theorem Handler.call_inBuffer {data : List Byte} (hd : 0 ∈ data) {h : Handler}
    (hm : h ≠ .readMemory) : InBuffer (h.call l gdb data) := by
  by_cases hc : h = .cont
  · subst hc
    exact cont_inBuffer l gdb ho
  · by_cases hs : h = .step
    · subst hs
      exact step_inBuffer gdb ho
    · exact (Handler.call_keeps l gdb ho hd hm hc hs).inBuffer

end Handlers

end Armator
