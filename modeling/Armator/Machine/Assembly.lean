import Armator.LoadStore.Block
import Armator.Machine
import Armator.Machine.Visible

/-!
# The instructions a program is written in

`Instr` is an instruction as an assembler names it, and `Instr.exec` what it does to what
a program sees; `decodeInstr` reads it off a word.  `Visible.step` fetches a word and
executes it.  These are the instructions that the simulator executes as they are meant:

* the data-processing operations that do not add, with and without flags, and the
  additive ones without; with an immediate, or a register shifted by an immediate or by a
  register;
* the transfers of words and bytes, and the incrementing block transfers;
* the branches, and the `swi` that ends the program.

The machine does not know the others (`Ending.unknown`), among them those whose flags,
offset or order of words the simulator gets wrong.
-/

namespace Armator

/-- Why a machine does not go on. -/
inductive Ending
  /-- `swi 0x123456` -/
  | exit
  /-- The word is not an `Instr`, its operand is not known, or an access does not lie in
  the memory. -/
  | unknown
  deriving DecidableEq, Repr

/-- The second operand, or an offset. -/
inductive Operand
  /-- A number, rotated right by twice a field. -/
  | immediate (value : Word) (rotate : Nat)
  /-- A register, shifted by an immediate. -/
  | register (rm : Fin 16) (kind amount : Nat)
  /-- A register, shifted by the low byte of a register. -/
  | byRegister (rm : Fin 16) (kind : Nat) (rs : Fin 16)
  deriving DecidableEq, Repr

inductive Additive
  | add
  | adc
  | sbc
  | rsc
  deriving DecidableEq, Repr

inductive Instr
  | operation (o : Operation) (sBit : Bool) (rd rn : Fin 16) (x : Operand)
  | additive (o : Additive) (rd rn : Fin 16) (x : Operand)
  | transfer (t : Transfer) (rd rn : Fin 16) (x : Operand) (pBit uBit wBit : Bool)
  | block (loads : Bool) (rn : Fin 16) (l : List (Fin 16)) (pBit wBit : Bool)
  | branch (link : Bool) (offset : Int)
  | exit
  deriving DecidableEq, Repr

/-! ### What they do -/

/-- The value of an operand, with the carry of the shifter. -/
def Operand.value (m : Visible) : Operand → Word × Word
  | immediate value rotate => shifted 3 (2 * rotate) value m.c
  | register rm kind amount => immediateShift kind amount (m.read rm) m.c
  | byRegister rm kind rs => shifted kind ((m.read rs).toNat % 256) (m.read rm) m.c

/-- A shift to the right by a register that holds 0 is not known. -/
def Operand.known (m : Visible) : Operand → Bool
  | byRegister _ kind rs => (m.read rs).toNat % 256 ≠ 0 ∨ kind = 0 ∨ 3 ≤ kind
  | _ => true

def Additive.result (o : Additive) (rn op2 : Word) (c : Bool) : Word :=
  match o with
  | add => rn + op2
  | adc => rn + op2 + carryWord c
  | sbc => rn - op2 - carryWord (!c)
  | rsc => op2 - rn - carryWord (!c)

instance (mem : Memory) (a : DataAccess) : Decidable (a.InMemory mem) :=
  inferInstanceAs (Decidable (_ ≤ _))

namespace Visible

def passes (m : Visible) : Nat → Bool
  | 0b0000 => m.z
  | 0b0001 => !m.z
  | 0b0010 => m.c
  | 0b0011 => !m.c
  | 0b0100 => m.n
  | 0b0101 => !m.n
  | 0b0110 => m.v
  | 0b0111 => !m.v
  | 0b1000 => m.c && !m.z
  | 0b1001 => !m.c || m.z
  | 0b1010 => m.v == m.n
  | 0b1011 => m.v != m.n
  | 0b1100 => !m.z && m.v == m.n
  | 0b1101 => m.z || m.v != m.n
  | 0b1110 => true
  | _ => false

def operation (m : Visible) (o : Operation) (sBit : Bool) (rd : Fin 16) (rn : Word)
    (x : Word × Word) : Visible :=
  let m' := if o.compares then m else m.write rd (o.result rn x.1)
  if sBit then
    m'.flagged (bit (o.result rn x.1) 31) (o.result rn x.1 == 0) (o.carry rn x.1 x.2)
      (o.overflow rn x.1 m.v)
  else m'

/-- The base after a transfer. -/
def writtenBack (m : Visible) (rn : Fin 16) (base off : Word) (pBit uBit wBit : Bool) : Visible :=
  if pBit = true ∧ wBit = false then m
  else m.write rn (if uBit = true then base + off else base - off)

def transfer (m : Visible) (t : Transfer) (rd rn : Fin 16) (off : Word) (pBit uBit wBit : Bool) :
    Except Ending Visible :=
  let address := effectiveAddress (m.read rn) off pBit uBit
  if (⟨address, t.width.bytes⟩ : DataAccess).InMemory m.mem then
    if t.loads then
      .ok ((m.writtenBack rn (m.read rn) off pBit uBit wBit).write rd
        (t.loadedValue rd (m.mem.value address t.width.bytes)))
    else
      .ok ({ m with mem := m.mem.stored address t.width.bytes (m.read rd) }.writtenBack rn
        (m.read rn) off pBit uBit wBit)
  else .error .unknown

/-- The listed registers from the words at `address` on. -/
def loads (m : Visible) (address : Word) : List (Fin 16) → Except Ending Visible
  | [] => .ok m
  | i :: l =>
    if (⟨address, 4⟩ : DataAccess).InMemory m.mem then
      loads (m.write i (loaded i (m.mem.value address 4))) (address + 4) l
    else .error .unknown

/-- The listed registers to the words at `address` on. -/
def stores (m : Visible) (address : Word) : List (Fin 16) → Except Ending Visible
  | [] => .ok m
  | i :: l =>
    if (⟨address, 4⟩ : DataAccess).InMemory m.mem then
      stores { m with mem := m.mem.stored address 4 (m.read i) } (address + 4) l
    else .error .unknown

/-- An incrementing block transfer; the base comes behind the words. -/
def block (m : Visible) (load : Bool) (rn : Fin 16) (l : List (Fin 16)) (pBit wBit : Bool) :
    Except Ending Visible :=
  let base := m.read rn
  let start := if pBit then base + 4 else base
  let done := if load then m.loads start l else m.stores start l
  done.map fun m' => if wBit then m'.write rn (base + (l.length : Word) * 4) else m'

def branch (m : Visible) (link : Bool) (offset : Int) : Visible :=
  let m' := if link then m.write 14 (m.read 15 - 4) else m
  m'.write 15 (m.read 15 + 4 * BitVec.ofInt 32 offset)

end Visible

/-- What an instruction does, the pc being behind it already. -/
def Instr.exec (m : Visible) : Instr → Except Ending Visible
  | operation o sBit rd rn x =>
    if x.known m then .ok (m.operation o sBit rd (m.read rn) (x.value m)) else .error .unknown
  | additive o rd rn x =>
    if x.known m then .ok (m.write rd (o.result (m.read rn) (x.value m).1 m.c))
    else .error .unknown
  | transfer t rd rn x pBit uBit wBit => m.transfer t rd rn (x.value m).1 pBit uBit wBit
  | block load rn l pBit wBit => m.block load rn l pBit wBit
  | branch link offset => .ok (m.branch link offset)
  | exit => .error .exit

/-! ### Their words -/

def Operation.ofOpcode : Nat → Option Operation
  | 0b0000 => some .and
  | 0b0001 => some .eor
  | 0b0010 => some .sub
  | 0b0011 => some .rsb
  | 0b1000 => some .tst
  | 0b1001 => some .teq
  | 0b1010 => some .cmp
  | 0b1100 => some .orr
  | 0b1101 => some .mov
  | 0b1110 => some .bic
  | 0b1111 => some .mvn
  | _ => none

def Additive.ofOpcode : Nat → Option Additive
  | 0b0100 => some .add
  | 0b0101 => some .adc
  | 0b0110 => some .sbc
  | 0b0111 => some .rsc
  | _ => none

def decodeRegister (ins : Word) : Operand :=
  .register (regNum (getBits ins 3 0)) (getBits ins 6 5).toNat (getBits ins 11 7).toNat

def decodeOperand (ins : Word) : Operand :=
  if bit ins 25 then .immediate (getBits ins 7 0) (getBits ins 11 8).toNat
  else if bit ins 4 then
    .byRegister (regNum (getBits ins 3 0)) (getBits ins 6 5).toNat (regNum (getBits ins 11 8))
  else decodeRegister ins

/-- The operations that write no register come with the S bit only, those that write r15
and the additive ones without it. -/
def decodeData (ins : Word) : Option Instr :=
  let rn := regNum (getBits ins 19 16)
  let rd := regNum (getBits ins 15 12)
  let sBit := bit ins 20
  match Operation.ofOpcode (getBits ins 24 21).toNat, Additive.ofOpcode (getBits ins 24 21).toNat with
  | some o, _ =>
    if o.compares = true ∧ sBit = true ∨ o.compares = false ∧ (rd = 15 → sBit = false) then
      some (.operation o sBit rd rn (decodeOperand ins))
    else none
  | none, some o => if sBit then none else some (.additive o rd rn (decodeOperand ins))
  | none, none => none

def decodeTransfer (ins : Word) : Instr :=
  .transfer (wordTransfer ins) (regNum (getBits ins 15 12)) (regNum (getBits ins 19 16))
    (if bit ins 25 then decodeRegister ins else .immediate (getBits ins 11 0) 0)
    (bit ins 24) (bit ins 23) (bit ins 21)

/-- The instruction that a word stands for, its condition apart. -/
def decodeInstr (ins : Word) : Option Instr :=
  match (getBits ins 27 25).toNat with
  | 0b000 => if bit ins 7 = true ∧ bit ins 4 = true then none else decodeData ins
  | 0b001 => decodeData ins
  | 0b010 => some (decodeTransfer ins)
  | 0b011 => if bit ins 4 then none else some (decodeTransfer ins)
  | 0b100 =>
    if bit ins 22 = false ∧ bit ins 23 = true then
      some (.block (bit ins 20) (regNum (getBits ins 19 16)) (registerList ins) (bit ins 24)
        (bit ins 21))
    else none
  | 0b101 => some (.branch (bit ins 24) (branchOffset ins))
  | 0b111 => if bit ins 24 = true ∧ ins &&& 0xFFFFFF = 0x123456 then some .exit else none
  | _ => none

/-- `ldmia r1!, {r6, r7}` -/
example : decodeInstr 0xE8B100C0 = some (.block true 1 [6, 7] false true) := by decide

/-! ### A step of the machine -/

namespace Visible

/-- `ins` stands at the pc. -/
structure Fetches (m : Visible) (ins : Word) : Prop where
  aligned : (m.r 15).toNat % 4 = 0
  inMemory : (⟨m.r 15, 4⟩ : DataAccess).InMemory m.mem
  word : m.mem.value (m.r 15) 4 = ins

/-- The pc behind the instruction. -/
def fetched (m : Visible) : Visible := m.write 15 (m.r 15 + 4)

theorem fetched_r_of_ne (m : Visible) {i : Fin 16} (h : i ≠ 15) : m.fetched.r i = m.r i :=
  write_r_of_ne m _ h

/-- An instruction reads its own address plus 8. -/
theorem fetched_read_pc (m : Visible) : m.fetched.read 15 = m.r 15 + 8 := by
  rw [read, if_pos rfl, fetched, write_r_same, add_assoc]
  rfl

theorem fetched_read_of_ne (m : Visible) {i : Fin 16} (h : i ≠ 15) : m.fetched.read i = m.r i := by
  rw [read, if_neg h, fetched_r_of_ne m h]

def step (m : Visible) : Except Ending Visible :=
  if (m.r 15).toNat % 4 = 0 ∧ (⟨m.r 15, 4⟩ : DataAccess).InMemory m.mem then
    let ins := m.mem.value (m.r 15) 4
    if m.passes (getBits ins 31 28).toNat then
      match decodeInstr ins with
      | some i => i.exec m.fetched
      | none => .error .unknown
    else .ok m.fetched
  else .error .unknown

variable {m : Visible} {ins : Word}

theorem Fetches.step_passed (h : m.Fetches ins) (hp : m.passes (getBits ins 31 28).toNat = true)
    {i : Instr} (hi : decodeInstr ins = some i) : m.step = i.exec m.fetched := by
  rw [step, if_pos ⟨h.aligned, h.inMemory⟩]
  simp only [h.word, hp, hi, if_true]

theorem Fetches.step_failed (h : m.Fetches ins)
    (hp : m.passes (getBits ins 31 28).toNat = false) : m.step = .ok m.fetched := by
  rw [step, if_pos ⟨h.aligned, h.inMemory⟩]
  simp only [h.word, hp, Bool.false_eq_true, if_false]

/-- **What a step can be**: one that fetches something else stops the machine. -/
theorem step_cases (h : m.step ≠ .error .unknown) :
    ∃ ins, m.Fetches ins ∧
      (m.passes (getBits ins 31 28).toNat = false ∧ m.step = .ok m.fetched ∨
        m.passes (getBits ins 31 28).toNat = true ∧
          ∃ i, decodeInstr ins = some i ∧ m.step = i.exec m.fetched) := by
  by_cases hf : (m.r 15).toNat % 4 = 0 ∧ (⟨m.r 15, 4⟩ : DataAccess).InMemory m.mem
  · have hfetch : m.Fetches (m.mem.value (m.r 15) 4) := ⟨hf.1, hf.2, rfl⟩
    refine ⟨_, hfetch, ?_⟩
    cases hp : m.passes (getBits (m.mem.value (m.r 15) 4) 31 28).toNat with
    | false => exact Or.inl ⟨rfl, hfetch.step_failed hp⟩
    | true =>
      cases hi : decodeInstr (m.mem.value (m.r 15) 4) with
      | none =>
        rw [step, if_pos hf] at h
        simp [hp, hi] at h
      | some i => exact Or.inr ⟨rfl, i, rfl, hfetch.step_passed hp hi⟩
  · rw [step, if_neg hf] at h
    exact absurd rfl h

end Visible

end Armator
