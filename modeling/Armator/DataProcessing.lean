import Armator.Core

/-!
# Data processing (`arm_data_processing.c`)

The shifter operand, the flags and the sixteen operations.  `decodeSo` gives the
operand and leaves the carry in `shifterCarryOut`; its three forms are split into
`decodeSoImmediate`, `decodeSoShiftImm` and `decodeSoShiftReg`, which answer the
value with the carry.

The operations that write a register share `aluWrite`: write the result, restore
the CPSR when `rd` is r15 and the S bit is set, and otherwise update the flags.
`tst`, `teq`, `cmp` and `cmn` update the flags whatever the S bit.
-/

namespace Armator

def albit (x : Word) (i : Nat) (b : Bool) : Word := if b then setBit x i else clrBit x i

theorem getLsbD_albit (x : Word) {i : Nat} (h : i < 32) (b : Bool) (j : Nat) :
    (albit x i b).getLsbD j = if j = i then b else x.getLsbD j := by
  cases b with
  | false =>
    simp only [albit, Bool.false_eq_true, if_false, getLsbD_clrBit x h]
    by_cases hj : j = i <;> simp [hj]
  | true =>
    simp only [albit, if_true, getLsbD_setBit x h]
    by_cases hj : j = i <;> simp [hj]

theorem bit_albit (x : Word) {i j : Nat} (hi : i < 32) (hj : j < 32) (b : Bool) :
    bit (albit x i b) j = if j = i then b else bit x j := by
  rw [bit_eq_getLsbD _ hj, bit_eq_getLsbD _ hj, getLsbD_albit x hi]

/-! ### The shifter operand -/

/-- An eight-bit immediate, rotated. -/
def decodeSoImmediate (cpsr ins : Word) : Word × Word :=
  let result := ror (getBits ins 7 0) ((getBits ins 11 8).toNat * 2)
  if getBits ins 11 8 = 0 then (result, getBit cpsr flagC) else (result, getBit result 31)

/-- A register shifted by an immediate; `shift` is LSL, LSR, ASR or ROR. -/
def decodeSoShiftImm (cpsr rm : Word) (shift shiftImm : Nat) : Word × Word :=
  match shift with
  | 0 =>
    if shiftImm = 0 then (rm, getBit cpsr flagC)
    else (shl rm shiftImm, getBit rm (32 - shiftImm))
  | 1 =>
    if shiftImm = 0 then (0, getBit rm 31)
    else (shr rm shiftImm, getBit rm (shiftImm - 1))
  | 2 =>
    if shiftImm = 0 then
      if getBit rm 31 = 0 then (0, 0) else (-1, 1)
    else (asr rm shiftImm, getBit rm (shiftImm - 1))
  | _ =>
    if shiftImm = 0 then (shl (getBit cpsr flagC) 31 ||| shr rm 1, getBit rm 0)
    else (ror rm shiftImm, getBit rm (shiftImm - 1))

/-- A register shifted by the low byte of a register. -/
def decodeSoShiftReg (cpsr rm : Word) (shift shiftImm : Nat) : Word × Word :=
  match shift with
  | 0 =>
    if shiftImm = 32 then (0, getBit rm 0)
    else if shiftImm > 32 then (0, 0)
    else if shiftImm = 0 then (rm, getBit cpsr flagC)
    else (shl rm shiftImm, getBit rm (32 - shiftImm))
  | 1 =>
    if shiftImm = 32 then (0, getBit rm 31)
    else if shiftImm > 32 then (0, 0)
    else if shiftImm = 0 then (0, getBit rm 31)
    else (shr rm shiftImm, getBit rm (shiftImm - 1))
  | 2 =>
    if shiftImm ≥ 32 then
      if getBit rm 31 = 0 then (0, getBit rm 31) else (-1, getBit rm 31)
    else if shiftImm = 0 then
      if getBit rm 31 = 0 then (0, 0) else (-1, 1)
    else (asr rm shiftImm, getBit rm (shiftImm - 1))
  | _ =>
    let shiftImm5L := shiftImm % 32
    if shiftImm = 0 then (rm, getBit cpsr flagC)
    else if shiftImm5L = 0 then (rm, getBit rm 31)
    else (ror rm shiftImm5L, getBit rm (shiftImm5L - 1))

/-- The value of the shifter operand, with the carry out of the shifter. -/
def shifterOperand (p : ArmCore) (ins : Word) : Word × Word :=
  let cpsr := armReadCpsr p
  let rm := armReadRegister p (regNum (getBits ins 3 0))
  let shift := (getBits ins 6 5).toNat
  if bit ins 25 then decodeSoImmediate cpsr ins
  else if !bit ins 4 then decodeSoShiftImm cpsr rm shift (getBits ins 11 7).toNat
  else
    let shiftImm := armReadRegister p (regNum (getBits ins 11 8)) &&& 0xFF
    decodeSoShiftReg cpsr rm shift shiftImm.toNat

def decodeSo (p : ArmCore) (ins : Word) : Word × ArmCore :=
  let (value, carry) := shifterOperand p ins
  (value, { p with shifterCarryOut := carry })

/-! ### The flags -/

/-- Restores the CPSR when r15 is written with the S bit set, in a mode that has
an SPSR: the check is what lets `spsr` be read. -/
def handleRd15 (p : ArmCore) (rd : Fin 16) (sBit : Bool) : ArmCore :=
  if sBit ∧ rd = 15 then
    if h : armCurrentModeHasSpsr p then armWriteCpsr p (spsr p.reg h) else p
  else p

def borrowFrom (rn rm : Word) : Bool := rn < rm

def overflowFrom (rn rm : Word) (add : Bool) : Bool :=
  if add then
    getBit rn 31 = getBit rm 31 ∧ getBit (rn - rm) 31 ≠ getBit rn 31
  else
    getBit rn 31 ≠ getBit rm 31 ∧ getBit rn 31 ≠ getBit (rn - rm) 31

def carryFrom (rn rm : Word) : Bool := rn + rm < rn

/-- N and Z from the result, C and V as given. -/
def setFlags (cpsr res : Word) (c v : Bool) : Word :=
  albit (albit (albit (albit cpsr flagN (bit res 31)) flagZ (res == 0)) flagC c) flagV v

def updateFlags1 (p : ArmCore) (res : Word) : ArmCore :=
  let cpsr := armReadCpsr p
  let cpsr := albit cpsr flagN (bit res 31)
  let cpsr := albit cpsr flagZ (res == 0)
  let cpsr := albit cpsr flagC (p.shifterCarryOut != 0)
  armWriteCpsr p cpsr

def updateFlags2 (p : ArmCore) (res rn so : Word) : ArmCore :=
  armWriteCpsr p (setFlags (armReadCpsr p) res (!borrowFrom rn so) (overflowFrom rn so false))

def updateFlags3 (p : ArmCore) (res rn so : Word) : ArmCore :=
  armWriteCpsr p (setFlags (armReadCpsr p) res (carryFrom rn so) (overflowFrom rn so true))

/-! ### The operations -/

namespace Alu

/-- Writes the result and lets `flags` update the CPSR when the S bit asks for it. -/
def aluWrite (flags : ArmCore → ArmCore) (p : ArmCore) (rd : Fin 16) (res : Word) (sBit : Bool) :
    ArmCore :=
  let p := armWriteRegister p rd res
  let p := handleRd15 p rd sBit
  if sBit ∧ rd ≠ 15 then flags p else p

theorem aluWrite_flags (flags : ArmCore → ArmCore) (p : ArmCore) {rd : Fin 16} (res : Word)
    (h : rd ≠ 15) : aluWrite flags p rd res true = flags (armWriteRegister p rd res) := by
  simp [aluWrite, handleRd15, h]

def and (p : ArmCore) (rd : Fin 16) (rn so : Word) (sBit : Bool) : ArmCore :=
  let res := rn &&& so
  aluWrite (updateFlags1 · res) p rd res sBit

def eor (p : ArmCore) (rd : Fin 16) (rn so : Word) (sBit : Bool) : ArmCore :=
  let res := rn ^^^ so
  aluWrite (updateFlags1 · res) p rd res sBit

def sub (p : ArmCore) (rd : Fin 16) (rn so : Word) (sBit : Bool) : ArmCore :=
  let res := rn - so
  aluWrite (updateFlags2 · res rn so) p rd res sBit

def rsb (p : ArmCore) (rd : Fin 16) (rn so : Word) (sBit : Bool) : ArmCore :=
  let res := so - rn
  aluWrite (updateFlags2 · res so rn) p rd res sBit

def add (p : ArmCore) (rd : Fin 16) (rn so : Word) (sBit : Bool) : ArmCore :=
  let res := rn + so
  aluWrite (updateFlags3 · res rn so) p rd res sBit

/-- The flags of `adc`: the carry and the overflow of either partial addition. -/
def adcFlags (p : ArmCore) (res rn so : Word) : ArmCore :=
  let c := getBit (armReadCpsr p) flagC
  armWriteCpsr p (setFlags (armReadCpsr p) res (carryFrom rn so || carryFrom (rn + so) c)
    (overflowFrom rn so true || overflowFrom (rn + so) c true))

def adc (p : ArmCore) (rd : Fin 16) (rn so : Word) (sBit : Bool) : ArmCore :=
  let res := rn + so + getBit (armReadCpsr p) flagC
  aluWrite (adcFlags · res rn so) p rd res sBit

/-- `!get_bit(cpsr, C)`, the borrow into a subtraction. -/
def notCarry (p : ArmCore) : Word := if bit (armReadCpsr p) flagC then 0 else 1

/-- The flags of `sbc` and `rsc`, with the minuend first. -/
def sbcFlags (p : ArmCore) (res a b : Word) : ArmCore :=
  let n := notCarry p
  armWriteCpsr p (setFlags (armReadCpsr p) res (!borrowFrom a b || !borrowFrom (a - b) n)
    (overflowFrom a b false || overflowFrom (a - b) n false))

def sbc (p : ArmCore) (rd : Fin 16) (rn so : Word) (sBit : Bool) : ArmCore :=
  let res := rn - so - notCarry p
  aluWrite (sbcFlags · res rn so) p rd res sBit

def rsc (p : ArmCore) (rd : Fin 16) (rn so : Word) (sBit : Bool) : ArmCore :=
  let res := so - rn - notCarry p
  aluWrite (sbcFlags · res so rn) p rd res sBit

def tst (p : ArmCore) (_rd : Fin 16) (rn so : Word) (_sBit : Bool) : ArmCore :=
  updateFlags1 p (rn &&& so)

def teq (p : ArmCore) (_rd : Fin 16) (rn so : Word) (_sBit : Bool) : ArmCore :=
  updateFlags1 p (rn ^^^ so)

def cmp (p : ArmCore) (_rd : Fin 16) (rn so : Word) (_sBit : Bool) : ArmCore :=
  updateFlags2 p (rn - so) rn so

def cmn (p : ArmCore) (_rd : Fin 16) (rn so : Word) (_sBit : Bool) : ArmCore :=
  updateFlags3 p (rn + so) rn so

def orr (p : ArmCore) (rd : Fin 16) (rn so : Word) (sBit : Bool) : ArmCore :=
  let res := rn ||| so
  aluWrite (updateFlags1 · res) p rd res sBit

def mov (p : ArmCore) (rd : Fin 16) (_rn so : Word) (sBit : Bool) : ArmCore :=
  let res := so
  aluWrite (updateFlags1 · res) p rd res sBit

def bic (p : ArmCore) (rd : Fin 16) (rn so : Word) (sBit : Bool) : ArmCore :=
  let res := rn &&& ~~~so
  aluWrite (updateFlags1 · res) p rd res sBit

def mvn (p : ArmCore) (rd : Fin 16) (_rn so : Word) (sBit : Bool) : ArmCore :=
  let res := ~~~so
  aluWrite (updateFlags1 · res) p rd res sBit

/-- The operation that bits 24 to 21 select. -/
def select (opcode : Nat) : ArmCore → Fin 16 → Word → Word → Bool → ArmCore :=
  match opcode with
  | 0b0000 => and
  | 0b0001 => eor
  | 0b0010 => sub
  | 0b0011 => rsb
  | 0b0100 => add
  | 0b0101 => adc
  | 0b0110 => sbc
  | 0b0111 => rsc
  | 0b1000 => tst
  | 0b1001 => teq
  | 0b1010 => cmp
  | 0b1011 => cmn
  | 0b1100 => orr
  | 0b1101 => mov
  | 0b1110 => bic
  | _ => mvn

end Alu

def armDataProcessingShift (p : ArmCore) (ins : Word) : Int × ArmCore :=
  let rnCont := armReadRegister p (regNum (getBits ins 19 16))
  let rd := regNum (getBits ins 15 12)
  let (so, p) := decodeSo p ins
  let sBit := bit ins 20
  (0, Alu.select (getBits ins 24 21).toNat p rd rnCont so sBit)

end Armator
