import Armator.Core

/-!
# Loads and stores (`arm_load_store.c`)

The six single transfers share one addressing scheme: `transferAddress` is the
base plus or minus the offset, the access is made there or at the base, and the
base is written back before the result of the access is looked at (the base
updated abort model).  `storeSingle` and `loadSingle` are that scheme, and each
transfer is one of them with its own access.

`ldm` and `stm` walk the register list from r0 up, in both directions of the
address.  The loop variables of the two are a `Block`.
-/

namespace Armator

/-! ### Offsets -/

def decodeOff (p : ArmCore) (ins : Word) : Word :=
  if !bit ins 25 then getBits ins 11 0
  else
    let rm := armReadRegister p (regNum (getBits ins 3 0))
    let shiftImm := (getBits ins 11 7).toNat
    if getBits ins 11 4 = 0 then rm
    else
      match (getBits ins 6 5).toNat with
      | 0 => shl rm shiftImm
      | 1 => if shiftImm = 0 then 0 else shr rm shiftImm
      | 2 =>
        if shiftImm = 0 then
          if bit rm 31 then -1 else 0
        else asr rm shiftImm
      | _ =>
        if shiftImm = 0 then shl (getBit (armReadCpsr p) flagC) 31 ||| shr rm 1
        else ror rm shiftImm

def decodeOffH (p : ArmCore) (ins : Word) : Word :=
  if !bit ins 22 then shl (getBits ins 11 8) 4 ||| getBits ins 3 0
  else armReadRegister p (regNum (getBits ins 3 0))

/-! ### Single transfers -/

/-- The base plus or minus the offset. -/
def transferAddress (rnCont off : Word) (uBit : Bool) : Word :=
  if uBit then rnCont + off else rnCont - off

/-- The address the access is made at. -/
def accessAddress (rnCont off : Word) (pBit uBit : Bool) : Word :=
  if pBit then transferAddress rnCont off uBit else rnCont

def writeBack (p : ArmCore) (rn : Fin 16) (rnCont off : Word) (pBit uBit wBit : Bool) : ArmCore :=
  if pBit then
    if wBit then armWriteRegister p rn (transferAddress rnCont off uBit) else p
  else armWriteRegister p rn (transferAddress rnCont off uBit)

def storeSingle (write : ArmCore → Word → Int × ArmCore) (p : ArmCore) (rn : Fin 16) (off : Word)
    (pBit uBit wBit : Bool) : Int × ArmCore :=
  let rnCont := armReadRegister p rn
  let (result, p) := write p (accessAddress rnCont off pBit uBit)
  let p := writeBack p rn rnCont off pBit uBit wBit
  if result ≠ 0 then (Exception.dataAbort, p) else (0, p)

/-- `load` is the write of the loaded value to the destination. -/
def loadSingle {α : Type} (read : ArmCore → Word → Option α) (load : ArmCore → α → ArmCore)
    (p : ArmCore) (rn : Fin 16) (off : Word) (pBit uBit wBit : Bool) : Int × ArmCore :=
  let rnCont := armReadRegister p rn
  let value := read p (accessAddress rnCont off pBit uBit)
  let p := writeBack p rn rnCont off pBit uBit wBit
  match value with
  | none => (Exception.dataAbort, p)
  | some value => (0, load p value)

def str (p : ArmCore) (rd rn : Fin 16) (off : Word) (pBit uBit wBit : Bool) : Int × ArmCore :=
  let rdCont := armReadRegister p rd
  storeSingle (fun p address => armWriteWord p address rdCont) p rn off pBit uBit wBit

def strb (p : ArmCore) (rd rn : Fin 16) (off : Word) (pBit uBit wBit : Bool) : Int × ArmCore :=
  let rdCont : Byte := (armReadRegister p rd).setWidth 8
  storeSingle (fun p address => armWriteByte p address rdCont) p rn off pBit uBit wBit

def strh (p : ArmCore) (rd rn : Fin 16) (off : Word) (pBit uBit wBit : Bool) : Int × ArmCore :=
  let rdCont : Half := (armReadRegister p rd).setWidth 16
  storeSingle (fun p address => armWriteHalf p address rdCont) p rn off pBit uBit wBit

def ldr (p : ArmCore) (rd rn : Fin 16) (off : Word) (pBit uBit wBit : Bool) : Int × ArmCore :=
  loadSingle armReadWord
    (fun p rdCont => armWriteRegister p rd (if rd = 15 then rdCont &&& 0xFFFFFFFC else rdCont))
    p rn off pBit uBit wBit

def ldrb (p : ArmCore) (rd rn : Fin 16) (off : Word) (pBit uBit wBit : Bool) : Int × ArmCore :=
  loadSingle armReadByte (fun p rdCont => armWriteRegister p rd (rdCont.setWidth 32))
    p rn off pBit uBit wBit

def ldrh (p : ArmCore) (rd rn : Fin 16) (off : Word) (pBit uBit wBit : Bool) : Int × ArmCore :=
  loadSingle armReadHalf (fun p rdCont => armWriteRegister p rd (rdCont.setWidth 32))
    p rn off pBit uBit wBit

def armLoadStore (p : ArmCore) (ins : Word) : Int × ArmCore :=
  let rn := regNum (getBits ins 19 16)
  let rd := regNum (getBits ins 15 12)
  let pBit := bit ins 24
  let uBit := bit ins 23
  let wBit := bit ins 21
  if bit ins 26 then
    let off := decodeOff p ins
    match bit ins 22, bit ins 20 with
    | false, false => str p rd rn off pBit uBit wBit
    | false, true => ldr p rd rn off pBit uBit wBit
    | true, false => strb p rd rn off pBit uBit wBit
    | true, true => ldrb p rd rn off pBit uBit wBit
  else
    let off := decodeOffH p ins
    if bit ins 20 then ldrh p rd rn off pBit uBit wBit
    else strh p rd rn off pBit uBit wBit

theorem storeSingle_result (write : ArmCore → Word → Int × ArmCore) (p : ArmCore) (rn : Fin 16)
    (off : Word) (pBit uBit wBit : Bool) :
    (storeSingle write p rn off pBit uBit wBit).1 = 0 ∨
      (storeSingle write p rn off pBit uBit wBit).1 = Exception.dataAbort := by
  simp only [storeSingle]
  split
  · exact Or.inr rfl
  · exact Or.inl rfl

theorem loadSingle_result {α : Type} (read : ArmCore → Word → Option α)
    (load : ArmCore → α → ArmCore) (p : ArmCore) (rn : Fin 16) (off : Word)
    (pBit uBit wBit : Bool) :
    (loadSingle read load p rn off pBit uBit wBit).1 = 0 ∨
      (loadSingle read load p rn off pBit uBit wBit).1 = Exception.dataAbort := by
  simp only [loadSingle]
  split
  · exact Or.inr rfl
  · exact Or.inl rfl

/-- A single transfer succeeds or aborts. -/
theorem armLoadStore_result {p q : ArmCore} {ins : Word} {r : Int}
    (h : armLoadStore p ins = (r, q)) : r = 0 ∨ r = Exception.dataAbort := by
  have hr : (armLoadStore p ins).1 = 0 ∨ (armLoadStore p ins).1 = Exception.dataAbort := by
    simp only [armLoadStore]
    split
    · split
      · exact storeSingle_result ..
      · exact loadSingle_result ..
      · exact storeSingle_result ..
      · exact loadSingle_result ..
    · split
      · exact loadSingle_result ..
      · exact storeSingle_result ..
  rw [h] at hr
  exact hr

/-! ### Block transfers -/

/-- The variables of the loops of `ldm` and `stm`.  `failed` says that `result`
is not 0; `value` keeps its content when a read fails. -/
structure Block where
  p : ArmCore
  address : Word
  value : Word
  failed : Bool

/-- What is added to the address after each register. -/
def blockStep (ins : Word) : Word := if bit ins 23 then 4 else -4

/-- The address of the first register. -/
def blockStart (ins base : Word) : Word := if bit ins 24 then base + blockStep ins else base

/-- One register of `ldm`: `write` is the access to the register file, and
`load` what is made of the value read. -/
def ldmRegister (write : ArmCore → Fin 16 → Word → ArmCore) (load : Word → Word) (delta : Word)
    (b : Block) (i : Fin 16) : Block :=
  let read := armReadWord b.p b.address
  let value := read.getD b.value
  { p := write b.p i (load value)
    address := b.address + delta
    value := value
    failed := b.failed || read.isNone }

/-- r0 to r14 in a loop, then r15 with its low bits cleared. -/
def ldmLoop (write : ArmCore → Fin 16 → Word → ArmCore) (ins : Word) (b : Block) : Block :=
  let b := (List.finRange 15).foldl (fun b (i : Fin 15) =>
    if bit ins i then ldmRegister write id (blockStep ins) b i.castSucc else b) b
  if bit ins 15 then ldmRegister write (· &&& 0xFFFFFFFC) (blockStep ins) b 15 else b

/-- One register of `stm`. -/
def stmRegister (read : ArmCore → Fin 16 → Word) (delta : Word) (b : Block) (i : Fin 16) : Block :=
  let value := read b.p i
  let (result, p) := armWriteWord b.p b.address value
  { p := p
    address := b.address + delta
    value := value
    failed := b.failed || result != 0 }

def stmLoop (read : ArmCore → Fin 16 → Word) (ins : Word) (b : Block) : Block :=
  (List.finRange 16).foldl (fun b (i : Fin 16) =>
    if bit ins i then stmRegister read (blockStep ins) b i else b) b

/-- The base that the final write-back recovers from the running address. -/
def blockBase (ins address : Word) : Word :=
  match (getBits ins 24 23).toNat with
  | 0b00 => address
  | 0b01 => address
  | 0b10 => address + 4
  | _ => address - 4

/-- The write-back of a block transfer, and its result. -/
def blockEnd (ins : Word) (b : Block) : Int × ArmCore :=
  let p :=
    if bit ins 21 then
      armWriteRegister b.p (regNum (getBits ins 19 16)) (blockBase ins b.address)
    else b.p
  if b.failed then (Exception.dataAbort, p) else (0, p)

/-- The loops of `ldm`: with the S bit the user registers are loaded, unless r15
is in the list, in which case nothing is. -/
def ldmTransfer (ins : Word) (b : Block) : Block :=
  let b := if bit ins 22 && !bit ins 15 then ldmLoop armWriteUsrRegister ins b else b
  if !bit ins 22 then ldmLoop armWriteRegister ins b else b

def ldm (p : ArmCore) (ins : Word) : Except Halt (Int × ArmCore) := do
  let address := blockStart ins (armReadRegister p (regNum (getBits ins 19 16)))
  let p ← if bit ins 22 && bit ins 15 then armWriteCpsr p <$> armReadSpsr p else pure p
  return blockEnd ins (ldmTransfer ins ⟨p, address, 0, false⟩)

def stm (p : ArmCore) (ins : Word) : Int × ArmCore :=
  let address := blockStart ins (armReadRegister p (regNum (getBits ins 19 16)))
  let read := if bit ins 22 then armReadUsrRegister else armReadRegister
  blockEnd ins (stmLoop read ins ⟨p, address, 0, false⟩)

/-- The block that `ldm` and `stm` start from. -/
def blockBegin (p : ArmCore) (ins : Word) : Block :=
  ⟨p, blockStart ins (armReadRegister p (regNum (getBits ins 19 16))), 0, false⟩

theorem ldm_eq (p : ArmCore) (ins : Word) (h : (bit ins 22 && bit ins 15) = false) :
    ldm p ins = .ok (blockEnd ins (ldmTransfer ins (blockBegin p ins))) := by
  simp only [ldm, h]
  rfl

/-- An `ldm` that restores the CPSR dereferences the SPSR pointer. -/
theorem ldm_restore (p : ArmCore) (ins : Word) (h : (bit ins 22 && bit ins 15) = true)
    (hp : armCurrentModeHasSpsr p = false) : ldm p ins = .error .nullSpsr := by
  have hs : armReadSpsr p = .error .nullSpsr := (readSpsr_eq_nullSpsr_iff p.reg).mpr hp
  simp only [ldm, h, hs]
  rfl

theorem ldm_ok {p : ArmCore} {ins : Word} {x : Int × ArmCore} (h : ldm p ins = .ok x) :
    ∃ b, x = blockEnd ins b := by
  cases hr : (bit ins 22 && bit ins 15) with
  | false =>
    rw [ldm_eq p ins hr] at h
    exact ⟨_, (Except.ok.inj h).symm⟩
  | true =>
    cases hs : armReadSpsr p with
    | error e => simp only [ldm, hr, hs] at h; cases h
    | ok v =>
      simp only [ldm, hr, hs] at h
      exact ⟨_, (Except.ok.inj h).symm⟩

theorem blockEnd_result (ins : Word) (b : Block) :
    (blockEnd ins b).1 = 0 ∨ (blockEnd ins b).1 = Exception.dataAbort := by
  simp only [blockEnd]
  split
  · exact Or.inr rfl
  · exact Or.inl rfl

def armLoadStoreMultiple (p : ArmCore) (ins : Word) : Except Halt (Int × ArmCore) :=
  if bit ins 20 then ldm p ins else .ok (stm p ins)

end Armator
