import Armator.Instruction
import Armator.Lib.Trace

/-!
# The counts of the shifts

In C a shift of a 32-bit operand by 32 or more, or by a negative count, is undefined.
Here the operand decoders are written once more with every shift leaving its count, as
the `int` that the source computes, and with the macros of `util.h` written out into their
shifts.  Their values are those of `decodeSo` and `decodeOff` (`value_decodeSo`,
`value_decodeOff`).

Each branch of the decoders guards its extreme amounts, but one: the rotated immediate of
`decode_so` calls `ror` with 0, which shifts by 32 - 0.  All counts are in range exactly
when the word is not such an immediate (`shiftsInRange_iff`).
-/

namespace Armator

/-- A computation with the counts of its shifts. -/
abbrev Counted (α : Type) := Traced Int α

namespace Counted

/-! ### The macros and functions of `util` -/

/-- `x << n`; the host takes the count modulo 32. -/
def shl (x : Word) (n : Int) : Counted Word := Traced.emit n (Armator.shl x (n % 32).toNat)

/-- `x >> n` of an unsigned word. -/
def shr (x : Word) (n : Int) : Counted Word := Traced.emit n (Armator.shr x (n % 32).toNat)

/-- `x >> n` of an `int`. -/
def sar (x : Word) (n : Int) : Counted Word := Traced.emit n (x.sshiftRight (n % 32).toNat)

def getBit (x : Word) (i : Int) : Counted Word := do
  let y ← shr x i
  return y &&& 1

def getBits (x : Word) (h l : Int) : Counted Word := do
  let y ← shr x l
  let mask ← sar (~~~0) (h - l + 1)
  let mask ← shl mask (h - l + 1)
  return y &&& ~~~mask

def asr (value : Word) (shift : Nat) : Counted Word := do
  let low ← shr value shift
  let sign ← getBit value 31
  let high ← if sign ≠ 0 then shl (~~~0) (32 - shift) else pure 0
  return low ||| high

def ror (value : Word) (rotation : Nat) : Counted Word := do
  let low ← shr value rotation
  let high ← shl value (32 - rotation)
  return low ||| high

/-- The conversion to a `uint8_t`. -/
def u8 (x : Word) : Nat := x.toNat % 256

/-! ### The operand of a data-processing instruction -/

def decodeSoImmediate (cpsr ins : Word) : Counted (Word × Word) := do
  let immediate ← getBits ins 7 0
  let rotate ← getBits ins 11 8
  let result ← ror immediate (u8 (rotate * 2))
  let rotate ← getBits ins 11 8
  let carry ← if rotate = 0 then getBit cpsr flagC else getBit result 31
  return (result, carry)

def decodeSoShiftImm (cpsr rm : Word) (shift shiftImm : Nat) : Counted (Word × Word) :=
  match shift with
  | 0 =>
    if shiftImm = 0 then do
      let carry ← getBit cpsr flagC
      return (rm, carry)
    else do
      let carry ← getBit rm (32 - shiftImm)
      let value ← shl rm shiftImm
      return (value, carry)
  | 1 =>
    if shiftImm = 0 then do
      let carry ← getBit rm 31
      return (0, carry)
    else do
      let carry ← getBit rm (shiftImm - 1)
      let value ← shr rm shiftImm
      return (value, carry)
  | 2 =>
    if shiftImm = 0 then do
      let sign ← getBit rm 31
      if sign = 0 then return (0, 0) else return (-1, 1)
    else do
      let carry ← getBit rm (shiftImm - 1)
      let value ← asr rm shiftImm
      return (value, carry)
  | _ =>
    if shiftImm = 0 then do
      let carry ← getBit rm 0
      let c ← getBit cpsr flagC
      let high ← shl c 31
      let low ← shr rm 1
      return (high ||| low, carry)
    else do
      let carry ← getBit rm (shiftImm - 1)
      let value ← ror rm shiftImm
      return (value, carry)

def decodeSoShiftReg (cpsr rm : Word) (shift shiftImm : Nat) : Counted (Word × Word) :=
  match shift with
  | 0 =>
    if shiftImm = 32 then do
      let carry ← getBit rm 0
      return (0, carry)
    else if shiftImm > 32 then return (0, 0)
    else if shiftImm = 0 then do
      let carry ← getBit cpsr flagC
      return (rm, carry)
    else do
      let carry ← getBit rm (32 - shiftImm)
      let value ← shl rm shiftImm
      return (value, carry)
  | 1 =>
    if shiftImm = 32 then do
      let carry ← getBit rm 31
      return (0, carry)
    else if shiftImm > 32 then return (0, 0)
    else if shiftImm = 0 then do
      let carry ← getBit rm 31
      return (0, carry)
    else do
      let carry ← getBit rm (shiftImm - 1)
      let value ← shr rm shiftImm
      return (value, carry)
  | 2 =>
    if shiftImm ≥ 32 then do
      let sign ← getBit rm 31
      let carry ← getBit rm 31
      if sign = 0 then return (0, carry) else return (-1, carry)
    else if shiftImm = 0 then do
      let sign ← getBit rm 31
      if sign = 0 then return (0, 0) else return (-1, 1)
    else do
      let carry ← getBit rm (shiftImm - 1)
      let value ← asr rm shiftImm
      return (value, carry)
  | _ =>
    let shiftImm5L := shiftImm % 32
    if shiftImm = 0 then do
      let carry ← getBit cpsr flagC
      return (rm, carry)
    else if shiftImm5L = 0 then do
      let carry ← getBit rm 31
      return (rm, carry)
    else do
      let carry ← getBit rm (shiftImm5L - 1)
      let value ← ror rm shiftImm5L
      return (value, carry)

/-- The operand with the carry out of the shifter. -/
def decodeSo (p : ArmCore) (ins : Word) : Counted (Word × Word) := do
  let immediate ← getBit ins 25
  if immediate ≠ 0 then decodeSoImmediate (armReadCpsr p) ins
  else
    let byRegister ← getBit ins 4
    if byRegister = 0 then
      let shiftImm ← getBits ins 11 7
      let shift ← getBits ins 6 5
      let rm ← getBits ins 3 0
      decodeSoShiftImm (armReadCpsr p) (armReadRegister p (regNum rm)) (u8 shift) (u8 shiftImm)
    else
      let rs ← getBits ins 11 8
      let shift ← getBits ins 6 5
      let rm ← getBits ins 3 0
      decodeSoShiftReg (armReadCpsr p) (armReadRegister p (regNum rm)) (u8 shift)
        (u8 (armReadRegister p (regNum rs) &&& 0xFF))

/-! ### The offset of a transfer -/

def decodeOff (p : ArmCore) (ins : Word) : Counted Word := do
  let register ← getBit ins 25
  if register = 0 then getBits ins 11 0
  else
    let rm ← getBits ins 3 0
    let rm := armReadRegister p (regNum rm)
    let shiftImm ← getBits ins 11 7
    let shiftImm := u8 shiftImm
    let shift ← getBits ins 6 5
    let field ← getBits ins 11 4
    if field = 0 then return rm
    else
      match u8 shift with
      | 0 => shl rm shiftImm
      | 1 => if shiftImm = 0 then return 0 else shr rm shiftImm
      | 2 =>
        if shiftImm = 0 then do
          let sign ← getBit rm 31
          if sign ≠ 0 then return -1 else return 0
        else asr rm shiftImm
      | _ =>
        if shiftImm = 0 then do
          let c ← getBit (armReadCpsr p) flagC
          let high ← shl c 31
          let low ← shr rm 1
          return high ||| low
        else ror rm shiftImm

/-! ### The values -/

theorem value_shl (x : Word) {n : Int} (h : 0 ≤ n) : (shl x n).value = Armator.shl x n.toNat := by
  rw [shl, Traced.value_emit, Armator.shl, Armator.shl, show (n % 32).toNat % 32 = n.toNat % 32 by omega]

theorem value_shr (x : Word) {n : Int} (h : 0 ≤ n) : (shr x n).value = Armator.shr x n.toNat := by
  rw [shr, Traced.value_emit, Armator.shr, Armator.shr, show (n % 32).toNat % 32 = n.toNat % 32 by omega]

theorem value_getBit (x : Word) {i : Int} (h : 0 ≤ i) :
    (getBit x i).value = Armator.getBit x i.toNat := by
  rw [getBit, Traced.value_bind, value_shr x h]
  rfl

theorem value_getBits (x : Word) {h l : Int} (hl : 0 ≤ l) (hh : l ≤ h) (hw : h - l + 1 < 32) :
    (getBits x h l).value = Armator.getBits x h.toNat l.toNat := by
  have hn : (h - l + 1).toNat = h.toNat - l.toNat + 1 := by omega
  have hm : ((h - l + 1) % 32).toNat = h.toNat - l.toNat + 1 := by omega
  simp only [getBits, Traced.value_bind, Traced.value_pure, value_shr x hl,
    value_shl _ (show 0 ≤ h - l + 1 by omega), sar, Traced.value_emit, hn, hm]
  rfl

theorem value_asr (x : Word) {n : Nat} (h : n ≤ 32) : (asr x n).value = Armator.asr x n := by
  have hc : (32 - (n : Int)).toNat = 32 - n := by omega
  have hsign : (getBit x 31).value = Armator.getBit x 31 := value_getBit x (by decide)
  simp only [asr, Traced.value_bind, hsign, value_shr x (Int.natCast_nonneg n), Int.toNat_natCast,
    Armator.asr, bit, bne_iff_ne]
  by_cases hs : Armator.getBit x 31 = 0
  · rw [if_neg (not_not_intro hs), if_neg (not_not_intro hs)]
    rfl
  · rw [if_pos hs, if_pos hs, Traced.value_bind, value_shl _ (by omega), hc]
    rfl

theorem value_ror (x : Word) {n : Nat} (h : n ≤ 32) : (ror x n).value = Armator.ror x n := by
  have hc : (32 - (n : Int)).toNat = 32 - n := by omega
  simp only [ror, Traced.value_bind, Traced.value_pure, value_shr x (Int.natCast_nonneg n),
    value_shl x (show 0 ≤ 32 - (n : Int) by omega), Int.toNat_natCast, hc, Armator.ror]

theorem u8_of_lt {x : Word} (h : x.toNat < 256) : u8 x = x.toNat := Nat.mod_eq_of_lt h

theorem value_decodeSoShiftImm (cpsr rm : Word) (shift : Nat) {shiftImm : Nat} (h : shiftImm < 32) :
    (decodeSoShiftImm cpsr rm shift shiftImm).value =
      Armator.decodeSoShiftImm cpsr rm shift shiftImm := by
  unfold decodeSoShiftImm Armator.decodeSoShiftImm
  have hc : (32 - (shiftImm : Int)).toNat = 32 - shiftImm := by omega
  have hd : ((shiftImm : Int) - 1).toNat = shiftImm - 1 := by omega
  split
  · split
    · simp [value_getBit cpsr (show (0 : Int) ≤ flagC by decide)]
    · simp [value_getBit rm (show 0 ≤ 32 - (shiftImm : Int) by omega), hc,
        value_shl rm (Int.natCast_nonneg shiftImm)]
  · split
    · simp [value_getBit rm (show (0 : Int) ≤ 31 by decide)]
    · simp [value_getBit rm (show 0 ≤ (shiftImm : Int) - 1 by omega), hd,
        value_shr rm (Int.natCast_nonneg shiftImm)]
  · split
    · rw [Traced.value_bind, value_getBit rm (by decide)]
      change (if Armator.getBit rm 31 = 0 then _ else _ : Counted (Word × Word)).value = _
      split
      · rfl
      · rfl
    · simp [value_getBit rm (show 0 ≤ (shiftImm : Int) - 1 by omega), hd,
        value_asr rm (show shiftImm ≤ 32 by omega)]
  · split
    · simp [value_getBit rm (show (0 : Int) ≤ 0 by decide), value_getBit cpsr
        (show (0 : Int) ≤ flagC by decide), value_shl _ (show (0 : Int) ≤ 31 by decide),
        value_shr _ (show (0 : Int) ≤ 1 by decide)]
    · simp [value_getBit rm (show 0 ≤ (shiftImm : Int) - 1 by omega), hd,
        value_ror rm (show shiftImm ≤ 32 by omega)]

theorem value_decodeSoShiftReg (cpsr rm : Word) (shift shiftImm : Nat) :
    (decodeSoShiftReg cpsr rm shift shiftImm).value =
      Armator.decodeSoShiftReg cpsr rm shift shiftImm := by
  unfold decodeSoShiftReg Armator.decodeSoShiftReg
  split
  · split
    · simp [value_getBit rm (show (0 : Int) ≤ 0 by decide)]
    · split
      · rfl
      · split
        · simp [value_getBit cpsr (show (0 : Int) ≤ flagC by decide)]
        · have hc : (32 - (shiftImm : Int)).toNat = 32 - shiftImm := by omega
          simp [value_getBit rm (show 0 ≤ 32 - (shiftImm : Int) by omega), hc,
            value_shl rm (Int.natCast_nonneg shiftImm)]
  · split
    · simp [value_getBit rm (show (0 : Int) ≤ 31 by decide)]
    · split
      · rfl
      · split
        · simp [value_getBit rm (show (0 : Int) ≤ 31 by decide)]
        · have hd : ((shiftImm : Int) - 1).toNat = shiftImm - 1 := by omega
          simp [value_getBit rm (show 0 ≤ (shiftImm : Int) - 1 by omega), hd,
            value_shr rm (Int.natCast_nonneg shiftImm)]
  · have hsign : (getBit rm 31).value = Armator.getBit rm 31 := value_getBit rm (by decide)
    split
    · rw [Traced.value_bind, Traced.value_bind, hsign]
      split
      · rfl
      · rfl
    · split
      · rw [Traced.value_bind, hsign]
        split
        · rfl
        · rfl
      · have hd : ((shiftImm : Int) - 1).toNat = shiftImm - 1 := by omega
        simp [value_getBit rm (show 0 ≤ (shiftImm : Int) - 1 by omega), hd,
          value_asr rm (show shiftImm ≤ 32 by omega)]
  · dsimp only
    split
    · simp [value_getBit cpsr (show (0 : Int) ≤ flagC by decide)]
    · split
      · simp [value_getBit rm (show (0 : Int) ≤ 31 by decide)]
      · have hd : (((shiftImm % 32 : Nat) : Int) - 1).toNat = shiftImm % 32 - 1 := by omega
        simp only [Traced.value_bind, Traced.value_pure, hd,
          value_getBit rm (show 0 ≤ ((shiftImm % 32 : Nat) : Int) - 1 by omega),
          value_ror rm (show shiftImm % 32 ≤ 32 by omega)]

theorem toNat_rotate_lt (ins : Word) : (Armator.getBits ins 11 8).toNat < 16 :=
  toNat_getBits_lt ins (by decide) (by decide)

theorem u8_rotate (ins : Word) :
    u8 (Armator.getBits ins 11 8 * 2) = (Armator.getBits ins 11 8).toNat * 2 := by
  have hlt := toNat_rotate_lt ins
  rw [u8, BitVec.toNat_mul]
  simp
  omega

theorem value_decodeSoImmediate (cpsr ins : Word) :
    (decodeSoImmediate cpsr ins).value = Armator.decodeSoImmediate cpsr ins := by
  have himm : (getBits ins 7 0).value = Armator.getBits ins 7 0 :=
    value_getBits ins (by decide) (by decide) (by decide)
  have hrot : (getBits ins 11 8).value = Armator.getBits ins 11 8 :=
    value_getBits ins (by decide) (by decide) (by decide)
  have hlt := toNat_rotate_lt ins
  unfold decodeSoImmediate Armator.decodeSoImmediate
  simp only [Traced.value_bind, himm, hrot, u8_rotate, 
    value_ror _ (show (Armator.getBits ins 11 8).toNat * 2 ≤ 32 by omega)]
  split
  · rw [Traced.value_bind, value_getBit cpsr (by decide)]
    rfl
  · rw [Traced.value_bind, value_getBit _ (by decide)]
    rfl

/-- The fields that the decoders read, as the model reads them. -/
theorem value_fields (ins : Word) :
    (getBits ins 11 0).value = Armator.getBits ins 11 0 ∧
    (getBits ins 11 4).value = Armator.getBits ins 11 4 ∧
    (getBits ins 11 7).value = Armator.getBits ins 11 7 ∧
    (getBits ins 11 8).value = Armator.getBits ins 11 8 ∧
    (getBits ins 6 5).value = Armator.getBits ins 6 5 ∧
    (getBits ins 3 0).value = Armator.getBits ins 3 0 :=
  ⟨value_getBits ins (by decide) (by decide) (by decide),
    value_getBits ins (by decide) (by decide) (by decide),
    value_getBits ins (by decide) (by decide) (by decide),
    value_getBits ins (by decide) (by decide) (by decide),
    value_getBits ins (by decide) (by decide) (by decide),
    value_getBits ins (by decide) (by decide) (by decide)⟩

theorem u8_shift (ins : Word) : u8 (Armator.getBits ins 6 5) = (Armator.getBits ins 6 5).toNat :=
  u8_of_lt (Nat.lt_of_lt_of_le (toNat_getBits_lt ins (by decide) (by decide)) (by decide))

theorem u8_shiftImm (ins : Word) : u8 (Armator.getBits ins 11 7) = (Armator.getBits ins 11 7).toNat :=
  u8_of_lt (Nat.lt_of_lt_of_le (toNat_getBits_lt ins (by decide) (by decide)) (by decide))

theorem toNat_shiftImm_lt (ins : Word) : (Armator.getBits ins 11 7).toNat < 32 :=
  toNat_getBits_lt ins (by decide) (by decide)

theorem u8_low (x : Word) : u8 (x &&& 0xFF) = (x &&& 0xFF).toNat := by
  refine u8_of_lt ?_
  rw [BitVec.toNat_and]
  exact Nat.lt_of_le_of_lt Nat.and_le_right (by decide)

/-- **The operand and the carry are those of `decodeSo`.** -/
theorem value_decodeSo (p : ArmCore) (ins : Word) : (decodeSo p ins).value = shifterOperand p ins := by
  obtain ⟨-, -, h117, h118, h65, h30⟩ := value_fields ins
  have h25 : (getBit ins 25).value = Armator.getBit ins 25 := value_getBit ins (by decide)
  have h4 : (getBit ins 4).value = Armator.getBit ins 4 := value_getBit ins (by decide)
  unfold decodeSo shifterOperand
  rw [Traced.value_bind, h25]
  by_cases hi : Armator.getBit ins 25 = 0
  · rw [if_neg (not_not_intro hi), bit_of_getBit_zero hi, Traced.value_bind, h4]
    by_cases hr : Armator.getBit ins 4 = 0
    · rw [if_pos hr, bit_of_getBit_zero hr]
      simp only [Traced.value_bind, h117, h65, h30, u8_shift, u8_shiftImm,
        value_decodeSoShiftImm _ _ _ (toNat_shiftImm_lt ins)]
      rfl
    · have hb : bit ins 4 = true := bne_iff_ne.mpr hr
      rw [if_neg hr, hb]
      simp only [Traced.value_bind, h118, h65, h30, u8_shift, u8_low, value_decodeSoShiftReg]
      rfl
  · have hb : bit ins 25 = true := bne_iff_ne.mpr hi
    rw [if_pos hi, hb, value_decodeSoImmediate]
    rfl

/-- **The offset is that of `decodeOff`.** -/
theorem value_decodeOff (p : ArmCore) (ins : Word) :
    (decodeOff p ins).value = Armator.decodeOff p ins := by
  obtain ⟨h110, h114, h117, -, h65, h30⟩ := value_fields ins
  have h25 : (getBit ins 25).value = Armator.getBit ins 25 := value_getBit ins (by decide)
  have himm := toNat_shiftImm_lt ins
  unfold decodeOff Armator.decodeOff
  rw [Traced.value_bind, h25]
  by_cases hr : Armator.getBit ins 25 = 0
  · rw [if_pos hr, bit_of_getBit_zero hr, h110]
    rfl
  · have hb : bit ins 25 = true := bne_iff_ne.mpr hr
    rw [if_neg hr, hb]
    simp only [Traced.value_bind, h117, h65, h30, h114, u8_shift, u8_shiftImm, Bool.not_true,
      Bool.false_eq_true, if_false]
    generalize (Armator.getBits ins 6 5).toNat = shift
    split
    · rfl
    · split
      · exact value_shl _ (Int.natCast_nonneg _)
      · split
        · rfl
        · exact value_shr _ (Int.natCast_nonneg _)
      · split
        · rw [Traced.value_bind, value_getBit _ (by decide)]
          simp only [bit, bne_iff_ne]
          change (if Armator.getBit _ 31 ≠ 0 then _ else _ : Counted Word).value = _
          split
          · rfl
          · rfl
        · exact value_asr _ (by omega)
      · split
        · simp [value_getBit _ (show (0 : Int) ≤ flagC by decide),
            value_shl _ (show (0 : Int) ≤ 31 by decide), value_shr _ (show (0 : Int) ≤ 1 by decide)]
        · simp [value_ror _ (Nat.le_of_lt himm)]

/-! ### The counts -/

/-- A count for which the shift of a 32-bit operand is defined. -/
def InRange (n : Int) : Prop := 0 ≤ n ∧ n ≤ 31

instance : DecidablePred InRange := fun n => inferInstanceAs (Decidable (0 ≤ n ∧ n ≤ 31))

@[simp] theorem each_shl (x : Word) (n : Int) : (shl x n).Each InRange ↔ InRange n :=
  Traced.each_emit n _

@[simp] theorem each_shr (x : Word) (n : Int) : (shr x n).Each InRange ↔ InRange n :=
  Traced.each_emit n _

@[simp] theorem each_getBit (x : Word) (i : Int) : (getBit x i).Each InRange ↔ InRange i := by
  simp [getBit]

@[simp] theorem each_getBits (x : Word) (h l : Int) :
    (getBits x h l).Each InRange ↔ InRange l ∧ InRange (h - l + 1) := by
  simp [getBits, sar]

@[simp] theorem each_ror (x : Word) (n : Nat) :
    (ror x n).Each InRange ↔ InRange n ∧ InRange (32 - n) := by
  simp [ror]

theorem each_asr (x : Word) {n : Nat} (h0 : 0 < n) (h : n < 32) : (asr x n).Each InRange := by
  have hn : InRange n := ⟨by omega, by omega⟩
  have hc : InRange (32 - n) := ⟨by omega, by omega⟩
  have h31 : InRange 31 := by decide
  rw [asr, Traced.each_bind, Traced.each_bind, each_shr, each_getBit]
  refine ⟨hn, h31, ?_⟩
  split
  · simp [hc]
  · simp

theorem each_decodeSoShiftImm (cpsr rm : Word) (shift : Nat) {shiftImm : Nat} (h : shiftImm < 32) :
    (decodeSoShiftImm cpsr rm shift shiftImm).Each InRange := by
  have hc : InRange flagC := by decide
  have h0 : InRange 0 := by decide
  have h1 : InRange 1 := by decide
  have h31 : InRange 31 := by decide
  by_cases hz : shiftImm = 0
  · unfold decodeSoShiftImm
    simp only [hz, if_true]
    split
    · simp [hc]
    · simp [h31]
    · rw [Traced.each_bind, each_getBit]
      exact ⟨h31, Traced.each_ite_pure _ _ _⟩
    · simp [hc, h0, h1, h31]
  · have hn : InRange shiftImm := ⟨by omega, by omega⟩
    have hp : InRange (shiftImm - 1) := ⟨by omega, by omega⟩
    have hm : InRange (32 - shiftImm) := ⟨by omega, by omega⟩
    unfold decodeSoShiftImm
    simp only [hz, if_false]
    split
    · simp [hn, hm]
    · simp [hn, hp]
    · simp [hp, each_asr rm (Nat.pos_of_ne_zero hz) h]
    · simp [hn, hp, hm]

theorem each_decodeSoShiftReg (cpsr rm : Word) (shift shiftImm : Nat) :
    (decodeSoShiftReg cpsr rm shift shiftImm).Each InRange := by
  have hc : InRange flagC := by decide
  have h0 : InRange 0 := by decide
  have h31 : InRange 31 := by decide
  unfold decodeSoShiftReg
  split
  · split
    · simp [h0]
    · split
      · exact Traced.each_pure _
      · split
        · simp [hc]
        · have hn : InRange shiftImm := ⟨by omega, by omega⟩
          have hm : InRange (32 - shiftImm) := ⟨by omega, by omega⟩
          simp [hn, hm]
  · split
    · simp [h31]
    · split
      · exact Traced.each_pure _
      · split
        · simp [h31]
        · have hn : InRange shiftImm := ⟨by omega, by omega⟩
          have hp : InRange (shiftImm - 1) := ⟨by omega, by omega⟩
          simp [hn, hp]
  · split
    · rw [Traced.each_bind, Traced.each_bind, each_getBit]
      exact ⟨h31, h31, Traced.each_ite_pure _ _ _⟩
    · split
      · rw [Traced.each_bind, each_getBit]
        exact ⟨h31, Traced.each_ite_pure _ _ _⟩
      · have hp : InRange (shiftImm - 1) := ⟨by omega, by omega⟩
        simp [hp, each_asr rm (show 0 < shiftImm by omega) (by omega)]
  · dsimp only
    split
    · simp [hc]
    · split
      · simp [h31]
      · have hn : InRange ((shiftImm % 32 : Nat) : Int) := ⟨by omega, by omega⟩
        have hp : InRange (((shiftImm % 32 : Nat) : Int) - 1) := ⟨by omega, by omega⟩
        have hm : InRange (32 - ((shiftImm % 32 : Nat) : Int)) := ⟨by omega, by omega⟩
        simp only [Traced.each_bind, each_getBit, each_ror, Traced.each_pure]
        exact ⟨hp, ⟨hn, hm⟩, trivial⟩

/-- **The rotated immediate shifts by 32 exactly when it is not rotated.** -/
theorem each_decodeSoImmediate_iff (cpsr ins : Word) :
    (decodeSoImmediate cpsr ins).Each InRange ↔ Armator.getBits ins 11 8 ≠ 0 := by
  obtain ⟨-, -, -, h118, -, -⟩ := value_fields ins
  have hlt := toNat_rotate_lt ins
  simp only [decodeSoImmediate, Traced.each_bind, each_getBits, each_ror, h118, u8_rotate]
  constructor
  · rintro ⟨-, -, ⟨-, hm⟩, -⟩ hz
    rw [hz] at hm
    exact absurd hm (by decide)
  · intro hne
    have hpos : 0 < (Armator.getBits ins 11 8).toNat := by
      rcases Nat.eq_zero_or_pos (Armator.getBits ins 11 8).toNat with h | h
      · exact absurd (BitVec.eq_of_toNat_eq h) hne
      · exact h
    refine ⟨by decide, by decide, ⟨⟨by omega, by omega⟩, by omega, by omega⟩, by decide, ?_⟩
    rw [if_neg hne]
    simp only [Traced.each_bind, each_getBit, Traced.each_pure, and_true]
    decide

theorem each_fields (ins : Word) :
    (getBits ins 11 0).Each InRange ∧ (getBits ins 11 4).Each InRange ∧
    (getBits ins 11 7).Each InRange ∧ (getBits ins 11 8).Each InRange ∧
    (getBits ins 6 5).Each InRange ∧ (getBits ins 3 0).Each InRange := by
  simp only [each_getBits]
  decide

/-- **The counts of `decode_so` are in range but for an immediate that is not rotated.** -/
theorem each_decodeSo_iff (p : ArmCore) (ins : Word) :
    (decodeSo p ins).Each InRange ↔ (bit ins 25 = true → Armator.getBits ins 11 8 ≠ 0) := by
  obtain ⟨-, -, e117, e118, e65, e30⟩ := each_fields ins
  obtain ⟨-, -, h117, -, -, -⟩ := value_fields ins
  have h25 : (getBit ins 25).value = Armator.getBit ins 25 := value_getBit ins (by decide)
  have hr25 : InRange 25 := by decide
  have hr4 : InRange 4 := by decide
  unfold decodeSo
  rw [Traced.each_bind, each_getBit, h25]
  by_cases hi : Armator.getBit ins 25 = 0
  · rw [if_neg (not_not_intro hi), bit_of_getBit_zero hi, Traced.each_bind, each_getBit]
    refine iff_of_true ⟨hr25, hr4, ?_⟩ (fun hf => Bool.noConfusion hf)
    split
    · simp only [Traced.each_bind, e117, e65, e30, h117, u8_shiftImm, true_and]
      exact each_decodeSoShiftImm _ _ _ (toNat_shiftImm_lt ins)
    · simp only [Traced.each_bind, e118, e65, e30, true_and]
      exact each_decodeSoShiftReg _ _ _ _
  · have hb : bit ins 25 = true := bne_iff_ne.mpr hi
    rw [if_pos hi, each_decodeSoImmediate_iff, hb]
    exact ⟨fun h _ => h.2, fun h => ⟨hr25, h rfl⟩⟩

/-- **The counts of `decode_off` are in range.** -/
theorem each_decodeOff (p : ArmCore) (ins : Word) : (decodeOff p ins).Each InRange := by
  obtain ⟨e110, e114, e117, -, e65, e30⟩ := each_fields ins
  obtain ⟨-, -, h117, -, -, -⟩ := value_fields ins
  have himm := toNat_shiftImm_lt ins
  have hr25 : InRange 25 := by decide
  have hn : InRange (Armator.getBits ins 11 7).toNat := ⟨by omega, by omega⟩
  have hm : (Armator.getBits ins 11 7).toNat ≠ 0 →
      InRange (32 - (Armator.getBits ins 11 7).toNat) := fun h => ⟨by omega, by omega⟩
  unfold decodeOff
  rw [Traced.each_bind, each_getBit]
  refine ⟨hr25, ?_⟩
  split
  · exact e110
  · simp only [Traced.each_bind, e30, e117, e65, e114, h117, u8_shiftImm, true_and]
    split
    · exact Traced.each_pure _
    · split
      · exact (each_shl _ _).mpr hn
      · split
        · exact Traced.each_pure _
        · exact (each_shr _ _).mpr hn
      · split
        · rw [Traced.each_bind, each_getBit]
          exact ⟨by decide, Traced.each_ite_pure _ _ _⟩
        · rename_i hz
          exact each_asr _ (Nat.pos_of_ne_zero hz) himm
      · split
        · simp only [Traced.each_bind, each_getBit, each_shl, each_shr, Traced.each_pure, and_true]
          decide
        · rename_i hz
          exact (each_ror _ _).mpr ⟨hn, hm hz⟩

end Counted

/-! ### The words that are decoded -/

/-- The two decoders of a shifted operand. -/
inductive Decoder
  | so
  | off
  deriving DecidableEq

/-- The decoder that `arm_load_store` calls, if it is one of the two. -/
def loadStoreDecoder (ins : Word) : Option Decoder := if bit ins 26 then some .off else none

/-- The decoder that a word gets to through the switch over the instruction classes. -/
def operandDecoder (ins : Word) : Option Decoder :=
  match (getBits ins 27 25).toNat with
  | 0b000 =>
    if bit ins 7 ∧ bit ins 4 then loadStoreDecoder ins
    else if bit ins 24 ∧ ¬bit ins 23 ∧ ¬bit ins 20 ∧ ¬bit ins 4 then none
    else some .so
  | 0b001 => some .so
  | 0b010 => loadStoreDecoder ins
  | 0b011 => loadStoreDecoder ins
  | _ => none

/-- Every shift that decoding the operand of a word evaluates has a count from 0 to 31. -/
def ShiftsInRange (p : ArmCore) (ins : Word) : Prop :=
  match operandDecoder ins with
  | some .so => (Counted.decodeSo p ins).Each Counted.InRange
  | some .off => (Counted.decodeOff p ins).Each Counted.InRange
  | none => True

/-- What the decoded operand is for: a word that gets to a decoder is executed with the
value of that decoder. -/
theorem dispatch_of_operandDecoder (p : ArmCore) (ins : Word) :
    (operandDecoder ins = some .so → armDispatch p ins = .ok (armDataProcessingShift p ins)) ∧
    (operandDecoder ins = some .off →
      armDispatch p ins = .ok (armLoadStore p ins) ∧ bit ins 26 = true) := by
  have hls : loadStoreDecoder ins ≠ some .so ∧
      (loadStoreDecoder ins = some .off → bit ins 26 = true) := by
    unfold loadStoreDecoder
    split
    · rename_i h26
      exact ⟨by decide, fun _ => h26⟩
    · exact ⟨by decide, nofun⟩
  unfold operandDecoder armDispatch
  generalize (getBits ins 27 25).toNat = c
  split
  · by_cases h74 : bit ins 7 = true ∧ bit ins 4 = true
    · rw [if_pos h74, if_pos h74]
      exact ⟨fun h => absurd h hls.1, fun h => ⟨rfl, hls.2 h⟩⟩
    · rw [if_neg h74, if_neg h74]
      split
      · exact ⟨nofun, nofun⟩
      · exact ⟨fun _ => rfl, nofun⟩
  · exact ⟨fun _ => rfl, nofun⟩
  · exact ⟨fun h => absurd h hls.1, fun h => ⟨rfl, hls.2 h⟩⟩
  · exact ⟨fun h => absurd h hls.1, fun h => ⟨rfl, hls.2 h⟩⟩
  · exact ⟨nofun, nofun⟩

/-- A word with bit 25 set gets to `decode_so` exactly when its class is 001. -/
theorem class_of_so {ins : Word} (h : operandDecoder ins = some .so) (h25 : bit ins 25 = true) :
    getBits ins 27 25 = 0b001 := by
  have hodd : (getBits ins 27 25).toNat % 2 = 1 := by
    have hb := (bit_iff ins (by decide)).mp h25
    rw [toNat_getBits ins (by decide) (by decide)]
    omega
  unfold operandDecoder loadStoreDecoder at h
  split at h
  · omega
  · rename_i hc
    exact BitVec.eq_of_toNat_eq hc
  · omega
  · split at h
    · cases h
    · cases h
  · cases h

theorem so_of_class {ins : Word} (h : getBits ins 27 25 = 0b001) :
    operandDecoder ins = some .so ∧ bit ins 25 = true := by
  constructor
  · rw [operandDecoder, h]
    rfl
  · have hfield := field_of_getBits (by decide) (by decide) h
    rw [bit_iff ins (by decide)]
    simp at hfield
    omega

/-- **When the shifts of the operand decoding are defined**: exactly when the word is not
a data-processing instruction with an immediate that is not rotated. -/
theorem shiftsInRange_iff (p : ArmCore) (ins : Word) :
    ShiftsInRange p ins ↔ ¬ (getBits ins 27 25 = 0b001 ∧ getBits ins 11 8 = 0) := by
  unfold ShiftsInRange
  cases hd : operandDecoder ins with
  | none =>
    refine iff_of_true trivial ?_
    rintro ⟨hc, -⟩
    rw [(so_of_class hc).1] at hd
    cases hd
  | some d =>
    cases d with
    | so =>
      dsimp only
      rw [Counted.each_decodeSo_iff]
      constructor
      · rintro h ⟨hc, hz⟩
        exact h (so_of_class hc).2 hz
      · intro h h25 hz
        exact h ⟨class_of_so hd h25, hz⟩
    | off =>
      refine iff_of_true (Counted.each_decodeOff p ins) ?_
      rintro ⟨hc, -⟩
      rw [(so_of_class hc).1] at hd
      cases hd

/-- `mov r0, #1` rotates its immediate by 0, and `ror` shifts it by 32. -/
theorem mov_immediate_shifts_by_width :
    32 ∈ (Counted.decodeSo (armFetch (coreOfWord 0xE3A00001)).2 0xE3A00001).events ∧
    armStep (coreOfWord 0xE3A00001) =
      .ok (armDataProcessingShift (armFetch (coreOfWord 0xE3A00001)).2 0xE3A00001) ∧
    ¬ ∀ (p : ArmCore) (ins : Word), ShiftsInRange p ins := by
  have hcount : 32 ∈ (Counted.decodeSo (armFetch (coreOfWord 0xE3A00001)).2 0xE3A00001).events := by
    decide +kernel
  have hso : operandDecoder 0xE3A00001 = some .so := by decide +kernel
  refine ⟨hcount, ?_, ?_⟩
  · rw [armStep_of_passed (armFetch_coreOfWord 0xE3A00001) (by decide +kernel)]
    exact (dispatch_of_operandDecoder _ _).1 hso
  · intro hall
    have h := hall (armFetch (coreOfWord 0xE3A00001)).2 0xE3A00001
    rw [ShiftsInRange, hso] at h
    exact absurd (h 32 hcount) (by decide)

end Armator
