import Armator.Lib.Bytes

/-!
# Bit twiddling (`util.h`, `util.c`)

The macros `get_bit`, `set_bit`, `clr_bit`, `get_bits`, `reverse_2`,
`reverse_4` and the functions `asr`, `ror`, on 32-bit words.  A C shift by a
variable count is `shl` or `shr`: the host takes the count modulo 32, which
matters only where the code lets a count of 32 through.

The macros are read back in two ways.  As bits: `bit x i`, the truth value of
`get_bit(x, i)`, is bit `i` of `x` (`bit_eq_getLsbD`).  And as numbers: a field
is a quotient and a remainder of the word (`toNat_getBits`, `bit_iff`), the
form in which `omega` compares overlapping fields of one instruction.
-/

namespace Armator

abbrev Half := BitVec 16
abbrev Word := BitVec 32

/-- `x << n` on the host. -/
def shl (x : Word) (n : Nat) : Word := x <<< (n % 32)

/-- `x >> n` on the host. -/
def shr (x : Word) (n : Nat) : Word := x >>> (n % 32)

def getBit (x : Word) (i : Nat) : Word := shr x i &&& 1

def setBit (x : Word) (i : Nat) : Word := x ||| shl 1 i

def clrBit (x : Word) (i : Nat) : Word := x &&& ~~~shl 1 i

/-- Bits `h` down to `l`.  The mask starts from the `int` `~0`, whose right
shift is arithmetic and leaves it as it is. -/
def getBits (x : Word) (h l : Nat) : Word :=
  shr x l &&& ~~~shl ((~~~0 : Word).sshiftRight (h - l + 1)) (h - l + 1)

/-- `get_bit(x, i)` where the code uses it as a truth value. -/
def bit (x : Word) (i : Nat) : Bool := getBit x i != 0

def asr (value : Word) (shift : Nat) : Word :=
  shr value shift ||| (if bit value 31 then shl (~~~0) (32 - shift) else 0)

def ror (value : Word) (rotation : Nat) : Word :=
  shr value rotation ||| shl value (32 - rotation)

def reverse2 (x : Half) : Half := ((x &&& 0xFF) <<< 8) ||| ((x >>> 8) &&& 0xFF)

def reverse4 (x : Word) : Word :=
  ((x &&& 0xFF) <<< 24) ||| (((x >>> 8) &&& 0xFF) <<< 16) |||
    (((x >>> 16) &&& 0xFF) <<< 8) ||| ((x >>> 24) &&& 0xFF)

/-- For the numerals that name registers. -/
instance neZero16 : NeZero 16 := ⟨by decide⟩

/-- The `uint8_t` register number that a four-bit field holds. -/
def regNum (x : Word) : Fin 16 := Fin.ofNat 16 x.toNat

/-- The host looks at the first byte of a `uint32_t` that holds 1. -/
def isBigEndian (host : Endian) : Bool := Bytes.byteOf host 4 1 0 == 0

@[simp] theorem isBigEndian_eq (host : Endian) : isBigEndian host = (host == .big) := by
  cases host <;> decide

/-! ### Bits -/

theorem getBit_eq_zero_or_one (x : Word) (i : Nat) : getBit x i = 0 ∨ getBit x i = 1 := by
  have h : (getBit x i).toNat ≤ 1 := by
    rw [getBit, BitVec.toNat_and]
    exact Nat.and_le_right
  rcases Nat.le_one_iff_eq_zero_or_eq_one.mp h with h0 | h1
  · exact Or.inl (BitVec.eq_of_toNat_eq h0)
  · exact Or.inr (BitVec.eq_of_toNat_eq h1)

theorem toNat_getBit (x : Word) {i : Nat} (h : i < 32) :
    (getBit x i).toNat = x.toNat / 2 ^ i % 2 := by
  rw [getBit, shr, Nat.mod_eq_of_lt h, BitVec.toNat_and, BitVec.toNat_ushiftRight,
    Nat.shiftRight_eq_div_pow]
  exact Nat.and_one_is_mod _

theorem bit_iff (x : Word) {i : Nat} (h : i < 32) :
    bit x i = true ↔ x.toNat / 2 ^ i % 2 = 1 := by
  rw [bit, bne_iff_ne, ← toNat_getBit x h]
  rcases getBit_eq_zero_or_one x i with e | e <;> rw [e] <;> decide

theorem bit_eq_getLsbD (x : Word) {i : Nat} (h : i < 32) : bit x i = x.getLsbD i := by
  rw [Bool.eq_iff_iff, bit_iff x h, ← BitVec.testBit_toNat, Nat.testBit_eq_decide_div_mod_eq,
    decide_eq_true_iff]

theorem bit_of_getBit_zero {x : Word} {i : Nat} (h : getBit x i = 0) : bit x i = false := by
  rw [bit, h]; rfl

theorem bit_of_getBit_one {x : Word} {i : Nat} (h : getBit x i = 1) : bit x i = true := by
  rw [bit, h]; rfl

theorem getBit_eq_ite (x : Word) (i : Nat) : getBit x i = if bit x i then 1 else 0 := by
  rcases getBit_eq_zero_or_one x i with e | e
  · rw [bit_of_getBit_zero e, e]; rfl
  · rw [bit_of_getBit_one e, e]; rfl

/-- Two `get_bit` are compared as numbers, which is comparing the bits. -/
theorem getBit_eq_getBit_iff (x y : Word) (i j : Nat) :
    getBit x i = getBit y j ↔ bit x i = bit y j := by
  rw [getBit_eq_ite x, getBit_eq_ite y]
  cases bit x i <;> cases bit y j <;> decide

theorem getBits_mask {w : Nat} (hw : w < 32) :
    ~~~shl ((~~~0 : Word).sshiftRight w) w = BitVec.ofNat 32 (2 ^ w - 1) := by
  have hs : (BitVec.allOnes 32).sshiftRight w = BitVec.allOnes 32 := by
    apply BitVec.eq_of_getLsbD_eq
    intro i hi
    rw [BitVec.getLsbD_sshiftRight, BitVec.getLsbD_allOnes, BitVec.getLsbD_allOnes,
      BitVec.msb_allOnes (by omega)]
    simp [hi]
  rw [show (~~~0 : Word) = BitVec.allOnes 32 from rfl, hs, shl, Nat.mod_eq_of_lt hw]
  apply BitVec.eq_of_getLsbD_eq
  intro i hi
  rw [BitVec.getLsbD_not, BitVec.getLsbD_shiftLeft, BitVec.getLsbD_allOnes, BitVec.getLsbD_ofNat,
    Nat.testBit_two_pow_sub_one]
  by_cases h : i < w
  · simp [hi, h]
  · simp [hi, h]
    omega

theorem toNat_getBits (x : Word) {h l : Nat} (hl : l < 32) (hw : h - l + 1 < 32) :
    (getBits x h l).toNat = x.toNat / 2 ^ l % 2 ^ (h - l + 1) := by
  have hp : 2 ^ (h - l + 1) ≤ 2 ^ 32 := Nat.pow_le_pow_right (by omega) (by omega)
  have hp0 : 0 < 2 ^ (h - l + 1) := Nat.two_pow_pos _
  rw [getBits, getBits_mask hw, shr, Nat.mod_eq_of_lt hl, BitVec.toNat_and,
    BitVec.toNat_ushiftRight, Nat.shiftRight_eq_div_pow, BitVec.toNat_ofNat,
    Nat.mod_eq_of_lt (by omega), Nat.and_two_pow_sub_one_eq_mod]

theorem toNat_getBits_lt (x : Word) {h l : Nat} (hl : l < 32) (hw : h - l + 1 < 32) :
    (getBits x h l).toNat < 2 ^ (h - l + 1) := by
  rw [toNat_getBits x hl hw]
  exact Nat.mod_lt _ (Nat.two_pow_pos _)

/-- A field of the word, as a number. -/
theorem field_of_getBits {x v : Word} {h l : Nat} (hl : l < 32) (hw : h - l + 1 < 32)
    (e : getBits x h l = v) : x.toNat / 2 ^ l % 2 ^ (h - l + 1) = v.toNat := by
  rw [← toNat_getBits x hl hw, e]

theorem getBits_congr {x y : Word} {h l : Nat} (hl : l < 32) (hw : h - l + 1 < 32)
    (e : x.toNat / 2 ^ l % 2 ^ (h - l + 1) = y.toNat / 2 ^ l % 2 ^ (h - l + 1)) :
    getBits x h l = getBits y h l := by
  apply BitVec.eq_of_toNat_eq
  rw [toNat_getBits x hl hw, toNat_getBits y hl hw, e]

/-! ### Setting one bit -/

theorem getLsbD_one_shl {i : Nat} (h : i < 32) (j : Nat) :
    (shl 1 i).getLsbD j = decide (j = i) := by
  have h1 : (1 : Word) <<< i = BitVec.twoPow 32 i := by rw [BitVec.twoPow_eq]; rfl
  rw [shl, Nat.mod_eq_of_lt h, h1, BitVec.getLsbD_twoPow]
  simp [h, eq_comm]

theorem getLsbD_setBit (x : Word) {i : Nat} (h : i < 32) (j : Nat) :
    (setBit x i).getLsbD j = (decide (j = i) || x.getLsbD j) := by
  rw [setBit, BitVec.getLsbD_or, getLsbD_one_shl h, Bool.or_comm]

theorem getLsbD_clrBit (x : Word) {i : Nat} (h : i < 32) (j : Nat) :
    (clrBit x i).getLsbD j = (!decide (j = i) && x.getLsbD j) := by
  rw [clrBit, BitVec.getLsbD_and, BitVec.getLsbD_not, getLsbD_one_shl h]
  by_cases hj : j < 32
  · simp [hj, Bool.and_comm]
  · simp [BitVec.getLsbD_of_ge x j (by omega)]

/-! ### Byte reversal -/

theorem reverse2_eq (x : Half) : reverse2 x = Bytes.reverse 2 x := by
  apply BitVec.eq_of_getLsbD_eq
  intro i hi
  rw [Bytes.getLsbD_reverse 2 x hi]
  interval_cases i <;> simp [reverse2]

theorem reverse4_eq (x : Word) : reverse4 x = Bytes.reverse 4 x := by
  apply BitVec.eq_of_getLsbD_eq
  intro i hi
  rw [Bytes.getLsbD_reverse 4 x hi]
  interval_cases i <;> simp [reverse4]

end Armator
