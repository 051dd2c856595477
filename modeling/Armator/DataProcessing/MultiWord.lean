import Armator.DataProcessing.Flags

/-!
# Multi-word addition

`add` with the S bit and then `adc` with the S bit, from the least significant
word up, add two numbers of any number of words: the C flag that one instruction
leaves is the carry the next one takes in.  `addChain` runs such a chain and
reads each result from its register right after its instruction.

One instruction keeps the sum (`toNat_add`, `toNat_adc`): its result and its
carry out, weighed by `2 ^ 32`, are the sum of the operands and of the carry in.
The chain is an induction over the words (`adcChain_sum`), with the carry as the
part of the state it speaks of.
-/

namespace Armator

theorem toNat_add_carryFrom (a b : Word) :
    (a + b).toNat + 2 ^ 32 * (carryFrom a b).toNat = a.toNat + b.toNat := by
  have := a.isLt
  have := b.isLt
  have h := carryFrom_iff a b
  rw [BitVec.toNat_add]
  cases hc : carryFrom a b with
  | false =>
    have : ¬2 ^ 32 ≤ a.toNat + b.toNat := fun hle => Bool.false_ne_true (hc ▸ h.mpr hle)
    simp only [Bool.toNat_false]
    omega
  | true =>
    have := h.mp hc
    simp only [Bool.toNat_true]
    omega

/-! ### One instruction -/

/-- **`add` keeps the sum.** -/
theorem toNat_add (p : ArmCore) {r : Fin 16} (x y : Word) (h : r ≠ 15) :
    (armReadRegister (Alu.add p r x y true) r).toNat + 2 ^ 32 * carry (Alu.add p r x y true)
      = x.toNat + y.toNat := by
  rw [Alu.add, Alu.aluWrite_flags _ _ _ h, updateFlags3, armReadRegister_writeCpsr,
    armReadRegister_write_same _ _ h, carry, armReadCpsr_writeCpsr, bit_setFlags_c]
  exact toNat_add_carryFrom x y

/-- **`adc` keeps the sum**, the carry in included.  At most one of the two
partial additions carries. -/
theorem toNat_adc (p : ArmCore) {r : Fin 16} (x y : Word) (h : r ≠ 15) :
    (armReadRegister (Alu.adc p r x y true) r).toNat + 2 ^ 32 * carry (Alu.adc p r x y true)
      = x.toNat + y.toNat + carry p := by
  have hc := carry_le p
  have h1 := toNat_add_carryFrom x y
  have h2 := toNat_add_carryFrom (x + y) (getBit (armReadCpsr p) flagC)
  rw [toNat_carry] at h2
  rw [Alu.adc, Alu.aluWrite_flags _ _ _ h, Alu.adcFlags, armReadRegister_writeCpsr,
    armReadRegister_write_same _ _ h, carry, armReadCpsr_writeCpsr, bit_setFlags_c,
    armReadCpsr_writeRegister]
  have hx := x.isLt
  have hy := y.isLt
  have hs := (x + y + getBit (armReadCpsr p) flagC).isLt
  cases hf : carryFrom x y <;> cases hg : carryFrom (x + y) (getBit (armReadCpsr p) flagC) <;>
    simp only [hf, hg, Bool.toNat_false, Bool.toNat_true, Bool.or_false,
      Bool.or_true] at h1 h2 ⊢ <;> omega

/-! ### The chain -/

/-- One word of the addition: the register of its result and the two operands. -/
structure Limb where
  r : Fin 16
  x : Word
  y : Word

/-- Runs `op` on one word and reads its result. -/
def limbStep (op : ArmCore → Fin 16 → Word → Word → Bool → ArmCore) (p : ArmCore) (t : Limb) :
    Word × ArmCore :=
  let q := op p t.r t.x t.y true
  (armReadRegister q t.r, q)

def adcChain : ArmCore → List Limb → List Word × ArmCore
  | p, [] => ([], p)
  | p, t :: l =>
    let (w, q) := limbStep Alu.adc p t
    let (ws, q) := adcChain q l
    (w :: ws, q)

def addChain (p : ArmCore) (t : Limb) (l : List Limb) : List Word × ArmCore :=
  let (w, q) := limbStep Alu.add p t
  let (ws, q) := adcChain q l
  (w :: ws, q)

/-- The number that a list of words stands for, least significant first. -/
def number (ws : List Word) : Nat := Nat.ofDigits (2 ^ 32) (ws.map BitVec.toNat)

theorem number_cons (w : Word) (ws : List Word) :
    number (w :: ws) = w.toNat + 2 ^ 32 * number ws := by
  simp [number, Nat.ofDigits_cons]

theorem radix_succ (n : Nat) : 2 ^ (32 * (n + 1)) = 2 ^ 32 * 2 ^ (32 * n) := by
  rw [Nat.mul_succ, Nat.pow_add, Nat.mul_comm]

theorem number_lt (ws : List Word) : number ws < 2 ^ (32 * ws.length) := by
  induction ws with
  | nil => simp [number]
  | cons w ws ih =>
    have := w.isLt
    rw [number_cons, List.length_cons, radix_succ]
    omega

/-- **The chain keeps the sum**, by induction over the words: what one `adc`
carries out is what the next takes in. -/
theorem adcChain_sum : ∀ (l : List Limb) (p : ArmCore), (∀ t ∈ l, t.r ≠ 15) →
    (adcChain p l).1.length = l.length ∧
      number (adcChain p l).1 + 2 ^ (32 * l.length) * carry (adcChain p l).2
        = number (l.map Limb.x) + number (l.map Limb.y) + carry p := by
  intro l
  induction l with
  | nil => intro p _; simp [adcChain, number]
  | cons t l ih =>
    intro p h
    have hstep := toNat_adc p t.x t.y (h t (List.mem_cons_self ..))
    obtain ⟨hlen, hsum⟩ := ih (Alu.adc p t.r t.x t.y true) fun u hu => h u (List.mem_cons_of_mem t hu)
    simp only [adcChain, limbStep, List.map_cons, number_cons, List.length_cons]
    refine ⟨by rw [hlen], ?_⟩
    rw [radix_succ]
    linear_combination hstep + 2 ^ 32 * hsum

theorem addChain_sum (p : ArmCore) (t : Limb) (l : List Limb) (h : ∀ u ∈ t :: l, u.r ≠ 15) :
    (addChain p t l).1.length = l.length + 1 ∧
      number (addChain p t l).1 + 2 ^ (32 * (l.length + 1)) * carry (addChain p t l).2
        = number ((t :: l).map Limb.x) + number ((t :: l).map Limb.y) := by
  have hstep := toNat_add p t.x t.y (h t (List.mem_cons_self ..))
  obtain ⟨hlen, hsum⟩ :=
    adcChain_sum l (Alu.add p t.r t.x t.y true) fun u hu => h u (List.mem_cons_of_mem t hu)
  simp only [addChain, limbStep, List.map_cons, number_cons, List.length_cons]
  refine ⟨by rw [hlen], ?_⟩
  rw [radix_succ]
  linear_combination hstep + 2 ^ 32 * hsum

/-- **A chain of `add` and `adc` adds numbers of any length**: the results are
the words of the sum modulo `2 ^ (32 * n)`, and C is the carry out of it. -/
theorem addChain_correct (p : ArmCore) (t : Limb) (l : List Limb)
    (h : ∀ u ∈ t :: l, u.r ≠ 15) :
    let n := l.length + 1
    let sum := number ((t :: l).map Limb.x) + number ((t :: l).map Limb.y)
    (addChain p t l).1.length = n ∧ number (addChain p t l).1 = sum % 2 ^ (32 * n) ∧
      carry (addChain p t l).2 = sum / 2 ^ (32 * n) := by
  obtain ⟨hlen, hsum⟩ := addChain_sum p t l h
  have hlt := number_lt (addChain p t l).1
  rw [hlen] at hlt
  refine ⟨hlen, ?_, ?_⟩
  · rw [← hsum, Nat.add_mul_mod_self_left, Nat.mod_eq_of_lt hlt]
  · rw [← hsum, Nat.add_mul_div_left _ _ (Nat.two_pow_pos _), Nat.div_eq_of_lt hlt, Nat.zero_add]

/-- `2 ^ 64 - 1` and 1: both words are 0, and the carry comes out. -/
theorem addChain_two_words :
    let chain := addChain (coreOfWord 0) ⟨0, 0xFFFFFFFF, 1⟩ [⟨1, 0xFFFFFFFF, 0⟩]
    chain.1.length = 2 ∧ number chain.1 = 0 ∧ carry chain.2 = 1 := by
  obtain ⟨hlen, hsum, hcarry⟩ :=
    addChain_correct (coreOfWord 0) ⟨0, 0xFFFFFFFF, 1⟩ [⟨1, 0xFFFFFFFF, 0⟩] (by decide)
  exact ⟨hlen, hsum.trans (by decide +kernel), hcarry.trans (by decide +kernel)⟩

end Armator
