import Armator.Instruction.Aborts
import Armator.LoadStore.Stack

/-!
# The footprint of the block transfers

Where a block transfer of `n` registers can write, and where it leaves its base.
The block is the `n` words from `blockLow` up, modulo 2^32, whichever way the loop
walks it (`exists_blockLow`).

* An `ldm` changes no byte of the memory (`ldmBlock_keeps`).
* An `stm` changes only bytes of words of the block that lie in the memory
  (`stmBlock_footprint`), by induction over the list.
* With the W bit the base register ends `n` words up or down (`blockFinal`), aborted
  or not and listed or not: the write-back comes last.
-/

namespace Armator

/-- The value of the base register that a block transfer starts from. -/
def baseValue (p : ArmCore) (ins : Word) : Word := armReadRegister p (baseRegister ins)

/-- The lowest address of a block of `n` words, for IA, IB, DA and DB. -/
def blockLow (ins base : Word) (n : Nat) : Word :=
  match bit ins 24, bit ins 23 with
  | false, true => base
  | true, true => base + 4
  | false, false => base - 4 * (n : Word) + 4
  | true, false => base - 4 * (n : Word)

def blockFinal (ins base : Word) (n : Nat) : Word :=
  if bit ins 23 then base + 4 * (n : Word) else base - 4 * (n : Word)

/-- The `k`-th word of the block of `n` words, from its lowest address up. -/
def blockWord (ins base : Word) (n k : Nat) : DataAccess := ⟨blockLow ins base n + 4 * (k : Word), 4⟩

def DataAccess.Covers (a : DataAccess) (j : Nat) : Prop :=
  a.address.toNat ≤ j ∧ j < a.address.toNat + a.width

/-! ### The addresses of a block -/

theorem blockFinal_eq (ins base : Word) (n : Nat) :
    blockFinal ins base n = base + (n : Word) * blockStep ins := by
  rw [blockFinal, blockStep]
  cases bit ins 23 with
  | true =>
    simp only [if_true]
    ring
  | false =>
    simp only [Bool.false_eq_true, if_false]
    ring

/-- **The addresses of the loop are the words of the block**, from its lowest address
up or from its highest down. -/
theorem exists_blockLow (ins base : Word) {n i : Nat} (hi : i < n) :
    ∃ k < n, blockStart ins base + (i : Word) * blockStep ins = (blockWord ins base n k).address := by
  simp only [blockWord, blockLow, blockStart, blockStep]
  cases bit ins 23 with
  | true =>
    refine ⟨i, hi, ?_⟩
    cases bit ins 24 with
    | true => simp only [if_true]; ring
    | false => simp only [if_true, Bool.false_eq_true, if_false]; ring
  | false =>
    obtain ⟨j, rfl⟩ : ∃ j, n = j + i + 1 := ⟨n - 1 - i, by omega⟩
    refine ⟨j, by omega, ?_⟩
    rw [Nat.cast_succ, Nat.cast_add]
    cases bit ins 24 with
    | true => simp only [if_true, Bool.false_eq_true, if_false]; ring
    | false => simp only [Bool.false_eq_true, if_false]; ring

/-! ### The memory -/

/-- One register of `stm` changes only its own word, where the memory admits it. -/
theorem stmRegister_footprint {read : ArmCore → Fin 16 → Word} {delta : Word} (b : Block)
    (i : Fin 16) {j : Nat} (h : (stmRegister read delta b i).p.mem.memory j ≠ b.p.mem.memory j) :
    b.p.mem.admits 4 b.address = true ∧ (⟨b.address, 4⟩ : DataAccess).Covers j := by
  have hp : (stmRegister read delta b i).p = (armWriteWord b.p b.address (read b.p i)).2 := rfl
  rw [hp] at h
  cases ha : b.p.mem.admits 4 b.address with
  | false =>
    rw [armWriteWord_refused _ ha] at h
    exact absurd rfl h
  | true =>
    refine ⟨rfl, ?_⟩
    rw [armWriteWord_admitted _ ha] at h
    by_contra hc
    refine h (Bytes.store_of_not_mem _ _ _ _ ?_)
    simp only [DataAccess.Covers] at hc
    omega

theorem armWriteWord_frame (p : ArmCore) (address value : Word) :
    (armWriteWord p address value).2.mem.size = p.mem.size ∧
      (armWriteWord p address value).2.mem.isBigEndian = p.mem.isBigEndian := by
  cases ha : p.mem.admits 4 address with
  | false => rw [armWriteWord_refused _ ha]; exact ⟨rfl, rfl⟩
  | true => rw [armWriteWord_admitted _ ha]; exact ⟨rfl, rfl⟩

theorem stmBlock_keeps {read : ArmCore → Fin 16 → Word} {delta : Word} (b : Block)
    (l : List (Fin 16)) :
    (stmBlock read delta b l).p.mem.size = b.p.mem.size ∧
      (stmBlock read delta b l).p.mem.isBigEndian = b.p.mem.isBigEndian ∧
      (stmBlock read delta b l).p.reg = b.p.reg := by
  induction l generalizing b with
  | nil => exact ⟨rfl, rfl, rfl⟩
  | cons i l ih =>
    obtain ⟨hs, he, hr⟩ := ih (stmRegister read delta b i)
    obtain ⟨hs', he'⟩ := armWriteWord_frame b.p b.address (read b.p i)
    exact ⟨hs.trans hs', he.trans he', hr⟩

/-- **An `stm` changes only admitted words of its block.** -/
theorem stmBlock_footprint {read : ArmCore → Fin 16 → Word} {delta : Word} (b : Block)
    (l : List (Fin 16)) {j : Nat}
    (h : (stmBlock read delta b l).p.mem.memory j ≠ b.p.mem.memory j) :
    ∃ k < l.length, b.p.mem.admits 4 (b.address + (k : Word) * delta) = true ∧
      (⟨b.address + (k : Word) * delta, 4⟩ : DataAccess).Covers j := by
  induction l generalizing b with
  | nil => exact absurd rfl h
  | cons i l ih =>
    by_cases hi : (stmRegister read delta b i).p.mem.memory j = b.p.mem.memory j
    · -- a later register changed it
      obtain ⟨k, hk, hadm, hcov⟩ := ih (stmRegister read delta b i) (by rw [hi]; exact h)
      simp only [stmRegister, armWriteWord_admits, address_succ] at hadm hcov
      exact ⟨k + 1, Nat.succ_lt_succ hk, hadm, hcov⟩
    · obtain ⟨hadm, hcov⟩ := stmRegister_footprint b i hi
      refine ⟨0, Nat.succ_pos _, ?_⟩
      rw [Nat.cast_zero, zero_mul, add_zero]
      exact ⟨hadm, hcov⟩

/-- An `ldm` that does not restore the CPSR, with either access to the registers. -/
theorem ldmBlock_keeps (write : ArmCore → Fin 16 → Word → ArmCore) {delta : Word}
    (hw : ∀ p i v, (write p i v).mem = p.mem ∧ (write p i v).reg.mode = p.reg.mode) (b : Block)
    (l : List (Fin 16)) :
    (ldmBlock write delta b l).p.mem = b.p.mem ∧
      (ldmBlock write delta b l).p.reg.mode = b.p.reg.mode ∧
      (ldmBlock write delta b l).address = b.address + (l.length : Word) * delta := by
  induction l generalizing b with
  | nil => exact ⟨rfl, rfl, by simp [ldmBlock]⟩
  | cons i l ih =>
    obtain ⟨hmem, hmode, haddr⟩ := ih (ldmRegister write (loaded i) delta b i)
    refine ⟨hmem.trans (hw _ _ _).1, hmode.trans (hw _ _ _).2, ?_⟩
    rw [List.length_cons, ← address_succ]
    exact haddr

theorem ldmTransfer_keeps {ins : Word} (b : Block) (h : (bit ins 22 && bit ins 15) = false) :
    (ldmTransfer ins b).p.mem = b.p.mem ∧ (ldmTransfer ins b).p.reg.mode = b.p.reg.mode ∧
      (ldmTransfer ins b).address =
        b.address + ((registerList ins).length : Word) * blockStep ins := by
  cases h22 : bit ins 22 with
  | false =>
    rw [ldmTransfer_eq h22]
    exact ldmBlock_keeps armWriteRegister (fun _ _ _ => ⟨rfl, rfl⟩) b _
  | true =>
    rw [h22, Bool.true_and] at h
    simp only [ldmTransfer, h22, h, Bool.not_true, Bool.not_false, Bool.and_true,
      Bool.false_eq_true, if_false, if_true, ldmLoop_eq]
    exact ldmBlock_keeps armWriteUsrRegister (fun _ _ _ => ⟨rfl, rfl⟩) b _

/-! ### The write-back -/

theorem blockEnd_keeps (ins : Word) (b : Block) :
    (blockEnd ins b).2.mem = b.p.mem ∧ (blockEnd ins b).2.reg.mode = b.p.reg.mode := by
  simp only [blockEnd]
  split <;> split <;> exact ⟨rfl, rfl⟩

/-- The base register after the write-back, for a block that ends `n` words on. -/
theorem base_blockEnd {p : ArmCore} {ins : Word} (h21 : bit ins 21 = true) {b : Block} {n : Nat}
    (hb : b.address = (blockBegin p ins).address + (n : Word) * blockStep ins) :
    readRegister (blockEnd ins b).2.reg (baseRegister ins) =
      blockFinal ins (baseValue p ins) n := by
  rw [blockEnd_of_writeBack h21, blockFinal_eq, hb]
  refine (readRegister_write_same _ _ _).trans ?_
  exact blockBase_blockStart ..

/-! ### The footprint -/

/-- The memory `m'` differs from `m` only in bytes of words of the block, each of them
in the memory. -/
structure ChangesOnlyBlock (m m' : Memory) (ins base : Word) : Prop where
  size_eq : m'.size = m.size
  isBigEndian_eq : m'.isBigEndian = m.isBigEndian
  changed : ∀ j, m'.memory j ≠ m.memory j →
    ∃ k < (registerList ins).length,
      (blockWord ins base (registerList ins).length k).InMemory m ∧
        (blockWord ins base (registerList ins).length k).Covers j

/-- With the W bit, the base register of the mode that was and still is the current
one holds the base moved over the block. -/
structure WritesBack (p q : ArmCore) (ins : Word) : Prop where
  mode_eq : q.reg.mode = p.reg.mode
  base_eq : bit ins 21 = true →
    readRegister q.reg (baseRegister ins) =
      blockFinal ins (baseValue p ins) (registerList ins).length

theorem stm_writesBack (p : ArmCore) (ins : Word) : WritesBack p (stm p ins).2 ins := by
  simp only [stm, stmLoop_eq]
  refine ⟨?_, fun h21 => base_blockEnd h21 (stmBlock_address _ _)⟩
  rw [(blockEnd_keeps ins _).2, (stmBlock_keeps _ _).2.2]

theorem stm_changesOnlyBlock {p : ArmCore} (ins : Word) (hs : 4 ≤ p.mem.size.toNat) :
    ChangesOnlyBlock p.mem (stm p ins).2.mem ins (baseValue p ins) := by
  simp only [stm, stmLoop_eq, (blockEnd_keeps ins _).1]
  obtain ⟨hsize, horder, -⟩ := @stmBlock_keeps
    (if bit ins 22 then armReadUsrRegister else armReadRegister) (blockStep ins)
    (blockBegin p ins) (registerList ins)
  refine ⟨hsize, horder, fun j hj => ?_⟩
  obtain ⟨i, hi, hadm, hcov⟩ := stmBlock_footprint (blockBegin p ins) _ hj
  obtain ⟨k, hk, he⟩ := exists_blockLow ins (baseValue p ins) hi
  have hn : 4 ≤ (blockBegin p ins).p.mem.size.toNat + 1 := Nat.le_succ_of_le hs
  have hin := (admits_iff hn (by omega) _).mp hadm
  have ha : (blockBegin p ins).address + (i : Word) * blockStep ins =
      (blockWord ins (baseValue p ins) (registerList ins).length k).address := he
  rw [ha] at hin hcov
  exact ⟨k, hk, hin, hcov⟩

theorem ldm_keeps_memory {p : ArmCore} {ins : Word} (h : (bit ins 22 && bit ins 15) = false) :
    ∃ r q, ldm p ins = .ok (r, q) ∧ q.mem = p.mem ∧ WritesBack p q ins := by
  obtain ⟨hmem, hmode, haddr⟩ := ldmTransfer_keeps (blockBegin p ins) h
  obtain ⟨hmem', hmode'⟩ := blockEnd_keeps ins (ldmTransfer ins (blockBegin p ins))
  refine ⟨_, _, ldm_eq p ins h, hmem'.trans hmem, hmode'.trans hmode, fun h21 => ?_⟩
  exact base_blockEnd h21 haddr

/-- **The footprint and the write-back of the block transfers**, in every addressing
mode, with either value of the S bit and for every list.  An `ldm` that does not
restore the CPSR changes no byte of the memory; an `stm` changes only bytes of the
words of its block that lie in the memory; and with the W bit both leave in the base
register the base moved over the block, whether or not the transfer aborts. -/
theorem block_footprint (p : ArmCore) (ins : Word) (hs : 4 ≤ p.mem.size.toNat) :
    ((bit ins 22 && bit ins 15) = false →
      ∃ r q, ldm p ins = .ok (r, q) ∧ q.mem = p.mem ∧ WritesBack p q ins) ∧
    ChangesOnlyBlock p.mem (stm p ins).2.mem ins (baseValue p ins) ∧
    WritesBack p (stm p ins).2 ins :=
  ⟨ldm_keeps_memory, stm_changesOnlyBlock ins hs, stm_writesBack p ins⟩

/-- `stmdb r0!, {r0, r1}` with the base at 4: the second word wraps around and aborts. -/
theorem block_footprint_wrapped :
    (stm (armWriteRegister (coreOfWord 9) 0 4) 0xE9200003).1 = Exception.dataAbort ∧
      readRegister (stm (armWriteRegister (coreOfWord 9) 0 4) 0xE9200003).2.reg 0 =
        0xFFFFFFFC := by
  refine ⟨by decide +kernel, ?_⟩
  have h := (block_footprint (armWriteRegister (coreOfWord 9) 0 4) 0xE9200003 (by decide)).2.2
  exact (h.base_eq (by decide)).trans (by decide +kernel)

end Armator
