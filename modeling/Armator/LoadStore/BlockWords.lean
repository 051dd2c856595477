import Armator.Instruction.Aborts

/-!
# The words of a block

What a block transfer without the S bit does, word by word: the `k`-th listed register
is transferred at `blockAddress p ins k`.

* Upwards, `stm` stores every register whose word lies in the memory, and `ldm` loads
  every one where they all do (`incrementing_block`).
* Where they do not, `ldm` writes the listed registers all the same.  A register whose
  word cannot be read gets the word before it (`lastRead`), and keeps its own exactly
  when that is the same (`keepsUnread_iff`).
-/

namespace Armator

/-- The address of the `k`-th listed register. -/
def blockAddress (p : ArmCore) (ins : Word) (k : Nat) : Word :=
  (blockBegin p ins).address + (k : Word) * blockStep ins

theorem ldm_eq_of_plain {p : ArmCore} {ins : Word} (h22 : bit ins 22 = false)
    (h21 : bit ins 21 = false) :
    ldm p ins =
      .ok (if (ldmTransfer ins (blockBegin p ins)).failed then Exception.dataAbort else 0,
        (ldmBlock armWriteRegister (blockStep ins) (blockBegin p ins) (registerList ins)).p) := by
  rw [ldm_eq p ins (by rw [h22]; rfl), ldmTransfer_eq h22]
  simp only [blockEnd, h21]
  split <;> rfl

/-! ### Aborting loads -/

/-- An `ldm` that aborts leaves the listed registers whose words lie outside the memory
as they were. -/
def KeepsUnread (p : ArmCore) (ins : Word) : Prop :=
  ∀ q, ldm p ins = .ok (Exception.dataAbort, q) →
    ∀ k (hk : k < (registerList ins).length),
      ¬ (⟨blockAddress p ins k, 4⟩ : DataAccess).InMemory p.mem →
      readRegister q.reg (registerList ins)[k] = readRegister p.reg (registerList ins)[k]

theorem armReadWord_eq_none_iff (p : ArmCore) (a : Word) :
    armReadWord p a = none ↔ p.mem.admits 4 a = false := by
  rw [← Option.isNone_iff_eq_none, armReadWord_isNone, Bool.not_eq_true']

theorem ldm_unread {p : ArmCore} {ins : Word} {k : Nat} (hk : k < (registerList ins).length)
    (h : armReadWord p (blockAddress p ins k) = none) :
    readRegister (ldmBlock armWriteRegister (blockStep ins) (blockBegin p ins)
        (registerList ins)).p.reg (registerList ins)[k] =
      loaded (registerList ins)[k]
        (lastRead (fun k => armReadWord p (blockAddress p ins k)) 0 k) := by
  refine (ldmBlock_value (blockBegin p ins) _ (registerList_nodup ins) hk).trans ?_
  have hstep : lastRead (fun k => armReadWord p (blockAddress p ins k)) 0 (k + 1) =
      lastRead (fun k => armReadWord p (blockAddress p ins k)) 0 k := by
    rw [lastRead, h, Option.getD_none]
  exact congrArg (loaded _) hstep

section Unread

variable {p : ArmCore} {ins : Word} (h22 : bit ins 22 = false) (h21 : bit ins 21 = false)

include h22

theorem ldm_failed_iff :
    (ldmTransfer ins (blockBegin p ins)).failed = true ↔
      ∃ k < (registerList ins).length, armReadWord p (blockAddress p ins k) = none := by
  have hr : (bit ins 22 && bit ins 15) = false := by
    rw [h22]
    rfl
  have hf := ldmTransfer_failed (blockBegin p ins) hr
  rw [← not_iff_not, Bool.not_eq_true, hf]
  simp only [armReadWord_eq_none_iff, not_exists, not_and, Bool.not_eq_false]
  exact and_iff_right rfl

include h21

theorem ldm_aborts_iff {q : ArmCore} :
    ldm p ins = .ok (Exception.dataAbort, q) ↔
      (∃ k < (registerList ins).length, armReadWord p (blockAddress p ins k) = none) ∧
        q = (ldmBlock armWriteRegister (blockStep ins) (blockBegin p ins) (registerList ins)).p := by
  rw [ldm_eq_of_plain h22 h21, ← ldm_failed_iff h22]
  cases (ldmTransfer ins (blockBegin p ins)).failed with
  | true =>
    constructor
    · intro h
      cases h
      exact ⟨rfl, rfl⟩
    · rintro ⟨-, rfl⟩
      rfl
  | false =>
    constructor
    · intro h
      have h0 : (0 : Int) = Exception.dataAbort := congrArg Prod.fst (Except.ok.inj h)
      exact absurd h0 (by decide)
    · rintro ⟨h, -⟩
      cases h

end Unread

/-- **When an aborting `ldm` keeps the registers that it cannot load**: exactly when
each of them holds already the last word of the block that could be read before it, or
0 where there is none. -/
theorem keepsUnread_iff (p : ArmCore) (ins : Word) (h22 : bit ins 22 = false)
    (h21 : bit ins 21 = false) :
    KeepsUnread p ins ↔
      ∀ k (hk : k < (registerList ins).length), armReadWord p (blockAddress p ins k) = none →
        readRegister p.reg (registerList ins)[k] =
          loaded (registerList ins)[k]
            (lastRead (fun k => armReadWord p (blockAddress p ins k)) 0 k) := by
  constructor
  · intro h k hk hnone
    have hout : ¬ (⟨blockAddress p ins k, 4⟩ : DataAccess).InMemory p.mem := by
      intro hin
      have hadm := admits_of_inMemory _ (by decide) hin
      rw [(armReadWord_eq_none_iff p _).mp hnone] at hadm
      cases hadm
    have hkeep := h _ ((ldm_aborts_iff h22 h21).mpr ⟨⟨k, hk, hnone⟩, rfl⟩) k hk hout
    rw [← hkeep, ldm_unread hk hnone]
  · intro h q hq k hk hout
    obtain ⟨⟨j, -, hj⟩, rfl⟩ := (ldm_aborts_iff h22 h21).mp hq
    have hsize := size_of_refused ((armReadWord_eq_none_iff p _).mp hj)
    have hnone : armReadWord p (blockAddress p ins k) = none := by
      rw [armReadWord_eq_none_iff, ← Bool.not_eq_true,
        admits_iff (n := 4) (by omega) (by decide)]
      exact hout
    rw [ldm_unread hk hnone, h k hk hnone]

/-- `ldmia r0, {r1, r2}` at the last word of the memory, which r2 holds already -/
theorem keepsUnread_last :
    KeepsUnread (armWriteRegister (armWriteRegister (coreOfWord 7) 1 3) 2 7) 0xE8900006 :=
  (keepsUnread_iff _ 0xE8900006 (by decide) (by decide)).mpr (by decide +kernel)

/-- `ldmia r0, {r1, r2}` at the last word of the memory: r2 gets the word of r1. -/
theorem ldm_repeats_last_word :
    ¬ ∀ (p : ArmCore) (ins : Word), bit ins 22 = false → bit ins 21 = false →
      KeepsUnread p ins := by
  intro h
  have hk := h (coreOfWord 7) 0xE8900006 (by decide) (by decide)
  have hq := hk _ ((ldm_aborts_iff (by decide) (by decide)).mpr
    ⟨⟨1, by decide +kernel, by decide +kernel⟩, rfl⟩)
  have hr := hq 1 (by decide +kernel) (by unfold DataAccess.InMemory; decide +kernel)
  revert hr
  decide +kernel

/-! ### Incrementing blocks -/

/-- The words of an incrementing block: from the base on, or from behind it with the P
bit. -/
def incrementAddress (p : ArmCore) (ins : Word) (k : Nat) : Word :=
  armReadRegister p (regNum (getBits ins 19 16)) + (if bit ins 24 then 4 else 0) +
    BitVec.ofNat 32 (4 * k)

/-- `q` is `p` with the words of the block in the listed registers. -/
structure BlockLoaded (p q : ArmCore) (ins : Word) : Prop where
  words : ∀ k (hk : k < (registerList ins).length),
    ∃ v, armReadWord p (incrementAddress p ins k) = some v ∧
      readRegister q.reg (registerList ins)[k] = loaded (registerList ins)[k] v
  registers : ∀ c, (∀ i ∈ registerList ins, c ≠ cell (getModeNum p.reg) i.castSucc) →
    q.reg.registers c = p.reg.registers c
  mode : q.reg.mode = p.reg.mode
  mem : q.mem = p.mem

theorem blockAddress_of_up (p : ArmCore) {ins : Word} (h : bit ins 23 = true) (k : Nat) :
    blockAddress p ins k = incrementAddress p ins k := by
  have hstep : blockStep ins = 4 := by
    rw [blockStep, if_pos h]
  have hk : (k : Word) * 4 = BitVec.ofNat 32 (4 * k) := by
    apply BitVec.eq_of_toNat_eq
    rw [BitVec.toNat_mul, BitVec.natCast_eq_ofNat, BitVec.toNat_ofNat, BitVec.toNat_ofNat,
      show (4 : Word).toNat = 4 from rfl]
    omega
  rw [blockAddress, incrementAddress, hstep, hk, blockBegin, blockStart, hstep]
  cases bit ins 24 with
  | false => simp
  | true => simp

section Incrementing

variable {p : ArmCore} {ins : Word} (hs : 4 ≤ p.mem.size.toNat) (h22 : bit ins 22 = false)

include hs

theorem admits_iff_inMemory (a : Word) :
    p.mem.admits 4 a = true ↔ (⟨a, 4⟩ : DataAccess).InMemory p.mem :=
  admits_iff (by omega) (by decide) a

include h22

theorem stm_aborts_iff :
    (stm p ins).1 = Exception.dataAbort ↔
      ∃ k < (registerList ins).length,
        ¬ (⟨blockAddress p ins k, 4⟩ : DataAccess).InMemory p.mem := by
  rw [stm_eq h22, blockEnd_abort_iff, stmBlock_failed, ← not_iff_not, not_not]
  simp only [← admits_iff_inMemory hs, not_exists, not_and, not_not]
  exact and_iff_right rfl

/-- **A block in the memory is loaded entirely.** -/
theorem ldm_loads (h21 : bit ins 21 = false) (h23 : bit ins 23 = true)
    (hin : ∀ k < (registerList ins).length,
      (⟨blockAddress p ins k, 4⟩ : DataAccess).InMemory p.mem) :
    ∃ q, ldm p ins = .ok (0, q) ∧ BlockLoaded p q ins := by
  have hok : ¬ (ldmTransfer ins (blockBegin p ins)).failed = true := by
    rw [ldm_failed_iff h22]
    rintro ⟨k, hk, hnone⟩
    have hadm := (admits_iff_inMemory hs _).mpr (hin k hk)
    rw [(armReadWord_eq_none_iff p _).mp hnone] at hadm
    cases hadm
  obtain ⟨hmem, hmode, hreg⟩ := @ldmBlock_frame (blockStep ins) (blockBegin p ins)
    (registerList ins)
  refine ⟨_, (ldm_eq_of_plain h22 h21).trans (by rw [if_neg hok]), ?_, hreg, hmode, hmem⟩
  intro k hk
  cases hv : armReadWord p (blockAddress p ins k) with
  | none => exact absurd ((ldm_failed_iff h22).mpr ⟨k, hk, hv⟩) hok
  | some v =>
    refine ⟨v, (congrArg (armReadWord p) (blockAddress_of_up p h23 k)).symm.trans hv, ?_⟩
    exact ldmBlock_register (blockBegin p ins) _ (registerList_nodup ins) hk hv

end Incrementing

/-- **Incrementing block transfers.**  `stm` stores the `k`-th listed register in the
`k`-th word from the start wherever this lies in the memory, and aborts exactly when one
does not; when they all do, `ldm` loads the listed registers with them, the base among
them, and changes nothing else. -/
theorem incrementing_block (p : ArmCore) (ins : Word) (hs : 4 ≤ p.mem.size.toNat)
    (h22 : bit ins 22 = false) (h23 : bit ins 23 = true) :
    (∀ k (hk : k < (registerList ins).length),
      (⟨incrementAddress p ins k, 4⟩ : DataAccess).InMemory p.mem →
      armReadWord (stm p ins).2 (incrementAddress p ins k) =
        some (armReadRegister p (registerList ins)[k])) ∧
    ((stm p ins).1 = Exception.dataAbort ↔
      ∃ k < (registerList ins).length,
        ¬ (⟨incrementAddress p ins k, 4⟩ : DataAccess).InMemory p.mem) ∧
    ((∀ k < (registerList ins).length,
        (⟨incrementAddress p ins k, 4⟩ : DataAccess).InMemory p.mem) → bit ins 21 = false →
      ∃ q, ldm p ins = .ok (0, q) ∧ BlockLoaded p q ins) := by
  simp only [← blockAddress_of_up p h23]
  refine ⟨?_, stm_aborts_iff hs h22, ?_⟩
  · intro k hk hin
    exact stm_word h22 hk ((admits_iff_inMemory hs _).mpr hin)
  · intro hin h21
    exact ldm_loads hs h22 h21 h23 hin

/-- `stmia r0, {r1, r15}` and `ldmib r0, {r0}` -/
theorem incrementing_block_pair :
    (stm (coreOfWord 0) 0xE8808002).1 = Exception.dataAbort ∧
      ∃ q, ldm (armWriteRegister (coreOfWord 9) 0 (-4)) 0xE9900001 = .ok (0, q) ∧
        BlockLoaded (armWriteRegister (coreOfWord 9) 0 (-4)) q 0xE9900001 :=
  ⟨(incrementing_block (coreOfWord 0) 0xE8808002 (by decide) (by decide) (by decide)).2.1.mpr
      ⟨1, by decide +kernel, by unfold DataAccess.InMemory; decide +kernel⟩,
    (incrementing_block (armWriteRegister (coreOfWord 9) 0 (-4)) 0xE9900001 (by decide) (by decide)
      (by decide)).2.2 (by unfold DataAccess.InMemory; decide +kernel) (by decide)⟩

end Armator
