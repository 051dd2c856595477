import Armator.Instruction
import Armator.LoadStore.Block

/-!
# Data aborts

The data accesses that an instruction makes (`dataAccesses`): one for a single
transfer, one for each listed register of a block transfer, none for the others.
An `ldm` with the S bit and r15 in its list transfers nothing.

In a memory of at least four bytes the checks of `memory.c` do not wrap around, and
an instruction returns `DATA_ABORT` exactly when one of its accesses does not lie
in the memory (`armDispatch_dataAbort_iff`).
-/

namespace Armator

/-- An access of some bytes at an address. -/
structure DataAccess where
  address : Word
  width : Nat

/-- The access lies in the memory. -/
def DataAccess.InMemory (m : Memory) (a : DataAccess) : Prop :=
  a.address.toNat + a.width ≤ m.size.toNat

/-- The access of a single transfer. -/
def singleAccess (p : ArmCore) (ins : Word) : DataAccess :=
  let rnCont := armReadRegister p (regNum (getBits ins 19 16))
  if bit ins 26 then
    ⟨accessAddress rnCont (decodeOff p ins) (bit ins 24) (bit ins 23), if bit ins 22 then 1 else 4⟩
  else ⟨accessAddress rnCont (decodeOffH p ins) (bit ins 24) (bit ins 23), 2⟩

/-- The accesses of a block transfer. -/
def blockAccesses (p : ArmCore) (ins : Word) : List DataAccess :=
  if bit ins 20 && bit ins 22 && bit ins 15 then []
  else
    (List.range (registerList ins).length).map fun (k : Nat) =>
      ⟨blockStart ins (armReadRegister p (regNum (getBits ins 19 16))) +
        (k : Word) * blockStep ins, 4⟩

/-- The data accesses of an instruction. -/
def dataAccesses (p : ArmCore) (ins : Word) : List DataAccess :=
  match (getBits ins 27 25).toNat with
  | 0b000 => if bit ins 7 ∧ bit ins 4 then [singleAccess p ins] else []
  | 0b010 => [singleAccess p ins]
  | 0b011 => [singleAccess p ins]
  | 0b100 => blockAccesses p ins
  | _ => []

/-- The instruction makes a data access that does not lie in the memory. -/
def Faults (p : ArmCore) (ins : Word) : Prop :=
  ∃ a ∈ dataAccesses p ins, ¬ a.InMemory p.mem

/-- The execution goes through with the result `r`. -/
def Returns (x : Except Halt (Int × ArmCore)) (r : Int) : Prop := ∃ q, x = .ok (r, q)

theorem returns_ok_iff {x : Int × ArmCore} {r : Int} : Returns (.ok x) r ↔ x.1 = r := by
  constructor
  · rintro ⟨q, h⟩
    rw [Except.ok.inj h]
  · intro h
    exact ⟨x.2, by rw [← h]⟩

/-! ### Single transfers -/

section Single

variable (p : ArmCore) (rn : Fin 16) (off : Word) (pBit uBit wBit : Bool)

theorem storeSingle_abort_iff (write : ArmCore → Word → Int × ArmCore) :
    (storeSingle write p rn off pBit uBit wBit).1 = Exception.dataAbort ↔
      (write p (accessAddress (armReadRegister p rn) off pBit uBit)).1 ≠ 0 := by
  simp only [storeSingle]
  split
  next h => exact iff_of_true rfl h
  next h => exact iff_of_false (show ¬ (0 : Int) = Exception.dataAbort by decide) h

theorem loadSingle_abort_iff {α : Type} (read : ArmCore → Word → Option α)
    (load : ArmCore → α → ArmCore) :
    (loadSingle read load p rn off pBit uBit wBit).1 = Exception.dataAbort ↔
      read p (accessAddress (armReadRegister p rn) off pBit uBit) = none := by
  simp only [loadSingle]
  split
  next h => exact iff_of_true rfl h
  next h =>
    refine iff_of_false (show ¬ (0 : Int) = Exception.dataAbort by decide) ?_
    rw [h]
    exact Option.some_ne_none _

end Single

section Checks

variable {p : ArmCore} (hs : 4 ≤ p.mem.size.toNat) (a : Word)

theorem written_status_ne_zero_iff (m : Option Memory) : (p.written m).1 ≠ 0 ↔ m = none := by
  cases m with
  | none => exact iff_of_true (show (-1 : Int) ≠ 0 by decide) rfl
  | some m => exact iff_of_false (fun h => h rfl) (Option.some_ne_none m)

/-- What lies in the memory is admitted, whatever its size. -/
theorem admits_of_inMemory {n : Nat} (h0 : 0 < n) (h : (⟨a, n⟩ : DataAccess).InMemory p.mem) :
    p.mem.admits n a = true := by
  have hle : a.toNat + n ≤ p.mem.size.toNat := h
  exact (admits_iff (by omega) h0 a).mpr hle

theorem armWriteByte_status_iff (value : Byte) :
    (armWriteByte p a value).1 ≠ 0 ↔ ¬ (⟨a, 1⟩ : DataAccess).InMemory p.mem := by
  rw [armWriteByte, written_status_ne_zero_iff, memoryWriteByte, DataAccess.InMemory]
  split
  next h => exact iff_of_false (Option.some_ne_none _) (by simpa using Nat.succ_le_of_lt h)
  next h => exact iff_of_true rfl (by simpa using h)

theorem armReadByte_none_iff :
    armReadByte p a = none ↔ ¬ (⟨a, 1⟩ : DataAccess).InMemory p.mem := by
  rw [armReadByte, memoryReadByte, DataAccess.InMemory]
  split
  next h => exact iff_of_false (Option.some_ne_none _) (by simpa using Nat.succ_le_of_lt h)
  next h => exact iff_of_true rfl (by simpa using h)

include hs

theorem admits_eq_false_iff {n : Nat} (hn : n ≤ 4) (h0 : 0 < n) :
    p.mem.admits n a = false ↔ ¬ (⟨a, n⟩ : DataAccess).InMemory p.mem := by
  rw [← Bool.not_eq_true, admits_iff (by omega) h0]
  exact Iff.rfl

theorem armWriteHalf_status_iff (value : Half) :
    (armWriteHalf p a value).1 ≠ 0 ↔ ¬ (⟨a, 2⟩ : DataAccess).InMemory p.mem := by
  rw [armWriteHalf, written_status_ne_zero_iff, memoryWriteHalf_eq,
    ← admits_eq_false_iff hs a (by omega) (by omega)]
  cases p.mem.admits 2 a <;> simp

theorem armReadHalf_none_iff :
    armReadHalf p a = none ↔ ¬ (⟨a, 2⟩ : DataAccess).InMemory p.mem := by
  rw [armReadHalf, memoryReadHalf_eq, ← admits_eq_false_iff hs a (by omega) (by omega)]
  cases p.mem.admits 2 a <;> simp

theorem armWriteWord_status_iff (value : Word) :
    (armWriteWord p a value).1 ≠ 0 ↔ ¬ (⟨a, 4⟩ : DataAccess).InMemory p.mem := by
  rw [← bne_iff_ne, armWriteWord_status, ← admits_eq_false_iff hs a (by omega) (by omega)]
  cases p.mem.admits 4 a <;> simp

theorem armReadWord_none_iff :
    armReadWord p a = none ↔ ¬ (⟨a, 4⟩ : DataAccess).InMemory p.mem := by
  rw [armReadWord, memoryReadWord_eq, ← admits_eq_false_iff hs a (by omega) (by omega)]
  cases p.mem.admits 4 a <;> simp

/-- **A single transfer aborts exactly when its access does not lie in the
memory.** -/
theorem armLoadStore_abort_iff (ins : Word) :
    (armLoadStore p ins).1 = Exception.dataAbort ↔ ¬ (singleAccess p ins).InMemory p.mem := by
  simp only [armLoadStore, singleAccess]
  cases bit ins 26 with
  | true =>
    simp only [if_true]
    cases bit ins 22 <;> cases bit ins 20
    · exact (storeSingle_abort_iff ..).trans (armWriteWord_status_iff hs ..)
    · exact (loadSingle_abort_iff ..).trans (armReadWord_none_iff hs _)
    · exact (storeSingle_abort_iff ..).trans (armWriteByte_status_iff ..)
    · exact (loadSingle_abort_iff ..).trans (armReadByte_none_iff _)
  | false =>
    simp only [Bool.false_eq_true, if_false]
    split
    · exact (loadSingle_abort_iff ..).trans (armReadHalf_none_iff hs _)
    · exact (storeSingle_abort_iff ..).trans (armWriteHalf_status_iff hs ..)

/-! ### Block transfers -/

omit hs in
theorem blockEnd_abort_iff (ins : Word) (b : Block) :
    (blockEnd ins b).1 = Exception.dataAbort ↔ ¬ b.failed = false := by
  rw [Bool.not_eq_false]
  simp only [blockEnd]
  split
  next h => exact iff_of_true rfl h
  next h => exact iff_of_false (show ¬ (0 : Int) = Exception.dataAbort by decide) h

/-- All the words of a block are admitted exactly when none of its accesses lies
outside the memory. -/
theorem admits_block_iff (ins : Word) (h : (bit ins 20 && bit ins 22 && bit ins 15) = false) :
    (∀ k < (registerList ins).length,
        p.mem.admits 4 ((blockBegin p ins).address + (k : Word) * blockStep ins) = true) ↔
      ¬ ∃ a ∈ blockAccesses p ins, ¬ a.InMemory p.mem := by
  simp only [blockAccesses, h, Bool.false_eq_true, if_false, List.mem_map, List.mem_range,
    not_exists, not_and, not_not]
  constructor
  · rintro hall _ ⟨k, hk, rfl⟩
    exact (admits_iff (n := 4) (by omega) (by omega) _).mp (hall k hk)
  · intro hall k hk
    exact (admits_iff (by omega) (by omega) _).mpr (hall _ ⟨k, hk, rfl⟩)

theorem stm_abort_iff {ins : Word} (h : bit ins 20 = false) :
    (stm p ins).1 = Exception.dataAbort ↔ ∃ a ∈ blockAccesses p ins, ¬ a.InMemory p.mem := by
  have hb := admits_block_iff hs ins (by rw [h]; rfl)
  rw [stm, blockEnd_abort_iff, stmLoop_eq, stmBlock_failed]
  rw [← not_iff_not, not_not, ← hb]
  exact and_iff_right rfl

theorem ldm_abort_iff {ins : Word} (h20 : bit ins 20 = true) :
    Returns (ldm p ins) Exception.dataAbort ↔
      ∃ a ∈ blockAccesses p ins, ¬ a.InMemory p.mem := by
  cases h : (bit ins 22 && bit ins 15) with
  | false =>
    have hb := admits_block_iff hs ins (by rw [h20, Bool.true_and, h])
    rw [ldm_eq p ins h, returns_ok_iff, blockEnd_abort_iff, ldmTransfer_failed _ h, ← not_iff_not,
      not_not, ← hb]
    exact and_iff_right rfl
  | true =>
    -- nothing is transferred, whether or not the mode has an SPSR
    refine iff_of_false ?_ ?_
    · rintro ⟨q, hq⟩
      cases hsp : armReadSpsr p with
      | error e => simp only [ldm, h, hsp] at hq; cases hq
      | ok v =>
        simp only [ldm, h, hsp] at hq
        have he := congrArg Prod.fst (Except.ok.inj hq)
        rw [ldmTransfer_restore _ h] at he
        exact (blockEnd_abort_iff ins _).mp he rfl
    · simp [blockAccesses, h20, h]

/-! ### The decoder -/

/-- **An instruction returns `DATA_ABORT` exactly when one of its data accesses
does not lie in the memory.** -/
theorem armDispatch_dataAbort_iff (ins : Word) :
    Returns (armDispatch p ins) Exception.dataAbort ↔ Faults p ins := by
  have hsingle : Returns (.ok (armLoadStore p ins)) Exception.dataAbort ↔
      ∃ a ∈ [singleAccess p ins], ¬ a.InMemory p.mem := by
    rw [returns_ok_iff, armLoadStore_abort_iff hs]
    simp
  have hnone : ∀ {x : Except Halt (Int × ArmCore)},
      ¬ Returns x Exception.dataAbort →
      (Returns x Exception.dataAbort ↔ ∃ a ∈ ([] : List DataAccess), ¬ a.InMemory p.mem) := by
    intro x hx
    exact iff_of_false hx (by simp)
  have hok : ∀ {r : Int} {q : ArmCore}, r ≠ Exception.dataAbort →
      ¬ Returns (.ok (r, q)) Exception.dataAbort := by
    intro r q hr
    rwa [returns_ok_iff]
  rw [Faults, armDispatch, dataAccesses]
  generalize (getBits ins 27 25).toNat = c
  split
  · split
    · exact hsingle
    · refine hnone ?_
      split
      · rintro ⟨q, hq⟩
        exact absurd (armMiscellaneous_result hq) (by decide)
      · exact hok (by decide)
  · exact hnone (hok (by decide))
  · exact hsingle
  · exact hsingle
  · rw [armLoadStoreMultiple]
    split
    next h => exact ldm_abort_iff hs h
    next h =>
      rw [returns_ok_iff]
      exact stm_abort_iff hs (Bool.eq_false_iff.mpr h)
  · exact hnone (hok (by decide))
  · refine hnone ?_
    rw [armCoprocessorOthersSwi]
    split
    · split
      · rintro ⟨q, hq⟩
        cases hq
      · exact hok (by decide)
    · exact hok (by decide)
  · simp only
    exact hnone (hok (by decide))

end Checks

end Armator
