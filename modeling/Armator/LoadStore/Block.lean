import Armator.LoadStore

/-!
# The loops of the block transfers

`stm` and `ldm` are folds over the listed registers (`registerList`), from r0 up.
The `k`-th of them is transferred at `address + k * delta`, `delta` being 4 or -4.

* `stmBlock_word`: an `stm` leaves at that address the value of the register, since
  no later word of the block overlaps it (`apart_of_lt`).
* `ldmBlock_value`: an `ldm` leaves in the register the word at that address, or the
  last one before it that could be read, since its loop keeps the value read last.
* Both leave the rest as it was, and fail exactly when an address is refused.
-/

namespace Armator

/-! ### The register list -/

/-- The listed registers, from r0 up. -/
def registerList (ins : Word) : List (Fin 16) := (List.finRange 16).filter fun i => bit ins i

theorem registerList_nodup (ins : Word) : (registerList ins).Nodup :=
  (List.nodup_finRange 16).filter _

theorem registerList_length (ins : Word) : (registerList ins).length ≤ 16 :=
  (List.length_filter_le _ _).trans (by rw [List.length_finRange])

/-- What `ldm` makes of the value read for a register. -/
def loaded (i : Fin 16) (value : Word) : Word := if i = 15 then value &&& 0xFFFFFFFC else value

def stmBlock (read : ArmCore → Fin 16 → Word) (delta : Word) (b : Block) (l : List (Fin 16)) :
    Block :=
  l.foldl (stmRegister read delta) b

def ldmBlock (write : ArmCore → Fin 16 → Word → ArmCore) (delta : Word) (b : Block)
    (l : List (Fin 16)) : Block :=
  l.foldl (fun b i => ldmRegister write (loaded i) delta b i) b

theorem stmLoop_eq (read : ArmCore → Fin 16 → Word) (ins : Word) (b : Block) :
    stmLoop read ins b = stmBlock read (blockStep ins) b (registerList ins) := by
  rw [stmBlock, registerList, List.foldl_filter]
  rfl

theorem ldmLoop_eq (write : ArmCore → Fin 16 → Word → ArmCore) (ins : Word) (b : Block) :
    ldmLoop write ins b = ldmBlock write (blockStep ins) b (registerList ins) := by
  have hl : ∀ i : Fin 15, loaded i.castSucc = id := by
    intro i
    funext value
    exact if_neg (Fin.castSucc_lt_last i).ne
  rw [ldmBlock, registerList, List.foldl_filter, List.finRange_succ_last, List.foldl_append,
    List.foldl_map]
  simp only [hl]
  rfl

/-! ### Addresses -/

theorem blockStep_eq (ins : Word) : blockStep ins = 4 ∨ blockStep ins = -4 := by
  unfold blockStep
  cases bit ins 23 with
  | true => exact Or.inl rfl
  | false => exact Or.inr rfl

/-- Two words of one block share no byte, wherever the block lies. -/
theorem apart_of_lt {delta : Word} (hd : delta = 4 ∨ delta = -4) (a : Word) {k : Nat}
    (h0 : 0 < k) (hk : k < 16) : Apart a (a + (k : Word) * delta) := by
  have hlt := a.isLt
  have hk4 : ((k : Word) * 4).toNat = k * 4 := by
    rw [BitVec.toNat_mul, BitVec.natCast_eq_ofNat, BitVec.toNat_ofNat,
      show (4 : Word).toNat = 4 from rfl]
    omega
  unfold Apart
  rcases hd with rfl | rfl
  · rw [BitVec.toNat_add, hk4]
    omega
  · rw [mul_neg, ← sub_eq_add_neg, BitVec.toNat_sub, hk4]
    omega

theorem address_succ (a delta : Word) (k : Nat) :
    a + delta + (k : Word) * delta = a + ((k + 1 : Nat) : Word) * delta := by
  rw [Nat.cast_succ, add_mul, one_mul, add_assoc, add_comm delta]

/-! ### Storing a block -/

section Stm

variable {read : ArmCore → Fin 16 → Word} {delta : Word}

theorem stmRegister_failed (b : Block) (i : Fin 16) :
    (stmRegister read delta b i).failed = (b.failed || !b.p.mem.admits 4 b.address) :=
  congrArg (b.failed || ·) (armWriteWord_status b.p b.address (read b.p i))

theorem stmBlock_address (b : Block) (l : List (Fin 16)) :
    (stmBlock read delta b l).address = b.address + (l.length : Word) * delta := by
  induction l generalizing b with
  | nil => simp [stmBlock]
  | cons i l ih =>
    rw [List.length_cons, ← address_succ]
    exact ih _

/-- An `stm` goes through exactly when every address of the block is admitted. -/
theorem stmBlock_failed (b : Block) (l : List (Fin 16)) :
    (stmBlock read delta b l).failed = false ↔
      b.failed = false ∧ ∀ k < l.length, b.p.mem.admits 4 (b.address + (k : Word) * delta) = true := by
  induction l generalizing b with
  | nil => simp [stmBlock]
  | cons i l ih =>
    have hstep := ih (stmRegister read delta b i)
    rw [stmRegister_failed] at hstep
    refine hstep.trans ?_
    rw [List.length_cons, Nat.forall_lt_succ_left]
    simp only [stmRegister, armWriteWord_admits, address_succ]
    cases b.failed <;> simp

/-- A word apart from the block is not changed. -/
theorem stmBlock_frame (b : Block) (l : List (Fin 16)) {a : Word}
    (h : ∀ k < l.length, Apart (b.address + (k : Word) * delta) a) :
    armReadWord (stmBlock read delta b l).p a = armReadWord b.p a := by
  induction l generalizing b with
  | nil => rfl
  | cons i l ih =>
    rw [List.length_cons, Nat.forall_lt_succ_left] at h
    obtain ⟨h0, hl⟩ := h
    have hrest := ih (stmRegister read delta b i) fun k hk => by
      simp only [stmRegister, address_succ]
      exact hl k hk
    refine hrest.trans (armReadWord_write_apart b.p _ ?_)
    simpa using h0

/-- **The `k`-th word of the block is the `k`-th listed register.** -/
theorem stmBlock_word (hread : ∀ p q : ArmCore, p.reg = q.reg → read p = read q)
    (hd : delta = 4 ∨ delta = -4) (b : Block) (l : List (Fin 16)) (hl : l.length ≤ 16) {k : Nat}
    (hk : k < l.length) (ha : b.p.mem.admits 4 (b.address + (k : Word) * delta) = true) :
    armReadWord (stmBlock read delta b l).p (b.address + (k : Word) * delta) =
      some (read b.p l[k]) := by
  induction l generalizing b k with
  | nil => simp at hk
  | cons i l ih =>
    rw [List.length_cons] at hl hk
    cases k with
    | zero =>
      -- the first word: stored now, and apart from all the later ones
      simp only [Nat.cast_zero, zero_mul, add_zero] at ha ⊢
      refine (stmBlock_frame (stmRegister read delta b i) l ?_).trans
        (armReadWord_write_same _ ha)
      intro k hk'
      simp only [stmRegister, address_succ]
      exact (apart_of_lt hd b.address (by omega) (by omega)).symm
    | succ k =>
      have hrest := ih (stmRegister read delta b i) (by omega) (k := k) (by omega)
      simp only [stmRegister, armWriteWord_admits, address_succ] at hrest
      rw [hread _ b.p (armWriteWord_reg ..)] at hrest
      exact hrest ha

theorem armReadRegister_congr {p q : ArmCore} (h : p.reg = q.reg) :
    armReadRegister p = armReadRegister q := by
  funext i
  rw [armReadRegister, armReadRegister, h]

theorem armReadWord_blockEnd (ins : Word) (b : Block) (a : Word) :
    armReadWord (blockEnd ins b).2 a = armReadWord b.p a := by
  simp only [blockEnd]
  split <;> split <;> rfl

/-- `stm` without the S bit. -/
theorem stm_eq {p : ArmCore} {ins : Word} (h22 : bit ins 22 = false) :
    stm p ins =
      blockEnd ins (stmBlock armReadRegister (blockStep ins) (blockBegin p ins)
        (registerList ins)) := by
  simp only [stm, h22, stmLoop_eq]
  rfl

/-- **Every admitted word of the block is stored**, whatever becomes of the others. -/
theorem stm_word {p : ArmCore} {ins : Word} (h22 : bit ins 22 = false) {k : Nat}
    (hk : k < (registerList ins).length)
    (ha : p.mem.admits 4 ((blockBegin p ins).address + (k : Word) * blockStep ins) = true) :
    armReadWord (stm p ins).2 ((blockBegin p ins).address + (k : Word) * blockStep ins) =
      some (armReadRegister p (registerList ins)[k]) := by
  rw [stm_eq h22, armReadWord_blockEnd]
  exact stmBlock_word (fun _ _ h => armReadRegister_congr h) (blockStep_eq ins) (blockBegin p ins) _
    (registerList_length ins) hk ha

end Stm

/-! ### Loading a block -/

section Ldm

variable {delta : Word}

theorem armReadWord_isNone (p : ArmCore) (a : Word) :
    (armReadWord p a).isNone = !p.mem.admits 4 a := by
  rw [armReadWord, memoryReadWord_eq]
  cases p.mem.admits 4 a <;> rfl

/-- An `ldm` goes through exactly when every address of the block is admitted. -/
theorem ldmBlock_failed (write : ArmCore → Fin 16 → Word → ArmCore)
    (hw : ∀ p i v, (write p i v).mem = p.mem) (b : Block) (l : List (Fin 16)) :
    (ldmBlock write delta b l).failed = false ↔
      b.failed = false ∧ ∀ k < l.length, b.p.mem.admits 4 (b.address + (k : Word) * delta) = true := by
  induction l generalizing b with
  | nil => simp [ldmBlock]
  | cons i l ih =>
    refine (ih (ldmRegister write (loaded i) delta b i)).trans ?_
    rw [List.length_cons, Nat.forall_lt_succ_left]
    simp only [ldmRegister, hw, armReadWord_isNone, address_succ]
    cases b.failed <;> simp

/-- The loop of an `ldm` without the S bit. -/
theorem ldmTransfer_eq {ins : Word} (h22 : bit ins 22 = false) (b : Block) :
    ldmTransfer ins b = ldmBlock armWriteRegister (blockStep ins) b (registerList ins) := by
  simp only [ldmTransfer, h22, ldmLoop_eq]
  rfl

/-- The loop of an `ldm` that does not restore the CPSR. -/
theorem ldmTransfer_failed {ins : Word} (b : Block) (h : (bit ins 22 && bit ins 15) = false) :
    (ldmTransfer ins b).failed = false ↔
      b.failed = false ∧ ∀ k < (registerList ins).length,
        b.p.mem.admits 4 (b.address + (k : Word) * blockStep ins) = true := by
  cases h22 : bit ins 22 with
  | false =>
    rw [ldmTransfer_eq h22]
    exact ldmBlock_failed armWriteRegister (fun _ _ _ => rfl) b _
  | true =>
    rw [h22, Bool.true_and] at h
    simp only [ldmTransfer, h22, h, Bool.not_true, Bool.not_false, Bool.and_true, Bool.false_eq_true, if_false, if_true]
    rw [ldmLoop_eq]
    exact ldmBlock_failed armWriteUsrRegister (fun _ _ _ => rfl) b _

/-- An `ldm` that restores the CPSR transfers nothing, so it cannot abort. -/
theorem ldmTransfer_restore {ins : Word} (b : Block) (h : (bit ins 22 && bit ins 15) = true) :
    ldmTransfer ins b = b := by
  rw [Bool.and_eq_true] at h
  simp [ldmTransfer, h.1, h.2]

theorem ldmBlock_address (b : Block) (l : List (Fin 16)) :
    (ldmBlock armWriteRegister delta b l).address = b.address + (l.length : Word) * delta := by
  induction l generalizing b with
  | nil => simp [ldmBlock]
  | cons i l ih =>
    rw [List.length_cons, ← address_succ]
    exact ih _

/-- What is not a listed register is not changed. -/
theorem ldmBlock_frame (b : Block) (l : List (Fin 16)) :
    (ldmBlock armWriteRegister delta b l).p.mem = b.p.mem ∧
      (ldmBlock armWriteRegister delta b l).p.reg.mode = b.p.reg.mode ∧
      ∀ c, (∀ i ∈ l, c ≠ cell (getModeNum b.p.reg) i.castSucc) →
        (ldmBlock armWriteRegister delta b l).p.reg.registers c = b.p.reg.registers c := by
  induction l generalizing b with
  | nil => exact ⟨rfl, rfl, fun _ _ => rfl⟩
  | cons i l ih =>
    obtain ⟨hmem, hmode, hreg⟩ := ih (ldmRegister armWriteRegister (loaded i) delta b i)
    refine ⟨hmem, hmode, ?_⟩
    intro c hc
    refine (hreg c fun j hj => hc j (List.mem_cons_of_mem _ hj)).trans ?_
    exact Registers.set_of_ne _ _ (hc i List.mem_cons_self)

theorem ldmBlock_of_not_mem (b : Block) (l : List (Fin 16)) {i : Fin 16} (h : i ∉ l) :
    readRegister (ldmBlock armWriteRegister delta b l).p.reg i = readRegister b.p.reg i := by
  obtain ⟨-, hmode, hreg⟩ := @ldmBlock_frame delta b l
  rw [readRegister, readRegister, getModeNum_congr hmode]
  apply hreg
  intro j hj e
  rw [Fin.castSucc_injective _ (cell_injective _ e)] at h
  exact h hj

/-- The last word that could be read before the `k`-th one, `value` where there is
none. -/
def lastRead (read : Nat → Option Word) (value : Word) : Nat → Word
  | 0 => value
  | k + 1 => (read k).getD (lastRead read value k)

theorem lastRead_succ (read : Nat → Option Word) (value : Word) (k : Nat) :
    lastRead (fun k => read (k + 1)) ((read 0).getD value) k = lastRead read value (k + 1) := by
  induction k with
  | zero => rfl
  | succ k ih => exact congrArg ((read (k + 1)).getD ·) ih

/-- **What `ldm` leaves in the `k`-th listed register**: the `k`-th word, or else the
last one before it that could be read. -/
theorem ldmBlock_value (b : Block) (l : List (Fin 16)) (hl : l.Nodup) {k : Nat}
    (hk : k < l.length) :
    readRegister (ldmBlock armWriteRegister delta b l).p.reg l[k] =
      loaded l[k]
        (lastRead (fun k => armReadWord b.p (b.address + (k : Word) * delta)) b.value (k + 1)) := by
  induction l generalizing b k with
  | nil => simp at hk
  | cons i l ih =>
    rw [List.nodup_cons] at hl
    obtain ⟨hi, hl⟩ := hl
    rw [List.length_cons] at hk
    cases k with
    | zero =>
      -- written now, and not listed again
      refine (ldmBlock_of_not_mem _ l hi).trans ?_
      refine (readRegister_write_same _ _ _).trans ?_
      simp [lastRead]
    | succ k =>
      have hrest := ih (ldmRegister armWriteRegister (loaded i) delta b i) hl (k := k) (by omega)
      refine hrest.trans ?_
      rw [List.getElem_cons_succ, ← lastRead_succ _ b.value]
      simp only [ldmRegister, address_succ, Nat.cast_zero, zero_mul, add_zero]
      rfl

/-- **The `k`-th listed register is the `k`-th word of the block**, where it can be
read. -/
theorem ldmBlock_register (b : Block) (l : List (Fin 16)) (hl : l.Nodup) {k : Nat}
    (hk : k < l.length) {v : Word}
    (hv : armReadWord b.p (b.address + (k : Word) * delta) = some v) :
    readRegister (ldmBlock armWriteRegister delta b l).p.reg l[k] = loaded l[k] v := by
  rw [ldmBlock_value b l hl hk, lastRead, hv, Option.getD_some]

end Ldm

end Armator
