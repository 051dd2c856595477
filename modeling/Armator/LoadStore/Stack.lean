import Armator.LoadStore.Block

/-!
# Pushes and pops

The four stack disciplines push with an `stm` and pop with the `ldm` whose P and U
bits are the opposite ones: `stmdb`/`ldmia`, `stmda`/`ldmib`, `stmib`/`ldmda` and
`stmia`/`ldmdb` (`IsPopOf`).  Both loops walk the list from r0 up while the
addresses go one way in the push and the other way in the pop, so the pop brings
the base back and gives the registers each other's values
(`pop_push`): the `k`-th listed register gets the value that was pushed for
the `k`-th one from the end.  The registers are restored exactly when the values
read the same from both ends (`popRestores_iff`).
-/

namespace Armator

def baseRegister (ins : Word) : Fin 16 := regNum (getBits ins 19 16)

/-- A push: S clear, W set, a base other than r15, and neither the base nor r15 in
the list. -/
structure IsPush (ins : Word) : Prop where
  sBit : bit ins 22 = false
  wBit : bit ins 21 = true
  base : baseRegister ins ≠ 15
  base_not_mem : baseRegister ins ∉ registerList ins
  pc_not_mem : 15 ∉ registerList ins

instance (ins : Word) : Decidable (IsPush ins) :=
  decidable_of_iff (bit ins 22 = false ∧ bit ins 21 = true ∧ baseRegister ins ≠ 15 ∧
      baseRegister ins ∉ registerList ins ∧ 15 ∉ registerList ins)
    ⟨fun ⟨hs, hw, hb, hm, hp⟩ => ⟨hs, hw, hb, hm, hp⟩,
      fun h => ⟨h.sBit, h.wBit, h.base, h.base_not_mem, h.pc_not_mem⟩⟩

theorem IsPush.ne_base {ins : Word} (h : IsPush ins) {i : Fin 16} (hi : i ∈ registerList ins) :
    i ≠ baseRegister ins := by
  rintro rfl
  exact h.base_not_mem hi

theorem IsPush.ne_pc {ins : Word} (h : IsPush ins) {i : Fin 16} (hi : i ∈ registerList ins) :
    i ≠ 15 := by
  rintro rfl
  exact h.pc_not_mem hi

/-- The pop of the same discipline, with the same base and list. -/
structure IsPopOf (ins ins' : Word) : Prop where
  pBit : bit ins' 24 = !bit ins 24
  uBit : bit ins' 23 = !bit ins 23
  sBit : bit ins' 22 = false
  wBit : bit ins' 21 = true
  base : baseRegister ins' = baseRegister ins
  list : registerList ins' = registerList ins

instance (ins ins' : Word) : Decidable (IsPopOf ins ins') :=
  decidable_of_iff (bit ins' 24 = !bit ins 24 ∧ bit ins' 23 = !bit ins 23 ∧ bit ins' 22 = false ∧
      bit ins' 21 = true ∧ baseRegister ins' = baseRegister ins ∧
      registerList ins' = registerList ins)
    ⟨fun ⟨hp, hu, hs, hw, hb, hl⟩ => ⟨hp, hu, hs, hw, hb, hl⟩,
      fun h => ⟨h.pBit, h.uBit, h.sBit, h.wBit, h.base, h.list⟩⟩

/-- Whatever happens to the listed registers between the push and the pop. -/
def overwrite (p : ArmCore) (l : List (Fin 16)) (junk : Fin 16 → Word) : ArmCore :=
  l.foldl (fun p i => armWriteRegister p i (junk i)) p

/-- The pop of what `ins` pushed restores the listed registers and the base. -/
def PopRestores (p : ArmCore) (ins ins' : Word) (junk : Fin 16 → Word) : Prop :=
  ∃ r q, ldm (overwrite (stm p ins).2 (registerList ins) junk) ins' = .ok (r, q) ∧
    (∀ i ∈ registerList ins, armReadRegister q i = armReadRegister p i) ∧
      armReadRegister q (baseRegister ins) = armReadRegister p (baseRegister ins)

/-! ### Between the push and the pop -/

theorem overwrite_mem (p : ArmCore) (l : List (Fin 16)) (junk : Fin 16 → Word) :
    (overwrite p l junk).mem = p.mem := by
  induction l generalizing p with
  | nil => rfl
  | cons i l ih => exact ih _

theorem overwrite_host (p : ArmCore) (l : List (Fin 16)) (junk : Fin 16 → Word) :
    (overwrite p l junk).host = p.host := by
  induction l generalizing p with
  | nil => rfl
  | cons i l ih => exact ih _

theorem armReadRegister_overwrite (p : ArmCore) (l : List (Fin 16)) (junk : Fin 16 → Word)
    {i : Fin 16} (h : i ∉ l) : armReadRegister (overwrite p l junk) i = armReadRegister p i := by
  induction l generalizing p with
  | nil => rfl
  | cons j l ih =>
    rw [List.mem_cons, not_or] at h
    exact (ih _ h.2).trans (armReadRegister_write_of_ne _ _ h.1)

/-! ### The ends of a block -/

theorem toNat_getBits_two (x : Word) {i : Nat} (h : i < 31) :
    (getBits x (i + 1) i).toNat = 2 * (bit x (i + 1)).toNat + (bit x i).toNat := by
  have hbit : ∀ {j : Nat}, j < 32 → (bit x j).toNat = x.toNat / 2 ^ j % 2 := by
    intro j hj
    have := bit_iff x hj
    cases e : bit x j <;> simp [e] at this ⊢ <;> omega
  rw [toNat_getBits x (by omega) (by omega), hbit (by omega), hbit (by omega),
    Nat.add_sub_cancel_left, Nat.pow_succ 2 i, ← Nat.div_div_eq_div_mul]
  omega

theorem blockBase_eq (ins address : Word) :
    blockBase ins address = if bit ins 24 then address - blockStep ins else address := by
  rw [blockBase, blockStep, toNat_getBits_two ins (by omega)]
  cases bit ins 24 with
  | false => cases bit ins 23 <;> rfl
  | true =>
    cases bit ins 23 with
    | false => exact (sub_neg_eq_add address 4).symm
    | true => rfl

/-- The base after a block that starts at `base` and moves by `x`. -/
theorem blockBase_blockStart (ins base x : Word) :
    blockBase ins (blockStart ins base + x) = base + x := by
  rw [blockBase_eq, blockStart]
  cases bit ins 24 with
  | false => rfl
  | true =>
    simp only [if_true]
    ring

theorem blockEnd_of_writeBack {ins : Word} (h : bit ins 21 = true) (b : Block) :
    blockEnd ins b = (if b.failed then Exception.dataAbort else 0,
      armWriteRegister b.p (baseRegister ins) (blockBase ins b.address)) := by
  simp only [blockEnd, h, if_true, baseRegister]
  cases b.failed <;> rfl

/-! ### The push -/

section Push

variable {p : ArmCore} {ins : Word} (h : IsPush ins)

include h

theorem IsPush.base_push :
    armReadRegister (stm p ins).2 (baseRegister ins) =
      armReadRegister p (baseRegister ins) + (registerList ins).length * blockStep ins := by
  rw [stm_eq h.sBit, blockEnd_of_writeBack h.wBit, armReadRegister_write_same _ _ h.base,
    stmBlock_address]
  exact blockBase_blockStart ..

/-- What a push that does not abort leaves in memory. -/
theorem IsPush.word_push (hok : (stm p ins).1 = 0) {k : Nat} (hk : k < (registerList ins).length) :
    armReadWord (stm p ins).2
        (blockStart ins (armReadRegister p (baseRegister ins)) + (k : Word) * blockStep ins) =
      some (armReadRegister p (registerList ins)[k]) := by
  rw [stm_eq h.sBit, blockEnd_of_writeBack h.wBit] at hok
  have hfailed : (stmBlock armReadRegister (blockStep ins) (blockBegin p ins)
      (registerList ins)).failed = false := by
    by_contra hf
    rw [Bool.not_eq_false] at hf
    simp [hf, Exception.dataAbort] at hok
  exact stm_word h.sBit hk (((stmBlock_failed _ _).mp hfailed).2 k hk)

end Push

/-! ### The pop -/

def popBlock (p : ArmCore) (ins ins' : Word) : Block :=
  ldmBlock armWriteRegister (-blockStep ins)
    ⟨p, blockStart ins' (armReadRegister p (baseRegister ins)), 0, false⟩ (registerList ins)

section Pop

variable {ins ins' : Word} (h' : IsPopOf ins ins')

include h'

theorem IsPopOf.blockStep_eq : blockStep ins' = -blockStep ins := by
  rw [blockStep, blockStep, h'.uBit]
  cases bit ins 23 <;> rfl

theorem IsPopOf.ldm_eq (p : ArmCore) :
    ldm p ins' = .ok (if (popBlock p ins ins').failed then Exception.dataAbort else 0,
      armWriteRegister (popBlock p ins ins').p (baseRegister ins)
        (blockBase ins' (popBlock p ins ins').address)) := by
  have hloop : ldmTransfer ins' (blockBegin p ins') = popBlock p ins ins' := by
    have hbase : regNum (getBits ins' 19 16) = baseRegister ins := h'.base
    rw [ldmTransfer_eq h'.sBit, h'.list, h'.blockStep_eq, blockBegin, hbase, popBlock]
  rw [Armator.ldm_eq p ins' (by rw [h'.sBit]; rfl), blockEnd_of_writeBack h'.wBit, hloop, h'.base]

/-- The pop starts at the last word of the push and goes through it backwards. -/
theorem IsPopOf.address (base : Word) {n k : Nat} (hk : k < n) :
    blockStart ins' (base + n * blockStep ins) + (k : Word) * -blockStep ins =
      blockStart ins base + ((n - 1 - k : Nat) : Word) * blockStep ins := by
  obtain ⟨j, rfl⟩ : ∃ j, n = j + k + 1 := ⟨n - 1 - k, by omega⟩
  rw [show j + k + 1 - 1 - k = j by omega, blockStart, blockStart, h'.pBit, h'.blockStep_eq,
    Nat.cast_succ, Nat.cast_add]
  generalize blockStep ins = delta
  cases bit ins 24 with
  | false =>
    simp only [Bool.not_false, if_true, Bool.false_eq_true, if_false]
    ring
  | true =>
    simp only [Bool.not_true, if_true, Bool.false_eq_true, if_false]
    ring

end Pop

/-! ### A push and its pop -/

section PushPop

variable {p : ArmCore} {ins ins' : Word} (junk : Fin 16 → Word) (h : IsPush ins)
  (h' : IsPopOf ins ins')

include h

theorem base_between :
    armReadRegister (overwrite (stm p ins).2 (registerList ins) junk) (baseRegister ins) =
      armReadRegister p (baseRegister ins) + (registerList ins).length * blockStep ins := by
  rw [armReadRegister_overwrite _ _ _ h.base_not_mem, h.base_push]

include h'

theorem base_pop_push :
    blockBase ins' (popBlock (overwrite (stm p ins).2 (registerList ins) junk) ins ins').address =
      armReadRegister p (baseRegister ins) := by
  rw [popBlock, ldmBlock_address, ← h'.blockStep_eq, blockBase_blockStart, base_between junk h,
    h'.blockStep_eq]
  ring

/-- The `k`-th listed register is loaded with the word pushed for the one at the
other end of the list. -/
theorem register_pop_push (hok : (stm p ins).1 = 0) {k : Nat}
    (hk : k < (registerList ins).length) (h15 : (registerList ins)[k] ≠ 15) :
    armReadRegister (popBlock (overwrite (stm p ins).2 (registerList ins) junk) ins ins').p
        (registerList ins)[k] =
      armReadRegister p ((registerList ins)[(registerList ins).length - 1 - k]) := by
  have hv := h.word_push hok (k := (registerList ins).length - 1 - k) (by omega)
  rw [← h'.address _ hk, ← base_between junk h] at hv
  have hword : ∀ a, armReadWord (overwrite (stm p ins).2 (registerList ins) junk) a =
      armReadWord (stm p ins).2 a := by
    intro a
    rw [armReadWord, overwrite_mem, overwrite_host]
    rfl
  rw [← hword] at hv
  generalize overwrite (stm p ins).2 (registerList ins) junk = s at hv
  have hload := ldmBlock_register
    ⟨s, blockStart ins' (armReadRegister s (baseRegister ins)), 0, false⟩ (registerList ins)
    (registerList_nodup ins) hk hv
  rw [armReadRegister_of_ne _ h15, popBlock, hload, loaded, if_neg h15]

/-- **A pop brings back the base and reverses the registers.** -/
theorem pop_push (hok : (stm p ins).1 = 0) :
    ∃ r q, ldm (overwrite (stm p ins).2 (registerList ins) junk) ins' = .ok (r, q) ∧
      (registerList ins).map (armReadRegister q) =
        ((registerList ins).map (armReadRegister p)).reverse ∧
      armReadRegister q (baseRegister ins) = armReadRegister p (baseRegister ins) := by
  refine ⟨_, _, h'.ldm_eq _, List.ext_getElem (by simp) fun k hk _ => ?_, ?_⟩
  · rw [List.length_map] at hk
    have hne := h.ne_base (List.getElem_mem hk)
    have h15 := h.ne_pc (List.getElem_mem hk)
    simp only [List.getElem_map, List.getElem_reverse, List.length_map]
    rw [armReadRegister_write_of_ne _ _ hne, register_pop_push junk h h' hok hk h15]
  · rw [armReadRegister_write_same _ _ h.base, base_pop_push junk h h']

theorem reverse_of_popRestores (hok : (stm p ins).1 = 0) (hr : PopRestores p ins ins' junk) :
    ((registerList ins).map (armReadRegister p)).reverse =
      (registerList ins).map (armReadRegister p) := by
  obtain ⟨r, q, hq, hrev, -⟩ := pop_push junk h h' hok
  obtain ⟨r', q', hq', hregs, -⟩ := hr
  rw [hq] at hq'
  cases hq'
  rw [← hrev, List.map_inj_left]
  exact hregs

end PushPop

/-- **When a pop restores what was pushed**: exactly when the values of the listed
registers, from r0 up, read the same from both ends. -/
theorem popRestores_iff (p : ArmCore) (ins ins' : Word) (junk : Fin 16 → Word) (h : IsPush ins)
    (h' : IsPopOf ins ins') (hok : (stm p ins).1 = 0) :
    PopRestores p ins ins' junk ↔
      ((registerList ins).map (armReadRegister p)).reverse =
        (registerList ins).map (armReadRegister p) := by
  constructor
  · exact reverse_of_popRestores junk h h' hok
  · intro hpal
    obtain ⟨r, q, hq, hrev, hbase⟩ := pop_push junk h h' hok
    rw [hpal, List.map_inj_left] at hrev
    exact ⟨r, q, hq, hrev, hbase⟩

/-- `stmdb r13!, {r0, r1, r2}` and `ldmia r13!, {r0, r1, r2}` with 5, 9 and 5 in r0 to r2, which
hold something else in between -/
theorem popRestores_palindrome :
    let p := armWriteRegister (armWriteRegister (armWriteRegister (armWriteRegister
      (armCreate .little (memoryCreate 12 false fun _ => 0)) 0 5) 1 9) 2 5) 13 12
    PopRestores p 0xE92D0007 0xE8BD0007 fun i => BitVec.ofNat 32 (100 + i) :=
  (popRestores_iff _ _ _ _ (by decide +kernel) (by decide +kernel) (by decide +kernel)).mpr
    (by decide +kernel)

/-- `stmdb r13!, {r0, r1}` and `ldmia r13!, {r0, r1}` exchange r0 and r1. -/
theorem push_pop_exchanges :
    ¬ ∀ (p : ArmCore) (ins ins' : Word) (junk : Fin 16 → Word), registerList ins ≠ [] →
      IsPush ins → IsPopOf ins ins' → (stm p ins).1 = 0 → PopRestores p ins ins' junk := by
  intro hall
  let p := armWriteRegister (armWriteRegister (armWriteRegister
    (armCreate .little (memoryCreate 8 false fun _ => 0)) 0 1) 1 2) 13 8
  have h : IsPush 0xE92D0003 := by decide +kernel
  have h' : IsPopOf 0xE92D0003 0xE8BD0003 := by decide +kernel
  have hok : (stm p 0xE92D0003).1 = 0 := by decide +kernel
  have hr := hall p _ _ (fun _ => 0) (by decide +kernel) h h' hok
  have hpal := reverse_of_popRestores _ h h' hok hr
  revert hpal
  decide +kernel

end Armator
