import Armator.Instruction

/-!
# The spaces of the decoder

Three parts of the encoding hold only instructions that the simulator does not
implement.  A word of them should raise the undefined instruction exception and do
nothing else (`RaisesUndefined`); which of them do is settled by the class the
decoder gives them to.

* The control extension space (`ControlExtension`): every word is taken for `mrs`
  or for a comparison, and none raises the exception
  (`not_raisesUndefined_control`).
* The multiply and extra load/store space (`ExtraLoadStore`): every word is
  executed as `strh` or `ldrh` (`ExtraLoadStore.armLoadStore_eq`), so only the
  half-word transfers are decoded right (`halfOnly_iff`).
* The undefined and coprocessor spaces (`UndefinedSpace`): the coprocessor words
  raise the exception, the undefined space is executed as a single transfer
  (`raisesUndefined_iff`).
-/

namespace Armator

/-! ### A step that only fetches -/

/-- `q` is `p` after a fetch: the same memory, and the same registers, CPSR
included, but for the increment of the pc. -/
structure OnlyFetched (p q : ArmCore) : Prop where
  mem : q.mem = p.mem
  mode : q.reg.mode = p.reg.mode
  registers : ∀ c, c ≠ pcCell → q.reg.registers c = p.reg.registers c
  pc : q.reg.registers pcCell = fetchAddress p + 4

/-- The step returns `UNDEFINED_INSTRUCTION` and does nothing but fetch. -/
def RaisesUndefined (p : ArmCore) : Prop :=
  ∃ q, armStep p = .ok (Exception.undefinedInstruction, q) ∧ OnlyFetched p q

theorem onlyFetched_armFetch (p : ArmCore) : OnlyFetched p (armFetch p).2 := by
  have hreg : (armFetch p).2.reg = p.reg.set pcCell (fetchAddress p + 4) := by
    rw [← cell_pc (getModeNum p.reg)]
    rfl
  refine ⟨rfl, rfl, fun c hc => ?_, ?_⟩
  · rw [hreg, Registers.set_of_ne _ _ hc]
  · rw [hreg, Registers.set_same]

section Passed

variable {p : ArmCore} {ins : Word} (hf : (armFetch p).1 = some ins)
  (hc : conditionPassed (armFetch p).2 ins = true)

include hf hc

theorem raisesUndefined_of_dispatch
    (h : armDispatch (armFetch p).2 ins = .ok (Exception.undefinedInstruction, (armFetch p).2)) :
    RaisesUndefined p :=
  ⟨_, (armStep_of_passed hf hc).trans h, onlyFetched_armFetch p⟩

theorem not_raisesUndefined_of_dispatch
    (h : ∀ r q, armDispatch (armFetch p).2 ins = .ok (r, q) → r = 0 ∨ r = Exception.dataAbort) :
    ¬ RaisesUndefined p := by
  rintro ⟨q, hs, _⟩
  rw [armStep_of_passed hf hc] at hs
  rcases h _ _ hs with e | e
  · exact absurd e (by decide)
  · exact absurd e (by decide)

end Passed

/-! ### The control extension space -/

/-- The reads of a status register, which the simulator implements. -/
def IsMrs (ins : Word) : Prop :=
  getBits ins 27 23 = 0b00010 ∧ getBits ins 21 20 = 0 ∧ getBits ins 7 4 = 0

instance (ins : Word) : Decidable (IsMrs ins) := inferInstanceAs (Decidable (_ ∧ _ ∧ _))

/-- `msr`, `bx`, `blx`, `clz` and what else shares the opcodes of the comparisons
with the S bit clear. -/
def ControlExtension (ins : Word) : Prop :=
  ((getBits ins 27 23 = 0b00010 ∧ bit ins 20 = false ∧ ¬(bit ins 7 = true ∧ bit ins 4 = true)) ∨
    (getBits ins 27 23 = 0b00110 ∧ bit ins 20 = false)) ∧ ¬ IsMrs ins

instance (ins : Word) : Decidable (ControlExtension ins) := inferInstanceAs (Decidable (_ ∧ ¬ _))

theorem ControlExtension.class {ins : Word} (h : ControlExtension ins) :
    (getBits ins 27 25).toNat = 0 ∧ ¬(bit ins 7 = true ∧ bit ins 4 = true) ∨
      (getBits ins 27 25).toNat = 1 := by
  rw [toNat_getBits ins (by omega) (by omega)]
  obtain ⟨⟨hb, -, h74⟩ | ⟨hb, -⟩, -⟩ := h
  · have := field_of_getBits (by omega) (by omega) hb
    exact Or.inl ⟨by simp at this ⊢; omega, h74⟩
  · have := field_of_getBits (by omega) (by omega) hb
    exact Or.inr (by simp at this ⊢; omega)

/-- A word of the control extension space is taken for `mrs` or executed as a
comparison, so its result is 0. -/
theorem ControlExtension.result {p q : ArmCore} {ins : Word} {r : Int} (h : ControlExtension ins)
    (hd : armDispatch p ins = .ok (r, q)) : r = 0 := by
  rcases h.class with ⟨hcl, h74⟩ | hcl
  · simp only [armDispatch, hcl, if_neg h74] at hd
    split at hd
    · exact armMiscellaneous_result hd
    · exact congrArg Prod.fst (Except.ok.inj hd).symm
  · simp only [armDispatch, hcl] at hd
    exact congrArg Prod.fst (Except.ok.inj hd).symm

/-- **No word of the control extension space is undefined** to the simulator. -/
theorem not_raisesUndefined_control (p : ArmCore) (ins : Word)
    (hf : (armFetch p).1 = some ins) (hc : conditionPassed (armFetch p).2 ins = true)
    (hs : ControlExtension ins) : ¬ RaisesUndefined p :=
  not_raisesUndefined_of_dispatch hf hc fun _ _ hd => Or.inl (hs.result hd)

/-- `msr cpsr_f, r0` -/
theorem not_raisesUndefined_msr : ¬ RaisesUndefined (coreOfWord 0xE128F000) :=
  not_raisesUndefined_control _ _ (armFetch_coreOfWord 0xE128F000) (by decide +kernel)
    (by decide +kernel)

/-- `bx lr` is executed as `teq pc, lr, lsl pc`. -/
theorem bx_not_undefined :
    ¬ ∀ (p : ArmCore) (ins : Word), (armFetch p).1 = some ins →
      conditionPassed (armFetch p).2 ins = true → ControlExtension ins → RaisesUndefined p := by
  intro h
  have hf := armFetch_coreOfWord 0xE12FFF1E
  have hc : conditionPassed (armFetch (coreOfWord 0xE12FFF1E)).2 0xE12FFF1E = true := by
    decide +kernel
  have hs : ControlExtension 0xE12FFF1E := by decide +kernel
  refine not_raisesUndefined_of_dispatch hf hc (fun _ _ hd => Or.inl (hs.result hd)) ?_
  exact h _ _ hf hc hs

/-! ### The multiply and extra load/store space -/

/-- The multiplies, `swp` and the transfers of half-words, signed bytes and double
words. -/
def ExtraLoadStore (ins : Word) : Prop :=
  getBits ins 27 25 = 0 ∧ bit ins 7 = true ∧ bit ins 4 = true

instance (ins : Word) : Decidable (ExtraLoadStore ins) := inferInstanceAs (Decidable (_ ∧ _ ∧ _))

def halfTransfer (p : ArmCore) (ins : Word) : Int × ArmCore :=
  let transfer := if bit ins 20 then ldrh else strh
  transfer p (regNum (getBits ins 15 12)) (regNum (getBits ins 19 16)) (decodeOffH p ins)
    (bit ins 24) (bit ins 23) (bit ins 21)

/-- What the space asks of the decoder: only the words with bits[6:5] = 01 are
half-word transfers, and the others are undefined. -/
def HalfOnly (p : ArmCore) (ins : Word) : Prop :=
  (armStep p = .ok (halfTransfer (armFetch p).2 ins) → getBits ins 6 5 = 0b01) ∧
    (getBits ins 6 5 ≠ 0b01 → RaisesUndefined p)

theorem armLoadStore_eq_halfTransfer (p : ArmCore) {ins : Word} (h : bit ins 26 = false) :
    armLoadStore p ins = halfTransfer p ins := by
  simp only [armLoadStore, halfTransfer, h]
  cases bit ins 20 <;> rfl

theorem ExtraLoadStore.dispatch (p : ArmCore) {ins : Word} (h : ExtraLoadStore ins) :
    armDispatch p ins = .ok (armLoadStore p ins) := by
  obtain ⟨hcl, h7, h4⟩ := h
  simp only [armDispatch, hcl, h7, h4, and_self, if_true]
  rfl

theorem ExtraLoadStore.armLoadStore_eq (p : ArmCore) {ins : Word} (h : ExtraLoadStore ins) :
    armLoadStore p ins = halfTransfer p ins := by
  have h26 : bit ins 26 = false := by
    have hfield := field_of_getBits (by omega) (by omega) h.1
    rw [Bool.eq_false_iff, Ne, bit_iff ins (by omega)]
    simp at hfield ⊢
    omega
  exact armLoadStore_eq_halfTransfer p h26

theorem ExtraLoadStore.result {p q : ArmCore} {ins : Word} {r : Int} (h : ExtraLoadStore ins)
    (hd : armDispatch p ins = .ok (r, q)) : r = 0 ∨ r = Exception.dataAbort := by
  rw [h.dispatch] at hd
  exact armLoadStore_result (Except.ok.inj hd)

/-- **When the decoder is right about a word of the space**: exactly when it is a
half-word transfer.  Every word of the space is executed as one. -/
theorem halfOnly_iff (p : ArmCore) (ins : Word) (hf : (armFetch p).1 = some ins)
    (hc : conditionPassed (armFetch p).2 ins = true) (hs : ExtraLoadStore ins) :
    HalfOnly p ins ↔ getBits ins 6 5 = 0b01 := by
  constructor
  · rintro ⟨h, -⟩
    refine h ((armStep_of_passed hf hc).trans ?_)
    rw [hs.dispatch, hs.armLoadStore_eq]
  · intro h
    exact ⟨fun _ => h, fun hne => absurd h hne⟩

theorem halfOnly_strh : HalfOnly (coreOfWord 0xE1C100B0) 0xE1C100B0 :=
  (halfOnly_iff _ _ (armFetch_coreOfWord 0xE1C100B0) (by decide +kernel)
    (by decide +kernel)).mpr (by decide +kernel)

/-- `mul r0, r0, r0` is executed as `strh r0, [r0], #-0`. -/
theorem mul_not_undefined :
    ¬ ∀ (p : ArmCore) (ins : Word), (armFetch p).1 = some ins →
      conditionPassed (armFetch p).2 ins = true → ExtraLoadStore ins → HalfOnly p ins := by
  intro h
  have hf := armFetch_coreOfWord 0xE0000090
  have hc : conditionPassed (armFetch (coreOfWord 0xE0000090)).2 0xE0000090 = true := by
    decide +kernel
  have hs : ExtraLoadStore 0xE0000090 := by decide +kernel
  refine not_raisesUndefined_of_dispatch hf hc (fun _ _ hd => hs.result hd) ?_
  exact (h _ _ hf hc hs).2 (by decide +kernel)

/-! ### The undefined and coprocessor spaces -/

/-- The undefined space, the coprocessor transfers and the coprocessor
operations. -/
def UndefinedSpace (ins : Word) : Prop :=
  (getBits ins 27 25 = 0b011 ∧ bit ins 4 = true) ∨ getBits ins 27 25 = 0b110 ∨
    getBits ins 27 24 = 0b1110

instance (ins : Word) : Decidable (UndefinedSpace ins) := inferInstanceAs (Decidable (_ ∨ _ ∨ _))

theorem result_of_undefined {p q : ArmCore} {ins : Word} {r : Int}
    (h : getBits ins 27 25 = 0b011) (hd : armDispatch p ins = .ok (r, q)) :
    r = 0 ∨ r = Exception.dataAbort := by
  rw [armDispatch, h] at hd
  exact armLoadStore_result (Except.ok.inj hd)

theorem dispatch_coprocessor (p : ArmCore) {ins : Word}
    (h : getBits ins 27 25 = 0b110 ∨ getBits ins 27 24 = 0b1110) :
    armDispatch p ins = .ok (Exception.undefinedInstruction, p) := by
  rcases h with h | h
  · rw [armDispatch, h]
    rfl
  · have hfield := field_of_getBits (by omega) (by omega) h
    have hcl : (getBits ins 27 25).toNat = 7 := by
      rw [toNat_getBits ins (by omega) (by omega)]
      simp at hfield ⊢
      omega
    have h24 : bit ins 24 = false := by
      rw [Bool.eq_false_iff, Ne, bit_iff ins (by omega)]
      simp at hfield ⊢
      omega
    rw [armDispatch, hcl]
    simp [armCoprocessorOthersSwi, h24]

/-- **When a word of the undefined and coprocessor spaces raises the exception**:
exactly when it is a coprocessor instruction. -/
theorem raisesUndefined_iff (p : ArmCore) (ins : Word) (hf : (armFetch p).1 = some ins)
    (hc : conditionPassed (armFetch p).2 ins = true) (hs : UndefinedSpace ins) :
    RaisesUndefined p ↔ getBits ins 27 25 ≠ 0b011 := by
  constructor
  · intro h h3
    exact not_raisesUndefined_of_dispatch hf hc (fun _ _ hd => result_of_undefined h3 hd) h
  · intro h3
    refine raisesUndefined_of_dispatch hf hc (dispatch_coprocessor _ ?_)
    rcases hs with ⟨h, -⟩ | h
    · exact absurd h h3
    · exact h

theorem raisesUndefined_mcr : RaisesUndefined (coreOfWord 0xEE000010) :=
  (raisesUndefined_iff _ _ (armFetch_coreOfWord 0xEE000010) (by decide +kernel)
    (by decide +kernel)).mpr (by decide +kernel)

/-- The breakpoint word is executed as `ldrb r0, [r0, r0, ror #1]!`. -/
theorem breakpoint_not_undefined :
    ¬ ∀ (p : ArmCore) (ins : Word), (armFetch p).1 = some ins →
      conditionPassed (armFetch p).2 ins = true → UndefinedSpace ins → RaisesUndefined p := by
  intro h
  have hf := armFetch_coreOfWord 0xE7F000F0
  have hc : conditionPassed (armFetch (coreOfWord 0xE7F000F0)).2 0xE7F000F0 = true := by
    decide +kernel
  have h3 : getBits 0xE7F000F0 27 25 = 0b011 := by decide +kernel
  refine not_raisesUndefined_of_dispatch hf hc (fun _ _ hd => result_of_undefined h3 hd) ?_
  exact h _ _ hf hc (Or.inl ⟨h3, by decide +kernel⟩)

end Armator
