import Armator.DataProcessing
import Armator.LoadStore

/-!
# Instructions (`arm_branch_other.c`, `arm_instruction.c`)

The remaining instruction classes, the condition field, the decoder and
`armStep`.  A step fetches, tests the condition, hands the word to its class
(`armDispatch`, the switch of `arm_execute_instruction`) and gives a result that
is not 0 to `armException`.  It is `error` when the process ends in it.
-/

namespace Armator

/-! ### Branches, software interrupts and status reads -/

def armBranch (p : ArmCore) (ins : Word) : Int × ArmCore :=
  let target := getBits ins 23 0
  let target := if bit target 23 then target ||| 0xFF000000 else target
  let target := shl target 2
  let p := if bit ins 24 then armWriteRegister p 14 (armReadRegister p 15 - 4) else p
  (0, armWriteRegister p 15 (armReadRegister p 15 + target))

def armCoprocessorOthersSwi (p : ArmCore) (ins : Word) : Except Halt (Int × ArmCore) :=
  if bit ins 24 then
    if ins &&& 0xFFFFFF = 0x123456 then .error .exited
    else .ok (Exception.softwareInterrupt, p)
  else .ok (Exception.undefinedInstruction, p)

def armMiscellaneous (p : ArmCore) (ins : Word) : Except Halt (Int × ArmCore) := do
  let rd := regNum (getBits ins 15 12)
  if bit ins 22 then
    let value ← armReadSpsr p
    return (0, armWriteRegister p rd value)
  else
    return (0, armWriteRegister p rd (armReadCpsr p))

/-! ### Execution -/

def conditionPassed (p : ArmCore) (value : Word) : Bool :=
  let cpsr := armReadCpsr p
  let n := bit cpsr flagN
  let z := bit cpsr flagZ
  let c := bit cpsr flagC
  let v := bit cpsr flagV
  match (getBits value 31 28).toNat with
  | 0b0000 => z
  | 0b0001 => !z
  | 0b0010 => c
  | 0b0011 => !c
  | 0b0100 => n
  | 0b0101 => !n
  | 0b0110 => v
  | 0b0111 => !v
  | 0b1000 => c && !z
  | 0b1001 => !c || z
  | 0b1010 => v == n
  | 0b1011 => v != n
  | 0b1100 => !z && v == n
  | 0b1101 => z || v != n
  | 0b1110 => true
  | _ => false

/-- The switch over the instruction classes. -/
def armDispatch (p : ArmCore) (ins : Word) : Except Halt (Int × ArmCore) :=
  match (getBits ins 27 25).toNat with
  | 0b000 =>
    if bit ins 7 ∧ bit ins 4 then .ok (armLoadStore p ins)
    else if bit ins 24 ∧ ¬bit ins 23 ∧ ¬bit ins 20 ∧ ¬bit ins 4 then armMiscellaneous p ins
    else .ok (armDataProcessingShift p ins)
  | 0b001 => .ok (armDataProcessingShift p ins)
  | 0b010 => .ok (armLoadStore p ins)
  | 0b011 => .ok (armLoadStore p ins)
  | 0b100 => armLoadStoreMultiple p ins
  | 0b101 => .ok (armBranch p ins)
  | 0b111 => armCoprocessorOthersSwi p ins
  | _ => .ok (Exception.undefinedInstruction, p)

def armExecuteInstruction (p : ArmCore) : Except Halt (Int × ArmCore) :=
  match armFetch p with
  | (none, p) => .ok (-1, p)
  | (some ins, p) => if conditionPassed p ins then armDispatch p ins else .ok (0, p)

def armStep (p : ArmCore) : Except Halt (Int × ArmCore) := do
  let (result, p) ← armExecuteInstruction p
  if result ≠ 0 then return (result, armException p (BitVec.ofInt 8 result))
  else return (result, p)

/-! ### What a step returns

The results of the instruction classes are 0 and three of the exceptions, none of
which is a reset, and a failed fetch gives -1: `armException` does nothing for
them, and a step is the execution of one instruction (`armStep_eq`). -/

theorem armMiscellaneous_result {p q : ArmCore} {ins : Word} {r : Int}
    (h : armMiscellaneous p ins = .ok (r, q)) : r = 0 := by
  unfold armMiscellaneous at h
  dsimp only at h
  split at h
  · cases hs : armReadSpsr p with
    | error e => rw [hs] at h; cases h
    | ok v => rw [hs] at h; cases h; rfl
  · cases h; rfl

theorem armLoadStoreMultiple_result {p q : ArmCore} {ins : Word} {r : Int}
    (h : armLoadStoreMultiple p ins = .ok (r, q)) : r = 0 ∨ r = Exception.dataAbort := by
  have hb : ∃ b, (r, q) = blockEnd ins b := by
    rw [armLoadStoreMultiple] at h
    split at h
    · exact ldm_ok h
    · exact ⟨_, (Except.ok.inj h).symm⟩
  obtain ⟨b, e⟩ := hb
  have := blockEnd_result ins b
  rw [← e] at this
  exact this

/-- **What dispatching a word can do**: whatever holds of each instruction class
holds of the decoder. -/
theorem armDispatch_cases {motive : Except Halt (Int × ArmCore) → Prop} {p : ArmCore} {ins : Word}
    (loadStore : motive (.ok (armLoadStore p ins)))
    (miscellaneous : motive (armMiscellaneous p ins))
    (dataProcessing : motive (.ok (armDataProcessingShift p ins)))
    (loadStoreMultiple : motive (armLoadStoreMultiple p ins))
    (branch : motive (.ok (armBranch p ins)))
    (exited : motive (.error .exited))
    (softwareInterrupt : motive (.ok (Exception.softwareInterrupt, p)))
    (undefined : motive (.ok (Exception.undefinedInstruction, p))) :
    motive (armDispatch p ins) := by
  unfold armDispatch
  split
  · split
    · exact loadStore
    · split
      · exact miscellaneous
      · exact dataProcessing
  · exact dataProcessing
  · exact loadStore
  · exact loadStore
  · exact loadStoreMultiple
  · exact branch
  · rw [armCoprocessorOthersSwi]
    split
    · split
      · exact exited
      · exact softwareInterrupt
    · exact undefined
  · exact undefined

theorem armDispatch_result {p : ArmCore} {ins : Word} : ∀ {r : Int} {q : ArmCore},
    armDispatch p ins = .ok (r, q) →
      r = 0 ∨ r = Exception.undefinedInstruction ∨ r = Exception.softwareInterrupt ∨
        r = Exception.dataAbort := by
  apply armDispatch_cases (motive := fun x => ∀ {r : Int} {q : ArmCore}, x = .ok (r, q) →
    r = 0 ∨ r = Exception.undefinedInstruction ∨ r = Exception.softwareInterrupt ∨
      r = Exception.dataAbort)
  case loadStore =>
    intro r q h
    rcases armLoadStore_result (Except.ok.inj h) with e | e
    · exact Or.inl e
    · exact Or.inr (Or.inr (Or.inr e))
  case miscellaneous =>
    intro r q h
    exact Or.inl (armMiscellaneous_result h)
  case dataProcessing =>
    intro r q h
    cases h
    exact Or.inl rfl
  case loadStoreMultiple =>
    intro r q h
    rcases armLoadStoreMultiple_result h with e | e
    · exact Or.inl e
    · exact Or.inr (Or.inr (Or.inr e))
  case branch =>
    intro r q h
    cases h
    exact Or.inl rfl
  case exited =>
    intro r q h
    cases h
  case softwareInterrupt =>
    intro r q h
    cases h
    exact Or.inr (Or.inr (Or.inl rfl))
  case undefined =>
    intro r q h
    cases h
    exact Or.inr (Or.inl rfl)

theorem armExecuteInstruction_result {p q : ArmCore} {r : Int}
    (h : armExecuteInstruction p = .ok (r, q)) :
    r = 0 ∨ r = -1 ∨ r = Exception.undefinedInstruction ∨ r = Exception.softwareInterrupt ∨
      r = Exception.dataAbort := by
  rw [armExecuteInstruction] at h
  split at h
  · cases h; exact Or.inr (Or.inl rfl)
  · split at h
    · rcases armDispatch_result h with e | e | e | e <;> simp [e]
    · cases h; exact Or.inl rfl

/-- **The exceptions an instruction raises change nothing.** -/
theorem armException_result {p q q' : ArmCore} {r : Int}
    (h : armExecuteInstruction p = .ok (r, q)) : armException q' (BitVec.ofInt 8 r) = q' := by
  rcases armExecuteInstruction_result h with rfl | rfl | rfl | rfl | rfl <;> rfl

theorem armStep_eq (p : ArmCore) : armStep p = armExecuteInstruction p := by
  unfold armStep
  cases h : armExecuteInstruction p with
  | error e => rfl
  | ok rq =>
    obtain ⟨r, q⟩ := rq
    simp only [Bind.bind, Except.bind, armException_result h]
    split <;> rfl

theorem armStep_of_not_fetched {p : ArmCore} (h : (armFetch p).1 = none) :
    armStep p = .ok (-1, (armFetch p).2) := by
  rw [armStep_eq, armExecuteInstruction, show armFetch p = (none, (armFetch p).2) by rw [← h]]

theorem armStep_of_fetched {p : ArmCore} {ins : Word} (h : (armFetch p).1 = some ins) :
    armStep p = if conditionPassed (armFetch p).2 ins then armDispatch (armFetch p).2 ins
      else .ok (0, (armFetch p).2) := by
  rw [armStep_eq, armExecuteInstruction, show armFetch p = (some ins, (armFetch p).2) by rw [← h]]

/-- **What a step can do**: fail to fetch, skip an instruction whose condition fails,
or dispatch it. -/
theorem armStep_ok_cases {p q : ArmCore} {r : Int} (h : armStep p = .ok (r, q)) :
    (armFetch p).1 = none ∧ r = -1 ∧ q = (armFetch p).2 ∨
    ∃ ins, (armFetch p).1 = some ins ∧
      (conditionPassed (armFetch p).2 ins = false ∧ r = 0 ∧ q = (armFetch p).2 ∨
        conditionPassed (armFetch p).2 ins = true ∧
          armDispatch (armFetch p).2 ins = .ok (r, q)) := by
  cases hf : (armFetch p).1 with
  | none =>
    rw [armStep_of_not_fetched hf] at h
    cases h
    exact Or.inl ⟨rfl, rfl, rfl⟩
  | some ins =>
    refine Or.inr ⟨ins, rfl, ?_⟩
    rw [armStep_of_fetched hf] at h
    split at h
    next hc => exact Or.inr ⟨hc, h⟩
    next hc =>
      cases h
      exact Or.inl ⟨Bool.eq_false_iff.mpr hc, rfl, rfl⟩

/-- A step that fetches `ins` and whose condition passes dispatches it. -/
theorem armStep_of_passed {p : ArmCore} {ins : Word} (hf : (armFetch p).1 = some ins)
    (hc : conditionPassed (armFetch p).2 ins = true) :
    armStep p = armDispatch (armFetch p).2 ins := by
  rw [armStep_of_fetched hf, if_pos hc]

end Armator
