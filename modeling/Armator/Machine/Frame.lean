import Armator.Lib.Hoare
import Armator.Machine.Assembly

/-!
# What a program does not touch

`Visible.accesses` are the words and bytes that a step of the machine fetches, reads or
writes.  Other bytes can be replaced: the step does the same with them (`step_patched`),
and so does every run that spares them (`after_patched`).  So a run leaves the bytes that
it spares as they were (`after_spares`).
-/

namespace Armator

/-- The access shares no byte with the `n` bytes from index `a` on. -/
def DataAccess.Spares (x : DataAccess) (a n : Nat) : Prop :=
  x.address.toNat + x.width ≤ a ∨ a + n ≤ x.address.toNat

/-- As many words as the list has elements. -/
def wordsFrom (address : Word) : List (Fin 16) → List DataAccess
  | [] => []
  | _ :: l => ⟨address, 4⟩ :: wordsFrom (address + 4) l

def Instr.accesses (m : Visible) : Instr → List DataAccess
  | transfer t _ rn x pBit uBit _ =>
    [⟨effectiveAddress (m.read rn) (x.value m).1 pBit uBit, t.width.bytes⟩]
  | block _ rn l pBit _ => wordsFrom (if pBit then m.read rn + 4 else m.read rn) l
  | _ => []

/-- What a step fetches, reads and writes. -/
def Visible.accesses (m : Visible) : List DataAccess :=
  let ins := m.mem.value (m.r 15) 4
  ⟨m.r 15, 4⟩ ::
    if m.passes (getBits ins 31 28).toNat then
      match decodeInstr ins with
      | some i => i.accesses m.fetched
      | none => []
    else []

/-- The next step does not touch the `n` bytes from index `a` on. -/
def Visible.Spares (m : Visible) (a n : Nat) : Prop := ∀ x ∈ m.accesses, x.Spares a n

/-! ### Other bytes -/

/-- Other bytes in the place of `n` bytes from index `a` on. -/
def Memory.patched (mem : Memory) (a n : Nat) (b : Nat → Byte) : Memory :=
  { mem with memory := Bytes.store mem.memory a n b }

def Visible.patched (m : Visible) (a n : Nat) (b : Nat → Byte) : Visible :=
  { m with mem := m.mem.patched a n b }

section Patched

variable {a n : Nat} (b : Nat → Byte)

/-- An access beside the bytes reads what it read. -/
theorem value_patched (mem : Memory) {x : DataAccess} (h : x.Spares a n) :
    (mem.patched a n b).value x.address x.width = mem.value x.address x.width :=
  congrArg (BitVec.setWidth 32) (Bytes.ofBytes_store_disjoint mem.order mem.memory b (Or.symm h))

/-- A store beside the bytes comes to the same before and after. -/
theorem stored_patched (mem : Memory) {x : DataAccess} (h : x.Spares a n) (v : Word) :
    (mem.patched a n b).stored x.address x.width v =
      (mem.stored x.address x.width v).patched a n b := by
  have hcomm : ∀ c : Nat → Byte,
      Bytes.store (Bytes.store mem.memory a n b) x.address.toNat x.width c =
        Bytes.store (Bytes.store mem.memory x.address.toNat x.width c) a n b := by
    intro c
    funext i
    by_cases hi : a ≤ i ∧ i < a + n
    · rw [Bytes.store_of_not_mem _ _ _ _ (by rcases h with h | h <;> omega)]
      simp only [Bytes.store, if_pos hi]
    · rw [Bytes.store_of_not_mem _ a n b (by omega)]
      simp only [Bytes.store, if_neg hi]
  exact congrArg (fun f => ({ mem with memory := f } : Memory)) (hcomm _)

theorem patched_patched (m : Visible) (c : Nat → Byte) :
    (m.patched a n b).patched a n c = m.patched a n c := by
  have hstore : Bytes.store (Bytes.store m.mem.memory a n b) a n c =
      Bytes.store m.mem.memory a n c := by
    funext i
    simp only [Bytes.store]
    split <;> rfl
  exact congrArg (fun f => ({ m with mem := { m.mem with memory := f } } : Visible)) hstore

/-- The bytes that are there. -/
theorem patched_self (m : Visible) (h : ∀ j < n, b j = m.mem.memory (a + j)) :
    m.patched a n b = m := by
  have hstore : Bytes.store m.mem.memory a n b = m.mem.memory := by
    funext i
    rw [Bytes.store]
    split
    next hi =>
      obtain ⟨j, rfl⟩ := Nat.exists_eq_add_of_le hi.1
      rw [Nat.add_sub_cancel_left, h j (by omega)]
    next => rfl
  exact congrArg (fun f => ({ m with mem := { m.mem with memory := f } } : Visible)) hstore

end Patched

/-! ### A step that spares them -/

section Step

variable {a n : Nat} (b : Nat → Byte)

theorem loads_patched (m : Visible) (address : Word) (l : List (Fin 16))
    (h : ∀ x ∈ wordsFrom address l, x.Spares a n) :
    (m.patched a n b).loads address l = (m.loads address l).map (·.patched a n b) := by
  induction l generalizing m address with
  | nil => rfl
  | cons i l ih =>
    have hx : (⟨address, 4⟩ : DataAccess).Spares a n := h _ List.mem_cons_self
    have hl : ∀ x ∈ wordsFrom (address + 4) l, x.Spares a n :=
      fun x hx => h x (List.mem_cons_of_mem _ hx)
    rw [Visible.loads, Visible.loads]
    by_cases hin : (⟨address, 4⟩ : DataAccess).InMemory m.mem
    · rw [if_pos hin, if_pos (show (⟨address, 4⟩ : DataAccess).InMemory (m.patched a n b).mem from hin),
        ← ih _ _ hl]
      exact congrArg (fun v => (Visible.write _ i (loaded i v)).loads (address + 4) l)
        (value_patched b m.mem hx)
    · rw [if_neg hin, if_neg (show ¬ (⟨address, 4⟩ : DataAccess).InMemory (m.patched a n b).mem from hin)]
      rfl

theorem stores_patched (m : Visible) (address : Word) (l : List (Fin 16))
    (h : ∀ x ∈ wordsFrom address l, x.Spares a n) :
    (m.patched a n b).stores address l = (m.stores address l).map (·.patched a n b) := by
  induction l generalizing m address with
  | nil => rfl
  | cons i l ih =>
    have hx : (⟨address, 4⟩ : DataAccess).Spares a n := h _ List.mem_cons_self
    have hl : ∀ x ∈ wordsFrom (address + 4) l, x.Spares a n :=
      fun x hx => h x (List.mem_cons_of_mem _ hx)
    rw [Visible.stores, Visible.stores]
    by_cases hin : (⟨address, 4⟩ : DataAccess).InMemory m.mem
    · rw [if_pos hin, if_pos (show (⟨address, 4⟩ : DataAccess).InMemory (m.patched a n b).mem from hin),
        ← ih _ _ hl]
      exact congrArg (fun mem => Visible.stores { m with mem := mem } (address + 4) l)
        (stored_patched b m.mem hx (m.read i))
    · rw [if_neg hin, if_neg (show ¬ (⟨address, 4⟩ : DataAccess).InMemory (m.patched a n b).mem from hin)]
      rfl

theorem value_operand_patched (m : Visible) (x : Operand) :
    x.value (m.patched a n b) = x.value m ∧ x.known (m.patched a n b) = x.known m := by
  cases x <;> exact ⟨rfl, rfl⟩

theorem operation_patched (m : Visible) (o : Operation) (sBit : Bool) (rd : Fin 16) (rn : Word)
    (x : Word × Word) :
    (m.patched a n b).operation o sBit rd rn x = (m.operation o sBit rd rn x).patched a n b := by
  rw [Visible.operation, Visible.operation]
  cases o.compares <;> cases sBit <;> rfl

theorem writtenBack_patched (m : Visible) (rn : Fin 16) (base off : Word) (pBit uBit wBit : Bool) :
    (m.patched a n b).writtenBack rn base off pBit uBit wBit =
      (m.writtenBack rn base off pBit uBit wBit).patched a n b := by
  rw [Visible.writtenBack, Visible.writtenBack]
  split <;> rfl

theorem transfer_patched (m : Visible) (t : Transfer) (rd rn : Fin 16) (off : Word)
    (pBit uBit wBit : Bool)
    (h : (⟨effectiveAddress (m.read rn) off pBit uBit, t.width.bytes⟩ : DataAccess).Spares a n) :
    (m.patched a n b).transfer t rd rn off pBit uBit wBit =
      (m.transfer t rd rn off pBit uBit wBit).map (·.patched a n b) := by
  have hvalue := value_patched b m.mem h
  have hstored := stored_patched b m.mem h (m.read rd)
  unfold Visible.transfer
  by_cases hin : (⟨effectiveAddress (m.read rn) off pBit uBit, t.width.bytes⟩ : DataAccess).InMemory m.mem
  · have hin' : (⟨effectiveAddress ((m.patched a n b).read rn) off pBit uBit, t.width.bytes⟩ :
        DataAccess).InMemory (m.patched a n b).mem := hin
    simp only [if_pos hin, if_pos hin']
    cases t.loads with
    | true =>
      have hread : (m.patched a n b).mem.value
          (effectiveAddress ((m.patched a n b).read rn) off pBit uBit) t.width.bytes =
            m.mem.value (effectiveAddress (m.read rn) off pBit uBit) t.width.bytes := hvalue
      rw [if_pos rfl, if_pos rfl, hread, writtenBack_patched]
      rfl
    | false =>
      have hmem : (m.patched a n b).mem.stored
          (effectiveAddress ((m.patched a n b).read rn) off pBit uBit) t.width.bytes
          ((m.patched a n b).read rd) =
            (m.mem.stored (effectiveAddress (m.read rn) off pBit uBit) t.width.bytes
              (m.read rd)).patched a n b := hstored
      rw [if_neg Bool.false_ne_true, if_neg Bool.false_ne_true, hmem]
      have hback := writtenBack_patched (a := a) (n := n) b { m with
        mem := m.mem.stored (effectiveAddress (m.read rn) off pBit uBit) t.width.bytes (m.read rd) }
        rn (m.read rn) off pBit uBit wBit
      exact congrArg Except.ok hback
  · have hin' : ¬ (⟨effectiveAddress ((m.patched a n b).read rn) off pBit uBit, t.width.bytes⟩ :
        DataAccess).InMemory (m.patched a n b).mem := hin
    rw [if_neg hin, if_neg hin']
    rfl

theorem block_patched (m : Visible) (load : Bool) (rn : Fin 16) (l : List (Fin 16))
    (pBit wBit : Bool)
    (h : ∀ x ∈ wordsFrom (if pBit then m.read rn + 4 else m.read rn) l, x.Spares a n) :
    (m.patched a n b).block load rn l pBit wBit =
      (m.block load rn l pBit wBit).map (·.patched a n b) := by
  have hdone : (if load then (m.patched a n b).loads (if pBit then m.read rn + 4 else m.read rn) l
        else (m.patched a n b).stores (if pBit then m.read rn + 4 else m.read rn) l) =
      (if load then m.loads (if pBit then m.read rn + 4 else m.read rn) l
        else m.stores (if pBit then m.read rn + 4 else m.read rn) l).map (·.patched a n b) := by
    cases load with
    | true => exact loads_patched b m _ l h
    | false => exact stores_patched b m _ l h
  have hread : (m.patched a n b).read rn = m.read rn := rfl
  unfold Visible.block
  simp only [hread, hdone]
  generalize (if load then m.loads (if pBit then m.read rn + 4 else m.read rn) l
    else m.stores (if pBit then m.read rn + 4 else m.read rn) l) = done
  cases done with
  | error e => rfl
  | ok m' => cases wBit <;> rfl

/-- **An instruction does the same beside other bytes.** -/
theorem exec_patched (m : Visible) (i : Instr) (h : ∀ x ∈ i.accesses m, x.Spares a n) :
    i.exec (m.patched a n b) = (i.exec m).map (·.patched a n b) := by
  cases i with
  | operation o sBit rd rn x =>
    obtain ⟨hv, hk⟩ := value_operand_patched b m x
    rw [Instr.exec, Instr.exec, hv, hk]
    split
    · exact congrArg Except.ok (operation_patched b m o sBit rd (m.read rn) (x.value m))
    · rfl
  | additive o rd rn x =>
    obtain ⟨hv, hk⟩ := value_operand_patched b m x
    rw [Instr.exec, Instr.exec, hv, hk]
    split <;> rfl
  | transfer t rd rn x pBit uBit wBit =>
    rw [Instr.exec, Instr.exec, (value_operand_patched b m x).1]
    exact transfer_patched b m t rd rn _ pBit uBit wBit (h _ List.mem_cons_self)
  | block load rn l pBit wBit => exact block_patched b m load rn l pBit wBit h
  | branch link offset => cases link <;> rfl
  | exit => rfl

/-- **A step does the same beside other bytes.** -/
theorem step_patched {m : Visible} (h : m.Spares a n) :
    (m.patched a n b).step = m.step.map (·.patched a n b) := by
  have hfetch : (⟨m.r 15, 4⟩ : DataAccess).Spares a n := h _ List.mem_cons_self
  have hins : (m.patched a n b).mem.value ((m.patched a n b).r 15) 4 = m.mem.value (m.r 15) 4 :=
    value_patched b m.mem hfetch
  have hpasses : ∀ k, (m.patched a n b).passes k = m.passes k := fun _ => rfl
  rw [Visible.step, Visible.step]
  by_cases hf : (m.r 15).toNat % 4 = 0 ∧ (⟨m.r 15, 4⟩ : DataAccess).InMemory m.mem
  · have hf' : ((m.patched a n b).r 15).toNat % 4 = 0 ∧
        (⟨(m.patched a n b).r 15, 4⟩ : DataAccess).InMemory (m.patched a n b).mem := hf
    rw [if_pos hf, if_pos hf']
    simp only [hins, hpasses]
    cases hp : m.passes (getBits (m.mem.value (m.r 15) 4) 31 28).toNat with
    | false => rfl
    | true =>
      cases hd : decodeInstr (m.mem.value (m.r 15) 4) with
      | none => rfl
      | some i =>
        refine exec_patched b m.fetched i fun x hx => h x (List.mem_cons_of_mem _ ?_)
        simp only [hp, hd, if_true]
        exact hx
  · have hf' : ¬ (((m.patched a n b).r 15).toNat % 4 = 0 ∧
        (⟨(m.patched a n b).r 15, 4⟩ : DataAccess).InMemory (m.patched a n b).mem) := hf
    rw [if_neg hf, if_neg hf']
    rfl

end Step

/-! ### A run that spares them -/

section Run

variable {a n k : Nat} {m : Visible}
  (h : ∀ j < k, ∀ t, Hoare.after Visible.step j m = .ok t → t.Spares a n)

include h

/-- **A run does the same beside other bytes.** -/
theorem after_patched (b : Nat → Byte) :
    Hoare.after Visible.step k (m.patched a n b) =
      (Hoare.after Visible.step k m).map (·.patched a n b) :=
  Hoare.after_map fun j hj t ht => step_patched b (h j hj t ht)

/-- **A run leaves the bytes that it spares.** -/
theorem after_spares {m' : Visible} (hm : Hoare.after Visible.step k m = .ok m') {j : Nat}
    (hj : j < n) : m'.mem.memory (a + j) = m.mem.memory (a + j) := by
  have hself := after_patched h fun j => m.mem.memory (a + j)
  rw [patched_self _ m fun _ _ => rfl, hm] at hself
  have hm' : m' = m'.patched a n fun j => m.mem.memory (a + j) := Except.ok.inj hself
  rw [hm']
  exact Bytes.store_add m'.mem.memory a n (fun j => m.mem.memory (a + j)) hj

end Run

end Armator
