import Armator.Core
import Armator.Memory.Refinement

/-!
# The bounds of the memory

The six accesses of `memory.c` check their address against `mem->size`,
`mem->size - 1` or `mem->size - 3`, in a `size_t` that wraps around.  `MemoryCall` is
one call and `outcome` what it leaves: the `int` it returns, the number it put
through the value pointer, and the memory.

`MemoryCall.Bounded` is what a bounds check is for: the call returns 0 exactly when
it lies in the memory, a refused one neither reads nor changes a byte, and no
call reads or changes a byte behind the memory.  The difference does not wrap in
a memory of at least `width - 1` bytes, and then the check is exact
(`admits_iff`).  In a smaller one it wraps and admits every address
(`admits_of_wrap`).
-/

namespace Armator

/-! ### The calls -/

inductive MemoryCall
  | readByte (address : Word)
  | readHalf (address : Word)
  | readWord (address : Word)
  | write (w : Write)

namespace MemoryCall

def address : MemoryCall → Nat
  | readByte a => a.toNat
  | readHalf a => a.toNat
  | readWord a => a.toNat
  | write w => w.address

def width : MemoryCall → Nat
  | readByte _ => 1
  | readHalf _ => 2
  | readWord _ => 4
  | write w => w.width

def Fits (size : Nat) (c : MemoryCall) : Prop := c.address + c.width ≤ size

instance (size : Nat) (c : MemoryCall) : Decidable (c.Fits size) :=
  inferInstanceAs (Decidable (c.address + c.width ≤ size))

end MemoryCall

/-- What a call leaves: the `int` it returns, the number put through the value
pointer, and the memory. -/
@[ext] structure Outcome where
  answer : Int
  value : Option Nat
  mem : Memory

def Outcome.refused (m : Memory) : Outcome := ⟨-1, none, m⟩

def MemoryCall.outcome (host : Endian) (m : Memory) : MemoryCall → Outcome
  | .readByte a => let v := memoryReadByte m a; ⟨status v, v.map BitVec.toNat, m⟩
  | .readHalf a => let v := memoryReadHalf host m a; ⟨status v, v.map BitVec.toNat, m⟩
  | .readWord a => let v := memoryReadWord host m a; ⟨status v, v.map BitVec.toNat, m⟩
  | .write w => let m' := w.exec host m; ⟨status m', none, m'.getD m⟩

def Memory.withBytes (m : Memory) (bytes : Nat → Byte) : Memory := { m with memory := bytes }

/-- **What the bounds check of a call promises.** -/
structure MemoryCall.Bounded (host : Endian) (m : Memory) (c : MemoryCall) : Prop where
  /-- It returns 0 exactly when the access lies in the memory. -/
  answer_eq_zero_iff : (c.outcome host m).answer = 0 ↔ c.Fits m.size.toNat
  /-- Otherwise it returns -1, reads no byte and changes none. -/
  refused_of_not_fits : ¬ c.Fits m.size.toNat →
    ∀ bytes, c.outcome host (m.withBytes bytes) = .refused (m.withBytes bytes)
  /-- It reads no byte from index `size` on: those do not matter to what it returns
  and leaves. -/
  reads_inside : ∀ bytes, (∀ i < m.size.toNat, bytes i = m.memory i) →
    (c.outcome host (m.withBytes bytes)).answer = (c.outcome host m).answer ∧
      (c.outcome host (m.withBytes bytes)).value = (c.outcome host m).value ∧
      ∀ i < m.size.toNat,
        (c.outcome host (m.withBytes bytes)).mem.memory i = (c.outcome host m).mem.memory i
  /-- And it changes none there. -/
  changes_inside : ∀ i, m.size.toNat ≤ i → (c.outcome host m).mem.memory i = m.memory i

/-! ### What a call does -/

/-- The check the call makes, `address >= mem->size - (width - 1)` negated. -/
def MemoryCall.Admitted (m : Memory) (c : MemoryCall) : Prop :=
  c.address < (m.size - BitVec.ofNat 64 (c.width - 1)).toNat

instance (m : Memory) (c : MemoryCall) : Decidable (c.Admitted m) :=
  inferInstanceAs (Decidable (_ < _))

/-- The number an admitted read composes. -/
def MemoryCall.composed (m : Memory) : MemoryCall → Option Nat
  | .write _ => none
  | c => some (digits m.order c.width fun k => m.memory (c.address + k))

/-- The bytes after an admitted call. -/
def MemoryCall.stored (m : Memory) : MemoryCall → Nat → Byte
  | .write w => Bytes.store m.memory w.address w.width (w.byteAt m.order)
  | _ => m.memory

/-- **One call**: the check decides, and an admitted call composes or stores the
bytes from its address on. -/
theorem outcome_eq (host : Endian) (m : Memory) (c : MemoryCall) :
    c.outcome host m =
      if c.Admitted m then ⟨0, c.composed m, m.withBytes (c.stored m)⟩ else .refused m := by
  cases c with
  | readByte a =>
    have hs : m.size - BitVec.ofNat 64 (1 - 1) = m.size := BitVec.sub_zero m.size
    simp only [MemoryCall.outcome, memoryReadByte, MemoryCall.Admitted, MemoryCall.address, MemoryCall.width, hs]
    split
    · refine Outcome.ext rfl ?_ rfl
      have hp : m.order.place 1 0 = 0 := by
        have := m.order.place_lt (n := 1) (k := 0) (by omega)
        omega
      simp [MemoryCall.composed, MemoryCall.width, MemoryCall.address, digits, hp]
    · rfl
  | readHalf a =>
    have hc : m.admits 2 a = true ↔ (MemoryCall.readHalf a).Admitted m := decide_eq_true_iff
    rw [MemoryCall.outcome, memoryReadHalf_eq]
    by_cases h : (MemoryCall.readHalf a).Admitted m
    · rw [if_pos h, if_pos (hc.mpr h)]
      exact Outcome.ext rfl (congrArg some (Bytes.toNat_ofBytes m.order 2 _)) rfl
    · rw [if_neg h, if_neg (mt hc.mp h)]
      rfl
  | readWord a =>
    have hc : m.admits 4 a = true ↔ (MemoryCall.readWord a).Admitted m := decide_eq_true_iff
    rw [MemoryCall.outcome, memoryReadWord_eq]
    by_cases h : (MemoryCall.readWord a).Admitted m
    · rw [if_pos h, if_pos (hc.mpr h)]
      exact Outcome.ext rfl (congrArg some (Bytes.toNat_ofBytes m.order 4 _)) rfl
    · rw [if_neg h, if_neg (mt hc.mp h)]
      rfl
  | write w =>
    have hc : w.address < (m.size - BitVec.ofNat 64 (w.width - 1)).toNat ↔
        (MemoryCall.write w).Admitted m := Iff.rfl
    simp only [MemoryCall.outcome, exec_eq_of_check, hc]
    split
    · rfl
    · rfl

/-! ### The check -/

theorem MemoryCall.width_cases (c : MemoryCall) : c.width = 1 ∨ c.width = 2 ∨ c.width = 4 := by
  rcases c with a | a | a | w
  · exact Or.inl rfl
  · exact Or.inr (Or.inl rfl)
  · exact Or.inr (Or.inr rfl)
  · cases w with
    | byte a v => exact Or.inl rfl
    | half a v => exact Or.inr (Or.inl rfl)
    | word a v => exact Or.inr (Or.inr rfl)

theorem MemoryCall.address_lt (c : MemoryCall) : c.address < 2 ^ 32 := by
  rcases c with a | a | a | w
  · exact a.isLt
  · exact a.isLt
  · exact a.isLt
  · cases w with
    | byte a _ => exact a.isLt
    | half a _ => exact a.isLt
    | word a _ => exact a.isLt

/-- The check is exact where the difference does not wrap around. -/
theorem admitted_iff_fits {m : Memory} {c : MemoryCall} (h : c.width ≤ m.size.toNat + 1) :
    c.Admitted m ↔ c.Fits m.size.toNat := by
  have hs := m.size.isLt
  have hw := c.width_cases
  rw [MemoryCall.Admitted, MemoryCall.Fits, BitVec.toNat_sub, BitVec.toNat_ofNat,
    Nat.mod_eq_of_lt (a := c.width - 1) (by omega)]
  omega

/-- **Where it wraps, every address is admitted**: the difference is a number
beyond all 32-bit addresses. -/
theorem admitted_of_wrap {m : Memory} {c : MemoryCall} (h : m.size.toNat + 1 < c.width) :
    c.Admitted m := by
  have ha := c.address_lt
  have hw := c.width_cases
  rw [MemoryCall.Admitted, BitVec.toNat_sub, BitVec.toNat_ofNat,
    Nat.mod_eq_of_lt (a := c.width - 1) (by omega)]
  omega

theorem answer_eq_zero_iff_admitted (host : Endian) (m : Memory) (c : MemoryCall) :
    (c.outcome host m).answer = 0 ↔ c.Admitted m := by
  rw [outcome_eq]
  split
  next h => exact ⟨fun _ => h, fun _ => rfl⟩
  next h => exact ⟨fun e => absurd (show (-1 : Int) = 0 from e) (by decide), fun e => absurd e h⟩

/-! ### The bytes of a call that fits -/

theorem composed_withBytes {m : Memory} {c : MemoryCall} (hf : c.Fits m.size.toNat)
    {bytes : Nat → Byte} (hb : ∀ i < m.size.toNat, bytes i = m.memory i) :
    c.composed (m.withBytes bytes) = c.composed m := by
  have hd : digits m.order c.width (fun k => bytes (c.address + k))
      = digits m.order c.width (fun k => m.memory (c.address + k)) := by
    unfold digits
    congr 1
    refine List.map_congr_left fun k hk => ?_
    have hp := m.order.place_lt (List.mem_range.mp hk)
    rw [MemoryCall.Fits] at hf
    exact congrArg BitVec.toNat (hb _ (by omega))
  cases c with
  | write w => rfl
  | readByte a => exact congrArg some hd
  | readHalf a => exact congrArg some hd
  | readWord a => exact congrArg some hd

theorem stored_withBytes (m : Memory) (c : MemoryCall) {bytes : Nat → Byte} {i : Nat}
    (hb : bytes i = m.memory i) : c.stored (m.withBytes bytes) i = c.stored m i := by
  cases c with
  | write w =>
    simp only [MemoryCall.stored, Bytes.store]
    rw [show (m.withBytes bytes).memory i = m.memory i from hb]
    rfl
  | readByte a => exact hb
  | readHalf a => exact hb
  | readWord a => exact hb

theorem stored_of_fits {m : Memory} {c : MemoryCall} (hf : c.Fits m.size.toNat) {i : Nat}
    (hi : m.size.toNat ≤ i) : c.stored m i = m.memory i := by
  cases c with
  | write w => exact Bytes.store_of_not_mem _ _ _ _ (Or.inr (Nat.le_trans hf hi))
  | readByte a => rfl
  | readHalf a => rfl
  | readWord a => rfl

theorem bounded_of_fits {host : Endian} {m : Memory} {c : MemoryCall} (hf : c.Fits m.size.toNat)
    (ha : c.Admitted m) : c.Bounded host m := by
  refine ⟨?_, fun h => absurd hf h, fun bytes hb => ?_, fun i hi => ?_⟩
  · rw [answer_eq_zero_iff_admitted]
    exact ⟨fun _ => hf, fun _ => ha⟩
  · rw [outcome_eq, outcome_eq, if_pos ha, if_pos (show c.Admitted (m.withBytes bytes) from ha)]
    exact ⟨rfl, composed_withBytes hf hb, fun i hi => stored_withBytes m c (hb i hi)⟩
  · rw [outcome_eq, if_pos ha]
    exact stored_of_fits hf hi

theorem bounded_of_refused {host : Endian} {m : Memory} {c : MemoryCall}
    (hf : ¬ c.Fits m.size.toNat) (ha : ¬ c.Admitted m) : c.Bounded host m := by
  have hr : ∀ bytes, c.outcome host (m.withBytes bytes) = .refused (m.withBytes bytes) := by
    intro bytes
    rw [outcome_eq, if_neg (show ¬ c.Admitted (m.withBytes bytes) from ha)]
  have hm : c.outcome host m = .refused m := hr m.memory
  refine ⟨?_, fun _ => hr, fun bytes hb => ?_, fun i _ => ?_⟩
  · rw [answer_eq_zero_iff_admitted]
    exact ⟨fun h => absurd h ha, fun h => absurd h hf⟩
  · rw [hr bytes, hm]
    exact ⟨rfl, rfl, hb⟩
  · rw [hm]
    rfl

/-! ### When the bounds hold -/

/-- **The bounds of every memory.**  In a memory created with any size, a call
keeps to its bounds exactly when the memory has at least `width - 1` bytes:
bytes always, halves from size 1 on, words from size 3 on.  In a smaller memory
the call is wrong at every address. -/
theorem bounded_iff (size : BitVec 64) (isBigEndian : Bool) (garbage : Nat → Byte)
    (host : Endian) (c : MemoryCall) :
    c.Bounded host (memoryCreate size isBigEndian garbage) ↔ c.width ≤ size.toNat + 1 := by
  constructor
  · intro hb
    by_contra hw
    have ha : c.Admitted (memoryCreate size isBigEndian garbage) :=
      admitted_of_wrap (Nat.lt_of_not_le hw)
    have hf : c.address + c.width ≤ size.toNat :=
      hb.answer_eq_zero_iff.mp ((answer_eq_zero_iff_admitted host _ c).mpr ha)
    omega
  · intro hw
    have h := admitted_iff_fits (m := memoryCreate size isBigEndian garbage) hw
    by_cases hf : c.Fits size.toNat
    · exact bounded_of_fits hf (h.mpr hf)
    · exact bounded_of_refused hf fun ha => hf (h.mp ha)

/-- A word is read at address 0 of a memory of no bytes at all. -/
theorem not_bounded_empty :
    ¬ ∀ (size : BitVec 64) (isBigEndian : Bool) (garbage : Nat → Byte) (host : Endian)
      (c : MemoryCall), c.Bounded host (memoryCreate size isBigEndian garbage) := by
  intro h
  have hb := h 0 false (fun _ => 0) .little (.readWord 0)
  have ha : ((MemoryCall.readWord 0).outcome .little (memoryCreate 0 false fun _ => 0)).answer = 0 := by
    decide +kernel
  exact absurd (hb.answer_eq_zero_iff.mp ha) (by decide)

end Armator
