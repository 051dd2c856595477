import Armator.Lib.Run
import Armator.Memory

/-!
# What a memory remembers

The purpose of `memory.c`, said without pointers, hosts or byte reversal: a
memory is a map from indices to bytes, a write that fits puts the base-256
digits of its value at consecutive indices in the memory's own order, a write
that does not fit is refused and forgotten, and a read composes the bytes that
were last put where it looks.

`lastByte` is that map after a sequence of writes, found by searching the
sequence backwards; `digits` composes its bytes.  `exec_eq` is the step: one call
does what `Write.puts` says.  By induction over the calls the bytes of the memory
are `lastByte` (`memory_writeAll`), and `memory_refines` reads it off through the
three reads.
-/

namespace Armator

/-! ### The abstract memory -/

/-- A call of one of the three writes. -/
inductive Write
  | byte (address : Word) (value : Byte)
  | half (address : Word) (value : Half)
  | word (address : Word) (value : Word)

namespace Write

def address : Write → Nat
  | byte a _ => a.toNat
  | half a _ => a.toNat
  | word a _ => a.toNat

def width : Write → Nat
  | byte _ _ => 1
  | half _ _ => 2
  | word _ _ => 4

def number : Write → Nat
  | byte _ v => v.toNat
  | half _ v => v.toNat
  | word _ v => v.toNat

/-- The write lies in a memory of this size. -/
def Fits (size : Nat) (w : Write) : Prop := w.address + w.width ≤ size

instance (size : Nat) (w : Write) : Decidable (w.Fits size) :=
  inferInstanceAs (Decidable (w.address + w.width ≤ size))

/-- The byte that the write leaves `k` places after its address. -/
def byteAt (e : Endian) (w : Write) (k : Nat) : Byte :=
  BitVec.ofNat 8 (w.number / 256 ^ e.place w.width k)

/-- The byte that the write leaves at index `i`, if it succeeds and covers it. -/
def puts (size : Nat) (e : Endian) (i : Nat) (w : Write) : Option Byte :=
  if w.Fits size ∧ w.address ≤ i ∧ i < w.address + w.width then some (w.byteAt e (i - w.address))
  else none

end Write

/-- The byte last put at index `i`, or the one the memory `m` had there. -/
def lastByte (m : Memory) (ws : List Write) (i : Nat) : Byte :=
  (ws.reverse.findSome? (Write.puts m.size.toNat m.order i)).getD (m.memory i)

/-- The number with the bytes `b 0 … b (n - 1)` as digits, in the order `e`. -/
def digits (e : Endian) (n : Nat) (b : Nat → Byte) : Nat :=
  Nat.ofDigits 256 ((List.range n).map fun k => (b (e.place n k)).toNat)

/-! ### The calls -/

/-- The call itself: the memory after it, `none` when it returns -1. -/
def Write.exec (host : Endian) (m : Memory) : Write → Option Memory
  | .byte a v => memoryWriteByte m a v
  | .half a v => memoryWriteHalf host m a v
  | .word a v => memoryWriteWord host m a v

/-- The calls in order. -/
def writeAll (host : Endian) (m : Memory) (ws : List Write) : Memory :=
  ws.foldl (fun m w => (w.exec host m).getD m) m

theorem writeAll_concat (host : Endian) (m : Memory) (ws : List Write) (w : Write) :
    writeAll host m (ws ++ [w]) = (w.exec host (writeAll host m ws)).getD (writeAll host m ws) := by
  rw [writeAll, List.foldl_append]
  rfl

theorem lastByte_concat (m : Memory) (ws : List Write) (w : Write) (i : Nat) :
    lastByte m (ws ++ [w]) i = (w.puts m.size.toNat m.order i).getD (lastByte m ws i) :=
  Run.lastSet_concat _ _ ws w

theorem writeByte_store (m : Memory) (a : Word) (v : Byte) :
    Bytes.store m.memory a.toNat 1 (fun _ => v)
      = Bytes.store m.memory a.toNat 1 ((Write.byte a v).byteAt m.order) := by
  refine Bytes.store_congr _ _ fun k hk => ?_
  have hp : m.order.place 1 k = 0 := by
    have := m.order.place_lt hk
    omega
  simp [Write.byteAt, Write.width, Write.number, hp]

/-- One call, in a memory of any size: it makes its check, in which the size may wrap
around, and stores the bytes the write says. -/
theorem exec_eq_of_check (host : Endian) (m : Memory) (w : Write) :
    w.exec host m =
      if w.address < (m.size - BitVec.ofNat 64 (w.width - 1)).toNat then
        some { m with memory := Bytes.store m.memory w.address w.width (w.byteAt m.order) }
      else none := by
  cases w with
  | byte a v =>
    have hs : m.size - BitVec.ofNat 64 (1 - 1) = m.size := BitVec.sub_zero m.size
    simp only [Write.exec, memoryWriteByte, writeByte_store, Write.address, Write.width, hs]
  | half a v =>
    simp only [Write.exec, memoryWriteHalf_eq, Memory.admits, decide_eq_true_iff]
    rw [Bytes.store_congr m.memory _ fun k _ => Bytes.byteOf_eq_ofNat m.order 2 v k]
    rfl
  | word a v =>
    simp only [Write.exec, memoryWriteWord_eq, Memory.admits, decide_eq_true_iff]
    rw [Bytes.store_congr m.memory _ fun k _ => Bytes.byteOf_eq_ofNat m.order 4 v k]
    rfl

theorem check_iff_fits {m : Memory} (hs : 4 ≤ m.size.toNat) (w : Write) :
    w.address < (m.size - BitVec.ofNat 64 (w.width - 1)).toNat ↔ w.Fits m.size.toNat := by
  have hadmits : ∀ (n : Nat) (a : Word), 0 < n → n ≤ 4 →
      (a.toNat < (m.size - BitVec.ofNat 64 (n - 1)).toNat ↔ a.toNat + n ≤ m.size.toNat) := by
    intro n a hn0 hn
    rw [← admits_iff (by omega) hn0 a, Memory.admits, decide_eq_true_iff]
  cases w with
  | byte a v => exact hadmits 1 a (by decide) (by decide)
  | half a v => exact hadmits 2 a (by decide) (by decide)
  | word a v => exact hadmits 4 a (by decide) (by decide)

/-- **One call**: it succeeds exactly when the write fits, and it stores the
bytes the write says. -/
theorem exec_eq {m : Memory} (hs : 4 ≤ m.size.toNat) (host : Endian) (w : Write) :
    w.exec host m =
      if w.Fits m.size.toNat then
        some { m with memory := Bytes.store m.memory w.address w.width (w.byteAt m.order) }
      else none := by
  rw [exec_eq_of_check]
  by_cases hf : w.Fits m.size.toNat
  · rw [if_pos hf, if_pos ((check_iff_fits hs w).mpr hf)]
  · rw [if_neg hf, if_neg (mt (check_iff_fits hs w).mp hf)]

/-- What one call leaves at index `i`. -/
theorem memory_exec {m : Memory} (hs : 4 ≤ m.size.toNat) (host : Endian) (w : Write) (i : Nat) :
    ((w.exec host m).getD m).memory i = (w.puts m.size.toNat m.order i).getD (m.memory i) := by
  rw [exec_eq hs, Write.puts]
  by_cases hf : w.Fits m.size.toNat
  · by_cases hi : w.address ≤ i ∧ i < w.address + w.width
    · simp [hf, hi, Bytes.store]
    · simp [hf, hi, Bytes.store]
  · simp [hf]

theorem exec_size_order {m : Memory} (hs : 4 ≤ m.size.toNat) (host : Endian) (w : Write) :
    ((w.exec host m).getD m).size = m.size ∧ ((w.exec host m).getD m).order = m.order := by
  rw [exec_eq hs]
  split <;> exact ⟨rfl, rfl⟩

/-- **The bytes of the memory are the ones last put**, by induction over the
calls. -/
theorem memory_writeAll {m : Memory} (hs : 4 ≤ m.size.toNat) (host : Endian) (ws : List Write) :
    (writeAll host m ws).size = m.size ∧ (writeAll host m ws).order = m.order ∧
      ∀ i, (writeAll host m ws).memory i = lastByte m ws i := by
  induction ws using List.reverseRecOn with
  | nil => exact ⟨rfl, rfl, fun _ => rfl⟩
  | append_singleton ws w ih =>
    obtain ⟨hsize, horder, hmem⟩ := ih
    have hs' : 4 ≤ (writeAll host m ws).size.toNat := by rw [hsize]; exact hs
    obtain ⟨h1, h2⟩ := exec_size_order hs' host w
    rw [writeAll_concat]
    refine ⟨h1.trans hsize, h2.trans horder, fun i => ?_⟩
    rw [memory_exec hs', lastByte_concat, hsize, horder, hmem i]

theorem writeAll_host (host host' : Endian) {m : Memory} (hs : 4 ≤ m.size.toNat)
    (ws : List Write) : writeAll host m ws = writeAll host' m ws := by
  induction ws using List.reverseRecOn with
  | nil => rfl
  | append_singleton ws w ih =>
    have hs' : 4 ≤ (writeAll host' m ws).size.toNat := by
      rw [(memory_writeAll hs host' ws).1]
      exact hs
    rw [writeAll_concat, writeAll_concat, ih, exec_eq hs', exec_eq hs']

/-! ### The reads -/

theorem memoryReadByte_eq_some {m : Memory} {a : Word} {v : Byte}
    (h : memoryReadByte m a = some v) : v = m.memory a.toNat := by
  unfold memoryReadByte at h
  split at h
  · exact (Option.some.inj h).symm
  · cases h

theorem toNat_memoryReadHalf {host : Endian} {m : Memory} {a : Word} {v : Half}
    (h : memoryReadHalf host m a = some v) :
    v.toNat = digits m.order 2 fun k => m.memory (a.toNat + k) := by
  rw [memoryReadHalf_eq] at h
  split at h
  · rw [← Option.some.inj h]
    exact Bytes.toNat_ofBytes m.order 2 _
  · cases h

theorem toNat_memoryReadWord {host : Endian} {m : Memory} {a : Word} {v : Word}
    (h : memoryReadWord host m a = some v) :
    v.toNat = digits m.order 4 fun k => m.memory (a.toNat + k) := by
  rw [memoryReadWord_eq] at h
  split at h
  · rw [← Option.some.inj h]
    exact Bytes.toNat_ofBytes m.order 4 _
  · cases h

/-- **The memory refines the map of bytes.**  After any calls on a memory of at
least four bytes: a further call succeeds exactly when it fits; a read that
succeeds gives the number made of the bytes last put; and neither the memory nor
what is read depends on the host. -/
theorem memory_refines (size : BitVec 64) (isBigEndian : Bool) (garbage : Nat → Byte)
    (host : Endian) (ws : List Write) (hs : 4 ≤ size.toNat) :
    let m₀ := memoryCreate size isBigEndian garbage
    let m := writeAll host m₀ ws
    let order := if isBigEndian then Endian.big else Endian.little
    (∀ w : Write, (w.exec host m).isSome ↔ w.Fits size.toNat) ∧
      (∀ a v, memoryReadByte m a = some v → v = lastByte m₀ ws a.toNat) ∧
      (∀ a v, memoryReadHalf host m a = some v →
        v.toNat = digits order 2 fun k => lastByte m₀ ws (a.toNat + k)) ∧
      (∀ a v, memoryReadWord host m a = some v →
        v.toNat = digits order 4 fun k => lastByte m₀ ws (a.toNat + k)) ∧
      ∀ host', writeAll host' m₀ ws = m ∧
        (∀ a, memoryReadHalf host' m a = memoryReadHalf host m a) ∧
        ∀ a, memoryReadWord host' m a = memoryReadWord host m a := by
  intro m₀ m order
  obtain ⟨hsize, horder, hmem⟩ := memory_writeAll (m := m₀) hs host ws
  refine ⟨fun w => ?_, fun a v h => ?_, fun a v h => ?_, fun a v h => ?_, fun host' => ⟨?_, ?_, ?_⟩⟩
  · have hs' : 4 ≤ m.size.toNat := by
      rw [hsize]
      exact hs
    rw [exec_eq hs', hsize]
    by_cases hf : w.Fits size.toNat
    · simp [m₀, memoryCreate, hf]
    · simp [m₀, memoryCreate, hf]
  · rw [memoryReadByte_eq_some h, hmem]
  · rw [toNat_memoryReadHalf h, horder]
    simp only [m, hmem]
    rfl
  · rw [toNat_memoryReadWord h, horder]
    simp only [m, hmem]
    rfl
  · exact writeAll_host host' host hs ws
  · intro a
    rw [memoryReadHalf_eq, memoryReadHalf_eq]
  · intro a
    rw [memoryReadWord_eq, memoryReadWord_eq]

/-- A word, a byte inside it and a word that does not fit, in a big-endian memory
on a little-endian host. -/
theorem memory_refines_overlap :
    let m₀ := memoryCreate 8 true fun _ => 0
    let ws := [Write.word 0 0x01020304, .byte 1 0xFF, .word 6 5]
    memoryReadWord .little (writeAll .little m₀ ws) 0 = some 0x01FF0304 ∧
      (0x01FF0304 : Word).toNat = digits .big 4 fun k => lastByte m₀ ws ((0 : Word).toNat + k) := by
  intro m₀ ws
  have h : memoryReadWord .little (writeAll .little m₀ ws) 0 = some 0x01FF0304 := by decide +kernel
  exact ⟨h, (memory_refines 8 true (fun _ => 0) .little ws (by decide)).2.2.2.1 0 _ h⟩

end Armator
