import Armator.Util

/-!
# The simulated memory (`memory.c`)

A memory has a size, a byte order of its own and its bytes.  The half and word
accesses go through a host pointer and reverse the bytes when the host's order
is not the memory's; `host` stands for what `is_big_endian()` finds.

The bytes are a function on all indices: those from `size` on are whatever lies
behind the allocated block, so that an access that is let through there reads or
changes them.  The checks subtract from a `size_t`, so they may wrap around.

`memoryRead_eq` and `memoryWrite_eq` say what an access does: it composes or
stores the bytes in the memory's own order, whatever the host.
-/

namespace Armator

structure Memory where
  size : BitVec 64
  isBigEndian : Bool
  memory : Nat → Byte

/-- The order in which the memory keeps its bytes. -/
def Memory.order (m : Memory) : Endian := if m.isBigEndian then .big else .little

/-- `memory_create` leaves the allocated bytes as they are. -/
def memoryCreate (size : BitVec 64) (isBigEndian : Bool) (garbage : Nat → Byte) : Memory :=
  ⟨size, isBigEndian, garbage⟩

/-! ### Accesses of any width -/

/-- The access of `n` bytes at `address` passes the check
`address >= mem->size - (n - 1)`. -/
def Memory.admits (m : Memory) (n : Nat) (address : Word) : Bool :=
  address.toNat < (m.size - BitVec.ofNat 64 (n - 1)).toNat

/-- The access through a host pointer to `n` bytes, with `rev` for the host that
keeps them in the other order. -/
def memoryRead (n : Nat) (rev : BitVec (8 * n) → BitVec (8 * n)) (host : Endian) (m : Memory)
    (address : Word) : Option (BitVec (8 * n)) :=
  if m.admits n address then
    let value := Bytes.ofBytes host n fun k => m.memory (address.toNat + k)
    some (if isBigEndian host = m.isBigEndian then value else rev value)
  else none

def memoryWrite (n : Nat) (rev : BitVec (8 * n) → BitVec (8 * n)) (host : Endian) (m : Memory)
    (address : Word) (value : BitVec (8 * n)) : Option Memory :=
  if m.admits n address then
    let stored := if isBigEndian host = m.isBigEndian then value else rev value
    some { m with memory := Bytes.store m.memory address.toNat n (Bytes.byteOf host n stored) }
  else none

/-! ### The six accesses

A read answers `none`, and a write too, where the code returns -1. -/

def memoryReadByte (m : Memory) (address : Word) : Option Byte :=
  if address.toNat < m.size.toNat then some (m.memory address.toNat) else none

def memoryReadHalf (host : Endian) (m : Memory) (address : Word) : Option Half :=
  memoryRead 2 reverse2 host m address

def memoryReadWord (host : Endian) (m : Memory) (address : Word) : Option Word :=
  memoryRead 4 reverse4 host m address

def memoryWriteByte (m : Memory) (address : Word) (value : Byte) : Option Memory :=
  if address.toNat < m.size.toNat then
    some { m with memory := Bytes.store m.memory address.toNat 1 fun _ => value }
  else none

def memoryWriteHalf (host : Endian) (m : Memory) (address : Word) (value : Half) :
    Option Memory :=
  memoryWrite 2 reverse2 host m address value

def memoryWriteWord (host : Endian) (m : Memory) (address : Word) (value : Word) :
    Option Memory :=
  memoryWrite 4 reverse4 host m address value

/-! ### What an access does -/

theorem order_of_host (host : Endian) (m : Memory) :
    m.order = if isBigEndian host = m.isBigEndian then host else host.swap := by
  rw [isBigEndian_eq, Memory.order]
  cases host <;> cases m.isBigEndian <;> decide

/-- **A read composes the bytes in the memory's own order**, whatever the host. -/
theorem memoryRead_eq (n : Nat) {rev : BitVec (8 * n) → BitVec (8 * n)}
    (hrev : ∀ v, rev v = Bytes.reverse n v) (host : Endian) (m : Memory) (address : Word) :
    memoryRead n rev host m address =
      if m.admits n address then
        some (Bytes.ofBytes m.order n fun k => m.memory (address.toNat + k))
      else none := by
  unfold memoryRead
  congr 1
  rw [order_of_host host m]
  by_cases h : isBigEndian host = m.isBigEndian
  · simp only [if_pos h]
  · simp only [if_neg h, hrev, Bytes.reverse_ofBytes]

/-- **A write stores the bytes in the memory's own order**, whatever the host. -/
theorem memoryWrite_eq (n : Nat) {rev : BitVec (8 * n) → BitVec (8 * n)}
    (hrev : ∀ v, rev v = Bytes.reverse n v) (host : Endian) (m : Memory) (address : Word)
    (value : BitVec (8 * n)) :
    memoryWrite n rev host m address value =
      if m.admits n address then
        some { m with memory := Bytes.store m.memory address.toNat n (Bytes.byteOf m.order n value) }
      else none := by
  unfold memoryWrite
  congr 1
  rw [order_of_host host m]
  by_cases h : isBigEndian host = m.isBigEndian
  · simp only [if_pos h]
  · simp only [if_neg h, hrev]
    rw [Bytes.store_congr m.memory _ fun k hk => Bytes.byteOf_reverse host n value hk]

theorem memoryReadHalf_eq (host : Endian) (m : Memory) (address : Word) :
    memoryReadHalf host m address =
      if m.admits 2 address then
        some (Bytes.ofBytes m.order 2 fun k => m.memory (address.toNat + k))
      else none :=
  memoryRead_eq 2 reverse2_eq host m address

theorem memoryReadWord_eq (host : Endian) (m : Memory) (address : Word) :
    memoryReadWord host m address =
      if m.admits 4 address then
        some (Bytes.ofBytes m.order 4 fun k => m.memory (address.toNat + k))
      else none :=
  memoryRead_eq 4 reverse4_eq host m address

theorem memoryWriteHalf_eq (host : Endian) (m : Memory) (address : Word) (value : Half) :
    memoryWriteHalf host m address value =
      if m.admits 2 address then
        some { m with memory := Bytes.store m.memory address.toNat 2 (Bytes.byteOf m.order 2 value) }
      else none :=
  memoryWrite_eq 2 reverse2_eq host m address value

theorem memoryWriteWord_eq (host : Endian) (m : Memory) (address : Word) (value : Word) :
    memoryWriteWord host m address value =
      if m.admits 4 address then
        some { m with memory := Bytes.store m.memory address.toNat 4 (Bytes.byteOf m.order 4 value) }
      else none :=
  memoryWrite_eq 4 reverse4_eq host m address value

/-- In a memory of at least `n - 1` bytes the check does not wrap around: it
admits exactly the accesses that lie in the memory. -/
theorem admits_iff {m : Memory} {n : Nat} (hn : n ≤ m.size.toNat + 1) (hn0 : 0 < n)
    (address : Word) : m.admits n address = true ↔ address.toNat + n ≤ m.size.toNat := by
  have hs : (m.size - BitVec.ofNat 64 (n - 1)).toNat = m.size.toNat - (n - 1) := by
    have hlt := m.size.isLt
    have hb : (BitVec.ofNat 64 (n - 1)).toNat = n - 1 := by
      rw [BitVec.toNat_ofNat]
      exact Nat.mod_eq_of_lt (by omega)
    rw [BitVec.toNat_sub, hb]
    omega
  rw [Memory.admits, decide_eq_true_iff, hs]
  omega

/-- A memory of less than three bytes refuses no word. -/
theorem size_of_refused {m : Memory} {a : Word} (h : m.admits 4 a = false) :
    3 ≤ m.size.toNat := by
  have ha := a.isLt
  have hm := m.size.isLt
  rw [Memory.admits, decide_eq_false_iff_not, BitVec.toNat_sub,
    show (BitVec.ofNat 64 (4 - 1)).toNat = 3 from rfl] at h
  omega

end Armator
