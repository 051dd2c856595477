import Armator.Gdb.Registers

/-!
# The memory packets

`X` stores binary data, in which some bytes are escaped: `0x7d` and the byte with bit
5 flipped.  Its loop decodes and stores one byte after the other until one does not
fit in the memory (`writeMemoryLoop_escaped`), so it stores the longest part of the
data that fits, and answers OK exactly when that is all of it.

`m` answers with the bytes in hexadecimal, as many as lie in the memory
(`readMemoryLoop_eq`); its reply fits the buffer up to 509 of them
(`readMemory_replies`, `readMemory_overflow`).  What `X` has stored `m` reads back (`memory_roundTrip`).
-/

namespace Armator

open Text

/-! ### Requests -/

theorem toNat_succ {a : Word} (h : a.toNat + 1 < 2 ^ 32) : (a + 1).toNat = a.toNat + 1 := by
  rw [BitVec.toNat_add, show (1 : Word).toNat = 1 from rfl]
  omega

def writeMemoryPayload (a : Word) (n : Nat) (content : List Byte) : List Byte :=
  char 'X' :: (hexNat a.toNat ++ char ',' :: (hexNat n ++ char ':' :: content))

def readMemoryPayload (a : Word) (n : Nat) : List Byte :=
  char 'm' :: (hexNat a.toNat ++ char ',' :: hexNat n)

theorem notMem_memoryRequest (a : Word) (n : Nat) {c : Byte} (hc : digitValue c = none)
    (hcomma : c ≠ char ',') : c ∉ hexNat a.toNat ++ char ',' :: hexNat n := by
  rw [List.mem_append, List.mem_cons]
  rintro (h | h | h)
  · exact notMem_hexNat _ hc h
  · exact hcomma h
  · exact notMem_hexNat _ hc h

theorem memoryRequest_eq (l : Locals) (a : Word) {n : Nat} (hn : n < 2 ^ 32) {t : List Byte}
    (ht : Stops t) :
    memoryRequest l (hexNat a.toNat ++ char ',' :: (hexNat n ++ t)) = (a, BitVec.ofNat 32 n) := by
  have ha := a.isLt
  rw [memoryRequest, scanHexPair_hexNat (by omega) (by omega) ht]
  simp

/-! ### Escapes -/

/-- The text `es` is the data `bs` with some of its bytes escaped: those that the
protocol uses itself, and possibly others. -/
inductive Escaped : List Byte → List Byte → Prop
  | nil : Escaped [] []
  | plain {b : Byte} {bs es : List Byte} : b ≠ 0x7d → b ≠ char '#' → b ≠ char '$' →
      Escaped bs es → Escaped (b :: bs) (b :: es)
  | escape {b : Byte} {bs es : List Byte} :
      Escaped bs es → Escaped (b :: bs) (0x7d :: (b ^^^ 0x20) :: es)

theorem Escaped.nextByte {b : Byte} {bs es : List Byte} (h : Escaped (b :: bs) es) (t : List Byte) :
    ∃ es', Escaped bs es' ∧ nextByte (some (es ++ t)) = .ok (b, es' ++ t) := by
  cases h with
  | @plain _ _ es h7d _ _ h => exact ⟨es, h, if_neg h7d⟩
  | @escape _ _ es h =>
    refine ⟨es, h, ?_⟩
    have hb : (b ^^^ 0x20) ^^^ 0x20 = b := by rw [BitVec.xor_assoc, BitVec.xor_self, BitVec.xor_zero]
    simp only [List.cons_append, Armator.nextByte, if_true, hb]

/-- The loop of `X` stores the part of the data that fits below the end of the memory,
and goes through when that is all. -/
theorem writeMemoryLoop_escaped {bs es : List Byte} (h : Escaped bs es) (t : List Byte) (a : Word)
    (mem : Memory) (hs : mem.size.toNat < 2 ^ 32) (ha : a.toNat ≤ mem.size.toNat) :
    writeMemoryLoop bs.length (some (es ++ t)) a mem =
      .ok (decide (a.toNat + bs.length ≤ mem.size.toNat),
        { mem with
          memory := Bytes.store mem.memory a.toNat (min bs.length (mem.size.toNat - a.toNat))
            fun k => bs.getD k 0 }) := by
  induction bs generalizing es a mem with
  | nil => simp [writeMemoryLoop, ha]
  | cons b bs ih =>
    obtain ⟨es', h', hnext⟩ := h.nextByte t
    simp only [List.length_cons, writeMemoryLoop, hnext, Run.ok_bind]
    rcases Nat.lt_or_eq_of_le ha with hlt | heq
    · have ha1 := toNat_succ (a := a) (by omega)
      rw [memoryWriteByte, if_pos hlt]
      dsimp only
      rw [ih h' (a + 1) { mem with memory := Bytes.store mem.memory a.toNat 1 fun _ => b } hs
        (by rw [ha1]; exact hlt)]
      have hstore := Bytes.store_succ mem.memory a.toNat
        (min bs.length (mem.size.toNat - (a.toNat + 1))) fun k => (b :: bs).getD k 0
      simp only [List.getD_cons_zero, List.getD_cons_succ] at hstore
      dsimp only
      rw [ha1, hstore, show min bs.length (mem.size.toNat - (a.toNat + 1)) + 1 =
          min (bs.length + 1) (mem.size.toNat - a.toNat) by omega, Nat.add_right_comm,
        Nat.add_assoc a.toNat]
    · rw [memoryWriteByte, if_neg (by omega)]
      simp [heq]

/-! ### Reading -/

/-- The bytes that the loop of `m` reads, up to the first that is not in the memory. -/
def readable (mem : Memory) : Nat → Word → List Byte
  | 0, _ => []
  | n + 1, a =>
    match memoryReadByte mem a with
    | none => []
    | some b => b :: readable mem n (a + 1)

/-- **The loop of `m` appends the hexadecimal of the bytes it can read**, as long as
they fit the buffer. -/
theorem readMemoryLoop_eq (n : Nat) (a : Word) (gdb : Gdb) {s : List Byte} (h : Holds gdb.packet s)
    (hl : 1 + s.length < maxPacketSize) :
    (1 + s.length + 2 * (readable gdb.arm.mem n a).length < maxPacketSize →
      ∃ packet, readMemoryLoop n a gdb (1 + s.length) = .ok { gdb with packet := packet } ∧
        Holds packet (s ++ (readable gdb.arm.mem n a).flatMap hexByte)) ∧
    (¬ 1 + s.length + 2 * (readable gdb.arm.mem n a).length < maxPacketSize →
      readMemoryLoop n a gdb (1 + s.length) = .error .overflow) := by
  induction n generalizing a gdb s with
  | zero => exact ⟨fun _ => ⟨gdb.packet, rfl, by simpa [readable] using h⟩, fun hn => absurd hl hn⟩
  | succ n ih =>
    rw [readable, readMemoryLoop]
    cases hb : memoryReadByte gdb.arm.mem a with
    | none => exact ⟨fun _ => ⟨gdb.packet, rfl, by simpa using h⟩, fun hn => absurd hl hn⟩
    | some b =>
      simp only [List.length_cons, List.flatMap_cons]
      by_cases hfit : 1 + s.length + (hexByte b).length < maxPacketSize
      · rw [writeText_eq hfit]
        have hrest := ih (a + 1) { gdb with
          packet := Bytes.store gdb.packet (1 + s.length) ((hexByte b).length + 1)
            fun k => (hexByte b).getD k 0 } (h.append (hexByte b))
          (by rw [List.length_append, ← Nat.add_assoc]; exact hfit)
        rw [List.length_append, length_hexByte, List.append_assoc, ← Nat.add_assoc 1] at hrest
        rw [show 1 + s.length + 2 * ((readable gdb.arm.mem n (a + 1)).length + 1) =
          1 + s.length + 2 + 2 * (readable gdb.arm.mem n (a + 1)).length by omega]
        exact hrest
      · rw [Gdb.writeText, if_neg hfit]
        rw [length_hexByte] at hfit
        exact ⟨fun hn => absurd hn (by omega), fun _ => rfl⟩

section Read

variable (l : Locals) (gdb : Gdb) {data s : List Byte} (hs : stringAt data = .ok s) {bs : List Byte}
  (hbs : readable gdb.arm.mem (memoryRequest l s).2.toNat (memoryRequest l s).1 = bs)

include hs hbs

theorem readMemory_eq :
    (1 + 2 * bs.length < maxPacketSize → ∃ packet, Holds packet (bs.flatMap hexByte) ∧
      readMemory l gdb data = gdbSendBuffer { gdb with packet := packet }) ∧
    (¬ 1 + 2 * bs.length < maxPacketSize → readMemory l gdb data = .error .overflow) := by
  have hempty : 1 + ([] : List Byte).length < maxPacketSize := by decide
  have hloop := readMemoryLoop_eq (memoryRequest l s).2.toNat (memoryRequest l s).1
    { gdb with packet := Bytes.store gdb.packet 1 1 fun k => ([] : List Byte).getD k 0 }
    (holds_store gdb.packet []) hempty
  simp only [hbs, List.length_nil, Nat.add_zero, List.nil_append] at hloop
  rw [readMemory, hs]
  simp only [Run.ok_bind, writeText_eq hempty, List.length_nil, Nat.zero_add]
  constructor
  · intro hl
    obtain ⟨packet, hp, hh⟩ := hloop.1 hl
    exact ⟨packet, hh, by rw [hp, Run.ok_bind]⟩
  · intro hl
    rw [hloop.2 hl, Run.error_bind]

/-- **`m` answers with the bytes it can read, up to 509 of them.** -/
theorem readMemory_replies (ho : gdb.shut = false) (hl : bs.length ≤ 509) :
    ∃ g, readMemory l gdb data = .ok g ∧ Replies gdb g (bs.flatMap hexByte) := by
  obtain ⟨packet, hh, hr⟩ := (readMemory_eq l gdb hs hbs).1 (by unfold maxPacketSize; omega)
  obtain ⟨g, hg, hrep⟩ := gdbSendBuffer_replies { gdb with packet := packet } ho hh
    (notMem_flatMap_hexByte bs rfl) (by rw [length_flatMap_hexByte]; omega)
  exact ⟨g, hr.trans hg, hrep.of_packet⟩

theorem readMemory_overflow (hl : 509 < bs.length) : readMemory l gdb data = .error .overflow := by
  by_cases hfit : 1 + 2 * bs.length < maxPacketSize
  · -- the bytes fit, but the checksum does not
    obtain ⟨packet, hh, hr⟩ := (readMemory_eq l gdb hs hbs).1 hfit
    rw [hr]
    exact gdbSendBuffer_overflow { gdb with packet := packet } hh
      (notMem_flatMap_hexByte bs rfl) (by rw [length_flatMap_hexByte]; exact hfit)
      (by rw [length_flatMap_hexByte]; omega)
  · exact (readMemory_eq l gdb hs hbs).2 hfit

end Read

theorem readable_eq {mem : Memory} (hs : mem.size.toNat < 2 ^ 32) {a : Word} {bs : List Byte}
    (ha : a.toNat + bs.length ≤ mem.size.toNat)
    (h : ∀ k < bs.length, mem.memory (a.toNat + k) = bs.getD k 0) :
    readable mem bs.length a = bs := by
  induction bs generalizing a with
  | nil => rfl
  | cons b bs ih =>
    rw [List.length_cons] at ha h
    have ha1 := toNat_succ (a := a) (by omega)
    have hb : memoryReadByte mem a = some b := by
      rw [memoryReadByte, if_pos (by omega)]
      exact congrArg some (h 0 (by omega))
    rw [List.length_cons, readable, hb]
    refine congrArg (b :: ·) (ih (by rw [ha1]; omega) fun k hk => ?_)
    rw [ha1, Nat.add_assoc, Nat.add_comm 1, h (k + 1) (by omega), List.getD_cons_succ]

/-! ### Writing -/

/-- The core with the part of the data in its memory that fits below its end. -/
def storeFitting (p : ArmCore) (a : Word) (bs : List Byte) : ArmCore :=
  { p with mem := { p.mem with
    memory := Bytes.store p.mem.memory a.toNat (min bs.length (p.mem.size.toNat - a.toNat))
      fun k => bs.getD k 0 } }

theorem storeFitting_add (p : ArmCore) (a : Word) (bs : List Byte) {k : Nat} (hk : k < bs.length)
    (hs : a.toNat + k < p.mem.size.toNat) :
    (storeFitting p a bs).mem.memory (a.toNat + k) = bs.getD k 0 := by
  have hlt : k < min bs.length (p.mem.size.toNat - a.toNat) := by omega
  exact Bytes.store_add p.mem.memory a.toNat _ (fun k => bs.getD k 0) hlt

theorem storeFitting_of_not_mem (p : ArmCore) (a : Word) (bs : List Byte) {i : Nat}
    (h : i < a.toNat ∨ a.toNat + bs.length ≤ i ∨ p.mem.size.toNat ≤ i) :
    (storeFitting p a bs).mem.memory i = p.mem.memory i := by
  have hout : i < a.toNat ∨ a.toNat + min bs.length (p.mem.size.toNat - a.toNat) ≤ i := by omega
  exact Bytes.store_of_not_mem p.mem.memory a.toNat _ (fun k => bs.getD k 0) hout

theorem stringAt_writeMemory (a : Word) (n : Nat) (content : List Byte) (h0 : 0 ∈ content) :
    ∃ u, stringAt (hexNat a.toNat ++ char ',' :: (hexNat n ++ char ':' :: content)) =
      .ok (hexNat a.toNat ++ char ',' :: (hexNat n ++ char ':' :: u)) := by
  obtain ⟨u, hu⟩ := cString_isSome h0
  refine ⟨u, ?_⟩
  have hp : 0 ∉ hexNat a.toNat ++ char ',' :: hexNat n ++ [char ':'] := by
    rw [List.mem_append, List.mem_singleton]
    rintro (h | h)
    · exact notMem_memoryRequest a n rfl (by decide) h
    · exact absurd h (by decide)
  have hc := cString_append hp content
  simp only [List.append_assoc, List.cons_append, List.nil_append] at hc
  rw [stringAt, hc, hu]
  rfl

theorem stops_colon (t : List Byte) : Stops (char ':' :: t) := by
  intro b hb
  cases hb
  decide

/-- **`X` stores what fits, and answers OK when that is all.** -/
theorem writeMemoryBinary_eq (l : Locals) (gdb : Gdb) (a : Word) {bs es : List Byte}
    (h : Escaped bs es) (hn : bs.length < 2 ^ 32) (hs : gdb.arm.mem.size.toNat < 2 ^ 32)
    (tail : List Byte) :
    writeMemoryBinary l gdb
        (hexNat a.toNat ++ char ',' :: (hexNat bs.length ++ char ':' :: (es ++ 0 :: tail))) =
      gdbSendData { gdb with arm := storeFitting gdb.arm a bs }
        (if a.toNat < gdb.arm.mem.size.toNat ∧ a.toNat + bs.length ≤ gdb.arm.mem.size.toNat then
          ascii "OK" else ascii "E02") := by
  have hsize : (BitVec.ofNat 32 bs.length).toNat = bs.length := by
    rw [BitVec.toNat_ofNat]
    exact Nat.mod_eq_of_lt hn
  obtain ⟨u, hstring⟩ := stringAt_writeMemory a bs.length (es ++ 0 :: tail) (by simp)
  have hindex := index_append (notMem_memoryRequest a bs.length (c := 0) rfl (by decide))
    (notMem_memoryRequest a bs.length (c := char ':') rfl (by decide)) (by decide)
    (es ++ 0 :: tail)
  simp only [List.append_assoc, List.cons_append] at hindex
  rw [writeMemoryBinary, hstring]
  simp only [Run.ok_bind, memoryRequest_eq l a hn (stops_colon u), hindex, Option.map_some,
    List.drop_succ_cons, List.drop_zero, hsize]
  by_cases ha : a.toNat < gdb.arm.mem.size.toNat
  · simp only [if_pos ha, writeMemoryLoop_escaped h (0 :: tail) a gdb.arm.mem hs (Nat.le_of_lt ha),
      Run.ok_bind]
    by_cases hfit : a.toNat + bs.length ≤ gdb.arm.mem.size.toNat
    · simp only [hfit, decide_true, if_true, ha, and_self, storeFitting]
    · simp only [hfit, decide_false, Bool.false_eq_true, if_false, and_false, storeFitting]
  · have hz : storeFitting gdb.arm a bs = gdb.arm := by
      rw [storeFitting, Nat.sub_eq_zero_of_le (by omega), Nat.min_zero, Bytes.store_zero]
    simp only [ha, false_and, Bool.false_eq_true, if_false, hz]

theorem onToken_writeMemory (gdb : Gdb) (ho : gdb.shut = false)
    (hs : gdb.arm.mem.size.toNat < 2 ^ 32) (a : Word) {bs es : List Byte} (h : Escaped bs es)
    (hn : bs.length < 2 ^ 32) {x : Packet} (hx : x.payload = writeMemoryPayload a bs.length es)
    (hv : x.Valid) (behind : List Byte) (l : Locals) :
    ∃ g, onToken gdb (.packet x behind l) = .ok g ∧ g.arm = storeFitting gdb.arm a bs ∧
      g.shut = false ∧
      g.wire = gdb.wire ++ ascii "+" ++ frame (
        if a.toNat < gdb.arm.mem.size.toNat ∧ a.toNat + bs.length ≤ gdb.arm.mem.size.toNat then
          ascii "OK" else ascii "E02") := by
  have hw := writeMemoryBinary_eq l { gdb with wire := gdb.wire ++ ascii "+" } a h hn hs
    (x.high :: x.low :: 0 :: behind)
  have hsend := gdbSendData_replies
    { gdb with wire := gdb.wire ++ ascii "+", arm := storeFitting gdb.arm a bs }
    (s := if a.toNat < gdb.arm.mem.size.toNat ∧ a.toNat + bs.length ≤ gdb.arm.mem.size.toNat then
      ascii "OK" else ascii "E02") ho (by split <;> decide) (by split <;> decide)
  obtain ⟨g, hg, hr⟩ := hsend
  refine ⟨g, ?_, hr.arm, hr.shut.trans ho, hr.wire⟩
  rw [onToken_valid gdb ho hv, Packet.index, Packet.argument, hx, ← hg, ← hw]
  simp only [writeMemoryPayload, List.tail_cons, List.headD_cons, List.append_assoc,
    List.cons_append]
  rfl

theorem onToken_readMemory (gdb : Gdb) (ho : gdb.shut = false)
    (hs : gdb.arm.mem.size.toNat < 2 ^ 32) {a : Word} {bs : List Byte}
    (ha : a.toNat + bs.length ≤ gdb.arm.mem.size.toNat)
    (hb : ∀ k < bs.length, gdb.arm.mem.memory (a.toNat + k) = bs.getD k 0) (hl : bs.length ≤ 509)
    {y : Packet} (hy : y.payload = readMemoryPayload a bs.length) (hv : y.Valid)
    (behind : List Byte) (l : Locals) :
    ∃ g, onToken gdb (.packet y behind l) = .ok g ∧
      g.wire = gdb.wire ++ ascii "+" ++ frame (bs.flatMap hexByte) := by
  have hstring : stringAt (y.argument behind) = .ok (hexNat a.toNat ++ char ',' :: hexNat bs.length) := by
    rw [Packet.argument, hy]
    exact stringAt_append (notMem_memoryRequest a bs.length rfl (by decide)) _
  have hreq : memoryRequest l (hexNat a.toNat ++ char ',' :: hexNat bs.length) =
      (a, BitVec.ofNat 32 bs.length) := by
    have := memoryRequest_eq l a (n := bs.length) (by omega) stops_nil
    rwa [List.append_nil] at this
  have hsize : (BitVec.ofNat 32 bs.length).toNat = bs.length := by
    rw [BitVec.toNat_ofNat]
    omega
  have hbs : readable gdb.arm.mem
      (memoryRequest l (hexNat a.toNat ++ char ',' :: hexNat bs.length)).2.toNat
      (memoryRequest l (hexNat a.toNat ++ char ',' :: hexNat bs.length)).1 = bs := by
    rw [hreq, hsize]
    exact readable_eq hs ha hb
  obtain ⟨g, hg, hr⟩ := readMemory_replies l { gdb with wire := gdb.wire ++ ascii "+" } hstring
    hbs ho hl
  refine ⟨g, ?_, hr.wire⟩
  rw [onToken_valid gdb ho hv, Packet.index, hy]
  exact hg

/-- **Download and upload.**  `X` answers OK exactly when the data lies in the memory,
which then holds it and is otherwise unchanged; if not, it answers E02 and has stored
only the part that lies below the end.  And `m` reads back what was stored. -/
theorem memory_roundTrip (gdb : Gdb) (ho : gdb.shut = false)
    (hs : gdb.arm.mem.size.toNat < 2 ^ 32) (a : Word) {bs es : List Byte} (h : Escaped bs es)
    (hn : bs.length < 2 ^ 32) {x : Packet} (hx : x.payload = writeMemoryPayload a bs.length es)
    (hv : x.Valid) (behind : List Byte) (l : Locals) :
    let size := gdb.arm.mem.size.toNat
    ∃ g, onToken gdb (.packet x behind l) = .ok g ∧
      g.arm = { gdb.arm with mem := { gdb.arm.mem with memory := g.arm.mem.memory } } ∧
      (∀ k, k < bs.length → a.toNat + k < size → g.arm.mem.memory (a.toNat + k) = bs.getD k 0) ∧
      (∀ i, i < a.toNat ∨ a.toNat + bs.length ≤ i ∨ size ≤ i →
        g.arm.mem.memory i = gdb.arm.mem.memory i) ∧
      (a.toNat < size ∧ a.toNat + bs.length ≤ size →
        g.wire = gdb.wire ++ ascii "+" ++ frame (ascii "OK") ∧
        (bs.length ≤ 509 → ∀ y : Packet, y.payload = readMemoryPayload a bs.length → y.Valid →
          ∀ behind' l', ∃ g', onToken g (.packet y behind' l') = .ok g' ∧
            g'.wire = g.wire ++ ascii "+" ++ frame (bs.flatMap hexByte))) ∧
      (¬ (a.toNat < size ∧ a.toNat + bs.length ≤ size) →
        g.wire = gdb.wire ++ ascii "+" ++ frame (ascii "E02")) := by
  intro size
  obtain ⟨g, hg, harm, hopen, hwire⟩ := onToken_writeMemory gdb ho hs a h hn hx hv behind l
  have hstored : ∀ k, k < bs.length → a.toNat + k < size →
      g.arm.mem.memory (a.toNat + k) = bs.getD k 0 := by
    intro k hk hks
    rw [harm]
    exact storeFitting_add _ _ _ hk hks
  refine ⟨g, hg, by rw [harm]; rfl, hstored, ?_, ?_, ?_⟩
  · intro i hi
    rw [harm]
    exact storeFitting_of_not_mem _ _ _ hi
  · intro hfit
    rw [if_pos hfit] at hwire
    refine ⟨hwire, ?_⟩
    intro hl y hy hyv behind' l'
    have hsize : g.arm.mem.size = gdb.arm.mem.size := by rw [harm]; rfl
    refine onToken_readMemory g hopen (by rw [hsize]; exact hs) (by rw [hsize]; exact hfit.2) ?_ hl
      hy hyv behind' l'
    intro k hk
    exact hstored k hk (by omega)
  · intro hfit
    rw [hwire, if_neg hfit]

/-- `X2,2:}]*` stores a closing brace and a star in the four bytes of a memory, at 2. -/
theorem memory_roundTrip_brace :
    ∃ g, onToken (gdbInitData (coreOfWord 0) .little fun _ => 0)
        (.packet (framePacket (writeMemoryPayload 2 2 [0x7d, 0x5d, 0x2a]) (by decide)) []
          ⟨0, fun _ => 0, 0⟩) = .ok g ∧
      g.wire = ascii "+" ++ frame (ascii "OK") ∧ g.arm.mem.memory 2 = 0x7d ∧
      g.arm.mem.memory 3 = 0x2a := by
  have hesc : Escaped [0x7d, 0x2a] [0x7d, 0x5d, 0x2a] :=
    .escape (.plain (by decide) (by decide) (by decide) .nil)
  obtain ⟨g, hg, -, hstored, -, hok, -⟩ := memory_roundTrip
    (gdbInitData (coreOfWord 0) .little fun _ => 0) rfl (by decide) 2 hesc (by decide)
    (x := framePacket (writeMemoryPayload 2 2 [0x7d, 0x5d, 0x2a]) (by decide)) rfl
    (framePacket_valid _ _) [] ⟨0, fun _ => 0, 0⟩
  exact ⟨g, hg, (hok (by decide)).1, hstored 0 (by decide) (by decide),
    hstored 1 (by decide) (by decide)⟩

end Armator
