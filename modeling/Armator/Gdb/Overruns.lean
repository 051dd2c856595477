import Armator.Gdb.Effects

/-!
# Outside the buffers

Two loops of `gdb_protocol.c` run over a buffer as far as the request says.

* `read_memory` puts two digits for every byte it can read behind one another in
  `packet`, and `gdb_send_buffer` four more characters behind them.  No other handler
  can leave the buffer (`Handler.call_inBuffer`), and this one does exactly when it
  can read more than 509 bytes (`writesInside_iff`): one less than what the announced
  packet size allows.
* `write_memory_binary` takes bytes from its packet for as long as the declared size
  asks for them.  It keeps to the content exactly when that goes on for as long as the
  loop does (`storesReceived_iff`).
-/

namespace Armator

open Text

/-! ### The reply buffer -/

/-- **Every character of the reply to a packet is written inside `packet`.** -/
def WritesInside (gdb : Gdb) (p : Packet) (behind : List Byte) (l : Locals) : Prop :=
  onToken gdb (.packet p behind l) ≠ .error .overflow

def requestedLength (gdb : Gdb) (p : Packet) (behind : List Byte) (l : Locals) : Nat :=
  readableLength gdb.arm.mem (memoryRequest l (textOf (p.argument behind))).2.toNat
    (memoryRequest l (textOf (p.argument behind))).1

theorem handler_eq_readMemory_iff (b : Byte) : handler b = some .readMemory ↔ b = char 'm' := by
  revert b
  decide +kernel

/-- **When the replies stay inside the buffer**: always but for an `m` packet, over an
open connection, for which more than 509 bytes can be read. -/
theorem writesInside_iff (gdb : Gdb) (p : Packet) (behind : List Byte) (l : Locals)
    (hv : p.Valid) :
    WritesInside gdb p behind l ↔
      ¬ (gdb.shut = false ∧ p.index = char 'm' ∧ 509 < requestedLength gdb p behind l) := by
  rw [WritesInside]
  cases ho : gdb.shut with
  | true =>
    rw [onToken_shut gdb ho]
    refine iff_of_true ?_ fun h => Bool.noConfusion h.1
    intro h
    cases h
  | false =>
    have ht := zero_mem_argument_tail p behind
    rw [onToken_valid gdb ho hv, gdbDispatch, ← inBuffer_iff]
    by_cases hm : p.index = char 'm'
    · rw [(handler_eq_readMemory_iff _).mpr hm]
      have h := readMemory_inBuffer_iff l { gdb with wire := gdb.wire ++ ascii "+" } ho
        (List.mem_of_mem_tail ht)
      refine h.trans ?_
      rw [← Nat.not_lt]
      exact not_congr ⟨fun hl => ⟨rfl, hm, hl⟩, fun h => h.2.2⟩
    · refine iff_of_true ?_ fun h => hm h.2.1
      cases hh : handler p.index with
      | none =>
        exact (gdbSendData_keeps { gdb with wire := gdb.wire ++ ascii "+" } ho gdb.arm (s := [])
          (by decide) (by decide)).inBuffer
      | some h =>
        refine Handler.call_inBuffer l { gdb with wire := gdb.wire ++ ascii "+" } ho
          (List.mem_of_mem_tail ht) ?_
        rintro rfl
        exact hm ((handler_eq_readMemory_iff _).mp hh)

/-- The simulator as it starts, over its memory of 0x20000 bytes. -/
def gdbOfSimulator (memory : Nat → Byte) : Gdb :=
  gdbInitData (armCreate .little (memoryCreate 0x20000 false memory)) .little fun _ => 0

theorem writesInside_m509 :
    WritesInside (gdbOfSimulator fun _ => 0) (framePacket (ascii "m0,1fd") (by decide)) []
      ⟨0, fun _ => 0, 0⟩ :=
  (writesInside_iff _ _ _ _ (framePacket_valid _ _)).mpr fun h => absurd h.2.2 (by decide +kernel)

/-- `m0,1fe` asks for a frame of 0x400 characters, the announced packet size, and the
NUL behind it is written behind the buffer. -/
theorem m510_overflows :
    (∀ bs : List Byte, bs.length = 0x1fe → (frame (bs.flatMap hexByte)).length = 0x400) ∧
      ¬ ∀ (gdb : Gdb) (p : Packet) (behind : List Byte) (l : Locals),
        gdb.arm.mem.size = 0x20000 → p.Valid → WritesInside gdb p behind l := by
  constructor
  · intro bs hbs
    rw [length_frame, length_flatMap_hexByte, hbs]
  · intro hall
    have h := hall (gdbOfSimulator fun _ => 0) (framePacket (ascii "m0,1fe") (by decide)) []
      ⟨0, fun _ => 0, 0⟩ rfl (framePacket_valid _ _)
    rw [WritesInside, onToken_valid _ rfl (framePacket_valid _ _)] at h
    refine h (readMemory_overflow ⟨0, fun _ => 0, 0⟩
      { gdbOfSimulator (fun _ => 0) with wire := ascii "+" } (stringAt_eq ?_) rfl ?_)
    · decide
    · rw [length_readable]
      decide +kernel

/-! ### The content of `X` -/

/-- The bytes that a content stands for: 0x7d escapes the byte behind it, and stands
for nothing at the end. -/
def decode : List Byte → List Byte
  | [] => []
  | [b] => if b = 0x7d then [] else [b]
  | b :: c :: content =>
    if b = 0x7d then (c ^^^ 0x20) :: decode content else b :: decode (c :: content)

theorem decode_cons_of_ne {b : Byte} (h : b ≠ 0x7d) (content : List Byte) :
    decode (b :: content) = b :: decode content := by
  cases content with
  | nil => exact if_neg h
  | cons c content => exact if_neg h

theorem decode_escape (c : Byte) (content : List Byte) :
    decode (0x7d :: c :: content) = (c ^^^ 0x20) :: decode content := by
  rw [decode, if_pos rfl]

theorem nextByte_of_ne {b : Byte} (h : b ≠ 0x7d) (content : List Byte) :
    nextByte (some (b :: content)) = .ok (b, content) :=
  if_neg h

theorem decode_of_nextByte {content rest : List Byte} {b : Byte}
    (h : nextByte (some content) = .ok (b, rest)) : decode content = b :: decode rest := by
  cases content with
  | nil => cases h
  | cons c content =>
    by_cases hc : c = 0x7d
    · subst hc
      cases content with
      | nil => cases h
      | cons d content =>
        cases h
        exact decode_escape d rest
    · rw [nextByte_of_ne hc] at h
      cases h
      exact decode_cons_of_ne hc rest

theorem nextByte_append {content rest : List Byte} {b : Byte}
    (h : nextByte (some content) = .ok (b, rest)) (t : List Byte) :
    nextByte (some (content ++ t)) = .ok (b, rest ++ t) := by
  cases content with
  | nil => cases h
  | cons c content =>
    by_cases hc : c = 0x7d
    · subst hc
      cases content with
      | nil => cases h
      | cons d content =>
        cases h
        rfl
    · rw [nextByte_of_ne hc] at h
      cases h
      exact nextByte_of_ne hc _

/-- The content goes on for as many items as it has decoded bytes. -/
theorem holdsItems_iff (n : Nat) (content : List Byte) :
    holdsItems n content = true ↔ n ≤ (decode content).length := by
  induction n generalizing content with
  | zero => exact iff_of_true rfl (Nat.zero_le _)
  | succ n ih =>
    cases content with
    | nil => exact iff_of_false Bool.false_ne_true (Nat.not_succ_le_zero n)
    | cons b content =>
      by_cases hb : b = 0x7d
      · subst hb
        cases content with
        | nil => exact iff_of_false Bool.false_ne_true (Nat.not_succ_le_zero n)
        | cons c content =>
          rw [decode_escape, List.length_cons, Nat.succ_le_succ_iff, ← ih]
          exact Iff.rfl
      · rw [decode_cons_of_ne hb, List.length_cons, Nat.succ_le_succ_iff, ← ih, holdsItems,
          if_neg hb]

theorem writeMemoryLoop_succ_ok {n : Nat} {content : List Byte} {a : Word} {mem : Memory}
    {x : Bool × Memory} (h : writeMemoryLoop (n + 1) (some content) a mem = .ok x) :
    ∃ b rest, nextByte (some content) = .ok (b, rest) ∧
      (memoryWriteByte mem a b = none ∧ x = (false, mem) ∨
        ∃ mem', memoryWriteByte mem a b = some mem' ∧
          writeMemoryLoop n (some rest) (a + 1) mem' = .ok x) := by
  rw [writeMemoryLoop] at h
  cases hb : nextByte (some content) with
  | error e =>
    rw [hb] at h
    cases h
  | ok item =>
    obtain ⟨b, rest⟩ := item
    simp only [hb, Run.ok_bind] at h
    refine ⟨b, rest, rfl, ?_⟩
    cases hw : memoryWriteByte mem a b with
    | none =>
      rw [hw] at h
      cases h
      exact Or.inl ⟨rfl, rfl⟩
    | some mem' =>
      rw [hw] at h
      exact Or.inr ⟨mem', rfl, h⟩

/-- A loop that keeps to its content does not look at what follows it. -/
theorem writeMemoryLoop_append {n : Nat} {content : List Byte} {a : Word} {mem : Memory}
    {x : Bool × Memory} (h : writeMemoryLoop n (some content) a mem = .ok x) (t : List Byte) :
    writeMemoryLoop n (some (content ++ t)) a mem = .ok x := by
  induction n generalizing content a mem with
  | zero => exact h
  | succ n ih =>
    obtain ⟨b, rest, hb, hw⟩ := writeMemoryLoop_succ_ok h
    rw [writeMemoryLoop, nextByte_append hb t]
    rcases hw with ⟨hw, rfl⟩ | ⟨mem', hw, hrest⟩
    · simp only [hw, Run.ok_bind]
    · simp only [hw, Run.ok_bind]
      exact ih hrest

/-- **What the loop stores are bytes of the decoded content**, and when it goes through
there was one for every byte it was to write. -/
theorem writeMemoryLoop_stores {n : Nat} {content : List Byte} {a : Word} {mem mem' : Memory}
    {writeOk : Bool} (h : writeMemoryLoop n (some content) a mem = .ok (writeOk, mem')) :
    (∀ i, mem'.memory i ≠ mem.memory i →
      ∃ k : Nat, i = (a + (k : Word)).toNat ∧ (decode content)[k]? = some (mem'.memory i)) ∧
    (writeOk = true → n ≤ (decode content).length) := by
  induction n generalizing content a mem with
  | zero =>
    cases h
    exact ⟨fun i hi => absurd rfl hi, fun _ => Nat.zero_le _⟩
  | succ n ih =>
    obtain ⟨b, rest, hb, hw⟩ := writeMemoryLoop_succ_ok h
    rw [decode_of_nextByte hb]
    rcases hw with ⟨-, hx⟩ | ⟨m, hw, hrest⟩
    · cases hx
      exact ⟨fun i hi => absurd rfl hi, fun h => Bool.noConfusion h⟩
    · obtain ⟨hstores, hall⟩ := ih hrest
      refine ⟨fun i hi => ?_, fun hok => Nat.succ_le_succ (hall hok)⟩
      by_cases hm : mem'.memory i = m.memory i
      · -- written now, and not again
        rw [memoryWriteByte] at hw
        split at hw
        · cases hw
          refine ⟨0, ?_⟩
          rw [hm] at hi ⊢
          have hia : i = a.toNat := by
            by_contra hne
            have hout : i < a.toNat ∨ a.toNat + 1 ≤ i := by omega
            exact hi (Bytes.store_of_not_mem mem.memory a.toNat 1 (fun _ => b) hout)
          subst hia
          refine ⟨by simp, ?_⟩
          simp [Bytes.store]
        · cases hw
      · obtain ⟨k, hk, hdec⟩ := hstores i hm
        refine ⟨k + 1, ?_, hdec⟩
        rw [hk, Nat.cast_succ, add_assoc, add_comm (1 : Word)]

/-- What stands before the colon of an `X` packet: a text from which `sscanf` reads
the address and the size. -/
structure IsRequest (head : List Byte) (a n : Word) : Prop where
  zero_notMem : 0 ∉ head
  colon_notMem : char ':' ∉ head
  scan : ∀ t, scanHexPair (head ++ char ':' :: t) = (some a, some n)

theorem isRequest_hexNat (a n : Word) :
    IsRequest (hexNat a.toNat ++ char ',' :: hexNat n.toNat) a n := by
  refine ⟨notMem_memoryRequest a _ rfl (by decide), notMem_memoryRequest a _ rfl (by decide), ?_⟩
  intro t
  have ha := a.isLt
  have hn := n.isLt
  rw [List.append_assoc, List.cons_append, scanHexPair_hexNat (by omega) (by omega) (stops_colon t)]
  simp

def contentLoop (mem : Memory) (content : List Byte) (a n : Word) :
    Except Stop (Bool × Memory) :=
  if a.toNat < mem.size.toNat then writeMemoryLoop n.toNat (some content) a mem else .ok (false, mem)

/-- **The packet `X<head>:<content>` stores only what it has received**, where it is
handled, which is over an open connection. -/
structure StoresReceived (gdb : Gdb) (p : Packet) (behind : List Byte) (l : Locals)
    (content : List Byte) (a n : Word) : Prop where
  /-- The content is not read past its end. -/
  reads : gdb.shut = false → ∃ x, contentLoop gdb.arm.mem content a n = .ok x
  /-- Every byte stored is one of the decoded content, and a packet with fewer of them
  than it declares is refused. -/
  stores : gdb.shut = false → ∃ g, onToken gdb (.packet p behind l) = .ok g ∧
    (∀ i, g.arm.mem.memory i ≠ gdb.arm.mem.memory i →
      ∃ k : Nat, i = (a + (k : Word)).toNat ∧ (decode content)[k]? = some (g.arm.mem.memory i)) ∧
    ((decode content).length < n.toNat →
      g.wire = gdb.wire ++ ascii "+" ++ frame (ascii "E02"))

theorem contentLoop_isOk_iff (mem : Memory) (content : List Byte) (a n : Word) :
    (∃ x, contentLoop mem content a n = .ok x) ↔
      takenLength mem n.toNat a ≤ (decode content).length := by
  rw [← holdsItems_iff, contentLoop, takenLength]
  by_cases ha : a.toNat < mem.size.toNat
  · rw [if_pos ha, if_neg (Nat.not_le.mpr ha)]
    exact writeMemoryLoop_isOk_iff _ _ _ _
  · rw [if_neg ha, if_pos (Nat.not_lt.mp ha)]
    exact iff_of_true ⟨_, rfl⟩ rfl

theorem contentLoop_stores {mem mem' : Memory} {content : List Byte} {a n : Word}
    {writeOk : Bool} (h : contentLoop mem content a n = .ok (writeOk, mem')) :
    (∀ i, mem'.memory i ≠ mem.memory i →
      ∃ k : Nat, i = (a + (k : Word)).toNat ∧ (decode content)[k]? = some (mem'.memory i)) ∧
    (writeOk = true → n.toNat ≤ (decode content).length) := by
  rw [contentLoop] at h
  split at h
  · exact writeMemoryLoop_stores h
  · cases h
    exact ⟨fun i hi => absurd rfl hi, fun h => Bool.noConfusion h⟩

theorem writeMemoryBinary_of_contentLoop (l : Locals) (gdb : Gdb) {head content : List Byte}
    {a n : Word} (hr : IsRequest head a n) (tail : List Byte) {x : Bool × Memory}
    (hx : contentLoop gdb.arm.mem content a n = .ok x) :
    writeMemoryBinary l gdb (head ++ char ':' :: (content ++ 0 :: tail)) =
      gdbSendData { gdb with arm := { gdb.arm with mem := x.2 } }
        (if x.1 then ascii "OK" else ascii "E02") := by
  have hhead : 0 ∉ head ++ [char ':'] := by
    rw [List.mem_append, List.mem_singleton]
    rintro (h | h)
    · exact hr.zero_notMem h
    · exact absurd h (by decide)
  obtain ⟨u, hu⟩ := cString_isSome (s := content ++ 0 :: tail) (by simp)
  have hstring : stringAt (head ++ char ':' :: (content ++ 0 :: tail)) = .ok (head ++ char ':' :: u) := by
    have hc := cString_append hhead (content ++ 0 :: tail)
    rw [List.append_assoc, List.singleton_append, hu] at hc
    rw [stringAt, hc]
    simp
  have hindex := index_append hr.zero_notMem hr.colon_notMem (by decide) (content ++ 0 :: tail)
  have hrequest : memoryRequest l (head ++ char ':' :: u) = (a, n) := by
    rw [memoryRequest, hr.scan]
    rfl
  rw [writeMemoryBinary, hstring]
  simp only [Run.ok_bind, hrequest, hindex, Option.map_some, List.drop_succ_cons,
    List.drop_zero]
  rw [contentLoop] at hx
  obtain ⟨writeOk, mem⟩ := x
  split at hx
  next ha =>
    simp only [if_pos ha, writeMemoryLoop_append hx]
    cases writeOk <;> rfl
  next ha =>
    cases hx
    simp only [if_neg ha]
    rfl

/-- **When `X` stores only what it has received**: exactly when its content decodes to
at least as many bytes as the loop takes, which is all the declared size asks for or,
where the memory ends before, one more than it has room for. -/
theorem storesReceived_iff (gdb : Gdb) {head content : List Byte} {a n : Word}
    (hr : IsRequest head a n) {p : Packet}
    (hp : p.payload = char 'X' :: (head ++ char ':' :: content)) (hv : p.Valid)
    (behind : List Byte) (l : Locals) :
    StoresReceived gdb p behind l content a n ↔
      (gdb.shut = false → takenLength gdb.arm.mem n.toNat a ≤ (decode content).length) := by
  constructor
  · intro h ho
    exact (contentLoop_isOk_iff _ _ _ _).mp (h.reads ho)
  · intro h
    refine ⟨fun ho => (contentLoop_isOk_iff _ _ _ _).mpr (h ho), fun ho => ?_⟩
    obtain ⟨⟨writeOk, mem⟩, hx⟩ := (contentLoop_isOk_iff _ _ _ _).mpr (h ho)
    obtain ⟨hstores, hall⟩ := contentLoop_stores hx
    have hw := writeMemoryBinary_of_contentLoop l { gdb with wire := gdb.wire ++ ascii "+" } hr
      (p.high :: p.low :: 0 :: behind) hx
    obtain ⟨g, hg, hrep⟩ := gdbSendData_replies
      { gdb with wire := gdb.wire ++ ascii "+", arm := { gdb.arm with mem := mem } } ho
      (s := if writeOk then ascii "OK" else ascii "E02") (by cases writeOk <;> decide)
      (by cases writeOk <;> decide)
    have harm : g.arm.mem = mem := by rw [hrep.arm]
    refine ⟨g, ?_, ?_, fun hfew => ?_⟩
    · rw [onToken_valid gdb ho hv, Packet.index, Packet.argument, hp, ← hg, ← hw, List.headD_cons,
        List.tail_cons, List.append_assoc, List.cons_append]
      rfl
    · rw [harm]
      exact hstores
    · have hfalse : writeOk = false := by
        cases hok : writeOk with
        | false => rfl
        | true => exact absurd (hall hok) (by omega)
      rw [hrep.wire, hfalse]
      rfl

/-- `X0,2:ab` has a byte for both that it declares. -/
theorem storesReceived_two :
    StoresReceived (gdbOfSimulator fun _ => 0xFF)
      (framePacket (writeMemoryPayload 0 2 (ascii "ab")) (by decide)) [] ⟨0, fun _ => 0, 0⟩
      (ascii "ab") 0 2 := by
  refine (storesReceived_iff (gdbOfSimulator fun _ => 0xFF) (isRequest_hexNat 0 2) (p := framePacket
    (writeMemoryPayload 0 2 (ascii "ab")) (by decide)) ?_ (framePacket_valid _ _) [] _).mpr ?_
  · rfl
  · intro _
    decide +kernel

/-- `X0,2:a` is answered OK, and has stored the NUL behind its content. -/
theorem short_content_stores_nul :
    (∃ g, onToken (gdbOfSimulator fun _ => 0xFF)
        (.packet (framePacket (writeMemoryPayload 0 2 (ascii "a")) (by decide)) []
          ⟨0, fun _ => 0, 0⟩) = .ok g ∧
      g.wire = ascii "+" ++ frame (ascii "OK") ∧ g.arm.mem.memory 1 = 0) ∧
    ¬ ∀ (gdb : Gdb) (head content : List Byte) (a n : Word) (p : Packet) (behind : List Byte)
      (l : Locals), IsRequest head a n → p.payload = char 'X' :: (head ++ char ':' :: content) →
      p.Valid → StoresReceived gdb p behind l content a n := by
  constructor
  · have h : (onToken (gdbOfSimulator fun _ => 0xFF)
        (.packet (framePacket (writeMemoryPayload 0 2 (ascii "a")) (by decide)) []
          ⟨0, fun _ => 0, 0⟩)).toOption.map (fun g => (g.wire, g.arm.mem.memory 1)) =
        some (ascii "+" ++ frame (ascii "OK"), 0) := by decide +kernel
    cases hg : onToken (gdbOfSimulator fun _ => 0xFF)
        (.packet (framePacket (writeMemoryPayload 0 2 (ascii "a")) (by decide)) []
          ⟨0, fun _ => 0, 0⟩) with
    | error e =>
      rw [hg] at h
      cases h
    | ok g =>
      rw [hg] at h
      have he := Prod.ext_iff.mp (Option.some.inj h)
      exact ⟨g, rfl, he.1, he.2⟩
  · intro hall
    have h := hall (gdbOfSimulator fun _ => 0xFF) _ (ascii "a") 0 2
      (framePacket (writeMemoryPayload 0 2 (ascii "a")) (by decide)) [] ⟨0, fun _ => 0, 0⟩
      (isRequest_hexNat 0 2) rfl (framePacket_valid _ _)
    have htaken := (contentLoop_isOk_iff _ _ _ _).mp (h.reads rfl)
    revert htaken
    decide +kernel

end Armator
