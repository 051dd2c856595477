import Armator.Gdb

/-!
# Frames

A reply is framed by `gdb_send_buffer`, which reads the buffer up to its NUL
(`gdbSendBuffer_of_holds`), and a request is taken apart by `gdb_packet_analysis`,
which goes by its length (`gdbPacketAnalysis_text`).  Both sum the payload in an
`unsigned char`, and the frame of a text is a packet that is accepted with this text
as its payload.

`Replies gdb g s` says that `g` is `gdb` after the reply `s`: its frame is on the wire
and kept for retransmission, and nothing else has changed.
-/

namespace Armator

open Text

/-- A text with its checksum, as it goes over the wire. -/
def frame (s : List Byte) : List Byte := char '$' :: (s ++ char '#' :: hexByte (checksum s))

@[simp] theorem length_frame (s : List Byte) : (frame s).length = s.length + 4 := by
  simp [frame, hexByte]

theorem frame_ne_nil (s : List Byte) : frame s ≠ [] := List.cons_ne_nil _ _

/-- The `unsigned char` sum is the sum modulo 256. -/
theorem toNat_checksum (s : List Byte) : (checksum s).toNat = (s.map BitVec.toNat).sum % 256 := by
  have h : ∀ (c : Byte) (s : List Byte),
      (s.foldl (· + ·) c).toNat = (c.toNat + (s.map BitVec.toNat).sum) % 256 := by
    intro c s
    induction s generalizing c with
    | nil => simp [Nat.mod_eq_of_lt c.isLt]
    | cons b s ih =>
      rw [List.foldl_cons, ih, BitVec.toNat_add, List.map_cons, List.sum_cons]
      omega
  simpa [checksum] using h 0 s

/-- A text with nothing in it that has a meaning in a frame. -/
def isPlain (s : List Byte) : Bool := s.all fun b => b != 0 && b != char '$' && b != char '#'

theorem isPlain_iff {s : List Byte} :
    isPlain s = true ↔ 0 ∉ s ∧ ∀ b ∈ s, b ≠ char '$' ∧ b ≠ char '#' := by
  simp only [isPlain, List.all_eq_true, Bool.and_eq_true, bne_iff_ne]
  constructor
  · intro h
    exact ⟨fun h0 => (h 0 h0).1.1 rfl, fun b hb => ⟨(h b hb).1.2, (h b hb).2⟩⟩
  · rintro ⟨h0, h⟩ b hb
    exact ⟨⟨fun e => h0 (e ▸ hb), (h b hb).1⟩, (h b hb).2⟩

/-! ### Sending -/

theorem rioWriten_open (gdb : Gdb) (h : gdb.shut = false) (s : List Byte) :
    rioWriten gdb s = .ok { gdb with wire := gdb.wire ++ s } := by
  rw [rioWriten]
  split
  next hs => simp [hs]
  next => simp [h]

theorem rioWriten_shut (gdb : Gdb) (h : gdb.shut = true) {s : List Byte} (hs : s ≠ []) :
    rioWriten gdb s = .error .brokenPipe := by
  rw [rioWriten, if_neg hs, if_pos h]

theorem rioWriten_ok {gdb g : Gdb} {s : List Byte} (hs : s ≠ []) (h : rioWriten gdb s = .ok g) :
    gdb.shut = false ∧ g = { gdb with wire := gdb.wire ++ s } := by
  cases ho : gdb.shut with
  | true =>
    rw [rioWriten_shut gdb ho hs] at h
    cases h
  | false =>
    rw [rioWriten_open gdb ho] at h
    exact ⟨rfl, (Except.ok.inj h).symm.trans (by rw [ho])⟩

/-- `g` is `gdb` after the reply `s`. -/
structure Replies (gdb g : Gdb) (s : List Byte) : Prop where
  arm : g.arm = gdb.arm
  targetException : g.targetException = gdb.targetException
  target : g.target = gdb.target
  shut : g.shut = gdb.shut
  wire : g.wire = gdb.wire ++ frame s
  stored : g.stored = frame s

theorem Replies.of_packet {gdb g : Gdb} {packet : Nat → Byte} {s : List Byte}
    (h : Replies { gdb with packet := packet } g s) : Replies gdb g s :=
  ⟨h.arm, h.targetException, h.target, h.shut, h.wire, h.stored⟩

/-- The buffer holds the text `s`, with its NUL. -/
def Holds (packet : Nat → Byte) (s : List Byte) : Prop :=
  ∀ k ≤ s.length, packet (1 + k) = s.getD k 0

theorem writeText_eq {gdb : Gdb} {position : Nat} {s : List Byte}
    (h : position + s.length < maxPacketSize) :
    gdb.writeText position s =
      .ok { gdb with packet := Bytes.store gdb.packet position (s.length + 1) fun k => s.getD k 0 } :=
  if_pos h

theorem holds_store (packet : Nat → Byte) (s : List Byte) :
    Holds (Bytes.store packet 1 (s.length + 1) fun k => s.getD k 0) s := by
  intro k hk
  rw [Bytes.store_add _ _ _ _ (by omega)]

/-- A text put behind the one the buffer holds. -/
theorem Holds.append {packet : Nat → Byte} {s : List Byte} (hs : Holds packet s) (t : List Byte) :
    Holds (Bytes.store packet (1 + s.length) (t.length + 1) fun k => t.getD k 0) (s ++ t) := by
  intro k hk
  rw [List.length_append] at hk
  by_cases hks : k < s.length
  · rw [Bytes.store_of_not_mem _ _ _ _ (by omega), hs k (by omega), List.getD_append _ _ _ _ hks]
  · obtain ⟨j, rfl⟩ : ∃ j, k = s.length + j := ⟨k - s.length, by omega⟩
    rw [List.getD_append_right _ _ _ _ (by omega), Nat.add_sub_cancel_left, ← Nat.add_assoc,
      Bytes.store_add _ _ _ _ (by omega)]

theorem Holds.update {packet : Nat → Byte} {s : List Byte} (hs : Holds packet s) (b : Byte) :
    Holds (Function.update packet 0 b) s := by
  intro k hk
  rw [Function.update_of_ne (by omega), hs k hk]

theorem Holds.find {packet : Nat → Byte} {s : List Byte} (h : Holds packet s) (h0 : 0 ∉ s)
    (hl : 1 + s.length < maxPacketSize) :
    (List.range' 1 (maxPacketSize - 1)).find? (fun i => packet i = 0) = some (1 + s.length) := by
  rw [List.find?_range'_eq_some]
  refine ⟨?_, ?_, ?_⟩
  · rw [h _ (Nat.le_refl _)]
    simp
  · rw [List.mem_range'_1]
    unfold maxPacketSize at hl ⊢
    omega
  · intro j hj hjs
    obtain ⟨k, rfl⟩ : ∃ k, j = 1 + k := ⟨j - 1, by omega⟩
    have hk : k < s.length := by omega
    rw [h _ (by omega), List.getD_eq_getElem _ _ hk]
    simp only [Bool.not_eq_eq_eq_not, Bool.not_true, decide_eq_false_iff_not]
    intro e
    exact h0 (e ▸ List.getElem_mem hk)

theorem Holds.map_range' {packet : Nat → Byte} {s : List Byte} (h : Holds packet s) :
    (List.range' 1 s.length).map packet = s := by
  apply List.ext_getElem
  · simp
  · intro k _ hk
    rw [List.getElem_map, List.getElem_range', Nat.one_mul, h k (by omega),
      List.getD_eq_getElem _ _ hk]

/-- A buffer that holds a text behind its first byte. -/
theorem Holds.map_range {packet : Nat → Byte} {s : List Byte} (h : Holds packet s) :
    (List.range (s.length + 1)).map packet = packet 0 :: s := by
  rw [List.range_eq_range', List.range'_succ, List.map_cons, h.map_range']

theorem gdbSendBuffer_eq {gdb : Gdb} {s : List Byte} (h : Holds gdb.packet s) (h0 : 0 ∉ s)
    (hl : 1 + s.length < maxPacketSize) :
    gdbSendBuffer gdb =
      (({ gdb with packet := Function.update gdb.packet 0 (char '$') } : Gdb).writeText (1 + s.length)
        (char '#' :: hexByte (checksum s)) >>= fun gdb =>
          gdbTransmitPacket { gdb with len := 1 + s.length + 3 }) := by
  have hu := h.update (char '$')
  simp only [gdbSendBuffer, hu.find h0 hl, Nat.add_sub_cancel_left, hu.map_range']

/-- **`gdb_send_buffer` frames the text that the buffer holds.** -/
theorem gdbSendBuffer_of_holds {gdb : Gdb} {s : List Byte} (h : Holds gdb.packet s) (h0 : 0 ∉ s)
    (hl : s.length ≤ 1019) :
    ∃ g : Gdb, gdbSendBuffer gdb = rioWriten g (frame s) ∧ g.stored = frame s ∧
      ∃ packet, g = { gdb with packet := packet, len := s.length + 4 } := by
  have hlen : 1 + s.length + (char '#' :: hexByte (checksum s)).length < maxPacketSize := by
    simp only [List.length_cons, hexByte, List.length_nil, maxPacketSize]
    omega
  rw [gdbSendBuffer_eq h h0 (by omega), writeText_eq hlen]
  have hf := (h.update (char '$')).append (char '#' :: hexByte (checksum s))
  generalize hp : Bytes.store (Function.update gdb.packet 0 (char '$')) (1 + s.length) _ _ = packet
    at hf ⊢
  have hdollar : packet 0 = char '$' := by
    rw [← hp, Bytes.store_of_not_mem _ _ _ _ (by omega)]
    simp
  have hstored : ({ gdb with packet := packet, len := s.length + 4 } : Gdb).stored = frame s := by
    have hm := hf.map_range
    rw [hdollar] at hm
    rw [frame, ← hm, Gdb.stored]
    simp [hexByte]
  refine ⟨{ gdb with packet := packet, len := s.length + 4 }, ?_, hstored, packet, rfl⟩
  rw [← hstored, Nat.add_comm 1, Nat.add_assoc]
  rfl

/-- A text that leaves no room for the checksum overflows the buffer. -/
theorem gdbSendBuffer_overflow (gdb : Gdb) {s : List Byte} (h : Holds gdb.packet s) (h0 : 0 ∉ s)
    (hl : 1 + s.length < maxPacketSize) (hlong : 1020 ≤ s.length) :
    gdbSendBuffer gdb = .error .overflow := by
  have hlen : ¬ 1 + s.length + (char '#' :: hexByte (checksum s)).length < maxPacketSize := by
    simp only [List.length_cons, hexByte, List.length_nil, maxPacketSize]
    omega
  rw [gdbSendBuffer_eq h h0 hl, Gdb.writeText, if_neg hlen]
  rfl

theorem gdbSendBuffer_replies (gdb : Gdb) (ho : gdb.shut = false) {s : List Byte}
    (h : Holds gdb.packet s) (h0 : 0 ∉ s) (hl : s.length ≤ 1019) :
    ∃ g, gdbSendBuffer gdb = .ok g ∧ Replies gdb g s := by
  obtain ⟨g, hsend, hstored, packet, rfl⟩ := gdbSendBuffer_of_holds h h0 hl
  refine ⟨{ gdb with packet := packet, len := s.length + 4, wire := gdb.wire ++ frame s }, ?_,
    rfl, rfl, rfl, rfl, rfl, hstored⟩
  rw [hsend]
  exact rioWriten_open { gdb with packet := packet, len := s.length + 4 } ho _

/-- Whatever the buffer holds, `gdb_send_buffer` sends one frame, over a connection
that is open. -/
theorem gdbSendBuffer_ok {gdb g : Gdb} (h : gdbSendBuffer gdb = .ok g) :
    gdb.shut = false ∧ ∃ s, Replies gdb g s := by
  have hfind : ∃ s, Holds gdb.packet s ∧ 0 ∉ s ∧ 1 + s.length < maxPacketSize := by
    simp only [gdbSendBuffer] at h
    split at h
    next => cases h
    next i hi =>
      rw [List.find?_range'_eq_some, List.mem_range'_1] at hi
      obtain ⟨hi0, hmem, hbefore⟩ := hi
      have hu : ∀ j, 1 ≤ j → Function.update gdb.packet 0 (char '$') j = gdb.packet j :=
        fun j hj => Function.update_of_ne (by omega) _ _
      refine ⟨(List.range' 1 (i - 1)).map gdb.packet, ?_, ?_, ?_⟩
      · intro k hk
        rw [List.length_map, List.length_range'] at hk
        rcases Nat.lt_or_eq_of_le hk with hlt | rfl
        · rw [List.getD_eq_getElem _ _ (by simpa using hlt)]
          simp
        · rw [List.getD_eq_default _ _ (by simp), show 1 + (i - 1) = i by omega, ← hu i hmem.1]
          simpa using hi0
      · intro hz
        obtain ⟨j, hj, hj0⟩ := List.mem_map.mp hz
        rw [List.mem_range'_1] at hj
        have hne : gdb.packet j ≠ 0 := by
          simpa [hu j hj.1] using hbefore j hj.1 (by omega)
        exact hne hj0
      · rw [List.length_map, List.length_range']
        unfold maxPacketSize at hmem ⊢
        omega
  obtain ⟨s, hs, h0, hl⟩ := hfind
  by_cases hlong : 1020 ≤ s.length
  · rw [gdbSendBuffer_overflow gdb hs h0 hl hlong] at h
    cases h
  · obtain ⟨g', hsend, hstored, packet, rfl⟩ := gdbSendBuffer_of_holds hs h0 (by omega)
    obtain ⟨ho, rfl⟩ := rioWriten_ok (frame_ne_nil s) (hsend.symm.trans h)
    exact ⟨ho, s, rfl, rfl, rfl, rfl, rfl, hstored⟩

theorem gdbSendData_replies (gdb : Gdb) (ho : gdb.shut = false) {s : List Byte} (h0 : 0 ∉ s)
    (hl : s.length ≤ 1019) : ∃ g, gdbSendData gdb s = .ok g ∧ Replies gdb g s := by
  have hlen : 1 + s.length < maxPacketSize := by
    unfold maxPacketSize
    omega
  rw [gdbSendData, writeText_eq hlen]
  obtain ⟨g, hg, hr⟩ := gdbSendBuffer_replies { gdb with
    packet := Bytes.store gdb.packet 1 (s.length + 1) fun k => s.getD k 0 } ho
    (holds_store gdb.packet s) h0 hl
  exact ⟨g, hg, hr.of_packet⟩

theorem gdbSendData_ok {gdb g : Gdb} {s : List Byte} (h0 : 0 ∉ s) (hl : s.length ≤ 1019)
    (h : gdbSendData gdb s = .ok g) : gdb.shut = false ∧ Replies gdb g s := by
  have ho : gdb.shut = false := by
    have hlen : 1 + s.length < maxPacketSize := by
      unfold maxPacketSize
      omega
    rw [gdbSendData, writeText_eq hlen] at h
    exact (gdbSendBuffer_ok h).1
  obtain ⟨g', hg', hr⟩ := gdbSendData_replies gdb ho h0 hl
  cases hg'.symm.trans h
  exact ⟨ho, hr⟩

/-! ### Receiving -/

/-- The value of the two checksum digits. -/
def Packet.value (p : Packet) : Nat :=
  Text.number 16 [(digitValue p.high).getD 0, (digitValue p.low).getD 0]

/-- The checksum is right. -/
def Packet.Valid (p : Packet) : Prop := p.value = (p.payload.map BitVec.toNat).sum % 256

instance (p : Packet) : Decidable p.Valid := inferInstanceAs (Decidable (_ = _))

/-- The first byte of the payload, which is the NUL behind it when it is empty. -/
def Packet.index (p : Packet) : Byte := p.payload.headD 0

/-- The pointer to the rest of the payload, with what follows it. -/
def Packet.argument (p : Packet) (behind : List Byte) : List Byte :=
  p.payload.tail ++ 0 :: p.high :: p.low :: 0 :: behind

theorem Packet.value_lt (p : Packet) : p.value < 256 := by
  obtain ⟨a, ha⟩ := Option.isSome_iff_exists.mp p.digits.1
  obtain ⟨b, hb⟩ := Option.isSome_iff_exists.mp p.digits.2
  have hlt := digitValue_lt ha
  have hlt' := digitValue_lt hb
  rw [Packet.value, ha, hb]
  simp only [Text.number, List.foldl_cons, List.foldl_nil, Option.getD_some]
  omega

theorem Packet.scan (p : Packet) : scanHexWord [p.high, p.low] = some (BitVec.ofNat 32 p.value, []) := by
  obtain ⟨a, ha⟩ := Option.isSome_iff_exists.mp p.digits.1
  obtain ⟨b, hb⟩ := Option.isSome_iff_exists.mp p.digits.2
  have hd : Digits [p.high, p.low] [a, b] := .cons ha (.cons hb .nil)
  have hv := p.value_lt
  rw [Packet.value, ha, hb] at hv ⊢
  exact scanHex_digits hd (List.cons_ne_nil _ _) (Nat.le_refl 2) (t := []) (Or.inl rfl)
    (hv.trans (by decide))

/-- The comparison of the `unsigned char` sum with the `unsigned int` that was read. -/
theorem Packet.check_iff (p : Packet) :
    (checksum p.payload).setWidth 32 = BitVec.ofNat 32 p.value ↔ p.Valid := by
  have hv := p.value_lt
  have hc := (checksum p.payload).isLt
  rw [Packet.Valid, ← toNat_checksum, BitVec.toNat_inj.symm, BitVec.toNat_setWidth,
    BitVec.toNat_ofNat]
  omega

theorem Packet.notMem_digits (p : Packet) : 0 ∉ [p.high, p.low] := by
  have hz : ∀ b : Byte, (digitValue b).isSome → b ≠ 0 := by decide +kernel
  rw [List.mem_cons, List.mem_singleton]
  rintro (h | h)
  · exact hz _ p.digits.1 h.symm
  · exact hz _ p.digits.2 h.symm

/-- **The analysis of a packet**: its payload is dispatched where the checksum is
right, and asked for again where it is not. -/
theorem gdbPacketAnalysis_text (l : Locals) (gdb : Gdb) (p : Packet) (behind : List Byte) :
    gdbPacketAnalysis l gdb (p.text ++ 0 :: behind) p.text.length =
      if p.Valid then
        gdbSendAck gdb >>= fun gdb => gdbDispatch l gdb p.index (p.argument behind)
      else gdbRequireRetransmission gdb := by
  have htext : p.text ++ 0 :: behind =
      (char '$' :: p.payload) ++ char '#' :: p.high :: p.low :: 0 :: behind := by
    simp [Packet.text]
  have hi : max 1 (p.text.length - 3) = (char '$' :: p.payload).length := by
    simp [Packet.text]
  have hset : ((char '$' :: p.payload) ++ char '#' :: p.high :: p.low :: 0 :: behind).set
      (char '$' :: p.payload).length 0 =
      (char '$' :: p.payload) ++ 0 :: p.high :: p.low :: 0 :: behind := by
    rw [List.set_append_right _ _ (Nat.le_refl _), Nat.sub_self, List.set_cons_zero]
  have hdrop : ((char '$' :: p.payload) ++ char '#' :: p.high :: p.low :: 0 :: behind).drop
      ((char '$' :: p.payload).length + 1) = [p.high, p.low] ++ 0 :: behind := by
    rw [← List.drop_drop, List.drop_left]
    rfl
  have hstring : stringAt ([p.high, p.low] ++ 0 :: behind) = .ok [p.high, p.low] := by
    rw [stringAt, cString_append p.notMem_digits, cString_zero]
    rfl
  have hdispatch : ∀ gdb, gdbDispatch l gdb
      (((char '$' :: p.payload) ++ 0 :: p.high :: p.low :: 0 :: behind).getD 1 0)
      (((char '$' :: p.payload) ++ 0 :: p.high :: p.low :: 0 :: behind).drop 2) =
      gdbDispatch l gdb p.index (p.argument behind) := by
    intro gdb
    rw [Packet.index, Packet.argument]
    cases p.payload with
    | nil => rfl
    | cons c payload => rfl
  simp only [gdbPacketAnalysis, hi, htext, List.take_left, hset, hdrop, hstring, hdispatch,
    List.drop_succ_cons, List.drop_zero, Run.ok_bind, p.scan, Option.map_some,
    Option.getD_some, p.check_iff]

/-! ### The two directions -/

/-- The packet that the frame of a text is. -/
def framePacket (s : List Byte) (hs : ∀ b ∈ s, b ≠ char '$' ∧ b ≠ char '#') : Packet where
  payload := s
  high := hexDigit ((checksum s).toNat / 16)
  low := hexDigit ((checksum s).toNat % 16)
  plain := hs
  digits := by
    have hc := (checksum s).isLt
    rw [digitValue_hexDigit (by omega), digitValue_hexDigit (by omega)]
    exact ⟨rfl, rfl⟩

theorem framePacket_valid (s : List Byte) (hs : ∀ b ∈ s, b ≠ char '$' ∧ b ≠ char '#') :
    (framePacket s hs).Valid := by
  have hc := (checksum s).isLt
  rw [Packet.Valid, Packet.value]
  simp only [framePacket]
  rw [digitValue_hexDigit (by omega), digitValue_hexDigit (by omega), ← toNat_checksum]
  simp only [Text.number, List.foldl_cons, List.foldl_nil, Option.getD_some]
  omega

theorem gdbPacketAnalysis_valid (l : Locals) (gdb : Gdb) {p : Packet} (h : p.Valid)
    (behind : List Byte) :
    gdbPacketAnalysis l gdb (p.text ++ 0 :: behind) p.text.length =
      gdbSendAck gdb >>= fun gdb => gdbDispatch l gdb p.index (p.argument behind) := by
  rw [gdbPacketAnalysis_text, if_pos h]

/-- A packet with the right checksum, over a connection that is open. -/
theorem onToken_valid (gdb : Gdb) (ho : gdb.shut = false) {p : Packet} (h : p.Valid)
    (behind : List Byte) (l : Locals) :
    onToken gdb (.packet p behind l) =
      gdbDispatch l { gdb with wire := gdb.wire ++ ascii "+" } p.index (p.argument behind) := by
  rw [onToken, gdbPacketAnalysis_valid l gdb h, gdbSendAck, rioWriten_open gdb ho]
  rfl

theorem frame_injective {s t : List Byte} (h : frame s = frame t) : s = t := by
  have hl : s.length = t.length := by
    have := congrArg List.length h
    rw [length_frame, length_frame] at this
    omega
  exact List.append_inj_left (List.cons.inj h).2 hl

/-- **Packet framing.**  A packet is acknowledged and dispatched exactly when its
digits are the sum of its payload, and asked for again otherwise; and what
`gdb_send_buffer` sends and keeps for a text that fits the buffer is a packet that is
accepted with this text as its payload. -/
theorem packet_framing (l : Locals) (gdb : Gdb) (p : Packet) (behind : List Byte) :
    (gdbPacketAnalysis l gdb (p.text ++ 0 :: behind) p.text.length =
      if p.value = (p.payload.map BitVec.toNat).sum % 256 then
        rioWriten gdb (ascii "+") >>= fun g => gdbDispatch l g (p.payload.headD 0) (p.argument behind)
      else rioWriten gdb (ascii "-")) ∧
    (gdb.shut = false → ∀ s, rioWriten gdb s = .ok { gdb with wire := gdb.wire ++ s }) ∧
    ∀ s, Holds gdb.packet s → 0 ∉ s → (∀ b ∈ s, b ≠ char '$' ∧ b ≠ char '#') → s.length ≤ 1019 →
      ∃ (g : Gdb) (q : Packet),
        gdbSendBuffer gdb = rioWriten g q.text ∧ g.stored = q.text ∧ q.payload = s ∧
        ∀ (l' : Locals) (gdb' : Gdb) (behind' : List Byte),
          gdbPacketAnalysis l' gdb' (q.text ++ 0 :: behind') q.text.length =
            rioWriten gdb' (ascii "+") >>= fun g =>
              gdbDispatch l' g (s.headD 0) (s.tail ++ 0 :: q.high :: q.low :: 0 :: behind') := by
  refine ⟨gdbPacketAnalysis_text l gdb p behind, rioWriten_open gdb, ?_⟩
  intro s hs h0 hplain hl
  obtain ⟨g, hsend, hstored, -⟩ := gdbSendBuffer_of_holds hs h0 hl
  refine ⟨g, framePacket s hplain, hsend, hstored, rfl, ?_⟩
  intro l' gdb' behind'
  exact gdbPacketAnalysis_valid l' gdb' (framePacket_valid s hplain) behind'

/-- A connection with the text `s` in its buffer, before anything was sent. -/
def gdbOfText (s : List Byte) : Gdb :=
  { gdbInitData (coreOfWord 0) .little fun _ => 0 with
    packet := Bytes.store (fun _ => 0) 1 (s.length + 1) fun k => s.getD k 0 }

theorem packet_framing_ok :
    rioWriten (gdbOfText (ascii "OK")) (ascii "+") =
      .ok { gdbOfText (ascii "OK") with wire := ascii "+" } ∧
    ∃ (g : Gdb) (q : Packet),
      gdbSendBuffer (gdbOfText (ascii "OK")) = rioWriten g q.text ∧ q.payload = ascii "OK" := by
  obtain ⟨-, hopen, hsend⟩ := packet_framing ⟨0, fun _ => 0, 0⟩ (gdbOfText (ascii "OK"))
    (framePacket [] (by decide)) []
  refine ⟨hopen rfl _, ?_⟩
  obtain ⟨g, q, hq, -, hp, -⟩ :=
    hsend (ascii "OK") (holds_store _ _) (by decide) (by decide) (by decide)
  exact ⟨g, q, hq, hp⟩

end Armator
