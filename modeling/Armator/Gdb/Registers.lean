import Armator.Gdb.Framing

/-!
# The register packets

A word goes over the wire as the hexadecimal of its four bytes in the target's order.
`read_uint32` gives back the word that `write_uint32` wrote, whatever the host
(`readUint32_writeUint32`).

`g` sends 42 fields and `G` reads 42 fields, 25 of which are not implemented: `g`
writes an `x` for each of their digits, which `G` cannot convert and does not use.
The pc is sent as the address before the fetch and stored as it comes, so that a
snapshot taken with `g` and written back with `G` changes nothing
(`register_snapshot`).

`P` reads its register number with `%x`, and `p` with `atoi`, which stops at the
letters: asked for r10 to r15, `p` answers with r0 (`registerRoundTrip_iff`).
-/

namespace Armator

open Text

/-! ### Words in hexadecimal -/

/-- The loop of `read_uint32` reads bytes that were written with `%02x`. -/
theorem readBytes_hexByte (bs : List Byte) {t : List Byte} (ht : 0 ∈ t) (value : Word) :
    readBytes bs.length (bs.flatMap hexByte ++ t) value = .ok bs := by
  induction bs generalizing value with
  | nil => rfl
  | cons b bs ih =>
    obtain ⟨u, hu⟩ := cString_isSome (List.mem_append_right (bs.flatMap hexByte) ht)
    have hs : cString ((b :: bs).flatMap hexByte ++ t) = some (hexByte b ++ u) := by
      rw [List.flatMap_cons, List.append_assoc, cString_append (notMem_hexByte b rfl), hu]
      rfl
    have hdrop : ((b :: bs).flatMap hexByte ++ t).drop 2 = bs.flatMap hexByte ++ t := rfl
    have hb : (b.setWidth 32).setWidth 8 = b := by simp
    simp only [List.length_cons, readBytes, stringAt, hs, hdrop, scanHex_hexByte, Option.map_some,
      Option.getD_some, ih, Run.ok_bind, hb]
    rfl

theorem byteIndex_byteIndex (host target : Endian) {k : Nat} (h : k < 4) :
    byteIndex host target (byteIndex host target k) = k := by
  unfold byteIndex
  split <;> omega

theorem byteIndex_lt (host target : Endian) {k : Nat} (h : k < 4) : byteIndex host target k < 4 := by
  unfold byteIndex
  split <;> omega

theorem writeUint32_eq (host target : Endian) (value : Word) :
    writeUint32 host target value =
      ((List.range 4).map fun k => Bytes.byteOf host 4 value (byteIndex host target k)).flatMap
        hexByte := by
  rw [writeUint32, List.flatMap_map]

@[simp] theorem length_writeUint32 (host target : Endian) (value : Word) :
    (writeUint32 host target value).length = 8 := rfl

theorem notMem_writeUint32 (host target : Endian) (value : Word) {c : Byte}
    (hc : digitValue c = none) : c ∉ writeUint32 host target value := by
  rw [writeUint32_eq]
  exact notMem_flatMap_hexByte _ hc

/-- **`read_uint32` reads the word that `write_uint32` wrote**, in either byte order of
the host and of the target. -/
theorem readUint32_writeUint32 (host target : Endian) (value : Word) {t : List Byte} (ht : 0 ∈ t)
    (junk : Word) : readUint32 host target (writeUint32 host target value ++ t) junk = .ok value := by
  have hb := readBytes_hexByte
    ((List.range 4).map fun k => Bytes.byteOf host 4 value (byteIndex host target k)) ht junk
  rw [List.length_map, List.length_range, ← writeUint32_eq] at hb
  rw [readUint32, hb]
  refine congrArg Except.ok ((Bytes.ofBytes_congr host fun k hk => ?_).trans
    (Bytes.ofBytes_byteOf host 4 value))
  have hlt := byteIndex_lt host target hk
  rw [List.getD_eq_getElem _ _ (by simpa using hlt), List.getElem_map, List.getElem_range,
    byteIndex_byteIndex host target hk]

theorem writeUint32_injective (host target : Endian) {v w : Word}
    (h : writeUint32 host target v = writeUint32 host target w) : v = w := by
  have hv := readUint32_writeUint32 host target v (t := [0]) (by simp) 0
  rw [h, readUint32_writeUint32 host target w (by simp)] at hv
  exact (Except.ok.inj hv).symm

theorem stringAt_of_mem (data : List Byte) (h : 0 ∈ data) : ∃ s, stringAt data = .ok s := by
  obtain ⟨s, hs⟩ := cString_isSome h
  exact ⟨s, by rw [stringAt, hs]⟩

theorem stringAt_of_notMem (data : List Byte) (h : 0 ∉ data) : stringAt data = .error .overread := by
  rw [stringAt, cString_eq_none_iff.mpr h]

theorem readBytes_isOk (n : Nat) {data : List Byte} (h : 0 ∈ data.drop (2 * n)) (value : Word) :
    ∃ bs, readBytes (n + 1) data value = .ok bs := by
  induction n generalizing data value with
  | zero =>
    obtain ⟨s, hs⟩ := stringAt_of_mem data h
    rw [readBytes, hs]
    exact ⟨_, rfl⟩
  | succ n ih =>
    obtain ⟨s, hs⟩ := stringAt_of_mem data (List.mem_of_mem_drop h)
    have hd : 0 ∈ (data.drop 2).drop (2 * n) := by
      rw [List.drop_drop, Nat.add_comm, ← Nat.mul_succ]
      exact h
    obtain ⟨bs, hbs⟩ := ih hd (((scanHex 2 s).map Prod.fst).getD value)
    rw [readBytes, hs]
    simp only [Run.ok_bind, hbs]
    exact ⟨_, rfl⟩

theorem readBytes_overread (n : Nat) {data : List Byte} (h : 0 ∉ data.drop (2 * n)) (value : Word) :
    readBytes (n + 1) data value = .error .overread := by
  induction n generalizing data value with
  | zero =>
    rw [readBytes, stringAt_of_notMem data h]
    rfl
  | succ n ih =>
    by_cases h0 : 0 ∈ data
    · obtain ⟨s, hs⟩ := stringAt_of_mem data h0
      have hd : 0 ∉ (data.drop 2).drop (2 * n) := by
        rw [List.drop_drop, Nat.add_comm, ← Nat.mul_succ]
        exact h
      rw [readBytes, hs]
      simp only [Run.ok_bind, ih hd, Run.error_bind]
    · rw [readBytes, stringAt_of_notMem data h0]
      rfl

/-- **A word can be read exactly where its last two characters begin a string.** -/
theorem readUint32_isOk (host target : Endian) {data : List Byte} (h : 0 ∈ data.drop 6)
    (value : Word) : ∃ w, readUint32 host target data value = .ok w := by
  obtain ⟨bs, hbs⟩ := readBytes_isOk 3 h value
  exact ⟨_, by rw [readUint32, hbs]; rfl⟩

theorem readUint32_overread (host target : Endian) {data : List Byte} (h : 0 ∉ data.drop 6)
    (value : Word) : readUint32 host target data value = .error .overread := by
  rw [readUint32, readBytes_overread 3 h value]
  rfl

/-! ### Texts one behind the other -/

theorem writeTexts_append (gdb : Gdb) {s : List Byte} (hs : Holds gdb.packet s)
    (ss : List (List Byte)) (hl : 1 + (s ++ ss.flatten).length < maxPacketSize) :
    ∃ packet, gdb.writeTexts (1 + s.length) ss = .ok { gdb with packet := packet } ∧
      Holds packet (s ++ ss.flatten) := by
  induction ss generalizing gdb s with
  | nil => exact ⟨gdb.packet, rfl, by simpa using hs⟩
  | cons t ss ih =>
    rw [List.flatten_cons, ← List.append_assoc] at hl ⊢
    have ht : 1 + s.length + t.length < maxPacketSize := by
      simp only [List.length_append] at hl
      omega
    obtain ⟨packet, hw, hp⟩ := ih { gdb with
      packet := Bytes.store gdb.packet (1 + s.length) (t.length + 1) fun k => t.getD k 0 }
      (hs.append t) hl
    refine ⟨packet, ?_, hp⟩
    rw [List.length_append, ← Nat.add_assoc] at hw
    rw [Gdb.writeTexts, writeText_eq ht]
    exact hw

/-- Texts put at the beginning of the buffer. -/
theorem writeTexts_cons (gdb : Gdb) (s : List Byte) (ss : List (List Byte))
    (hl : 1 + (s :: ss).flatten.length < maxPacketSize) :
    ∃ packet, gdb.writeTexts 1 (s :: ss) = .ok { gdb with packet := packet } ∧
      Holds packet (s :: ss).flatten := by
  have hs : 1 + s.length < maxPacketSize := by
    rw [List.flatten_cons, List.length_append] at hl
    omega
  obtain ⟨packet, hw, hp⟩ := writeTexts_append { gdb with
    packet := Bytes.store gdb.packet 1 (s.length + 1) fun k => s.getD k 0 }
    (holds_store gdb.packet s) ss hl
  refine ⟨packet, ?_, hp⟩
  rw [Gdb.writeTexts, writeText_eq hs]
  exact hw

/-! ### The fields of a register packet -/

/-- The 42 fields that stand for sixteen registers and the CPSR. -/
def registerFields (host target : Endian) (values : Fin 16 → Word) (cpsr : Word) :
    List (List Byte) :=
  (List.finRange 16).map (fun i => writeUint32 host target (values i)) ++
    (List.replicate 25 (ascii "xxxxxxxx") ++ [writeUint32 host target cpsr])

theorem generalRegisters_eq (gdb : Gdb) :
    generalRegisters gdb = registerFields gdb.arm.host gdb.target (gdbRegister gdb.arm)
      (armReadCpsr gdb.arm) := by
  have hlow : ∀ i : Fin 15, gdbRegister gdb.arm i.castSucc = armReadRegister gdb.arm i.castSucc := by
    intro i
    rw [gdbRegister, if_neg (show i.castSucc ≠ 15 from (Fin.castSucc_lt_last i).ne)]
    exact BitVec.sub_zero _
  rw [registerFields, List.finRange_succ_last, List.map_append, List.map_map]
  simp only [Function.comp_def, hlow]
  rw [List.append_assoc]
  rfl

section Fields

variable (host target : Endian) (values : Fin 16 → Word) (cpsr : Word)

theorem length_of_mem_registerFields {s : List Byte}
    (h : s ∈ registerFields host target values cpsr) : s.length = 8 := by
  simp only [registerFields, List.mem_append, List.mem_map, List.mem_replicate,
    List.mem_singleton] at h
  rcases h with ⟨i, -, rfl⟩ | ⟨-, rfl⟩ | rfl
  · rfl
  · rfl
  · rfl

theorem length_registerFields : (registerFields host target values cpsr).length = 42 := by
  simp [registerFields]

/-- The fields are digits and the letter x. -/
theorem notMem_registerFields {c : Byte} (hc : digitValue c = none) (hx : c ∉ ascii "xxxxxxxx") :
    c ∉ (registerFields host target values cpsr).flatten := by
  rw [List.mem_flatten]
  rintro ⟨s, hs, h⟩
  simp only [registerFields, List.mem_append, List.mem_map, List.mem_replicate,
    List.mem_singleton] at hs
  rcases hs with ⟨i, -, rfl⟩ | ⟨-, rfl⟩ | rfl
  · exact notMem_writeUint32 _ _ _ hc h
  · exact hx h
  · exact notMem_writeUint32 _ _ _ hc h

theorem getElem_registerFields (i : Fin 16) :
    (registerFields host target values cpsr)[i.val]? = some (writeUint32 host target (values i)) := by
  rw [registerFields, List.getElem?_append_left (by simp), List.getElem?_map]
  simp

theorem getElem_registerFields_cpsr :
    (registerFields host target values cpsr)[41]? = some (writeUint32 host target cpsr) := by
  rw [registerFields, List.getElem?_append_right (by simp)]
  rfl

end Fields

theorem length_flatten_fields {ss : List (List Byte)} (h8 : ∀ s ∈ ss, s.length = 8) :
    ss.flatten.length = 8 * ss.length := by
  induction ss with
  | nil => rfl
  | cons s ss ih =>
    rw [List.flatten_cons, List.length_append, h8 s List.mem_cons_self,
      ih fun t ht => h8 t (List.mem_cons_of_mem s ht), List.length_cons]
    omega

theorem drop_flatten {ss : List (List Byte)} (h8 : ∀ s ∈ ss, s.length = 8) (k : Nat) :
    ss.flatten.drop (8 * k) = (ss.drop k).flatten := by
  induction k generalizing ss with
  | zero => rfl
  | succ k ih =>
    cases ss with
    | nil => simp
    | cons s ss =>
      rw [List.flatten_cons, List.drop_succ_cons, ← ih fun t ht => h8 t (List.mem_cons_of_mem s ht),
        show 8 * (k + 1) = s.length + 8 * k by rw [h8 s List.mem_cons_self]; omega,
        List.drop_length_add_append]

section ReadFields

variable (l : Locals) (gdb : Gdb) {ss : List (List Byte)} (h8 : ∀ s ∈ ss, s.length = 8)
  (tail : List Byte)

include h8

theorem readField_of_text {k : Nat} {v : Word}
    (hk : ss[k]? = some (writeUint32 gdb.arm.host gdb.target v)) :
    readField l gdb (ss.flatten ++ 0 :: tail) k = .ok v := by
  obtain ⟨hlt, he⟩ := List.getElem?_eq_some_iff.mp hk
  have hd : (ss.flatten ++ 0 :: tail).drop (8 * k) =
      writeUint32 gdb.arm.host gdb.target v ++ ((ss.drop (k + 1)).flatten ++ 0 :: tail) := by
    rw [List.drop_append_of_le_length (by rw [length_flatten_fields h8]; omega), drop_flatten h8,
      List.drop_eq_getElem_cons hlt, List.flatten_cons, he, List.append_assoc]
  rw [readField, hd]
  exact readUint32_writeUint32 _ _ v (by simp) _

theorem readField_isOk {k : Nat} (hk : k < ss.length) :
    ∃ v, readField l gdb (ss.flatten ++ 0 :: tail) k = .ok v := by
  refine readUint32_isOk _ _ ?_ _
  rw [List.drop_drop, List.drop_append_of_le_length (by rw [length_flatten_fields h8]; omega)]
  simp

end ReadFields

theorem foldlM_of_ok {f : Fin 16 → Except Stop Word} {values : Fin 16 → Word}
    (h : ∀ i, f i = .ok (values i)) (is : List (Fin 16)) (p : ArmCore) :
    is.foldlM (fun p i => do
      let value ← f i
      return armWriteRegister p i value) p =
      Except.ok (is.foldl (fun p i => armWriteRegister p i (values i)) p) := by
  induction is generalizing p with
  | nil => rfl
  | cons i is ih =>
    rw [List.foldlM_cons, h i, List.foldl_cons, ← ih]
    rfl

theorem mapM_of_ok {f : Nat → Except Stop Word} (ks : List Nat) (h : ∀ k ∈ ks, ∃ v, f k = .ok v) :
    ∃ vs, ks.mapM f = .ok vs := by
  induction ks with
  | nil => exact ⟨[], rfl⟩
  | cons k ks ih =>
    obtain ⟨v, hv⟩ := h k List.mem_cons_self
    obtain ⟨vs, hvs⟩ := ih fun j hj => h j (List.mem_cons_of_mem k hj)
    refine ⟨v :: vs, ?_⟩
    rw [List.mapM_cons, hv, hvs]
    rfl

/-- **`G` writes the registers that its fields stand for.** -/
theorem writeGeneralRegisters_fields (l : Locals) (gdb : Gdb) (values : Fin 16 → Word) (cpsr : Word)
    (tail : List Byte) :
    writeGeneralRegisters l gdb
        ((registerFields gdb.arm.host gdb.target values cpsr).flatten ++ 0 :: tail) =
      gdbSendData { gdb with arm := gdbWriteGeneralRegisters gdb.arm values cpsr } (ascii "OK") := by
  have h8 := fun s => length_of_mem_registerFields gdb.arm.host gdb.target values cpsr (s := s)
  have hregs := fun i => readField_of_text l gdb h8 tail
    (getElem_registerFields gdb.arm.host gdb.target values cpsr i)
  have hcpsr := readField_of_text l gdb h8 tail
    (getElem_registerFields_cpsr gdb.arm.host gdb.target values cpsr)
  obtain ⟨vs, hvs⟩ := mapM_of_ok (List.range' 16 25) fun k hk =>
    readField_isOk l gdb h8 tail (k := k) (by
      rw [length_registerFields]
      rw [List.mem_range'_1] at hk
      omega)
  rw [writeGeneralRegisters, foldlM_of_ok hregs]
  simp only [hvs, hcpsr, Run.ok_bind]
  rfl

/-- **`g` answers with the 42 fields.** -/
theorem readGeneralRegisters_replies (gdb : Gdb) (ho : gdb.shut = false) :
    ∃ g, readGeneralRegisters gdb = .ok g ∧ Replies gdb g (generalRegisters gdb).flatten := by
  have hlen : (generalRegisters gdb).flatten.length = 336 := by
    rw [generalRegisters_eq, length_flatten_fields fun s => length_of_mem_registerFields _ _ _ _,
      length_registerFields]
  have h0 : 0 ∉ (generalRegisters gdb).flatten := by
    rw [generalRegisters_eq]
    exact notMem_registerFields _ _ _ _ rfl (by decide)
  rw [readGeneralRegisters]
  cases hss : generalRegisters gdb with
  | nil => rw [hss] at hlen; cases hlen
  | cons s ss =>
    rw [hss] at hlen h0
    obtain ⟨packet, hw, hp⟩ := writeTexts_cons gdb s ss (by rw [hlen]; decide)
    obtain ⟨g, hg, hr⟩ := gdbSendBuffer_replies { gdb with packet := packet } ho hp h0 (by omega)
    refine ⟨g, ?_, hr.of_packet⟩
    rw [hw]
    exact hg

/-! ### Snapshots -/

theorem gdbRegister_eq {p : ArmCore} {reg : Fin 16}
    (h : reg = 15 → (readRegister p.reg reg).toNat % 4 = 0) :
    gdbRegister p reg = readRegister p.reg reg := by
  rw [gdbRegister, armReadRegister]
  split
  next h15 => exact pcView_sub_four (h h15)
  next => exact BitVec.sub_zero _

theorem armWriteRegister_self (p : ArmCore) (reg : Fin 16) :
    armWriteRegister p reg (readRegister p.reg reg) = p := by
  simp [armWriteRegister, writeRegister, Registers.set, readRegister]

theorem armWriteCpsr_self (p : ArmCore) : armWriteCpsr p (armReadCpsr p) = p := by
  simp [armWriteCpsr, writeCpsr, Registers.set, armReadCpsr, readCpsr]

/-- Writing back what was read changes nothing. -/
theorem gdbWriteGeneralRegisters_self {p : ArmCore}
    (h15 : (readRegister p.reg 15).toNat % 4 = 0) :
    gdbWriteGeneralRegisters p (gdbRegister p) (armReadCpsr p) = p := by
  have hfold : ∀ is : List (Fin 16),
      is.foldl (fun q i => armWriteRegister q i (gdbRegister p i)) p = p := by
    intro is
    induction is with
    | nil => rfl
    | cons i is ih =>
      rw [List.foldl_cons, gdbRegister_eq (by rintro rfl; exact h15), armWriteRegister_self, ih]
  rw [gdbWriteGeneralRegisters, hfold, armWriteCpsr_self]

/-- The registers after `G`: those written last. -/
theorem readRegister_foldl_of_notMem (values : Fin 16 → Word) {is : List (Fin 16)} {i : Fin 16}
    (h : i ∉ is) (p : ArmCore) :
    readRegister (is.foldl (fun p i => armWriteRegister p i (values i)) p).reg i =
      readRegister p.reg i := by
  induction is generalizing p with
  | nil => rfl
  | cons j is ih =>
    rw [List.mem_cons, not_or] at h
    rw [List.foldl_cons, ih h.2]
    exact readRegister_write_of_ne _ _ h.1

theorem readRegister_foldl (values : Fin 16 → Word) {is : List (Fin 16)} (hn : is.Nodup)
    {i : Fin 16} (h : i ∈ is) (p : ArmCore) :
    readRegister (is.foldl (fun p i => armWriteRegister p i (values i)) p).reg i = values i := by
  induction is generalizing p with
  | nil => cases h
  | cons j is ih =>
    rw [List.nodup_cons] at hn
    rw [List.foldl_cons]
    rcases List.mem_cons.mp h with rfl | hm
    · rw [readRegister_foldl_of_notMem values hn.1]
      exact readRegister_write_same _ _ _
    · exact ih hn.2 hm _

theorem readRegister_gdbWriteGeneralRegisters (p : ArmCore) (values : Fin 16 → Word) (cpsr : Word)
    (i : Fin 16) : readRegister (gdbWriteGeneralRegisters p values cpsr).reg i = values i := by
  have hc : ∀ r : Registers, readRegister (writeCpsr r cpsr) i = readRegister r i := by
    intro r
    rw [writeCpsr_eq]
    exact Registers.set_of_ne _ _ (cell_ne_cpsr _ _)
  exact (hc _).trans (readRegister_foldl values (List.nodup_finRange 16) (List.mem_finRange i) p)

theorem gdbWriteGeneralRegisters_host (p : ArmCore) (values : Fin 16 → Word) (cpsr : Word) :
    (gdbWriteGeneralRegisters p values cpsr).host = p.host := by
  have hfold : ∀ (is : List (Fin 16)) (p : ArmCore),
      (is.foldl (fun p i => armWriteRegister p i (values i)) p).host = p.host := by
    intro is
    induction is with
    | nil => intro p; rfl
    | cons i is ih => intro p; rw [List.foldl_cons, ih]; rfl
  rw [← hfold (List.finRange 16) p, gdbWriteGeneralRegisters]
  generalize (List.finRange 16).foldl (fun p i => armWriteRegister p i (values i)) p = q
  rfl

/-- What `g` reads after `G` is what `G` has written. -/
theorem registerFields_gdbWriteGeneralRegisters (host target : Endian) (p : ArmCore)
    {values : Fin 16 → Word} (h15 : (values 15).toNat % 4 = 0) (cpsr : Word) :
    registerFields host target (gdbRegister (gdbWriteGeneralRegisters p values cpsr))
        (armReadCpsr (gdbWriteGeneralRegisters p values cpsr)) =
      registerFields host target values cpsr := by
  have hread := readRegister_gdbWriteGeneralRegisters p values cpsr
  have hregs : gdbRegister (gdbWriteGeneralRegisters p values cpsr) = values := by
    funext i
    rw [gdbRegister_eq, hread]
    rintro rfl
    rw [hread]
    exact h15
  rw [hregs, gdbWriteGeneralRegisters, armReadCpsr_writeCpsr]

theorem writeGeneralRegisters_replies (l : Locals) (gdb : Gdb) (ho : gdb.shut = false)
    (values : Fin 16 → Word) (cpsr : Word) (tail : List Byte) :
    ∃ g, writeGeneralRegisters l gdb
        ((registerFields gdb.arm.host gdb.target values cpsr).flatten ++ 0 :: tail) = .ok g ∧
      Replies { gdb with arm := gdbWriteGeneralRegisters gdb.arm values cpsr } g (ascii "OK") := by
  rw [writeGeneralRegisters_fields]
  exact gdbSendData_replies { gdb with arm := gdbWriteGeneralRegisters gdb.arm values cpsr } ho
    (by decide) (by decide)

/-- **Register snapshots.**  What `g` answers, given to `G`, leaves the core as it
was, whose stored pc is aligned; and it makes any other core answer the same to the
next `g`. -/
theorem register_snapshot (gdb : Gdb) (ho : gdb.shut = false)
    (h15 : (readRegister gdb.arm.reg 15).toNat % 4 = 0) :
    ∃ (g : Gdb) (payload : List Byte), readGeneralRegisters gdb = .ok g ∧ Replies gdb g payload ∧
      ∀ (l : Locals) (tail : List Byte),
        (∃ g', writeGeneralRegisters l g (payload ++ 0 :: tail) = .ok g' ∧ g'.arm = gdb.arm) ∧
        ∀ t : Gdb, t.shut = false → t.arm.host = gdb.arm.host → t.target = gdb.target →
          ∃ t' t'', writeGeneralRegisters l t (payload ++ 0 :: tail) = .ok t' ∧
            readGeneralRegisters t' = .ok t'' ∧ Replies t' t'' payload := by
  obtain ⟨g, hg, hr⟩ := readGeneralRegisters_replies gdb ho
  refine ⟨g, _, hg, hr, fun l tail => ⟨?_, ?_⟩⟩
  · -- the core gets back what it holds
    obtain ⟨g', hw, hr'⟩ := writeGeneralRegisters_replies l g (hr.shut.trans ho)
      (gdbRegister gdb.arm) (armReadCpsr gdb.arm) tail
    rw [hr.arm, hr.target, ← generalRegisters_eq] at hw
    refine ⟨g', hw, ?_⟩
    rw [hr'.arm, hr.arm]
    exact gdbWriteGeneralRegisters_self h15
  · intro t hto hhost htarget
    obtain ⟨t', hw, hr'⟩ := writeGeneralRegisters_replies l t hto
      (gdbRegister gdb.arm) (armReadCpsr gdb.arm) tail
    obtain ⟨t'', ht'', hr''⟩ := readGeneralRegisters_replies t' (hr'.shut.trans hto)
    rw [hhost, htarget, ← generalRegisters_eq] at hw
    refine ⟨t', t'', hw, ht'', ?_⟩
    have hv : (gdbRegister gdb.arm 15).toNat % 4 = 0 := by
      rw [gdbRegister_eq fun _ => h15]
      exact h15
    have he : generalRegisters t' = generalRegisters gdb := by
      rw [generalRegisters_eq, hr'.arm, hr'.target]
      dsimp only
      rw [gdbWriteGeneralRegisters_host, registerFields_gdbWriteGeneralRegisters _ _ _ hv, hhost,
        htarget, ← generalRegisters_eq]
    rwa [he] at hr''

/-- The snapshot of a core with numbers in r3 and in the pc, given back to it and to another. -/
theorem register_snapshot_two :
    let gdb := gdbInitData
      (armWriteRegister (armWriteRegister (coreOfWord 7) 3 0x12345678) 15 0x100) .big fun _ => 0
    ∃ (g : Gdb) (payload : List Byte), readGeneralRegisters gdb = .ok g ∧ Replies gdb g payload ∧
      ∀ (l : Locals) (tail : List Byte),
        (∃ g', writeGeneralRegisters l g (payload ++ 0 :: tail) = .ok g' ∧ g'.arm = gdb.arm) ∧
        ∃ t' t'', writeGeneralRegisters l (gdbInitData (coreOfWord 0) .big fun _ => 0)
            (payload ++ 0 :: tail) = .ok t' ∧
          readGeneralRegisters t' = .ok t'' ∧ Replies t' t'' payload := by
  obtain ⟨g, payload, hg, hr, hback⟩ := register_snapshot
    (gdbInitData (armWriteRegister (armWriteRegister (coreOfWord 7) 3 0x12345678) 15 0x100) .big
      fun _ => 0) rfl (by decide +kernel)
  refine ⟨g, payload, hg, hr, fun l tail => ?_⟩
  obtain ⟨hself, hother⟩ := hback l tail
  exact ⟨hself, hother (gdbInitData (coreOfWord 0) .big fun _ => 0) rfl rfl rfl⟩

/-! ### Single registers -/

/-- The payload `P<r>=<v>`, the register in hexadecimal. -/
def writeRegisterPayload (host target : Endian) (r : Fin 16) (v : Word) : List Byte :=
  char 'P' :: (hexNat r ++ char '=' :: writeUint32 host target v)

/-- The payload `p<r>`, the register in hexadecimal. -/
def readRegisterPayload (r : Fin 16) : List Byte := char 'p' :: hexNat r

theorem stringAt_append {s : List Byte} (h : 0 ∉ s) (tail : List Byte) :
    stringAt (s ++ 0 :: tail) = .ok s := by
  rw [stringAt, cString_append h, cString_zero, Option.map_some, List.append_nil]

theorem writeRegisterPacket_eq (l : Locals) (gdb : Gdb) (r : Fin 16) (v : Word) (tail : List Byte) :
    writeRegisterPacket l gdb
        (hexNat r ++ char '=' :: writeUint32 gdb.arm.host gdb.target v ++ 0 :: tail) =
      gdbSendData { gdb with arm := gdbWriteRegister gdb.arm r v } (ascii "OK") := by
  have hr := r.isLt
  have h0 : 0 ∉ hexNat r ++ char '=' :: writeUint32 gdb.arm.host gdb.target v := by
    rw [List.mem_append, List.mem_cons]
    rintro (h | h | h)
    · exact notMem_hexNat r rfl h
    · exact absurd h (by decide)
    · exact notMem_writeUint32 _ _ _ rfl h
  have hstop : Stops (char '=' :: writeUint32 gdb.arm.host gdb.target v) := by
    intro b hb
    cases hb
    decide
  have hscan := scanHexWord_hexNat (n := r) (by omega) hstop
  have hindex := index_append (notMem_hexNat r (c := 0) rfl) (notMem_hexNat r (c := char '=') rfl)
    (by decide) (writeUint32 gdb.arm.host gdb.target v ++ 0 :: tail)
  have hreg : (BitVec.ofNat 32 r.val).toNat = r.val := by
    rw [BitVec.toNat_ofNat]
    omega
  rw [writeRegisterPacket, stringAt_append h0]
  simp only [Run.ok_bind, hscan, Option.map_some, Option.getD_some, List.append_assoc,
    List.cons_append, hindex, List.drop_succ_cons, List.drop_zero,
    readUint32_writeUint32 _ _ v (List.mem_cons_self (a := 0) (l := tail)), hreg, hr, dif_pos]

/-- The register that `atoi` finds in the text of `r`: the letters stop it. -/
def decimalRegister (r : Fin 16) : Fin 16 := if r < 10 then r else 0

theorem atoi_hexNat (r : Fin 16) : (atoi (hexNat r)).toNat = decimalRegister r := by
  revert r
  decide

/-- `p` sends the register that the string names, if there is such a register. -/
theorem readRegisterPacket_eq (gdb : Gdb) {data s : List Byte} (hs : stringAt data = .ok s) :
    readRegisterPacket gdb data =
      if h : (atoi s).toNat < 16 then
        gdbSendData gdb (writeUint32 gdb.arm.host gdb.target
          (gdbRegister gdb.arm ⟨(atoi s).toNat, h⟩))
      else .error .assertion := by
  rw [readRegisterPacket, hs]
  rfl

theorem readRegisterPacket_replies (gdb : Gdb) (ho : gdb.shut = false) (r : Fin 16)
    (tail : List Byte) :
    ∃ g, readRegisterPacket gdb (hexNat r ++ 0 :: tail) = .ok g ∧
      Replies gdb g (writeUint32 gdb.arm.host gdb.target (gdbRegister gdb.arm (decimalRegister r))) := by
  have hlt : (atoi (hexNat r)).toNat < 16 := by
    rw [atoi_hexNat]
    exact (decimalRegister r).isLt
  have hreg : (⟨(atoi (hexNat r)).toNat, hlt⟩ : Fin 16) = decimalRegister r :=
    Fin.ext (atoi_hexNat r)
  rw [readRegisterPacket_eq gdb (stringAt_append (notMem_hexNat r rfl) tail), dif_pos hlt, hreg]
  exact gdbSendData_replies gdb ho (notMem_writeUint32 _ _ _ rfl) (by rw [length_writeUint32]; decide)

/-- `P` and then `p` of the same register: the answer has the digits of the value that
was written, and no other register has changed. -/
def RegisterRoundTrip (gdb : Gdb) (r : Fin 16) (v : Word) (write read : Token) : Prop :=
  ∃ g g', onToken gdb write = .ok g ∧ onToken g read = .ok g' ∧
    g'.wire = g.wire ++ ascii "+" ++ frame (writeUint32 gdb.arm.host gdb.target v) ∧
    ∀ c, c ≠ cell (getModeNum gdb.arm.reg) r.castSucc →
      g.arm.reg.registers c = gdb.arm.reg.registers c

section RoundTrip

variable (gdb : Gdb) (ho : gdb.shut = false) (r : Fin 16) (v : Word)

/-- What `p` sees of the register that `P` has written. -/
theorem gdbRegister_decimalRegister :
    gdbRegister (gdbWriteRegister gdb.arm r v) (decimalRegister r) = v ↔
      r < 10 ∨ readRegister gdb.arm.reg 0 = v := by
  rw [decimalRegister]
  split
  next h =>
    have h15 : r ≠ 15 := by
      rintro rfl
      exact absurd h (by decide)
    refine iff_of_true ?_ (Or.inl h)
    rw [gdbRegister, if_neg h15, gdbWriteRegister, armReadRegister_write_same _ _ h15]
    exact BitVec.sub_zero v
  next h =>
    have h0 : (0 : Fin 16) ≠ r := by
      rintro rfl
      exact h (by decide)
    have hr : gdbRegister (gdbWriteRegister gdb.arm r v) 0 = readRegister gdb.arm.reg 0 := by
      rw [gdbRegister, if_neg (by decide), gdbWriteRegister, armReadRegister_write_of_ne _ _ h0]
      exact BitVec.sub_zero _
    rw [hr, or_iff_right h]

include ho

/-- The two packets, whatever lies behind them. -/
theorem registerRoundTrip_eq {w q : Packet}
    (hw : w.payload = writeRegisterPayload gdb.arm.host gdb.target r v) (hwv : w.Valid)
    (hq : q.payload = readRegisterPayload r) (hqv : q.Valid) (behind behind' : List Byte)
    (l l' : Locals) :
    ∃ g g', onToken gdb (.packet w behind l) = .ok g ∧ g.arm = gdbWriteRegister gdb.arm r v ∧
      onToken g (.packet q behind' l') = .ok g' ∧
      g'.wire = g.wire ++ ascii "+" ++ frame (writeUint32 gdb.arm.host gdb.target
        (gdbRegister (gdbWriteRegister gdb.arm r v) (decimalRegister r))) := by
  obtain ⟨g, hg, hr⟩ := gdbSendData_replies { gdb with
    wire := gdb.wire ++ ascii "+", arm := gdbWriteRegister gdb.arm r v } (s := ascii "OK") ho
    (by decide) (by decide)
  obtain ⟨g', hg', hr'⟩ := readRegisterPacket_replies { g with wire := g.wire ++ ascii "+" }
    (hr.shut.trans ho) r (q.high :: q.low :: 0 :: behind')
  refine ⟨g, g', ?_, hr.arm, ?_, ?_⟩
  · rw [onToken_valid gdb ho hwv, Packet.index, Packet.argument, hw, ← hg]
    exact writeRegisterPacket_eq l { gdb with wire := gdb.wire ++ ascii "+" } r v _
  · rw [onToken_valid g (hr.shut.trans ho) hqv, Packet.index, Packet.argument, hq]
    exact hg'
  · rw [hr'.wire]
    dsimp only
    rw [hr.arm, hr.target]
    rfl

theorem registerRoundTrip_iff_register {w q : Packet}
    (hw : w.payload = writeRegisterPayload gdb.arm.host gdb.target r v) (hwv : w.Valid)
    (hq : q.payload = readRegisterPayload r) (hqv : q.Valid) (behind behind' : List Byte)
    (l l' : Locals) :
    RegisterRoundTrip gdb r v (.packet w behind l) (.packet q behind' l') ↔
      gdbRegister (gdbWriteRegister gdb.arm r v) (decimalRegister r) = v := by
  obtain ⟨g, g', hg, harm, hg', hwire⟩ :=
    registerRoundTrip_eq gdb ho r v hw hwv hq hqv behind behind' l l'
  constructor
  · rintro ⟨h, h', hh, hh', hans, -⟩
    rw [hg] at hh
    cases hh
    rw [hg'] at hh'
    cases hh'
    rw [hwire] at hans
    exact writeUint32_injective _ _ (frame_injective (List.append_cancel_left hans))
  · intro he
    refine ⟨g, g', hg, hg', by rw [hwire, he], ?_⟩
    intro c hc
    rw [harm]
    exact Registers.set_of_ne _ _ hc

/-- **`p` answers with the register that `P` has written exactly when its number is
below 10, or r0 happens to hold the value.** -/
theorem registerRoundTrip_iff {w q : Packet}
    (hw : w.payload = writeRegisterPayload gdb.arm.host gdb.target r v) (hwv : w.Valid)
    (hq : q.payload = readRegisterPayload r) (hqv : q.Valid) (behind behind' : List Byte)
    (l l' : Locals) :
    RegisterRoundTrip gdb r v (.packet w behind l) (.packet q behind' l') ↔
      r < 10 ∨ readRegister gdb.arm.reg 0 = v := by
  rw [← gdbRegister_decimalRegister gdb r v]
  exact registerRoundTrip_iff_register gdb ho r v hw hwv hq hqv behind behind' l l'

end RoundTrip

/-- `P1=07000000` and then `p1`. -/
theorem registerRoundTrip_r1 :
    RegisterRoundTrip (gdbInitData (coreOfWord 0) .little fun _ => 0) 1 7
      (.packet (framePacket (writeRegisterPayload .little .little 1 7) (by decide)) []
        ⟨0, fun _ => 0, 0⟩)
      (.packet (framePacket (readRegisterPayload 1) (by decide)) [] ⟨0, fun _ => 0, 0⟩) :=
  (registerRoundTrip_iff _ rfl 1 7 rfl (framePacket_valid _ _) rfl (framePacket_valid _ _) _ _ _ _).mpr
    (Or.inl (by decide))

/-- `Pa=01000000` and then `pa`, which is answered with r0. -/
theorem pa_answers_r0 :
    ¬ ∀ (gdb : Gdb) (r : Fin 16) (v : Word) (w q : Packet) (behind behind' : List Byte)
      (l l' : Locals), gdb.shut = false → (r = 15 → v.toNat % 4 = 0) →
      w.payload = writeRegisterPayload gdb.arm.host gdb.target r v → w.Valid →
      q.payload = readRegisterPayload r → q.Valid →
      RegisterRoundTrip gdb r v (.packet w behind l) (.packet q behind' l') := by
  intro h
  have hp : ∀ b ∈ writeRegisterPayload .little .little 10 1, b ≠ char '$' ∧ b ≠ char '#' := by decide
  have hq : ∀ b ∈ readRegisterPayload 10, b ≠ char '$' ∧ b ≠ char '#' := by decide
  have ha := h (gdbInitData (coreOfWord 0) .little fun _ => 0) 10 1
    (framePacket _ hp) (framePacket _ hq) [] [] ⟨0, fun _ => 0, 0⟩ ⟨0, fun _ => 0, 0⟩ rfl
    (by decide) rfl (framePacket_valid _ _) rfl (framePacket_valid _ _)
  have hr := (registerRoundTrip_iff_register _ rfl 10 1 rfl (framePacket_valid _ hp) rfl
    (framePacket_valid _ hq) _ _ _ _).mp ha
  exact absurd hr (by decide)

end Armator
