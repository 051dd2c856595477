import Armator.Gdb.Memory

/-!
# The two views of a word

The stub and the memory each have their own idea of the byte order of the target: the
stub walks the union of `read_uint32` and `write_uint32` forwards or backwards, and the
memory reverses the bytes of a word or does not.  The two agree for either order of the
host and of the target (`views_agree`), so that `m` shows a stored register with the
digits that `p` answers.

The index of the walk is unsigned, so the test `i >= 0` says nothing: backwards, the loop
ends because the index before 0 is the largest one (`loopGuard_indexAt`).
-/

namespace Armator

open Text

/-! ### The loops over the union -/

/-- The first index of the loops and their step. -/
def loopStart (host target : Endian) : Word × Word :=
  if isBigEndian host = (target == .big) then (0, 1) else (3, -1)

def loopGuard (i : Word) : Bool := i < 4 ∧ 0 ≤ i

/-- The loop of `write_uint32` with a bound on the tests of its guard: `text` is what has
been written so far. -/
def writeUint32Loop (bytes : Nat → Byte) (step : Word) :
    Nat → Word → List Byte → Option (List Byte)
  | 0, _, _ => none
  | fuel + 1, i, text =>
    if loopGuard i then
      writeUint32Loop bytes step fuel (i + step) (text ++ hexByte (bytes i.toNat))
    else some text

/-- The loop of `read_uint32`: a conversion that fails leaves `value` as it is. -/
def readUint32Loop (step : Word) :
    Nat → Word → List Byte → Word → (Nat → Byte) → Option (Except Stop (Nat → Byte))
  | 0, _, _, _, _ => none
  | fuel + 1, i, data, value, bytes =>
    if loopGuard i then
      match stringAt data with
      | .error e => some (.error e)
      | .ok s =>
        let value := ((scanHex 2 s).map Prod.fst).getD value
        readUint32Loop step fuel (i + step) (data.drop 2) value
          (Function.update bytes i.toNat (value.setWidth 8))
    else some (.ok bytes)

def writeUint32Within (fuel : Nat) (host target : Endian) (value : Word) : Option (List Byte) :=
  writeUint32Loop (Bytes.byteOf host 4 value) (loopStart host target).2 fuel
    (loopStart host target).1 []

/-- `read_uint32` with a bound on its loop: `garbage` is in the union before. -/
def readUint32Within (fuel : Nat) (host target : Endian) (data : List Byte) (value : Word)
    (garbage : Nat → Byte) : Option (Except Stop Word) :=
  (readUint32Loop (loopStart host target).2 fuel (loopStart host target).1 data value garbage).map
    (Except.map (Bytes.ofBytes host 4))

/-! ### The index -/

section Index

variable (host target : Endian)

def indexAt (k : Nat) : Word :=
  (loopStart host target).1 + BitVec.ofNat 32 k * (loopStart host target).2

theorem indexAt_zero : indexAt host target 0 = (loopStart host target).1 := by
  simp [indexAt]

theorem indexAt_succ (k : Nat) :
    indexAt host target (k + 1) = indexAt host target k + (loopStart host target).2 := by
  rw [indexAt, indexAt, BitVec.ofNat_add, BitVec.add_mul, BitVec.one_mul, BitVec.add_assoc]

theorem toNat_indexAt {k : Nat} (h : k < 4) :
    (indexAt host target k).toNat = byteIndex host target k := by
  unfold indexAt loopStart byteIndex
  split
  · interval_cases k <;> rfl
  · interval_cases k <;> rfl

/-- **The loop is left after four iterations**: forwards at 4, backwards at 2³² - 1. -/
theorem loopGuard_indexAt {k : Nat} (h : k ≤ 4) :
    loopGuard (indexAt host target k) = decide (k < 4) := by
  unfold indexAt loopStart
  split
  · interval_cases k <;> rfl
  · interval_cases k <;> rfl

/-! ### The loops end -/

/-- The union after the bytes that the iterations from `k` on have read. -/
def fill : Nat → List Byte → (Nat → Byte) → Nat → Byte
  | _, [], bytes => bytes
  | k, b :: bs, bytes => fill (k + 1) bs (Function.update bytes (byteIndex host target k) b)

theorem byteIndex_ne {j k : Nat} (hj : j < 4) (hk : k < 4) (h : j ≠ k) :
    byteIndex host target j ≠ byteIndex host target k := by
  intro he
  have hjk := congrArg (byteIndex host target) he
  rw [byteIndex_byteIndex host target hj, byteIndex_byteIndex host target hk] at hjk
  exact h hjk

theorem fill_byteIndex (bs : List Byte) {k : Nat} (h : k + bs.length ≤ 4) (bytes : Nat → Byte)
    {j : Nat} (hj : j < 4) :
    fill host target k bs bytes (byteIndex host target j) =
      if k ≤ j ∧ j < k + bs.length then bs.getD (j - k) 0 else bytes (byteIndex host target j) := by
  induction bs generalizing k bytes with
  | nil =>
    rw [if_neg (by rw [List.length_nil]; omega)]
    rfl
  | cons b bs ih =>
    rw [List.length_cons] at h
    rw [fill, ih (by omega), List.length_cons]
    rcases Nat.lt_trichotomy j k with hlt | rfl | hgt
    · have hne := byteIndex_ne host target hj (show k < 4 by omega) (by omega)
      rw [if_neg (by omega), if_neg (by omega), Function.update_of_ne hne]
    · rw [if_neg (by omega), if_pos (by omega), Function.update_self, Nat.sub_self]
      rfl
    · have hne := byteIndex_ne host target hj (show k < 4 by omega) (by omega)
      by_cases hin : j < k + (bs.length + 1)
      · rw [if_pos (by omega), if_pos (by omega), show j - k = j - (k + 1) + 1 by omega,
          List.getD_cons_succ]
      · rw [if_neg (by omega), if_neg (by omega), Function.update_of_ne hne]

theorem writeUint32Loop_eq (bytes : Nat → Byte) (n : Nat) {k fuel : Nat} (hk : k + n = 4)
    (hf : n < fuel) (text : List Byte) :
    writeUint32Loop bytes (loopStart host target).2 fuel (indexAt host target k) text =
      some (text ++ (List.range' k n).flatMap fun j => hexByte (bytes (byteIndex host target j))) := by
  induction n generalizing k fuel text with
  | zero =>
    obtain ⟨fuel, rfl⟩ := Nat.exists_eq_succ_of_ne_zero (Nat.ne_of_gt hf)
    rw [writeUint32Loop, loopGuard_indexAt host target (by omega), if_neg (by simp; omega)]
    simp
  | succ n ih =>
    obtain ⟨fuel, rfl⟩ := Nat.exists_eq_succ_of_ne_zero (Nat.ne_of_gt (Nat.zero_lt_of_lt hf))
    rw [writeUint32Loop, loopGuard_indexAt host target (by omega), if_pos (by simp; omega),
      ← indexAt_succ, ih (by omega) (by omega), toNat_indexAt host target (by omega)]
    rw [List.range'_succ, List.flatMap_cons, List.append_assoc]

theorem readUint32Loop_eq (n : Nat) {k fuel : Nat} (hk : k + n = 4) (hf : n < fuel)
    (data : List Byte) (value : Word) (bytes : Nat → Byte) :
    readUint32Loop (loopStart host target).2 fuel (indexAt host target k) data value bytes =
      some ((readBytes n data value).map fun bs => fill host target k bs bytes) := by
  induction n generalizing k fuel data value bytes with
  | zero =>
    obtain ⟨fuel, rfl⟩ := Nat.exists_eq_succ_of_ne_zero (Nat.ne_of_gt hf)
    rw [readUint32Loop, loopGuard_indexAt host target (by omega), if_neg (by simp; omega)]
    rfl
  | succ n ih =>
    obtain ⟨fuel, rfl⟩ := Nat.exists_eq_succ_of_ne_zero (Nat.ne_of_gt (Nat.zero_lt_of_lt hf))
    rw [readUint32Loop, loopGuard_indexAt host target (by omega), if_pos (by simp; omega), readBytes]
    cases hs : stringAt data with
    | error e => rfl
    | ok s =>
      dsimp only
      rw [← indexAt_succ, ih (by omega) (by omega), toNat_indexAt host target (by omega)]
      simp only [Run.ok_bind]
      cases readBytes n (data.drop 2) (((scanHex 2 s).map Prod.fst).getD value) with
      | error e => rfl
      | ok bs => rfl

theorem length_of_readBytes {n : Nat} {data : List Byte} {value : Word} {bs : List Byte}
    (h : readBytes n data value = .ok bs) : bs.length = n := by
  induction n generalizing data value bs with
  | zero =>
    cases h
    rfl
  | succ n ih =>
    rw [readBytes] at h
    cases hs : stringAt data with
    | error e => rw [hs] at h; cases h
    | ok s =>
      rw [hs] at h
      simp only [Run.ok_bind] at h
      cases hr : readBytes n (data.drop 2) (((scanHex 2 s).map Prod.fst).getD value) with
      | error e => rw [hr] at h; cases h
      | ok rest =>
        rw [hr] at h
        cases h
        rw [List.length_cons, ih hr]

/-- **The loop of `write_uint32` ends**, with the text of the word. -/
theorem writeUint32Within_eq (value : Word) {fuel : Nat} (hf : 5 ≤ fuel) :
    writeUint32Within fuel host target value = some (writeUint32 host target value) := by
  rw [writeUint32Within, ← indexAt_zero, writeUint32Loop_eq host target _ 4 rfl hf, List.nil_append,
    writeUint32, List.range_eq_range']

/-- **The loop of `read_uint32` ends**, with all four bytes of the union read. -/
theorem readUint32Within_eq (data : List Byte) (value : Word) (garbage : Nat → Byte) {fuel : Nat}
    (hf : 5 ≤ fuel) :
    readUint32Within fuel host target data value garbage =
      some (readUint32 host target data value) := by
  rw [readUint32Within, ← indexAt_zero, readUint32Loop_eq host target 4 rfl hf, readUint32,
    Option.map_some]
  cases h : readBytes 4 data value with
  | error e => rfl
  | ok bs =>
    have hlen := length_of_readBytes h
    refine congrArg (some ∘ Except.ok) (Bytes.ofBytes_congr host fun i hi => ?_)
    have hat := fill_byteIndex host target bs (k := 0) (by omega) garbage (byteIndex_lt host target hi)
    rw [byteIndex_byteIndex host target hi] at hat
    have hlt := byteIndex_lt host target hi
    rw [if_pos (by omega), Nat.sub_zero] at hat
    exact hat

end Index

/-! ### Digits -/

/-- A hexadecimal digit as `%02x` writes it. -/
def isLowerHex (c : Byte) : Bool :=
  (char '0' ≤ c ∧ c ≤ char '9') ∨ (char 'a' ≤ c ∧ c ≤ char 'f')

theorem exists_hexDigit {c : Byte} (h : isLowerHex c = true) : ∃ n < 16, hexDigit n = c := by
  revert c
  decide +kernel

theorem exists_hexByte {c d : Byte} (hc : isLowerHex c = true) (hd : isLowerHex d = true) :
    ∃ b, hexByte b = [c, d] := by
  obtain ⟨m, hm, rfl⟩ := exists_hexDigit hc
  obtain ⟨n, hn, rfl⟩ := exists_hexDigit hd
  refine ⟨BitVec.ofNat 8 (16 * m + n), ?_⟩
  have hv : (BitVec.ofNat 8 (16 * m + n)).toNat = 16 * m + n := by
    rw [BitVec.toNat_ofNat]
    omega
  rw [hexByte, hv, show (16 * m + n) / 16 = m by omega, show (16 * m + n) % 16 = n by omega]

/-- Lowercase digits in pairs are the hexadecimal of some bytes. -/
theorem exists_flatMap_hexByte (n : Nat) {d : List Byte} (hd : d.length = 2 * n)
    (h : ∀ c ∈ d, isLowerHex c = true) : ∃ bs : List Byte, bs.length = n ∧ bs.flatMap hexByte = d := by
  induction n generalizing d with
  | zero => exact ⟨[], rfl, (List.length_eq_zero_iff.mp hd).symm⟩
  | succ n ih =>
    match d, hd with
    | c :: c' :: d, hd =>
      obtain ⟨b, hb⟩ := exists_hexByte (h c (by simp)) (h c' (by simp))
      obtain ⟨bs, hlen, hbs⟩ := ih (d := d) (by simp only [List.length_cons] at hd; omega)
        (fun x hx => h x (by simp [hx]))
      refine ⟨b :: bs, by rw [List.length_cons, hlen], ?_⟩
      rw [List.flatMap_cons, hb, hbs]
      rfl

/-- **What `read_uint32` makes of digits, `write_uint32` writes with the same digits.** -/
theorem writeUint32_readUint32 (host target : Endian) {d : List Byte} (hd : d.length = 8)
    (h : ∀ c ∈ d, isLowerHex c = true) {t : List Byte} (ht : 0 ∈ t) (junk : Word) :
    ∃ w, readUint32 host target (d ++ t) junk = .ok w ∧ writeUint32 host target w = d := by
  obtain ⟨bs, hlen, rfl⟩ := exists_flatMap_hexByte 4 hd h
  have hread := readBytes_hexByte bs ht junk
  rw [hlen] at hread
  refine ⟨_, by rw [readUint32, hread]; rfl, ?_⟩
  rw [writeUint32_eq]
  refine congrArg (List.flatMap hexByte) (List.ext_getElem (by simp [hlen]) ?_)
  intro k hk hk'
  rw [hlen] at hk'
  rw [List.getElem_map, List.getElem_range,
    Bytes.byteOf_ofBytes host 4 _ (byteIndex_lt host target hk'),
    byteIndex_byteIndex host target hk', List.getD_eq_getElem _ _ (by omega)]

/-! ### The bytes in memory -/

/-- **The byte that `write_uint32` writes `k`-th is the `k`-th byte in the target's
order**, whatever the host. -/
theorem byteOf_byteIndex (host target : Endian) (v : Word) {k : Nat} (hk : k < 4) :
    Bytes.byteOf host 4 v (byteIndex host target k) = Bytes.byteOf target 4 v k := by
  have hplace : host.place 4 (byteIndex host target k) = target.place 4 k := by
    unfold byteIndex
    rw [isBigEndian_eq]
    cases host <;> cases target <;> simp [Endian.place]
    omega
  rw [Bytes.byteOf, hplace]
  rfl

theorem writeUint32_eq_target (host target : Endian) (v : Word) :
    writeUint32 host target v = (List.range 4).flatMap fun k => hexByte (Bytes.byteOf target 4 v k) := by
  rw [writeUint32_eq, List.flatMap_map]
  refine List.flatMap_congr fun k hk => ?_
  rw [byteOf_byteIndex host target v (List.mem_range.mp hk)]

theorem order_of_target {mem : Memory} {target : Endian} (h : mem.isBigEndian = (target == .big)) :
    mem.order = target := by
  rw [Memory.order, h]
  cases target <;> rfl

/-- The digits of a word are those of the bytes at ascending addresses where it was
stored. -/
theorem writeUint32_of_stored {host target : Endian} {v a : Word} {mem mem' : Memory}
    (horder : mem.isBigEndian = (target == .big)) (h : memoryWriteWord host mem a v = some mem') :
    writeUint32 host target v = (List.range 4).flatMap fun k => hexByte (mem'.memory (a.toNat + k)) := by
  rw [memoryWriteWord_eq, order_of_target horder] at h
  split at h
  · cases h
    rw [writeUint32_eq_target]
    refine List.flatMap_congr fun k hk => ?_
    dsimp only
    rw [Bytes.store_add _ _ _ _ (List.mem_range.mp hk)]
  · cases h

/-- `p` answers with the digits of the register that its argument names. -/
theorem onToken_readRegister (gdb : Gdb) (ho : gdb.shut = false) {q : Packet} (hv : q.Valid)
    (hq : q.index = char 'p') {behind s : List Byte} (hs : stringAt (q.argument behind) = .ok s)
    (hr : (atoi s).toNat < 16) (l : Locals) :
    ∃ g, onToken gdb (.packet q behind l) = .ok g ∧
      g.wire = gdb.wire ++ ascii "+" ++
        frame (writeUint32 gdb.arm.host gdb.target (gdbRegister gdb.arm ⟨(atoi s).toNat, hr⟩)) := by
  obtain ⟨g, hg, hrep⟩ := gdbSendData_replies { gdb with wire := gdb.wire ++ ascii "+" } ho
    (s := writeUint32 gdb.arm.host gdb.target (gdbRegister gdb.arm ⟨(atoi s).toNat, hr⟩))
    (notMem_writeUint32 _ _ _ rfl) (by rw [length_writeUint32]; decide)
  refine ⟨g, ?_, hrep.wire⟩
  rw [onToken_valid gdb ho hv, hq]
  change readRegisterPacket _ (q.argument behind) = .ok g
  rw [readRegisterPacket_eq _ hs, dif_pos hr]
  exact hg

/-- `m` of the four bytes where a word was stored answers with the digits of the word. -/
theorem onToken_readStored (gdb : Gdb) (ho : gdb.shut = false) {v a : Word} {mem : Memory}
    (h3 : 3 ≤ mem.size.toNat) (hs : mem.size.toNat < 2 ^ 32)
    (horder : mem.isBigEndian = (gdb.target == .big))
    (h : memoryWriteWord gdb.arm.host mem a v = some gdb.arm.mem) {y : Packet} (hv : y.Valid)
    (hy : y.payload = readMemoryPayload a 4) (behind : List Byte) (l : Locals) :
    ∃ g, onToken gdb (.packet y behind l) = .ok g ∧
      g.wire = gdb.wire ++ ascii "+" ++ frame (writeUint32 gdb.arm.host gdb.target v) := by
  have hdigits := writeUint32_of_stored horder h
  have hfit : a.toNat + 4 ≤ mem.size.toNat ∧ gdb.arm.mem.size = mem.size := by
    rw [memoryWriteWord_eq] at h
    split at h
    · rename_i hadm
      exact ⟨(admits_iff (by omega) (by decide) a).mp hadm, by rw [← Option.some.inj h]⟩
    · cases h
  have hin : a.toNat +
      ((List.range 4).map fun k => gdb.arm.mem.memory (a.toNat + k)).length ≤
      gdb.arm.mem.size.toNat := by
    rw [hfit.2]
    exact hfit.1
  obtain ⟨g, hg, hw⟩ := onToken_readMemory gdb ho (by rw [hfit.2]; exact hs) hin
    (by
      intro k hk
      rw [List.getD_eq_getElem _ _ hk, List.getElem_map, List.getElem_range])
    (by simp) hy hv behind l
  refine ⟨g, hg, ?_⟩
  rw [hw, hdigits, List.flatMap_map]

/-! ### The two views -/

/-- What it means that the stub and a memory of the target's order see the same words. -/
structure ViewsAgree (host target : Endian) : Prop where
  /-- five tests of the guard end either loop -/
  write_ends : ∀ (v : Word) (fuel : Nat), 5 ≤ fuel →
    writeUint32Within fuel host target v = some (writeUint32 host target v)
  read_ends : ∀ (data : List Byte) (value : Word) (garbage : Nat → Byte) (fuel : Nat), 5 ≤ fuel →
    readUint32Within fuel host target data value garbage = some (readUint32 host target data value)
  stored : ∀ (v a : Word) (mem mem' : Memory), mem.isBigEndian = (target == .big) →
    memoryWriteWord host mem a v = some mem' →
    writeUint32 host target v = (List.range 4).flatMap fun k => hexByte (mem'.memory (a.toNat + k))
  /-- `p` of a register, and `m` of the place where its value has been stored -/
  shown : ∀ gdb : Gdb, gdb.arm.host = host → gdb.target = target → gdb.shut = false →
    gdb.arm.mem.isBigEndian = (target == .big) → 3 ≤ gdb.arm.mem.size.toNat →
    gdb.arm.mem.size.toNat < 2 ^ 32 →
    ∀ (q : Packet) (behind s : List Byte) (l : Locals), q.Valid → q.index = char 'p' →
    stringAt (q.argument behind) = .ok s → ∀ hr : (atoi s).toNat < 16,
    ∀ (a : Word) (mem : Memory),
    memoryWriteWord host gdb.arm.mem a (gdbRegister gdb.arm ⟨(atoi s).toNat, hr⟩) = some mem →
    ∀ (y : Packet) (behind' : List Byte) (l' : Locals), y.Valid →
    y.payload = readMemoryPayload a 4 →
    ∃ g g', onToken gdb (.packet q behind l) = .ok g ∧
      onToken { gdb with arm := { gdb.arm with mem := mem } } (.packet y behind' l') = .ok g' ∧
      g.wire = gdb.wire ++ ascii "+" ++
        frame (writeUint32 host target (gdbRegister gdb.arm ⟨(atoi s).toNat, hr⟩)) ∧
      g'.wire = g.wire
  read_write : ∀ (v : Word) (t : List Byte) (junk : Word), 0 ∈ t →
    readUint32 host target (writeUint32 host target v ++ t) junk = .ok v
  write_read : ∀ (d t : List Byte) (junk : Word), d.length = 8 →
    (∀ c ∈ d, isLowerHex c = true) → 0 ∈ t →
    ∃ w, readUint32 host target (d ++ t) junk = .ok w ∧ writeUint32 host target w = d

/-- **The register and the memory view of a word agree**, in every order of the host and
of the target. -/
theorem views_agree (host target : Endian) : ViewsAgree host target where
  write_ends := fun v _ hf => writeUint32Within_eq host target v hf
  read_ends := fun data value garbage _ hf => readUint32Within_eq host target data value garbage hf
  stored := fun _ _ _ _ horder h => writeUint32_of_stored horder h
  shown := by
    rintro gdb rfl rfl ho horder h3 hsize q behind s l hv hq hs hr a mem hmem y behind' l' hy hpay
    obtain ⟨g, hg, hw⟩ := onToken_readRegister gdb ho hv hq hs hr l
    obtain ⟨g', hg', hw'⟩ := onToken_readStored { gdb with arm := { gdb.arm with mem := mem } } ho
      h3 hsize horder hmem hy hpay behind' l'
    exact ⟨g, g', hg, hg', hw, hw'.trans hw.symm⟩
  read_write := fun v _ junk ht => readUint32_writeUint32 host target v ht junk
  write_read := fun _ _ junk hd h ht => writeUint32_readUint32 host target hd h ht junk

end Armator
