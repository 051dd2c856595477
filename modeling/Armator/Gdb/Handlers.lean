import Armator.Gdb.Memory
import Armator.Gdb.StopReason

/-!
# The outcome of a request

Every handler but the one for `k` ends with one reply, or does not return.  For each
of them, one lemma says when it does which (`AnswersWhen`), and they are put together
for the handler table (`Handler.call_answers`).

A request that is malformed can bring the simulator down: the register of `p` and `P`
is checked by an assertion, `P` and `X` use what `index` finds without a look at it,
and several handlers read or write on without a bound.  A packet that starts no
execution is answered exactly when `Answerable` holds (`survives_iff`).
-/

namespace Armator

open Text

/-- `g` is `gdb` after one reply, whatever has happened to the core. -/
structure Answered (gdb g : Gdb) (s : List Byte) : Prop where
  plain : ∀ b ∈ s, b ≠ char '$' ∧ b ≠ char '#'
  shut : g.shut = gdb.shut
  wire : g.wire = gdb.wire ++ frame s
  stored : g.stored = frame s

/-- The computation answers once where `c` holds, and stops where it does not. -/
def AnswersWhen (c : Prop) (gdb : Gdb) (x : Except Stop Gdb) : Prop :=
  (c → ∃ g s, x = .ok g ∧ Answered gdb g s) ∧ (¬ c → ∃ e, x = .error e)

theorem answersWhen_true {gdb : Gdb} {x : Except Stop Gdb}
    (h : ∃ g s, x = .ok g ∧ Answered gdb g s) : AnswersWhen True gdb x :=
  ⟨fun _ => h, fun hn => absurd trivial hn⟩

theorem AnswersWhen.isOk_iff {c : Prop} {gdb : Gdb} {x : Except Stop Gdb}
    (h : AnswersWhen c gdb x) : (∃ g, x = .ok g) ↔ c := by
  constructor
  · rintro ⟨g, hg⟩
    by_contra hc
    obtain ⟨e, he⟩ := h.2 hc
    cases hg.symm.trans he
  · intro hc
    obtain ⟨g, s, hg, -⟩ := h.1 hc
    exact ⟨g, hg⟩

theorem AnswersWhen.answered {c : Prop} {gdb g : Gdb} {x : Except Stop Gdb}
    (h : AnswersWhen c gdb x) (hg : x = .ok g) : ∃ s, Answered gdb g s := by
  obtain ⟨g', s, hg', ha⟩ := h.1 (h.isOk_iff.mp ⟨g, hg⟩)
  cases hg.symm.trans hg'
  exact ⟨s, ha⟩

/-- A reply in hexadecimal digits, and the letter x. -/
theorem answers_of_replies {gdb : Gdb} {x : Except Stop Gdb} {s : List Byte}
    (h : ∃ g, x = .ok g ∧ Replies gdb g s)
    (hs : ∀ c, digitValue c = none → c ∉ ascii "xxxxxxxx" → c ∉ s) :
    ∃ g t, x = .ok g ∧ Answered gdb g t := by
  obtain ⟨g, hg, hr⟩ := h
  refine ⟨g, s, hg, ?_, hr.shut, hr.wire, hr.stored⟩
  intro b hb
  constructor
  · rintro rfl
    exact hs (char '$') rfl (by decide) hb
  · rintro rfl
    exact hs (char '#') rfl (by decide) hb

/-- `cont` changes the core and the exception only. -/
theorem contLoop_ok {fuel : Nat} {gdb g : Gdb} {instruction : Word}
    (h : contLoop fuel gdb instruction = .ok g) :
    ∃ p e, g = { gdb with arm := p, targetException := e } := by
  induction fuel generalizing gdb instruction with
  | zero => cases h
  | succ fuel ih =>
    rw [contLoop] at h
    split at h
    · exact ⟨gdb.arm, gdb.targetException, (Except.ok.inj h).symm⟩
    · cases hs : armStep gdb.arm with
      | error e =>
        rw [gdbStep, hs] at h
        cases h
      | ok rq =>
        rw [gdbStep, hs] at h
        have hrest : contLoop fuel { gdb with arm := rq.2, targetException := rq.1 }
            ((armReadWord gdb.arm (armReadRegister gdb.arm 15 - 4)).getD instruction) = .ok g := h
        obtain ⟨p, e, he⟩ := ih hrest
        exact ⟨p, e, he⟩

/-! ### Requests -/

/-- The string that a pointer into the packet points to. -/
def textOf (data : List Byte) : List Byte := data.takeWhile (· ≠ 0)

theorem stringAt_eq {data : List Byte} (h : 0 ∈ data) : stringAt data = .ok (textOf data) := by
  rw [stringAt, cString, if_pos h]
  rfl

/-- The string ends at the NUL in the place of the `#`. -/
theorem textOf_append_zero (s rest : List Byte) : textOf (s ++ 0 :: rest) = textOf s := by
  induction s with
  | nil => rfl
  | cons b s ih =>
    by_cases hb : b = 0
    · subst hb
      rfl
    · have hcons : ∀ u, textOf (b :: u) = b :: textOf u :=
        fun u => List.takeWhile_cons_of_pos (decide_eq_true hb)
      rw [List.cons_append, hcons, hcons, ih]

/-- The register of a `P` packet, as far as it can be read. -/
def registerNumber (l : Locals) (data : List Byte) : Word :=
  ((scanHexWord (textOf data)).map Prod.fst).getD (l.junk 0)

/-- How many of `n` bytes from `a` on lie in the memory. -/
def readableLength (mem : Memory) (n : Nat) (a : Word) : Nat :=
  if 2 ^ 32 ≤ mem.size.toNat then n else min n (mem.size.toNat - a.toNat)

theorem length_readable (mem : Memory) (n : Nat) (a : Word) :
    (readable mem n a).length = readableLength mem n a := by
  induction n generalizing a with
  | zero => simp [readable, readableLength]
  | succ n ih =>
    have ha := a.isLt
    rw [readable, memoryReadByte, readableLength]
    by_cases hm : a.toNat < mem.size.toNat
    · simp only [if_pos hm, List.length_cons, ih, readableLength]
      split
      · rfl
      · rw [toNat_succ (by omega)]
        omega
    · simp only [if_neg hm, List.length_nil]
      split <;> omega

/-- How many bytes the loop of `X` takes from the data: it stops with the first that
does not fit in the memory, and does not start outside of it. -/
def takenLength (mem : Memory) (n : Nat) (a : Word) : Nat :=
  if mem.size.toNat ≤ a.toNat then 0
  else if 2 ^ 32 ≤ mem.size.toNat then n
  else min n (mem.size.toNat - a.toNat + 1)

/-- The data goes on for `n` items, an item being a byte or 0x7d and the byte behind
it. -/
def holdsItems : Nat → List Byte → Bool
  | 0, _ => true
  | _ + 1, [] => false
  | n + 1, b :: bs => if b = 0x7d then !bs.isEmpty && holdsItems n bs.tail else holdsItems n bs

theorem nextByte_isOk_iff (n : Nat) (content : List Byte) :
    holdsItems (n + 1) content = true ↔
      ∃ b rest, nextByte (some content) = .ok (b, rest) ∧ holdsItems n rest = true := by
  cases content with
  | nil => simp [holdsItems, nextByte]
  | cons b bs =>
    by_cases hb : b = 0x7d
    · cases bs with
      | nil => simp [holdsItems, nextByte, hb]
      | cons c bs => simp [holdsItems, nextByte, hb]
    · simp only [holdsItems, nextByte, if_neg hb]
      simp

/-- **The loop of `X` returns exactly when the data goes on for as long as it takes
from it.** -/
theorem writeMemoryLoop_isOk_iff (n : Nat) (content : List Byte) (a : Word) (mem : Memory) :
    (∃ x, writeMemoryLoop n (some content) a mem = .ok x) ↔
      holdsItems (if 2 ^ 32 ≤ mem.size.toNat then n else min n (mem.size.toNat - a.toNat + 1))
        content = true := by
  induction n generalizing content a mem with
  | zero => simp [writeMemoryLoop, holdsItems]
  | succ n ih =>
    have ha := a.isLt
    have hstep : (if 2 ^ 32 ≤ mem.size.toNat then n + 1 else min (n + 1) (mem.size.toNat - a.toNat + 1)) =
        (if a.toNat < mem.size.toNat then
          if 2 ^ 32 ≤ mem.size.toNat then n else min n (mem.size.toNat - (a + 1).toNat + 1)
        else 0) + 1 := by
      split
      · rw [if_pos (by omega)]
      · split
        · rw [toNat_succ (by omega)]
          omega
        · omega
    rw [hstep, nextByte_isOk_iff, writeMemoryLoop]
    cases hb : nextByte (some content) with
    | error e => simp [Run.error_bind]
    | ok item =>
      obtain ⟨b, rest⟩ := item
      have hrest : ∀ k, (∃ b' rest', (.ok (b, rest) : Except Stop _) = .ok (b', rest') ∧
          holdsItems k rest' = true) ↔ holdsItems k rest = true := by
        intro k
        simp
      rw [hrest]
      simp only [Run.ok_bind, memoryWriteByte]
      by_cases hm : a.toNat < mem.size.toNat
      · simp only [if_pos hm]
        exact ih rest (a + 1) _
      · simp [if_neg hm, holdsItems]

/-- The data that `index` found is long enough for the loop of `X`. -/
def TakesItems (mem : Memory) (request : Word × Word) : Option (List Byte) → Prop
  | none => takenLength mem request.2.toNat request.1 = 0
  | some content => holdsItems (takenLength mem request.2.toNat request.1) (content.drop 1) = true

theorem writeMemory_isOk_iff (mem : Memory) (request : Word × Word) (found : Option (List Byte)) :
    (∃ x, (if request.1.toNat < mem.size.toNat then
        writeMemoryLoop request.2.toNat (found.map (List.drop 1)) request.1 mem
      else .ok (false, mem)) = .ok x) ↔ TakesItems mem request found := by
  by_cases ha : request.1.toNat < mem.size.toNat
  · cases found with
    | none =>
      rw [TakesItems, takenLength, if_pos ha, if_neg (by omega), Option.map_none]
      cases request.2.toNat with
      | zero => simp [writeMemoryLoop]
      | succ n =>
        refine iff_of_false ?_ ?_
        · rintro ⟨x, hx⟩
          cases hx
        · split <;> omega
    | some content =>
      rw [TakesItems, takenLength, if_pos ha, if_neg (by omega)]
      exact writeMemoryLoop_isOk_iff _ _ _ _
  · cases found with
    | none => simp [TakesItems, takenLength, ha]
    | some content =>
      rw [TakesItems, takenLength, if_neg ha, if_pos (by omega)]
      exact iff_of_true ⟨_, rfl⟩ rfl

section Handlers

variable (l : Locals) (gdb : Gdb) (ho : gdb.shut = false)

include ho

/-- A reply of `gdb_send_data`, after the core may have changed. -/
theorem gdbSendData_answers (p : ArmCore) (e : Int) {s : List Byte} (hs : isPlain s = true)
    (hl : s.length ≤ 1019) :
    ∃ g t, gdbSendData { gdb with arm := p, targetException := e } s = .ok g ∧ Answered gdb g t := by
  obtain ⟨h0, hp⟩ := isPlain_iff.mp hs
  obtain ⟨g, hg, hr⟩ := gdbSendData_replies { gdb with arm := p, targetException := e } ho h0 hl
  exact ⟨g, s, hg, hp, hr.shut, hr.wire, hr.stored⟩

theorem gdbSendStopReason_answers (p : ArmCore) (e : Int) :
    ∃ g t, gdbSendStopReason { gdb with arm := p, targetException := e } = .ok g ∧
      Answered gdb g t := by
  refine gdbSendData_answers gdb ho p e (isPlain_stopReason e) ?_
  rw [length_stopReason]
  decide

/-! ### The handlers that do not look at the request -/

theorem cont_answers :
    AnswersWhen (∃ g, contLoop l.fuel gdb (l.junk 0) = .ok g) gdb (cont l gdb) := by
  constructor
  · rintro ⟨g, hg⟩
    obtain ⟨p, e, rfl⟩ := contLoop_ok hg
    rw [cont, hg]
    exact gdbSendStopReason_answers gdb ho p e
  · intro hn
    cases h : contLoop l.fuel gdb (l.junk 0) with
    | ok g => exact absurd ⟨g, h⟩ hn
    | error e =>
      rw [cont, h]
      exact ⟨e, rfl⟩

theorem step_answers : AnswersWhen (∃ r, Returns (armStep gdb.arm) r) gdb (step gdb) := by
  constructor
  · rintro ⟨r, q, hq⟩
    rw [step, gdbStep, hq]
    exact gdbSendStopReason_answers gdb ho q r
  · intro hn
    cases h : armStep gdb.arm with
    | ok rq => exact absurd ⟨rq.1, rq.2, h⟩ hn
    | error e =>
      rw [step, gdbStep, h]
      exact ⟨.halted e, rfl⟩

theorem readGeneralRegisters_answers : AnswersWhen True gdb (readGeneralRegisters gdb) := by
  refine answersWhen_true (answers_of_replies (readGeneralRegisters_replies gdb ho) ?_)
  intro c hc hx
  rw [generalRegisters_eq]
  exact notMem_registerFields _ _ _ _ hc hx

/-! ### The handlers that parse the request -/

section Parsing

variable {data : List Byte} (hd : 0 ∈ data)

include hd

omit hd ho in
/-- The texts for queries can be sent. -/
theorem queryAnswer_fits (s : List Byte) :
    isPlain (queryAnswer s) = true ∧ (queryAnswer s).length ≤ 1019 := by
  unfold queryAnswer
  split
  · exact ⟨rfl, by decide⟩
  · split
    · exact ⟨rfl, by decide⟩
    · split
      · exact ⟨rfl, by decide⟩
      · exact ⟨rfl, by decide⟩

theorem query_answers : AnswersWhen True gdb (query gdb data) := by
  refine answersWhen_true ?_
  rw [query, stringAt_eq hd]
  obtain ⟨hplain, hl⟩ := queryAnswer_fits (textOf data)
  exact gdbSendData_answers gdb ho gdb.arm gdb.targetException hplain hl

theorem readRegisterPacket_answers :
    AnswersWhen ((atoi (textOf data)).toNat < 16) gdb (readRegisterPacket gdb data) := by
  rw [readRegisterPacket_eq gdb (stringAt_eq hd)]
  constructor
  · intro h
    rw [dif_pos h]
    refine answers_of_replies (gdbSendData_replies gdb ho (notMem_writeUint32 _ _ _ rfl) ?_) ?_
    · rw [length_writeUint32]
      decide
    · intro c hc _
      exact notMem_writeUint32 _ _ _ hc
  · intro h
    rw [dif_neg h]
    exact ⟨.assertion, rfl⟩

theorem writeRegisterPacket_answers :
    AnswersWhen ((∃ content, index data (char '=') = some content ∧ 0 ∈ content.drop 7) ∧
        (registerNumber l data).toNat < 16) gdb (writeRegisterPacket l gdb data) := by
  rw [writeRegisterPacket, stringAt_eq hd]
  simp only [Run.ok_bind]
  rw [← registerNumber]
  constructor
  · rintro ⟨⟨content, hi, h0⟩, hreg⟩
    rw [← List.drop_drop (i := 6) (j := 1)] at h0
    obtain ⟨v, hv⟩ := readUint32_isOk gdb.arm.host gdb.target h0 (l.junk 1)
    simp only [hi, hv, Run.ok_bind, dif_pos hreg]
    exact gdbSendData_answers gdb ho _ gdb.targetException rfl (by decide)
  · intro hn
    cases hi : index data (char '=') with
    | none => exact ⟨.nullPointer, rfl⟩
    | some content =>
      by_cases h0 : 0 ∈ (content.drop 1).drop 6
      · obtain ⟨v, hv⟩ := readUint32_isOk gdb.arm.host gdb.target h0 (l.junk 1)
        rw [List.drop_drop] at h0
        have hreg : ¬ (registerNumber l data).toNat < 16 := fun hreg => hn ⟨⟨content, hi, h0⟩, hreg⟩
        simp only [hv, dif_neg hreg]
        exact ⟨.assertion, rfl⟩
      · simp only [readUint32_overread gdb.arm.host gdb.target h0 (l.junk 1)]
        exact ⟨.overread, rfl⟩

theorem readMemory_answers :
    AnswersWhen (readableLength gdb.arm.mem (memoryRequest l (textOf data)).2.toNat
        (memoryRequest l (textOf data)).1 ≤ 509) gdb (readMemory l gdb data) := by
  rw [← length_readable]
  constructor
  · intro hl
    refine answers_of_replies (readMemory_replies l gdb (stringAt_eq hd) rfl ho hl) ?_
    intro c hc _
    exact notMem_flatMap_hexByte _ hc
  · intro hl
    exact ⟨.overflow, readMemory_overflow l gdb (stringAt_eq hd) rfl (by omega)⟩

omit hd in
theorem setThread_answers (ht : 0 ∈ data.tail) : AnswersWhen True gdb (setThread gdb data) := by
  refine answersWhen_true ?_
  cases data with
  | nil => cases ht
  | cons type data =>
    rw [List.tail_cons] at ht
    rw [setThread, stringAt_eq ht]
    simp only [Run.ok_bind]
    split
    · exact gdbSendData_answers gdb ho gdb.arm gdb.targetException rfl (by decide)
    · exact gdbSendData_answers gdb ho gdb.arm gdb.targetException rfl (by decide)

omit hd in
theorem writeGeneralRegisters_answers :
    AnswersWhen (0 ∈ data.drop 334) gdb (writeGeneralRegisters l gdb data) := by
  rw [writeGeneralRegisters]
  constructor
  · intro h0
    have hfield : ∀ k ≤ 41, ∃ v, readField l gdb data k = .ok v := by
      intro k hk
      refine readUint32_isOk _ _ ?_ _
      rw [List.drop_drop]
      exact List.mem_of_mem_drop (i := 334 - (8 * k + 6)) (by
        rw [List.drop_drop, show 8 * k + 6 + (334 - (8 * k + 6)) = 334 by omega]
        exact h0)
    choose values hvalues using fun i : Fin 16 => hfield i (by omega)
    obtain ⟨vs, hvs⟩ := mapM_of_ok (List.range' 16 25) fun k hk =>
      hfield k (by rw [List.mem_range'_1] at hk; omega)
    obtain ⟨v, hv⟩ := hfield 41 (Nat.le_refl _)
    rw [foldlM_of_ok hvalues]
    simp only [hvs, hv, Run.ok_bind]
    exact gdbSendData_answers gdb ho _ gdb.targetException rfl (by decide)
  · intro h0
    have hlast : readField l gdb data 41 = .error .overread := by
      refine readUint32_overread _ _ ?_ _
      rwa [List.drop_drop]
    simp only [hlast, Bind.bind]
    cases (List.finRange 16).foldlM (fun arm (i : Fin 16) => do
      let value ← readField l gdb data i
      return armWriteRegister arm i value) gdb.arm with
    | error e => exact ⟨e, rfl⟩
    | ok arm =>
      cases (List.range' 16 25).mapM (readField l gdb data) with
      | error e => exact ⟨e, rfl⟩
      | ok vs => exact ⟨.overread, rfl⟩

theorem writeMemoryBinary_answers :
    AnswersWhen (TakesItems gdb.arm.mem (memoryRequest l (textOf data)) (index data (char ':')))
      gdb (writeMemoryBinary l gdb data) := by
  have hsend : ∀ (writeOk : Bool) (mem : Memory), ∃ g t,
      (if writeOk = true then
        gdbSendData { gdb with arm := { gdb.arm with mem := mem } } (ascii "OK")
      else gdbSendData { gdb with arm := { gdb.arm with mem := mem } } (ascii "E02")) = .ok g ∧
      Answered gdb g t := by
    intro writeOk mem
    split
    · exact gdbSendData_answers gdb ho { gdb.arm with mem := mem } gdb.targetException
        (s := ascii "OK") rfl (by decide)
    · exact gdbSendData_answers gdb ho { gdb.arm with mem := mem } gdb.targetException
        (s := ascii "E02") rfl (by decide)
  rw [← writeMemory_isOk_iff, writeMemoryBinary, stringAt_eq hd]
  simp only [Run.ok_bind]
  by_cases ha : (memoryRequest l (textOf data)).1.toNat < gdb.arm.mem.size.toNat
  · simp only [if_pos ha]
    generalize writeMemoryLoop _ _ _ _ = loop
    cases loop with
    | error e =>
      refine ⟨?_, fun _ => ⟨e, rfl⟩⟩
      rintro ⟨x, hx⟩
      cases hx
    | ok x => exact ⟨fun _ => hsend x.1 x.2, fun hn => absurd ⟨x, rfl⟩ hn⟩
  · simp only [if_neg ha]
    exact ⟨fun _ => hsend false gdb.arm.mem, fun hn => absurd ⟨_, rfl⟩ hn⟩

end Parsing

end Handlers

/-! ### The handler table -/

/-- What a handler needs for its answer, in the core and the request; `cont` and
`step` have to come to an end, and `kill` has no answer. -/
def Handler.Answerable (l : Locals) (gdb : Gdb) (data : List Byte) : Handler → Prop
  | .cont => ∃ g, contLoop l.fuel gdb (l.junk 0) = .ok g
  | .killRequest => False
  | .query => True
  | .readGeneralRegisters => True
  | .readMemory =>
    readableLength gdb.arm.mem (memoryRequest l (textOf data)).2.toNat
      (memoryRequest l (textOf data)).1 ≤ 509
  | .readRegister => (atoi (textOf data)).toNat < 16
  | .reason => True
  | .setThread => True
  | .step => ∃ r, Returns (armStep gdb.arm) r
  | .writeGeneralRegisters => 0 ∈ data.drop 334
  | .writeMemoryBinary =>
    TakesItems gdb.arm.mem (memoryRequest l (textOf data)) (index data (char ':'))
  | .writeRegister =>
    (∃ content, index data (char '=') = some content ∧ 0 ∈ content.drop 7) ∧
      (registerNumber l data).toNat < 16

/-- **Every handler but the one for `k` answers once or does not return.** -/
theorem Handler.call_answers (l : Locals) (gdb : Gdb) (ho : gdb.shut = false) {data : List Byte}
    (hd : 0 ∈ data.tail) {h : Handler} (hk : h ≠ .killRequest) :
    AnswersWhen (h.Answerable l gdb data) gdb (h.call l gdb data) := by
  have hd' : 0 ∈ data := List.mem_of_mem_tail hd
  cases h with
  | cont => exact cont_answers l gdb ho
  | killRequest => exact absurd rfl hk
  | query => exact query_answers gdb ho hd'
  | readGeneralRegisters => exact readGeneralRegisters_answers gdb ho
  | readMemory => exact readMemory_answers l gdb ho hd'
  | readRegister => exact readRegisterPacket_answers gdb ho hd'
  | reason =>
    exact answersWhen_true (gdbSendStopReason_answers gdb ho gdb.arm gdb.targetException)
  | setThread => exact setThread_answers gdb ho hd
  | step => exact step_answers gdb ho
  | writeGeneralRegisters => exact writeGeneralRegisters_answers l gdb ho
  | writeMemoryBinary => exact writeMemoryBinary_answers l gdb ho hd'
  | writeRegister => exact writeRegisterPacket_answers l gdb ho hd'

theorem zero_mem_argument_tail (p : Packet) (behind : List Byte) : 0 ∈ (p.argument behind).tail := by
  rw [Packet.argument]
  cases p.payload.tail with
  | nil => simp
  | cons b s => simp

/-- A request without a handler gets an empty answer. -/
theorem gdbDispatch_answers (l : Locals) (gdb : Gdb) (ho : gdb.shut = false) (p : Packet)
    (behind : List Byte) (hk : handler p.index ≠ some .killRequest) :
    AnswersWhen (∀ h, handler p.index = some h → h.Answerable l gdb (p.argument behind)) gdb
      (gdbDispatch l gdb p.index (p.argument behind)) := by
  rw [gdbDispatch]
  cases hh : handler p.index with
  | none =>
    refine ⟨fun _ => ?_, fun hn => absurd (fun h e => by cases e) hn⟩
    exact gdbSendData_answers gdb ho gdb.arm gdb.targetException (s := []) rfl (by decide)
  | some h =>
    have hc := Handler.call_answers l gdb ho (zero_mem_argument_tail p behind) (h := h)
      (fun e => hk (by rw [hh, e]))
    constructor
    · intro ha
      exact hc.1 (ha h rfl)
    · intro hn
      refine hc.2 fun ha => hn ?_
      rintro h' e
      cases e
      exact ha

/-! ### Malformed requests -/

/-- **The packet does not bring the simulator down**: it is acknowledged and answered,
and what `index` finds is there where it is used. -/
structure Survives (gdb : Gdb) (p : Packet) (behind : List Byte) (l : Locals) : Prop where
  replies : ∃ g s, onToken gdb (.packet p behind l) = .ok g ∧
    g.wire = gdb.wire ++ ascii "+" ++ frame s
  equals : p.index = char 'P' → index (p.argument behind) (char '=') ≠ none
  colon : p.index = char 'X' → index (p.argument behind) (char ':') ≠ none

/-- What a packet that starts no execution needs for its answer. -/
structure Answerable (gdb : Gdb) (p : Packet) (behind : List Byte) (l : Locals) : Prop where
  shut : gdb.shut = false
  request : ∀ h, handler p.index = some h → h.Answerable l gdb (p.argument behind)
  colon : p.index = char 'X' → index (p.argument behind) (char ':') ≠ none

theorem handler_eq_cont_iff (b : Byte) : handler b = some .cont ↔ b = char 'c' := by
  revert b
  decide +kernel

theorem handler_eq_step_iff (b : Byte) : handler b = some .step ↔ b = char 's' := by
  revert b
  decide +kernel

theorem handler_eq_killRequest_iff (b : Byte) : handler b = some .killRequest ↔ b = char 'k' := by
  revert b
  decide +kernel

/-- Only `cont` looks at more of the state than the core. -/
theorem Handler.answerable_congr (l : Locals) (gdb g : Gdb) (ha : g.arm = gdb.arm)
    (data : List Byte) {h : Handler} (hc : h ≠ .cont) :
    h.Answerable l g data ↔ h.Answerable l gdb data := by
  cases h with
  | cont => exact absurd rfl hc
  | _ => simp only [Handler.Answerable, ha]

/-- A packet gets no acknowledgement after the connection is shut down. -/
theorem onToken_shut (gdb : Gdb) (hs : gdb.shut = true) (p : Packet) (behind : List Byte)
    (l : Locals) : onToken gdb (.packet p behind l) = .error .brokenPipe := by
  rw [onToken, gdbPacketAnalysis_text]
  split
  · rw [gdbSendAck, rioWriten_shut gdb hs (by decide)]
    rfl
  · exact rioWriten_shut gdb hs (by decide)

/-- **When a packet is answered.** -/
theorem survives_iff (gdb : Gdb) {p : Packet} (behind : List Byte) (l : Locals) (hv : p.Valid)
    (hi : p.index ∉ [char 'c', char 's', char 'k']) :
    Survives gdb p behind l ↔ Answerable gdb p behind l := by
  have hk : handler p.index ≠ some .killRequest := by
    intro h
    exact hi (by rw [(handler_eq_killRequest_iff _).mp h]; decide)
  have hreq : (∀ h, handler p.index = some h →
      h.Answerable l { gdb with wire := gdb.wire ++ ascii "+" } (p.argument behind)) ↔
      ∀ h, handler p.index = some h → h.Answerable l gdb (p.argument behind) := by
    refine forall₂_congr fun h hh => Handler.answerable_congr l gdb
      { gdb with wire := gdb.wire ++ ascii "+" } rfl _ ?_
    rintro rfl
    exact hi (by rw [(handler_eq_cont_iff _).mp hh]; decide)
  constructor
  · rintro ⟨⟨g, s, hg, -⟩, -, hcolon⟩
    have ho : gdb.shut = false := by
      cases ho : gdb.shut with
      | false => rfl
      | true =>
        rw [onToken_shut gdb ho] at hg
        cases hg
    rw [onToken_valid gdb ho hv] at hg
    refine ⟨ho, hreq.mp ?_, hcolon⟩
    exact (gdbDispatch_answers l { gdb with wire := gdb.wire ++ ascii "+" } ho p behind hk).isOk_iff.mp
      ⟨g, hg⟩
  · rintro ⟨ho, hall, hcolon⟩
    refine ⟨?_, ?_, hcolon⟩
    · obtain ⟨g, s, hg, ha⟩ := (gdbDispatch_answers l { gdb with wire := gdb.wire ++ ascii "+" } ho p
        behind hk).1 (hreq.mpr hall)
      exact ⟨g, s, by rw [onToken_valid gdb ho hv, hg], ha.wire⟩
    · intro hp
      obtain ⟨⟨content, hcontent, -⟩, -⟩ := hall .writeRegister (by rw [hp]; rfl)
      rw [hcontent]
      exact Option.some_ne_none _

theorem survives_p1 :
    Survives (gdbInitData (coreOfWord 0) .little fun _ => 0) (framePacket (ascii "p1") (by decide)) []
      ⟨0, fun _ => 0, 0⟩ := by
  refine (survives_iff _ _ _ (framePacket_valid _ _) (by decide)).mpr
    ⟨rfl, ?_, fun h => absurd h (by decide)⟩
  rintro h hh
  cases hh
  show (atoi (ascii "1")).toNat < 16
  decide

/-- `p16` fails the assertion of `read_register`. -/
theorem p16_fails_assertion :
    onToken (gdbInitData (coreOfWord 0) .little fun _ => 0)
        (.packet (framePacket (ascii "p16") (by decide)) [] ⟨0, fun _ => 0, 0⟩) = .error .assertion ∧
    ¬ ∀ (gdb : Gdb) (p : Packet) (behind : List Byte) (l : Locals), p.Valid →
      p.index ∉ [char 'c', char 's', char 'k'] → Survives gdb p behind l := by
  have hfail : onToken (gdbInitData (coreOfWord 0) .little fun _ => 0)
      (.packet (framePacket (ascii "p16") (by decide)) [] ⟨0, fun _ => 0, 0⟩) = .error .assertion := by
    rw [onToken_valid _ rfl (framePacket_valid _ _)]
    rfl
  refine ⟨hfail, ?_⟩
  intro hall
  obtain ⟨⟨g, s, hg, -⟩, -, -⟩ := hall (gdbInitData (coreOfWord 0) .little fun _ => 0)
    (framePacket (ascii "p16") (by decide)) [] ⟨0, fun _ => 0, 0⟩ (framePacket_valid _ _) (by decide)
  rw [hfail] at hg
  cases hg

end Armator
