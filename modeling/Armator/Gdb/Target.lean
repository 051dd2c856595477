import Armator.Gdb.Continue
import Armator.Machine.Closed

/-!
# The target behind the protocol

What the protocol is for: a debugger reads and writes the registers and the memory of a
target, lets it execute, and is told why it stopped.  A `Request` is what it asks for, and
`Request.Serves` says what the target does and answers, without packets, buffers and
checksums.

`onToken_serves` connects the two: a packet with the payload of a request does to the core
what the request does to the target, and is answered with an acknowledgement and the frame
of the target's answer.  By induction a session of such packets is a conversation with the
target (`session_converses`).
-/

namespace Armator

open Text
open Run (ok_bind error_bind)

structure Target where
  core : ArmCore
  /-- The result of the last step. -/
  exception : Int

inductive Request
  | reason
  | query (s : List Byte)
  | setThread (s : List Byte)
  /-- A payload without a handler. -/
  | unsupported (s : List Byte)
  | readRegisters
  | writeRegisters (values : Fin 16 → Word) (cpsr : Word)
  | readRegister (r : Fin 16)
  | writeRegister (r : Fin 16) (value : Word)
  | readMemory (address : Word) (size : ℕ)
  | writeMemory (address : Word) (bytes : List Byte)
  | step
  | cont

/-- The target executes `n` instructions, none of which is a breakpoint. -/
inductive Target.Advances : ℕ → Target → Target → Prop
  | refl (t : Target) : Advances 0 t t
  | step {n : ℕ} {t u : Target} {r : Int} {q : ArmCore} (hb : ¬ ReadsBreakpoint t.core)
      (hs : armStep t.core = .ok (r, q)) (h : Advances n ⟨q, r⟩ u) : Advances (n + 1) t u

/-- The target has no threads: the first of any, and all of them, can be selected. -/
def threadAnswer : List Byte → List Byte
  | [] => ascii "E01"
  | type :: number =>
    if (type = char 'c' ∨ type = char 'g') ∧
      (atoi (textOf number) = 0 ∨ atoi (textOf number) = -1) then ascii "OK"
    else ascii "E01"

def storeAnswer (mem : Memory) (address : Word) (bytes : List Byte) : List Byte :=
  if address.toNat < mem.size.toNat ∧ address.toNat + bytes.length ≤ mem.size.toNat then ascii "OK"
  else ascii "E02"

/-- **What the target does when it is asked**, and what it answers. -/
inductive Request.Serves (target : Endian) : Target → Request → List Byte → Target → Prop
  | reason (t : Target) : Serves target t .reason (stopReason t.exception) t
  | query (t : Target) (s : List Byte) :
      Serves target t (.query s) (queryAnswer (textOf s)) t
  | setThread (t : Target) (s : List Byte) : Serves target t (.setThread s) (threadAnswer s) t
  | unsupported (t : Target) (s : List Byte) : Serves target t (.unsupported s) [] t
  | readRegisters (t : Target) : Serves target t .readRegisters
      (registerFields t.core.host target (gdbRegister t.core) (armReadCpsr t.core)).flatten t
  | writeRegisters (t : Target) (values : Fin 16 → Word) (cpsr : Word) :
      Serves target t (.writeRegisters values cpsr) (ascii "OK")
        ⟨gdbWriteGeneralRegisters t.core values cpsr, t.exception⟩
  /-- The number of the register was sent in hexadecimal and is read as a decimal one. -/
  | readRegister (t : Target) (r : Fin 16) : Serves target t (.readRegister r)
      (writeUint32 t.core.host target (gdbRegister t.core (decimalRegister r))) t
  | writeRegister (t : Target) (r : Fin 16) (value : Word) :
      Serves target t (.writeRegister r value) (ascii "OK")
        ⟨gdbWriteRegister t.core r value, t.exception⟩
  /-- The bytes up to the end of the memory, if the answer fits its buffer. -/
  | readMemory (t : Target) (address : Word) (size : ℕ) (hn : size < 2 ^ 32)
      (hl : (readable t.core.mem size address).length ≤ 509) :
      Serves target t (.readMemory address size)
        ((readable t.core.mem size address).flatMap hexByte) t
  | writeMemory (t : Target) (address : Word) (bytes : List Byte) (hn : bytes.length < 2 ^ 32) :
      Serves target t (.writeMemory address bytes) (storeAnswer t.core.mem address bytes)
        ⟨storeFitting t.core address bytes, t.exception⟩
  | step {t : Target} {r : Int} {q : ArmCore} (hs : armStep t.core = .ok (r, q)) :
      Serves target t .step (stopReason r) ⟨q, r⟩
  /-- Up to the first breakpoint. -/
  | cont {t u : Target} {n : ℕ} (hread : ∃ w, armReadWord t.core (fetchAddress t.core) = some w)
      (h : t.Advances n u) (hb : ReadsBreakpoint u.core) :
      Serves target t .cont (stopReason u.exception) u

/-! ### Payloads -/

def Request.Payload (host target : Endian) : Request → List Byte → Prop
  | reason, s => s = ascii "?"
  | query text, s => s = char 'q' :: text
  | setThread text, s => s = char 'H' :: text
  | unsupported text, s => s = text ∧ handler (text.headD 0) = none
  | readRegisters, s => s = ascii "g"
  | writeRegisters values cpsr, s => s = char 'G' :: (registerFields host target values cpsr).flatten
  | readRegister r, s => s = readRegisterPayload r
  | writeRegister r value, s => s = writeRegisterPayload host target r value
  | readMemory address size, s => s = readMemoryPayload address size
  | writeMemory address bytes, s =>
    ∃ es, Escaped bytes es ∧ s = writeMemoryPayload address bytes.length es
  | step, s => s = ascii "s"
  | cont, s => s = ascii "c"

/-- A packet that asks for it, with at least `n` iterations for the loop of `cont`. -/
def Request.Asks (host target : Endian) (n : ℕ) (r : Request) (tok : Token) : Prop :=
  ∃ p behind l, tok = .packet p behind l ∧ p.Valid ∧ r.Payload host target p.payload ∧ n ≤ l.fuel

structure Shows (gdb : Gdb) (target : Endian) (t : Target) : Prop where
  arm : gdb.arm = t.core
  exception : gdb.targetException = t.exception
  target : gdb.target = target
  shut : gdb.shut = false

def Gdb.answered (gdb : Gdb) (t : Target) : Gdb :=
  { gdb with arm := t.core, targetException := t.exception, wire := gdb.wire ++ ascii "+" }

theorem onToken_payload {gdb : Gdb} (ho : gdb.shut = false) {p : Packet} (hv : p.Valid) {c : Byte}
    {s : List Byte} (hp : p.payload = c :: s) (behind : List Byte) (l : Locals) :
    onToken gdb (.packet p behind l) =
      gdbDispatch l { gdb with wire := gdb.wire ++ ascii "+" } c
        (s ++ 0 :: p.high :: p.low :: 0 :: behind) := by
  rw [onToken_valid gdb ho hv, Packet.index, Packet.argument, hp]
  rfl

theorem threadAnswer_fits (s : List Byte) : 0 ∉ threadAnswer s ∧ (threadAnswer s).length ≤ 1019 := by
  cases s with
  | nil => decide
  | cons type number =>
    rw [threadAnswer]
    split <;> decide

theorem setThread_eq (gdb : Gdb) (s : List Byte) {rest : List Byte} (h : 0 ∈ rest) :
    setThread gdb (s ++ 0 :: rest) = gdbSendData gdb (threadAnswer s) := by
  cases s with
  | nil =>
    rw [List.nil_append, setThread, stringAt_eq h]
    rfl
  | cons type number =>
    have hvalue : ((atoi (textOf number)).toInt < 1 ∧ -2 < (atoi (textOf number)).toInt) ↔
        (atoi (textOf number) = 0 ∨ atoi (textOf number) = -1) := by
      rw [← BitVec.toInt_inj, ← BitVec.toInt_inj, show (0 : Word).toInt = 0 by decide,
        show (-1 : Word).toInt = -1 by decide]
      omega
    rw [List.cons_append, setThread, stringAt_eq (by simp), textOf_append_zero, ok_bind]
    simp only [hvalue, threadAnswer]
    split <;> rfl

theorem Target.Advances.concat {n : ℕ} {t u : Target} (h : t.Advances n u) {r : Int} {q : ArmCore}
    (hb : ¬ ReadsBreakpoint u.core) (hs : armStep u.core = .ok (r, q)) :
    t.Advances (n + 1) ⟨q, r⟩ := by
  induction h with
  | refl t => exact .step hb hs (.refl _)
  | step hb' hs' _ ih => exact .step hb' hs' (ih hb hs)

theorem contLoop_advances {n : ℕ} {t u : Target} (h : t.Advances n u) (fuel : ℕ) (gdb : Gdb)
    (instruction : Word)
    (hi : (∃ w, armReadWord t.core (fetchAddress t.core) = some w) ∨ ¬ IsBreakpoint instruction)
    (ha : gdb.arm = t.core) (he : gdb.targetException = t.exception) :
    ∃ i, contLoop (fuel + n) gdb instruction =
      contLoop fuel { gdb with arm := u.core, targetException := u.exception } i := by
  induction h generalizing gdb instruction with
  | refl t => exact ⟨instruction, by rw [← ha, ← he]; rfl⟩
  | @step n t u r q hnb hs h ih =>
    have hla : ¬ IsBreakpoint (lookAhead gdb.arm instruction) := by
      rw [lookAhead, ha]
      cases hw : armReadWord t.core (fetchAddress t.core) with
      | some w => exact fun hbw => hnb ⟨w, hw, hbw⟩
      | none =>
        rcases hi with ⟨w, hw'⟩ | hi
        · rw [hw] at hw'
          cases hw'
        · exact hi
    have hstep : gdbStep gdb = .ok { gdb with arm := q, targetException := r } := by
      rw [gdbStep, ha, hs]
      rfl
    obtain ⟨i, hloop⟩ := ih { gdb with arm := q, targetException := r } _ (Or.inr hla) rfl rfl
    refine ⟨i, ?_⟩
    rw [← Nat.add_assoc, contLoop_succ, if_neg hla, hstep, ok_bind]
    exact hloop

theorem cont_advances {n : ℕ} {t u : Target}
    (hread : ∃ w, armReadWord t.core (fetchAddress t.core) = some w) (h : t.Advances n u)
    (hb : ReadsBreakpoint u.core) (gdb : Gdb) (ha : gdb.arm = t.core)
    (he : gdb.targetException = t.exception) {l : Locals} (hl : n < l.fuel) :
    cont l gdb = gdbSendStopReason { gdb with arm := u.core, targetException := u.exception } := by
  obtain ⟨fuel, hfuel⟩ : ∃ fuel, l.fuel = fuel + 1 + n := ⟨l.fuel - 1 - n, by omega⟩
  obtain ⟨i, hloop⟩ := contLoop_advances h (fuel + 1) gdb (l.junk 0) (Or.inl hread) ha he
  obtain ⟨w, hw, hbw⟩ := hb
  rw [cont, hfuel, hloop, contLoop_succ, lookAhead, hw, Option.getD_some, if_pos hbw, ok_bind]

theorem Shows.answered {gdb : Gdb} {target : Endian} {t : Target} (h : Shows gdb target t) :
    gdb.answered t = { gdb with wire := gdb.wire ++ ascii "+" } := by
  rw [Gdb.answered, ← h.arm, ← h.exception]

def Request.Passive : Request → Prop
  | step => False
  | cont => False
  | _ => True

theorem onToken_serves_passive {target : Endian} {t u : Target} {r : Request} {s : List Byte}
    (h : r.Serves target t s u) (hp : r.Passive) (hsize : t.core.mem.size.toNat < 2 ^ 32) {gdb : Gdb}
    (hg : Shows gdb target t) {tok : Token} (ha : r.Asks t.core.host target 0 tok) :
    ∃ g, onToken gdb tok = .ok g ∧ Replies (gdb.answered u) g s := by
  obtain ⟨p, behind, l, rfl, hv, hpay, -⟩ := ha
  cases h with
  | reason =>
    rw [onToken_payload hg.shut hv hpay, hg.answered, ← hg.exception]
    exact gdbSendStopReason_replies { gdb with wire := gdb.wire ++ ascii "+" } hg.shut
  | query s =>
    obtain ⟨hplain, hl⟩ := queryAnswer_fits (textOf s)
    obtain ⟨g, hsend, hr⟩ := gdbSendData_replies { gdb with wire := gdb.wire ++ ascii "+" } hg.shut
      (isPlain_iff.mp hplain).1 hl
    rw [onToken_payload hg.shut hv hpay, hg.answered]
    refine ⟨g, ?_, hr⟩
    show query _ _ = _
    rw [query, stringAt_eq (by simp), textOf_append_zero]
    exact hsend
  | setThread s =>
    rw [onToken_payload hg.shut hv hpay, hg.answered]
    obtain ⟨h0, hl⟩ := threadAnswer_fits s
    obtain ⟨g, hsend, hr⟩ := gdbSendData_replies { gdb with wire := gdb.wire ++ ascii "+" } hg.shut
      h0 hl
    exact ⟨g, (setThread_eq _ s (by simp)).trans hsend, hr⟩
  | unsupported s =>
    obtain ⟨rfl, hh⟩ := hpay
    obtain ⟨g, hsend, hr⟩ := gdbSendData_replies { gdb with wire := gdb.wire ++ ascii "+" } hg.shut
      (s := []) (by decide) (by decide)
    rw [onToken_valid gdb hg.shut hv, hg.answered, gdbDispatch, Packet.index, hh]
    exact ⟨g, hsend, hr⟩
  | readRegisters =>
    rw [onToken_payload hg.shut hv hpay, hg.answered, ← hg.arm, ← hg.target]
    have hr := readGeneralRegisters_replies { gdb with wire := gdb.wire ++ ascii "+" } hg.shut
    rw [generalRegisters_eq] at hr
    exact hr
  | writeRegisters values cpsr =>
    rw [← hg.arm, ← hg.target] at hpay
    rw [onToken_payload hg.shut hv hpay, Gdb.answered, ← hg.arm, ← hg.exception]
    exact writeGeneralRegisters_replies l { gdb with wire := gdb.wire ++ ascii "+" } hg.shut values
      cpsr _
  | readRegister r =>
    rw [onToken_payload hg.shut hv hpay, hg.answered, ← hg.arm, ← hg.target]
    exact readRegisterPacket_replies { gdb with wire := gdb.wire ++ ascii "+" } hg.shut r _
  | writeRegister r value =>
    rw [← hg.arm, ← hg.target] at hpay
    have hw := writeRegisterPacket_eq l { gdb with wire := gdb.wire ++ ascii "+" } r value
      (p.high :: p.low :: 0 :: behind)
    rw [onToken_payload hg.shut hv hpay, Gdb.answered, ← hg.arm, ← hg.exception]
    obtain ⟨g, hsend, hr⟩ := gdbSendData_replies { gdb with
      wire := gdb.wire ++ ascii "+", arm := gdbWriteRegister gdb.arm r value } (s := ascii "OK")
      hg.shut (by decide) (by decide)
    exact ⟨g, hw.trans hsend, hr⟩
  | readMemory address size hn hl =>
    rw [onToken_payload hg.shut hv hpay, hg.answered]
    have hs := stringAt_append (notMem_memoryRequest address size (c := 0) rfl (by decide))
      (p.high :: p.low :: 0 :: behind)
    have hreq : memoryRequest l (hexNat address.toNat ++ char ',' :: hexNat size) =
        (address, BitVec.ofNat 32 size) := by
      have h := memoryRequest_eq l address hn stops_nil
      rwa [List.append_nil] at h
    have hsz : (BitVec.ofNat 32 size).toNat = size := by
      rw [BitVec.toNat_ofNat]
      omega
    refine readMemory_replies l { gdb with wire := gdb.wire ++ ascii "+" } hs ?_ hg.shut hl
    rw [hreq, hsz, ← hg.arm]
  | writeMemory address bytes hn =>
    obtain ⟨es, hes, hpay⟩ := hpay
    rw [← hg.arm] at hsize
    have hw := writeMemoryBinary_eq l { gdb with wire := gdb.wire ++ ascii "+" } address hes hn hsize
      (p.high :: p.low :: 0 :: behind)
    rw [onToken_payload hg.shut hv hpay, Gdb.answered, ← hg.arm, ← hg.exception]
    obtain ⟨g, hsend, hr⟩ := gdbSendData_replies { gdb with
      wire := gdb.wire ++ ascii "+", arm := storeFitting gdb.arm address bytes }
      (s := storeAnswer gdb.arm.mem address bytes) hg.shut
      (by rw [storeAnswer]; split <;> decide) (by rw [storeAnswer]; split <;> decide)
    refine ⟨g, ?_, hr⟩
    rw [← hsend, storeAnswer, ← hw]
    simp only [List.append_assoc, List.cons_append]
    rfl
  | step => exact absurd hp id
  | cont => exact absurd hp id

theorem onToken_serves_step {target : Endian} {t : Target} {r : Int} {q : ArmCore}
    (hs : armStep t.core = .ok (r, q)) {gdb : Gdb} (hg : Shows gdb target t) {tok : Token}
    (ha : Request.step.Asks t.core.host target 0 tok) :
    ∃ g, onToken gdb tok = .ok g ∧ Replies (gdb.answered ⟨q, r⟩) g (stopReason r) := by
  obtain ⟨p, behind, l, rfl, hv, hp, -⟩ := ha
  rw [← hg.arm] at hs
  obtain ⟨g, hsend, hr⟩ := gdbSendStopReason_replies (gdb.answered ⟨q, r⟩) hg.shut
  refine ⟨g, ?_, hr⟩
  rw [onToken_payload hg.shut hv hp, ← hsend]
  show step _ = _
  rw [step, gdbStep, hs]
  rfl

theorem onToken_serves_cont {target : Endian} {t u : Target} {n : ℕ}
    (hread : ∃ w, armReadWord t.core (fetchAddress t.core) = some w) (h : t.Advances n u)
    (hb : ReadsBreakpoint u.core) {gdb : Gdb} (hg : Shows gdb target t) {tok : Token}
    (ha : Request.cont.Asks t.core.host target (n + 1) tok) :
    ∃ g, onToken gdb tok = .ok g ∧ Replies (gdb.answered u) g (stopReason u.exception) := by
  obtain ⟨p, behind, l, rfl, hv, hp, hfuel⟩ := ha
  obtain ⟨g, hsend, hr⟩ := gdbSendStopReason_replies (gdb.answered u) hg.shut
  refine ⟨g, ?_, hr⟩
  rw [onToken_payload hg.shut hv hp, ← hsend]
  exact cont_advances hread h hb { gdb with wire := gdb.wire ++ ascii "+" } hg.arm hg.exception hfuel

theorem Request.Asks.mono {host target : Endian} {m n : ℕ} (h : m ≤ n) {r : Request} {tok : Token}
    (ha : r.Asks host target n tok) : r.Asks host target m tok := by
  obtain ⟨p, behind, l, rfl, hv, hp, hn⟩ := ha
  exact ⟨p, behind, l, rfl, hv, hp, h.trans hn⟩

/-- **A packet that asks for something gets what the target answers**, and does to the core
what the target does. -/
theorem onToken_serves {target : Endian} {t u : Target} {r : Request} {s : List Byte}
    (h : r.Serves target t s u) (hsize : t.core.mem.size.toNat < 2 ^ 32) :
    ∃ n, ∀ gdb, Shows gdb target t → ∀ tok, r.Asks t.core.host target n tok →
      ∃ g, onToken gdb tok = .ok g ∧ Replies (gdb.answered u) g s := by
  by_cases hp : r.Passive
  · exact ⟨0, fun gdb hg tok => onToken_serves_passive h hp hsize hg⟩
  · cases h with
    | step hs => exact ⟨0, fun gdb hg tok => onToken_serves_step hs hg⟩
    | cont hread hn hb => exact ⟨_, fun gdb hg tok => onToken_serves_cont hread hn hb hg⟩
    | reason => exact absurd trivial hp
    | query => exact absurd trivial hp
    | setThread => exact absurd trivial hp
    | unsupported => exact absurd trivial hp
    | readRegisters => exact absurd trivial hp
    | writeRegisters => exact absurd trivial hp
    | readRegister => exact absurd trivial hp
    | writeRegister => exact absurd trivial hp
    | readMemory => exact absurd trivial hp
    | writeMemory => exact absurd trivial hp

/-! ### Conversations -/

/-- The requests of a conversation, each with its answer. -/
inductive Target.Converses (target : Endian) : Target → List (Request × List Byte) → Target → Prop
  | nil (t : Target) : Converses target t [] t
  | cons {t u v : Target} {r : Request} {s : List Byte} {rs : List (Request × List Byte)}
      (h : r.Serves target t s u) (hrs : Converses target u rs v) :
      Converses target t ((r, s) :: rs) v

/-- The host and the size of the memory, which nothing changes. -/
def SamePlatform (p q : ArmCore) : Prop := q.host = p.host ∧ q.mem.size = p.mem.size

theorem closed_samePlatform (p : ArmCore) : Closed (SamePlatform p) where
  armWriteRegister _ _ h := h
  armWriteUsrRegister _ _ h := h
  writeFlags _ _ h := h
  restoreCpsr _ h := h
  armWriteByte a v h :=
    ⟨h.1, ((closed_sameShape _).armWriteByte a v (⟨rfl, rfl⟩ : SameShape _ _)).1.trans h.2⟩
  armWriteHalf a v h :=
    ⟨h.1, ((closed_sameShape _).armWriteHalf a v (⟨rfl, rfl⟩ : SameShape _ _)).1.trans h.2⟩
  armWriteWord a v h :=
    ⟨h.1, ((closed_sameShape _).armWriteWord a v (⟨rfl, rfl⟩ : SameShape _ _)).1.trans h.2⟩
  shifterCarryOut _ h := h
  cycleCount _ h := h

theorem Target.Advances.samePlatform {n : ℕ} {t u : Target} (h : t.Advances n u) :
    SamePlatform t.core u.core := by
  induction h with
  | refl t => exact ⟨rfl, rfl⟩
  | step _ hs _ ih =>
    have h := (closed_samePlatform _).armStep ⟨rfl, rfl⟩ hs
    exact ⟨ih.1.trans h.1, ih.2.trans h.2⟩

theorem gdbWriteGeneralRegisters_mem (p : ArmCore) (values : Fin 16 → Word) (cpsr : Word) :
    (gdbWriteGeneralRegisters p values cpsr).mem = p.mem := by
  have hfold : ((List.finRange 16).foldl (fun p i => armWriteRegister p i (values i)) p).mem = p.mem :=
    List.foldlRecOn (motive := fun q : ArmCore => q.mem = p.mem) (List.finRange 16) _ rfl
      fun _ hq _ _ => hq
  rw [gdbWriteGeneralRegisters, ← hfold]
  generalize (List.finRange 16).foldl (fun p i => armWriteRegister p i (values i)) p = q
  rfl

theorem Request.Serves.samePlatform {target : Endian} {t u : Target} {r : Request} {s : List Byte}
    (h : r.Serves target t s u) : SamePlatform t.core u.core := by
  cases h with
  | reason => exact ⟨rfl, rfl⟩
  | query => exact ⟨rfl, rfl⟩
  | setThread => exact ⟨rfl, rfl⟩
  | unsupported => exact ⟨rfl, rfl⟩
  | readRegisters => exact ⟨rfl, rfl⟩
  | writeRegisters values cpsr =>
    have hmem := gdbWriteGeneralRegisters_mem t.core values cpsr
    exact ⟨gdbWriteGeneralRegisters_host t.core values cpsr, congrArg Memory.size hmem⟩
  | readRegister => exact ⟨rfl, rfl⟩
  | writeRegister => exact ⟨rfl, rfl⟩
  | readMemory => exact ⟨rfl, rfl⟩
  | writeMemory => exact ⟨rfl, rfl⟩
  | step hs => exact (closed_samePlatform _).armStep ⟨rfl, rfl⟩ hs
  | cont _ h _ => exact h.samePlatform

/-- What goes over the wire for the requests: for each an acknowledgement and the answer. -/
def answers (rs : List (Request × List Byte)) : List Byte :=
  rs.flatMap fun x => ascii "+" ++ frame x.2

/-- **A session is a conversation with the target.**  Packets that ask for what is asked in
the conversation lead to the core and the exception of the target, and what goes over the
wire are its answers. -/
theorem session_converses {target : Endian} {t u : Target} {rs : List (Request × List Byte)}
    (h : t.Converses target rs u) (hsize : t.core.mem.size.toNat < 2 ^ 32) :
    ∃ n, ∀ gdb, Shows gdb target t → ∀ toks,
      List.Forall₂ (fun x tok => x.1.Asks t.core.host target n tok) rs toks →
      ∃ g, session gdb toks = .ok g ∧ Shows g target u ∧ g.wire = gdb.wire ++ answers rs := by
  induction h with
  | nil t =>
    refine ⟨0, fun gdb hg toks htoks => ?_⟩
    cases htoks
    exact ⟨gdb, rfl, hg, (List.append_nil _).symm⟩
  | @cons t u v r s rs h hrs ih =>
    obtain ⟨hhost, hmem⟩ := h.samePlatform
    obtain ⟨n₁, hone⟩ := onToken_serves h hsize
    obtain ⟨n₂, hrest⟩ := ih (by rw [hmem]; exact hsize)
    refine ⟨max n₁ n₂, fun gdb hg toks htoks => ?_⟩
    cases htoks with
    | @cons _ tok _ toks htok htoks =>
      obtain ⟨g, hg', hr⟩ := hone gdb hg tok (htok.mono (Nat.le_max_left _ _))
      have hshows : Shows g target u :=
        ⟨hr.arm, hr.targetException, hr.target.trans hg.target, hr.shut.trans hg.shut⟩
      rw [hhost] at hrest
      obtain ⟨g', hsession, hshows', hwire⟩ := hrest g hshows toks
        (htoks.imp fun _ _ ha => ha.mono (Nat.le_max_right _ _))
      refine ⟨g', ?_, hshows', ?_⟩
      · rw [session, Run.run_cons, hg', ok_bind]
        exact hsession
      · rw [hwire, hr.wire]
        simp only [answers, List.flatMap_cons, Gdb.answered, List.append_assoc]

end Armator
