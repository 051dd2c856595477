import Armator.Gdb.History
import Armator.Gdb.Programs

/-!
# A machine under a debugger

`Debuggee` is the machine of `Machine/Assembly.lean` with the two things that a debugger
sees besides it: the control bits of the CPSR and the result of the last step.
`Debuggee.Serves` says what the debugger's requests do to it, again without packets and
without a core.  A program can be written into its memory, and breakpoints over the
program; `c` runs to the first of them, and the words that were there can be put back.

The simulator serves a debugger as the machine does: what the machine answers in a
conversation is what the simulator sends, and at the end of it its core shows the machine
(`session_debugs`).
-/

namespace Armator

open Text

structure Debuggee where
  machine : Visible
  /-- The interrupt masks, the state and the mode of the CPSR. -/
  control : BitVec 28
  /-- The result of the last step. -/
  exception : Int

def Debuggee.cpsr (d : Debuggee) : Word :=
  BitVec.ofBool d.machine.n ++ BitVec.ofBool d.machine.z ++ BitVec.ofBool d.machine.c ++
    BitVec.ofBool d.machine.v ++ d.control

/-- The machine after a debugger has written to its memory, as far as that reaches. -/
def Visible.uploaded (m : Visible) (address : Word) (bytes : List Byte) : Visible :=
  { m with mem := { m.mem with memory := fun i =>
      ((Request.writeMemory address bytes).storesAt m.mem.size.toNat i).getD (m.mem.memory i) } }

def Visible.registered (m : Visible) (values : Fin 16 → Word) (cpsr : Word) : Visible where
  r := values
  n := bit cpsr flagN
  z := bit cpsr flagZ
  c := bit cpsr flagC
  v := bit cpsr flagV
  mem := m.mem

/-- **What a machine does when it is debugged**, and what it answers. -/
inductive Debuggee.Serves (host target : Endian) :
    Debuggee → Request → List Byte → Debuggee → Prop
  | reason (d : Debuggee) : Serves host target d .reason (stopReason d.exception) d
  | query (d : Debuggee) (s : List Byte) :
      Serves host target d (.query s) (queryAnswer (textOf s)) d
  | setThread (d : Debuggee) (s : List Byte) :
      Serves host target d (.setThread s) (threadAnswer s) d
  | unsupported (d : Debuggee) (s : List Byte) : Serves host target d (.unsupported s) [] d
  | readRegisters (d : Debuggee) : Serves host target d .readRegisters
      (registerFields host target (fun i => shownRegister i (d.machine.r i)) d.cpsr).flatten d
  | writeRegisters (d : Debuggee) (values : Fin 16 → Word) (cpsr : Word) :
      Serves host target d (.writeRegisters values cpsr) (ascii "OK")
        ⟨d.machine.registered values cpsr, cpsr.setWidth 28, d.exception⟩
  | readRegister (d : Debuggee) (r : Fin 16) : Serves host target d (.readRegister r)
      (writeUint32 host target
        (shownRegister (decimalRegister r) (d.machine.r (decimalRegister r)))) d
  | writeRegister (d : Debuggee) (r : Fin 16) (value : Word) :
      Serves host target d (.writeRegister r value) (ascii "OK")
        { d with machine := d.machine.write r value }
  | readMemory (d : Debuggee) (address : Word) (size : ℕ) (hn : size < 2 ^ 32)
      (hl : (readable d.machine.mem size address).length ≤ 509) :
      Serves host target d (.readMemory address size)
        ((readable d.machine.mem size address).flatMap hexByte) d
  | writeMemory (d : Debuggee) (address : Word) (bytes : List Byte) (hn : bytes.length < 2 ^ 32) :
      Serves host target d (.writeMemory address bytes)
        (storeAnswer d.machine.mem address bytes)
        { d with machine := d.machine.uploaded address bytes }
  | step {d : Debuggee} {m : Visible} (hs : d.machine.step = .ok m) :
      Serves host target d .step (stopReason 0) { d with machine := m, exception := 0 }
  /-- To the first breakpoint: no word before it is one, for the machine has executed it. -/
  | cont {d : Debuggee} {k : ℕ} {m : Visible} {w : Word}
      (hm : Hoare.after Visible.step k d.machine = .ok m) (hf : m.Fetches w) (hb : IsBreakpoint w) :
      Serves host target d .cont (stopReason (if k = 0 then d.exception else 0))
        { d with machine := m, exception := if k = 0 then d.exception else 0 }

/-! ### What a core shows -/

structure Debuggee.Shown (d : Debuggee) (p : ArmCore) : Prop where
  machine : p.visible = d.machine
  control : (armReadCpsr p).setWidth 28 = d.control

/-- The flags and the control bits are all of the CPSR. -/
theorem flags_append_control (w : Word) :
    (BitVec.ofBool (bit w flagN) ++ BitVec.ofBool (bit w flagZ) ++ BitVec.ofBool (bit w flagC) ++
      BitVec.ofBool (bit w flagV) ++ w.setWidth 28 : Word) = w := by
  apply BitVec.eq_of_getLsbD_eq
  intro i hi
  simp only [BitVec.getLsbD_append, BitVec.getLsbD_ofBool, BitVec.getLsbD_setWidth]
  rcases (by omega : i < 28 ∨ i = 28 ∨ i = 29 ∨ i = 30 ∨ i = 31) with
    h | rfl | rfl | rfl | rfl
  · rw [if_pos h, decide_eq_true h, Bool.true_and]
  · exact bit_eq_getLsbD w (show flagV < 32 by decide)
  · exact bit_eq_getLsbD w (show flagC < 32 by decide)
  · exact bit_eq_getLsbD w (show flagZ < 32 by decide)
  · exact bit_eq_getLsbD w (show flagN < 32 by decide)

namespace Debuggee.Shown

variable {d : Debuggee} {p : ArmCore} (h : d.Shown p)

include h

theorem cpsr : d.cpsr = armReadCpsr p := by
  rw [Debuggee.cpsr, ← h.machine, ← h.control]
  exact flags_append_control (armReadCpsr p)

theorem registers : d.machine.r = readRegister p.reg := congrArg Visible.r h.machine.symm

theorem mem : d.machine.mem = p.mem := congrArg Visible.mem h.machine.symm

theorem counted (n : Word) : d.Shown { p with cycleCount := n } := ⟨h.machine, h.control⟩

/-! What a debugger writes. -/

theorem writeRegister (r : Fin 16) (value : Word) :
    Debuggee.Shown { d with machine := d.machine.write r value } (gdbWriteRegister p r value) := by
  constructor
  · rw [← h.machine]
    exact ((Displays.refl p).write r value).visible
  · rw [← h.control, gdbWriteRegister, armReadCpsr_writeRegister]

theorem writeRegisters (values : Fin 16 → Word) (cpsr : Word) :
    Debuggee.Shown ⟨d.machine.registered values cpsr, cpsr.setWidth 28, d.exception⟩
      (gdbWriteGeneralRegisters p values cpsr) := by
  have hcpsr : armReadCpsr (gdbWriteGeneralRegisters p values cpsr) = cpsr :=
    armReadCpsr_writeCpsr _ cpsr
  constructor
  · have hr : readRegister (gdbWriteGeneralRegisters p values cpsr).reg = values :=
      funext (readRegister_gdbWriteGeneralRegisters p values cpsr)
    rw [ArmCore.visible, hr, hcpsr, gdbWriteGeneralRegisters_mem, ← h.mem]
    rfl
  · rw [hcpsr]

theorem writeMemory (address : Word) (bytes : List Byte) :
    Debuggee.Shown { d with machine := d.machine.uploaded address bytes }
      (storeFitting p address bytes) := by
  constructor
  · have hmemory := funext (storeFitting_memory p address bytes)
    rw [← h.machine, Visible.uploaded]
    show _ = { p.visible with mem := { p.mem with memory := fun i =>
      ((Request.writeMemory address bytes).storesAt p.mem.size.toNat i).getD (p.mem.memory i) } }
    rw [← hmemory]
    rfl
  · exact h.control

end Debuggee.Shown

/-- A core that hides what it hid shows the control bits that it showed. -/
theorem SameHidden.shown {p q : ArmCore} (h : SameHidden p q) {d : Debuggee} (hd : d.Shown p)
    (exception : Int) : Debuggee.Shown ⟨q.visible, d.control, exception⟩ q := by
  refine ⟨rfl, ?_⟩
  rw [← hd.control]
  apply BitVec.eq_of_getLsbD_eq
  intro i hi
  rw [BitVec.getLsbD_setWidth, BitVec.getLsbD_setWidth, h.control i hi]

/-! ### Requests and conversations -/

/-- **The target does what the machine does.** -/
theorem Debuggee.Serves.target {host target : Endian} {d d' : Debuggee} {r : Request}
    {s : List Byte} (h : d.Serves host target r s d') {p : ArmCore} (hp : d.Shown p)
    (hhost : p.host = host) :
    ∃ u, r.Serves target ⟨p, d.exception⟩ s ⟨u, d'.exception⟩ ∧ d'.Shown u := by
  subst hhost
  cases h with
  | reason => exact ⟨p, .reason _, hp⟩
  | query s => exact ⟨p, .query _ s, hp⟩
  | setThread s => exact ⟨p, .setThread _ s, hp⟩
  | unsupported s => exact ⟨p, .unsupported _ s, hp⟩
  | readRegisters =>
    refine ⟨p, ?_, hp⟩
    rw [hp.cpsr, hp.registers, ← gdbRegister_eq_shownRegister]
    exact .readRegisters _
  | writeRegisters values cpsr => exact ⟨_, .writeRegisters _ values cpsr, hp.writeRegisters values cpsr⟩
  | readRegister r =>
    refine ⟨p, ?_, hp⟩
    have hshown := congrFun (gdbRegister_eq_shownRegister p) (decimalRegister r)
    rw [hp.registers, ← hshown]
    exact .readRegister _ r
  | writeRegister r value => exact ⟨_, .writeRegister _ r value, hp.writeRegister r value⟩
  | readMemory address size hn hl =>
    rw [hp.mem] at hl ⊢
    exact ⟨p, .readMemory _ address size hn hl, hp⟩
  | writeMemory address bytes hn =>
    rw [hp.mem]
    exact ⟨_, .writeMemory _ address bytes hn, hp.writeMemory address bytes⟩
  | @step m hs =>
    rw [← hp.machine] at hs
    obtain ⟨q, hq, hdisp⟩ := step_displays hs
    refine ⟨q, .step hq, ?_⟩
    rw [← hdisp.visible]
    exact hdisp.toSameHidden.shown (hp.counted _) 0
  | @cont k m w hm hf hb =>
    rw [← hp.machine] at hm
    obtain ⟨q, hq, hadv⟩ := advances_after hm d.exception
    have hread := reads_of_after hm hf
    have hreads : ReadsBreakpoint q := by
      rw [← hq.visible] at hf
      exact ⟨w, hf.reads, hb⟩
    have hshown := hq.toSameHidden.shown (hp.counted _) (if k = 0 then d.exception else 0)
    rw [hq.visible] at hshown
    exact ⟨q, .cont (t := ⟨p, d.exception⟩) hread hadv hreads, hshown⟩

/-- The requests of a conversation with the machine, each with its answer. -/
inductive Debuggee.Converses (host target : Endian) :
    Debuggee → List (Request × List Byte) → Debuggee → Prop
  | nil (d : Debuggee) : Converses host target d [] d
  | cons {d e f : Debuggee} {r : Request} {s : List Byte} {rs : List (Request × List Byte)}
      (h : d.Serves host target r s e) (hrs : Converses host target e rs f) :
      Converses host target d ((r, s) :: rs) f

theorem Debuggee.Converses.target {host target : Endian} {d d' : Debuggee}
    {rs : List (Request × List Byte)} (h : d.Converses host target rs d') {p : ArmCore}
    (hp : d.Shown p) (hhost : p.host = host) :
    ∃ u, Target.Converses target ⟨p, d.exception⟩ rs ⟨u, d'.exception⟩ ∧ d'.Shown u ∧
      u.host = host := by
  induction h generalizing p with
  | nil d => exact ⟨p, .nil _, hp, hhost⟩
  | @cons d e f r s rs h _ ih =>
    obtain ⟨q, hq, he⟩ := h.target hp hhost
    obtain ⟨u, hu, hf, hhost'⟩ := ih he (hq.samePlatform.1.trans hhost)
    exact ⟨u, .cons hq hu, hf, hhost'⟩

structure Debuggee.ShownBy (d : Debuggee) (host target : Endian) (gdb : Gdb) : Prop where
  arm : d.Shown gdb.arm
  host : gdb.arm.host = host
  exception : gdb.targetException = d.exception
  target : gdb.target = target
  shut : gdb.shut = false

theorem Debuggee.Converses.session {host target : Endian} {d d' : Debuggee}
    {rs : List (Request × List Byte)} (h : d.Converses host target rs d')
    (hsize : d.machine.mem.size.toNat < 2 ^ 32) {gdb : Gdb} (hg : d.ShownBy host target gdb) :
    ∃ n, ∀ toks, List.Forall₂ (fun x tok => x.1.Asks host target n tok) rs toks →
      ∃ g, Armator.session gdb toks = .ok g ∧ d'.ShownBy host target g ∧
        g.wire = gdb.wire ++ answers rs := by
  obtain ⟨u, hu, hd', hhost⟩ := h.target hg.arm hg.host
  obtain ⟨n, hn⟩ := session_converses hu (by rw [← hg.arm.mem]; exact hsize)
  refine ⟨n, fun toks htoks => ?_⟩
  rw [← hg.host] at htoks
  obtain ⟨g, hsession, hshows, hwire⟩ :=
    hn gdb ⟨rfl, hg.exception, hg.target, hg.shut⟩ toks htoks
  have harm : g.arm = u := hshows.arm
  rw [← harm] at hd' hhost
  exact ⟨g, hsession, ⟨hd', hhost, hshows.exception, hshows.target, hshows.shut⟩, hwire⟩

/-- **The simulator is a machine to its debugger.**  Over any conversation the simulator
sends what the machine answers and shows what has become of the machine; and if the machine
then exits before it comes to a breakpoint, `c` ends the simulator. -/
theorem session_debugs {host target : Endian} {d d' : Debuggee} {rs : List (Request × List Byte)}
    (h : d.Converses host target rs d') (hsize : d.machine.mem.size.toNat < 2 ^ 32) {gdb : Gdb}
    (hg : d.ShownBy host target gdb) :
    ∃ n, ∀ toks, List.Forall₂ (fun x tok => x.1.Asks host target n tok) rs toks →
      ∃ g, session gdb toks = .ok g ∧ d'.ShownBy host target g ∧
        g.wire = gdb.wire ++ answers rs ∧
        ∀ k, Hoare.after Visible.step k d'.machine = .error .exit →
          ∀ (x : Packet) (behind : List Byte) (l : Locals), x.Valid → x.index = char 'c' →
            k ≤ l.fuel → onToken g (.packet x behind l) = .error (.halted .exited) := by
  obtain ⟨n, hn⟩ := h.session hsize hg
  refine ⟨n, fun toks htoks => ?_⟩
  obtain ⟨g, hsession, hshown, hwire⟩ := hn toks htoks
  refine ⟨g, hsession, hshown, hwire, ?_⟩
  intro k hk x behind l hx hc hl
  rw [← hshown.arm.machine] at hk
  rw [onToken_continue g hshown.shut hx hc]
  exact cont_exits { g with wire := g.wire ++ ascii "+" } hk hl

/-! ### Writing a program -/

/-- The data of an `X` packet that writes a program. -/
def programBytes (order : Endian) (ws : List Word) : List Byte :=
  (List.range (4 * ws.length)).map (programByte order ws)

/-- **A program that has been written is there.** -/
theorem program_uploaded (m : Visible) {a : Word} {ws : List Word} (ha : a.toNat % 4 = 0)
    (hm : a.toNat + 4 * ws.length ≤ m.mem.size.toNat) (hs : a.toNat + 4 * ws.length ≤ 2 ^ 32) :
    Program (m.uploaded a (programBytes m.mem.order ws)).mem a ws := by
  refine program_of_bytes ha hm hs fun i hi => ?_
  have hlen : (programBytes m.mem.order ws).length = 4 * ws.length := by simp [programBytes]
  show ((Request.writeMemory a (programBytes m.mem.order ws)).storesAt m.mem.size.toNat
    (a.toNat + i)).getD _ = programByte m.mem.order ws i
  rw [Request.storesAt, hlen, if_pos ⟨by omega, by omega, by omega⟩, Option.getD_some,
    Nat.add_sub_cancel_left, List.getD_eq_getElem _ _ (by rw [hlen]; exact hi)]
  simp [programBytes]

theorem escaped_of_plain {bs : List Byte}
    (h : ∀ b ∈ bs, b ≠ 0x7d ∧ b ≠ char '#' ∧ b ≠ char '$') : Escaped bs bs := by
  induction bs with
  | nil => exact .nil
  | cons b bs ih =>
    obtain ⟨h₁, h₂, h₃⟩ := h b List.mem_cons_self
    exact .plain h₁ h₂ h₃ (ih fun c hc => h c (List.mem_cons_of_mem b hc))

/-- The packet that writes the example that counts down to address 0. -/
def uploadPacket : Packet :=
  framePacket (writeMemoryPayload 0 24 (programBytes .big example1)) (by decide)

/-- The packet that sets the pc to `main`. -/
def mainPacket : Packet := framePacket (writeRegisterPayload .little .little 15 8) (by decide)

/-- The example is written into an empty memory and continued from `main`: the simulator
ends. -/
theorem session_debugs_example1 :
    ∃ l g, session (gdbInitData (armCreate .little (memoryOf .big (List.replicate 6 0))) .little
        fun _ => 0) [.packet uploadPacket [] l, .packet mainPacket [] l] = .ok g ∧
      onToken g (.packet (framePacket (ascii "c") (by decide)) [] l) = .error (.halted .exited) := by
  have hbytes : ∀ b ∈ programBytes .big example1, b ≠ 0x7d ∧ b ≠ char '#' ∧ b ≠ char '$' := by
    decide
  let p := armCreate .little (memoryOf .big (List.replicate 6 0))
  let d : Debuggee := ⟨p.visible, (armReadCpsr p).setWidth 28, 0⟩
  have hprogram : Program (d.machine.uploaded 0 (programBytes .big example1)).mem 0 example1 :=
    program_uploaded d.machine (by decide) (by decide) (by decide)
  let rs := [(Request.writeMemory 0 (programBytes .big example1),
      storeAnswer d.machine.mem 0 (programBytes .big example1)), (.writeRegister 15 8, ascii "OK")]
  have hconv : Debuggee.Converses .little .little d rs _ :=
    .cons (.writeMemory d 0 _ (by decide)) (.cons (.writeRegister _ 15 8) (.nil _))
  have hshown : d.ShownBy .little .little (gdbInitData p .little fun _ => 0) :=
    ⟨⟨rfl, rfl⟩, rfl, rfl, rfl, rfl⟩
  obtain ⟨n, hn⟩ := session_debugs hconv (by decide) hshown
  let l : Locals := ⟨0, fun _ => 0, max n 22⟩
  have hupload : (Request.writeMemory 0 (programBytes .big example1)).Asks .little .little n
      (.packet uploadPacket [] l) :=
    ⟨_, [], l, rfl, framePacket_valid _ _, ⟨_, escaped_of_plain hbytes, rfl⟩, Nat.le_max_left n 22⟩
  have hmain : (Request.writeRegister 15 8).Asks .little .little n (.packet mainPacket [] l) :=
    ⟨_, [], l, rfl, framePacket_valid _ _, rfl, Nat.le_max_left n 22⟩
  obtain ⟨g, hg, -, -, hexit⟩ := hn _ (.cons hupload (.cons hmain .nil))
  let m := (d.machine.uploaded 0 (programBytes .big example1)).write 15 8
  have hat : At 0 2 m.r m.mem m := ⟨Visible.write_r_same _ _ _, fun _ _ => rfl, rfl⟩
  have hend := (Example1.main hprogram m.r).stops (fun m hm => Example1.swi hprogram _ hm) hat
  exact ⟨l, g, hg, hexit 22 hend _ [] l (framePacket_valid _ _) rfl (Nat.le_max_right n 22)⟩

end Armator
