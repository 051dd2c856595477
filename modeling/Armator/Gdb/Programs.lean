import Armator.Gdb.Target
import Armator.Machine.Programs

/-!
# Programs under the debugger

A `c` packet runs a program as the machine of `Machine/Assembly.lean` runs it: no word
that this machine goes through is a breakpoint (`not_isBreakpoint_of_step`), so the target
advances as the machine runs (`advances_after`), to the first breakpoint that the machine
comes to, or to the `swi` that ends the program and the simulator with it.
-/

namespace Armator

open Text

theorem getBits_of_masked {w mask v : Word} (h : w &&& mask = v) {hi lo : Nat} (hl : lo < 32)
    (hw : hi - lo + 1 < 32) (hm : ∀ i < hi - lo + 1, mask.getLsbD (lo + i) = true) :
    getBits w hi lo = getBits v hi lo := by
  apply BitVec.eq_of_getLsbD_eq
  intro i _
  rw [getLsbD_getBits w hl hw, getLsbD_getBits v hl hw, ← h, BitVec.getLsbD_and]
  by_cases hi' : i < hi - lo + 1
  · rw [hm i hi', Bool.and_true]
  · rw [decide_eq_false hi', Bool.false_and, Bool.false_and]

/-- A breakpoint passes under every condition and is no instruction of the machine. -/
theorem decodeInstr_breakpoint {w : Word} (h : IsBreakpoint w) (m : Visible) :
    m.passes (getBits w 31 28).toNat = true ∧ decodeInstr w = none := by
  have h31 : getBits w 31 28 = getBits 0xE7F000F0 31 28 :=
    getBits_of_masked h (by decide) (by decide) (by decide)
  have h27 : getBits w 27 25 = getBits 0xE7F000F0 27 25 :=
    getBits_of_masked h (by decide) (by decide) (by decide)
  have h4 : bit w 4 = true := by
    rw [bit_eq_getLsbD w (by decide)]
    have hb := congrArg (fun v => v.getLsbD 4) h
    simpa using hb
  refine ⟨by rw [h31]; rfl, ?_⟩
  have hcl : (getBits w 27 25).toNat = 3 := by
    rw [h27]
    rfl
  rw [decodeInstr, hcl]
  exact if_pos h4

theorem not_isBreakpoint_of_step {m : Visible} {w : Word} (hf : m.Fetches w)
    (h : m.step ≠ .error .unknown) : ¬ IsBreakpoint w := by
  intro hb
  obtain ⟨hp, hd⟩ := decodeInstr_breakpoint hb m
  apply h
  rw [Visible.step, if_pos ⟨hf.aligned, hf.inMemory⟩]
  simp only [hf.word, hp, hd, if_true]

theorem Visible.Fetches.reads {p : ArmCore} {w : Word} (h : p.visible.Fetches w) :
    armReadWord p (fetchAddress p) = some w := by
  have hs := h.standsAt
  rw [fetchAddress_of_pc hs.pc hs.aligned, hs.word]

theorem not_isBreakpoint_lookAhead {p : ArmCore} (h : p.visible.step ≠ .error .unknown)
    (instruction : Word) : ¬ IsBreakpoint (lookAhead p instruction) := by
  obtain ⟨w, hf, -⟩ := Visible.step_cases h
  rw [lookAhead, hf.reads, Option.getD_some]
  exact not_isBreakpoint_of_step hf h

/-- **The target advances as the machine runs.** -/
theorem advances_after {p : ArmCore} {k : Nat} {m : Visible}
    (h : Hoare.after Visible.step k p.visible = .ok m) (e : Int) :
    ∃ q, Following p k m q ∧ Target.Advances k ⟨p, e⟩ ⟨q, if k = 0 then e else 0⟩ := by
  induction k generalizing m with
  | zero =>
    cases h
    exact ⟨p, Following.refl p, .refl _⟩
  | succ k ih =>
    obtain ⟨u, hu, hs⟩ := Hoare.after_concat_ok h
    obtain ⟨q, hq, hadv⟩ := ih hu
    rw [← hq.visible] at hs
    obtain ⟨q', hq', hdisp⟩ := step_displays hs
    have hne : q.visible.step ≠ .error .unknown := by
      rw [hs]
      intro he
      cases he
    refine ⟨q', hq.succ hdisp, ?_⟩
    rw [if_neg (Nat.succ_ne_zero k)]
    exact hadv.concat (not_readsBreakpoint (not_isBreakpoint_lookAhead hne 0)) hq'

theorem reads_of_after {p : ArmCore} {k : Nat} {m : Visible} {w : Word}
    (h : Hoare.after Visible.step k p.visible = .ok m) (hf : m.Fetches w) :
    ∃ w, armReadWord p (fetchAddress p) = some w := by
  cases k with
  | zero =>
    cases h
    exact ⟨w, hf.reads⟩
  | succ k =>
    obtain ⟨t, ht, -⟩ := Hoare.after_succ_ok h
    obtain ⟨ins, hf', -⟩ := Visible.step_cases (m := p.visible) (by rw [ht]; intro e; cases e)
    exact ⟨ins, hf'.reads⟩

/-! ### The packet -/

section Continue

variable (gdb : Gdb) {k : Nat}

theorem cont_exits (he : Hoare.after Visible.step k gdb.arm.visible = .error .exit) {l : Locals}
    (hl : k ≤ l.fuel) : cont l gdb = .error (.halted .exited) := by
  obtain ⟨j, hj, t, ht, hend⟩ := Hoare.after_error he
  have hne : t.step ≠ .error .unknown := by
    rw [hend]
    intro e
    cases e
  obtain ⟨w, hf, -⟩ := Visible.step_cases hne
  obtain ⟨q, hq, hadv⟩ := advances_after ht gdb.targetException
  obtain ⟨fuel, hfuel⟩ : ∃ fuel, l.fuel = fuel + 1 + j := ⟨l.fuel - 1 - j, by omega⟩
  obtain ⟨i, hloop⟩ := contLoop_advances hadv (fuel + 1) gdb (l.junk 0)
    (Or.inl (reads_of_after ht hf)) rfl rfl
  rw [← hq.visible] at hend hne
  have hstep : ∀ e, gdbStep { gdb with arm := q, targetException := e } = .error (.halted .exited) := by
    intro e
    rw [gdbStep, show ({ gdb with arm := q, targetException := e } : Gdb).arm = q from rfl,
      step_exits hend]
    rfl
  rw [cont, hfuel, hloop, contLoop_succ, if_neg (not_isBreakpoint_lookAhead hne i), hstep]
  rfl

theorem onToken_continue (ho : gdb.shut = false) {x : Packet} (hx : x.Valid)
    (hc : x.index = char 'c') (behind : List Byte) (l : Locals) :
    onToken gdb (.packet x behind l) = cont l { gdb with wire := gdb.wire ++ ascii "+" } := by
  rw [onToken_valid gdb ho hx, hc]
  rfl

end Continue

/-- **A `c` packet runs a program of the machine**: to the `swi` that ends it, and then
ends the simulator, or to the first breakpoint, and then answers with the core showing
what the machine has come to. -/
theorem continue_program (gdb : Gdb) (ho : gdb.shut = false) (x : Packet) (hx : x.Valid)
    (hc : x.index = char 'c') (behind : List Byte) (l : Locals) (k : Nat) :
    (Hoare.after Visible.step k gdb.arm.visible = .error .exit → k ≤ l.fuel →
      onToken gdb (.packet x behind l) = .error (.halted .exited)) ∧
    (∀ m w, Hoare.after Visible.step k gdb.arm.visible = .ok m → m.Fetches w → IsBreakpoint w →
      k < l.fuel → ∃ g, onToken gdb (.packet x behind l) = .ok g ∧ Following gdb.arm k m g.arm ∧
        g.wire = gdb.wire ++ ascii "+" ++
          frame (stopReason (if k = 0 then gdb.targetException else 0))) := by
  rw [onToken_continue gdb ho hx hc]
  constructor
  · intro he hl
    exact cont_exits { gdb with wire := gdb.wire ++ ascii "+" } he hl
  · intro m w hm hf hb hl
    obtain ⟨q, hq, hadv⟩ := advances_after hm gdb.targetException
    have hread := reads_of_after hm hf
    rw [← hq.visible] at hf
    have hcont := cont_advances (t := ⟨gdb.arm, gdb.targetException⟩) hread hadv ⟨w, hf.reads, hb⟩
      { gdb with wire := gdb.wire ++ ascii "+" } rfl rfl hl
    obtain ⟨g, hg, hr⟩ := gdbSendStopReason_replies (gdb.answered
      ⟨q, if k = 0 then gdb.targetException else 0⟩) ho
    rw [hcont]
    refine ⟨g, hg, ?_, hr.wire⟩
    rw [show g.arm = q from hr.arm]
    exact hq

/-- The example that counts down, continued from `main`, ends the simulator. -/
theorem continue_program_example1 :
    let gdb := gdbInitData (armWriteRegister (armCreate .little (memoryOf .big example1)) 15 8)
      .little fun _ => 0
    onToken gdb (.packet (framePacket (ascii "c") (by decide)) [] ⟨0, fun _ => 0, 22⟩) =
      .error (.halted .exited) := by
  intro gdb
  have hat : At 0 2 (readRegister gdb.arm.reg) (memoryOf .big example1) gdb.arm.visible :=
    ⟨by decide +kernel, fun _ _ => rfl, rfl⟩
  have hend := (Example1.main program_example1 _).stops
    (fun m hm => Example1.swi program_example1 _ hm) hat
  exact (continue_program gdb rfl _ (framePacket_valid _ _) rfl [] _ 22).1 hend (Nat.le_refl 22)

end Armator
