import Armator.Gdb.Debuggee
import Armator.Machine.Frame

/-!
# Breakpoints

The simulator knows no request that sets a breakpoint, so a debugger does it with the ones
that there are: it reads the word at the address, writes a breakpoint over it, continues,
and writes the word back.  If the abstract machine comes to the address by steps that it
knows, none of which fetches or touches the word there, it does not notice
(`breakpoint_transparent`): the simulator then shows what the machine has come to without a
debugger.
-/

namespace Armator

open Text

def Memory.bytesAt (mem : Memory) (a : Word) (n : ℕ) : List Byte :=
  (List.range n).map fun k => mem.memory (a.toNat + k)

theorem length_bytesAt (mem : Memory) (a : Word) (n : ℕ) : (mem.bytesAt a n).length = n := by
  simp [Memory.bytesAt]

theorem getD_bytesAt (mem : Memory) (a : Word) {n j : ℕ} (hj : j < n) :
    (mem.bytesAt a n).getD j 0 = mem.memory (a.toNat + j) := by
  simp [Memory.bytesAt, hj]

/-- What a debugger does to stop at `a`, with the answers. -/
def breakpointRequests (mem : Memory) (a w : Word) (exception : Int) : List (Request × List Byte) :=
  [(.readMemory a 4, (mem.bytesAt a 4).flatMap hexByte),
    (.writeMemory a (programBytes mem.order [w]), ascii "OK"),
    (.cont, stopReason exception),
    (.writeMemory a (mem.bytesAt a 4), ascii "OK")]

/-- What is written into the memory takes the place of what was there. -/
theorem uploaded_eq_patched (m : Visible) {a : Word} {bs : List Byte}
    (h : a.toNat + bs.length ≤ m.mem.size.toNat) :
    m.uploaded a bs = m.patched a.toNat bs.length (bs.getD · 0) := by
  have hmemory : (fun i => ((Request.writeMemory a bs).storesAt m.mem.size.toNat i).getD
      (m.mem.memory i)) = Bytes.store m.mem.memory a.toNat bs.length (bs.getD · 0) := by
    funext i
    rw [Request.storesAt, Bytes.store]
    by_cases hi : a.toNat ≤ i ∧ i < a.toNat + bs.length
    · rw [if_pos hi, if_pos ⟨hi.1, hi.2, by omega⟩, Option.getD_some]
    · rw [if_neg hi, if_neg fun hi' => hi ⟨hi'.1, hi'.2.1⟩, Option.getD_none]
  exact congrArg (fun f => ({ m with mem := { m.mem with memory := f } } : Visible)) hmemory

theorem serves_writeMemory (host target : Endian) (d : Debuggee) {a : Word} {bs : List Byte}
    (hpos : 0 < bs.length) (hn : bs.length < 2 ^ 32)
    (h : a.toNat + bs.length ≤ d.machine.mem.size.toNat) :
    d.Serves host target (.writeMemory a bs) (ascii "OK")
      { d with machine := d.machine.uploaded a bs } := by
  have hok : storeAnswer d.machine.mem a bs = ascii "OK" := if_pos ⟨by omega, h⟩
  rw [← hok]
  exact .writeMemory d a bs hn

theorem length_programBytes (order : Endian) (w : Word) : (programBytes order [w]).length = 4 := by
  simp [programBytes]

section Breakpoint

variable {d : Debuggee} {a w : Word} {k : ℕ} {m : Visible}

theorem fetches_breakpoint (hpc : m.r 15 = a) (ha : a.toNat % 4 = 0)
    (hin : a.toNat + 4 ≤ m.mem.size.toNat) (w : Word) :
    (m.uploaded a (programBytes m.mem.order [w])).Fetches w := by
  have hlt := a.isLt
  have hprogram : Program (m.uploaded a (programBytes m.mem.order [w])).mem a [w] :=
    program_uploaded m ha hin (by rw [List.length_singleton]; omega)
  refine hprogram.fetches (i := 0) rfl rfl ?_
  exact hpc.trans (BitVec.add_zero a).symm

section Run

variable (hin : a.toNat + 4 ≤ d.machine.mem.size.toNat)
  (hm : Hoare.after Visible.step k d.machine = .ok m) (hshape : SameShape d.machine.mem m.mem)
  (hspares : ∀ j < k, ∀ t, Hoare.after Visible.step j d.machine = .ok t → t.Spares a.toNat 4)

include hin hm hshape hspares

theorem after_uploaded {bs : List Byte} (hl : bs.length = 4) :
    Hoare.after Visible.step k (d.machine.uploaded a bs) = .ok (m.uploaded a bs) := by
  rw [uploaded_eq_patched d.machine (by rw [hl]; exact hin), hl, after_patched hspares, hm,
    uploaded_eq_patched m (by rw [hl, hshape.1]; exact hin), hl]
  rfl

/-- When the word is back, nothing is left of the breakpoint. -/
theorem uploaded_bytesAt {bs : List Byte} (hl : bs.length = 4) :
    (m.uploaded a bs).uploaded a (d.machine.mem.bytesAt a 4) = m := by
  have hlen := length_bytesAt d.machine.mem a 4
  have hin' : a.toNat + 4 ≤ m.mem.size.toNat := by
    rw [hshape.1]
    exact hin
  rw [uploaded_eq_patched (m.uploaded a bs) (by rw [hlen]; exact hin'), hlen,
    uploaded_eq_patched m (by rw [hl]; exact hin'), hl, patched_patched]
  refine patched_self _ m fun j hj => ?_
  rw [getD_bytesAt d.machine.mem a hj, after_spares hspares hm hj]

end Run

/-- **The debugger of a machine** leaves it where it comes to without one. -/
theorem converses_breakpoint (host target : Endian) (hsize : d.machine.mem.size.toNat < 2 ^ 32)
    (hm : Hoare.after Visible.step k d.machine = .ok m) (hshape : SameShape d.machine.mem m.mem)
    (hpc : m.r 15 = a) (ha : a.toNat % 4 = 0) (hin : a.toNat + 4 ≤ d.machine.mem.size.toNat)
    (hspares : ∀ j < k, ∀ t, Hoare.after Visible.step j d.machine = .ok t → t.Spares a.toNat 4)
    (hb : IsBreakpoint w) :
    d.Converses host target
      (breakpointRequests d.machine.mem a w (if k = 0 then d.exception else 0))
      ⟨m, d.control, if k = 0 then d.exception else 0⟩ := by
  have hin' : a.toNat + 4 ≤ m.mem.size.toNat := by
    rw [hshape.1]
    exact hin
  have horder : m.mem.order = d.machine.mem.order := by
    rw [Memory.order, Memory.order, hshape.2]
  have hbp := length_programBytes d.machine.mem.order w
  have hold := length_bytesAt d.machine.mem a 4
  have hread : d.Serves host target (.readMemory a 4)
      ((d.machine.mem.bytesAt a 4).flatMap hexByte) d := by
    have hreadable : readable d.machine.mem 4 a = d.machine.mem.bytesAt a 4 :=
      readable_eq_map hsize hin
    rw [← hreadable]
    exact .readMemory d a 4 (by decide) (by rw [hreadable, hold]; decide)
  have hset := serves_writeMemory host target d (a := a) (by rw [hbp]; decide) (by rw [hbp]; decide)
    (by rw [hbp]; exact hin)
  have hrun := after_uploaded hin hm hshape hspares hbp
  have hfetch := fetches_breakpoint hpc ha hin' w
  rw [horder] at hfetch
  have hclear := serves_writeMemory host target
    ⟨m.uploaded a (programBytes d.machine.mem.order [w]), d.control,
      if k = 0 then d.exception else 0⟩ (a := a) (by rw [hold]; decide) (by rw [hold]; decide)
    (by rw [hold]; exact hin')
  simp only [uploaded_bytesAt hin hm hshape hspares hbp] at hclear
  exact .cons hread (.cons hset (.cons (.cont hrun hfetch hb) (.cons hclear (.nil _))))

end Breakpoint

theorem after_sameShape {p : ArmCore} {k : ℕ} {m : Visible}
    (h : Hoare.after Visible.step k p.visible = .ok m) : SameShape p.mem m.mem := by
  obtain ⟨q, hq, hfollow⟩ := (following_simulation p).after (Following.refl p) h
  rw [← steps_eq_after] at hq
  rw [← hfollow.visible]
  exact (closed_sameShape p.mem).steps (show SameShape p.mem p.mem from ⟨rfl, rfl⟩) hq

/-- **The machine does not notice the breakpoint that stops it.**  If it comes to the address
`a` after `k` steps, none of which has fetched or touched the word there, then a debugger
that sets a breakpoint at `a`, continues and takes it back leaves the simulator showing what
the machine comes to by itself.  A step that the machine does not know (an undefined
instruction among them) leaves an exception behind, which the reply would name. -/
theorem breakpoint_transparent {host target : Endian} {d : Debuggee} {gdb : Gdb}
    (hg : d.ShownBy host target gdb) (hsize : d.machine.mem.size.toNat < 2 ^ 32) {a w : Word}
    {k : ℕ} {m : Visible} (hm : Hoare.after Visible.step k d.machine = .ok m) (hpc : m.r 15 = a)
    (ha : a.toNat % 4 = 0) (hin : a.toNat + 4 ≤ d.machine.mem.size.toNat)
    (hspares : ∀ j < k, ∀ t, Hoare.after Visible.step j d.machine = .ok t → t.Spares a.toNat 4)
    (hb : IsBreakpoint w) :
    let e := if k = 0 then d.exception else 0
    let rs := breakpointRequests d.machine.mem a w e
    ∃ n, ∀ toks, List.Forall₂ (fun x tok => x.1.Asks host target n tok) rs toks →
      ∃ g, session gdb toks = .ok g ∧ Debuggee.ShownBy ⟨m, d.control, e⟩ host target g ∧
        g.wire = gdb.wire ++ answers rs := by
  have hshape : SameShape d.machine.mem m.mem := by
    rw [hg.arm.mem]
    rw [← hg.arm.machine] at hm
    exact after_sameShape hm
  exact (converses_breakpoint host target hsize hm hshape hpc ha hin hspares hb).session hsize hg

/-- The example that counts down, stopped at the head of its loop. -/
theorem breakpoint_transparent_example1 :
    ∃ n, ∀ toks, List.Forall₂ (fun x tok => x.1.Asks .little .little n tok)
        (breakpointRequests (memoryOf .big example1) 12 0xE7F001F0 0) toks →
      ∃ g, session (gdbInitData (armWriteRegister (armCreate .little (memoryOf .big example1)) 15 8)
        .little fun _ => 0) toks = .ok g ∧ readRegister g.arm.reg 15 = 12 ∧
          readRegister g.arm.reg 0 = 5 := by
  let p := armWriteRegister (armCreate .little (memoryOf .big example1)) 15 8
  let d : Debuggee := ⟨p.visible, (armReadCpsr p).setWidth 28, 0⟩
  have hshown : d.ShownBy .little .little (gdbInitData p .little fun _ => 0) :=
    ⟨⟨rfl, rfl⟩, rfl, rfl, rfl, rfl⟩
  have hat : At 0 2 (readRegister p.reg) (memoryOf .big example1) d.machine :=
    ⟨by decide +kernel, fun _ _ => rfl, rfl⟩
  obtain ⟨m, hm, hend⟩ := Example1.mov program_example1 _ d.machine hat
  have hspares : ∀ j < 1, ∀ t, Hoare.after Visible.step j d.machine = .ok t → t.Spares 12 4 := by
    intro j hj t ht
    obtain rfl := Nat.lt_one_iff.mp hj
    cases ht
    have hfetch := program_example1.fetches (i := 2) rfl hat.mem hat.pc
    have haccesses : d.machine.accesses = [⟨d.machine.r 15, 4⟩] := by
      rw [Visible.accesses]
      simp only [hfetch.word]
      rfl
    rw [Visible.Spares, haccesses, hat.pc]
    intro x hx
    rw [List.mem_singleton.mp hx]
    exact Or.inl (by decide)
  obtain ⟨n, hn⟩ := breakpoint_transparent hshown (by decide) hm hend.pc (by decide) (by decide)
    hspares (w := 0xE7F001F0) (by decide)
  refine ⟨n, fun toks htoks => ?_⟩
  obtain ⟨g, hg, hstopped, -⟩ := hn toks htoks
  have hr : readRegister g.arm.reg = m.r := congrArg Visible.r hstopped.arm.machine
  refine ⟨g, hg, ?_, ?_⟩
  · rw [hr]
    exact hend.pc
  · rw [hr, hend.r 0 (by decide)]
    rfl

end Armator
