import Armator.Machine.Simulation

/-!
# Programs

`Program mem a ws` says that the words of a program lie in the memory from `a` on, in the
byte order of the memory.  The triples of a program are those of `Visible.step`, one for
each of its words, composed by the rules of `Hoare.Leads`; they are triples of the simulator
because it follows the machine (`following_simulation`).

`example1` is the example of that name: a subroutine that counts r0 down, called in a
loop until r0 is 0.  Its loop ends for every value of r0, after as many turns as r0 says,
2 ^ 32 where it says 0 (`countdown`).
-/

namespace Armator

open Hoare

/-- The words of a program, from the aligned address `a` on. -/
structure Program (mem : Memory) (a : Word) (ws : List Word) : Prop where
  aligned : a.toNat % 4 = 0
  inMemory : a.toNat + 4 * ws.length ≤ mem.size.toNat
  inSpace : a.toNat + 4 * ws.length ≤ 2 ^ 32
  word : ∀ i w, ws[i]? = some w → mem.value (a + BitVec.ofNat 32 (4 * i)) 4 = w

section Program

variable {mem : Memory} {a : Word} {ws : List Word} (h : Program mem a ws) {i : Nat} {w : Word}
  (hi : ws[i]? = some w)

include h hi

theorem Program.toNat_address :
    (a + BitVec.ofNat 32 (4 * i)).toNat = a.toNat + 4 * i ∧
      a.toNat + 4 * i + 4 ≤ mem.size.toNat := by
  have hlt : i < ws.length := (List.getElem?_eq_some_iff.mp hi).1
  have hm := h.inMemory
  have hs := h.inSpace
  rw [BitVec.toNat_add, BitVec.toNat_ofNat]
  omega

/-- A machine at a word of the program fetches it. -/
theorem Program.fetches {m : Visible} (hmem : m.mem = mem)
    (hpc : m.r 15 = a + BitVec.ofNat 32 (4 * i)) : m.Fetches w := by
  obtain ⟨ha, hin⟩ := h.toNat_address hi
  have hal := h.aligned
  refine ⟨?_, ?_, ?_⟩
  · rw [hpc, ha]
    omega
  · rw [DataAccess.InMemory, hpc, hmem, ha]
    exact hin
  · rw [hpc, hmem]
    exact h.word i w hi

end Program

/-! ### The bytes of a program -/

/-- The bytes of a program in a memory of this order. -/
def programByte (order : Endian) (ws : List Word) (i : Nat) : Byte :=
  Bytes.byteOf order 4 (ws.getD (i / 4) 0) (i % 4)

/-- A memory that holds a program and nothing else. -/
def memoryOf (order : Endian) (ws : List Word) : Memory :=
  memoryCreate (4 * BitVec.ofNat 64 ws.length) (order == .big) (programByte order ws)

/-- A memory with the bytes of a program holds the program. -/
theorem program_of_bytes {mem : Memory} {a : Word} {ws : List Word} (ha : a.toNat % 4 = 0)
    (hm : a.toNat + 4 * ws.length ≤ mem.size.toNat) (hs : a.toNat + 4 * ws.length ≤ 2 ^ 32)
    (h : ∀ i < 4 * ws.length, mem.memory (a.toNat + i) = programByte mem.order ws i) :
    Program mem a ws := by
  refine ⟨ha, hm, hs, fun i w hi => ?_⟩
  obtain ⟨hlt, hw⟩ := List.getElem?_eq_some_iff.mp hi
  have haddr : (a + BitVec.ofNat 32 (4 * i)).toNat = a.toNat + 4 * i := by
    rw [BitVec.toNat_add, BitVec.toNat_ofNat]
    omega
  have hbytes : ∀ k < 4, mem.memory (a.toNat + 4 * i + k) = Bytes.byteOf mem.order 4 w k := by
    intro k hk
    rw [Nat.add_assoc, h _ (by omega), programByte, show (4 * i + k) / 4 = i by omega,
      show (4 * i + k) % 4 = k by omega, List.getD_eq_getElem _ _ hlt, hw]
  rw [Memory.value, haddr, Bytes.ofBytes_congr _ hbytes, Bytes.ofBytes_byteOf]
  exact BitVec.setWidth_eq w

/-! ### Where the machine is -/

/-- The machine is at word `i` of the program at `a`, with `f` in the registers before r15
and `mem` in the memory. -/
structure At (a : Word) (i : Nat) (f : Fin 16 → Word) (mem : Memory) (m : Visible) : Prop where
  pc : m.r 15 = a + BitVec.ofNat 32 (4 * i)
  r : ∀ j ≠ 15, m.r j = f j
  mem : m.mem = mem

namespace At

variable {m : Visible} {a : Word} {i : Nat} {f : Fin 16 → Word} {mem : Memory} (h : At a i f mem m)

include h

theorem write {j : Fin 16} (hj : j ≠ 15) (v : Word) :
    At a i (Function.update f j v) mem (m.write j v) := by
  refine ⟨?_, fun k hk => ?_, h.mem⟩
  · rw [Visible.write_r_of_ne m v hj.symm, h.pc]
  · by_cases e : k = j
    · rw [e, Visible.write_r_same, Function.update_self]
    · rw [Visible.write_r_of_ne m v e, Function.update_of_ne e, h.r k hk]

theorem write_pc {j : Nat} {v : Word} (hv : v = a + BitVec.ofNat 32 (4 * j)) :
    At a j f mem (m.write 15 v) := by
  refine ⟨?_, fun k hk => ?_, h.mem⟩
  · rw [Visible.write_r_same, hv]
  · rw [Visible.write_r_of_ne m v hk, h.r k hk]

theorem flagged (n z c v : Bool) : At a i f mem (m.flagged n z c v) := ⟨h.pc, h.r, h.mem⟩

theorem fetched : At a (i + 1) f mem m.fetched := by
  refine h.write_pc ?_
  rw [h.pc, add_assoc, Nat.mul_succ, BitVec.ofNat_add]
  rfl

theorem read {j : Fin 16} (hj : j ≠ 15) : m.fetched.read j = f j := by
  rw [Visible.fetched_read_of_ne m hj, h.r j hj]

/-- Two words on, as an instruction reads the pc. -/
theorem read_pc : m.fetched.read 15 = a + BitVec.ofNat 32 (4 * (i + 2)) := by
  rw [Visible.fetched_read_pc, h.pc, add_assoc, Nat.mul_add, BitVec.ofNat_add]
  rfl

end At

/-- **The rule of an instruction** that stands at word `i` and passes. -/
theorem Program.leads {mem : Memory} {a : Word} {ws : List Word} (h : Program mem a ws) (i : Nat)
    (ins : Instr) {w : Word} (hi : ws[i]? = some w) (hd : decodeInstr w = some ins)
    {P Q : Visible → Prop} {f : Fin 16 → Word} (hp : ∀ m, P m → At a i f mem m)
    (hpass : ∀ m, P m → m.passes (getBits w 31 28).toNat = true)
    (he : ∀ m, P m → ∃ m', ins.exec m.fetched = .ok m' ∧ Q m') : Leads Visible.step 1 P Q := by
  refine Leads.of_step fun m hm => ?_
  have hat := hp m hm
  obtain ⟨m', hm', hq⟩ := he m hm
  have hs := (h.fetches hi hat.mem hat.pc).step_passed (hpass m hm) hd
  exact ⟨m', hs.trans hm', hq⟩

/-! ### Counting down -/

/-- `decr: subs r0, r0, #1; mov pc, lr; main: mov r0, #5; loop: bl decr; bne loop;
end: swi 0x123456` -/
def example1 : List Word :=
  [0xE2500001, 0xE1A0F00E, 0xE3A00005, 0xEBFFFFFB, 0x1AFFFFFD, 0xEF123456]

namespace Example1

section Triples

variable {mem : Memory} {a : Word} (h : Program mem a example1) (f : Fin 16 → Word)

include h

theorem mov : Leads Visible.step 1 (At a 2 f mem) (At a 3 (Function.update f 0 5) mem) :=
  h.leads 2 (.operation .mov false 0 0 (.immediate 5 0)) rfl rfl (fun _ hm => hm)
    (fun _ _ => rfl) fun _ hm => ⟨_, rfl, hm.fetched.write (by decide) 5⟩

theorem bl : Leads Visible.step 1 (At a 3 f mem) (At a 0 (Function.update f 14 (a + 16)) mem) := by
  refine h.leads 3 (.branch true (-5)) rfl rfl (fun _ hm => hm)
    (fun _ _ => rfl) fun m hm => ⟨_, rfl, ?_⟩
  have hlink : m.fetched.read 15 - 4 = a + 16 := by
    rw [hm.read_pc, add_sub_assoc]
    rfl
  have htarget : m.fetched.read 15 + 4 * BitVec.ofInt 32 (-5) = a + BitVec.ofNat 32 (4 * 0) := by
    rw [hm.read_pc, add_assoc]
    rfl
  rw [← hlink]
  exact (hm.fetched.write (by decide) _).write_pc htarget

/-- The flags say whether the count has come to 0. -/
theorem subs : Leads Visible.step 1 (At a 0 f mem)
    (fun m => At a 1 (Function.update f 0 (f 0 - 1)) mem m ∧ m.z = (f 0 - 1 == 0)) := by
  refine h.leads 0 (.operation .sub true 0 0 (.immediate 1 0)) rfl rfl
    (fun _ hm => hm) (fun _ _ => rfl) fun m hm => ⟨_, rfl, ?_⟩
  rw [← hm.read (j := 0) (by decide)]
  exact ⟨(hm.fetched.write (by decide) _).flagged _ _ _ _, rfl⟩

theorem ret (hlr : f 14 = a + 16) (b : Bool) :
    Leads Visible.step 1 (fun m => At a 1 f mem m ∧ m.z = b)
      (fun m => At a 4 f mem m ∧ m.z = b) := by
  refine h.leads 1 (.operation .mov false 15 0 (.register 14 0 0)) rfl rfl
    (fun _ hm => hm.1) (fun _ _ => rfl) fun m hm => ⟨_, rfl, ?_, hm.2⟩
  exact hm.1.fetched.write_pc ((hm.1.read (by decide)).trans hlr)

theorem bne_taken : Leads Visible.step 1 (fun m => At a 4 f mem m ∧ m.z = false)
    (At a 3 f mem) := by
  refine h.leads 4 (.branch false (-3)) rfl rfl (fun _ hm => hm.1) ?_ ?_
  · rintro m ⟨-, hz⟩
    show (!m.z) = true
    rw [hz]
    rfl
  · rintro m ⟨hm, -⟩
    refine ⟨_, rfl, hm.fetched.write_pc ?_⟩
    rw [hm.read_pc, add_assoc]
    rfl

theorem bne_passed : Leads Visible.step 1 (fun m => At a 4 f mem m ∧ m.z = true)
    (At a 5 f mem) := by
  refine Leads.of_step ?_
  rintro m ⟨hm, hz⟩
  have hp : m.passes (getBits 0x1AFFFFFD 31 28).toNat = false := by
    show (!m.z) = false
    rw [hz]
    rfl
  exact ⟨_, (h.fetches (i := 4) rfl hm.mem hm.pc).step_failed hp, hm.fetched⟩

theorem swi {m : Visible} (hm : At a 5 f mem m) : m.step = .error .exit :=
  (h.fetches (i := 5) rfl hm.mem hm.pc).step_passed rfl (i := .exit) rfl

/-- A call of the subroutine. -/
theorem call : Leads Visible.step 3 (At a 3 f mem)
    (fun m => At a 4 (Function.update (Function.update f 14 (a + 16)) 0 (f 0 - 1)) mem m ∧
      m.z = (f 0 - 1 == 0)) := by
  have hsubs := subs h (Function.update f 14 (a + 16))
  rw [Function.update_of_ne (by decide)] at hsubs
  refine ((bl h f).trans hsubs).trans (ret h _ ?_ _)
  rw [Function.update_of_ne (by decide), Function.update_self]

end Triples

/-! The loop, by the number of turns that are left. -/

/-- How often the loop is run. -/
def turns (x : Word) : Nat := if x = 0 then 2 ^ 32 else x.toNat

/-- The registers with a count in r0 and a return address in r14. -/
def counting (f : Fin 16 → Word) (n : Nat) (lr : Word) : Fin 16 → Word :=
  Function.update (Function.update f 14 lr) 0 (BitVec.ofNat 32 n)

/-- `n` turns are left: the machine is at the call, or behind the loop. -/
def Turns (a : Word) (f : Fin 16 → Word) (mem : Memory) (n : Nat) (m : Visible) : Prop :=
  n ≤ 2 ^ 32 ∧ ∃ lr, (n = 0 → lr = a + 16) ∧ At a (if n = 0 then 5 else 3) (counting f n lr) mem m

theorem counting_call (f : Fin 16 → Word) (n : Nat) (lr lr' : Word) :
    Function.update (Function.update (counting f (n + 1) lr) 14 lr') 0
      (counting f (n + 1) lr 0 - 1) = counting f n lr' := by
  have hx : counting f (n + 1) lr 0 - 1 = BitVec.ofNat 32 n := by
    rw [counting, Function.update_self, BitVec.ofNat_add]
    exact add_sub_cancel_right _ _
  rw [hx]
  funext j
  simp only [counting, Function.update_apply]
  split_ifs <;> rfl

/-- The return address is what the last call has left. -/
theorem turn {mem : Memory} {a : Word} (h : Program mem a example1) (f : Fin 16 → Word) (n : Nat) :
    Leads Visible.step 4 (Turns a f mem (n + 1)) (Turns a f mem n) := by
  rintro m ⟨hn, lr, -, hm⟩
  rw [if_neg (Nat.succ_ne_zero n)] at hm
  have hcall := call h (counting f (n + 1) lr)
  rw [counting_call] at hcall
  have hx : counting f (n + 1) lr 0 - 1 = BitVec.ofNat 32 n := by
    rw [counting, Function.update_self, BitVec.ofNat_add]
    exact add_sub_cancel_right _ _
  rw [hx] at hcall
  by_cases hz : n = 0
  · subst hz
    have hturn := hcall.trans (bne_passed h _)
    exact hturn.mono (fun _ hm => hm) (fun t ht => ⟨by omega, a + 16, fun _ => rfl, ht⟩) m hm
  · have hne : (BitVec.ofNat 32 n == 0) = false := by
      rw [beq_eq_false_iff_ne, Ne, ← BitVec.toNat_inj, BitVec.toNat_ofNat, Nat.mod_eq_of_lt hn]
      exact hz
    rw [hne] at hcall
    have hturn := hcall.trans (bne_taken h _)
    refine hturn.mono (fun _ hm => hm) (fun t ht => ⟨by omega, a + 16, fun _ => rfl, ?_⟩) m hm
    rw [if_neg hz]
    exact ht

/-- The loop ends, whatever r0 is. -/
theorem loop {mem : Memory} {a : Word} (h : Program mem a example1) (f : Fin 16 → Word) :
    Leads Visible.step (4 * turns (f 0)) (At a 3 f mem) (At a 5 (counting f 0 (a + 16)) mem) := by
  refine (Leads.loop (turn h f) (turns (f 0))).mono (fun m hm => ?_) ?_
  · have hpos : turns (f 0) ≠ 0 := by
      rw [turns]
      split
      next => decide
      next hx => exact fun e => hx (BitVec.eq_of_toNat_eq e)
    have hcount : BitVec.ofNat 32 (turns (f 0)) = f 0 := by
      rw [turns]
      split
      next hx => rw [hx]; rfl
      next => rw [BitVec.ofNat_toNat, BitVec.setWidth_eq]
    have hle : turns (f 0) ≤ 2 ^ 32 := by
      rw [turns]
      split
      · exact Nat.le_refl _
      · exact (f 0).isLt.le
    refine ⟨hle, f 14, fun e => absurd e hpos, ?_⟩
    rw [if_neg hpos, counting, hcount, Function.update_eq_self, Function.update_eq_self]
    exact hm
  · rintro m ⟨-, lr, hlr, hm⟩
    rw [if_pos rfl, hlr rfl] at hm
    exact hm

/-- The whole program. -/
theorem main {mem : Memory} {a : Word} (h : Program mem a example1) (f : Fin 16 → Word) :
    Leads Visible.step 21 (At a 2 f mem)
      (At a 5 (counting (Function.update f 0 5) 0 (a + 16)) mem) := by
  have hloop := loop h (Function.update f 0 5)
  rw [Function.update_self] at hloop
  exact (mov h f).trans hloop

end Example1

/-- `p` has come to the `swi` of the example with r0 counted down, and is otherwise what it
was. -/
structure CountedDown (p q : ArmCore) (a : Word) (k : Nat) : Prop where
  r0 : readRegister q.reg 0 = 0
  lr : readRegister q.reg 14 = a + 16
  pc : readRegister q.reg 15 = a + 20
  rest : ∀ j, j ≠ 0 → j ≠ 14 → j ≠ 15 → readRegister q.reg j = readRegister p.reg j
  mem : q.mem = p.mem
  hidden : SameHidden { p with cycleCount := p.cycleCount + BitVec.ofNat 32 k } q

section Countdown

variable {p : ArmCore} {a : Word} (h : Program p.mem a example1)

include h

theorem countedDown_of_leads {i k : Nat} {f : Fin 16 → Word}
    (hl : Leads Visible.step k (At a i (readRegister p.reg) p.mem)
      (At a 5 (Example1.counting f 0 (a + 16)) p.mem))
    (hf : ∀ j, j ≠ 0 → f j = readRegister p.reg j)
    (hpc : readRegister p.reg 15 = a + BitVec.ofNat 32 (4 * i)) :
    (∃ q, steps p k = .ok q ∧ CountedDown p q a k) ∧ steps p (k + 1) = .error .exited := by
  have hat : At a i (readRegister p.reg) p.mem p.visible := ⟨hpc, fun _ _ => rfl, rfl⟩
  refine ⟨?_, steps_exited (hl.stops (fun m hm => Example1.swi h _ hm) hat)⟩
  obtain ⟨q, hq, m, hfollow, hend⟩ :=
    (following_simulation p).leads hl p ⟨_, Following.refl p, hat⟩
  rw [← steps_eq_after] at hq
  have hr : ∀ j ≠ 15, readRegister q.reg j = Example1.counting f 0 (a + 16) j := by
    intro j hj
    rw [← hend.r j hj, ← hfollow.visible]
    rfl
  refine ⟨q, hq, hr 0 (by decide), hr 14 (by decide), ?_, fun j h0 h14 h15 => ?_, ?_,
    hfollow.toSameHidden⟩
  · have hpc' := hend.pc
    rw [← hfollow.visible] at hpc'
    exact hpc'
  · rw [hr j h15, Example1.counting, Function.update_of_ne h0, Function.update_of_ne h14, hf j h0]
  · rw [← hend.mem, ← hfollow.visible]
    rfl

end Countdown

/-- **The countdown ends.**  From the loop of the example, wherever it is loaded and
whatever r0 holds, the simulator takes four steps for each turn, comes to the `swi` with 0
in r0, and ends there; from `main` it takes 21 steps. -/
theorem countdown (p : ArmCore) (a : Word) (h : Program p.mem a example1) :
    (readRegister p.reg 15 = a + 12 →
      (∃ q, steps p (4 * Example1.turns (readRegister p.reg 0)) = .ok q ∧
        CountedDown p q a (4 * Example1.turns (readRegister p.reg 0))) ∧
      steps p (4 * Example1.turns (readRegister p.reg 0) + 1) = .error .exited) ∧
    (readRegister p.reg 15 = a + 8 →
      (∃ q, steps p 21 = .ok q ∧ CountedDown p q a 21) ∧ steps p 22 = .error .exited) := by
  constructor
  · intro hpc
    exact countedDown_of_leads h (Example1.loop h _) (fun _ _ => rfl) hpc
  · intro hpc
    exact countedDown_of_leads h (Example1.main h _) (fun j h0 => Function.update_of_ne h0 ..) hpc

theorem program_example1 : Program (memoryOf .big example1) 0 example1 :=
  program_of_bytes (by decide) (by decide) (by decide) fun i _ =>
    congrArg (programByte .big example1) (Nat.zero_add i)

/-- The example in a big-endian memory, with 3 in r0 at the loop. -/
theorem countdown_three :
    ∃ q, steps (armWriteRegister (armWriteRegister
      (armCreate .little (memoryOf .big example1)) 0 3) 15 12) 12 = .ok q ∧
        readRegister q.reg 0 = 0 := by
  obtain ⟨⟨q, hq, hc⟩, -⟩ := (countdown (armWriteRegister (armWriteRegister
    (armCreate .little (memoryOf .big example1)) 0 3) 15 12) 0 program_example1).1 (by decide +kernel)
  exact ⟨q, hq, hc.r0⟩

end Armator
