import Armator.Lib.Strcmp
import Armator.Simulator.Serial

/-!
# Interrupts (`send_irq.c`)

`send_irq` connects to the interrupt port and sends one byte: the number of the exception
that its third argument names.  A reset is the only one that does anything to the core.
What the others do to a simulator at work is nothing (`simulator_without_reset`), and
`send_irq` sends a reset only if it is asked for one (`simulator_clients`).
-/

namespace Armator

open Text
open Relation (ReflTransGen)
open Locking (Prog)
open Run (ok_bind error_bind)

/-! ### Interrupts other than a reset -/

theorem armException_of_ne_reset {b : Byte} (h : (b.toNat : ℤ) ≠ Exception.reset) (p : ArmCore) :
    armException p b = p := if_neg h

/-- Without a reset, the one program does what the rules do. -/
theorem run_onEvent_of_ne_reset (es : List Event) (data : ParserData)
    (h : ∀ b ∈ irqsOf es, (b.toNat : ℤ) ≠ Exception.reset) :
    Run.run onEvent data es = Run.run onRule data (rulesOf es) := by
  induction es generalizing data with
  | nil => rfl
  | cons e es ih =>
    cases e with
    | rule x =>
      rw [Run.run_cons, show rulesOf (.rule x :: es) = x :: rulesOf es from rfl, Run.run_cons]
      exact bind_congr fun d => ih d h
    | irq b =>
      have hb : armException data.gdb.arm b = data.gdb.arm :=
        armException_of_ne_reset (h b List.mem_cons_self) _
      rw [Run.run_cons, onEvent, hb, ParserData.withArm_self, ok_bind]
      exact ih data fun b' hb' => h b' (List.mem_cons_of_mem _ hb')

theorem gdbScanner_eq (arm : ArmCore) (target : Endian) (garbage : ℕ → Byte)
    (buffer : Vector Byte maxErrorSize) (ls : List Lexeme) :
    gdbScanner arm target garbage buffer ls =
      Run.run onRule ⟨gdbInitData arm target garbage, buffer, 0⟩ (ls.map some ++ [none]) := by
  rw [Run.run_concat, gdbScanner, Run.run, Run.run, List.foldlM_map]
  rfl

theorem Stage.without_reset {start : ParserData} {rules : List (Option Lexeme)} {irqs : List Byte}
    {s : Simulator} (h : Stage start rules irqs s)
    (hirqs : ∀ b ∈ irqs, (b.toNat : ℤ) ≠ Exception.reset) :
    ∃ done, done ++ s.gdb.todo = rules ∧ Run.run onRule start done = finish s.shared s.gdb s.irq := by
  obtain ⟨es, hrules, rfl, hes⟩ := h.events
  refine ⟨rulesOf es, hrules, ?_⟩
  rw [← hes, run_onEvent_of_ne_reset es start fun b hb => hirqs b (List.mem_append_left _ hb)]

/-- **Interrupts other than a reset are not seen.**  Wherever the two threads have come to,
the core and the connection of the debugger are what the rules of the scanner have made of
them alone. -/
theorem simulator_without_reset (cuts : Cuts) (arm : ArmCore) (target : Endian) (garbage : ℕ → Byte)
    (buffer : Vector Byte maxErrorSize) (ls : List Lexeme) (connections : List (List Byte))
    (hirqs : ∀ b ∈ connections.flatten, (b.toNat : ℤ) ≠ Exception.reset) {c : Simulator}
    (h : (simulator cuts).Reaches (started arm target garbage buffer ls connections) c) :
    ∃ done, done ++ c.gdb.todo = ls.map some ++ [none] ∧
      Run.run onRule ⟨gdbInitData arm target garbage, buffer, 0⟩ done =
        finish c.shared c.gdb c.irq :=
  (stage_of_reaches h).without_reset hirqs

/-- The packet has come to the lock, which the interrupt has. -/
theorem simulator_without_reset_interrupt :
    ∃ c : Simulator, (simulator smallSteps).Reaches (startedWith 6) c ∧
      c.gdb.place = .locking setR1Call ∧
      ∃ done, done ++ c.gdb.todo = [some (.token setR1), none] ∧
        Run.run onRule freshData done = finish c.shared c.gdb c.irq :=
  ⟨_, reaches_interrupted 6, rfl, simulator_without_reset smallSteps _ _ _ _ _ _ (by decide)
    (reaches_interrupted 6)⟩

/-! ### The program -/

/-- The names of the exceptions by their numbers (`arm_constants.c`). -/
def armExceptionNames : List (Option CString) :=
  [none, some ⟨ascii "reset", by decide⟩, some ⟨ascii "undefined instruction", by decide⟩,
    some ⟨ascii "software interrupt", by decide⟩, some ⟨ascii "prefetch abort", by decide⟩,
    some ⟨ascii "data abort", by decide⟩, some ⟨ascii "interrupt", by decide⟩,
    some ⟨ascii "fast interrupt", by decide⟩]

def armGetExceptionName (exception : Byte) : Option CString :=
  if exception.toNat < 8 then armExceptionNames[exception.toNat]?.join else none

theorem toNat_add_one {irq : Byte} (h : irq.toNat < 8) : (irq + 1).toNat = irq.toNat + 1 := by
  rw [BitVec.toNat_add, show (1 : Byte).toNat = 1 from rfl]
  omega

theorem toNat_lt_of_name {irq : Byte} {name : CString} (h : armGetExceptionName irq = some name) :
    irq.toNat < 8 := by
  by_contra h8
  rw [armGetExceptionName, if_neg h8] at h
  cases h

/-- The loop of `main` over the names from `irq` on. -/
def findIrq (irq : Byte) (wanted : CString) : Option Byte :=
  match _h : armGetExceptionName irq with
  | none => none
  | some irqName => if strcmp irqName wanted ≠ 0 then findIrq (irq + 1) wanted else some irq
termination_by 8 - irq.toNat
decreasing_by
  have h8 := toNat_lt_of_name _h
  rw [toNat_add_one h8]
  omega

/-- The byte that `main` sends, or the status with which it exits. -/
def sendIrq (argv : List CString) : Except ℕ Byte :=
  if argv.length < 3 then .error 1
  else
    match argv[3]? with
    | none => .ok (BitVec.ofInt 8 Exception.interrupt)
    | some name =>
      match findIrq (BitVec.ofInt 8 Exception.reset) name with
      | none => .error 2
      | some irq => .ok irq

theorem findIrq_eq_some {irq b : Byte} {wanted : CString} (h : findIrq irq wanted = some b) :
    armGetExceptionName b = some wanted := by
  fun_induction findIrq irq wanted with
  | case1 irq hname => cases h
  | case2 irq name hname hne ih => exact ih h
  | case3 irq name hname heq =>
    obtain rfl := Option.some.inj h
    rw [hname, (strcmp_eq_zero_iff name wanted).mp (not_not.mp heq)]

theorem armGetExceptionName_isSome {b : Byte} (h0 : 0 < b.toNat) (h8 : b.toNat < 8) :
    (armGetExceptionName b).isSome := by
  have : ∀ k < 8, 0 < k → (armExceptionNames[k]?.join).isSome := by decide
  rw [armGetExceptionName, if_pos h8]
  exact this _ h8 h0

/-- The loop stops at the name, or before it. -/
theorem findIrq_isSome {irq b : Byte} {wanted : CString} (h0 : 0 < irq.toNat)
    (hle : irq.toNat ≤ b.toNat) (h : armGetExceptionName b = some wanted) :
    (findIrq irq wanted).isSome := by
  have hb := toNat_lt_of_name h
  fun_induction findIrq irq wanted with
  | case1 irq hname =>
    have hsome := armGetExceptionName_isSome h0 (by omega)
    rw [hname] at hsome
    cases hsome
  | case2 irq name hname hne ih =>
    have h1 := toNat_add_one (toNat_lt_of_name hname)
    refine ih (by omega) ?_
    have hne' : irq.toNat ≠ b.toNat := by
      intro e
      obtain rfl := BitVec.eq_of_toNat_eq e
      obtain rfl := Option.some.inj (hname.symm.trans h)
      exact hne ((strcmp_eq_zero_iff _ _).mpr rfl)
    omega
  | case3 irq name hname heq => rfl

/-- The names differ. -/
theorem armGetExceptionName_inj {b b' : Byte} {name : CString}
    (h : armGetExceptionName b = some name) (h' : armGetExceptionName b' = some name) : b = b' := by
  have hb := toNat_lt_of_name h
  have hb' := toNat_lt_of_name h'
  rw [armGetExceptionName, if_pos hb] at h
  rw [armGetExceptionName, if_pos hb'] at h'
  have hnodup : ∀ i < 8, ∀ j < 8, armExceptionNames[i]?.join.map CString.bytes =
      armExceptionNames[j]?.join.map CString.bytes → i = j := by decide
  refine BitVec.eq_of_toNat_eq (hnodup _ hb _ hb' ?_)
  rw [h, h']

theorem findIrq_eq_some_iff {b : Byte} {wanted : CString} :
    findIrq (BitVec.ofInt 8 Exception.reset) wanted = some b ↔
      armGetExceptionName b = some wanted := by
  constructor
  · exact findIrq_eq_some
  · intro h
    have h0 : b.toNat ≠ 0 := by
      intro h0
      obtain rfl : b = 0 := BitVec.eq_of_toNat_eq h0
      cases h
    have hsome : (findIrq (BitVec.ofInt 8 Exception.reset) wanted).isSome :=
      findIrq_isSome (by decide) (by change 1 ≤ b.toNat; omega) h
    obtain ⟨b', hb'⟩ := Option.isSome_iff_exists.mp hsome
    rw [hb', armGetExceptionName_inj h (findIrq_eq_some hb')]

/-- **What `send_irq` sends**: the exception that its third argument names, or an interrupt
where there is none.  It sends nothing without a host and a port, or for any other name. -/
theorem sendIrq_ok_iff {argv : List CString} {b : Byte} :
    sendIrq argv = .ok b ↔ argv.length = 3 ∧ b = BitVec.ofInt 8 Exception.interrupt ∨
      ∃ name, argv[3]? = some name ∧ armGetExceptionName b = some name := by
  rw [sendIrq]
  split
  next h3 =>
    have hnone : argv[3]? = none := List.getElem?_eq_none (by omega)
    simp only [hnone, reduceCtorEq, false_and, exists_false, or_false, false_iff, not_and]
    omega
  next h3 =>
    cases harg : argv[3]? with
    | none =>
      have hlen := List.getElem?_eq_none_iff.mp harg
      simp only [reduceCtorEq, false_and, exists_false, or_false]
      constructor
      · intro h
        cases h
        exact ⟨by omega, rfl⟩
      · rintro ⟨-, rfl⟩
        rfl
    | some name =>
      have hlen : 3 < argv.length := (List.getElem?_eq_some_iff.mp harg).1
      have hname : (∃ name', some name = some name' ∧ armGetExceptionName b = some name') ↔
          armGetExceptionName b = some name := by simp
      rw [hname, ← findIrq_eq_some_iff]
      have hne : argv.length ≠ 3 := by omega
      cases hf : findIrq (BitVec.ofInt 8 Exception.reset) name with
      | none => simp [hne, hf]
      | some irq => simp [hne, hf]

/-- What comes over the connection of a client, if it makes one. -/
def sent (argv : List CString) : Option (List Byte) :=
  match sendIrq argv with
  | .ok b => some [b]
  | .error _ => none

theorem name_reset_of_reset {b : Byte} (h : (b.toNat : ℤ) = Exception.reset) :
    armGetExceptionName b = some ⟨ascii "reset", by decide⟩ := by
  obtain rfl : b = 1 := BitVec.eq_of_toNat_eq (Int.ofNat_inj.mp h)
  rfl

/-- **`send_irq` does not disturb the debugger** unless it is asked for a reset: whatever
clients connect, and whenever their bytes come, a connection that the debugger has ended has
been what the scanner makes of it. -/
theorem simulator_clients (cuts : Cuts) (arm : ArmCore) (target : Endian) (garbage : ℕ → Byte)
    (buffer : Vector Byte maxErrorSize) (ls : List Lexeme) (clients : List (List CString))
    (hclients : ∀ argv ∈ clients, argv[3]? ≠ some ⟨ascii "reset", by decide⟩) {c : Simulator}
    (h : (simulator cuts).Reaches
      (started arm target garbage buffer ls (clients.filterMap sent)) c)
    (hend : c.gdb.place = .ended) :
    gdbScanner arm target garbage buffer ls = finish c.shared c.gdb c.irq := by
  have hirqs : ∀ b ∈ (clients.filterMap sent).flatten, (b.toNat : ℤ) ≠ Exception.reset := by
    intro b hb hreset
    obtain ⟨bs, hbs, hmem⟩ := List.mem_flatten.mp hb
    obtain ⟨argv, hargv, hsent⟩ := List.mem_filterMap.mp hbs
    cases hs : sendIrq argv with
    | error status =>
      rw [sent, hs] at hsent
      cases hsent
    | ok b' =>
      rw [sent, hs] at hsent
      cases hsent
      obtain rfl := List.mem_singleton.mp hmem
      rcases sendIrq_ok_iff.mp hs with ⟨-, rfl⟩ | ⟨name, harg, hname⟩
      · exact absurd hreset (by decide)
      · rw [name_reset_of_reset hreset] at hname
        exact hclients argv hargv (harg.trans hname.symm)
  obtain ⟨done, hdone, hrun⟩ := (stage_of_reaches h).without_reset hirqs
  rw [GdbListener.todo, hend, List.append_nil] at hdone
  rw [gdbScanner_eq, ← hdone, hrun]

/-- A client without a third argument, and a debugger that writes r1. -/
theorem simulator_clients_default :
    sent [⟨ascii "send_irq", by decide⟩, ⟨ascii "localhost", by decide⟩, ⟨ascii "4000", by decide⟩] =
        some [6] ∧
      ∃ c : Simulator, armReadRegister c.shared 1 = 5 ∧
        (simulator smallSteps).Reaches (startedWith 6) c ∧
        gdbScanner (coreOfWord 0) .little (fun _ => 0) (.replicate _ 0) [.token setR1] =
          finish c.shared c.gdb c.irq := by
  obtain ⟨r, h1, hend⟩ := reaches_end
  exact ⟨rfl, _, h1, hend, simulator_clients smallSteps _ _ _ _ _
    [[⟨ascii "send_irq", by decide⟩, ⟨ascii "localhost", by decide⟩, ⟨ascii "4000", by decide⟩]]
    (by simp) hend rfl⟩

end Armator
