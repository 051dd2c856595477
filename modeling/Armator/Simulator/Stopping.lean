import Armator.Simulator.Serial

/-!
# Where the threads come to an end

A thread of the simulator waits for the lock only while the other one has work to do with
it.  So the two threads stop where both have come to the end of their input, or where the
debugger's thread stops the process; and then the one program stops as well, for the same
reason (`simulator_stuck`).
-/

namespace Armator

open Relation (ReflTransGen)
open Locking (Prog)
open Run (ok_bind error_bind)

inductive GdbListener.Stops (p : ArmCore) : GdbListener → Stop → Prop
  | lexeme {data : ParserData} {x : Lexeme} {rest : List Lexeme} {e : Stop}
    (h : ruleToLock data (some x) = .error e) : Stops p ⟨data, x :: rest, .scanning⟩ e
  | eof {data : ParserData} {e : Stop} (h : ruleToLock data none = .error e) :
    Stops p ⟨data, [], .scanning⟩ e
  | handling {data : ParserData} {rest : List Lexeme} {f : Gdb → Except Stop Gdb}
    {next : Gdb → Prog Stop Gdb} {e : Stop} (h : f (data.gdb.withArm p) = .error e) :
    Stops p ⟨data, rest, .handling (.atom f next)⟩ e

section

variable {start : ParserData} {rules : List (Option Lexeme)} {irqs : List Byte} {s : Simulator}

theorem Stage.exception (h : Stage start rules irqs s) :
    ∃ p, ∀ g, finish s.shared g s.irq = finish p g ⟨[], .reading⟩ := by
  cases h with
  | free _ h => exact ⟨s.shared, fun g => finish_of_outside h.outside⟩
  | gdb _ h => exact ⟨s.shared, fun g => finish_of_outside h.outside⟩
  | @irq q _ b _ _ h hi hrun =>
    rw [hi]
    exact ⟨armException q b, fun g => finish_exception hrun⟩

theorem Stage.stops_scanning (h : Stage start rules irqs s) {data : ParserData} {rest : List Lexeme}
    (hg : s.gdb = ⟨data, rest, .scanning⟩) {x : Option Lexeme} {todo : List (Option Lexeme)}
    (htodo : s.gdb.todo = x :: todo) {e : Stop} (he : ruleToLock data x = .error e) :
    ∃ es, rulesOf es <+: rules ∧ irqsOf es <+: irqs ∧ Run.run onEvent start es = .error e := by
  obtain ⟨p, hp⟩ := h.exception
  obtain ⟨es, hrules, hirqs, hes⟩ := h.events
  rw [htodo] at hrules
  refine ⟨es ++ [.rule x], ⟨todo, ?_⟩, ⟨s.irq.todo, ?_⟩, ?_⟩
  · rw [rulesOf_rule, List.append_assoc]
    exact hrules
  · rw [irqsOf_rule]
    exact hirqs
  · have hd : finish s.shared s.gdb s.irq = .ok (data.withArm p) := by
      rw [hp, hg]
      rfl
    rw [Run.run_concat, hes, hd, ok_bind, onEvent, onRule_eq, ruleToLock_withArm, he]
    rfl

/-- **Where the debugger's thread stops, the one program stops.** -/
theorem Stage.stops (h : Stage start rules irqs s) {e : Stop} (hs : s.gdb.Stops s.shared e) :
    ∃ es, rulesOf es <+: rules ∧ irqsOf es <+: irqs ∧ Run.run onEvent start es = .error e := by
  generalize hg : s.gdb = g at hs
  cases hs with
  | @lexeme data x rest _ he =>
    have htodo : s.gdb.todo = some x :: (rest.map some ++ [none]) := by
      rw [hg]
      rfl
    exact h.stops_scanning hg htodo he
  | @eof data _ he =>
    have htodo : s.gdb.todo = [none] := by
      rw [hg]
      rfl
    exact h.stops_scanning hg htodo he
  | @handling data rest f next _ he =>
    obtain ⟨p, hp⟩ := h.exception
    obtain ⟨es, hrules, hirqs, hes⟩ := h.events
    refine ⟨es, ⟨_, hrules⟩, ⟨_, hirqs⟩, hes.trans ?_⟩
    cases h with
    | free _ h =>
      obtain ⟨-, -, d, todo, -, -, hf, -⟩ := h
      rw [hg] at hf
      cases hf
    | gdb _ h =>
      rw [hg, finish_of_outside h.outside]
      change Except.map _ (f (data.gdb.withArm s.shared) >>= _) = _
      rw [he]
      rfl
    | irq _ h =>
      obtain ⟨-, -, d, todo, -, -, hf, -⟩ := h
      rw [hg] at hf
      cases hf

structure Simulator.Finished (s : Simulator) : Prop where
  lock : s.holder = none
  gdb : s.gdb.place = .ended
  irq : s.irq = ⟨[], .reading⟩

variable {cuts : Cuts}

theorem IrqListener.eq_of_no_own {i : IrqListener} (hplace : ∀ prog, i.place ≠ .handling prog)
    (hown : ∀ i', ¬ Own i i') (henter : ∀ i', ¬ Enter cuts i i') : i = ⟨[], .reading⟩ := by
  obtain ⟨connections, place⟩ := i
  cases place with
  | reading =>
    cases connections with
    | nil => rfl
    | cons bs connections =>
      cases bs with
      | nil => exact absurd .accept (hown _)
      | cons b bs => exact absurd .read (hown _)
  | locking b => exact absurd .lock (henter _)
  | handling prog => exact absurd rfl (hplace prog)

theorem GdbListener.stops_of_no_own {p : ArmCore} {data : ParserData} {rest : List Lexeme}
    (hown : ∀ g', ¬ Own ⟨data, rest, .scanning⟩ g') :
    ∃ e, GdbListener.Stops p ⟨data, rest, .scanning⟩ e := by
  cases rest with
  | nil =>
    cases he : ruleToLock data none with
    | error e => exact ⟨e, .eof he⟩
    | ok y => exact absurd (.eof he) (hown _)
  | cons x rest =>
    cases he : ruleToLock data (some x) with
    | error e => exact ⟨e, .lexeme he⟩
    | ok y => exact absurd (.lexeme he) (hown _)

/-- Where no thread can take a step, the lock is free or its holder stops the process. -/
theorem Stage.finished_or_stops (h : Stage start rules irqs s) (hs : (simulator cuts).Stuck s) :
    s.Finished ∨ ∃ e, s.gdb.Stops s.shared e := by
  cases h with
  | free hlock h =>
    have hgdb : s.holder ≠ some .gdb := by simp [hlock]
    have hirq : s.holder ≠ some .irq := by simp [hlock]
    have hown : ∀ g', ¬ GdbListener.Own s.gdb g' := fun _ => hs.not_own hgdb
    have henter : ∀ g', ¬ GdbListener.Enter cuts s.gdb g' := fun _ =>
      hs.not_enter (i := Thread.gdb) hlock
    obtain ⟨hout, es, d, todo, -, -, hf, -⟩ := h
    generalize hg : s.gdb = g at hf hown henter
    cases hf with
    | scanning => exact Or.inr (GdbListener.stops_of_no_own hown)
    | locking => exact absurd .lock (henter _)
    | ended =>
      refine Or.inl ⟨hlock, congrArg GdbListener.place hg, ?_⟩
      exact IrqListener.eq_of_no_own hout (fun _ => hs.not_own hirq) fun _ =>
        hs.not_enter (i := Thread.irq) hlock
  | @gdb q data data' rest prog c hlock h hg hwith hrun =>
    have hinside : ∀ p g', ¬ GdbListener.Inside (s.shared, s.gdb) (p, g') := fun _ _ =>
      hs.not_inside hlock
    have hleave : ∀ g', ¬ GdbListener.Leave s.gdb g' := fun _ => hs.not_leave hlock
    rw [hg] at hinside hleave ⊢
    cases prog with
    | done => exact absurd .unlock (hleave _)
    | atom f next =>
      cases he : f (data'.gdb.withArm s.shared) with
      | error e => exact Or.inr ⟨e, .handling he⟩
      | ok g' => exact absurd (.step (.atom he)) (hinside _ _)
  | @irq q connections b prog hlock h hi hrun =>
    have hinside : ∀ p i', ¬ IrqListener.Inside (s.shared, s.irq) (p, i') := fun _ _ =>
      hs.not_inside hlock
    have hleave : ∀ i', ¬ IrqListener.Leave s.irq i' := fun _ => hs.not_leave hlock
    rw [hi] at hinside hleave
    cases prog with
    | done => exact absurd .unlock (hleave _)
    | atom f next =>
      -- `arm_exception` does not fail
      cases he : f s.shared with
      | error e =>
        rw [Prog.run, he, error_bind] at hrun
        cases hrun
      | ok p => exact absurd (.step (.atom he)) (hinside _ _)

end

/-- **The threads do not block each other.**  Where neither can go on, both have come to the
end of their input, and the one program has taken all of it to the same state; or the
debugger's thread stops the process, as the one program does. -/
theorem simulator_stuck (cuts : Cuts) (arm : ArmCore) (target : Endian) (garbage : ℕ → Byte)
    (buffer : Vector Byte maxErrorSize) (ls : List Lexeme) (connections : List (List Byte))
    {c : Simulator}
    (h : (simulator cuts).Reaches (started arm target garbage buffer ls connections) c)
    (hs : (simulator cuts).Stuck c) :
    (c.Finished ∧ ∃ es, rulesOf es = ls.map some ++ [none] ∧ irqsOf es = connections.flatten ∧
      Run.run onEvent ⟨gdbInitData arm target garbage, buffer, 0⟩ es =
        .ok (c.gdb.data.withArm c.shared)) ∨
    ∃ e, c.gdb.Stops c.shared e ∧ ∃ es, rulesOf es <+: ls.map some ++ [none] ∧
      irqsOf es <+: connections.flatten ∧
      Run.run onEvent ⟨gdbInitData arm target garbage, buffer, 0⟩ es = .error e := by
  have hstage := stage_of_reaches h
  rcases hstage.finished_or_stops hs with hf | ⟨e, he⟩
  · obtain ⟨es, hrules, hirqs, hes⟩ := hstage.events
    refine Or.inl ⟨hf, es, ?_, ?_, hes.trans ?_⟩
    · rw [← hrules, GdbListener.todo, hf.gdb, List.append_nil]
    · rw [← hirqs, hf.irq]
      exact (List.append_nil _).symm
    · rw [hf.irq, finish]
      dsimp only
      rw [hf.gdb]
      rfl
  · exact Or.inr ⟨e, he, hstage.stops he⟩

/-- After an interrupt, a packet that writes r1 and the end of the debugger's connection. -/
theorem simulator_stuck_end :
    ∃ c : Simulator, armReadRegister c.shared 1 = 5 ∧
      (simulator smallSteps).Reaches (startedWith 6) c ∧ (simulator smallSteps).Stuck c ∧
      ((c.Finished ∧ ∃ es, rulesOf es = [some (.token setR1), none] ∧ irqsOf es = [6] ∧
        Run.run onEvent freshData es = .ok (c.gdb.data.withArm c.shared)) ∨
      ∃ e, c.gdb.Stops c.shared e ∧ ∃ es, rulesOf es <+: [some (.token setR1), none] ∧
        irqsOf es <+: [6] ∧ Run.run onEvent freshData es = .error e) := by
  obtain ⟨r, h1, hend⟩ := reaches_end
  have hstuck : (simulator smallSteps).Stuck
      ⟨r.arm, threadsOf ⟨acknowledged.withGdb r, [], .ended⟩ ⟨[], .reading⟩, none⟩ := by
    intro c' hstep
    cases hstep with
    | @own _ _ _ i _ _ h => cases i <;> cases h
    | @enter _ _ i _ h => cases i <;> cases h
  exact ⟨_, h1, hend, hstuck, simulator_stuck smallSteps _ _ _ _ _ _ hend hstuck⟩

end Armator
