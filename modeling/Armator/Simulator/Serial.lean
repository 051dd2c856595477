import Armator.Gdb.Session
import Armator.Gdb.Wire
import Armator.Simulator

/-!
# The threads run as one

What the two threads do together is what one program does that takes the lexemes of the
debugger and the interrupts one by one, each thread's in their order (`simulator_serial`).
No interrupt comes in the middle of a handler; a `c` packet that is executing keeps them
waiting until its breakpoint.
-/

namespace Armator

open Relation (ReflTransGen)
open Locking (Prog)
open Text (ascii)
open Run (ok_bind error_bind)

/-! ### The lock and the rules of the scanner -/

/-- A rule of the scanner, `none` for `<<EOF>>`. -/
def onRule (data : ParserData) : Option Lexeme → Except Stop ParserData
  | some x => onLexeme data x
  | none => handleError data

/-- The call of the handler, if there is one. -/
def callNext : ParserData × Option Call → Except Stop ParserData
  | (data, none) => .ok data
  | (data, some c) => (c.run data.gdb).map data.withGdb

theorem gdbPacketAnalysis_eq (l : Locals) (gdb : Gdb) (packet : List Byte) (length : ℕ) :
    gdbPacketAnalysis l gdb packet length = packetToLock l gdb packet length >>= fun x =>
      match x.2 with
      | none => .ok x.1
      | some c => c.run x.1 := by
  rw [gdbPacketAnalysis, packetToLock]
  dsimp only
  rw [bind_assoc]
  refine bind_congr fun s => ?_
  split
  next =>
    rw [bind_assoc]
    refine bind_congr fun g => ?_
    rw [gdbDispatch]
    generalize handler ((packet.set (max 1 (length - 3)) 0).getD 1 0) = h
    cases h with
    | some h => rfl
    | none =>
      dsimp only
      rw [bind_assoc]
      exact (bind_pure _).symm
  next =>
    rw [bind_assoc]
    exact (bind_pure _).symm

theorem onToken_eq (gdb : Gdb) (t : Token) :
    onToken gdb t = tokenToLock gdb t >>= fun x =>
      match x.2 with
      | none => .ok x.1
      | some c => c.run x.1 := by
  cases t with
  | ack => rfl
  | nack =>
    rw [onToken, tokenToLock, bind_assoc]
    exact (bind_pure _).symm
  | packet p behind l => exact gdbPacketAnalysis_eq l gdb _ _

/-- **A rule is what it does without the lock, and then the call.** -/
theorem onRule_eq (data : ParserData) (x : Option Lexeme) :
    onRule data x = ruleToLock data x >>= callNext := by
  cases x with
  | none =>
    rw [ruleToLock, bind_assoc]
    exact (bind_pure _).symm
  | some x =>
    cases x with
    | token t =>
      rw [onRule, onLexeme, ruleToLock, bind_assoc]
      refine bind_congr fun d => ?_
      rw [onToken_eq, bind_assoc, bind_assoc]
      refine bind_congr fun y => ?_
      obtain ⟨g, call⟩ := y
      cases call with
      | none => rfl
      | some c =>
        change (c.run g >>= fun g' => pure (d.withGdb g')) = (c.run g).map d.withGdb
        cases c.run g <;> rfl
    | other c =>
      rw [onRule, onLexeme, ruleToLock, bind_assoc]
      exact (bind_pure _).symm
    | newline => rfl

/-! ### Outside the lock the core does not matter -/

/-- The same state of the scanner, with another core. -/
def ParserData.moved (f : ArmCore → ArmCore) (data : ParserData) : ParserData :=
  data.withGdb (data.gdb.moved f [])

section

variable (f : ArmCore → ArmCore) (gdb : Gdb) (data : ParserData)

theorem handleError_moved : handleError (data.moved f) = (handleError data).map (·.moved f) := by
  rw [handleError, handleError]
  simp only [show (data.moved f).len = data.len from rfl]
  split
  next =>
    rw [Run.map_bind]
    refine bind_congr fun buffer => ?_
    rw [show (data.moved f).gdb = data.gdb.moved f [] from rfl, gdbRequireRetransmission,
      gdbRequireRetransmission, rioWriten_moved, Run.bind_map, Run.map_bind]
    rfl
  next => rfl

theorem addCharacterToError_moved (c : Byte) :
    addCharacterToError (data.moved f) c = (addCharacterToError data c).map (·.moved f) := by
  rw [addCharacterToError, addCharacterToError]
  simp only [show (data.moved f).len = data.len from rfl]
  split
  next =>
    rw [handleError_moved, Run.bind_map, Run.map_bind]
    refine bind_congr fun d => ?_
    rw [Run.map_bind]
    rfl
  next =>
    rw [pure_bind, pure_bind, Run.map_bind]
    rfl

theorem packetToLock_moved (l : Locals) (packet : List Byte) (length : ℕ) :
    packetToLock l (gdb.moved f []) packet length =
      (packetToLock l gdb packet length).map (Prod.map (·.moved f []) id) := by
  rw [packetToLock, packetToLock, Run.map_bind]
  refine bind_congr fun s => ?_
  dsimp only
  split
  next =>
    rw [gdbSendAck, gdbSendAck, rioWriten_moved, Run.bind_map, Run.map_bind]
    refine bind_congr fun g => ?_
    split
    next => rfl
    next =>
      rw [gdbSendData_moved, Run.bind_map, Run.map_bind]
      rfl
  next =>
    rw [gdbRequireRetransmission, gdbRequireRetransmission, rioWriten_moved, Run.bind_map,
      Run.map_bind]
    rfl

theorem tokenToLock_moved (t : Token) :
    tokenToLock (gdb.moved f []) t = (tokenToLock gdb t).map (Prod.map (·.moved f []) id) := by
  cases t with
  | ack => rfl
  | nack =>
    rw [tokenToLock, tokenToLock, Run.map_bind, gdbTransmitPacket, gdbTransmitPacket,
      show (gdb.moved f []).stored = gdb.stored from rfl, rioWriten_moved, Run.bind_map]
    rfl
  | packet q behind l => exact packetToLock_moved f gdb l _ _

/-- **What is done without the lock is done whatever the core.** -/
theorem ruleToLock_moved (x : Option Lexeme) :
    ruleToLock (data.moved f) x = (ruleToLock data x).map (Prod.map (·.moved f) id) := by
  cases x with
  | none =>
    rw [ruleToLock, ruleToLock, handleError_moved, Run.bind_map, Run.map_bind]
    rfl
  | some x =>
    cases x with
    | token t =>
      rw [ruleToLock, ruleToLock, handleError_moved, Run.bind_map, Run.map_bind]
      refine bind_congr fun d => ?_
      rw [show (d.moved f).gdb = d.gdb.moved f [] from rfl, tokenToLock_moved, Run.bind_map,
        Run.map_bind]
      rfl
    | other c =>
      rw [ruleToLock, ruleToLock, addCharacterToError_moved, Run.bind_map, Run.map_bind]
      rfl
    | newline => rfl

theorem ruleToLock_withArm (p : ArmCore) (x : Option Lexeme) :
    ruleToLock (data.withArm p) x = (ruleToLock data x).map (Prod.map (·.withArm p) id) :=
  ruleToLock_moved (fun _ => p) data x

@[simp] theorem ParserData.withArm_self : data.withArm data.gdb.arm = data := rfl

end

/-! ### The one program -/

/-- What the one program takes next: a rule of the scanner or an interrupt. -/
inductive Event
  | rule (x : Option Lexeme)
  | irq (b : Byte)

def Event.rule? : Event → Option (Option Lexeme)
  | rule x => some x
  | irq _ => none

def Event.irq? : Event → Option Byte
  | rule _ => none
  | irq b => some b

def rulesOf (es : List Event) : List (Option Lexeme) := es.filterMap Event.rule?

def irqsOf (es : List Event) : List Byte := es.filterMap Event.irq?

@[simp] theorem rulesOf_rule (es : List Event) (x : Option Lexeme) :
    rulesOf (es ++ [.rule x]) = rulesOf es ++ [x] := List.filterMap_append

@[simp] theorem rulesOf_irq (es : List Event) (b : Byte) :
    rulesOf (es ++ [.irq b]) = rulesOf es := by
  rw [rulesOf, List.filterMap_append]
  exact List.append_nil _

@[simp] theorem irqsOf_rule (es : List Event) (x : Option Lexeme) :
    irqsOf (es ++ [.rule x]) = irqsOf es := by
  rw [irqsOf, List.filterMap_append]
  exact List.append_nil _

@[simp] theorem irqsOf_irq (es : List Event) (b : Byte) :
    irqsOf (es ++ [.irq b]) = irqsOf es ++ [b] := List.filterMap_append

def onEvent (data : ParserData) : Event → Except Stop ParserData
  | .rule x => onRule data x
  | .irq b => .ok (data.withArm (armException data.gdb.arm b))

/-- The rules that the thread has not begun. -/
def GdbListener.todo (g : GdbListener) : List (Option Lexeme) :=
  match g.place with
  | .ended => []
  | _ => g.rest.map some ++ [none]

/-- The interrupts for which the thread has not taken the lock. -/
def IrqListener.todo (i : IrqListener) : List Byte :=
  match i.place with
  | .locking b => b :: i.connections.flatten
  | _ => i.connections.flatten

/-- What comes of a core and two threads, when the section and then the rule that are under
way come to their ends. -/
def finish (p : ArmCore) (g : GdbListener) (i : IrqListener) : Except Stop ParserData := do
  let p ← match i.place with
    | .handling prog => prog.run p
    | _ => .ok p
  match g.place with
  | .locking c => callNext (g.data.withArm p, some c)
  | .handling prog => (prog.run (g.data.gdb.withArm p)).map g.data.withGdb
  | _ => .ok (g.data.withArm p)

/-- The state `d` of the one program, and where the debugger's thread is then.  It may have
done some of the next rule. -/
inductive Follows (d : ParserData) : GdbListener → List (Option Lexeme) → Prop
  | scanning {data : ParserData} {rest : List Lexeme} (h : data.withArm d.gdb.arm = d) :
    Follows d ⟨data, rest, .scanning⟩ (rest.map some ++ [none])
  | locking {data : ParserData} {rest : List Lexeme} {x : Option Lexeme} {c : Call}
    (h : ruleToLock d x = .ok (data.withArm d.gdb.arm, some c)) :
    Follows d ⟨data, rest, .locking c⟩ (x :: (rest.map some ++ [none]))
  | ended {data : ParserData} (h : data.withArm d.gdb.arm = d) : Follows d ⟨data, [], .ended⟩ []

/-- No thread is in a section, and the one program has come to where they are. -/
structure Sequential (start : ParserData) (rules : List (Option Lexeme)) (irqs : List Byte)
    (p : ArmCore) (g : GdbListener) (i : IrqListener) : Prop where
  outside : ∀ prog, i.place ≠ .handling prog
  run : ∃ es d todo, Run.run onEvent start es = .ok d ∧ d.gdb.arm = p ∧ Follows d g todo ∧
    rulesOf es ++ todo = rules ∧ irqsOf es ++ i.todo = irqs

section

variable {start : ParserData} {rules : List (Option Lexeme)} {irqs : List Byte} {p q : ArmCore}
  {g g' : GdbListener} {i i' : IrqListener}

theorem Follows.withArm {d : ParserData} {todo : List (Option Lexeme)} (h : Follows d g todo)
    (q : ArmCore) : Follows (d.withArm q) g todo := by
  cases h with
  | scanning h =>
    refine .scanning ?_
    rw [← h]
    rfl
  | locking h =>
    refine .locking ?_
    rw [ruleToLock_withArm, h]
    rfl
  | ended h =>
    refine .ended ?_
    rw [← h]
    rfl

/-- The debugger's thread has done a rule that needs no lock, or it has come to the lock. -/
theorem Sequential.own_gdb (h : Sequential start rules irqs p g i) (hs : GdbListener.Own g g') :
    Sequential start rules irqs p g' i := by
  obtain ⟨hout, es, d, todo, hrun, rfl, hf, hrules, hirqs⟩ := h
  refine ⟨hout, ?_⟩
  have hnext : ∀ {data d' : ParserData} {x : Option Lexeme}, data.withArm d.gdb.arm = d →
      ruleToLock data x = .ok (d', none) → Run.run onEvent start (es ++ [.rule x]) =
        .ok (d'.withArm d.gdb.arm) := by
    intro data d' x hd hx
    refine Run.run_concat_of_ok hrun ?_
    rw [onEvent, onRule_eq, ← hd, ruleToLock_withArm, hx]
    rfl
  cases hs with
  | @lexeme data d' x rest call hx =>
    cases hf with
    | scanning hd =>
      cases call with
      | none =>
        refine ⟨es ++ [.rule (some x)], d'.withArm d.gdb.arm, _, hnext hd hx, rfl, .scanning rfl,
          ?_, ?_⟩
        · rw [rulesOf_rule, List.append_assoc]
          exact hrules
        · rw [irqsOf_rule]
          exact hirqs
      | some c =>
        refine ⟨es, d, _, hrun, rfl, .locking ?_, hrules, hirqs⟩
        rw [← hd, ruleToLock_withArm, hx]
        rfl
  | @eof data d' call hx =>
    cases hf with
    | scanning hd =>
      obtain rfl : call = none := by
        rw [ruleToLock] at hx
        cases he : handleError data with
        | error e => rw [he, error_bind] at hx; cases hx
        | ok d'' => rw [he, ok_bind] at hx; cases hx; rfl
      refine ⟨es ++ [.rule none], d'.withArm d.gdb.arm, _, hnext hd hx, rfl, .ended rfl, ?_, ?_⟩
      · rw [rulesOf_rule, List.append_assoc]
        exact hrules
      · rw [irqsOf_rule]
        exact hirqs

theorem Sequential.own_irq (h : Sequential start rules irqs p g i) (hs : IrqListener.Own i i') :
    Sequential start rules irqs p g i' := by
  obtain ⟨hout, es, d, todo, hrun, hp, hf, hrules, hirqs⟩ := h
  cases hs with
  | accept => exact ⟨nofun, es, d, todo, hrun, hp, hf, hrules, hirqs⟩
  | read => exact ⟨nofun, es, d, todo, hrun, hp, hf, hrules, hirqs⟩

/-- An interrupt. -/
theorem Sequential.exception {b : Byte} {connections : List (List Byte)}
    (h : Sequential start rules irqs p g ⟨connections, .locking b⟩) :
    Sequential start rules irqs (armException p b) g ⟨connections, .reading⟩ := by
  obtain ⟨-, es, d, todo, hrun, rfl, hf, hrules, hirqs⟩ := h
  refine ⟨nofun, es ++ [.irq b], _, todo, Run.run_concat_of_ok hrun rfl, rfl, hf.withArm _, ?_, ?_⟩
  · rw [rulesOf_irq]
    exact hrules
  · rw [irqsOf_irq, List.append_assoc]
    exact hirqs

/-- The call of a handler. -/
theorem Sequential.call {data data' : ParserData} {rest : List Lexeme} {c : Call} {r : Gdb}
    (h : Sequential start rules irqs p ⟨data, rest, .locking c⟩ i)
    (hc : c.run (data.gdb.withArm p) = .ok r) (hd : data'.withArm r.arm = data.withGdb r) :
    Sequential start rules irqs r.arm ⟨data', rest, .scanning⟩ i := by
  obtain ⟨hout, es, d, todo, hrun, rfl, hf, hrules, hirqs⟩ := h
  cases hf with
  | @locking _ _ x _ hx =>
    refine ⟨hout, es ++ [.rule x], data.withGdb r, _, Run.run_concat_of_ok hrun ?_, rfl,
      .scanning hd, ?_, ?_⟩
    · rw [onEvent, onRule_eq, hx, ok_bind, callNext,
        show (data.withArm d.gdb.arm).gdb = data.gdb.withArm d.gdb.arm from rfl, hc]
      rfl
    · rw [rulesOf_rule, List.append_assoc]
      exact hrules
    · rw [irqsOf_rule]
      exact hirqs

theorem finish_of_outside (h : ∀ prog, i.place ≠ .handling prog) :
    finish p g i = finish p g ⟨[], .reading⟩ := by
  obtain ⟨connections, place⟩ := i
  cases place with
  | reading => rfl
  | locking b => rfl
  | handling prog => exact absurd rfl (h prog)

/-- A handler that is under way comes to what the call comes to. -/
theorem finish_handling (h : ∀ prog, i.place ≠ .handling prog) {data data' : ParserData}
    {rest : List Lexeme} {prog : Prog Stop Gdb} {c : Call} (hw : data'.withGdb = data.withGdb)
    (hrun : prog.run (data'.gdb.withArm p) = c.run (data.gdb.withArm q)) :
    finish p ⟨data', rest, .handling prog⟩ i = finish q ⟨data, rest, .locking c⟩ i := by
  rw [finish_of_outside h, finish_of_outside h]
  change (prog.run (data'.gdb.withArm p)).map data'.withGdb =
    (c.run (data.gdb.withArm q)).map data.withGdb
  rw [hrun, hw]

theorem finish_exception {connections : List (List Byte)} {prog : Prog Stop ArmCore}
    (h : prog.run p = .ok q) :
    finish p g ⟨connections, .handling prog⟩ = finish q g ⟨connections, .reading⟩ := by
  rw [finish]
  dsimp only
  rw [h]
  rfl

/-- Where the one program has come to when what is under way is finished. -/
theorem Sequential.finish (h : Sequential start rules irqs p g i) :
    ∃ es, rulesOf es ++ g.todo = rules ∧ irqsOf es ++ i.todo = irqs ∧
      Run.run onEvent start es = finish p g i := by
  obtain ⟨hout, es, d, todo, hrun, rfl, hf, hrules, hirqs⟩ := h
  rw [finish_of_outside hout]
  cases hf with
  | scanning hd => exact ⟨es, hrules, hirqs, hrun.trans (congrArg Except.ok hd.symm)⟩
  | @locking data rest x c hx =>
    refine ⟨es ++ [.rule x], ?_, ?_, ?_⟩
    · rw [rulesOf_rule, List.append_assoc]
      exact hrules
    · rw [irqsOf_rule]
      exact hirqs
    · rw [Run.run_concat, hrun, ok_bind, onEvent, onRule_eq, hx]
      rfl
  | ended hd => exact ⟨es, hrules, hirqs, hrun.trans (congrArg Except.ok hd.symm)⟩

end

/-! ### The sections -/

/-- A handler that is under way leads where the call leads. -/
theorem GdbListener.inside {p q : ArmCore} {data : ParserData} {rest : List Lexeme}
    {prog : Prog Stop Gdb} {g : GdbListener}
    (h : ReflTransGen GdbListener.Inside (p, ⟨data, rest, .handling prog⟩) (q, g)) :
    ∃ data' prog', g = ⟨data', rest, .handling prog'⟩ ∧ data'.withGdb = data.withGdb ∧
      prog'.run (data'.gdb.withArm q) = prog.run (data.gdb.withArm p) := by
  generalize hx : (p, (⟨data, rest, .handling prog⟩ : GdbListener)) = x at h
  generalize hy : (q, g) = y at h
  induction h generalizing q g with
  | refl =>
    obtain ⟨rfl, rfl⟩ := Prod.mk.inj (hy.trans hx.symm)
    exact ⟨data, prog, rfl, rfl, rfl⟩
  | @tail z _ _ hs ih =>
    subst hy
    obtain ⟨data', prog', hg, hwith, hrun⟩ := ih (q := z.1) (g := z.2) rfl
    cases hs with
    | @step p' data'' rest' prog₁ prog₂ g' hstep =>
      obtain ⟨rfl, rfl, hplace⟩ := GdbListener.mk.inj hg
      cases hplace
      exact ⟨_, prog₂, rfl, hwith, (Prog.run_of_steps (.single hstep)).symm.trans hrun⟩

theorem IrqListener.inside {p q : ArmCore} {connections : List (List Byte)}
    {prog : Prog Stop ArmCore} {i : IrqListener}
    (h : ReflTransGen IrqListener.Inside (p, ⟨connections, .handling prog⟩) (q, i)) :
    ∃ prog', i = ⟨connections, .handling prog'⟩ ∧ prog'.run q = prog.run p := by
  generalize hx : (p, (⟨connections, .handling prog⟩ : IrqListener)) = x at h
  generalize hy : (q, i) = y at h
  induction h generalizing q i with
  | refl =>
    obtain ⟨rfl, rfl⟩ := Prod.mk.inj (hy.trans hx.symm)
    exact ⟨prog, rfl, rfl⟩
  | @tail z _ _ hs ih =>
    subst hy
    obtain ⟨prog', hi, hrun⟩ := ih (q := z.1) (i := z.2) rfl
    cases hs with
    | @step p' q' connections' prog₁ prog₂ hstep =>
      obtain ⟨rfl, hplace⟩ := IrqListener.mk.inj hi
      cases hplace
      exact ⟨prog₂, rfl, (Prog.run_of_steps (.single hstep)).symm.trans hrun⟩

variable {cuts : Cuts} {start : ParserData} {rules : List (Option Lexeme)} {irqs : List Byte}

/-- **What a serial step keeps**: the one program follows. -/
theorem Sequential.serial {x y : ArmCore × ((i : Thread) → i.State)}
    (hs : (simulator cuts).Serial x y)
    (h : Sequential start rules irqs x.1 (x.2 .gdb) (x.2 .irq)) :
    Sequential start rules irqs y.1 (y.2 .gdb) (y.2 .irq) := by
  cases hs with
  | @own p ts i t hown =>
    cases i with
    | gdb => exact h.own_gdb hown
    | irq => exact h.own_irq hown
  | @«section» p q ts i t t' u henter hinside hleave =>
    cases i with
    | gdb =>
      change Sequential start rules irqs q u (ts .irq)
      generalize hg : ts .gdb = g at henter
      dsimp only at h
      rw [hg] at h
      cases henter with
      | @lock data rest c =>
        obtain ⟨data', prog', rfl, hwith, hrun⟩ := GdbListener.inside hinside
        cases hleave with
        | unlock =>
          rw [cuts.run_call] at hrun
          exact h.call (r := data'.gdb.withArm q) hrun.symm (congrFun hwith _)
    | irq =>
      change Sequential start rules irqs q (ts .gdb) u
      generalize hi : ts .irq = i at henter
      dsimp only at h
      rw [hi] at h
      cases henter with
      | @lock connections b =>
        obtain ⟨prog', rfl, hrun⟩ := IrqListener.inside hinside
        cases hleave with
        | unlock =>
          rw [cuts.run_exception] at hrun
          obtain rfl : q = armException p b := Except.ok.inj hrun
          exact h.exception

theorem Sequential.serials {x y : ArmCore × ((i : Thread) → i.State)}
    (hs : ReflTransGen (simulator cuts).Serial x y)
    (h : Sequential start rules irqs x.1 (x.2 .gdb) (x.2 .irq)) :
    Sequential start rules irqs y.1 (y.2 .gdb) (y.2 .irq) := by
  induction hs with
  | refl => exact h
  | tail _ hs ih => exact ih.serial hs

theorem sequential_started (arm : ArmCore) (target : Endian) (garbage : ℕ → Byte)
    (buffer : Vector Byte maxErrorSize) (ls : List Lexeme) (connections : List (List Byte)) :
    Sequential ⟨gdbInitData arm target garbage, buffer, 0⟩ (ls.map some ++ [none])
      connections.flatten arm (started arm target garbage buffer ls connections).gdb
      (started arm target garbage buffer ls connections).irq :=
  ⟨nofun, [], _, _, rfl, rfl, .scanning rfl, rfl, rfl⟩

/-- Where the one program is, when the lock is free and when a thread is in its section. -/
inductive Stage (start : ParserData) (rules : List (Option Lexeme)) (irqs : List Byte)
    (s : Simulator) : Prop
  | free (hlock : s.holder = none) (h : Sequential start rules irqs s.shared s.gdb s.irq)
  | gdb {q : ArmCore} {data data' : ParserData} {rest : List Lexeme} {prog : Prog Stop Gdb} {c : Call}
    (hlock : s.holder = some .gdb)
    (h : Sequential start rules irqs q ⟨data, rest, .locking c⟩ s.irq)
    (hg : s.gdb = ⟨data', rest, .handling prog⟩) (hwith : data'.withGdb = data.withGdb)
    (hrun : prog.run (data'.gdb.withArm s.shared) = c.run (data.gdb.withArm q))
  | irq {q : ArmCore} {connections : List (List Byte)} {b : Byte} {prog : Prog Stop ArmCore}
    (hlock : s.holder = some .irq)
    (h : Sequential start rules irqs q s.gdb ⟨connections, .locking b⟩)
    (hi : s.irq = ⟨connections, .handling prog⟩) (hrun : prog.run s.shared = .ok (armException q b))

theorem stage_of_reaches {arm : ArmCore} {target : Endian} {garbage : ℕ → Byte}
    {buffer : Vector Byte maxErrorSize} {ls : List Lexeme} {connections : List (List Byte)}
    {c : Simulator}
    (h : (simulator cuts).Reaches (started arm target garbage buffer ls connections) c) :
    Stage ⟨gdbInitData arm target garbage, buffer, 0⟩ (ls.map some ++ [none]) connections.flatten
      c := by
  have hstart := sequential_started arm target garbage buffer ls connections
  have hser := Locking.serialised_of_reaches h
  obtain ⟨p, ts, holder⟩ := c
  cases holder with
  | none => exact .free rfl (Sequential.serials hser hstart)
  | some i =>
    obtain ⟨q, t₀, t, hserial, henter, hinside⟩ := hser
    have hseq := Sequential.serials hserial hstart
    cases i with
    | gdb =>
      change Sequential _ _ _ q t₀ (ts .irq) at hseq
      cases henter with
      | @lock data rest call =>
        obtain ⟨data', prog', hg, hwith, hrun⟩ := GdbListener.inside hinside
        rw [cuts.run_call] at hrun
        exact .gdb rfl hseq hg hwith hrun
    | irq =>
      change Sequential _ _ _ q (ts .gdb) t₀ at hseq
      cases henter with
      | @lock rest b =>
        obtain ⟨prog', hi, hrun⟩ := IrqListener.inside hinside
        rw [cuts.run_exception] at hrun
        exact .irq rfl hseq hi hrun

theorem Stage.events {s : Simulator} (h : Stage start rules irqs s) :
    ∃ es, rulesOf es ++ s.gdb.todo = rules ∧ irqsOf es ++ s.irq.todo = irqs ∧
      Run.run onEvent start es = finish s.shared s.gdb s.irq := by
  cases h with
  | free _ h => exact h.finish
  | gdb _ h hg hwith hrun =>
    obtain ⟨es, hrules, hirqs, hes⟩ := h.finish
    rw [hg]
    exact ⟨es, hrules, hirqs, hes.trans (finish_handling h.outside hwith hrun).symm⟩
  | irq _ h hi hrun =>
    obtain ⟨es, hrules, hirqs, hes⟩ := h.exception.finish
    rw [hi]
    exact ⟨es, hrules, hirqs, hes.trans (finish_exception hrun).symm⟩

/-- **The two threads do what one program does.**  Wherever they have come to, in whatever
order and however finely the handlers and `arm_exception` are cut, there is a list of rules
and interrupts, those that each thread has begun in the order of the thread, on which the
one program comes to what comes of the configuration. -/
theorem simulator_serial (cuts : Cuts) (arm : ArmCore) (target : Endian) (garbage : ℕ → Byte)
    (buffer : Vector Byte maxErrorSize) (ls : List Lexeme) (connections : List (List Byte))
    {c : Simulator}
    (h : (simulator cuts).Reaches (started arm target garbage buffer ls connections) c) :
    ∃ es, rulesOf es ++ c.gdb.todo = ls.map some ++ [none] ∧
      irqsOf es ++ c.irq.todo = connections.flatten ∧
      Run.run onEvent ⟨gdbInitData arm target garbage, buffer, 0⟩ es =
        finish c.shared c.gdb c.irq :=
  (stage_of_reaches h).events

/-! ### A way of cutting -/

/-- The two writes of a reset. -/
def exceptionWrites (irq : Byte) : Prog Stop ArmCore :=
  if (irq.toNat : Int) = Exception.reset then
    .atom (fun p => .ok (armWriteCpsr p resetCpsr)) fun _ =>
      .single fun p => .ok (armWriteUsrRegister p 15 0)
  else .done

/-- `cont`, where looking at the next instruction and executing it are steps of their own. -/
def contSteps : ℕ → Word → Prog Stop Gdb
  | 0, _ => .single fun _ => .error .looping
  | fuel + 1, instruction => .atom .ok fun gdb =>
    let r15 := armReadRegister gdb.arm 15 - 4
    let instruction := (armReadWord gdb.arm r15).getD instruction
    if instruction &&& 0xFFF000F0 = 0xE7F000F0 then .single gdbSendStopReason
    else .atom gdbStep fun _ => contSteps fuel instruction

theorem run_contSteps (fuel : ℕ) (instruction : Word) (gdb : Gdb) :
    (contSteps fuel instruction).run gdb = contLoop fuel gdb instruction >>= gdbSendStopReason := by
  induction fuel generalizing instruction gdb with
  | zero => rfl
  | succ fuel ih =>
    rw [contSteps, Prog.run, ok_bind, contLoop]
    dsimp only
    split
    next => exact congrFun (Prog.run_single _) gdb
    next =>
      rw [Prog.run, bind_assoc]
      exact bind_congr fun g => ih _ g

/-- Every instruction of `cont` and every write of a reset for itself. -/
def smallSteps : Cuts where
  call c :=
    match c.handler with
    | .cont => contSteps c.locals.fuel (c.locals.junk 0)
    | _ => .single c.run
  run_call c := by
    obtain ⟨h, l, data⟩ := c
    cases h with
    | cont =>
      funext gdb
      exact run_contSteps _ _ gdb
    | _ => exact Prog.run_single _
  exception := exceptionWrites
  run_exception irq p := by
    rw [exceptionWrites, armException]
    split <;> rfl

section

variable {p q : ArmCore} {g g' : GdbListener} {i i' : IrqListener} {holder : Option Thread}

theorem step_own_gdb (h : GdbListener.Own g g') (hi : holder ≠ some .gdb) :
    (simulator cuts).Step ⟨p, threadsOf g i, holder⟩ ⟨p, threadsOf g' i, holder⟩ := by
  rw [← update_threadsOf_gdb g g' i]
  exact .own hi h

theorem step_enter_gdb (h : GdbListener.Enter cuts g g') :
    (simulator cuts).Step ⟨p, threadsOf g i, none⟩ ⟨p, threadsOf g' i, some .gdb⟩ := by
  rw [← update_threadsOf_gdb g g' i]
  exact .enter h

theorem step_inside_gdb (h : GdbListener.Inside (p, g) (q, g')) :
    (simulator cuts).Step ⟨p, threadsOf g i, some .gdb⟩ ⟨q, threadsOf g' i, some .gdb⟩ := by
  rw [← update_threadsOf_gdb g g' i]
  exact .inside h

theorem step_leave_gdb (h : GdbListener.Leave g g') :
    (simulator cuts).Step ⟨p, threadsOf g i, some .gdb⟩ ⟨p, threadsOf g' i, none⟩ := by
  rw [← update_threadsOf_gdb g g' i]
  exact .leave h

theorem step_own_irq (h : IrqListener.Own i i') (hi : holder ≠ some .irq) :
    (simulator cuts).Step ⟨p, threadsOf g i, holder⟩ ⟨p, threadsOf g i', holder⟩ := by
  rw [← update_threadsOf_irq g i i']
  exact .own hi h

theorem step_enter_irq (h : IrqListener.Enter cuts i i') :
    (simulator cuts).Step ⟨p, threadsOf g i, none⟩ ⟨p, threadsOf g i', some .irq⟩ := by
  rw [← update_threadsOf_irq g i i']
  exact .enter h

theorem step_inside_irq (h : IrqListener.Inside (p, i) (q, i')) :
    (simulator cuts).Step ⟨p, threadsOf g i, some .irq⟩ ⟨q, threadsOf g i', some .irq⟩ := by
  rw [← update_threadsOf_irq g i i']
  exact .inside h

theorem step_leave_irq (h : IrqListener.Leave i i') :
    (simulator cuts).Step ⟨p, threadsOf g i, some .irq⟩ ⟨p, threadsOf g i', none⟩ := by
  rw [← update_threadsOf_irq g i i']
  exact .leave h

end

def freshData : ParserData := ⟨gdbInitData (coreOfWord 0) .little fun _ => 0, .replicate _ 0, 0⟩

/-- A packet that writes r1, and what it comes to at the lock. -/
def setR1 : Token := frameToken (ascii "P1=05000000") (by decide)

def setR1Call : Call :=
  ⟨.writeRegister, ⟨0, fun _ => 0, 0⟩, ascii "1=05000000" ++ 0 :: ascii "43" ++ [0]⟩

def acknowledged : ParserData := { freshData with gdb := { freshData.gdb with wire := ascii "+" } }

/-- The simulator that will get the packet and an interrupt. -/
def startedWith (b : Byte) : Simulator :=
  started (coreOfWord 0) .little (fun _ => 0) (.replicate _ 0) [.token setR1] [[b]]

/-- The packet comes while an interrupt has the lock. -/
theorem reaches_interrupted (b : Byte) :
    (simulator smallSteps).Reaches (startedWith b)
      ⟨coreOfWord 0, threadsOf ⟨acknowledged, [], .locking setR1Call⟩
        ⟨[[]], .handling (exceptionWrites b)⟩, some .irq⟩ := by
  have hread : (simulator smallSteps).Step (startedWith b) _ := step_own_irq .read (by decide)
  have hrule : ruleToLock freshData (some (.token setR1)) = .ok (acknowledged, some setR1Call) := rfl
  exact ((ReflTransGen.single hread).tail (step_enter_irq .lock)).tail
    (step_own_gdb (.lexeme hrule) (by decide))

theorem run_setR1Call :
    ∃ r : Gdb, setR1Call.run acknowledged.gdb = .ok r ∧ armReadRegister r.arm 1 = 5 :=
  ⟨_, rfl, by decide +kernel⟩

/-- After the interrupt the handler gets the lock, and then the debugger ends its connection. -/
theorem reaches_end :
    ∃ r : Gdb, armReadRegister r.arm 1 = 5 ∧ (simulator smallSteps).Reaches (startedWith 6)
      ⟨r.arm, threadsOf ⟨acknowledged.withGdb r, [], .ended⟩ ⟨[], .reading⟩, none⟩ := by
  obtain ⟨r, hr, h1⟩ := run_setR1Call
  refine ⟨r, h1, ?_⟩
  have hirq := ((reaches_interrupted 6).tail (step_leave_irq .unlock)).tail
    (step_own_irq .accept (by decide))
  have hcall := (hirq.tail (step_enter_gdb .lock)).tail (step_inside_gdb (.step (.atom hr)))
  have heof : GdbListener.Own ⟨acknowledged.withGdb r, [], .scanning⟩
      ⟨acknowledged.withGdb r, [], .ended⟩ :=
    .eof (show ruleToLock (acknowledged.withGdb r) none = .ok (acknowledged.withGdb r, none) from rfl)
  exact (hcall.tail (step_leave_gdb .unlock)).tail (step_own_gdb heof (by decide))

/-- A reset has written the CPSR and not yet the pc, and a packet is waiting. -/
theorem simulator_serial_reset :
    ∃ c : Simulator, (simulator smallSteps).Reaches (startedWith 1) c ∧
      c.shared = armWriteCpsr (coreOfWord 0) resetCpsr ∧
      ∃ es, rulesOf es ++ c.gdb.todo = [some (.token setR1), none] ∧ irqsOf es ++ c.irq.todo = [1] ∧
        Run.run onEvent freshData es = finish c.shared c.gdb c.irq := by
  have hwrite := (reaches_interrupted 1).tail (step_inside_irq (.step (.atom rfl)))
  exact ⟨_, hwrite, rfl, simulator_serial smallSteps _ _ _ _ _ _ hwrite⟩

end Armator
