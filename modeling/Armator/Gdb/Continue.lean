import Armator.Gdb.Effects
import Armator.Gdb.Session
import Armator.Machine.Closed

/-!
# Continuing

`cont` looks ahead at the next instruction and steps until it is a breakpoint.  Where
the look-ahead cannot be read, `instruction` keeps what it had, and before the first
read it has what its place in memory held.

* The loop ends at the first state of the run that has a breakpoint word at its fetch
  address, which single steps would have come to (`StopsAtBreakpoint`), unless it ends
  at once outside the memory on what `instruction` happened to hold: a word that was
  read once is no breakpoint, or the loop had ended (`endsAfter_cases`).  So it does
  what it should exactly when the first look-ahead can be read or the leftover word is
  no breakpoint (`stopsAtBreakpoint_iff`).
* The reply is the stop reason of the last exception, which the breakpoint does not
  set: it is the result of the last step of the whole session, in this command or in
  an earlier one (`session_targetException`), and S05 exactly when that was none of
  the three that are reported (`continue_reply_iff`).
-/

namespace Armator

open Text

/-! ### The loop -/

/-- A word that gdb places for a breakpoint. -/
def IsBreakpoint (w : Word) : Prop := w &&& 0xFFF000F0 = 0xE7F000F0

instance (w : Word) : Decidable (IsBreakpoint w) :=
  inferInstanceAs (Decidable (w &&& 0xFFF000F0 = 0xE7F000F0))

def lookAhead (p : ArmCore) (instruction : Word) : Word :=
  (armReadWord p (fetchAddress p)).getD instruction

theorem contLoop_succ (fuel : Nat) (gdb : Gdb) (instruction : Word) :
    contLoop (fuel + 1) gdb instruction =
      if IsBreakpoint (lookAhead gdb.arm instruction) then .ok gdb
      else gdbStep gdb >>= fun g => contLoop fuel g (lookAhead gdb.arm instruction) := rfl

/-- The loop ends after `k` iterations of `arm_step`. -/
def EndsAfter (gdb : Gdb) (instruction : Word) (k : Nat) (g : Gdb) : Prop :=
  contLoop (k + 1) gdb instruction = .ok g ∧ contLoop k gdb instruction = .error .looping

/-- The memory lets a breakpoint word be read at the fetch address. -/
def ReadsBreakpoint (p : ArmCore) : Prop :=
  ∃ w, armReadWord p (fetchAddress p) = some w ∧ IsBreakpoint w

def AtBreakpoint (p : ArmCore) : Prop := FetchesInMemory p ∧ ReadsBreakpoint p

def Token.Steps : Token → Prop
  | .packet p _ _ => p.Valid ∧ p.index = char 's'
  | _ => False

/-- **The loop, having stepped `k` times to `g`, has done what it is for.** -/
structure StopsAtBreakpoint (gdb : Gdb) (k : Nat) (g : Gdb) : Prop where
  steps : steps gdb.arm k = .ok g.arm
  /-- `k` `s` packets would have led to the same core. -/
  commands : gdb.shut = false → ∀ ts : List Token, ts.length = k → (∀ t ∈ ts, t.Steps) →
    ∃ g', session gdb ts = .ok g' ∧ g'.arm = g.arm
  last : AtBreakpoint g.arm
  first : ∀ j < k, ∀ q, Armator.steps gdb.arm j = .ok q → ¬ AtBreakpoint q

theorem not_readsBreakpoint {p : ArmCore} {instruction : Word}
    (h : ¬ IsBreakpoint (lookAhead p instruction)) : ¬ ReadsBreakpoint p := by
  rintro ⟨w, hw, hb⟩
  rw [lookAhead, hw] at h
  exact h hb

theorem gdbStep_ok {gdb g : Gdb} (h : gdbStep gdb = .ok g) :
    ∃ r q, armStep gdb.arm = .ok (r, q) ∧ g = { gdb with arm := q, targetException := r } := by
  rw [gdbStep] at h
  cases hs : armStep gdb.arm with
  | error e =>
    rw [hs] at h
    cases h
  | ok rq =>
    rw [hs] at h
    exact ⟨rq.1, rq.2, rfl, (Except.ok.inj h).symm⟩

theorem EndsAfter.succ {gdb g : Gdb} {instruction : Word} {k : Nat}
    (h : EndsAfter gdb instruction (k + 1) g) :
    ¬ IsBreakpoint (lookAhead gdb.arm instruction) ∧
      ∃ r q, armStep gdb.arm = .ok (r, q) ∧
        EndsAfter { gdb with arm := q, targetException := r } (lookAhead gdb.arm instruction) k g := by
  obtain ⟨hok, hloop⟩ := h
  rw [contLoop_succ] at hok hloop
  by_cases hb : IsBreakpoint (lookAhead gdb.arm instruction)
  · rw [if_pos hb] at hloop
    cases hloop
  · rw [if_neg hb] at hok hloop
    cases hs : gdbStep gdb with
    | error e =>
      rw [hs] at hok
      cases hok
    | ok g' =>
      obtain ⟨r, q, hq, rfl⟩ := gdbStep_ok hs
      rw [hs] at hok hloop
      exact ⟨hb, r, q, hq, hok, hloop⟩

/-- **How the loop ends**: at the first breakpoint word that can be read, or at once on
what `instruction` held before. -/
theorem endsAfter_cases {gdb g : Gdb} {instruction : Word} {k : Nat}
    (h : EndsAfter gdb instruction k g) :
    steps gdb.arm k = .ok g.arm ∧
      (∀ j < k, ∀ q, steps gdb.arm j = .ok q → ¬ ReadsBreakpoint q) ∧
      (ReadsBreakpoint g.arm ∨
        armReadWord gdb.arm (fetchAddress gdb.arm) = none ∧ IsBreakpoint instruction) := by
  induction k generalizing gdb instruction with
  | zero =>
    have hok := h.1
    rw [contLoop_succ] at hok
    by_cases hb : IsBreakpoint (lookAhead gdb.arm instruction)
    · rw [if_pos hb] at hok
      obtain rfl : gdb = g := Except.ok.inj hok
      refine ⟨rfl, fun j hj => absurd hj (Nat.not_lt_zero j), ?_⟩
      rw [lookAhead] at hb
      cases hw : armReadWord gdb.arm (fetchAddress gdb.arm) with
      | none =>
        rw [hw] at hb
        exact Or.inr ⟨rfl, hb⟩
      | some w =>
        rw [hw] at hb
        exact Or.inl ⟨w, hw, hb⟩
    · rw [if_neg hb] at hok
      cases hs : gdbStep gdb with
      | error e =>
        rw [hs] at hok
        cases hok
      | ok g' =>
        rw [hs] at hok
        cases hok
  | succ k ih =>
    obtain ⟨hb, r, q, hq, hrest⟩ := h.succ
    obtain ⟨hsteps, hfirst, hlast⟩ := ih hrest
    refine ⟨(steps_succ_of_armStep hq k).trans hsteps, fun j hj q' hq' => ?_, ?_⟩
    · cases j with
      | zero =>
        cases hq'
        exact not_readsBreakpoint hb
      | succ j =>
        rw [steps_succ_of_armStep hq] at hq'
        exact hfirst j (Nat.lt_of_succ_lt_succ hj) q' hq'
    · rcases hlast with hl | ⟨-, hstale⟩
      · exact Or.inl hl
      · -- the word looked at before was no breakpoint, so keeping it ends nothing
        exact absurd hstale hb

/-! ### The same in single steps -/

theorem onToken_steps {gdb : Gdb} (ho : gdb.shut = false) {t : Token} (ht : t.Steps) {r : Int}
    {q : ArmCore} (hq : armStep gdb.arm = .ok (r, q)) :
    ∃ g, onToken gdb t = .ok g ∧ g.arm = q ∧ g.shut = false := by
  cases t with
  | ack => exact absurd ht id
  | nack => exact absurd ht id
  | packet p behind l =>
    obtain ⟨hv, hs⟩ := ht
    obtain ⟨g, hg, hr⟩ := gdbSendData_replies
      { gdb with wire := gdb.wire ++ ascii "+", arm := q, targetException := r } ho
      (isPlain_iff.mp (isPlain_stopReason r)).1 (by rw [length_stopReason]; decide)
    refine ⟨g, ?_, hr.arm, hr.shut.trans ho⟩
    rw [onToken_valid gdb ho hv, hs, ← hg]
    show step { gdb with wire := gdb.wire ++ ascii "+" } = _
    rw [step, gdbStep, hq]
    rfl

/-- **`k` steps are `k` `s` packets.** -/
theorem session_steps {gdb : Gdb} (ho : gdb.shut = false) {ts : List Token}
    (hts : ∀ t ∈ ts, t.Steps) {q : ArmCore} (hq : steps gdb.arm ts.length = .ok q) :
    ∃ g, session gdb ts = .ok g ∧ g.arm = q ∧ g.shut = false := by
  induction ts using List.reverseRecOn generalizing q with
  | nil =>
    cases hq
    exact ⟨gdb, rfl, rfl, ho⟩
  | append_singleton ts t ih =>
    rw [List.length_append] at hq
    obtain ⟨r, u, hu, hr⟩ := steps_succ_ok hq
    obtain ⟨g, hg, rfl, hgo⟩ := ih (fun t' ht' => hts t' (List.mem_append_left _ ht')) hu
    obtain ⟨g', hg', harm, hgo'⟩ := onToken_steps hgo (hts t (by simp)) hr
    exact ⟨g', Run.run_concat_of_ok hg hg', harm, hgo'⟩

/-! ### When the loop ends where it should -/

section Memory

variable {p : ArmCore}

theorem exists_armReadWord_iff (a : Word) :
    (∃ w, armReadWord p a = some w) ↔ p.mem.admits 4 a = true := by
  rw [armReadWord, memoryReadWord_eq]
  cases p.mem.admits 4 a with
  | true => exact iff_of_true ⟨_, rfl⟩ rfl
  | false =>
    refine iff_of_false ?_ Bool.false_ne_true
    rintro ⟨w, hw⟩
    cases hw

theorem fetchesInMemory_iff (hs : 3 ≤ p.mem.size.toNat) :
    FetchesInMemory p ↔ ∃ w, armReadWord p (fetchAddress p) = some w := by
  rw [exists_armReadWord_iff]
  exact (admits_iff (n := 4) (by omega) (by omega) _).symm

theorem atBreakpoint_iff (hs : 3 ≤ p.mem.size.toNat) : AtBreakpoint p ↔ ReadsBreakpoint p := by
  refine ⟨fun h => h.2, fun h => ⟨(fetchesInMemory_iff hs).mpr ?_, h⟩⟩
  obtain ⟨w, hw, -⟩ := h
  exact ⟨w, hw⟩

/-- A memory of less than three bytes lets every word be read. -/
theorem armReadWord_of_small (hs : ¬ 3 ≤ p.mem.size.toNat) (a : Word) :
    ∃ w, armReadWord p a = some w := by
  rw [exists_armReadWord_iff]
  by_contra h
  exact hs (size_of_refused (Bool.eq_false_iff.mpr h))

theorem not_fetchesInMemory_of_small (hs : ¬ 3 ≤ p.mem.size.toNat) : ¬ FetchesInMemory p := by
  intro h
  have : (fetchAddress p).toNat + 4 ≤ p.mem.size.toNat := h
  omega

end Memory

/-- Where every word can be read, the loop ends at the first breakpoint word. -/
theorem endsAfter_of_reads {gdb : Gdb} (instruction : Word) {k : Nat} {q : ArmCore}
    (hread : ∀ j q', steps gdb.arm j = .ok q' → ∃ w, armReadWord q' (fetchAddress q') = some w)
    (hq : steps gdb.arm k = .ok q) (hlast : ReadsBreakpoint q)
    (hfirst : ∀ j < k, ∀ q', steps gdb.arm j = .ok q' → ¬ ReadsBreakpoint q') :
    ∃ g, EndsAfter gdb instruction k g := by
  induction k generalizing gdb instruction with
  | zero =>
    cases hq
    obtain ⟨w, hw, hb⟩ := hlast
    refine ⟨gdb, ?_, rfl⟩
    rw [contLoop_succ, lookAhead, hw, Option.getD_some, if_pos hb]
  | succ k ih =>
    obtain ⟨w, hw⟩ := hread 0 gdb.arm rfl
    have hb : ¬ IsBreakpoint (lookAhead gdb.arm instruction) := by
      rw [lookAhead, hw]
      exact fun hb => hfirst 0 (Nat.succ_pos k) gdb.arm rfl ⟨w, hw, hb⟩
    cases hs : armStep gdb.arm with
    | error e =>
      rw [steps, machine, List.replicate_succ, Run.run, List.foldlM_cons, act, hs] at hq
      cases hq
    | ok rq =>
      obtain ⟨r, u⟩ := rq
      have hsucc := steps_succ_of_armStep hs
      obtain ⟨g, hg⟩ := @ih { gdb with arm := u, targetException := r }
        (lookAhead gdb.arm instruction)
        (fun j q' hq' => hread (j + 1) q' ((hsucc j).trans hq')) ((hsucc k).symm.trans hq)
        (fun j hj q' hq' => hfirst (j + 1) (Nat.succ_lt_succ hj) q' ((hsucc j).trans hq'))
      refine ⟨g, ?_, ?_⟩
      · rw [contLoop_succ, if_neg hb, gdbStep, hs]
        exact hg.1
      · rw [contLoop_succ, if_neg hb, gdbStep, hs]
        exact hg.2

theorem endsAfter_zero_of_stale {gdb : Gdb} {instruction : Word}
    (hnone : armReadWord gdb.arm (fetchAddress gdb.arm) = none) (hb : IsBreakpoint instruction) :
    EndsAfter gdb instruction 0 gdb := by
  refine ⟨?_, rfl⟩
  rw [contLoop_succ, lookAhead, hnone, Option.getD_none, if_pos hb]

/-- In a memory of three bytes or more, a look-ahead that fails leaves what `instruction`
held. -/
theorem stopsAtBreakpoint_iff_of_large {gdb : Gdb} (hs : 3 ≤ gdb.arm.mem.size.toNat)
    (instruction : Word) :
    (∀ k g, EndsAfter gdb instruction k g → StopsAtBreakpoint gdb k g) ↔
      FetchesInMemory gdb.arm ∨ ¬ IsBreakpoint instruction := by
  constructor
  · intro hall
    by_contra hn
    rw [not_or, not_not] at hn
    obtain ⟨hf, hb⟩ := hn
    have hnone : armReadWord gdb.arm (fetchAddress gdb.arm) = none := by
      cases hw : armReadWord gdb.arm (fetchAddress gdb.arm) with
      | none => rfl
      | some w => exact absurd ((fetchesInMemory_iff hs).mpr ⟨w, hw⟩) hf
    exact hf (hall 0 gdb (endsAfter_zero_of_stale hnone hb)).last.1
  · intro hcond k g hend
    obtain ⟨hsteps, hfirst, hlast⟩ := endsAfter_cases hend
    have hs' : 3 ≤ g.arm.mem.size.toNat := by
      rw [steps_mem_size hsteps]
      exact hs
    refine ⟨hsteps, fun ho ts hk hts => ?_, (atBreakpoint_iff hs').mpr ?_, ?_⟩
    · obtain ⟨g', hg', harm, -⟩ := session_steps ho hts (by rw [hk]; exact hsteps)
      exact ⟨g', hg', harm⟩
    · rcases hlast with hl | ⟨hnone, hb⟩
      · exact hl
      · rcases hcond with hf | hj
        · obtain ⟨w, hw⟩ := (fetchesInMemory_iff hs).mp hf
          cases hnone.symm.trans hw
        · exact absurd hb hj
    · intro j hj q hq hat
      exact hfirst j hj q hq hat.2

/-- In a smaller memory every look-ahead reads a word, and none of them lies in the
memory. -/
theorem stopsAtBreakpoint_iff_of_small {gdb : Gdb} (hs : ¬ 3 ≤ gdb.arm.mem.size.toNat)
    (instruction : Word) :
    (∀ k g, EndsAfter gdb instruction k g → StopsAtBreakpoint gdb k g) ↔
      ∀ k q, steps gdb.arm k = .ok q → ¬ ReadsBreakpoint q := by
  have hsmall : ∀ {j : Nat} {q : ArmCore}, steps gdb.arm j = .ok q → ¬ 3 ≤ q.mem.size.toNat := by
    intro j q hq
    rw [steps_mem_size hq]
    exact hs
  constructor
  · intro hall k
    -- the first breakpoint word of the run would end the loop outside the memory
    induction k using Nat.strong_induction_on with
    | _ k ih =>
      intro q hq hb
      obtain ⟨g, hend⟩ := endsAfter_of_reads instruction
        (fun j q' hq' => armReadWord_of_small (hsmall hq') _) hq hb ih
      have hstop := hall k g hend
      exact not_fetchesInMemory_of_small (hsmall hstop.steps) hstop.last.1
  · intro hnone k g hend
    obtain ⟨hsteps, -, hlast⟩ := endsAfter_cases hend
    rcases hlast with hl | ⟨hread, -⟩
    · exact absurd hl (hnone k g.arm hsteps)
    · obtain ⟨w, hw⟩ := armReadWord_of_small hs (fetchAddress gdb.arm)
      cases hread.symm.trans hw

/-- **When `cont` stops only at breakpoints**, and does what single steps would: the
memory has at least three bytes, and its first look-ahead lies in the memory or what
`instruction` held is no breakpoint.  A smaller memory lets words be read behind its
end, and a breakpoint there is never one in the memory. -/
theorem stopsAtBreakpoint_iff (gdb : Gdb) (instruction : Word) :
    (∀ k g, EndsAfter gdb instruction k g → StopsAtBreakpoint gdb k g) ↔
      3 ≤ gdb.arm.mem.size.toNat ∧ (FetchesInMemory gdb.arm ∨ ¬ IsBreakpoint instruction) ∨
      gdb.arm.mem.size.toNat < 3 ∧ ∀ k q, steps gdb.arm k = .ok q → ¬ ReadsBreakpoint q := by
  by_cases hs : 3 ≤ gdb.arm.mem.size.toNat
  · rw [or_iff_left fun h => absurd hs (Nat.not_le.mpr h.1), and_iff_right hs]
    exact stopsAtBreakpoint_iff_of_large hs instruction
  · rw [or_iff_right fun h => hs h.1, and_iff_right (Nat.not_le.mp hs)]
    exact stopsAtBreakpoint_iff_of_small hs instruction

/-- The debugger has set the pc behind the memory, and a breakpoint word is left where
`instruction` lies. -/
theorem stale_breakpoint_ends :
    EndsAfter (gdbInitData corePastMemory .little fun _ => 0) 0xE7F000F0 0
        (gdbInitData corePastMemory .little fun _ => 0) ∧
      ¬ ∀ (gdb : Gdb) (instruction : Word) (k : Nat) (g : Gdb),
        EndsAfter gdb instruction k g → StopsAtBreakpoint gdb k g := by
  have hf : ¬ FetchesInMemory corePastMemory := by
    unfold FetchesInMemory DataAccess.InMemory
    decide +kernel
  have hnone : armReadWord corePastMemory (fetchAddress corePastMemory) = none :=
    (armReadWord_none_iff (p := corePastMemory) (by decide) _).mpr hf
  have hend : EndsAfter (gdbInitData corePastMemory .little fun _ => 0) 0xE7F000F0 0
      (gdbInitData corePastMemory .little fun _ => 0) := endsAfter_zero_of_stale hnone rfl
  exact ⟨hend, fun hall => hf (hall _ _ _ _ hend).last.1⟩

/-! ### The results of the steps of a session -/

/-- The results of the steps that the loop of `cont` makes, in order. -/
def contResults : Nat → ArmCore → Word → List Int
  | 0, _, _ => []
  | fuel + 1, p, instruction =>
    if IsBreakpoint (lookAhead p instruction) then []
    else
      match armStep p with
      | .ok (r, q) => r :: contResults fuel q (lookAhead p instruction)
      | .error _ => []

/-- The results of the steps that a token makes the simulator execute. -/
def Token.results (gdb : Gdb) : Token → List Int
  | .packet p _ l =>
    if p.Valid ∧ gdb.shut = false then
      if p.index = char 'c' then contResults l.fuel gdb.arm (l.junk 0)
      else if p.index = char 's' then
        match armStep gdb.arm with
        | .ok (r, _) => [r]
        | .error _ => []
      else []
    else []
  | _ => []

/-- The results of all the steps of a session, in order. -/
def sessionResults : Gdb → List Token → List Int
  | _, [] => []
  | gdb, t :: ts =>
    t.results gdb ++
      match onToken gdb t with
      | .ok g => sessionResults g ts
      | .error _ => []

/-- The result of the last of the steps, 0 where there was none. -/
def lastResult (results : List Int) : Int := results.getLastD 0

/-- The stop reasons other than the trap. -/
def Reported (r : Int) : Prop :=
  r = Exception.undefinedInstruction ∨ r = Exception.prefetchAbort ∨ r = Exception.dataAbort

theorem stopReason_eq_S05_iff (r : Int) : stopReason r = ascii "S05" ↔ ¬ Reported r := by
  rw [stopReason]
  split
  next h => exact iff_of_false (by decide) (not_not.mpr (Or.inl h))
  next h =>
    split
    next h' => exact iff_of_false (by decide) (not_not.mpr (Or.inr h'))
    next h' => exact iff_of_true rfl fun hr => hr.elim h h'

theorem contLoop_targetException {fuel : Nat} {gdb g : Gdb} {instruction : Word}
    (h : contLoop fuel gdb instruction = .ok g) :
    g.targetException = (contResults fuel gdb.arm instruction).getLastD gdb.targetException := by
  induction fuel generalizing gdb instruction with
  | zero => cases h
  | succ fuel ih =>
    rw [contLoop_succ] at h
    rw [contResults]
    split at h
    next hb =>
      rw [if_pos hb, ← Except.ok.inj h]
      rfl
    next hb =>
      rw [if_neg hb]
      cases hs : gdbStep gdb with
      | error e =>
        rw [hs] at h
        cases h
      | ok g' =>
        obtain ⟨r, q, hq, rfl⟩ := gdbStep_ok hs
        rw [hs] at h
        rw [hq, List.getLastD_cons]
        exact ih h

/-- The last exception after a request: set by the steps of `s` and `c`, and by nothing
else. -/
theorem gdbDispatch_targetException {l : Locals} (gdb : Gdb) {g : Gdb} (ho : gdb.shut = false)
    {b : Byte} {data : List Byte} (hd : 0 ∈ data) (hc : b ≠ char 'c') (hs : b ≠ char 's')
    (h : gdbDispatch l gdb b data = .ok g) : g.targetException = gdb.targetException := by
  rw [gdbDispatch] at h
  cases hh : handler b with
  | none =>
    rw [hh] at h
    exact (gdbSendData_keeps gdb ho gdb.arm (by decide) (by decide)).of_ok h
  | some x =>
    rw [hh] at h
    by_cases hm : x = .readMemory
    · subst hm
      exact readMemory_targetException l gdb ho hd h
    · refine (Handler.call_keeps l gdb ho hd hm ?_ ?_).of_ok h
      · rintro rfl
        exact hc ((handler_eq_cont_iff b).mp hh)
      · rintro rfl
        exact hs ((handler_eq_step_iff b).mp hh)

/-- `c` is answered with the stop reason of the last exception, which is the result of
the last step. -/
theorem cont_ok {l : Locals} (gdb : Gdb) {g : Gdb} (h : cont l gdb = .ok g) :
    g.wire = gdb.wire ++ frame (stopReason g.targetException) ∧
      g.targetException =
        (contResults l.fuel gdb.arm (l.junk 0)).getLastD gdb.targetException := by
  cases hg : contLoop l.fuel gdb (l.junk 0) with
  | error e =>
    rw [cont, hg] at h
    cases h
  | ok g' =>
    rw [cont, hg] at h
    have hr := gdbSendStopReason_ok h
    refine ⟨?_, ?_⟩
    · obtain ⟨p, e, rfl⟩ := contLoop_ok hg
      rw [hr.targetException, hr.wire]
    · rw [hr.targetException, contLoop_targetException hg]

/-- **One token**: the last exception is the result of its last step. -/
theorem onToken_targetException {gdb g : Gdb} {t : Token} (h : onToken gdb t = .ok g) :
    g.targetException = (t.results gdb).getLastD gdb.targetException := by
  have hwriten : ∀ {s : List Byte} {g : Gdb}, rioWriten gdb s = .ok g →
      g.targetException = gdb.targetException := by
    intro s g hw
    rw [rioWriten] at hw
    split at hw
    · cases hw
      rfl
    · split at hw
      · cases hw
      · cases hw
        rfl
  cases t with
  | ack =>
    cases h
    rfl
  | nack => exact hwriten h
  | packet p behind l =>
    by_cases hv : p.Valid
    · have ho := shut_of_onToken_packet h
      rw [onToken_valid gdb ho hv] at h
      simp only [Token.results, hv, ho, and_self, if_true]
      by_cases hc : p.index = char 'c'
      · rw [if_pos hc]
        rw [hc] at h
        exact (cont_ok { gdb with wire := gdb.wire ++ ascii "+" } h).2
      · rw [if_neg hc]
        by_cases hs : p.index = char 's'
        · rw [if_pos hs]
          rw [hs] at h
          obtain ⟨r, q, hq, hr⟩ := @step_ok { gdb with wire := gdb.wire ++ ascii "+" } g h
          rw [hr.targetException, show armStep gdb.arm = .ok (r, q) from hq]
          rfl
        · rw [if_neg hs]
          exact gdbDispatch_targetException { gdb with wire := gdb.wire ++ ascii "+" } ho
            (List.mem_of_mem_tail (zero_mem_argument_tail p behind)) hc hs h
    · rw [onToken_wrong gdb hv] at h
      simp only [Token.results, hv, false_and, if_false]
      exact hwriten h

theorem getLastD_append (as bs : List Int) (d : Int) :
    (as ++ bs).getLastD d = bs.getLastD (as.getLastD d) := by
  induction as generalizing d with
  | nil => rfl
  | cons a as ih => rw [List.cons_append, List.getLastD_cons, List.getLastD_cons, ih]

/-- **A whole session**: the last exception is the result of the last step executed in
it, whichever command executed it. -/
theorem session_targetException {gdb g : Gdb} {ts : List Token} (h : session gdb ts = .ok g) :
    g.targetException = (sessionResults gdb ts).getLastD gdb.targetException := by
  induction ts generalizing gdb with
  | nil =>
    cases h
    rfl
  | cons t ts ih =>
    have hcons : session gdb (t :: ts) = onToken gdb t >>= fun g => session g ts := rfl
    rw [hcons] at h
    cases ht : onToken gdb t with
    | error e =>
      rw [ht] at h
      cases h
    | ok g' =>
      rw [ht] at h
      rw [sessionResults, ht, getLastD_append, ← onToken_targetException ht]
      exact ih h

theorem session_concat {gdb g g' : Gdb} {ts : List Token} {t : Token} (h : session gdb ts = .ok g)
    (ht : onToken g t = .ok g') : session gdb (ts ++ [t]) = .ok g' :=
  Run.run_concat_of_ok h ht

theorem continue_wire {gdb g g' : Gdb} {ts : List Token} (hg : session gdb ts = .ok g)
    {p : Packet} {behind : List Byte} {l : Locals} (hv : p.Valid) (hc : p.index = char 'c')
    (h : onToken g (.packet p behind l) = .ok g') :
    g'.wire = g.wire ++ ascii "+" ++ frame (stopReason
      ((sessionResults gdb (ts ++ [.packet p behind l])).getLastD gdb.targetException)) := by
  rw [← session_targetException (session_concat hg h)]
  have ho := shut_of_onToken_packet h
  rw [onToken_valid g ho hv, hc] at h
  exact (cont_ok { g with wire := g.wire ++ ascii "+" } h).1

/-- **When the reply at a breakpoint is the trap signal.**  In every session, a `c` packet
that is answered is answered S05 exactly when the last step executed so far, in this
command or in an earlier one, returned none of the exceptions that are reported. -/
theorem continue_reply_iff (arm : ArmCore) (target : Endian) (garbage : Nat → Byte)
    (ts : List Token) (g : Gdb) (hg : session (gdbInitData arm target garbage) ts = .ok g)
    (p : Packet) (behind : List Byte) (l : Locals) (hv : p.Valid) (hc : p.index = char 'c')
    (g' : Gdb) (h : onToken g (.packet p behind l) = .ok g') :
    g'.wire = g.wire ++ ascii "+" ++ frame (ascii "S05") ↔
      ¬ Reported (lastResult
        (sessionResults (gdbInitData arm target garbage) (ts ++ [.packet p behind l]))) := by
  rw [continue_wire hg hv hc h, ← stopReason_eq_S05_iff, List.append_right_inj]
  exact ⟨frame_injective, congrArg frame⟩

/-- A coprocessor instruction, which is undefined, and a breakpoint behind it. -/
def undefinedThenBreakpoint : ArmCore :=
  armCreate .little (memoryCreate 8 false (Bytes.store (Bytes.byteOf .little 4 0xEE000010) 4 4
    (Bytes.byteOf .little 4 0xE7F000F0)))

/-- A request that is a letter, with a bound on the iterations of `cont`. -/
def letterToken (s : List Byte) (hs : ∀ b ∈ s, b ≠ char '$' ∧ b ≠ char '#') : Token :=
  .packet (framePacket s hs) [] ⟨0, fun _ => 0, 3⟩

/-- An undefined instruction, `mov r1, r0` and a breakpoint. -/
def undefinedThenMov : ArmCore :=
  armCreate .little (memoryCreate 12 false (Bytes.store (Bytes.store (Bytes.byteOf .little 4 0xEE000010)
    4 4 (Bytes.byteOf .little 4 0xE1A01000)) 8 4 (Bytes.byteOf .little 4 0xE7F000F0)))

/-- An `s` over the undefined instruction, then a `c` to the breakpoint: the last step is the
`mov`. -/
theorem continue_reply_after_step :
    ∃ g g', session (gdbInitData undefinedThenMov .little fun _ => 0)
        [letterToken (ascii "s") (by decide)] = .ok g ∧
      onToken g (letterToken (ascii "c") (by decide)) = .ok g' ∧
      g'.wire = g.wire ++ ascii "+" ++ frame (ascii "S05") := by
  have hlast : sessionResults (gdbInitData undefinedThenMov .little fun _ => 0)
      ([letterToken (ascii "s") (by decide)] ++ [letterToken (ascii "c") (by decide)]) =
        [Exception.undefinedInstruction, 0] := by decide +kernel
  cases h : session (gdbInitData undefinedThenMov .little fun _ => 0)
      ([letterToken (ascii "s") (by decide)] ++ [letterToken (ascii "c") (by decide)]) with
  | error e =>
    have hok : (session (gdbInitData undefinedThenMov .little fun _ => 0)
      ([letterToken (ascii "s") (by decide)] ++ [letterToken (ascii "c") (by decide)])).isOk =
        true := by decide +kernel
    rw [h] at hok
    cases hok
  | ok g' =>
    obtain ⟨g, hg, hg'⟩ := Run.run_concat_ok h
    refine ⟨g, g', hg, hg', ?_⟩
    refine (continue_reply_iff undefinedThenMov .little (fun _ => 0) _ g hg _ _ _
      (framePacket_valid _ _) (by decide) g' hg').mpr ?_
    rw [letterToken, letterToken] at hlast
    rw [letterToken, hlast]
    unfold Reported lastResult
    decide

theorem session_single {gdb g : Gdb} {t : Token} (h : onToken gdb t = .ok g) :
    session gdb [t] = .ok g := by
  rw [session, Run.run, List.foldlM_cons, h]
  rfl

theorem session_pair {gdb g g' : Gdb} {s t : Token} (hs : onToken gdb s = .ok g)
    (ht : onToken g t = .ok g') : session gdb [s, t] = .ok g' :=
  session_concat (session_single hs) ht

theorem step_replies (gdb : Gdb) (ho : gdb.shut = false) {r : Int} {q : ArmCore}
    (hq : armStep gdb.arm = .ok (r, q)) :
    ∃ g, step gdb = .ok g ∧ Replies { gdb with arm := q, targetException := r } g (stopReason r) := by
  rw [step, gdbStep, hq]
  exact gdbSendStopReason_replies { gdb with arm := q, targetException := r } ho

theorem cont_replies_at_once (gdb : Gdb) (ho : gdb.shut = false) {l : Locals} (hl : 0 < l.fuel)
    (hb : IsBreakpoint (lookAhead gdb.arm (l.junk 0))) :
    ∃ g, cont l gdb = .ok g ∧ Replies gdb g (stopReason gdb.targetException) := by
  obtain ⟨fuel, hfuel⟩ := Nat.exists_eq_succ_of_ne_zero (Nat.ne_of_gt hl)
  rw [cont, hfuel, contLoop_succ, if_pos hb]
  exact gdbSendStopReason_replies gdb ho

/-- **A `c` that ends at once repeats the reason of the step before it.** -/
theorem step_then_continue (gdb : Gdb) (ho : gdb.shut = false) {x y : Packet} (hx : x.Valid)
    (hxs : x.index = char 's') (hy : y.Valid) (hyc : y.index = char 'c') {r : Int} {q : ArmCore}
    (hq : armStep gdb.arm = .ok (r, q)) (behind behind' : List Byte) (l l' : Locals)
    (hl : 0 < l'.fuel) (hb : IsBreakpoint (lookAhead q (l'.junk 0))) :
    ∃ g g', onToken gdb (.packet x behind l) = .ok g ∧ onToken g (.packet y behind' l') = .ok g' ∧
      g.wire = gdb.wire ++ ascii "+" ++ frame (stopReason r) ∧
      g'.wire = g.wire ++ ascii "+" ++ frame (stopReason r) := by
  obtain ⟨g, hg, hr⟩ := step_replies { gdb with wire := gdb.wire ++ ascii "+" } ho hq
  have hog : g.shut = false := hr.shut.trans ho
  have hexc : g.targetException = r := hr.targetException
  rw [← show g.arm = q from hr.arm] at hb
  obtain ⟨g', hg', hr'⟩ := cont_replies_at_once { g with wire := g.wire ++ ascii "+" } hog hl hb
  refine ⟨g, g', ?_, ?_, hr.wire, ?_⟩
  · rw [onToken_valid gdb ho hx, hxs]
    exact hg
  · rw [onToken_valid g hog hy, hyc]
    exact hg'
  · rw [hr'.wire, hexc]

/-- An `s` over the undefined instruction, then a `c` at the breakpoint: the reply is the
S04 of the step before. -/
theorem stale_stop_reason :
    ((session (gdbInitData undefinedThenBreakpoint .little fun _ => 0)
        [letterToken (ascii "s") (by decide), letterToken (ascii "c") (by decide)]).toOption.map
        Gdb.wire =
      some (ascii "+" ++ frame (ascii "S04") ++ ascii "+" ++ frame (ascii "S04"))) ∧
    ¬ ∀ (arm : ArmCore) (target : Endian) (garbage : Nat → Byte) (ts : List Token) (g : Gdb),
      session (gdbInitData arm target garbage) ts = .ok g →
      ∀ (p : Packet) (behind : List Byte) (l : Locals), p.Valid → p.index = char 'c' →
      ∀ g', onToken g (.packet p behind l) = .ok g' →
        g'.wire = g.wire ++ ascii "+" ++ frame (ascii "S05") := by
  have hresult : (armStep undefinedThenBreakpoint).toOption.map Prod.fst = some 2 := by decide +kernel
  have hnext : (armStep undefinedThenBreakpoint).toOption.map
      (fun x => decide (IsBreakpoint (lookAhead x.2 0))) = some true := by decide +kernel
  cases hq : armStep undefinedThenBreakpoint with
  | error e =>
    rw [hq] at hresult
    cases hresult
  | ok rq =>
    obtain ⟨r, q⟩ := rq
    rw [hq] at hresult hnext
    obtain rfl : r = 2 := Option.some.inj hresult
    have hb : IsBreakpoint (lookAhead q 0) := of_decide_eq_true (Option.some.inj hnext)
    obtain ⟨g, g', hg, hg', hw, hw'⟩ := step_then_continue
      (gdbInitData undefinedThenBreakpoint .little fun _ => 0) rfl
      (framePacket_valid (ascii "s") (by decide)) rfl (framePacket_valid (ascii "c") (by decide)) rfl
      hq [] [] ⟨0, fun _ => 0, 3⟩ ⟨0, fun _ => 0, 3⟩ (by decide) hb
    refine ⟨?_, fun hall => ?_⟩
    · rw [letterToken, letterToken, session_pair hg hg']
      rw [Except.toOption, Option.map_some, hw', hw]
      rfl
    · have hend := hall _ _ _ _ g (session_single hg) _ _ _ (framePacket_valid _ _) rfl g' hg'
      rw [hw', List.append_right_inj] at hend
      exact absurd (frame_injective hend) (by decide)

end Armator
