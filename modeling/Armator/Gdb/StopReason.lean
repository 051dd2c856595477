import Armator.Gdb.Framing
import Armator.Instruction.Aborts
import Armator.Machine.Reachable

/-!
# The result of a step and the stop reason

The result of `arm_step` is what `arm_execute_instruction` returns: the status of the
fetch, which is the -1 of the memory, or the exception of the instruction class.  The
`s` packet keeps it and answers with the stop reason for it.

`StepReports p` says that the step from `p` has a result that is 0 or an exception,
that the two aborts are reported for a fetch and for a data access that do not lie in
the memory, and that the debugger is told S10 for just these.  Nothing turns the -1 of
a failed fetch into `PREFETCH_ABORT`, which no step returns
(`armStep_ne_prefetchAbort`), and the stop reason for -1 is S05.  So the report is
right exactly when the word at the pc lies in the memory, and the instruction does not
read an SPSR that its mode does not have (`stepReports_iff`).
-/

namespace Armator

open Text

/-- 0, or one of the codes `RESET` to `FAST_INTERRUPT`. -/
def IsCode (r : Int) : Prop := r = 0 ∨ Exception.reset ≤ r ∧ r ≤ Exception.fastInterrupt

/-- The word at the pc lies in the memory. -/
def FetchesInMemory (p : ArmCore) : Prop := (⟨fetchAddress p, 4⟩ : DataAccess).InMemory p.mem

/-- The next step fetches `ins` and its condition passes. -/
def Executes (p : ArmCore) (ins : Word) : Prop :=
  (armFetch p).1 = some ins ∧ conditionPassed (armFetch p).2 ins = true

/-- The next step makes a data access that does not lie in the memory. -/
def StepFaults (p : ArmCore) : Prop := ∃ ins, Executes p ins ∧ Faults (armFetch p).2 ins

/-- `swi 0x123456`, with which the program asks for the end of the simulation. -/
def asksToExit (ins : Word) : Bool :=
  (getBits ins 27 25).toNat == 0b111 && bit ins 24 && ins &&& 0xFFFFFF == 0x123456

/-- **The step reports what happened**: it returns a code, unless the program asks for
the end; the aborts are reported exactly where there are any; and an `s` packet that
is answered is answered S10 exactly for them. -/
structure StepReports (p : ArmCore) : Prop where
  code : (∃ ins, Executes p ins ∧ asksToExit ins = true) ∨
    ∃ r q, armStep p = .ok (r, q) ∧ IsCode r
  prefetchAbort : Returns (armStep p) Exception.prefetchAbort ↔ ¬ FetchesInMemory p
  dataAbort : Returns (armStep p) Exception.dataAbort ↔ StepFaults p
  reason : ∀ gdb g, gdb.arm = p → step gdb = .ok g →
    (g.wire = gdb.wire ++ frame (ascii "S10") ↔ ¬ FetchesInMemory p ∨ StepFaults p)

/-! ### The end of the process -/

theorem armReadSpsr_error {p : ArmCore} {e : Halt} (h : armReadSpsr p = .error e) :
    e = .nullSpsr ∧ armCurrentModeHasSpsr p = false := by
  rw [armReadSpsr, readSpsr] at h
  split at h
  next => cases h
  next hs =>
    cases h
    exact ⟨rfl, Bool.eq_false_iff.mpr hs⟩

theorem ldm_error {p : ArmCore} {ins : Word} {e : Halt} (h : ldm p ins = .error e) :
    e = .nullSpsr ∧ armCurrentModeHasSpsr p = false := by
  cases hr : (bit ins 22 && bit ins 15) with
  | false =>
    rw [ldm_eq p ins hr] at h
    cases h
  | true =>
    cases hs : armReadSpsr p with
    | ok v =>
      simp only [ldm, hr, hs] at h
      cases h
    | error e' =>
      simp only [ldm, hr, hs] at h
      cases h
      exact armReadSpsr_error hs

theorem armMiscellaneous_error {p : ArmCore} {ins : Word} {e : Halt}
    (h : armMiscellaneous p ins = .error e) : e = .nullSpsr ∧ armCurrentModeHasSpsr p = false := by
  unfold armMiscellaneous at h
  dsimp only at h
  split at h
  · cases hs : armReadSpsr p with
    | ok v => rw [hs] at h; cases h
    | error e' =>
      rw [hs] at h
      cases h
      exact armReadSpsr_error hs
  · cases h

/-- **An instruction ends the process** only where the program asks for it or in a
mode without an SPSR. -/
theorem armDispatch_error {p : ArmCore} {ins : Word} {e : Halt} (h : armDispatch p ins = .error e) :
    asksToExit ins = true ∨ e = .nullSpsr ∧ armCurrentModeHasSpsr p = false := by
  unfold armDispatch at h
  split at h
  · split at h
    · cases h
    · split at h
      · exact Or.inr (armMiscellaneous_error h)
      · cases h
  · cases h
  · cases h
  · cases h
  · right
    rw [armLoadStoreMultiple] at h
    split at h
    · exact ldm_error h
    · cases h
  · cases h
  next hf =>
    left
    rw [armCoprocessorOthersSwi] at h
    split at h
    next h24 =>
      split at h
      next hexit =>
        rw [asksToExit, hf, h24, hexit]
        rfl
      next => cases h
    next => cases h
  · cases h

/-- A software interrupt does not read the SPSR. -/
theorem not_readsSpsr_of_asksToExit {ins : Word} (h : asksToExit ins = true) :
    ¬ readsSpsr ins = true := by
  rw [asksToExit, Bool.and_eq_true, Bool.and_eq_true, beq_iff_eq] at h
  rw [readsSpsr, h.1.1]
  exact Bool.false_ne_true

/-! ### The result of a step -/

/-- No step returns `PREFETCH_ABORT`. -/
theorem armStep_ne_prefetchAbort (p : ArmCore) : ¬ Returns (armStep p) Exception.prefetchAbort := by
  rintro ⟨q, h⟩
  rw [armStep_eq] at h
  rcases armExecuteInstruction_result h with e | e | e | e | e <;> exact absurd e (by decide)

section Fetched

variable {p : ArmCore} (hf : FetchesInMemory p)

include hf

theorem FetchesInMemory.size : 4 ≤ (armFetch p).2.mem.size.toNat :=
  Nat.le_trans (Nat.le_add_left 4 _) hf

theorem FetchesInMemory.fetched : ∃ ins, (armFetch p).1 = some ins := by
  have hs := hf.size
  cases h : (armFetch p).1 with
  | some ins => exact ⟨ins, rfl⟩
  | none => exact absurd hf ((armReadWord_none_iff hs (fetchAddress p)).mp h)

theorem FetchesInMemory.isCode {r : Int} {q : ArmCore} (h : armStep p = .ok (r, q)) :
    IsCode r := by
  obtain ⟨word, hword⟩ := hf.fetched
  rcases armStep_ok_cases h with ⟨hn, -, -⟩ | ⟨ins, -, ⟨-, rfl, -⟩ | ⟨-, hd⟩⟩
  · cases hword.symm.trans hn
  · exact Or.inl rfl
  · rcases armDispatch_result hd with e | e | e | e
    · exact Or.inl e
    all_goals
      subst e
      exact Or.inr (by decide)

theorem FetchesInMemory.dataAbort_iff :
    Returns (armStep p) Exception.dataAbort ↔ StepFaults p := by
  obtain ⟨ins, hins⟩ := hf.fetched
  rw [armStep_of_fetched hins]
  constructor
  · intro h
    split at h
    next hc => exact ⟨ins, ⟨hins, hc⟩, (armDispatch_dataAbort_iff hf.size ins).mp h⟩
    next =>
      have h0 : (0 : Int) = Exception.dataAbort := returns_ok_iff.mp h
      exact absurd h0 (by decide)
  · rintro ⟨ins', ⟨hins', hc⟩, hfault⟩
    cases hins.symm.trans hins'
    rw [if_pos hc]
    exact (armDispatch_dataAbort_iff hf.size ins).mpr hfault

/-- A step that fetches its word returns, unless the program asks for the end or the
instruction reads an SPSR that is not there. -/
theorem FetchesInMemory.returns
    (hn : ¬ (armCurrentModeHasSpsr p = false ∧ ExecutesSpsrRead p)) :
    (∃ ins, Executes p ins ∧ asksToExit ins = true) ∨ ∃ r q, armStep p = .ok (r, q) ∧ IsCode r := by
  obtain ⟨ins, hins⟩ := hf.fetched
  cases h : armStep p with
  | ok rq => exact Or.inr ⟨rq.1, rq.2, rfl, hf.isCode h⟩
  | error e =>
    left
    have hd := h
    rw [armStep_of_fetched hins] at hd
    split at hd
    next hc =>
      rcases armDispatch_error hd with hexit | ⟨rfl, hp⟩
      · exact ⟨ins, ⟨hins, hc⟩, hexit⟩
      · have hp' : armCurrentModeHasSpsr p = false := hp
        exact absurd ⟨hp', (armStep_nullSpsr_iff hp').mp h⟩ hn
    next => cases hd

end Fetched

/-! ### The stop reason -/

theorem stopReason_eq_S10_iff (r : Int) :
    stopReason r = ascii "S10" ↔ r = Exception.prefetchAbort ∨ r = Exception.dataAbort := by
  rw [stopReason]
  split
  next h =>
    subst h
    exact iff_of_false (by decide) (by decide)
  next =>
    split
    next h => exact iff_of_true rfl h
    next h => exact iff_of_false (by decide) h

theorem isPlain_stopReason (r : Int) : isPlain (stopReason r) = true := by
  rw [stopReason]
  split
  · rfl
  · split <;> rfl

theorem length_stopReason (r : Int) : (stopReason r).length = 3 := by
  rw [stopReason]
  split
  · rfl
  · split <;> rfl

theorem stopReason_fits (r : Int) : 0 ∉ stopReason r ∧ (stopReason r).length ≤ 1019 := by
  refine ⟨(isPlain_iff.mp (isPlain_stopReason r)).1, ?_⟩
  rw [length_stopReason]
  decide

theorem gdbSendStopReason_replies (gdb : Gdb) (ho : gdb.shut = false) :
    ∃ g, gdbSendStopReason gdb = .ok g ∧ Replies gdb g (stopReason gdb.targetException) :=
  gdbSendData_replies gdb ho (stopReason_fits _).1 (stopReason_fits _).2

theorem gdbSendStopReason_ok {gdb g : Gdb} (h : gdbSendStopReason gdb = .ok g) :
    Replies gdb g (stopReason gdb.targetException) :=
  (gdbSendData_ok (stopReason_fits _).1 (stopReason_fits _).2 h).2

/-- **An `s` packet is answered with the stop reason for the result of the step.** -/
theorem step_ok {gdb g : Gdb} (h : step gdb = .ok g) :
    ∃ r q, armStep gdb.arm = .ok (r, q) ∧
      Replies { gdb with arm := q, targetException := r } g (stopReason r) := by
  cases hs : armStep gdb.arm with
  | error e =>
    rw [step, gdbStep, hs] at h
    cases h
  | ok rq =>
    obtain ⟨r, q⟩ := rq
    rw [step, gdbStep, hs] at h
    exact ⟨r, q, rfl, gdbSendStopReason_ok h⟩

theorem returns_unique {x : Except Halt (Int × ArmCore)} {r r' : Int} (h : Returns x r)
    (h' : Returns x r') : r = r' := by
  obtain ⟨q, rfl⟩ := h
  exact returns_ok_iff.mp h'

/-- **When the result of a step is reported**: exactly when the word at the pc lies in
the memory and the instruction reads no SPSR that is not there. -/
theorem stepReports_iff (p : ArmCore) :
    StepReports p ↔
      FetchesInMemory p ∧ ¬ (armCurrentModeHasSpsr p = false ∧ ExecutesSpsrRead p) := by
  constructor
  · intro h
    have hf : FetchesInMemory p := by
      by_contra hf
      exact armStep_ne_prefetchAbort p (h.prefetchAbort.mpr hf)
    refine ⟨hf, ?_⟩
    rintro ⟨hp, hread⟩
    have hnull := (armStep_nullSpsr_iff hp).mpr hread
    rcases h.code with ⟨ins, ⟨hins, hc⟩, hexit⟩ | ⟨r, q, hok, -⟩
    · obtain ⟨ins', hins', -, hreads⟩ := hread
      cases hins.symm.trans hins'
      exact absurd hreads (not_readsSpsr_of_asksToExit hexit)
    · rw [hok] at hnull
      cases hnull
  · rintro ⟨hf, hn⟩
    refine ⟨hf.returns hn, ?_, hf.dataAbort_iff, ?_⟩
    · exact iff_of_false (armStep_ne_prefetchAbort p) (not_not.mpr hf)
    · rintro gdb g rfl h
      obtain ⟨r, q, hq, hreply⟩ := step_ok h
      have hr : Returns (armStep gdb.arm) r := ⟨q, hq⟩
      have hs10 : g.wire = gdb.wire ++ frame (ascii "S10") ↔ stopReason r = ascii "S10" := by
        rw [hreply.wire, List.append_right_inj]
        exact ⟨frame_injective, congrArg frame⟩
      rw [hs10, stopReason_eq_S10_iff, ← hf.dataAbort_iff]
      constructor
      · rintro (rfl | rfl)
        · exact absurd hr (armStep_ne_prefetchAbort _)
        · exact Or.inr hr
      · rintro (hm | hd)
        · exact absurd hf hm
        · exact Or.inr (returns_unique hr hd)

/-- The simulator's memory and a pc right behind it, as `P f=` sets it. -/
def corePastMemory : ArmCore :=
  gdbWriteRegister (armCreate .little (memoryCreate 0x20000 false fun _ => 0)) 15 0x20000

/-- The fetch fails there, and the step returns -1, for which the debugger is told
S05. -/
theorem not_stepReports_pastMemory :
    ¬ StepReports corePastMemory ∧ Returns (armStep corePastMemory) (-1) ∧ ¬ IsCode (-1) ∧
      stopReason (-1) = ascii "S05" := by
  have hf : ¬ FetchesInMemory corePastMemory := by
    unfold FetchesInMemory DataAccess.InMemory
    decide +kernel
  refine ⟨?_, ?_, ?_, rfl⟩
  · intro h
    exact armStep_ne_prefetchAbort _ (h.prefetchAbort.mpr hf)
  · have hnone : (armFetch corePastMemory).1 = none :=
      (armReadWord_none_iff (p := corePastMemory) (by decide) (fetchAddress corePastMemory)).mpr hf
    exact ⟨(armFetch corePastMemory).2, armStep_of_not_fetched hnone⟩
  · unfold IsCode
    decide

end Armator
