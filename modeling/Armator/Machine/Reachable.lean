import Armator.Machine.Control

/-!
# The reachable states

The core is created in SYS mode with the CPSR of a reset, which names SVC mode.
Three facts about every run follow from what one step keeps
(`SameControl.armStep`).

* `control_of_internal`: steps and exceptions leave the mode of the register file,
  the control bits of the CPSR and the banked registers as they were created.
* `bankMatches_iff`: the register file shows the registers of the mode that the
  CPSR names only where the last reset or `G` packet left SYS, or no mode at all,
  in the CPSR; `write_cpsr` does not set the mode of the register file.
* `steps_no_nullSpsr_iff`: a run of steps dereferences a `NULL` SPSR pointer
  exactly when it executes a word that reads the SPSR (`readsSpsr`).
-/

namespace Armator

/-! ### Creation -/

theorem armCreate_mode (host : Endian) (mem : Memory) : (armCreate host mem).reg.mode = Mode.sys :=
  rfl

theorem armCreate_cpsr (host : Endian) (mem : Memory) :
    armReadCpsr (armCreate host mem) = resetCpsr := by
  rfl

theorem armCreate_no_spsr (host : Endian) (mem : Memory) :
    armCurrentModeHasSpsr (armCreate host mem) = false := by
  rfl

theorem armCreate_banked (host : Endian) (mem : Memory) {c : Fin 37} (h : ∀ i, cell 6 i ≠ c) :
    (armCreate host mem).reg.registers c = 0 := by
  have h15 : c ≠ cell 0 15 := by
    rw [cell_of_no_spsr (by decide) 15]
    exact (h 15).symm
  have h16 : c ≠ cell 6 16 := (h 16).symm
  show (((registersCreate.set (cell 6 16) resetCpsr).set (cell 0 15) 0).registers c) = 0
  rw [Registers.set_of_ne _ _ h15, Registers.set_of_ne _ _ h16]
  rfl

/-- A reset brings the control state back to what it was at creation. -/
theorem SameControl.armException {host : Endian} {mem : Memory} {q : ArmCore}
    (h : SameControl (armCreate host mem) q) (e : BitVec 8) :
    SameControl (armCreate host mem) (armException q e) := by
  unfold Armator.armException
  split
  · have hc : SameControl (armCreate host mem) (armWriteCpsr q resetCpsr) :=
      h.writeFlags fun j hj => by rw [h.control j hj, armCreate_cpsr]
    exact hc.armWriteUsrRegister 15 0
  · exact h

/-! ### The control state of a run -/

theorem act_internal {host : Endian} {mem : Memory} {a : Action} (ha : a.Internal) {q q' : ArmCore}
    (h : SameControl (armCreate host mem) q) (hq : act q a = .ok q') :
    SameControl (armCreate host mem) q' := by
  cases a with
  | step =>
    obtain ⟨r, hs⟩ := act_step_ok hq
    exact h.armStep (armCreate_no_spsr host mem) hs
  | exception e =>
    cases hq
    exact h.armException e
  | gdbWriteRegister reg value => exact absurd ha id
  | gdbWriteGeneralRegisters values cpsr => exact absurd ha id

theorem sameControl_of_internal {host : Endian} {mem : Memory} {as : List Action} {p : ArmCore}
    (ha : ∀ a ∈ as, a.Internal) (h : machine (armCreate host mem) as = .ok p) :
    SameControl (armCreate host mem) p := by
  refine Run.run_history (R := fun as q => (∀ a ∈ as, a.Internal) →
    SameControl (armCreate host mem) q) (fun _ => SameControl.refl _) ?_ as p h ha
  intro as a q q' hq hstep hall
  refine act_internal (hall a (by simp)) (hq fun b hb => hall b ?_) hstep
  exact List.mem_append_left _ hb

theorem and_control_mask {x y : Word} (h : ∀ j < 28, x.getLsbD j = y.getLsbD j) :
    x &&& 0x0FFFFFFF = y &&& 0x0FFFFFFF := by
  apply BitVec.eq_of_getLsbD_eq
  intro j hj
  rw [BitVec.getLsbD_and, BitVec.getLsbD_and]
  by_cases h28 : j < 28
  · rw [h j h28]
  · have hm : (0x0FFFFFFF : Word).getLsbD j = false := by
      interval_cases j <;> rfl
    rw [hm, Bool.and_false, Bool.and_false]

/-- **Only the flags ever change.**  In every state that steps and exceptions
reach, the control bits of the CPSR are those of the reset, the register file is
in SYS mode, and every register that USR and SYS do not see is 0. -/
theorem control_of_internal (host : Endian) (mem : Memory) (as : List Action) (p : ArmCore)
    (ha : ∀ a ∈ as, a.Internal) (h : machine (armCreate host mem) as = .ok p) :
    armReadCpsr p &&& 0x0FFFFFFF = 0x1d3 ∧ p.reg.mode = Mode.sys ∧
      ∀ c, (∀ i, cell 6 i ≠ c) → p.reg.registers c = 0 := by
  have hc := sameControl_of_internal ha h
  refine ⟨?_, hc.mode.trans (armCreate_mode host mem), fun c hcell => ?_⟩
  · rw [and_control_mask (y := resetCpsr) fun j hj => by rw [hc.control j hj, armCreate_cpsr]]
    rfl
  · rw [hc.banked c hcell]
    exact armCreate_banked host mem hcell

/-- `mov r0, #1`, a fetch past the end of the memory, and a reset. -/
theorem control_of_internal_reset :
    ∃ p, machine (coreOfWord 0xE3A00001) [.step, .step, .exception 1] = .ok p ∧
      armReadCpsr p &&& 0x0FFFFFFF = 0x1d3 ∧ p.reg.mode = Mode.sys ∧
        ∀ c, (∀ i, cell 6 i ≠ c) → p.reg.registers c = 0 := by
  have hi : ∀ a ∈ [Action.step, .step, .exception 1], a.Internal := by
    simp [Action.Internal]
  have hok : (machine (coreOfWord 0xE3A00001) [.step, .step, .exception 1]).isOk = true := by
    decide +kernel
  cases h : machine (coreOfWord 0xE3A00001) [.step, .step, .exception 1] with
  | error e => rw [h] at hok; cases hok
  | ok p => exact ⟨p, rfl, control_of_internal _ _ _ p hi h⟩

/-! ### The bank that is shown -/

/-- CPSR[4:0]. -/
def modeField (cpsr : Word) : BitVec 8 := (cpsr &&& 0x1f).setWidth 8

/-- The register file is in the mode the CPSR names, if it names one. -/
def BankMatches (p : ArmCore) : Prop :=
  modeField (armReadCpsr p) ∈ Mode.encodings → p.reg.mode = modeField (armReadCpsr p)

/-- The mode field after an action, given the one before it. -/
def Action.setsMode (m : BitVec 8) : Action → BitVec 8
  | step => m
  | exception e => if (e.toNat : Int) = Exception.reset then Mode.svc else m
  | gdbWriteRegister _ _ => m
  | gdbWriteGeneralRegisters _ cpsr => modeField cpsr

/-- The mode field that the last reset or `G` packet left, creation included. -/
def lastMode (as : List Action) : BitVec 8 := as.foldl Action.setsMode Mode.svc

theorem modeField_congr {x y : Word} (h : ∀ j < 28, x.getLsbD j = y.getLsbD j) :
    modeField x = modeField y := by
  have hm : ∀ z : Word, z &&& 0x1f = (z &&& 0x0FFFFFFF) &&& 0x1f := by
    intro z
    rw [BitVec.and_assoc]
    rfl
  rw [modeField, modeField, hm x, hm y, and_control_mask h]

theorem foldl_armWriteRegister {p : ArmCore} (hp : armCurrentModeHasSpsr p = false)
    (values : Fin 16 → Word) :
    SameControl p ((List.finRange 16).foldl (fun p i => armWriteRegister p i (values i)) p) :=
  List.foldlRecOn (motive := SameControl p) (List.finRange 16) _ (SameControl.refl p)
    fun _ hq i _ => hq.armWriteRegister hp i (values i)

/-- **The step**: the register file stays in SYS mode whatever happens, and the
mode field follows `setsMode`. -/
theorem act_mode {q q' : ArmCore} {a : Action} (hm : q.reg.mode = Mode.sys)
    (hq : act q a = .ok q') :
    q'.reg.mode = Mode.sys ∧
      modeField (armReadCpsr q') = a.setsMode (modeField (armReadCpsr q)) := by
  have hs : armCurrentModeHasSpsr q = false := by
    rw [armCurrentModeHasSpsr, currentModeHasSpsr, getModeNum, hm]
    rfl
  have keep : SameControl q q' →
      q'.reg.mode = Mode.sys ∧ modeField (armReadCpsr q') = modeField (armReadCpsr q) :=
    fun h => ⟨h.mode.trans hm, modeField_congr h.control⟩
  cases a with
  | step =>
    obtain ⟨r, h⟩ := act_step_ok hq
    exact keep ((SameControl.refl q).armStep hs h)
  | exception e =>
    rw [← Except.ok.inj hq, Action.setsMode]
    by_cases he : (e.toNat : Int) = Exception.reset
    · rw [armException, if_pos he, if_pos he]
      refine ⟨hm, ?_⟩
      have h := (SameControl.refl (armWriteCpsr q resetCpsr)).armWriteUsrRegister 15 0
      rw [modeField_congr h.control, armReadCpsr_writeCpsr]
      rfl
    · rw [armException, if_neg he, if_neg he]
      exact ⟨hm, rfl⟩
  | gdbWriteRegister reg value =>
    cases hq
    exact keep ((SameControl.refl q).armWriteRegister hs reg value)
  | gdbWriteGeneralRegisters values cpsr =>
    rw [← Except.ok.inj hq, gdbWriteGeneralRegisters]
    have h := foldl_armWriteRegister hs values
    generalize (List.finRange 16).foldl (fun p i => armWriteRegister p i (values i)) q = g at h
    refine ⟨h.mode.trans hm, ?_⟩
    rw [armReadCpsr_writeCpsr, Action.setsMode]

/-- The run: the mode field is the one last set. -/
theorem machine_mode (host : Endian) (mem : Memory) (as : List Action) (p : ArmCore)
    (h : machine (armCreate host mem) as = .ok p) :
    p.reg.mode = Mode.sys ∧ modeField (armReadCpsr p) = lastMode as := by
  refine Run.run_history (R := fun as p => p.reg.mode = Mode.sys ∧
    modeField (armReadCpsr p) = lastMode as) ⟨rfl, ?_⟩ ?_ as p h
  · rw [armCreate_cpsr]
    rfl
  intro as a q q' ⟨hm, hf⟩ hq
  obtain ⟨hm', hf'⟩ := act_mode hm hq
  refine ⟨hm', ?_⟩
  rw [hf', hf, lastMode, lastMode, List.foldl_append]
  rfl

/-- **When the register file shows the mode the CPSR names**: exactly when the
last reset or `G` packet, creation included, left SYS or no mode at all in the
CPSR. -/
theorem bankMatches_iff (host : Endian) (mem : Memory) (as : List Action) (p : ArmCore)
    (h : machine (armCreate host mem) as = .ok p) :
    BankMatches p ↔ lastMode as = Mode.sys ∨ lastMode as ∉ Mode.encodings := by
  obtain ⟨hm, hf⟩ := machine_mode host mem as p h
  rw [BankMatches, hm, hf]
  by_cases hin : lastMode as ∈ Mode.encodings
  · simp only [hin, forall_const, not_true, or_false]
    exact eq_comm
  · simp only [hin, false_implies, not_false_iff, or_true]

/-- A `G` packet that names SYS. -/
theorem bankMatches_writeSys :
    BankMatches (gdbWriteGeneralRegisters (coreOfWord 0) (fun _ => 0) 0x1f) :=
  (bankMatches_iff .little _ [.gdbWriteGeneralRegisters (fun _ => 0) 0x1f] _ rfl).mpr
    (Or.inl (by decide))

/-- The state the core is created in shows SYS, while its CPSR names SVC. -/
theorem not_bankMatches_created :
    ¬ ∀ (host : Endian) (mem : Memory) (as : List Action) (p : ArmCore),
      machine (armCreate host mem) as = .ok p → BankMatches p := by
  intro h
  have hm : Mode.sys = modeField resetCpsr :=
    h .little (memoryCreate 4 false fun _ => 0) [] _ rfl (by decide)
  exact absurd hm (by decide)

/-! ### Reads of the SPSR -/

/-- The words that read the SPSR: `mrs` of the SPSR, with everything else that the
decoder takes for it, and an `ldm` that restores the CPSR. -/
def readsSpsr (ins : Word) : Bool :=
  match (getBits ins 27 25).toNat with
  | 0b000 => bit ins 24 && !bit ins 23 && bit ins 22 && !bit ins 20 && !bit ins 4
  | 0b100 => bit ins 22 && bit ins 20 && bit ins 15
  | _ => false

/-- The next step executes a word that reads the SPSR. -/
def ExecutesSpsrRead (p : ArmCore) : Prop :=
  ∃ ins, (armFetch p).1 = some ins ∧ conditionPassed (armFetch p).2 ins = true ∧
    readsSpsr ins = true

section NoSpsr

variable {p : ArmCore} (hp : armCurrentModeHasSpsr p = false)

include hp

theorem armMiscellaneous_nullSpsr_iff (ins : Word) :
    armMiscellaneous p ins = .error .nullSpsr ↔ bit ins 22 = true := by
  have hs : armReadSpsr p = .error .nullSpsr := (readSpsr_eq_nullSpsr_iff p.reg).mpr hp
  cases h : bit ins 22 with
  | true => simp [armMiscellaneous, h, hs]
  | false => simp [armMiscellaneous, h, Pure.pure, Except.pure]

theorem armLoadStoreMultiple_nullSpsr_iff (ins : Word) :
    armLoadStoreMultiple p ins = .error .nullSpsr ↔
      (bit ins 22 && bit ins 20 && bit ins 15) = true := by
  cases h20 : bit ins 20 with
  | false => simp [armLoadStoreMultiple, h20]
  | true =>
    cases hr : (bit ins 22 && bit ins 15) with
    | true =>
      have hl : armLoadStoreMultiple p ins = .error .nullSpsr := by
        rw [armLoadStoreMultiple, h20]
        exact ldm_restore p ins hr hp
      simp_all
    | false =>
      have hl : armLoadStoreMultiple p ins = .ok (blockEnd ins (ldmTransfer ins (blockBegin p ins))) := by
        rw [armLoadStoreMultiple, h20]
        exact ldm_eq p ins hr
      simp_all

/-- **Which words dereference a `NULL` pointer** in a mode without an SPSR. -/
theorem armDispatch_nullSpsr_iff (ins : Word) :
    armDispatch p ins = .error .nullSpsr ↔ readsSpsr ins = true := by
  rw [readsSpsr]
  unfold armDispatch
  split
  next hf =>
    rw [hf]
    by_cases h7 : bit ins 7 ∧ bit ins 4
    · simp [h7]
    · by_cases hm : bit ins 24 ∧ ¬bit ins 23 ∧ ¬bit ins 20 ∧ ¬bit ins 4
      · rw [if_neg h7, if_pos hm, armMiscellaneous_nullSpsr_iff hp]
        simp [hm]
      · rw [if_neg h7, if_neg hm]
        simp only [reduceCtorEq, false_iff, Bool.and_eq_true, Bool.not_eq_true']
        grind
  next hf => simp [hf]
  next hf => simp [hf]
  next hf => simp [hf]
  next hf =>
    rw [hf]
    exact armLoadStoreMultiple_nullSpsr_iff hp ins
  next hf => simp [hf]
  next hf =>
    rw [hf]
    unfold armCoprocessorOthersSwi
    split
    · split <;> simp
    · simp
  next =>
    split
    · contradiction
    · contradiction
    · simp

theorem armStep_nullSpsr_iff : armStep p = .error .nullSpsr ↔ ExecutesSpsrRead p := by
  have hf : armCurrentModeHasSpsr (armFetch p).2 = false :=
    ((SameControl.refl p).armFetch hp).hasSpsr.trans hp
  rw [armStep_eq, armExecuteInstruction, ExecutesSpsrRead]
  generalize armFetch p = f at hf
  obtain ⟨ins, q⟩ := f
  cases ins with
  | none => simp
  | some ins =>
    by_cases hc : conditionPassed q ins = true
    · simp [hc, armDispatch_nullSpsr_iff hf]
    · simp [hc]

end NoSpsr

theorem steps_no_spsr {host : Endian} {mem : Memory} {n : Nat} {p : ArmCore}
    (h : steps (armCreate host mem) n = .ok p) : armCurrentModeHasSpsr p = false := by
  have hi : ∀ a ∈ List.replicate n Action.step, a.Internal := by
    intro a ha
    rw [List.eq_of_mem_replicate ha]
    trivial
  exact (sameControl_of_internal hi h).hasSpsr.trans (armCreate_no_spsr host mem)

theorem act_step_error_iff (p : ArmCore) (e : Halt) :
    act p .step = .error e ↔ armStep p = .error e := by
  cases hs : armStep p with
  | error e' => simp [act, hs, Except.map]
  | ok rq => simp [act, hs, Except.map]

/-- **When a run dereferences no `NULL` pointer**: exactly when no step of it
executes a word that reads the SPSR.  Only `handle_rd15` asks first whether there
is one, and no program can leave the modes that have none. -/
theorem steps_no_nullSpsr_iff (host : Endian) (mem : Memory) (n : Nat) :
    steps (armCreate host mem) n ≠ .error .nullSpsr ↔
      ∀ k < n, ∀ p, steps (armCreate host mem) k = .ok p → ¬ ExecutesSpsrRead p := by
  induction n with
  | zero => simp [steps, machine]
  | succ n ih =>
    rw [steps, machine, List.replicate_succ', Ne, Run.run_concat_error_iff, not_or]
    constructor
    · rintro ⟨hrun, hlast⟩ k hk p h hread
      rcases Nat.lt_succ_iff_lt_or_eq.mp hk with hk | rfl
      · exact ih.mp hrun k hk p h hread
      · refine hlast ⟨p, h, (act_step_error_iff p _).mpr ?_⟩
        exact (armStep_nullSpsr_iff (steps_no_spsr h)).mpr hread
    · intro hall
      refine ⟨ih.mpr fun k hk => hall k (by omega), ?_⟩
      rintro ⟨p, h, herr⟩
      refine hall n (by omega) p h ((armStep_nullSpsr_iff (steps_no_spsr h)).mp ?_)
      exact (act_step_error_iff p _).mp herr

/-- `mrs r0, spsr` as the first instruction. -/
theorem nullSpsr_of_mrs :
    ¬ ∀ (host : Endian) (mem : Memory) (n : Nat),
      steps (armCreate host mem) n ≠ .error .nullSpsr := by
  intro h
  have he : ExecutesSpsrRead (coreOfWord 0xE14F0000) :=
    ⟨0xE14F0000, armFetch_coreOfWord _, by decide +kernel, by decide +kernel⟩
  have hs : armStep (coreOfWord 0xE14F0000) = .error .nullSpsr :=
    (armStep_nullSpsr_iff (armCreate_no_spsr _ _)).mpr he
  have hrun : steps (coreOfWord 0xE14F0000) 1 = .error .nullSpsr := by
    rw [steps, machine, List.replicate_succ', Run.run_concat_error_iff]
    exact Or.inr ⟨_, Run.run_nil _, (act_step_error_iff _ _).mpr hs⟩
  exact h .little (memoryCreate 4 false (Bytes.byteOf .little 4 0xE14F0000)) 1 hrun

end Armator
