import Armator.Gdb.Target

/-!
# What a debugger has written

Requests that execute nothing make the target a store: the registers, the CPSR and the
memory hold what was last written to them, and nothing else has changed
(`converses_store`).  So the answer to a reading request can be read off the requests
before it, whatever they were and in whatever order they came (`session_store`).
-/

namespace Armator

open Text

/-! ### What a request writes -/

/-- The byte that the request stores at index `i` of a memory of this size. -/
def Request.storesAt (size i : ℕ) : Request → Option Byte
  | writeMemory address bytes =>
    if address.toNat ≤ i ∧ i < address.toNat + bytes.length ∧ i < size then
      some (bytes.getD (i - address.toNat) 0)
    else none
  | _ => none

def Request.setsRegister (i : Fin 16) : Request → Option Word
  | writeRegister r value => if r = i then some value else none
  | writeRegisters values _ => some (values i)
  | _ => none

def Request.setsCpsr : Request → Option Word
  | writeRegisters _ cpsr => some cpsr
  | _ => none

theorem storeFitting_memory (p : ArmCore) (a : Word) (bs : List Byte) (i : ℕ) :
    (storeFitting p a bs).mem.memory i =
      ((Request.writeMemory a bs).storesAt p.mem.size.toNat i).getD (p.mem.memory i) := by
  rw [Request.storesAt]
  split
  next h =>
    obtain ⟨k, rfl⟩ := Nat.exists_eq_add_of_le h.1
    rw [storeFitting_add p a bs (by omega) h.2.2, Nat.add_sub_cancel_left, Option.getD_some]
  next h =>
    rw [storeFitting_of_not_mem p a bs (by omega), Option.getD_none]

theorem readRegister_gdbWriteRegister (p : ArmCore) (r i : Fin 16) (value : Word) :
    readRegister (gdbWriteRegister p r value).reg i =
      ((Request.writeRegister r value).setsRegister i).getD (readRegister p.reg i) := by
  rw [Request.setsRegister]
  split
  next h =>
    subst h
    exact readRegister_write_same p.reg r value
  next h => exact readRegister_write_of_ne p.reg value (Ne.symm h)

/-! ### One request -/

/-- What a request does not touch: the processor mode, the registers of the other modes, the
cycle count and the carry of the shifter. -/
structure SameRest (p q : ArmCore) : Prop where
  mode : q.reg.mode = p.reg.mode
  other : ∀ c, (∀ i : Fin 17, cell (getModeNum p.reg) i ≠ c) → q.reg.registers c = p.reg.registers c
  cycleCount : q.cycleCount = p.cycleCount
  shifterCarryOut : q.shifterCarryOut = p.shifterCarryOut
  platform : SamePlatform p q
  order : q.mem.isBigEndian = p.mem.isBigEndian

theorem SameRest.refl (p : ArmCore) : SameRest p p :=
  ⟨rfl, fun _ _ => rfl, rfl, rfl, ⟨rfl, rfl⟩, rfl⟩

theorem SameRest.trans {p q r : ArmCore} (h : SameRest p q) (h' : SameRest q r) : SameRest p r := by
  refine ⟨h'.mode.trans h.mode, fun c hc => ?_, h'.cycleCount.trans h.cycleCount,
    h'.shifterCarryOut.trans h.shifterCarryOut,
    ⟨h'.platform.1.trans h.platform.1, h'.platform.2.trans h.platform.2⟩, h'.order.trans h.order⟩
  rw [h'.other c (by rwa [getModeNum_congr h.mode]), h.other c hc]

theorem sameRest_armWriteRegister (p : ArmCore) (i : Fin 16) (value : Word) :
    SameRest p (armWriteRegister p i value) :=
  ⟨rfl, fun _ hc => Registers.set_of_ne _ _ (hc i.castSucc).symm, rfl, rfl, ⟨rfl, rfl⟩, rfl⟩

theorem sameRest_armWriteCpsr (p : ArmCore) (value : Word) : SameRest p (armWriteCpsr p value) :=
  ⟨rfl, fun _ hc => Registers.set_of_ne _ _ (hc 16).symm, rfl, rfl, ⟨rfl, rfl⟩, rfl⟩

theorem sameRest_gdbWriteGeneralRegisters (p : ArmCore) (values : Fin 16 → Word) (cpsr : Word) :
    SameRest p (gdbWriteGeneralRegisters p values cpsr) := by
  have hfold : SameRest p ((List.finRange 16).foldl (fun p i => armWriteRegister p i (values i)) p) :=
    List.foldlRecOn (motive := SameRest p) (List.finRange 16) _ (.refl p)
      fun q hq i _ => hq.trans (sameRest_armWriteRegister q i (values i))
  exact hfold.trans (sameRest_armWriteCpsr _ cpsr)

/-- **A request that executes nothing** writes what it says and nothing else. -/
theorem Request.Serves.store {target : Endian} {t u : Target} {r : Request} {s : List Byte}
    (h : r.Serves target t s u) (hp : r.Passive) :
    (∀ i, u.core.mem.memory i = (r.storesAt t.core.mem.size.toNat i).getD (t.core.mem.memory i)) ∧
      (∀ i, Armator.readRegister u.core.reg i =
        (r.setsRegister i).getD (Armator.readRegister t.core.reg i)) ∧
      armReadCpsr u.core = r.setsCpsr.getD (armReadCpsr t.core) ∧
      u.exception = t.exception ∧ SameRest t.core u.core := by
  cases h with
  | reason => exact ⟨fun _ => rfl, fun _ => rfl, rfl, rfl, .refl _⟩
  | query => exact ⟨fun _ => rfl, fun _ => rfl, rfl, rfl, .refl _⟩
  | setThread => exact ⟨fun _ => rfl, fun _ => rfl, rfl, rfl, .refl _⟩
  | unsupported => exact ⟨fun _ => rfl, fun _ => rfl, rfl, rfl, .refl _⟩
  | readRegisters => exact ⟨fun _ => rfl, fun _ => rfl, rfl, rfl, .refl _⟩
  | writeRegisters values cpsr =>
    refine ⟨fun i => ?_, fun i => ?_, ?_, rfl, ?_⟩
    · exact congrFun (congrArg Memory.memory (gdbWriteGeneralRegisters_mem t.core values cpsr)) i
    · exact readRegister_gdbWriteGeneralRegisters t.core values cpsr i
    · exact armReadCpsr_writeCpsr _ cpsr
    · exact sameRest_gdbWriteGeneralRegisters t.core values cpsr
  | readRegister => exact ⟨fun _ => rfl, fun _ => rfl, rfl, rfl, .refl _⟩
  | writeRegister r value =>
    refine ⟨fun i => rfl, fun i => ?_, ?_, rfl, ?_⟩
    · exact readRegister_gdbWriteRegister t.core r i value
    · exact armReadCpsr_writeRegister t.core r value
    · exact sameRest_armWriteRegister t.core r value
  | readMemory => exact ⟨fun _ => rfl, fun _ => rfl, rfl, rfl, .refl _⟩
  | writeMemory address bytes =>
    refine ⟨fun i => ?_, fun i => rfl, rfl, rfl, ?_⟩
    · exact storeFitting_memory t.core address bytes i
    · exact ⟨rfl, fun _ _ => rfl, rfl, rfl, ⟨rfl, rfl⟩, rfl⟩
  | step => exact absurd hp id
  | cont => exact absurd hp id

/-! ### Many requests -/

/-- The byte last stored at index `i`, or the one that the target had there. -/
def Target.lastByte (t : Target) (rs : List (Request × List Byte)) (i : ℕ) : Byte :=
  Run.lastSet (Request.storesAt t.core.mem.size.toNat i) (t.core.mem.memory i) (rs.map Prod.fst)

def Target.lastRegister (t : Target) (rs : List (Request × List Byte)) (i : Fin 16) : Word :=
  Run.lastSet (Request.setsRegister i) (readRegister t.core.reg i) (rs.map Prod.fst)

def Target.lastCpsr (t : Target) (rs : List (Request × List Byte)) : Word :=
  Run.lastSet Request.setsCpsr (armReadCpsr t.core) (rs.map Prod.fst)

/-- **The target is a store.**  After any requests that execute nothing, every byte, every
register and the CPSR are what was last written there, and the rest is as it was. -/
theorem converses_store {target : Endian} {t u : Target} {rs : List (Request × List Byte)}
    (h : t.Converses target rs u) (hp : ∀ x ∈ rs, x.1.Passive) :
    (∀ i, u.core.mem.memory i = t.lastByte rs i) ∧
      (∀ i, readRegister u.core.reg i = t.lastRegister rs i) ∧
      armReadCpsr u.core = t.lastCpsr rs ∧ u.exception = t.exception ∧ SameRest t.core u.core := by
  induction h with
  | nil t => exact ⟨fun _ => rfl, fun _ => rfl, rfl, rfl, .refl _⟩
  | @cons t u v r s rs h hrs ih =>
    obtain ⟨hmem, hreg, hcpsr, hexception, hrest⟩ := h.store (hp _ List.mem_cons_self)
    obtain ⟨hmem', hreg', hcpsr', hexception', hrest'⟩ :=
      ih fun x hx => hp x (List.mem_cons_of_mem _ hx)
    refine ⟨fun i => ?_, fun i => ?_, ?_, hexception'.trans hexception, hrest.trans hrest'⟩
    · rw [hmem', Target.lastByte, Target.lastByte, List.map_cons, Run.lastSet_cons, hmem,
        hrest.platform.2]
    · rw [hreg', Target.lastRegister, Target.lastRegister, List.map_cons, Run.lastSet_cons, hreg]
    · rw [hcpsr', Target.lastCpsr, Target.lastCpsr, List.map_cons, Run.lastSet_cons, hcpsr]

/-- What `g` shows of a register that holds the value. -/
def shownRegister (i : Fin 16) (value : Word) : Word := if i = 15 then pcView value - 4 else value

theorem gdbRegister_eq_shownRegister (p : ArmCore) :
    gdbRegister p = fun i => shownRegister i (readRegister p.reg i) := by
  funext i
  rw [gdbRegister, armReadRegister, shownRegister]
  split
  next => rfl
  next => exact BitVec.sub_zero _

theorem readable_eq_map {mem : Memory} (hs : mem.size.toNat < 2 ^ 32) {a : Word} {n : ℕ}
    (h : a.toNat + n ≤ mem.size.toNat) :
    readable mem n a = (List.range n).map fun k => mem.memory (a.toNat + k) := by
  obtain ⟨bs, hbs⟩ : ∃ bs, bs = (List.range n).map fun k => mem.memory (a.toNat + k) := ⟨_, rfl⟩
  have hl : bs.length = n := by
    rw [hbs]
    simp
  rw [← hbs, ← hl]
  refine readable_eq hs (by rw [hl]; exact h) fun k hk => ?_
  subst hbs
  rw [List.getD_eq_getElem _ _ hk, List.getElem_map, List.getElem_range]

/-- **A session reads what was last written.**  After any session of requests that execute
nothing, `m` is answered with the bytes last stored, and `g` with the registers and the CPSR
last set. -/
theorem session_store {target : Endian} {t u : Target} {rs : List (Request × List Byte)}
    (h : t.Converses target rs u) (hp : ∀ x ∈ rs, x.1.Passive)
    (hsize : t.core.mem.size.toNat < 2 ^ 32) :
    ∃ n, ∀ gdb, Shows gdb target t → ∀ toks,
      List.Forall₂ (fun x tok => x.1.Asks t.core.host target n tok) rs toks →
      ∃ g, session gdb toks = .ok g ∧
        (∀ a size tok, size ≤ 509 → a.toNat + size ≤ t.core.mem.size.toNat →
          (Request.readMemory a size).Asks t.core.host target n tok →
          ∃ g', onToken g tok = .ok g' ∧ g'.wire = g.wire ++ (ascii "+" ++ frame
            (((List.range size).map fun k => t.lastByte rs (a.toNat + k)).flatMap hexByte))) ∧
        ∀ tok, Request.readRegisters.Asks t.core.host target n tok →
          ∃ g', onToken g tok = .ok g' ∧ g'.wire = g.wire ++ (ascii "+" ++ frame
            (registerFields t.core.host target (fun i => shownRegister i (t.lastRegister rs i))
              (t.lastCpsr rs)).flatten) := by
  obtain ⟨n, hn⟩ := session_converses h hsize
  obtain ⟨hmem, hreg, hcpsr, -, hrest⟩ := converses_store h hp
  obtain ⟨hhost, hsz⟩ := hrest.platform
  rw [← hsz, ← hhost]
  rw [← hhost] at hn
  rw [← hsz] at hsize
  refine ⟨n, fun gdb hg toks htoks => ?_⟩
  obtain ⟨g, hsession, hshows, -⟩ := hn gdb hg toks htoks
  refine ⟨g, hsession, ?_, ?_⟩
  · intro a size tok hl ha htok
    have hreadable := readable_eq_map hsize ha
    simp only [hmem] at hreadable
    have hserves : Request.Serves target u (.readMemory a size) _ u :=
      .readMemory u a size (by omega) (by rw [hreadable]; simpa using hl)
    rw [hreadable] at hserves
    obtain ⟨g', hg', hr⟩ := onToken_serves_passive hserves trivial hsize hshows
      (htok.mono (Nat.zero_le n))
    exact ⟨g', hg', by rw [hr.wire, Gdb.answered, List.append_assoc]⟩
  · intro tok htok
    have hserves : Request.Serves target u .readRegisters _ u := .readRegisters u
    rw [gdbRegister_eq_shownRegister, hcpsr] at hserves
    simp only [hreg] at hserves
    obtain ⟨g', hg', hr⟩ := onToken_serves_passive hserves trivial hsize hshows
      (htok.mono (Nat.zero_le n))
    exact ⟨g', hg', by rw [hr.wire, Gdb.answered, List.append_assoc]⟩

/-- The second of two bytes is stored again, and read. -/
theorem session_store_upload :
    ∃ n, ∀ toks, List.Forall₂ (fun x tok => x.1.Asks .little .little n tok)
        [(Request.writeMemory 0 [1, 2], ascii "OK"), (.writeRegister 5 7, ascii "OK"),
          (.writeMemory 1 [3], ascii "OK")] toks →
      ∃ g, session (gdbInitData (coreOfWord 0) .little fun _ => 0) toks = .ok g ∧
        ∀ tok, (Request.readMemory 0 2).Asks .little .little n tok →
          ∃ g', onToken g tok = .ok g' ∧ g'.wire = g.wire ++ (ascii "+" ++ frame (ascii "0103")) := by
  have h : Target.Converses .little ⟨coreOfWord 0, 0⟩
      [(.writeMemory 0 [1, 2], ascii "OK"), (.writeRegister 5 7, ascii "OK"),
        (.writeMemory 1 [3], ascii "OK")] _ :=
    .cons (.writeMemory _ 0 [1, 2] (by decide)) (.cons (.writeRegister _ 5 7)
      (.cons (.writeMemory _ 1 [3] (by decide)) (.nil _)))
  obtain ⟨n, hn⟩ := session_store h (by simp [Request.Passive]) (by decide)
  refine ⟨n, fun toks htoks => ?_⟩
  obtain ⟨g, hg, hread, -⟩ := hn (gdbInitData (coreOfWord 0) .little fun _ => 0)
    ⟨rfl, rfl, rfl, rfl⟩ toks htoks
  exact ⟨g, hg, fun tok htok => hread 0 2 tok (by decide) (by decide) htok⟩

end Armator
