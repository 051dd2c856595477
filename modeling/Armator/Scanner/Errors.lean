import Armator.Gdb.Framing
import Armator.Lib.Outcome
import Armator.Scanner

/-!
# The scanner's error buffer

`add_character_to_error` reports a full buffer before it stores the next character, so
`len` never leaves the range from 0 to 1023 and the NUL always fits (`Pending`).  Hence of
`k` characters without a token between them the first 1023 are reported by the next
character, and so on, and what is left by the next token: in all `⌈k / 1023⌉` requests.

`requests n gdb` is `gdb_require_retransmission`, called `n` times.
-/

namespace Armator

open Text
open Run (ok_bind error_bind)

/-! ### Requests -/

def requests : ℕ → Gdb → Except Stop Gdb
  | 0, gdb => .ok gdb
  | n + 1, gdb => gdbRequireRetransmission gdb >>= requests n

theorem requests_open (n : ℕ) (gdb : Gdb) (h : gdb.shut = false) :
    requests n gdb = .ok { gdb with wire := gdb.wire ++ List.replicate n (char '-') } := by
  induction n generalizing gdb with
  | zero => simp [requests]
  | succ n ih =>
    have hrest := ih { gdb with wire := gdb.wire ++ ascii "-" } h
    rw [requests, gdbRequireRetransmission, rioWriten_open gdb h, ok_bind, hrest]
    simp [List.replicate_succ, ascii, char]

theorem requests_shut {n : ℕ} (hn : n ≠ 0) (gdb : Gdb) (h : gdb.shut = true) :
    requests n gdb = .error .brokenPipe := by
  obtain ⟨n, rfl⟩ := Nat.exists_eq_succ_of_ne_zero hn
  rw [requests, gdbRequireRetransmission, rioWriten_shut gdb h (by decide), error_bind]

theorem requests_succ (n : ℕ) (gdb : Gdb) :
    requests (n + 1) gdb = requests n gdb >>= gdbRequireRetransmission := by
  induction n generalizing gdb with
  | zero => exact bind_pure _
  | succ n ih =>
    rw [requests, requests, bind_assoc]
    exact bind_congr ih

/-! ### One call -/

theorem handleError_zero (gdb : Gdb) (buffer : Vector Byte maxErrorSize) :
    handleError ⟨gdb, buffer, 0⟩ = .ok ⟨gdb, buffer, 0⟩ := rfl

theorem handleError_pending (gdb : Gdb) (buffer : Vector Byte maxErrorSize) {m : ℕ} (h0 : m ≠ 0)
    (hm : m < maxErrorSize) :
    handleError ⟨gdb, buffer, m⟩ =
      gdbRequireRetransmission gdb >>= fun gdb => .ok ⟨gdb, buffer.set m 0 hm, 0⟩ := by
  rw [handleError, if_pos (Int.natCast_ne_zero.mpr h0), Slots.write_of_lt _ _ hm, ok_bind]
  rfl

theorem addCharacterToError_room (gdb : Gdb) (buffer : Vector Byte maxErrorSize) {m : ℕ}
    (hm : m < maxErrorSize) (hroom : m ≠ 1023) (c : Byte) :
    addCharacterToError ⟨gdb, buffer, m⟩ c = .ok ⟨gdb, buffer.set m c hm, (m + 1 : ℕ)⟩ := by
  have hlen : ¬ (m : ℤ) > (maxErrorSize : ℤ) - 2 := by
    rw [maxErrorSize] at hm ⊢
    omega
  rw [addCharacterToError, if_neg hlen, pure_bind]
  dsimp only
  rw [Slots.write_of_lt _ _ hm, ok_bind, Nat.cast_succ]
  rfl

/-- A full buffer is reported first. -/
theorem addCharacterToError_full (gdb : Gdb) (buffer : Vector Byte maxErrorSize) {m : ℕ}
    (hm : m < maxErrorSize) (hfull : m = 1023) (c : Byte) :
    addCharacterToError ⟨gdb, buffer, m⟩ c =
      gdbRequireRetransmission gdb >>= fun gdb =>
        .ok ⟨gdb, (buffer.set m 0 hm).set 0 c (Nat.zero_lt_of_lt hm), (1 : ℕ)⟩ := by
  have hlen : (m : ℤ) > (maxErrorSize : ℤ) - 2 := by
    rw [maxErrorSize]
    omega
  have hzero : Slots.write Stop.overflow (buffer.set m 0 hm) (0 : ℤ) c =
      .ok ((buffer.set m 0 hm).set 0 c (Nat.zero_lt_of_lt hm)) := Slots.write_of_lt _ _ _ c
  rw [addCharacterToError, if_pos hlen, handleError_pending gdb buffer (by omega) hm, bind_assoc]
  refine bind_congr fun g => ?_
  rw [ok_bind]
  dsimp only
  rw [hzero, ok_bind]
  rfl

/-! ### Any calls in any order -/

/-- There is room for the NUL. -/
inductive Pending : ParserData → Prop
  | intro (gdb : Gdb) (buffer : Vector Byte maxErrorSize) {m : ℕ} (hm : m < maxErrorSize) :
    Pending ⟨gdb, buffer, m⟩

theorem Pending.len_le {data : ParserData} (h : Pending data) : 0 ≤ data.len ∧ data.len ≤ 1023 := by
  obtain @⟨gdb, buffer, m, hm⟩ := h
  exact ⟨Int.natCast_nonneg m, Int.ofNat_le.mpr (Nat.le_of_lt_succ hm)⟩

/-- The functions that work on the buffer. -/
inductive ErrorCall
  | addCharacter (c : Byte)
  | handle

def ErrorCall.call (data : ParserData) : ErrorCall → Except Stop ParserData
  | .addCharacter c => addCharacterToError data c
  | .handle => handleError data

theorem gdbRequireRetransmission_meets (gdb : Gdb) :
    Outcome.Meets (· = .brokenPipe) (fun _ => True) (gdbRequireRetransmission gdb) := by
  rw [gdbRequireRetransmission]
  cases h : gdb.shut with
  | true =>
    rw [rioWriten_shut gdb h (by decide)]
    exact .error rfl
  | false =>
    rw [rioWriten_open gdb h]
    exact .ok trivial

/-- **A call keeps the room for the NUL** and stays in the buffer. -/
theorem ErrorCall.call_pending {data : ParserData} (h : Pending data) (call : ErrorCall) :
    Outcome.Meets (· = .brokenPipe) Pending (call.call data) := by
  obtain @⟨gdb, buffer, m, hm⟩ := h
  have hrequest := gdbRequireRetransmission_meets gdb
  cases call with
  | addCharacter c =>
    by_cases hfull : m = 1023
    · rw [ErrorCall.call, addCharacterToError_full gdb buffer hm hfull]
      exact hrequest.bind fun g _ => .ok (.intro g _ (by decide))
    · rw [ErrorCall.call, addCharacterToError_room gdb buffer hm hfull]
      refine .ok (.intro gdb _ ?_)
      rw [maxErrorSize] at hm ⊢
      omega
  | handle =>
    by_cases h0 : m = 0
    · subst h0
      exact .ok (.intro gdb buffer hm)
    · rw [ErrorCall.call, handleError_pending gdb buffer h0 hm]
      exact hrequest.bind fun g _ => .ok (.intro g _ (m := 0) (by decide))

theorem run_errorCall_pending (gdb : Gdb) (buffer : Vector Byte maxErrorSize)
    (calls : List ErrorCall) :
    Outcome.Meets (· = .brokenPipe) Pending (Run.run ErrorCall.call ⟨gdb, buffer, 0⟩ calls) :=
  Outcome.meets_foldlM (fun _ call h => call.call_pending h) calls (.intro gdb buffer (m := 0) (by decide))

/-! ### Characters without a token -/

/-- The characters fill the buffer `q` times, and at the end it holds `r` of them. -/
theorem run_other (cs : List Byte) (buffer : Vector Byte maxErrorSize) {m : ℕ}
    (hm : m < maxErrorSize) :
    ∃ (q r : ℕ) (buffer' : Vector Byte maxErrorSize),
      (∀ gdb, Run.run onLexeme ⟨gdb, buffer, m⟩ (cs.map .other) =
        requests q gdb >>= fun gdb => .ok ⟨gdb, buffer', r⟩) ∧
      m + cs.length = 1023 * q + r ∧ r < maxErrorSize ∧ (m + cs.length ≠ 0 → r ≠ 0) := by
  induction cs generalizing buffer m with
  | nil => exact ⟨0, m, buffer, fun gdb => rfl, by simp, hm, by simp⟩
  | cons c cs ih =>
    rw [List.length_cons]
    by_cases hfull : m = 1023
    · -- the request comes before the character, which is then the only one
      obtain ⟨q, r, buffer', hrun, hsum, hr, hne⟩ :=
        ih ((buffer.set m 0 hm).set 0 c (Nat.zero_lt_of_lt hm)) (m := 1) (by decide)
      refine ⟨q + 1, r, buffer', fun gdb => ?_, by omega, hr, fun _ => hne (by omega)⟩
      rw [List.map_cons, Run.run_cons, onLexeme, addCharacterToError_full gdb buffer hm hfull,
        requests, bind_assoc, bind_assoc]
      exact bind_congr hrun
    · have hm' : m + 1 < maxErrorSize := by
        rw [maxErrorSize] at hm ⊢
        omega
      obtain ⟨q, r, buffer', hrun, hsum, hr, hne⟩ := ih (buffer.set m c hm) hm'
      refine ⟨q, r, buffer', fun gdb => ?_, by omega, hr, fun _ => hne (by omega)⟩
      rw [List.map_cons, Run.run_cons, onLexeme, addCharacterToError_room gdb buffer hm hfull,
        ok_bind, hrun]

theorem onLexeme_token (data : ParserData) (t : Token) :
    onLexeme data (.token t) =
      handleError data >>= fun data => (onToken data.gdb t).map fun gdb => { data with gdb := gdb } := by
  rw [onLexeme]
  refine bind_congr fun data => ?_
  cases onToken data.gdb t <;> rfl

/-- Where a token ends the characters, what is left of them is reported first. -/
theorem run_other_token (cs : List Byte) (buffer : Vector Byte maxErrorSize) (t : Token) :
    ∃ buffer' : Vector Byte maxErrorSize, ∀ gdb,
      Run.run onLexeme ⟨gdb, buffer, 0⟩ (cs.map .other ++ [.token t]) =
        requests (cs.length ⌈/⌉ 1023) gdb >>= fun gdb =>
          (onToken gdb t).map fun gdb => ⟨gdb, buffer', 0⟩ := by
  obtain ⟨q, r, buffer', hrun, hsum, hr, hne⟩ := run_other cs buffer (m := 0) (by decide)
  have hrun : ∀ gdb, Run.run onLexeme ⟨gdb, buffer, 0⟩ (cs.map .other) = _ := hrun
  rw [Nat.ceilDiv_eq_add_pred_div]
  rw [maxErrorSize] at hr
  by_cases h0 : r = 0
  · -- there are no characters
    subst h0
    have hq : (cs.length + 1023 - 1) / 1023 = q := by omega
    refine ⟨buffer', fun gdb => ?_⟩
    rw [Run.run_append, hrun, bind_assoc, hq]
    refine bind_congr fun g => ?_
    rw [ok_bind, Run.run_singleton, onLexeme_token]
    rfl
  · have hq : (cs.length + 1023 - 1) / 1023 = q + 1 := by omega
    refine ⟨buffer'.set r 0 hr, fun gdb => ?_⟩
    rw [Run.run_append, hrun, bind_assoc, hq, requests_succ, bind_assoc]
    refine bind_congr fun g => ?_
    rw [ok_bind, Run.run_singleton, onLexeme_token, handleError_pending g buffer' h0 hr, bind_assoc]
    rfl

/-- **The error buffer is never left, and `k` characters between two tokens cost
`⌈k / 1023⌉` requests**, all of them before the second token is handled. -/
theorem errorBuffer (gdb : Gdb) (buffer : Vector Byte maxErrorSize) :
    (∀ calls : List ErrorCall,
      Run.run ErrorCall.call ⟨gdb, buffer, 0⟩ calls ≠ .error .overflow ∧
      ∀ data, Run.run ErrorCall.call ⟨gdb, buffer, 0⟩ calls = .ok data →
        0 ≤ data.len ∧ data.len ≤ 1023) ∧
    ∀ (cs : List Byte) (t : Token), ∃ buffer' : Vector Byte maxErrorSize,
      Run.run onLexeme ⟨gdb, buffer, 0⟩ (cs.map .other ++ [.token t]) =
        if gdb.shut ∧ cs ≠ [] then .error .brokenPipe
        else
          (onToken { gdb with
            wire := gdb.wire ++ List.replicate (cs.length ⌈/⌉ 1023) (char '-') } t).map
              fun gdb => ⟨gdb, buffer', 0⟩ := by
  constructor
  · intro calls
    have hcalls := run_errorCall_pending gdb buffer calls
    refine ⟨fun h => ?_, fun data h => (hcalls.of_ok h).len_le⟩
    cases hcalls.of_error h
  · intro cs t
    obtain ⟨buffer', hrun⟩ := run_other_token cs buffer t
    refine ⟨buffer', (hrun gdb).trans ?_⟩
    rcases eq_or_ne cs [] with rfl | hcs
    · rw [if_neg (fun h => h.2 rfl), List.length_nil, zero_ceilDiv, requests, ok_bind,
        List.replicate_zero, List.append_nil]
    · by_cases hshut : gdb.shut = true
      · have hpos : cs.length ≠ 0 := fun h => hcs (List.length_eq_zero_iff.mp h)
        have hceil : cs.length ⌈/⌉ 1023 ≠ 0 := by
          rw [Nat.ceilDiv_eq_add_pred_div]
          omega
        rw [if_pos ⟨hshut, hcs⟩, requests_shut hceil gdb hshut, error_bind]
      · rw [if_neg (fun h => hshut h.1), requests_open _ gdb (Bool.eq_false_iff.mpr hshut), ok_bind]

/-! ### Whole connections -/

theorem onLexeme_pending {data data' : ParserData} (h : Pending data) {l : Lexeme}
    (hl : onLexeme data l = .ok data') : Pending data' := by
  cases l with
  | token t =>
    rw [onLexeme_token] at hl
    cases hd : handleError data with
    | error e =>
      rw [hd] at hl
      cases hl
    | ok d =>
      rw [hd, ok_bind] at hl
      obtain @⟨gdb, buffer, m, hm⟩ := (ErrorCall.handle.call_pending h).of_ok hd
      cases ht : onToken gdb t with
      | error e => simp [ht, Except.map] at hl
      | ok g =>
        simp only [ht, Except.map, Except.ok.injEq] at hl
        subst hl
        exact .intro g buffer hm
  | other c => exact ((ErrorCall.addCharacter c).call_pending h).of_ok hl
  | newline =>
    cases hl
    exact h

/-- **The buffer has room for its NUL at every point of a connection.** -/
theorem run_onLexeme_pending (gdb : Gdb) (buffer : Vector Byte maxErrorSize) (ls : List Lexeme)
    {data : ParserData} (h : Run.run onLexeme ⟨gdb, buffer, 0⟩ ls = .ok data) : Pending data := by
  have h0 : Pending ⟨gdb, buffer, 0⟩ := .intro gdb buffer (m := 0) (by decide)
  exact Run.run_history (R := fun _ => Pending) h0 (fun _ _ _ _ hd hl => onLexeme_pending hd hl) ls data h

theorem run_onLexeme_tokens (gdb : Gdb) (buffer : Vector Byte maxErrorSize) (ts : List Token) :
    Run.run onLexeme ⟨gdb, buffer, 0⟩ (ts.map .token) =
      (session gdb ts).map fun gdb => ⟨gdb, buffer, 0⟩ := by
  induction ts generalizing gdb with
  | nil => rfl
  | cons t ts ih =>
    rw [List.map_cons, Run.run_cons, onLexeme_token, handleError_zero, ok_bind, session, Run.run_cons]
    cases onToken gdb t with
    | error e => rfl
    | ok g => exact ih g

/-- **A connection without errors is its tokens**, one after the other. -/
theorem gdbScanner_tokens (arm : ArmCore) (target : Endian) (garbage : Nat → Byte)
    (buffer : Vector Byte maxErrorSize) (ts : List Token) :
    gdbScanner arm target garbage buffer (ts.map .token) =
      (session (gdbInitData arm target garbage) ts).map fun gdb => ⟨gdb, buffer, 0⟩ := by
  rw [gdbScanner, run_onLexeme_tokens]
  cases session (gdbInitData arm target garbage) ts with
  | error e => rfl
  | ok g => exact handleError_zero g buffer

end Armator
