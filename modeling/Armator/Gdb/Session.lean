import Armator.Gdb.Handlers

/-!
# Sessions

The reply discipline of a connection, as the debugger sees it.  A `Line` is what a
session has come to: the reply that was sent last, and whether the connection has been
shut down.  `Line.Sends` says what each token makes the simulator send, and a
`Transcript` is a list of tokens with what was sent for each.

A `k` packet shuts the connection down for writing.  Nothing can be sent over it any
more, and the first token that has something to send ends the process in
`Rio_writen`.  Up to there, every session follows the discipline, and it stops only in
a handler that does not return (`session_transcript`).
-/

namespace Armator

open Text

structure Line where
  last : List Byte
  closed : Bool

def Token.Kills : Token → Prop
  | .packet p _ _ => p.Valid ∧ p.index = char 'k'
  | _ => False

/-- **What a token makes the simulator send.** -/
inductive Line.Sends : Line → Token → List Byte → Line → Prop
  | ack (line : Line) : Sends line .ack [] line
  /-- The reply that was sent last, byte for byte. -/
  | nack {line : Line} (h : line.closed = true → line.last = []) : Sends line .nack line.last line
  | wrong {line : Line} {p : Packet} {behind : List Byte} {l : Locals} (hv : ¬ p.Valid)
      (ho : line.closed = false) : Sends line (.packet p behind l) (ascii "-") line
  | kill {line : Line} {p : Packet} {behind : List Byte} {l : Locals} (hv : p.Valid)
      (hk : p.index = char 'k') (ho : line.closed = false) :
      Sends line (.packet p behind l) (ascii "+") { line with closed := true }
  | reply {line : Line} {p : Packet} {behind : List Byte} {l : Locals} {s : List Byte} (hv : p.Valid)
      (hk : p.index ≠ char 'k') (ho : line.closed = false)
      (hs : ∀ b ∈ s, b ≠ char '$' ∧ b ≠ char '#') :
      Sends line (.packet p behind l) (ascii "+" ++ frame s) { line with last := frame s }

/-- The tokens of a session and what was sent for each. -/
inductive Transcript : List Token → List (List Byte) → Line → Prop
  | nil : Transcript [] [] ⟨[], false⟩
  | concat {ts : List Token} {outs : List (List Byte)} {line line' : Line} {t : Token}
      {out : List Byte} (h : Transcript ts outs line) (ht : line.Sends t out line') :
      Transcript (ts ++ [t]) (outs ++ [out]) line'

/-- The connection is shut down exactly when there has been a `k`. -/
theorem Transcript.closed_iff {ts : List Token} {outs : List (List Byte)} {line : Line}
    (h : Transcript ts outs line) : line.closed = true ↔ ∃ t ∈ ts, t.Kills := by
  induction h with
  | nil => simp
  | concat h ht ih =>
    simp only [List.mem_append, List.mem_singleton, or_and_right, exists_or, exists_eq_left]
    rw [← ih]
    cases ht with
    | ack => simp [Token.Kills]
    | nack => simp [Token.Kills]
    | wrong hv ho => simp [Token.Kills, hv]
    | kill hv hk ho => simp [Token.Kills, hv, hk]
    | reply hv hk ho hs => simp [Token.Kills, hk]

/-! ### One token -/

def Gdb.line (gdb : Gdb) : Line := ⟨gdb.stored, gdb.shut⟩

theorem shut_of_onToken_packet {gdb g : Gdb} {p : Packet} {behind : List Byte} {l : Locals}
    (h : onToken gdb (.packet p behind l) = .ok g) : gdb.shut = false := by
  cases ho : gdb.shut with
  | false => rfl
  | true =>
    rw [onToken_shut gdb ho] at h
    cases h

theorem onToken_wrong (gdb : Gdb) {p : Packet} (hv : ¬ p.Valid) (behind : List Byte) (l : Locals) :
    onToken gdb (.packet p behind l) = rioWriten gdb (ascii "-") := by
  rw [onToken, gdbPacketAnalysis_text, if_neg hv]
  rfl

theorem onToken_kill (gdb : Gdb) (ho : gdb.shut = false) {p : Packet} (hv : p.Valid)
    (hk : p.index = char 'k') (behind : List Byte) (l : Locals) :
    onToken gdb (.packet p behind l) =
      .ok { gdb with wire := gdb.wire ++ ascii "+", shut := true } := by
  rw [onToken_valid gdb ho hv, hk]
  rfl

/-- **A token that is dealt with sends what it should.** -/
theorem onToken_sends {gdb g : Gdb} {t : Token} (h : onToken gdb t = .ok g) :
    ∃ out, gdb.line.Sends t out g.line ∧ g.wire = gdb.wire ++ out := by
  cases t with
  | ack =>
    cases h
    exact ⟨[], .ack _, (List.append_nil _).symm⟩
  | nack =>
    by_cases hs : gdb.stored = []
    · rw [onToken, gdbTransmitPacket, rioWriten, if_pos hs] at h
      cases h
      refine ⟨gdb.stored, .nack fun _ => hs, ?_⟩
      rw [hs, List.append_nil]
    · obtain ⟨ho, rfl⟩ := rioWriten_ok hs h
      have hopen : gdb.line.closed = true → gdb.line.last = [] := by
        intro hc
        exact absurd (ho.symm.trans hc) Bool.false_ne_true
      exact ⟨gdb.stored, .nack hopen, rfl⟩
  | packet p behind l =>
    have ho := shut_of_onToken_packet h
    by_cases hv : p.Valid
    · by_cases hk : p.index = char 'k'
      · rw [onToken_kill gdb ho hv hk] at h
        cases h
        exact ⟨ascii "+", .kill hv hk ho, rfl⟩
      · -- the handler, after the acknowledgement
        have hk' : handler p.index ≠ some .killRequest :=
          fun e => hk ((handler_eq_killRequest_iff _).mp e)
        rw [onToken_valid gdb ho hv] at h
        obtain ⟨s, ha⟩ := (gdbDispatch_answers l { gdb with wire := gdb.wire ++ ascii "+" } ho p
          behind hk').answered h
        refine ⟨ascii "+" ++ frame s, ?_, ?_⟩
        · have hline : g.line = { gdb.line with last := frame s } := by
            rw [Gdb.line, ha.stored, ha.shut]
            rfl
          rw [hline]
          exact .reply hv hk ho ha.plain
        · rw [ha.wire, List.append_assoc]
    · rw [onToken_wrong gdb hv] at h
      obtain ⟨-, rfl⟩ := rioWriten_ok (by decide) h
      exact ⟨ascii "-", .wrong hv ho, rfl⟩

/-- **Why a token is not dealt with**: the connection is shut down, or a handler does
not return. -/
theorem onToken_error {gdb : Gdb} {t : Token} {e : Stop} (h : onToken gdb t = .error e) :
    gdb.shut = true ∧ e = .brokenPipe ∨
      gdb.shut = false ∧ ∃ p behind l, t = .packet p behind l ∧ p.Valid ∧ p.index ≠ char 'k' ∧
        gdbDispatch l { gdb with wire := gdb.wire ++ ascii "+" } p.index (p.argument behind) =
          .error e := by
  rcases Bool.eq_false_or_eq_true gdb.shut with ho | ho
  · refine Or.inl ⟨ho, ?_⟩
    cases t with
    | ack => cases h
    | nack =>
      by_cases hs : gdb.stored = []
      · rw [onToken, gdbTransmitPacket, rioWriten, if_pos hs] at h
        cases h
      · rw [onToken, gdbTransmitPacket, rioWriten_shut gdb ho hs] at h
        exact (Except.error.inj h).symm
    | packet p behind l =>
      rw [onToken_shut gdb ho] at h
      exact (Except.error.inj h).symm
  · refine Or.inr ⟨ho, ?_⟩
    cases t with
    | ack => cases h
    | nack =>
      rw [onToken, gdbTransmitPacket, rioWriten_open gdb ho] at h
      cases h
    | packet p behind l =>
      by_cases hv : p.Valid
      · by_cases hk : p.index = char 'k'
        · rw [onToken_kill gdb ho hv hk] at h
          cases h
        · rw [onToken_valid gdb ho hv] at h
          exact ⟨p, behind, l, rfl, hv, hk, h⟩
      · rw [onToken_wrong gdb hv, rioWriten_open gdb ho] at h
        cases h

/-! ### Whole sessions -/

section Session

variable (arm : ArmCore) (target : Endian) (garbage : Nat → Byte)

theorem transcript_of_session (ts : List Token) (g : Gdb)
    (h : session (gdbInitData arm target garbage) ts = .ok g) :
    ∃ outs, Transcript ts outs g.line ∧ g.wire = outs.flatten := by
  refine Run.run_history (R := fun ts g => ∃ outs, Transcript ts outs g.line ∧ g.wire = outs.flatten)
    ?_ ?_ ts g h
  · exact ⟨[], .nil, rfl⟩
  · rintro ts t gdb g ⟨outs, hts, hwire⟩ ht
    obtain ⟨out, hsends, hout⟩ := onToken_sends ht
    refine ⟨outs ++ [out], hts.concat hsends, ?_⟩
    rw [hout, hwire, List.flatten_concat]

/-- **The reply discipline.**  A session that gets through is a transcript: what went
over the wire is what the tokens made it send, one after the other.  And one that does
not get through stops at a request whose handler does not return, or after a `k`. -/
theorem session_transcript (ts : List Token) :
    (∀ g, session (gdbInitData arm target garbage) ts = .ok g →
      ∃ outs, Transcript ts outs g.line ∧ g.wire = outs.flatten) ∧
    ∀ e, session (gdbInitData arm target garbage) ts = .error e →
      ∃ ts₁ t ts₂ g, ts = ts₁ ++ t :: ts₂ ∧ session (gdbInitData arm target garbage) ts₁ = .ok g ∧
        ((∃ u ∈ ts₁, u.Kills) ∧ e = .brokenPipe ∨
          (∀ u ∈ ts₁, ¬ u.Kills) ∧ ∃ p behind l, t = .packet p behind l ∧ p.Valid ∧
            p.index ≠ char 'k' ∧
            gdbDispatch l { g with wire := g.wire ++ ascii "+" } p.index (p.argument behind) =
              .error e) := by
  refine ⟨transcript_of_session arm target garbage ts, ?_⟩
  intro e he
  obtain ⟨ts₁, t, ts₂, g, rfl, hg, ht⟩ := Run.run_error he
  refine ⟨ts₁, t, ts₂, g, rfl, hg, ?_⟩
  obtain ⟨outs, hts, -⟩ := transcript_of_session arm target garbage ts₁ g hg
  rcases onToken_error ht with ⟨hs, rfl⟩ | ⟨ho, hp⟩
  · exact Or.inl ⟨hts.closed_iff.mp hs, rfl⟩
  · refine Or.inr ⟨?_, hp⟩
    intro u hu huk
    have hs : g.shut = true := hts.closed_iff.mpr ⟨u, hu, huk⟩
    exact absurd (ho.symm.trans hs) Bool.false_ne_true

end Session

/-! ### After a kill -/

def freshGdb : Gdb := gdbInitData (coreOfWord 0) .little fun _ => 0

/-- The frame of a text, as the scanner hands it over. -/
def frameToken (s : List Byte) (hs : ∀ b ∈ s, b ≠ char '$' ∧ b ≠ char '#') : Token :=
  .packet (framePacket s hs) [] ⟨0, fun _ => 0, 0⟩

theorem session_reason :
    ∃ g, session freshGdb [frameToken (ascii "?") (by decide)] = .ok g ∧ g.shut = false ∧
      g.stored = frame (ascii "S05") := by
  obtain ⟨g, hg, hr⟩ := gdbSendData_replies { freshGdb with wire := ascii "+" } rfl
    (s := ascii "S05") (by decide) (by decide)
  refine ⟨g, ?_, hr.shut, hr.stored⟩
  have h0 : Run.run onToken freshGdb [] = .ok freshGdb := rfl
  refine Run.run_concat_of_ok h0 ?_
  rw [frameToken, onToken_valid freshGdb rfl (framePacket_valid _ _)]
  exact hg

/-- `?` and a request for retransmission: the reply is sent twice. -/
theorem session_transcript_nack :
    ∃ g outs, session freshGdb [frameToken (ascii "?") (by decide), .nack] = .ok g ∧
      Transcript [frameToken (ascii "?") (by decide), .nack] outs g.line ∧
      g.wire = outs.flatten := by
  obtain ⟨g, hg, ho, -⟩ := session_reason
  have hn : session freshGdb [frameToken (ascii "?") (by decide), .nack] =
      .ok { g with wire := g.wire ++ g.stored } :=
    Run.run_concat_of_ok hg (rioWriten_open g ho g.stored)
  obtain ⟨outs, hts, hwire⟩ := (session_transcript (coreOfWord 0) .little (fun _ => 0)
    [frameToken (ascii "?") (by decide), .nack]).1 _ hn
  exact ⟨_, outs, hn, hts, hwire⟩

/-- `?`, `k` and a request for retransmission: it is not sent again, but the process
ends. -/
theorem nack_after_kill :
    session freshGdb [frameToken (ascii "?") (by decide), frameToken (ascii "k") (by decide), .nack] =
      .error .brokenPipe ∧
    ¬ ∀ (arm : ArmCore) (target : Endian) (garbage : Nat → Byte) (ts : List Token) (g : Gdb),
      session (gdbInitData arm target garbage) ts = .ok g →
        ∃ g', onToken g .nack = .ok g' ∧ g'.wire = g.wire ++ g.stored := by
  obtain ⟨g, hg, ho, hstored⟩ := session_reason
  have hk : session freshGdb [frameToken (ascii "?") (by decide), frameToken (ascii "k") (by decide)] =
      .ok { g with wire := g.wire ++ ascii "+", shut := true } := by
    refine Run.run_concat_of_ok hg ?_
    exact onToken_kill g ho (framePacket_valid _ _) (by decide) _ _
  have hn : onToken { g with wire := g.wire ++ ascii "+", shut := true } .nack =
      .error .brokenPipe := by
    refine rioWriten_shut { g with wire := g.wire ++ ascii "+", shut := true } rfl ?_
    show g.stored ≠ []
    rw [hstored]
    exact frame_ne_nil _
  refine ⟨Run.run_concat_error_iff.mpr (Or.inr ⟨_, hk, hn⟩), ?_⟩
  intro hall
  obtain ⟨g', hg', -⟩ := hall (coreOfWord 0) .little (fun _ => 0) _ _ hk
  rw [hn] at hg'
  cases hg'

end Armator
