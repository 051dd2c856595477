import Armator.Gdb.Session
import Armator.Gdb.Wire
import Armator.Scanner.Errors
import Armator.Scanner.Lexer

/-!
# Connections as streams of bytes

A connection is whatever the other side sends, cut into lexemes by the scanner.  What is
not a packet with the right checksum is noise: acknowledgements, requests for
retransmission, packets that were damaged and characters that belong to nothing.  Noise
makes the simulator write to the wire, and does nothing else to it
(`onLexeme_noise`): the core, the last exception and the last reply come from the packets
that were accepted, in their order (`connection_noise`).

What the simulator writes is a stream of the same language: read by the same rules, it is
for each lexeme the answer that this lexeme should get (`connection_dialogue`).
-/

namespace Armator

open Text
open Run (ok_bind error_bind)

/-- The packets with the right checksum. -/
def accepted : List Lexeme → List Token
  | [] => []
  | .token (.packet p behind l) :: ls =>
    if p.Valid then .packet p behind l :: accepted ls else accepted ls
  | _ :: ls => accepted ls

def Lexeme.Noise : Lexeme → Prop
  | .token (.packet p _ _) => ¬ p.Valid
  | _ => True

theorem accepted_noise {l : Lexeme} (h : l.Noise) (ls : List Lexeme) :
    accepted (l :: ls) = accepted ls := by
  cases l with
  | token t =>
    cases t with
    | ack => rfl
    | nack => rfl
    | packet p behind l => exact if_neg h
  | other c => rfl
  | newline => rfl

/-! ### Noise -/

/-- The computation ends in a state that shows `gdb` apart from the wire, or finds the
connection shut down. -/
def Undisturbed (gdb : Gdb) (x : Except Stop ParserData) : Prop :=
  (∃ data, x = .ok data ∧ Pending data ∧ data.gdb.quiet = gdb.quiet) ∨
    gdb.shut = true ∧ x = .error .brokenPipe

theorem rioWriten_undisturbed (gdb : Gdb) (s : List Byte) :
    (∃ g, rioWriten gdb s = .ok g ∧ g.quiet = gdb.quiet) ∨
      gdb.shut = true ∧ rioWriten gdb s = .error .brokenPipe := by
  by_cases hs : s = []
  · exact Or.inl ⟨gdb, if_pos hs, rfl⟩
  · cases ho : gdb.shut with
    | false => exact Or.inl ⟨_, rioWriten_open gdb ho s, rfl⟩
    | true => exact Or.inr ⟨rfl, rioWriten_shut gdb ho hs⟩

theorem handleError_undisturbed {data : ParserData} (h : Pending data) :
    Undisturbed data.gdb (handleError data) := by
  obtain @⟨gdb, buffer, m, hm⟩ := h
  by_cases h0 : m = 0
  · subst h0
    exact Or.inl ⟨_, rfl, .intro gdb buffer hm, rfl⟩
  · rw [handleError_pending gdb buffer h0 hm]
    rcases rioWriten_undisturbed gdb (ascii "-") with ⟨g, hg, hq⟩ | ⟨hs, he⟩
    · rw [gdbRequireRetransmission, hg, ok_bind]
      exact Or.inl ⟨_, rfl, .intro g _ (m := 0) (by decide), hq⟩
    · rw [gdbRequireRetransmission, he, error_bind]
      exact Or.inr ⟨hs, rfl⟩

theorem onLexeme_token_undisturbed {data : ParserData} (h : Pending data) {t : Token}
    {s : Gdb → List Byte} (ht : ∀ gdb, onToken gdb t = rioWriten gdb (s gdb)) :
    Undisturbed data.gdb (onLexeme data (.token t)) := by
  rw [onLexeme_token]
  rcases handleError_undisturbed h with ⟨d, hd, hp, hq⟩ | ⟨hs, he⟩
  · rw [hd, ok_bind, ht]
    obtain @⟨gdb, buffer, m, hm⟩ := hp
    have hshut : gdb.shut = data.gdb.shut := shut_of_quiet hq
    rcases rioWriten_undisturbed gdb (s gdb) with ⟨g, hg, hg'⟩ | ⟨hs, he⟩
    · dsimp only
      rw [hg]
      exact Or.inl ⟨_, rfl, .intro g buffer hm, hg'.trans hq⟩
    · dsimp only
      rw [he]
      exact Or.inr ⟨hshut.symm.trans hs, rfl⟩
  · rw [he, error_bind]
    exact Or.inr ⟨hs, rfl⟩

/-- **Noise makes the simulator write, and does nothing else.** -/
theorem onLexeme_noise {data : ParserData} (h : Pending data) {l : Lexeme} (hl : l.Noise) :
    Undisturbed data.gdb (onLexeme data l) := by
  cases l with
  | token t =>
    cases t with
    | ack =>
      refine onLexeme_token_undisturbed h (s := fun _ => []) fun gdb => ?_
      rw [rioWriten, if_pos rfl]
      rfl
    | nack => exact onLexeme_token_undisturbed h fun gdb => rfl
    | packet p behind l =>
      exact onLexeme_token_undisturbed h fun gdb => onToken_wrong gdb hl behind l
  | other c =>
    obtain @⟨gdb, buffer, m, hm⟩ := h
    by_cases hfull : m = 1023
    · rw [onLexeme, addCharacterToError_full gdb buffer hm hfull]
      rcases rioWriten_undisturbed gdb (ascii "-") with ⟨g, hg, hq⟩ | ⟨hs, he⟩
      · rw [gdbRequireRetransmission, hg, ok_bind]
        exact Or.inl ⟨_, rfl, .intro g _ (m := 1) (by decide), hq⟩
      · rw [gdbRequireRetransmission, he, error_bind]
        exact Or.inr ⟨hs, rfl⟩
    · rw [onLexeme, addCharacterToError_room gdb buffer hm hfull]
      refine Or.inl ⟨_, rfl, .intro gdb _ ?_, rfl⟩
      rw [maxErrorSize] at hm ⊢
      omega
  | newline => exact Or.inl ⟨data, rfl, h, rfl⟩

/-! ### The packets that count -/

theorem kills_of_shut {gdb g : Gdb} {t : Token} (h : onToken gdb t = .ok g) (hg : g.shut = true) :
    gdb.shut = true ∨ t.Kills := by
  obtain ⟨out, hs, -⟩ := onToken_sends h
  generalize hl : gdb.line = line at hs
  generalize hl' : g.line = line' at hs
  have hc : gdb.shut = line.closed := congrArg Line.closed hl
  have hc' : g.shut = line'.closed := congrArg Line.closed hl'
  rw [hc, ← hg, hc']
  cases hs with
  | ack => exact Or.inl rfl
  | nack _ => exact Or.inl rfl
  | wrong _ _ => exact Or.inl rfl
  | kill hv hk _ => exact Or.inr ⟨hv, hk⟩
  | reply _ _ _ _ => exact Or.inl rfl

/-- A connection from some point on: it does what its accepted packets do, or is written
to when it has been shut down. -/
theorem run_noise (ls : List Lexeme) {data : ParserData} (h : Pending data) :
    ((Run.run onLexeme data ls >>= handleError).map fun d => d.gdb.quiet) =
        (session data.gdb.quiet (accepted ls)).map Gdb.quiet ∨
      (Run.run onLexeme data ls >>= handleError) = .error .brokenPipe ∧
        (data.gdb.shut = true ∨ ∃ t ∈ accepted ls, t.Kills) := by
  induction ls generalizing data with
  | nil =>
    rcases handleError_undisturbed h with ⟨d, hd, -, hq⟩ | ⟨hs, he⟩
    · left
      rw [Run.run_nil, ok_bind, hd]
      exact congrArg Except.ok hq
    · exact Or.inr ⟨he, Or.inl hs⟩
  | cons l ls ih =>
    rw [Run.run_cons, bind_assoc]
    by_cases hl : l.Noise
    · rw [accepted_noise hl]
      rcases onLexeme_noise h hl with ⟨d, hd, hp, hq⟩ | ⟨hs, he⟩
      · have hrest := ih hp
        rw [hq, shut_of_quiet hq] at hrest
        rw [hd, ok_bind]
        exact hrest
      · rw [he, error_bind]
        exact Or.inr ⟨rfl, Or.inl hs⟩
    · -- a packet with the right checksum
      obtain ⟨p, behind, l, rfl, hv⟩ : ∃ p behind l', l = .token (.packet p behind l') ∧ p.Valid := by
        cases l with
        | token t =>
          cases t with
          | packet p behind l' => exact ⟨p, behind, l', rfl, not_not.mp hl⟩
          | ack => exact absurd trivial hl
          | nack => exact absurd trivial hl
        | other c => exact absurd trivial hl
        | newline => exact absurd trivial hl
      have hacc : accepted (.token (.packet p behind l) :: ls) = .packet p behind l :: accepted ls :=
        if_pos hv
      rw [hacc, onLexeme_token]
      rcases handleError_undisturbed h with ⟨d, hd, hp, hq⟩ | ⟨hs, he⟩
      · have ht := onToken_quiet d.gdb (.packet p behind l)
        rw [hq] at ht
        rw [hd, ok_bind, session, Run.run_cons, Run.map_bind]
        cases hg : onToken d.gdb (.packet p behind l) with
        | error e =>
          rw [hg] at ht
          cases hg' : onToken data.gdb.quiet (.packet p behind l) with
          | error e' =>
            rw [hg'] at ht
            left
            exact congrArg Except.error (Except.error.inj ht)
          | ok g' =>
            rw [hg'] at ht
            cases ht
        | ok g =>
          rw [hg] at ht
          cases hg' : onToken data.gdb.quiet (.packet p behind l) with
          | error e' =>
            rw [hg'] at ht
            cases ht
          | ok g' =>
            rw [hg'] at ht
            obtain @⟨gdb, buffer, m, hm⟩ := hp
            have hgq : g.quiet = g'.quiet := Except.ok.inj ht
            have hsession := session_quiet g' (accepted ls)
            rw [← hgq] at hsession
            rcases ih (.intro g buffer hm) with hrest | ⟨he, hk⟩
            · left
              exact hrest.trans hsession.symm
            · refine Or.inr ⟨he, ?_⟩
              rcases hk with hs | ⟨t, hmem, hk⟩
              · rcases kills_of_shut hg hs with hs | hk
                · exact Or.inl ((shut_of_quiet hq).symm.trans hs)
                · exact Or.inr ⟨_, List.mem_cons_self, hk⟩
              · exact Or.inr ⟨t, List.mem_cons_of_mem _ hmem, hk⟩
      · rw [he, error_bind]
        exact Or.inr ⟨rfl, Or.inl hs⟩

/-- **What a connection does comes from its accepted packets**, in their order: without the
rest of the stream, the core, the last exception and the reply that is kept would be the
same.  After a `k` the rest can only find the connection shut down. -/
theorem connection_noise (arm : ArmCore) (target : Endian) (garbage : Nat → Byte)
    (buffer : Vector Byte maxErrorSize) (ls : List Lexeme) :
    ((gdbScanner arm target garbage buffer ls).map fun data => data.gdb.quiet) =
        (session (gdbInitData arm target garbage) (accepted ls)).map Gdb.quiet ∨
      gdbScanner arm target garbage buffer ls = .error .brokenPipe ∧
        ∃ t ∈ accepted ls, t.Kills := by
  have h := run_noise ls (.intro (gdbInitData arm target garbage) buffer (m := 0) (by decide))
  refine h.imp_right ?_
  rintro ⟨he, hs | hk⟩
  · cases hs
  · exact ⟨he, hk⟩

/-! ### What is sent -/

/-- Where a dialogue stands: the reply that was sent last, and how many characters wait in
the error buffer. -/
structure Standing where
  last : Option Packet
  pending : ℕ

/-- What the simulator says to a token after the reply `o`, and the last reply from then on. -/
inductive Said : Option Packet → Token → List Piece → Option Packet → Prop
  | ack (o : Option Packet) : Said o .ack [] o
  | nothing : Said none .nack [] none
  | again (q : Packet) : Said (some q) .nack [.packet q] (some q)
  | wrong (o : Option Packet) {p : Packet} {behind : List Byte} {l : Locals} (hv : ¬ p.Valid) :
    Said o (.packet p behind l) [.nack] o
  | kill (o : Option Packet) {p : Packet} {behind : List Byte} {l : Locals} (hv : p.Valid)
    (hk : p.index = char 'k') : Said o (.packet p behind l) [.ack] o
  | reply (o : Option Packet) {p q : Packet} {behind : List Byte} {l : Locals} (hv : p.Valid)
    (hk : p.index ≠ char 'k') (hq : q.Valid) :
    Said o (.packet p behind l) [.ack, .packet q] (some q)

/-- A request for retransmission where characters have been collected. -/
def errorReport (pending : ℕ) : List Piece := if pending = 0 then [] else [.nack]

/-- **What is sent for a lexeme**: the error buffer is reported when a token comes, or when
it is full. -/
inductive Answers : Standing → Lexeme → List Piece → Standing → Prop
  | token {o o' : Option Packet} {n : ℕ} {t : Token} {out : List Piece} (h : Said o t out o') :
    Answers ⟨o, n⟩ (.token t) (errorReport n ++ out) ⟨o', 0⟩
  | collected (o : Option Packet) {n : ℕ} (c : Byte) (hn : n < 1023) :
    Answers ⟨o, n⟩ (.other c) [] ⟨o, n + 1⟩
  | full (o : Option Packet) (c : Byte) : Answers ⟨o, 1023⟩ (.other c) [.nack] ⟨o, 1⟩
  | newline (s : Standing) : Answers s .newline [] s

/-- The lexemes of a connection, and what is sent for each. -/
inductive Dialogue : Standing → List Lexeme → List (List Piece) → Standing → Prop
  | nil (s : Standing) : Dialogue s [] [] s
  | cons {s s' s'' : Standing} {l : Lexeme} {out : List Piece} {ls : List Lexeme}
    {outs : List (List Piece)} (h : Answers s l out s') (hls : Dialogue s' ls outs s'') :
    Dialogue s (l :: ls) (out :: outs) s''

/-- The pieces in the order in which they are sent. -/
def textsOf (xs : List Piece) : List Byte := (xs.map Piece.text).flatten

@[simp] theorem textsOf_nil : textsOf [] = [] := rfl

@[simp] theorem textsOf_cons (x : Piece) (xs : List Piece) :
    textsOf (x :: xs) = x.text ++ textsOf xs := rfl

@[simp] theorem textsOf_append (xs ys : List Piece) :
    textsOf (xs ++ ys) = textsOf xs ++ textsOf ys := by
  rw [textsOf, List.map_append, List.flatten_append]
  rfl

/-! ### It is understood -/

/-- An acknowledgement, a request for retransmission or a packet. -/
inductive Piece.Spoken : Piece → Prop
  | ack : Spoken .ack
  | nack : Spoken .nack
  | packet (p : Packet) : Spoken (.packet p)

theorem Said.spoken {o o' : Option Packet} {t : Token} {xs : List Piece} (h : Said o t xs o') :
    ∀ x ∈ xs, x.Spoken := by
  intro x hx
  cases h with
  | ack => cases hx
  | nothing => cases hx
  | again q => rw [List.mem_singleton.mp hx]; exact .packet q
  | wrong _ _ => rw [List.mem_singleton.mp hx]; exact .nack
  | kill _ _ _ => rw [List.mem_singleton.mp hx]; exact .ack
  | reply _ _ _ _ =>
    rcases List.mem_cons.mp hx with rfl | hx
    · exact .ack
    · rw [List.mem_singleton.mp hx]
      exact .packet _

theorem errorReport_spoken (n : ℕ) : ∀ x ∈ errorReport n, x.Spoken := by
  intro x hx
  rw [errorReport] at hx
  split at hx
  · cases hx
  · rw [List.mem_singleton.mp hx]
    exact .nack

theorem Answers.spoken {s s' : Standing} {l : Lexeme} {out : List Piece} (h : Answers s l out s') :
    ∀ x ∈ out, x.Spoken := by
  intro x hx
  cases h with
  | token h =>
    rcases List.mem_append.mp hx with hx | hx
    · exact errorReport_spoken _ x hx
    · exact h.spoken x hx
  | collected => cases hx
  | full => rw [List.mem_singleton.mp hx]; exact .nack
  | newline => cases hx

theorem Dialogue.spoken {s s' : Standing} {ls : List Lexeme} {outs : List (List Piece)}
    (h : Dialogue s ls outs s') : ∀ x ∈ outs.flatten, x.Spoken := by
  induction h with
  | nil => exact nofun
  | cons h _ ih =>
    intro x hx
    rw [List.flatten_cons] at hx
    rcases List.mem_append.mp hx with hx | hx
    · exact h.spoken x hx
    · exact ih x hx

/-- Pieces that are sent are the pieces that are read. -/
theorem lex_textsOf {xs : List Piece} (h : ∀ x ∈ xs, x.Fits ∧ x ≠ .other (char '$')) :
    lex (textsOf xs) = xs := by
  induction xs with
  | nil => exact lex_nil
  | cons x xs ih =>
    obtain ⟨hx, hd⟩ := h x List.mem_cons_self
    rw [textsOf_cons, lex_text_append hx hd, ih fun y hy => h y (List.mem_cons_of_mem x hy)]

/-- What was said is understood. -/
theorem lex_spoken {xs : List Piece} (h : ∀ x ∈ xs, x.Spoken) : lex (textsOf xs) = xs := by
  refine lex_textsOf fun x hx => ?_
  cases h x hx with
  | ack => exact ⟨trivial, nofun⟩
  | nack => exact ⟨trivial, nofun⟩
  | packet _ => exact ⟨trivial, nofun⟩

/-! ### It is what is sent -/

/-- The state of the scanner stands where the dialogue does. -/
inductive Stands : Standing → ParserData → Prop
  | intro {o : Option Packet} (gdb : Gdb) (buffer : Vector Byte maxErrorSize) {m : ℕ}
    (hm : m < maxErrorSize) (ho : gdb.stored = (o.map Packet.text).getD []) :
    Stands ⟨o, m⟩ ⟨gdb, buffer, m⟩

theorem gdbRequireRetransmission_ok {gdb g : Gdb} (h : gdbRequireRetransmission gdb = .ok g) :
    g.wire = gdb.wire ++ textsOf [.nack] ∧ g.stored = gdb.stored := by
  obtain ⟨-, rfl⟩ := rioWriten_ok (by decide) h
  exact ⟨rfl, rfl⟩

theorem handleError_stands {s : Standing} {data d : ParserData} (hs : Stands s data)
    (h : handleError data = .ok d) :
    Stands ⟨s.last, 0⟩ d ∧ d.gdb.wire = data.gdb.wire ++ textsOf (errorReport s.pending) := by
  obtain @⟨o, gdb, buffer, m, hm, ho⟩ := hs
  by_cases h0 : m = 0
  · subst h0
    cases h
    exact ⟨.intro gdb buffer hm ho, (List.append_nil _).symm⟩
  · rw [handleError_pending gdb buffer h0 hm] at h
    cases hg : gdbRequireRetransmission gdb with
    | error e =>
      rw [hg] at h
      cases h
    | ok g =>
      rw [hg] at h
      cases h
      obtain ⟨hwire, hstored⟩ := gdbRequireRetransmission_ok hg
      rw [errorReport, if_neg h0]
      exact ⟨.intro g _ (m := 0) (by decide) (hstored.trans ho), hwire⟩

theorem onToken_said {gdb g : Gdb} {t : Token} {o : Option Packet} (h : onToken gdb t = .ok g)
    (ho : gdb.stored = (o.map Packet.text).getD []) :
    ∃ out o', Said o t out o' ∧ g.wire = gdb.wire ++ textsOf out ∧
      g.stored = (o'.map Packet.text).getD [] := by
  obtain ⟨out, hs, hwire⟩ := onToken_sends h
  rw [hwire]
  clear h hwire
  have hstored : gdb.stored = gdb.line.last := rfl
  have hstored' : g.stored = g.line.last := rfl
  rw [hstored] at ho
  rw [hstored']
  generalize gdb.line = line at hs ho
  generalize g.line = line' at hs
  cases hs with
  | ack => exact ⟨[], o, .ack o, rfl, ho⟩
  | nack hopen =>
    cases o with
    | none => exact ⟨[], none, .nothing, congrArg (gdb.wire ++ ·) ho, ho⟩
    | some q =>
      refine ⟨[.packet q], some q, .again q, ?_, ho⟩
      rw [textsOf_cons, textsOf_nil, List.append_nil, ho]
      rfl
  | wrong hv _ => exact ⟨[.nack], o, .wrong o hv, rfl, ho⟩
  | kill hv hk _ => exact ⟨[.ack], o, .kill o hv hk, rfl, ho⟩
  | @reply p behind l s hv hk _ hs =>
    have hframe : frame s = (framePacket s hs).text := rfl
    refine ⟨[.ack, .packet (framePacket s hs)], some (framePacket s hs),
      .reply o hv hk (framePacket_valid s hs), ?_, hframe⟩
    rw [hframe, textsOf_cons, textsOf_cons, textsOf_nil, List.append_nil]
    rfl

/-- **What is sent for a lexeme is its answer.** -/
theorem onLexeme_answers {s : Standing} {data d : ParserData} {l : Lexeme} (hs : Stands s data)
    (h : onLexeme data l = .ok d) :
    ∃ out s', Answers s l out s' ∧ d.gdb.wire = data.gdb.wire ++ textsOf out ∧ Stands s' d := by
  cases l with
  | token t =>
    rw [onLexeme_token] at h
    cases ha : handleError data with
    | error e =>
      rw [ha] at h
      cases h
    | ok a =>
      rw [ha, ok_bind] at h
      obtain ⟨hstands, hreport⟩ := handleError_stands hs ha
      obtain @⟨_, gdb, buffer, m, hm, ho⟩ := hstands
      cases hg : onToken gdb t with
      | error e =>
        rw [hg] at h
        cases h
      | ok g =>
        rw [hg] at h
        cases h
        obtain ⟨out, o', hsaid, hwire, ho'⟩ := onToken_said hg ho
        refine ⟨errorReport s.pending ++ out, ⟨o', 0⟩, .token hsaid, ?_, .intro g buffer hm ho'⟩
        rw [textsOf_append, ← List.append_assoc, ← hreport]
        exact hwire
  | other c =>
    obtain @⟨o, gdb, buffer, m, hm, ho⟩ := hs
    by_cases hfull : m = 1023
    · rw [onLexeme, addCharacterToError_full gdb buffer hm hfull] at h
      subst hfull
      cases hg : gdbRequireRetransmission gdb with
      | error e =>
        rw [hg] at h
        cases h
      | ok g =>
        rw [hg] at h
        cases h
        obtain ⟨hwire, hstored⟩ := gdbRequireRetransmission_ok hg
        exact ⟨[.nack], ⟨o, 1⟩, .full o c, hwire, .intro g _ (m := 1) (by decide) (hstored.trans ho)⟩
    · rw [onLexeme, addCharacterToError_room gdb buffer hm hfull] at h
      cases h
      rw [maxErrorSize] at hm
      have hroom : m + 1 < maxErrorSize := by
        rw [maxErrorSize]
        omega
      exact ⟨[], ⟨o, m + 1⟩, .collected o c (by omega), (List.append_nil _).symm,
        .intro gdb _ hroom ho⟩
  | newline =>
    cases h
    exact ⟨[], s, .newline s, (List.append_nil _).symm, hs⟩

/-- What is sent over a part of a connection, by induction over its lexemes. -/
theorem run_dialogue (ls : List Lexeme) {s : Standing} {data d : ParserData} (hs : Stands s data)
    (h : Run.run onLexeme data ls = .ok d) :
    ∃ outs s', Dialogue s ls outs s' ∧ d.gdb.wire = data.gdb.wire ++ textsOf outs.flatten ∧
      Stands s' d := by
  induction ls generalizing s data with
  | nil =>
    cases h
    exact ⟨[], s, .nil s, (List.append_nil _).symm, hs⟩
  | cons l ls ih =>
    rw [Run.run_cons] at h
    cases ha : onLexeme data l with
    | error e =>
      rw [ha] at h
      cases h
    | ok a =>
      rw [ha, ok_bind] at h
      obtain ⟨out, s', hanswers, hwire, hs'⟩ := onLexeme_answers hs ha
      obtain ⟨outs, s'', hdialogue, hwire', hs''⟩ := ih hs' h
      refine ⟨out :: outs, s'', .cons hanswers hdialogue, ?_, hs''⟩
      rw [hwire', hwire, List.flatten_cons, textsOf_append, List.append_assoc]

/-- **The simulator speaks the language that it reads.**  What it has sent after any lexeme of
a connection, whatever the stream and whether or not it stops later, is for each lexeme so
far the answer to it; at the end the rest of the error buffer is reported; and the rules of
the scanner read it as that. -/
theorem connection_dialogue (arm : ArmCore) (target : Endian) (garbage : Nat → Byte)
    (buffer : Vector Byte maxErrorSize) (ls : List Lexeme) :
    (∀ data, Run.run onLexeme ⟨gdbInitData arm target garbage, buffer, 0⟩ ls = .ok data →
      ∃ outs s, Dialogue ⟨none, 0⟩ ls outs s ∧ lex data.gdb.wire = outs.flatten) ∧
    ∀ data, gdbScanner arm target garbage buffer ls = .ok data →
      ∃ outs s, Dialogue ⟨none, 0⟩ ls outs s ∧
        lex data.gdb.wire = outs.flatten ++ errorReport s.pending := by
  have hstart : Stands ⟨none, 0⟩ ⟨gdbInitData arm target garbage, buffer, 0⟩ :=
    .intro (gdbInitData arm target garbage) buffer (m := 0) (by decide) rfl
  constructor
  · intro data h
    obtain ⟨outs, s, hdialogue, hwire, -⟩ := run_dialogue ls hstart h
    have hwire : data.gdb.wire = textsOf outs.flatten := hwire
    exact ⟨outs, s, hdialogue, by rw [hwire, lex_spoken hdialogue.spoken]⟩
  · intro data h
    cases hd : Run.run onLexeme ⟨gdbInitData arm target garbage, buffer, 0⟩ ls with
    | error e =>
      rw [gdbScanner, hd] at h
      cases h
    | ok d =>
      rw [gdbScanner, hd, ok_bind] at h
      obtain ⟨outs, s, hdialogue, hwire, hs⟩ := run_dialogue ls hstart hd
      have hwire : d.gdb.wire = textsOf outs.flatten := hwire
      obtain ⟨-, hreport⟩ := handleError_stands hs h
      refine ⟨outs, s, hdialogue, ?_⟩
      rw [hreport, hwire, ← textsOf_append]
      refine lex_spoken fun x hx => ?_
      rcases List.mem_append.mp hx with hx | hx
      · exact hdialogue.spoken x hx
      · exact errorReport_spoken _ x hx

/-- `?` with a checksum that is not its own. -/
def damagedReason : Packet := ⟨ascii "?", char '0', char '0', by decide, by decide⟩

/-- A stray character, `?`, a request for retransmission, a damaged `?` and another request. -/
def noisyReason : List Lexeme :=
  [.other (char 'x'), .token (frameToken (ascii "?") (by decide)), .token .nack,
    .token (.packet damagedReason [] ⟨0, fun _ => 0, 0⟩), .token .nack]

/-- The reply is sent three times. -/
theorem connection_dialogue_reason :
    ∃ data outs s, gdbScanner (coreOfWord 0) .little (fun _ => 0) (Vector.replicate _ 0)
        noisyReason = .ok data ∧
      data.gdb.wire = ascii "-+$S05#b8$S05#b8-$S05#b8" ∧ Dialogue ⟨none, 0⟩ noisyReason outs s ∧
      lex data.gdb.wire = outs.flatten ++ errorReport s.pending := by
  have hwire : ((gdbScanner (coreOfWord 0) .little (fun _ => 0) (Vector.replicate _ 0)
      noisyReason).map fun data => data.gdb.wire) = .ok (ascii "-+$S05#b8$S05#b8-$S05#b8") := by
    decide +kernel
  cases h : gdbScanner (coreOfWord 0) .little (fun _ => 0) (Vector.replicate _ 0) noisyReason with
  | error e =>
    rw [h] at hwire
    cases hwire
  | ok data =>
    rw [h] at hwire
    obtain ⟨outs, s, hdialogue, hlex⟩ := (connection_dialogue _ _ _ _ _).2 data h
    exact ⟨data, outs, s, rfl, Except.ok.inj hwire, hdialogue, hlex⟩

end Armator
