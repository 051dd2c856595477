import Armator.Gdb.Target
import Armator.Scanner.Connection

/-!
# From the bytes to the target

A debugger sends packets, and the line may put anything between them: acknowledgements,
remains of packets, characters that belong to nothing.  The scanner finds the packets
(`lex_stream`), their payloads ask for something, and the simulator does what the target
does (`stream_converses`).  So the whole way from the bytes that arrive to the core and to
the bytes that are sent is the conversation with the target.
-/

namespace Armator

open Text
open Run (ok_bind error_bind)

/-- Packets over the line, with what comes before them and behind each of them. -/
def stream (noise : List Byte) (ps : List (Packet × List Byte)) : List Byte :=
  noise ++ ps.flatMap fun x => x.1.text ++ x.2

theorem lex_stream (noise : List Byte) (ps : List (Packet × List Byte)) :
    lex (stream noise ps) = lex noise ++ ps.flatMap fun x => .packet x.1 :: lex x.2 := by
  induction ps generalizing noise with
  | nil => simp [stream]
  | cons x ps ih =>
    obtain ⟨p, s⟩ := x
    have hstream : stream noise ((p, s) :: ps) = noise ++ (p.text ++ stream s ps) := by
      rw [stream, stream, List.flatMap_cons, List.append_assoc]
    rw [hstream, lex_append_packet, ih, List.flatMap_cons, List.cons_append]

/-- No packet with the right checksum is found in the text. -/
def Noise (s : List Byte) : Prop := ∀ p, .packet p ∈ lex s → ¬ p.Valid

/-! ### The accepted packets of a stream -/

/-- The packets with the right checksum. -/
def validPackets (xs : List Piece) : List Packet :=
  xs.filterMap fun
    | .packet p => if p.Valid then some p else none
    | _ => none

theorem validPackets_append (xs ys : List Piece) :
    validPackets (xs ++ ys) = validPackets xs ++ validPackets ys := List.filterMap_append

theorem validPackets_cons {p : Packet} (h : p.Valid) (xs : List Piece) :
    validPackets (.packet p :: xs) = p :: validPackets xs :=
  List.filterMap_cons_some (if_pos h)

theorem validPackets_noise {s : List Byte} (h : Noise s) : validPackets (lex s) = [] := by
  rw [validPackets, List.filterMap_eq_nil_iff]
  intro x hx
  cases x with
  | packet p => exact if_neg (h p hx)
  | ack => rfl
  | nack => rfl
  | other c => rfl
  | newline => rfl

theorem validPackets_stream {noise : List Byte} {ps : List (Packet × List Byte)} (hn : Noise noise)
    (hps : ∀ x ∈ ps, x.1.Valid ∧ Noise x.2) :
    validPackets (lex (stream noise ps)) = ps.map Prod.fst := by
  rw [lex_stream, validPackets_append, validPackets_noise hn, List.nil_append]
  clear hn
  induction ps with
  | nil => rfl
  | cons x ps ih =>
    obtain ⟨hv, hx⟩ := hps x List.mem_cons_self
    rw [List.flatMap_cons, List.cons_append, validPackets_cons hv, validPackets_append,
      validPackets_noise hx, List.nil_append, List.map_cons,
      ih fun y hy => hps y (List.mem_cons_of_mem x hy)]

/-- The token is this packet. -/
def Carries (p : Packet) (tok : Token) : Prop := ∃ behind l, tok = .packet p behind l

theorem carries_accepted (ls : List Lexeme) :
    List.Forall₂ Carries (validPackets (ls.map Lexeme.piece)) (accepted ls) := by
  induction ls with
  | nil => exact .nil
  | cons l ls ih =>
    cases l with
    | token t =>
      cases t with
      | packet p behind l =>
        by_cases hv : p.Valid
        · have hcons : validPackets ((Lexeme.token (.packet p behind l) :: ls).map Lexeme.piece) =
              p :: validPackets (ls.map Lexeme.piece) := validPackets_cons hv _
          rw [hcons, accepted, if_pos hv]
          exact .cons ⟨behind, l, rfl⟩ ih
        · have hcons : validPackets ((Lexeme.token (.packet p behind l) :: ls).map Lexeme.piece) =
              validPackets (ls.map Lexeme.piece) :=
            List.filterMap_cons_none (if_neg hv)
          rw [hcons, accepted, if_neg hv]
          exact ih
      | ack => exact ih
      | nack => exact ih
    | other c => exact ih
    | newline => exact ih

theorem mem_of_mem_accepted {ls : List Lexeme} {tok : Token} (h : tok ∈ accepted ls) :
    .token tok ∈ ls := by
  induction ls with
  | nil => cases h
  | cons l ls ih =>
    by_cases hl : l.Noise
    · rw [accepted_noise hl] at h
      exact List.mem_cons_of_mem l (ih h)
    · cases l with
      | token t =>
        cases t with
        | packet p behind l =>
          rw [accepted, if_pos (not_not.mp hl)] at h
          rcases List.mem_cons.mp h with rfl | h
          · exact List.mem_cons_self
          · exact List.mem_cons_of_mem _ (ih h)
        | ack => exact absurd trivial hl
        | nack => exact absurd trivial hl
      | other c => exact absurd trivial hl
      | newline => exact absurd trivial hl

/-- Lexemes that are accepted packets only. -/
theorem eq_map_accepted {ls : List Lexeme} (h : ∀ l ∈ ls, ¬ l.Noise) :
    ls = (accepted ls).map .token := by
  induction ls with
  | nil => rfl
  | cons l ls ih =>
    have hl := h l List.mem_cons_self
    have hls := ih fun l' hl' => h l' (List.mem_cons_of_mem l hl')
    cases l with
    | token t =>
      cases t with
      | packet p behind l =>
        rw [accepted, if_pos (not_not.mp hl), List.map_cons, ← hls]
      | ack => exact absurd trivial hl
      | nack => exact absurd trivial hl
    | other c => exact absurd trivial hl
    | newline => exact absurd trivial hl

/-! ### The whole way -/

/-- No request shuts the connection down. -/
theorem Request.Payload.index {host target : Endian} {r : Request} {p : Packet}
    (h : r.Payload host target p.payload) : p.index ≠ char 'k' := by
  have hindex : ∀ {c : Byte} {s : List Byte}, p.payload = c :: s → c ≠ char 'k' →
      p.index ≠ char 'k' := by
    intro c s hp hc
    rw [Packet.index, hp]
    exact hc
  cases r with
  | writeMemory address bytes =>
    obtain ⟨es, -, hp⟩ := h
    exact hindex hp (by decide)
  | reason => exact hindex h (by decide)
  | query s => exact hindex h (by decide)
  | setThread s => exact hindex h (by decide)
  | unsupported s =>
    intro hk
    have hnone : handler p.index = none := by
      rw [Packet.index, h.1]
      exact h.2
    rw [hk] at hnone
    cases hnone
  | readRegisters => exact hindex h (by decide)
  | writeRegisters values cpsr => exact hindex h (by decide)
  | readRegister r => exact hindex h (by decide)
  | writeRegister r value => exact hindex h (by decide)
  | readMemory address size => exact hindex h (by decide)
  | step => exact hindex h (by decide)
  | cont => exact hindex h (by decide)

/-- A packet for the request, with the right checksum. -/
def Fetches (host target : Endian) (x : Request × List Byte) (y : Packet × List Byte) : Prop :=
  y.1.Valid ∧ x.1.Payload host target y.1.payload

theorem asks_accepted {host target : Endian} {n : ℕ} {rs : List (Request × List Byte)}
    {ps : List (Packet × List Byte)} (hps : List.Forall₂ (Fetches host target) rs ps)
    {toks : List Token} (hc : List.Forall₂ Carries (ps.map Prod.fst) toks)
    (hfuel : ∀ p behind l, .packet p behind l ∈ toks → n ≤ l.fuel) :
    List.Forall₂ (fun x tok => x.1.Asks host target n tok) rs toks := by
  induction hps generalizing toks with
  | nil =>
    cases hc
    exact .nil
  | @cons x y rs ps hxy hrs ih =>
    cases hc with
    | @cons _ tok _ toks hy hc =>
      obtain ⟨behind, l, rfl⟩ := hy
      have hl := hfuel _ _ _ List.mem_cons_self
      refine .cons ⟨y.1, behind, l, rfl, hxy.1, hxy.2, hl⟩ (ih hc fun p behind l hm => ?_)
      exact hfuel p behind l (List.mem_cons_of_mem _ hm)

/-- **From the bytes to the target.**  Whatever comes between the packets, a stream with the
packets of a conversation leads to the core and the exception of the target at the end of
the conversation; and if nothing comes between them, what is sent are its answers. -/
theorem stream_converses {arm : ArmCore} {target : Endian} {u : Target}
    {rs : List (Request × List Byte)} (h : Target.Converses target ⟨arm, 0⟩ rs u)
    (hsize : arm.mem.size.toNat < 2 ^ 32) :
    ∃ n, ∀ (garbage : ℕ → Byte) (buffer : Vector Byte maxErrorSize) (noise : List Byte)
      (ps : List (Packet × List Byte)) (ls : List Lexeme),
      List.Forall₂ (Fetches arm.host target) rs ps → Noise noise → (∀ x ∈ ps, Noise x.2) →
      ls.map Lexeme.piece = lex (stream noise ps) →
      (∀ p behind l, .token (.packet p behind l) ∈ ls → n ≤ l.fuel) →
      ∃ data, gdbScanner arm target garbage buffer ls = .ok data ∧ Shows data.gdb target u ∧
        (noise = [] → (∀ x ∈ ps, x.2 = []) → data.gdb.wire = answers rs) := by
  obtain ⟨n, hsession⟩ := session_converses h hsize
  refine ⟨n, fun garbage buffer noise ps ls hps hn hnoise hls hfuel => ?_⟩
  have hvalid : ∀ x ∈ ps, x.1.Valid := by
    intro x hx
    obtain ⟨i, hi, rfl⟩ := List.getElem_of_mem hx
    exact (hps.get (hps.length_eq ▸ hi) hi).1
  -- the packets that are accepted are those of the conversation
  have hcarries := carries_accepted ls
  rw [hls, validPackets_stream hn fun x hx => ⟨hvalid x hx, hnoise x hx⟩] at hcarries
  have hasks := asks_accepted hps hcarries fun p behind l hm => hfuel p behind l (mem_of_mem_accepted hm)
  obtain ⟨g, hg, hshows, hwire⟩ := hsession (gdbInitData arm target garbage) ⟨rfl, rfl, rfl, rfl⟩
    (accepted ls) hasks
  have hkills : ∀ tok ∈ accepted ls, ¬ tok.Kills := by
    intro tok htok
    obtain ⟨i, hi, rfl⟩ := List.getElem_of_mem htok
    obtain ⟨p, behind, l, htok, -, hp, -⟩ := hasks.get (hasks.length_eq ▸ hi) hi
    rw [List.get_eq_getElem] at htok
    rw [htok]
    exact fun hk => hp.index hk.2
  rcases run_noise ls (.intro (gdbInitData arm target garbage) buffer (m := 0) (by decide)) with
    hquiet | ⟨-, hs | ⟨tok, htok, hk⟩⟩
  · have hquiet : ((gdbScanner arm target garbage buffer ls).map fun data => data.gdb.quiet) =
        (session (gdbInitData arm target garbage) (accepted ls)).map Gdb.quiet := hquiet
    rw [hg] at hquiet
    cases hd : gdbScanner arm target garbage buffer ls with
    | error e =>
      rw [hd] at hquiet
      cases hquiet
    | ok data =>
      rw [hd] at hquiet
      have hq : data.gdb.quiet = g.quiet := Except.ok.inj hquiet
      refine ⟨data, rfl, ?_, ?_⟩
      · have harm : data.gdb.quiet.arm = g.quiet.arm := by rw [hq]
        have hexception : data.gdb.quiet.targetException = g.quiet.targetException := by rw [hq]
        have htarget : data.gdb.quiet.target = g.quiet.target := by rw [hq]
        exact ⟨harm.trans hshows.arm, hexception.trans hshows.exception,
          htarget.trans hshows.target, (shut_of_quiet hq).trans hshows.shut⟩
      · rintro rfl hnone
        have hpackets : ∀ l ∈ ls, ¬ l.Noise := by
          intro l hl
          have hmem : l.piece ∈ lex (stream [] ps) := hls ▸ List.mem_map_of_mem hl
          rw [lex_stream, lex_nil, List.nil_append, List.mem_flatMap] at hmem
          obtain ⟨x, hx, hpiece⟩ := hmem
          rw [hnone x hx, lex_nil, List.mem_singleton] at hpiece
          cases l with
          | token t =>
            cases t with
            | packet p behind l =>
              rw [Lexeme.piece, Piece.packet.injEq] at hpiece
              rw [hpiece]
              exact not_not.mpr (hvalid x hx)
            | ack => cases hpiece
            | nack => cases hpiece
          | other c => cases hpiece
          | newline => cases hpiece
        have htokens := gdbScanner_tokens arm target garbage buffer (accepted ls)
        rw [← eq_map_accepted hpackets, hd, hg] at htokens
        rw [Except.ok.inj htokens]
        exact hwire
  · cases hs
  · exact absurd hk (hkills tok htok)

/-! ### A stream with noise -/

/-- Two bytes are stored and the second of them is read, with a thread to select and a
query between. -/
def uploadConversation : List (Request × List Byte) :=
  [(.setThread (ascii "c-1"), ascii "OK"), (.writeMemory 0 [1, 2], ascii "OK"),
    (.query (ascii "TStatus"), ascii "T0;tnotrun:0"), (.readMemory 1 1, ascii "02")]

def uploadPackets : List Packet :=
  [framePacket (ascii "Hc-1") (by decide), framePacket (writeMemoryPayload 0 2 [1, 2]) (by decide),
    framePacket (ascii "qTStatus") (by decide), framePacket (readMemoryPayload 1 1) (by decide)]

/-- A stray character and a damaged packet. -/
def strayPieces : List Piece := [.other (char 'x'), .packet damagedReason, .nack]

theorem lex_strayPieces : lex (textsOf strayPieces) = strayPieces := by
  refine lex_textsOf fun x hx => ?_
  simp only [strayPieces, List.mem_cons, List.not_mem_nil, or_false] at hx
  rcases hx with rfl | rfl | rfl
  · exact ⟨by unfold Piece.Fits; decide, by simp; decide⟩
  · exact ⟨trivial, nofun⟩
  · exact ⟨trivial, nofun⟩

theorem noise_strayPieces : Noise (textsOf strayPieces) := by
  intro p hp
  rw [lex_strayPieces] at hp
  simp only [strayPieces, List.mem_cons, List.not_mem_nil, or_false, reduceCtorEq, false_or,
    Piece.packet.injEq] at hp
  subst hp
  decide

/-- The scanner hands a piece over, and nothing lies behind it. -/
def Piece.lexeme (l : Locals) : Piece → Lexeme
  | ack => .token .ack
  | nack => .token .nack
  | packet p => .token (.packet p [] l)
  | other c => .other c
  | newline => .newline

theorem map_piece_lexeme (l : Locals) (xs : List Piece) :
    (xs.map (Piece.lexeme l)).map Lexeme.piece = xs := by
  rw [List.map_map]
  refine (List.map_congr_left fun x _ => ?_).trans (List.map_id xs)
  cases x <;> rfl

theorem locals_of_mem_lexeme {l l' : Locals} {xs : List Piece} {p : Packet} {behind : List Byte}
    (h : .token (.packet p behind l') ∈ xs.map (Piece.lexeme l)) : l' = l := by
  obtain ⟨x, -, hx⟩ := List.mem_map.mp h
  cases x with
  | packet q =>
    cases hx
    rfl
  | ack => cases hx
  | nack => cases hx
  | other c => cases hx
  | newline => cases hx

/-- The memory holds the two bytes, with the noise before each packet and behind it; and
without the noise the answers are what is sent. -/
theorem stream_converses_upload :
    (∃ ls data, ls.map Lexeme.piece =
        lex (stream (textsOf strayPieces) (uploadPackets.map fun p => (p, textsOf strayPieces))) ∧
      gdbScanner (coreOfWord 0) .little (fun _ => 0) (Vector.replicate _ 0) ls = .ok data ∧
      data.gdb.arm = storeFitting (coreOfWord 0) 0 [1, 2]) ∧
    ∃ ls data, ls.map Lexeme.piece = lex (stream [] (uploadPackets.map fun p => (p, []))) ∧
      gdbScanner (coreOfWord 0) .little (fun _ => 0) (Vector.replicate _ 0) ls = .ok data ∧
      data.gdb.wire = answers uploadConversation := by
  let u : Target := ⟨storeFitting (coreOfWord 0) 0 [1, 2], 0⟩
  have hthread : threadAnswer (ascii "c-1") = ascii "OK" := by decide +kernel
  have hset : Request.Serves .little ⟨coreOfWord 0, 0⟩ (.setThread (ascii "c-1"))
      (threadAnswer (ascii "c-1")) ⟨coreOfWord 0, 0⟩ := .setThread _ _
  rw [hthread] at hset
  have hbyte : (readable u.core.mem 1 1).flatMap hexByte = ascii "02" := by decide +kernel
  have hread : Request.Serves .little u (.readMemory 1 1)
      ((readable u.core.mem 1 1).flatMap hexByte) u :=
    .readMemory u 1 1 (by decide) (by decide +kernel)
  rw [hbyte] at hread
  have h : Target.Converses .little ⟨coreOfWord 0, 0⟩ uploadConversation u :=
    .cons hset (.cons (.writeMemory _ 0 [1, 2] (by decide))
      (.cons (.query _ (ascii "TStatus")) (.cons hread (.nil _))))
  obtain ⟨n, hn⟩ := stream_converses h (by decide)
  have hescaped : Escaped [1, 2] [1, 2] :=
    .plain (by decide) (by decide) (by decide) (.plain (by decide) (by decide) (by decide) .nil)
  have hpackets : ∀ s, List.Forall₂ (Fetches .little .little) uploadConversation
      (uploadPackets.map fun p => (p, s)) := by
    intro s
    exact .cons ⟨framePacket_valid _ _, rfl⟩ (.cons ⟨framePacket_valid _ _, _, hescaped, rfl⟩
      (.cons ⟨framePacket_valid _ _, rfl⟩ (.cons ⟨framePacket_valid _ _, rfl⟩ .nil)))
  let l : Locals := ⟨0, fun _ => 0, n⟩
  have hfuel : ∀ (xs : List Piece) (p : Packet) (behind : List Byte) (l' : Locals),
      .token (.packet p behind l') ∈ xs.map (Piece.lexeme l) → n ≤ l'.fuel := by
    intro xs p behind l' hm
    rw [locals_of_mem_lexeme hm]
  constructor
  · obtain ⟨data, hd, hshows, -⟩ := hn (fun _ => 0) (Vector.replicate _ 0) (textsOf strayPieces)
      (uploadPackets.map fun p => (p, textsOf strayPieces)) _ (hpackets _) noise_strayPieces
      (by simpa using fun p _ => noise_strayPieces) (map_piece_lexeme l _) (hfuel _)
    exact ⟨_, data, map_piece_lexeme l _, hd, hshows.arm⟩
  · obtain ⟨data, hd, -, hwire⟩ := hn (fun _ => 0) (Vector.replicate _ 0) []
      (uploadPackets.map fun p => (p, [])) _ (hpackets _) (by simp [Noise])
      (by simp [Noise]) (map_piece_lexeme l _) (hfuel _)
    exact ⟨_, data, map_piece_lexeme l _, hd, hwire rfl (by simp)⟩

end Armator
