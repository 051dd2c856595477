import Armator.Gdb

/-!
# Robust writing (`csapp.c`)

`Rio_writen` calls `write` until all of a text is sent.  A call may take a part of what it
is given only, it may be interrupted and take nothing, and it may fail.  `Descriptor` is
the other end: its answers to the calls, of which is known that none takes more than it is
given.

The loop sends every byte once and in order, as far as it comes (`Sent`, `loop_sent`); it
comes to its end where no call fails and the interruptions do not go on for ever
(`loop_finishes`).  So it is the `Armator.rioWriten` of the rest of this development, which
sends a text at once (`rioWriten_refines`).
-/

namespace Armator

namespace Csapp

def eintr : Int := 4

structure Answer where
  nwritten : Int
  errno : Int

/-- The answers to the calls of `write`, by the number of the call and of the bytes. -/
structure Descriptor where
  write : Nat → Nat → Answer
  le : ∀ i count, (write i count).nwritten ≤ count

structure Writing where
  nleft : Nat
  bufp : Nat
  wire : List Byte

def Writing.advance (usrbuf : List Byte) (w : Writing) (nwritten : Nat) : Writing where
  nleft := w.nleft - nwritten
  bufp := w.bufp + nwritten
  wire := w.wire ++ (usrbuf.drop w.bufp).take nwritten

/-- The body of the loop; `none` is the return of -1. -/
def turn (d : Descriptor) (usrbuf : List Byte) (i : Nat) (w : Writing) : Option Writing :=
  let a := d.write i w.nleft
  if a.nwritten ≤ 0 then
    if a.errno = eintr then some (w.advance usrbuf 0) else none
  else some (w.advance usrbuf a.nwritten.toNat)

/-- The loop from the `i`-th call on; `none` is a loop that has not come to its end. -/
def loop (d : Descriptor) (usrbuf : List Byte) : Nat → Nat → Writing → Option (Int × Writing)
  | 0, _, _ => none
  | fuel + 1, i, w =>
    if w.nleft = 0 then some (usrbuf.length, w)
    else
      match turn d usrbuf i w with
      | none => some (-1, w)
      | some w => loop d usrbuf fuel (i + 1) w

def rioWriten (d : Descriptor) (wire usrbuf : List Byte) (fuel : Nat) : Option (Int × Writing) :=
  loop d usrbuf fuel 0 ⟨usrbuf.length, 0, wire⟩

/-! ### What has been sent -/

structure Sent (wire usrbuf : List Byte) (w : Writing) : Prop where
  place : w.bufp + w.nleft = usrbuf.length
  wire : w.wire = wire ++ usrbuf.take w.bufp

section Loop

variable {d : Descriptor} {wire usrbuf : List Byte} {i : Nat} {w : Writing}

theorem Sent.advance (h : Sent wire usrbuf w) {n : Nat} (hn : n ≤ w.nleft) :
    Sent wire usrbuf (w.advance usrbuf n) := by
  refine ⟨?_, ?_⟩
  · have hp := h.place
    show w.bufp + n + (w.nleft - n) = usrbuf.length
    omega
  · show w.wire ++ (usrbuf.drop w.bufp).take n = wire ++ usrbuf.take (w.bufp + n)
    rw [h.wire, List.append_assoc, List.take_add]

/-- **A turn goes on in the text**, by a part of what is left, or fails. -/
theorem turn_cases (d : Descriptor) (usrbuf : List Byte) (i : Nat) (w : Writing) :
    (∃ n ≤ w.nleft, turn d usrbuf i w = some (w.advance usrbuf n) ∧
        n = (d.write i w.nleft).nwritten.toNat) ∨
      turn d usrbuf i w = none ∧ (d.write i w.nleft).nwritten ≤ 0 ∧
        (d.write i w.nleft).errno ≠ eintr := by
  have hle := d.le i w.nleft
  rw [turn]
  split
  next h0 =>
    split
    next => exact Or.inl ⟨0, Nat.zero_le _, rfl, by omega⟩
    next he => exact Or.inr ⟨rfl, h0, he⟩
  next => exact Or.inl ⟨_, by omega, rfl, rfl⟩

/-- **Every byte is sent once and in order**, as far as the loop comes: to the end of the
text, or to a call that fails. -/
theorem loop_sent (h : Sent wire usrbuf w) {fuel : Nat} {r : Int} {w' : Writing}
    (hl : loop d usrbuf fuel i w = some (r, w')) :
    Sent wire usrbuf w' ∧ (r = usrbuf.length ∧ w'.nleft = 0 ∨ r = -1 ∧ 0 < w'.nleft) := by
  induction fuel generalizing i w with
  | zero => cases hl
  | succ fuel ih =>
    rw [loop] at hl
    split at hl
    next h0 =>
      cases hl
      exact ⟨h, Or.inl ⟨rfl, h0⟩⟩
    next h0 =>
      rcases turn_cases d usrbuf i w with ⟨n, hn, ht, -⟩ | ⟨ht, -⟩
      · rw [ht] at hl
        exact ih (h.advance hn) hl
      · rw [ht] at hl
        cases hl
        exact ⟨h, Or.inr ⟨rfl, Nat.pos_of_ne_zero h0⟩⟩

/-! ### The end of the loop -/

/-- No call fails, and after each there is one that takes something. -/
structure Descriptor.Accepts (d : Descriptor) : Prop where
  interrupted : ∀ i count, 0 < count → (d.write i count).nwritten ≤ 0 →
    (d.write i count).errno = eintr
  progresses : ∀ i, ∃ j ≥ i, ∀ count, 0 < count → 0 < (d.write j count).nwritten

theorem turn_accepted (ha : d.Accepts) (usrbuf : List Byte) (i : Nat) (h0 : w.nleft ≠ 0) :
    ∃ n ≤ w.nleft, turn d usrbuf i w = some (w.advance usrbuf n) ∧
      n = (d.write i w.nleft).nwritten.toNat := by
  rcases turn_cases d usrbuf i w with h | ⟨-, hn, he⟩
  · exact h
  · exact absurd (ha.interrupted i w.nleft (Nat.pos_of_ne_zero h0) hn) he

/-- **The loop comes to its end**: by the bytes that are left, and among as many by the
calls before one that takes some of them. -/
theorem loop_finishes (ha : d.Accepts) (usrbuf : List Byte) : ∀ (n i : Nat) (w : Writing),
    w.nleft = n → ∃ fuel w', loop d usrbuf fuel i w = some ((usrbuf.length : Int), w') := by
  intro n
  induction n using Nat.strong_induction_on with
  | _ n ih =>
    intro i w hw
    obtain ⟨j, hij, hj⟩ := ha.progresses i
    obtain ⟨c, rfl⟩ := Nat.exists_eq_add_of_le hij
    induction c generalizing i w with
    | zero =>
      by_cases h0 : w.nleft = 0
      · exact ⟨1, w, by rw [loop, if_pos h0]⟩
      · obtain ⟨k, hk, ht, hkn⟩ := turn_accepted ha usrbuf i h0
        have hpos := hj w.nleft (Nat.pos_of_ne_zero h0)
        obtain ⟨fuel, w', hl⟩ := ih (w.nleft - k) (by simp only [Nat.add_zero] at hpos; omega) (i + 1)
          (w.advance usrbuf k) rfl
        exact ⟨fuel + 1, w', by rw [loop, if_neg h0, ht]; exact hl⟩
    | succ c ihc =>
      by_cases h0 : w.nleft = 0
      · exact ⟨1, w, by rw [loop, if_pos h0]⟩
      · obtain ⟨k, hk, ht, hkn⟩ := turn_accepted ha usrbuf i h0
        have hlast : ∃ fuel w', loop d usrbuf fuel (i + 1) (w.advance usrbuf k) =
            some ((usrbuf.length : Int), w') := by
          by_cases hk0 : k = 0
          · subst hk0
            refine ihc (i + 1) (w.advance usrbuf 0) hw (Nat.le_add_right _ _) ?_
            rw [Nat.add_right_comm]
            exact hj
          · exact ih (w.nleft - k) (by omega) (i + 1) (w.advance usrbuf k) rfl
        obtain ⟨fuel, w', hl⟩ := hlast
        exact ⟨fuel + 1, w', by rw [loop, if_neg h0, ht]; exact hl⟩

end Loop

/-! ### Sending at once -/

def Descriptor.Refuses (d : Descriptor) : Prop :=
  ∀ i count, (d.write i count).nwritten ≤ 0 ∧ (d.write i count).errno ≠ eintr

def Descriptor.Serves (d : Descriptor) (gdb : Gdb) : Prop :=
  if gdb.shut then d.Refuses else d.Accepts

theorem rioWriten_ok {d : Descriptor} {wire usrbuf : List Byte} {fuel : Nat} {r : Int} {w : Writing}
    (h : rioWriten d wire usrbuf fuel = some (r, w)) :
    r = usrbuf.length ∧ w.wire = wire ++ usrbuf ∨
      r = -1 ∧ ∃ n < usrbuf.length, w.wire = wire ++ usrbuf.take n := by
  have h0 : Sent wire usrbuf ⟨usrbuf.length, 0, wire⟩ :=
    ⟨Nat.zero_add _, (List.append_nil wire).symm⟩
  obtain ⟨hs, ⟨hr, hn⟩ | ⟨hr, hn⟩⟩ := loop_sent h0 h
  · have hp := hs.place
    rw [hn, Nat.add_zero] at hp
    exact Or.inl ⟨hr, by rw [hs.wire, hp, List.take_length]⟩
  · have hp := hs.place
    exact Or.inr ⟨hr, w.bufp, by omega, hs.wire⟩

/-- **`rio_writen` is the write of a whole text.**  Whatever the descriptor answers, every
byte is sent at most once and in order, and all of them where the loop ends well.  It
does end on the connection of a session, and it sends what the model of it sends at once, or fails
where that one does, having sent nothing. -/
theorem rioWriten_refines (d : Descriptor) (s : List Byte) :
    (∀ wire fuel r w, rioWriten d wire s fuel = some (r, w) →
      r = s.length ∧ w.wire = wire ++ s ∨
        r = -1 ∧ ∃ n < s.length, w.wire = wire ++ s.take n) ∧
    (∀ gdb : Gdb, d.Serves gdb → ∃ fuel r w, rioWriten d gdb.wire s fuel = some (r, w) ∧
      (r = s.length ∧ Armator.rioWriten gdb s = .ok { gdb with wire := w.wire } ∨
        r = -1 ∧ Armator.rioWriten gdb s = .error .brokenPipe ∧ w.wire = gdb.wire)) := by
  refine ⟨fun wire fuel r w h => rioWriten_ok h, fun gdb hd => ?_⟩
  by_cases hs : s = []
  · subst hs
    exact ⟨1, _, _, rfl, Or.inl ⟨rfl, rfl⟩⟩
  · rw [Descriptor.Serves] at hd
    cases ho : gdb.shut with
    | false =>
      rw [ho, if_neg Bool.false_ne_true] at hd
      obtain ⟨fuel, w, hl⟩ := loop_finishes hd s s.length 0 ⟨s.length, 0, gdb.wire⟩ rfl
      refine ⟨fuel, _, w, hl, Or.inl ⟨rfl, ?_⟩⟩
      rcases rioWriten_ok hl with ⟨-, hw⟩ | ⟨hr, -⟩
      · rw [Armator.rioWriten, if_neg hs, ho, if_neg Bool.false_ne_true, hw]
      · exact absurd hr (by omega)
    | true =>
      rw [ho, if_pos rfl] at hd
      refine ⟨1, -1, ⟨s.length, 0, gdb.wire⟩, ?_, Or.inr ⟨rfl, ?_, rfl⟩⟩
      · have hn : s.length ≠ 0 := fun e => hs (List.eq_nil_of_length_eq_zero e)
        have ht : turn d s 0 ⟨s.length, 0, gdb.wire⟩ = none := by
          rw [turn]
          exact (if_pos (hd 0 s.length).1).trans (if_neg (hd 0 s.length).2)
        rw [rioWriten, loop, if_neg hn, ht]
      · rw [Armator.rioWriten, if_neg hs, if_pos ho]

def slow : Descriptor where
  write i count := if i % 2 = 0 then ⟨-1, eintr⟩ else ⟨min 1 count, 0⟩
  le i count := by
    split
    · exact (by decide : (-1 : Int) ≤ 0).trans (Int.natCast_nonneg count)
    · exact min_le_right _ _

theorem slow_accepts : slow.Accepts := by
  refine ⟨fun i count hc hn => ?_, fun i => ⟨2 * i + 1, by omega, fun count hc => ?_⟩⟩
  · by_cases hi : i % 2 = 0
    · simp only [slow, if_pos hi]
    · simp only [slow, if_neg hi] at hn
      omega
  · have hi : ¬ (2 * i + 1) % 2 = 0 := by omega
    simp only [slow, if_neg hi]
    omega

/-- A reply over a connection that takes it byte by byte. -/
theorem rioWriten_refines_slow :
    let gdb := gdbInitData (coreOfWord 0) .little fun _ => 0
    ∃ fuel r w, rioWriten slow gdb.wire (Text.ascii "$OK#9a") fuel = some (r, w) ∧
      Armator.rioWriten gdb (Text.ascii "$OK#9a") = .ok { gdb with wire := w.wire } := by
  intro gdb
  obtain ⟨fuel, r, w, hl, ⟨-, hr⟩ | ⟨-, hr, -⟩⟩ :=
    (rioWriten_refines slow (Text.ascii "$OK#9a")).2 gdb slow_accepts
  · exact ⟨fuel, r, w, hl, hr⟩
  · cases hr

end Csapp

end Armator
