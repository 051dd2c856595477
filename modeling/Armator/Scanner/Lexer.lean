import Armator.Lib.Lexing
import Armator.Scanner

/-!
# The rules of the scanner

`scanner.l` leaves the matching of its rules to flex: the longest match wins, and of the
rules that match it the first.  `Rule.language` is the language of each rule as the file
writes it, and `lex` is what the scanner made of it does with a stream of bytes: it takes
a packet where there is a whole one, and otherwise one character.  `lex_reads` says that
this is the discipline of flex.

A `$` that does not begin a packet is an unrecognised character like any other, and what
follows it is read as if it had not been there.  No rule's text goes on over a `$`, hence
every `$` is a place where the reading begins anew (`barrier_dollar`): a packet is found
after whatever has come before it.
-/

namespace Armator

open Text
open Computability

/-! ### The rules -/

/-- The rules in the order of the file.  The last one is flex's own, which copies what no
other rule matches to the standard output. -/
inductive Rule
  | ack
  | nack
  | packet
  | other
  | echo
  deriving DecidableEq, Repr

def Rule.number : Rule → Nat
  | ack => 0
  | nack => 1
  | packet => 2
  | other => 3
  | echo => 4

theorem Rule.number_injective : Function.Injective Rule.number := by
  intro i j h
  cases i <;> cases j <;> first | rfl | cases h

instance : LinearOrder Rule := LinearOrder.lift' Rule.number Rule.number_injective

/-- `{HEX}`. -/
def hex : Language Byte := Lexing.oneOf fun b => (digitValue b).isSome

/-- `[^$#]`. -/
def plain : Language Byte := Lexing.oneOf fun b => b ≠ char '$' ∧ b ≠ char '#'

def Rule.language : Rule → Language Byte
  | ack => Lexing.oneOf (· = char '+')
  | nack => Lexing.oneOf (· = char '-')
  | packet => Lexing.oneOf (· = char '$') * (plain∗ * (Lexing.oneOf (· = char '#') * (hex * hex)))
  | other => Lexing.oneOf (· ≠ char '\n')
  | echo => Lexing.oneOf fun _ => True

theorem mem_packet_iff {w : List Byte} : w ∈ Rule.packet.language ↔ ∃ p : Packet, w = p.text := by
  rw [Rule.language, Lexing.mem_oneOf_mul]
  constructor
  · rintro ⟨_, v, rfl, hv, rfl⟩
    obtain ⟨s, hs, u, hu, rfl⟩ := Language.mem_mul.mp hv
    obtain ⟨_, x, rfl, hx, rfl⟩ := Lexing.mem_oneOf_mul.mp hu
    obtain ⟨high, y, hhigh, ⟨low, hlow, rfl⟩, rfl⟩ := Lexing.mem_oneOf_mul.mp hx
    exact ⟨⟨s, high, low, Lexing.mem_kstar_oneOf.mp hs, hhigh, hlow⟩, rfl⟩
  · rintro ⟨p, rfl⟩
    refine ⟨_, _, rfl, ?_, rfl⟩
    refine Language.mem_mul.mpr ⟨p.payload, Lexing.mem_kstar_oneOf.mpr p.plain, _, ?_, rfl⟩
    refine Lexing.mem_oneOf_mul.mpr ⟨_, _, rfl, ?_, rfl⟩
    exact Lexing.mem_oneOf_mul.mpr ⟨p.high, [p.low], p.digits.1, ⟨p.low, p.digits.2, rfl⟩, rfl⟩

/-! ### The scanner -/

/-- What the scanner takes from the stream in one step. -/
inductive Piece
  | ack
  | nack
  | packet (p : Packet)
  | other (c : Byte)
  | newline

def Piece.text : Piece → List Byte
  | ack => ascii "+"
  | nack => ascii "-"
  | packet p => p.text
  | other c => [c]
  | newline => [char '\n']

def Piece.rule : Piece → Rule
  | ack => .ack
  | nack => .nack
  | packet _ => .packet
  | other _ => .other
  | newline => .echo

/-- The lexeme as a piece of the stream. -/
def Lexeme.piece : Lexeme → Piece
  | .token .ack => .ack
  | .token .nack => .nack
  | .token (.packet p _ _) => .packet p
  | .other c => .other c
  | .newline => .newline

def isPlainByte (b : Byte) : Bool := b != char '$' && b != char '#'

theorem isPlainByte_iff {b : Byte} : isPlainByte b = true ↔ b ≠ char '$' ∧ b ≠ char '#' := by
  simp [isPlainByte]

/-- The packet that stands behind a `$`, with what follows it. -/
def takePacket (s : List Byte) : Option (Packet × List Byte) :=
  match s.dropWhile isPlainByte with
  | c :: high :: low :: rest =>
    if h : c = char '#' ∧ (digitValue high).isSome ∧ (digitValue low).isSome then
      some (⟨s.takeWhile isPlainByte, high, low,
        fun _ hb => isPlainByte_iff.mp (List.mem_takeWhile_imp hb), h.2⟩, rest)
    else none
  | _ => none

def nextPiece (b : Byte) (s : List Byte) : Piece × List Byte :=
  if b = char '+' then (.ack, s)
  else if b = char '-' then (.nack, s)
  else if b = char '\n' then (.newline, s)
  else
    match if b = char '$' then takePacket s else none with
    | some (p, rest) => (.packet p, rest)
    | none => (.other b, s)

theorem takePacket_text (p : Packet) (rest : List Byte) :
    takePacket (p.text.tail ++ rest) = some (p, rest) := by
  have hs : p.text.tail ++ rest = p.payload ++ char '#' :: p.high :: p.low :: rest := by
    simp [Packet.text]
  have hp : ∀ b ∈ p.payload, isPlainByte b = true := fun b hb => isPlainByte_iff.mpr (p.plain b hb)
  have hsharp : isPlainByte (char '#') = false := rfl
  have hdrop : (p.payload ++ char '#' :: p.high :: p.low :: rest).dropWhile isPlainByte =
      char '#' :: p.high :: p.low :: rest := by
    rw [List.dropWhile_append_of_pos hp, List.dropWhile_cons_of_neg (by simp [hsharp])]
  have htake : (p.payload ++ char '#' :: p.high :: p.low :: rest).takeWhile isPlainByte =
      p.payload := by
    rw [List.takeWhile_append_of_pos hp, List.takeWhile_cons_of_neg (by simp [hsharp]),
      List.append_nil]
  rw [hs, takePacket]
  simp only [hdrop, htake, p.digits, and_self, dif_pos]

theorem text_of_takePacket {s rest : List Byte} {p : Packet} (h : takePacket s = some (p, rest)) :
    char '$' :: s = p.text ++ rest := by
  rw [takePacket] at h
  split at h
  next c high low r hdrop =>
    split at h
    next hc =>
      cases h
      obtain ⟨rfl, -⟩ := hc
      rw [Packet.text, List.cons_append, List.append_assoc]
      dsimp only
      rw [List.cons_append, List.cons_append, List.cons_append, List.nil_append, ← hdrop,
        List.takeWhile_append_dropWhile]
    next => cases h
  next => cases h

/-- What the scanner takes is what stands there. -/
theorem nextPiece_text (b : Byte) (s : List Byte) :
    (nextPiece b s).1.text ++ (nextPiece b s).2 = b :: s := by
  rw [nextPiece]
  split
  next h => rw [h]; rfl
  next =>
    split
    next h => rw [h]; rfl
    next =>
      split
      next h => rw [h]; rfl
      next =>
        split
        next p rest h =>
          split at h
          next hb =>
            rw [hb]
            exact (text_of_takePacket h).symm
          next => cases h
        next => rfl

theorem length_nextPiece_lt (b : Byte) (s : List Byte) : (nextPiece b s).2.length < s.length + 1 := by
  have h := congrArg List.length (nextPiece_text b s)
  have htext : (nextPiece b s).1.text.length ≠ 0 := by
    cases (nextPiece b s).1 <;> simp [Piece.text, ascii, Packet.text]
  rw [List.length_append, List.length_cons] at h
  omega

/-- The scanner on a whole stream. -/
def lex : List Byte → List Piece
  | [] => []
  | b :: s => (nextPiece b s).1 :: lex (nextPiece b s).2
termination_by s => s.length
decreasing_by exact length_nextPiece_lt b s

@[simp] theorem lex_nil : lex [] = [] := by rw [lex]

theorem lex_cons (b : Byte) (s : List Byte) :
    lex (b :: s) = (nextPiece b s).1 :: lex (nextPiece b s).2 := by
  rw [lex]

/-! ### The scanner and the discipline -/

theorem length_of_mem_language {i : Rule} (hi : i ≠ .packet) {w : List Byte} (h : w ∈ i.language) :
    w.length = 1 := by
  cases i with
  | packet => exact absurd rfl hi
  | ack => exact Lexing.length_of_mem_oneOf h
  | nack => exact Lexing.length_of_mem_oneOf h
  | other => exact Lexing.length_of_mem_oneOf h
  | echo => exact Lexing.length_of_mem_oneOf h

/-- A packet at the beginning of the stream is taken, whole. -/
theorem nextPiece_packet {b : Byte} {s rest : List Byte} {p : Packet} (h : b :: s = p.text ++ rest) :
    nextPiece b s = (.packet p, rest) := by
  have hb : b = char '$' := (List.cons.inj h).1
  have hs : s = p.text.tail ++ rest := (List.cons.inj h).2
  subst hb hs
  rw [nextPiece, if_neg (by decide), if_neg (by decide), if_neg (by decide), if_pos rfl,
    takePacket_text]

/-- A character that has a rule of its own is not an unrecognised one. -/
def Piece.Fits : Piece → Prop
  | other c => c ≠ char '+' ∧ c ≠ char '-' ∧ c ≠ char '\n'
  | _ => True

theorem fits_nextPiece (b : Byte) (s : List Byte) : (nextPiece b s).1.Fits := by
  rw [nextPiece]
  split
  next => trivial
  next hack =>
    split
    next => trivial
    next hnack =>
      split
      next => trivial
      next hnewline =>
        split
        next => trivial
        next => exact ⟨hack, hnack, hnewline⟩

theorem Piece.Fits.text_mem {x : Piece} (h : x.Fits) : x.text ∈ x.rule.language := by
  cases x with
  | ack => exact ⟨_, rfl, rfl⟩
  | nack => exact ⟨_, rfl, rfl⟩
  | packet p => exact mem_packet_iff.mpr ⟨p, rfl⟩
  | other c => exact ⟨c, h.2.2, rfl⟩
  | newline => exact ⟨_, trivial, rfl⟩

theorem Piece.text_ne_nil (x : Piece) : x.text ≠ [] := by
  cases x <;> exact List.cons_ne_nil _ _

/-- No earlier rule matches the same text. -/
theorem Piece.Fits.rule_le {x : Piece} (h : x.Fits) {j : Rule} (hj : x.text ∈ j.language) :
    x.rule ≤ j := by
  show x.rule.number ≤ j.number
  have hchar : ∀ {P : Byte → Prop} {b : Byte}, [b] ∈ Lexing.oneOf P → P b := by
    rintro P b ⟨a, ha, hab⟩
    rw [(List.cons.inj hab).1]
    exact ha
  have hpacket : ∀ b : Byte, [b] ∉ Rule.packet.language := by
    intro b hb
    obtain ⟨p, hp⟩ := mem_packet_iff.mp hb
    have hl := congrArg List.length hp
    simp [Packet.text] at hl
  cases x with
  | ack => exact Nat.zero_le _
  | nack =>
    cases j with
    | ack => exact absurd (hchar hj) (by decide)
    | nack => exact Nat.le_refl 1
    | packet => exact absurd hj (hpacket _)
    | other => exact (by decide : 1 ≤ 3)
    | echo => exact (by decide : 1 ≤ 4)
  | packet p =>
    have hlong : p.text.length ≠ 1 := by simp [Packet.text]
    by_cases hjp : j = .packet
    · rw [hjp]
      exact Nat.le_refl 2
    · exact absurd (length_of_mem_language hjp hj) hlong
  | other c =>
    cases j with
    | ack => exact absurd (hchar hj) h.1
    | nack => exact absurd (hchar hj) h.2.1
    | packet => exact absurd hj (hpacket _)
    | other => exact Nat.le_refl 3
    | echo => exact (by decide : 3 ≤ 4)
  | newline =>
    cases j with
    | ack => exact absurd (hchar hj) (by decide)
    | nack => exact absurd (hchar hj) (by decide)
    | packet => exact absurd hj (hpacket _)
    | other => exact absurd rfl (hchar hj)
    | echo => exact Nat.le_refl 4

/-- **One step of the scanner follows the discipline.** -/
theorem first_nextPiece (b : Byte) (s : List Byte) :
    Lexing.First Rule.language (b :: s) (nextPiece b s).1.rule (nextPiece b s).1.text := by
  refine ⟨⟨(nextPiece b s).2, nextPiece_text b s⟩, (fits_nextPiece b s).text_mem,
    Piece.text_ne_nil _, ?_, fun j => (fits_nextPiece b s).rule_le⟩
  intro j v ⟨rest, hv⟩ hj
  by_cases hjp : j = .packet
  · -- where there is a whole packet, it is taken
    subst hjp
    obtain ⟨p, rfl⟩ := mem_packet_iff.mp hj
    rw [nextPiece_packet hv.symm]
    exact Nat.le_refl _
  · rw [length_of_mem_language hjp hj]
    exact List.length_pos_of_ne_nil (Piece.text_ne_nil _)

/-- The rule and the text of a piece. -/
def Piece.reading (x : Piece) : Rule × List Byte := (x.rule, x.text)

theorem reads_lex (s : List Byte) :
    Lexing.Reads Rule.language s ((lex s).map Piece.reading) := by
  induction s using lex.induct with
  | case1 =>
    rw [lex_nil]
    exact .nil
  | case2 b s ih =>
    have h := first_nextPiece b s
    rw [lex_cons, List.map_cons]
    rw [← nextPiece_text b s] at h ⊢
    exact .cons h ih

/-- **The scanner follows flex's discipline**: of every stream it makes the one reading in
which each text is the longest match, taken by the first rule that matches it; and the texts
make up the stream. -/
theorem lex_reads (s : List Byte) :
    (∀ ls, Lexing.Reads Rule.language s ls ↔ ls = (lex s).map Piece.reading) ∧
      ((lex s).map Piece.text).flatten = s := by
  have hlex := reads_lex s
  refine ⟨fun ls => ⟨fun h => h.unique hlex, ?_⟩, ?_⟩
  · rintro rfl
    exact hlex
  · have h := hlex.flatten
    rw [List.map_map] at h
    exact h

theorem Packet.text_injective {p q : Packet} (h : p.text = q.text) : p = q := by
  have hl := congrArg List.length h
  simp only [Packet.text, List.length_cons, List.length_append, List.length_nil] at hl
  obtain ⟨hpayload, htail⟩ := List.append_inj (List.cons.inj h).2 (by omega)
  obtain ⟨-, hhigh, hlow⟩ : char '#' = char '#' ∧ p.high = q.high ∧ p.low = q.low := by
    simpa using htail
  cases p
  cases q
  simp_all

theorem Piece.reading_injective : Function.Injective Piece.reading := by
  intro x y h
  obtain ⟨hrule, htext⟩ := Prod.mk.inj h
  cases x <;> cases y <;> first | rfl | cases hrule
  next p q => rw [Packet.text_injective htext]
  next c d => rw [(List.cons.inj htext).1]

theorem lex_eq_of_reads {s : List Byte} {xs : List Piece}
    (h : Lexing.Reads Rule.language s (xs.map Piece.reading)) : lex s = xs :=
  Piece.reading_injective.list_map (h.unique (reads_lex s)).symm

/-! ### Reading in parts -/

/-- No rule goes on over a `$`. -/
theorem barrier_dollar (t : List Byte) : Lexing.Barrier Rule.language (char '$' :: t) := by
  intro j u v hu hv hvt hj
  obtain ⟨b, v, rfl⟩ := List.exists_cons_of_ne_nil hv
  obtain ⟨a, u, rfl⟩ := List.exists_cons_of_ne_nil hu
  obtain ⟨rfl, -⟩ := List.cons_prefix_cons.mp hvt
  by_cases hjp : j = .packet
  · -- the only `$` of a packet is its first character
    subst hjp
    obtain ⟨p, hp⟩ := mem_packet_iff.mp hj
    have hmem : char '$' ∈ p.payload ++ [char '#', p.high, p.low] := by
      rw [← (List.cons.inj hp).2]
      exact List.mem_append_right u List.mem_cons_self
    have hdigit : ∀ d : Byte, (digitValue d).isSome → char '$' ≠ d := by
      rintro d hd rfl
      exact absurd hd (by decide)
    simp only [List.mem_append, List.mem_cons, List.not_mem_nil, or_false] at hmem
    rcases hmem with h | h | h | h
    · exact (p.plain _ h).1 rfl
    · exact absurd h (by decide)
    · exact hdigit _ p.digits.1 h
    · exact hdigit _ p.digits.2 h
  · have hl := length_of_mem_language hjp hj
    simp at hl

/-- **Every `$` is a place where the reading begins anew.** -/
theorem lex_append_dollar (s t : List Byte) :
    lex (s ++ char '$' :: t) = lex s ++ lex (char '$' :: t) := by
  refine lex_eq_of_reads ?_
  rw [List.map_append]
  exact (reads_lex s).append (barrier_dollar t) (reads_lex _)

/-- No rule continues a token, or a character other than `$`: the scanner need not wait for
what comes next. -/
theorem Piece.final {x : Piece} (hd : x ≠ .other (char '$')) :
    Lexing.Final Rule.language x.text := by
  intro j v hj hxv
  by_cases hjp : j = .packet
  · subst hjp
    obtain ⟨p, rfl⟩ := mem_packet_iff.mp hj
    obtain ⟨r, hr⟩ := hxv
    cases x with
    | packet q =>
      -- the packet that stands here is one only
      have hp : nextPiece _ _ = (.packet p, []) := nextPiece_packet (List.append_nil p.text).symm
      have hq : nextPiece _ _ = (.packet q, r) := nextPiece_packet hr.symm
      rw [hp] at hq
      rw [Piece.text, (Piece.packet.inj (Prod.mk.inj hq).1)]
    | other c =>
      refine absurd (congrArg Piece.other ?_) hd
      exact (List.cons.inj hr).1
    | ack => exact absurd (List.cons.inj hr).1 (by decide)
    | nack => exact absurd (List.cons.inj hr).1 (by decide)
    | newline => exact absurd (List.cons.inj hr).1 (by decide)
  · have hl := length_of_mem_language hjp hj
    refine (hxv.eq_of_length_le ?_).symm
    rw [hl]
    exact List.length_pos_of_ne_nil (Piece.text_ne_nil x)

/-- A token at the beginning of the stream is taken, whatever comes behind it. -/
theorem lex_text_append {x : Piece} (hx : x.Fits) (hd : x ≠ .other (char '$')) (t : List Byte) :
    lex (x.text ++ t) = x :: lex t := by
  have h := Lexing.First.of_final hx.text_mem (Piece.text_ne_nil x) (fun j => hx.rule_le)
    (Piece.final hd) t
  exact lex_eq_of_reads (.cons h (reads_lex t))

theorem lex_packet (p : Packet) (t : List Byte) : lex (p.text ++ t) = .packet p :: lex t :=
  lex_text_append (x := .packet p) trivial (by simp) t

/-- A packet is found after whatever has come before it. -/
theorem lex_append_packet (s : List Byte) (p : Packet) (t : List Byte) :
    lex (s ++ (p.text ++ t)) = lex s ++ .packet p :: lex t := by
  rw [← lex_packet]
  exact lex_append_dollar s _

/-- **A packet is taken from the stream exactly where its text stands**, and what comes
before it and what comes behind it are read as if they were streams of their own. -/
theorem lex_eq_append_packet_iff {s : List Byte} {xs ys : List Piece} {p : Packet} :
    lex s = xs ++ .packet p :: ys ↔ ∃ u t, s = u ++ (p.text ++ t) ∧ lex u = xs ∧ lex t = ys := by
  constructor
  · intro h
    have hr := reads_lex s
    rw [h, List.map_append, List.map_cons] at hr
    obtain ⟨u, t, rfl, ht⟩ := hr.suffix
    obtain ⟨v, rfl, hv⟩ := ht.tail
    have hys := lex_eq_of_reads hv
    refine ⟨u, v, rfl, ?_, hys⟩
    rw [Piece.text, lex_append_packet, hys] at h
    exact List.append_cancel_right h
  · rintro ⟨u, t, rfl, rfl, rfl⟩
    exact lex_append_packet u p t

end Armator
