import Armator.Lib.Bytes

/-!
# C strings and the numbers in them

A pointer to characters is the list of the bytes from it to the end of what can be
read, and the string there is what comes before the first NUL (`cString`).

`hexByte` and `hexNat` are the texts that `sprintf` makes with `%02x` and `%x`.
`scanHex` is the conversion `%x` of `sscanf` with a field width, as the GNU library
does it: white space is skipped, a sign and a leading `0x` are taken, a `0x` without
digits is 0, and the value is that of `strtoul` cut to 32 bits.  `atoi` is `strtol` to
base 10, cut to 32 bits.

What was written is read back (`scanHex_hexByte`, `scanHexWord_hexNat`), and a scan of
digits in either case gives their value (`scanHex_digits`).
-/

namespace Text

/-- The bytes of an ASCII text. -/
def ascii (s : String) : List Byte := s.toList.map fun c => BitVec.ofNat 8 c.toNat

/-- The byte of an ASCII character. -/
def char (c : Char) : Byte := BitVec.ofNat 8 c.toNat

/-- The string at a pointer, `none` where no NUL ends it. -/
def cString (s : List Byte) : Option (List Byte) :=
  if 0 ∈ s then some (s.takeWhile (· ≠ 0)) else none

/-- The pointer to the first `c` of the string, as `index` finds it. -/
def index (s : List Byte) (c : Byte) : Option (List Byte) :=
  if c ∈ s.takeWhile (· ≠ 0) then some (s.drop (s.idxOf c)) else none

/-! ### Digits -/

def hexDigit (n : Nat) : Byte := if n < 10 then BitVec.ofNat 8 (0x30 + n) else BitVec.ofNat 8 (0x57 + n)

/-- The value of a digit, in either case. -/
def digitValue (b : Byte) : Option Nat :=
  if 0x30 ≤ b.toNat ∧ b.toNat ≤ 0x39 then some (b.toNat - 0x30)
  else if 0x61 ≤ b.toNat ∧ b.toNat ≤ 0x66 then some (b.toNat - 0x57)
  else if 0x41 ≤ b.toNat ∧ b.toNat ≤ 0x46 then some (b.toNat - 0x37)
  else none

/-- The number with the given digits, the most significant first. -/
def number (base : Nat) (ds : List Nat) : Nat := ds.foldl (fun v d => base * v + d) 0

/-- The digits to the base at the beginning of a text, at most `width` of them. -/
def takeDigits (base : Nat) : Nat → List Byte → List Nat
  | width + 1, b :: s =>
    match digitValue b with
    | some d => if d < base then d :: takeDigits base width s else []
    | none => []
  | _, _ => []

/-- `%02x` of a byte. -/
def hexByte (b : Byte) : List Byte := [hexDigit (b.toNat / 16), hexDigit (b.toNat % 16)]

/-- `%x` of a number. -/
def hexNat (n : Nat) : List Byte :=
  if n = 0 then [hexDigit 0] else (Nat.digits 16 n).reverse.map hexDigit

/-! ### Conversions -/

/-- `isspace` in the C locale. -/
def isSpace (b : Byte) : Bool := b = 0x20 ∨ (0x09 ≤ b.toNat ∧ b.toNat ≤ 0x0d)

/-- Whether the number is negative, and what follows its sign. -/
def takeSign : List Byte → Bool × List Byte
  | b :: s => if b = char '-' then (true, s) else if b = char '+' then (false, s) else (false, b :: s)
  | [] => (false, [])

/-- What follows an `x`, if there is one. -/
def takeX : Nat → List Byte → Nat × List Byte
  | width + 1, x :: s => if x = char 'x' ∨ x = char 'X' then (width, s) else (width + 1, x :: s)
  | width, s => (width, s)

/-- What follows a leading `0` or `0x`, if there is one. -/
def takeZero : Nat → List Byte → Option (Nat × List Byte)
  | width + 1, b :: s => if b = char '0' then some (takeX width s) else none
  | _, _ => none

/-- The `unsigned long` that `strtoul` makes of a number. -/
def strtoul (negative : Bool) (v : Nat) : BitVec 64 :=
  if 2 ^ 64 ≤ v then BitVec.allOnes 64
  else if negative then -BitVec.ofNat 64 v
  else BitVec.ofNat 64 v

/-- `%x` with a field width: the value, and the text behind it. -/
def scanHex (width : Nat) (s : List Byte) : Option (BitVec 32 × List Byte) :=
  let s := s.dropWhile isSpace
  let (negative, s') := takeSign s
  let width := width - (s.length - s'.length)
  let (zero, width, s) :=
    match takeZero width s' with
    | some (width, s) => (true, width, s)
    | none => (false, width, s')
  let ds := takeDigits 16 width s
  if zero ∨ ds ≠ [] then
    some ((strtoul negative (number 16 ds)).setWidth 32, s.drop ds.length)
  else none

/-- `%x` without a field width. -/
def scanHexWord (s : List Byte) : Option (BitVec 32 × List Byte) := scanHex s.length s

/-- `%x,%x`: the two values, as far as they are converted. -/
def scanHexPair (s : List Byte) : Option (BitVec 32) × Option (BitVec 32) :=
  match scanHexWord s with
  | none => (none, none)
  | some (v, rest) =>
    match rest with
    | [] => (some v, none)
    | b :: rest => (some v, if b = char ',' then (scanHexWord rest).map Prod.fst else none)

def atoi (s : List Byte) : BitVec 32 :=
  let (negative, s) := takeSign (s.dropWhile isSpace)
  let v : Int := number 10 (takeDigits 10 s.length s)
  -- `strtol` stops at the ends of `long`
  BitVec.ofInt 32 (if negative then max (-v) (-2 ^ 63) else min v (2 ^ 63 - 1))

/-! ### Strings -/

@[simp] theorem cString_zero (t : List Byte) : cString (0 :: t) = some [] := by
  simp [cString]

theorem takeWhile_append_of_notMem {s : List Byte} (h : 0 ∉ s) (t : List Byte) :
    (s ++ t).takeWhile (· ≠ 0) = s ++ t.takeWhile (· ≠ 0) := by
  refine List.takeWhile_append_of_pos fun b hb => ?_
  rw [decide_eq_true_iff]
  rintro rfl
  exact h hb

theorem cString_append {s : List Byte} (h : 0 ∉ s) (t : List Byte) :
    cString (s ++ t) = (cString t).map (s ++ ·) := by
  simp only [cString, List.mem_append, h, false_or, takeWhile_append_of_notMem h]
  split <;> rfl

theorem cString_isSome {s : List Byte} (h : 0 ∈ s) : ∃ u, cString s = some u :=
  ⟨_, if_pos h⟩

theorem cString_eq_none_iff {s : List Byte} : cString s = none ↔ 0 ∉ s := by
  simp [cString]

/-- The first `c` is found where it stands. -/
theorem index_append {s : List Byte} {c : Byte} (h0 : 0 ∉ s) (hc : c ∉ s) (hc0 : c ≠ 0)
    (t : List Byte) : index (s ++ c :: t) c = some (c :: t) := by
  have hs : c ∈ (s ++ c :: t).takeWhile (· ≠ 0) := by
    rw [takeWhile_append_of_notMem h0, List.takeWhile_cons_of_pos (by simpa using hc0)]
    exact List.mem_append_right _ List.mem_cons_self
  rw [index, if_pos hs, List.idxOf_append_of_notMem hc, List.idxOf_cons_self]
  simp

/-! ### Reading digits -/

theorem digitValue_hexDigit {n : Nat} (h : n < 16) : digitValue (hexDigit n) = some n := by
  revert n
  decide

theorem digitValue_lt {b : Byte} {d : Nat} (h : digitValue b = some d) : d < 16 := by
  unfold digitValue at h
  split at h
  · simp only [Option.some.injEq] at h
    omega
  · split at h
    · simp only [Option.some.injEq] at h
      omega
    · split at h
      · simp only [Option.some.injEq] at h
        omega
      · cases h

/-- The text `bs` consists of the digits `ds`. -/
abbrev Digits (bs : List Byte) (ds : List Nat) : Prop :=
  List.Forall₂ (fun b d => digitValue b = some d) bs ds

/-- A scan of digits does not go on in `t`. -/
def Stops (t : List Byte) : Prop :=
  ∀ b ∈ t.head?, digitValue b = none ∧ b ≠ char 'x' ∧ b ≠ char 'X'

theorem stops_nil : Stops [] := by
  intro b hb
  cases hb

theorem takeDigits_append {bs : List Byte} {ds : List Nat} (h : Digits bs ds) {width : Nat}
    (hw : bs.length ≤ width) {t : List Byte}
    (ht : width = bs.length ∨ ∀ b ∈ t.head?, digitValue b = none) :
    takeDigits 16 width (bs ++ t) = ds := by
  induction h generalizing width with
  | nil =>
    cases width with
    | zero => rfl
    | succ width =>
      cases t with
      | nil => rfl
      | cons b t =>
        rcases ht with h | h
        · exact absurd h (by simp)
        · simp [takeDigits, h b rfl]
  | @cons b d bs ds hb _ ih =>
    obtain ⟨w, rfl⟩ : ∃ w, width = w + 1 := ⟨width - 1, by simp at hw; omega⟩
    have hd := digitValue_lt hb
    simp only [List.length_cons, Nat.add_le_add_iff_right, Nat.add_right_cancel_iff] at hw ht
    simp [takeDigits, hb, hd, ih hw ht]

/-- A digit is none of the characters that a scan treats apart. -/
theorem digit_facts (b : Byte) :
    digitValue b = none ∨ (isSpace b = false ∧ b ≠ char '-' ∧ b ≠ char '+' ∧ b ≠ char 'x' ∧
      b ≠ char 'X' ∧ (b = char '0' ↔ digitValue b = some 0)) := by
  revert b
  decide +kernel

theorem facts_of_digit {b : Byte} {d : Nat} (h : digitValue b = some d) :
    isSpace b = false ∧ b ≠ char '-' ∧ b ≠ char '+' ∧ b ≠ char 'x' ∧ b ≠ char 'X' ∧
      (b = char '0' ↔ d = 0) := by
  rcases digit_facts b with hn | hf
  · rw [hn] at h
    cases h
  · rw [h, Option.some.injEq] at hf
    exact hf

theorem takeZero_append {b : Byte} {bs : List Byte} {d : Nat} {ds : List Nat}
    (hb : digitValue b = some d) (h : Digits bs ds) {width : Nat} (hw : bs.length ≤ width)
    {t : List Byte} (ht : width = bs.length ∨ Stops t) :
    takeZero (width + 1) (b :: (bs ++ t)) = if d = 0 then some (width, bs ++ t) else none := by
  obtain ⟨-, -, -, -, -, h0⟩ := facts_of_digit hb
  have hx : takeX width (bs ++ t) = (width, bs ++ t) := by
    -- what follows the zero is a digit, the end of the field, or a character that stops
    cases h with
    | nil =>
      cases width with
      | zero => rfl
      | succ width =>
        cases t with
        | nil => rfl
        | cons x t =>
          rcases ht with ht | ht
          · exact absurd ht (by simp)
          · exact if_neg (not_or.mpr (ht x rfl).2)
    | @cons x d bs ds hx _ =>
      obtain ⟨w, rfl⟩ : ∃ w, width = w + 1 := ⟨width - 1, by simp at hw; omega⟩
      obtain ⟨-, -, -, hx1, hx2, -⟩ := facts_of_digit hx
      exact if_neg (not_or.mpr ⟨hx1, hx2⟩)
  by_cases hd : d = 0
  · rw [takeZero, if_pos (h0.mpr hd), if_pos hd, hx]
  · rw [takeZero, if_neg (fun e => hd (h0.mp e)), if_neg hd]

theorem number_cons_zero (base : Nat) (ds : List Nat) : number base (0 :: ds) = number base ds := by
  simp [number]

/-- **A scan of digits, in either case, gives their value.** -/
theorem scanHex_digits {bs : List Byte} {ds : List Nat} (h : Digits bs ds) (hne : bs ≠ [])
    {width : Nat} (hw : bs.length ≤ width) {t : List Byte} (ht : width = bs.length ∨ Stops t)
    (hv : number 16 ds < 2 ^ 64) :
    scanHex width (bs ++ t) = some (BitVec.ofNat 32 (number 16 ds), t) := by
  cases h with
  | nil => exact absurd rfl hne
  | @cons b d bs ds hb h =>
    obtain ⟨hsp, hminus, hplus, -, -, -⟩ := facts_of_digit hb
    obtain ⟨w, rfl⟩ : ∃ w, width = w + 1 := ⟨width - 1, by simp at hw; omega⟩
    simp only [List.length_cons, Nat.add_le_add_iff_right, Nat.add_right_cancel_iff] at hw ht
    have hspace : (b :: bs ++ t).dropWhile isSpace = b :: (bs ++ t) := by
      rw [List.cons_append, List.dropWhile_cons_of_neg (by simp [hsp])]
    have hsign : takeSign (b :: (bs ++ t)) = (false, b :: (bs ++ t)) := by
      rw [takeSign, if_neg hminus, if_neg hplus]
    have hul : (strtoul false (number 16 (d :: ds))).setWidth 32 =
        BitVec.ofNat 32 (number 16 (d :: ds)) := by
      rw [strtoul, if_neg (by omega), if_neg (by simp)]
      exact BitVec.setWidth_ofNat_of_le (by omega) _
    have hstop : ∀ {w n : Nat}, (w = n ∨ Stops t) → (w = n ∨ ∀ b ∈ t.head?, digitValue b = none) := by
      intro w n hor
      exact hor.imp_right fun hs b hb => (hs b hb).1
    simp only [scanHex, hspace, hsign, Nat.sub_self, Nat.sub_zero, takeZero_append hb h hw ht]
    by_cases hd : d = 0
    · subst hd
      have htake := takeDigits_append h hw (hstop ht)
      simp only [if_true, htake, true_or, ← h.length_eq, List.drop_left]
      rw [← hul, number_cons_zero]
    · have htake : takeDigits 16 (w + 1) (b :: (bs ++ t)) = d :: ds :=
        takeDigits_append (List.Forall₂.cons hb h) (t := t) (by simpa using hw)
          (by simpa using hstop ht)
      simp only [if_neg hd, htake]
      rw [if_pos (Or.inr (List.cons_ne_nil d ds)), hul, List.length_cons, ← h.length_eq,
        List.drop_succ_cons, List.drop_left]

/-! ### Reading back what was written -/

theorem digits_map_hexDigit (ds : List Nat) (h : ∀ d ∈ ds, d < 16) :
    Digits (ds.map hexDigit) ds := by
  induction ds with
  | nil => exact List.Forall₂.nil
  | cons d ds ih =>
    refine List.Forall₂.cons (digitValue_hexDigit (h d List.mem_cons_self)) (ih fun e he => ?_)
    exact h e (List.mem_cons_of_mem d he)

theorem number_reverse (base : Nat) (ds : List Nat) :
    number base ds.reverse = Nat.ofDigits base ds := by
  rw [number, List.foldl_reverse, Nat.ofDigits_eq_foldr]
  simp [Nat.add_comm]

@[simp] theorem length_hexByte (b : Byte) : (hexByte b).length = 2 := rfl

theorem digits_hexByte (b : Byte) : Digits (hexByte b) [b.toNat / 16, b.toNat % 16] := by
  have hb := b.isLt
  refine digits_map_hexDigit [b.toNat / 16, b.toNat % 16] ?_
  intro d hd
  simp only [List.mem_cons, List.not_mem_nil, or_false] at hd
  omega

theorem scanHex_hexByte (b : Byte) (t : List Byte) :
    scanHex 2 (hexByte b ++ t) = some (b.setWidth 32, t) := by
  have hb := b.isLt
  have hn : number 16 [b.toNat / 16, b.toNat % 16] = b.toNat := by
    simp only [number, List.foldl_cons, List.foldl_nil]
    omega
  rw [scanHex_digits (digits_hexByte b) (by simp [hexByte]) (Nat.le_refl 2) (Or.inl rfl) (by rw [hn]; omega), hn]
  congr 2
  exact BitVec.eq_of_toNat_eq (by simp)

/-- The digits of `hexNat`. -/
theorem digits_hexNat (n : Nat) : ∃ ds, Digits (hexNat n) ds ∧ number 16 ds = n := by
  rw [hexNat]
  split
  next h => exact ⟨[0], digits_map_hexDigit [0] (by simp), by rw [h]; rfl⟩
  next h =>
    refine ⟨(Nat.digits 16 n).reverse, digits_map_hexDigit _ ?_, ?_⟩
    · intro d hd
      exact Nat.digits_lt_base (by omega) (List.mem_reverse.mp hd)
    · rw [number_reverse, Nat.ofDigits_digits]

theorem hexNat_ne_nil (n : Nat) : hexNat n ≠ [] := by
  rw [hexNat]
  split
  · simp
  next h =>
    rw [Ne, List.map_eq_nil_iff, List.reverse_eq_nil_iff]
    exact fun e => h (Nat.digits_eq_nil_iff_eq_zero.mp e)

/-- **A number written with `%x` is read back by `%x`.** -/
theorem scanHexWord_hexNat {n : Nat} (h : n < 2 ^ 64) {t : List Byte} (ht : Stops t) :
    scanHexWord (hexNat n ++ t) = some (BitVec.ofNat 32 n, t) := by
  obtain ⟨ds, hd, hn⟩ := digits_hexNat n
  rw [scanHexWord, scanHex_digits hd (hexNat_ne_nil n) (by simp) (Or.inr ht) (by rwa [hn]), hn]

theorem scanHexPair_hexNat {m n : Nat} (hm : m < 2 ^ 64) (hn : n < 2 ^ 64) {t : List Byte}
    (ht : Stops t) :
    scanHexPair (hexNat m ++ char ',' :: (hexNat n ++ t)) =
      (some (BitVec.ofNat 32 m), some (BitVec.ofNat 32 n)) := by
  have hcomma : Stops (char ',' :: (hexNat n ++ t)) := by
    intro b hb
    cases hb
    decide
  simp only [scanHexPair, scanHexWord_hexNat hm hcomma, if_true, scanHexWord_hexNat hn ht,
    Option.map_some]

/-! ### Characters that are no digits -/

theorem notMem_of_digits {bs : List Byte} {ds : List Nat} (h : Digits bs ds) {c : Byte}
    (hc : digitValue c = none) : c ∉ bs := by
  induction h with
  | nil => simp
  | @cons b d bs ds hb _ ih =>
    rw [List.mem_cons]
    rintro (rfl | hm)
    · rw [hc] at hb
      cases hb
    · exact ih hm

theorem notMem_hexNat (n : Nat) {c : Byte} (hc : digitValue c = none) : c ∉ hexNat n := by
  obtain ⟨ds, hd, -⟩ := digits_hexNat n
  exact notMem_of_digits hd hc

theorem notMem_hexByte (b : Byte) {c : Byte} (hc : digitValue c = none) : c ∉ hexByte b :=
  notMem_of_digits (digits_hexByte b) hc

theorem notMem_flatMap_hexByte (bs : List Byte) {c : Byte} (hc : digitValue c = none) :
    c ∉ bs.flatMap hexByte := by
  rw [List.mem_flatMap]
  rintro ⟨b, -, h⟩
  exact notMem_hexByte b hc h

theorem length_flatMap_hexByte (bs : List Byte) : (bs.flatMap hexByte).length = 2 * bs.length := by
  induction bs with
  | nil => rfl
  | cons b bs ih =>
    rw [List.flatMap_cons, List.length_append, ih, length_hexByte, List.length_cons]
    omega

end Text
