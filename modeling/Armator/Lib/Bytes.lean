import Mathlib

/-!
# Words as bytes

A word of `n` bytes is a `BitVec (8 * n)`, and a byte store is a function from
indices to bytes.  `ofBytes e n f` is the word that the bytes `f 0 … f (n - 1)`
make in the byte order `e`, and `byteOf e n v k` is the byte the word `v` puts
at the `k`-th place.  The two are inverse to each other in either order
(`ofBytes_byteOf`, `byteOf_ofBytes`).

`reverse n` exchanges the two orders: reading in one order and reversing is
reading in the other (`reverse_ofBytes`), and reversing before a write in one
order is writing in the other (`byteOf_reverse`).

`store f a n b` is the store `f` with `n` bytes written from index `a` on.  A
word read where it was written comes back (`ofBytes_store_same`), and a word
read off the written range is the old one (`ofBytes_store_disjoint`).
-/

abbrev Byte := BitVec 8

/-- The order in which the bytes of a word lie at ascending indices. -/
inductive Endian
  | little
  | big
  deriving DecidableEq, Repr

namespace Endian

/-- The other order. -/
def swap : Endian → Endian
  | little => big
  | big => little

/-- The significance of the byte at place `k` of an `n`-byte word.  It is its
own inverse: it also says at which place the byte of significance `k` lies. -/
def place : Endian → Nat → Nat → Nat
  | little, _, k => k
  | big, n, k => n - 1 - k

theorem place_lt (e : Endian) {n k : Nat} (h : k < n) : e.place n k < n := by
  cases e
  · exact h
  · simp only [place]
    omega

theorem place_place (e : Endian) {n k : Nat} (h : k < n) : e.place n (e.place n k) = k := by
  cases e
  · rfl
  · simp only [place]
    omega

end Endian

namespace Bytes

/-- The word that the bytes `f 0 … f (n - 1)` make in the order `e`. -/
def ofBytes (e : Endian) (n : Nat) (f : Nat → Byte) : BitVec (8 * n) :=
  BitVec.ofFnLE fun i : Fin (8 * n) => (f (e.place n (i / 8))).getLsbD (i % 8)

/-- The byte that the word `v` has at place `k` in the order `e`. -/
def byteOf (e : Endian) (n : Nat) (v : BitVec (8 * n)) (k : Nat) : Byte :=
  v.extractLsb' (8 * e.place n k) 8

/-- The store `f` with the bytes `b 0 … b (n - 1)` written from `a` on. -/
def store (f : Nat → Byte) (a n : Nat) (b : Nat → Byte) : Nat → Byte :=
  fun i => if a ≤ i ∧ i < a + n then b (i - a) else f i

/-- The bytes of a word in the opposite order. -/
def reverse (n : Nat) (v : BitVec (8 * n)) : BitVec (8 * n) :=
  ofBytes .big n (byteOf .little n v)

theorem getLsbD_ofBytes (e : Endian) (n : Nat) (f : Nat → Byte) {i : Nat} (h : i < 8 * n) :
    (ofBytes e n f).getLsbD i = (f (e.place n (i / 8))).getLsbD (i % 8) := by
  rw [ofBytes, BitVec.getLsbD_ofFnLE, dif_pos h]

theorem getLsbD_byteOf (e : Endian) (n : Nat) (v : BitVec (8 * n)) (k : Nat) {j : Nat}
    (h : j < 8) : (byteOf e n v k).getLsbD j = v.getLsbD (8 * e.place n k + j) := by
  simp [byteOf, h]

theorem ofBytes_congr (e : Endian) {n : Nat} {f g : Nat → Byte} (h : ∀ k < n, f k = g k) :
    ofBytes e n f = ofBytes e n g := by
  apply BitVec.eq_of_getLsbD_eq
  intro i hi
  rw [getLsbD_ofBytes e n f hi, getLsbD_ofBytes e n g hi,
    h _ (e.place_lt (show i / 8 < n by omega))]

/-- **Composing the bytes of a word gives the word back.** -/
theorem ofBytes_byteOf (e : Endian) (n : Nat) (v : BitVec (8 * n)) :
    ofBytes e n (byteOf e n v) = v := by
  apply BitVec.eq_of_getLsbD_eq
  intro i hi
  rw [getLsbD_ofBytes e n _ hi, getLsbD_byteOf e n v _ (by omega),
    e.place_place (show i / 8 < n by omega), Nat.div_add_mod]

/-- **And the bytes of a composed word are the ones it was composed of.** -/
theorem byteOf_ofBytes (e : Endian) (n : Nat) (f : Nat → Byte) {k : Nat} (h : k < n) :
    byteOf e n (ofBytes e n f) k = f k := by
  apply BitVec.eq_of_getLsbD_eq
  intro j hj
  have hp := e.place_lt h
  rw [getLsbD_byteOf e n _ k hj, getLsbD_ofBytes e n f (by omega),
    show (8 * e.place n k + j) / 8 = e.place n k by omega,
    show (8 * e.place n k + j) % 8 = j by omega, e.place_place h]

/-! ### Bytes as digits -/

theorem toNat_ofBytes_little (n : Nat) (f : Nat → Byte) :
    (ofBytes .little n f).toNat = Nat.ofDigits 256 ((List.range n).map fun k => (f k).toNat) := by
  induction n generalizing f with
  | zero => exact BitVec.toNat_of_zero_length rfl _
  | succ n ih =>
    rw [List.range_succ_eq_map, List.map_cons, List.map_map, Nat.ofDigits_cons]
    have ih' := ih fun k => f (k + 1)
    simp only [Function.comp_def, Nat.succ_eq_add_one]
    rw [← ih', Nat.add_comm (f 0).toNat, show (256 : Nat) = 2 ^ 8 from rfl]
    apply Nat.eq_of_testBit_eq
    intro i
    rw [Nat.testBit_two_pow_mul_add _ (f 0).isLt, BitVec.testBit_toNat,
      BitVec.testBit_toNat, BitVec.testBit_toNat]
    by_cases hi : i < 8 * (n + 1)
    · rw [getLsbD_ofBytes _ _ _ hi]
      by_cases h8 : i < 8
      · rw [if_pos h8, Endian.place, Nat.div_eq_of_lt h8, Nat.mod_eq_of_lt h8]
      · rw [if_neg h8, getLsbD_ofBytes _ _ _ (by omega), Endian.place, Endian.place,
          show (i - 8) % 8 = i % 8 by omega, show (i - 8) / 8 + 1 = i / 8 by omega]
    · rw [if_neg (by omega), BitVec.getLsbD_of_ge _ _ (by omega), BitVec.getLsbD_of_ge _ _ (by omega)]

/-- **A composed word is the number whose base-256 digits are its bytes**, each at
its place. -/
theorem toNat_ofBytes (e : Endian) (n : Nat) (f : Nat → Byte) :
    (ofBytes e n f).toNat =
      Nat.ofDigits 256 ((List.range n).map fun k => (f (e.place n k)).toNat) :=
  toNat_ofBytes_little n fun k => f (e.place n k)

theorem byteOf_eq_ofNat (e : Endian) (n : Nat) (v : BitVec (8 * n)) (k : Nat) :
    byteOf e n v k = BitVec.ofNat 8 (v.toNat / 256 ^ e.place n k) := by
  apply BitVec.eq_of_toNat_eq
  rw [byteOf, BitVec.extractLsb'_toNat, BitVec.toNat_ofNat, Nat.shiftRight_eq_div_pow, Nat.pow_mul]

/-! ### The two orders -/

theorem getLsbD_reverse (n : Nat) (v : BitVec (8 * n)) {i : Nat} (h : i < 8 * n) :
    (reverse n v).getLsbD i = v.getLsbD (8 * (n - 1 - i / 8) + i % 8) := by
  rw [reverse, getLsbD_ofBytes _ _ _ h, getLsbD_byteOf _ _ _ _ (by omega)]
  rfl

theorem byteOf_reverse (e : Endian) (n : Nat) (v : BitVec (8 * n)) {k : Nat} (h : k < n) :
    byteOf e n (reverse n v) k = byteOf e.swap n v k := by
  apply BitVec.eq_of_getLsbD_eq
  intro j hj
  have hp := e.place_lt h
  rw [getLsbD_byteOf e n _ k hj, getLsbD_reverse n v (by omega), getLsbD_byteOf _ n v k hj,
    show (8 * e.place n k + j) % 8 = j by omega, show (8 * e.place n k + j) / 8 = e.place n k by omega]
  congr 2
  cases e
  · rfl
  · simp only [Endian.place, Endian.swap]
    omega

theorem reverse_ofBytes (e : Endian) (n : Nat) (f : Nat → Byte) :
    reverse n (ofBytes e n f) = ofBytes e.swap n f := by
  conv_lhs => rw [← ofBytes_byteOf e.swap n (reverse n (ofBytes e n f))]
  refine ofBytes_congr _ fun k hk => ?_
  rw [byteOf_reverse _ _ _ hk, show e.swap.swap = e by cases e <;> rfl, byteOf_ofBytes _ _ _ hk]

/-! ### Reading after a write -/

theorem store_congr (f : Nat → Byte) (a : Nat) {n : Nat} {b b' : Nat → Byte}
    (h : ∀ k < n, b k = b' k) : store f a n b = store f a n b' := by
  funext i
  unfold store
  split
  · exact h _ (by omega)
  · rfl

theorem store_add (f : Nat → Byte) (a n : Nat) (b : Nat → Byte) {k : Nat} (h : k < n) :
    store f a n b (a + k) = b k := by
  rw [store, if_pos (by omega), Nat.add_sub_cancel_left]

theorem store_of_not_mem (f : Nat → Byte) (a n : Nat) (b : Nat → Byte) {i : Nat}
    (h : i < a ∨ a + n ≤ i) : store f a n b i = f i := by
  rw [store, if_neg (by omega)]

@[simp] theorem store_zero (f : Nat → Byte) (a : Nat) (b : Nat → Byte) : store f a 0 b = f := by
  funext i
  exact store_of_not_mem f a 0 b (by omega)

/-- Writing one byte and then the ones behind it. -/
theorem store_succ (f : Nat → Byte) (a n : Nat) (b : Nat → Byte) :
    store (store f a 1 fun _ => b 0) (a + 1) n (fun k => b (k + 1)) = store f a (n + 1) b := by
  funext i
  simp only [store]
  split
  next h => rw [if_pos (by omega), show i - (a + 1) + 1 = i - a by omega]
  next h =>
    split
    next h1 => rw [if_pos (by omega), show i - a = 0 by omega]
    next h1 => rw [if_neg (by omega)]

theorem ofBytes_store_same (e : Endian) (n : Nat) (f : Nat → Byte) (a : Nat)
    (v : BitVec (8 * n)) :
    ofBytes e n (fun k => store f a n (byteOf e n v) (a + k)) = v := by
  rw [ofBytes_congr e fun k hk => store_add f a n (byteOf e n v) hk, ofBytes_byteOf]

theorem ofBytes_store_disjoint (e : Endian) {n n' : Nat} (f : Nat → Byte) {a a' : Nat}
    (b : Nat → Byte) (h : a' + n' ≤ a ∨ a + n ≤ a') :
    ofBytes e n (fun k => store f a' n' b (a + k)) = ofBytes e n fun k => f (a + k) :=
  ofBytes_congr e fun _ _ => store_of_not_mem _ _ _ _ (by omega)

end Bytes
