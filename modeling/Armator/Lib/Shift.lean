import Mathlib

/-!
# Shifts as iterated one-bit shifts

A shifter that moves a word one place at a time and remembers the bit that left it
last.  `lsl`, `lsr`, `asr` and `ror` are the four steps, on a word of any width with
the carry beside it, and `n` places are `n` steps.

The closed forms (`iterate_lsl`, `iterate_lsr`, `iterate_asr`, `iterate_ror`) are by
induction over the places: the word is shifted by `n`, and the carry is the bit that
the last step found at the end, or the carry at the start when there was no step.
-/

namespace Shift

variable {w : Nat}

def lsl (s : BitVec w × Bool) : BitVec w × Bool := (s.1 <<< 1, s.1.msb)

def lsr (s : BitVec w × Bool) : BitVec w × Bool := (s.1 >>> 1, s.1.getLsbD 0)

def asr (s : BitVec w × Bool) : BitVec w × Bool := (s.1.sshiftRight 1, s.1.getLsbD 0)

def ror (s : BitVec w × Bool) : BitVec w × Bool := (s.1.rotateRight 1, s.1.getLsbD 0)

/-- Steps that shift the word by one place, with a carry that depends on the word
alone, shift it by `n` places, and the carry is that of the last step. -/
theorem iterate_eq {step : BitVec w × Bool → BitVec w × Bool} (shift : BitVec w → Nat → BitVec w)
    (out : BitVec w → Bool) (hstep : ∀ v c, step (v, c) = (shift v 1, out v))
    (hzero : ∀ v, shift v 0 = v) (hadd : ∀ v m n, shift v (m + n) = shift (shift v m) n)
    (n : Nat) (v : BitVec w) (c : Bool) :
    step^[n] (v, c) = (shift v n, if n = 0 then c else out (shift v (n - 1))) := by
  induction n with
  | zero => rw [Function.iterate_zero_apply, hzero, if_pos rfl]
  | succ n ih =>
    rw [Function.iterate_succ_apply', ih, hstep, ← hadd, if_neg (Nat.succ_ne_zero n),
      Nat.add_sub_cancel]

theorem iterate_lsl (n : Nat) (v : BitVec w) (c : Bool) :
    lsl^[n] (v, c) = (v <<< n, if n = 0 then c else v.getMsbD (n - 1)) := by
  rw [iterate_eq (· <<< ·) BitVec.msb (fun _ _ => rfl) BitVec.shiftLeft_zero BitVec.shiftLeft_add,
    BitVec.msb_shiftLeft]

theorem iterate_lsr (n : Nat) (v : BitVec w) (c : Bool) :
    lsr^[n] (v, c) = (v >>> n, if n = 0 then c else v.getLsbD (n - 1)) := by
  rw [iterate_eq (· >>> ·) (·.getLsbD 0) (fun _ _ => rfl) BitVec.ushiftRight_zero
    BitVec.shiftRight_add, BitVec.getLsbD_ushiftRight, Nat.add_zero]

theorem iterate_asr (n : Nat) (v : BitVec w) (c : Bool) :
    asr^[n] (v, c) =
      (v.sshiftRight n, if n = 0 then c else (v.sshiftRight (n - 1)).getLsbD 0) :=
  iterate_eq BitVec.sshiftRight (·.getLsbD 0) (fun _ _ => rfl) (fun _ => BitVec.sshiftRight_zero)
    (fun _ _ _ => BitVec.sshiftRight_add) n v c

/-! ### Rotations -/

/-- A rotation moves the bits around. -/
theorem getLsbD_rotateRight_mod (v : BitVec w) (n : Nat) {i : Nat} (h : i < w) :
    (v.rotateRight n).getLsbD i = v.getLsbD ((i + n) % w) := by
  have hn : n % w < w := Nat.mod_lt _ (by omega)
  rw [← BitVec.rotateRight_mod_eq_rotateRight, BitVec.getLsbD_rotateRight_of_lt hn,
    ← Nat.add_mod_mod]
  generalize n % w = r at hn
  by_cases hi : i < w - r
  · rw [decide_eq_true hi, cond_true, Nat.mod_eq_of_lt (by omega), Nat.add_comm]
  · have hr : (i + r) % w = i - (w - r) := by
      rw [Nat.mod_eq_sub_mod (by omega), Nat.mod_eq_of_lt (by omega)]
      omega
    rw [decide_eq_false hi, cond_false, decide_eq_true h, Bool.true_and, hr]

theorem rotateRight_zero (v : BitVec w) : v.rotateRight 0 = v := by
  apply BitVec.eq_of_getLsbD_eq
  intro i hi
  rw [getLsbD_rotateRight_mod v 0 hi, Nat.add_zero, Nat.mod_eq_of_lt hi]

theorem rotateRight_add (v : BitVec w) (m n : Nat) :
    v.rotateRight (m + n) = (v.rotateRight m).rotateRight n := by
  apply BitVec.eq_of_getLsbD_eq
  intro i hi
  rw [getLsbD_rotateRight_mod v _ hi, getLsbD_rotateRight_mod _ n hi,
    getLsbD_rotateRight_mod v m (Nat.mod_lt _ (by omega)), Nat.mod_add_mod, Nat.add_assoc,
    Nat.add_comm m]

theorem iterate_ror (n : Nat) (v : BitVec w) (c : Bool) :
    ror^[n] (v, c) =
      (v.rotateRight n, if n = 0 then c else (v.rotateRight (n - 1)).getLsbD 0) :=
  iterate_eq BitVec.rotateRight (·.getLsbD 0) (fun _ _ => rfl) rotateRight_zero rotateRight_add n v c

end Shift
