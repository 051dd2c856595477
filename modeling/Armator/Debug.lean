import Armator.Lib.Run
import Armator.Lib.Slots
import Armator.Lib.Strcmp

/-!
# The files that are debugged (`debug.c`)

`debugged_files` is a static array of pointers, `NULL` at first, of which the first
`nb_debugged_files` are in use.  `add_debug_to` puts a name in its place under `strcmp`
and `__is_debugged` looks one up.  A name is the string its pointer leads to.

An access outside the array stops the model, and so does `strcmp` on a `NULL` pointer.
-/

namespace Armator

open Text

/-- What C leaves undefined in a call. -/
inductive DebugFault
  /-- An index outside `debugged_files`. -/
  | outside
  | nullPointer
  deriving DecidableEq, Repr

def maxFilesNumber : ℕ := 64

structure DebugTable where
  debuggedFiles : Vector (Option CString) maxFilesNumber
  nbDebuggedFiles : ℕ

/-- The table before the first call. -/
def noDebuggedFiles : DebugTable := ⟨Vector.replicate maxFilesNumber none, 0⟩

/-- The string that `strcmp` finds through `debugged_files[i]`. -/
def DebugTable.file (t : DebugTable) (i : ℤ) : Except DebugFault CString := do
  match ← Slots.read .outside t.debuggedFiles i with
  | some file => return file
  | none => .error .nullPointer

/-! ### Adding -/

/-- The first loop of `add_debug_to`, from `i` on. -/
def DebugTable.position (t : DebugTable) (name : CString) (i : ℕ) : Except DebugFault ℕ :=
  if h : i < t.nbDebuggedFiles ∧ i < maxFilesNumber then do
    let file ← t.file i
    if strcmp file name < 0 then t.position name (i + 1) else return i
  else return i
termination_by t.nbDebuggedFiles - i

/-- The second loop of `add_debug_to`, with `j` from the given value down to `i`. -/
def shiftFiles (i : ℕ) :
    ℕ → Vector (Option CString) maxFilesNumber → Except DebugFault (Vector (Option CString) maxFilesNumber)
  | 0, files => .ok files
  | j + 1, files =>
    if j + 1 > i then do
      let file ← Slots.read .outside files j
      let files ← Slots.write .outside files (j + 1) file
      shiftFiles i j files
    else .ok files

def addDebugTo (t : DebugTable) (name : CString) : Except DebugFault DebugTable := do
  let i ← t.position name 0
  -- the test for a full table is on the position of the name
  if i ≥ maxFilesNumber then return t
  else
    let files ← shiftFiles i t.nbDebuggedFiles t.debuggedFiles
    let files ← Slots.write .outside files i (some name)
    return ⟨files, t.nbDebuggedFiles + 1⟩

/-! ### Looking up -/

theorem tdiv_two_between {lo hi : ℤ} (h : lo < hi) :
    lo ≤ (lo + hi).tdiv 2 ∧ (lo + hi).tdiv 2 ≤ hi := by
  rcases le_total 0 (lo + hi) with h0 | h0
  · rw [Int.tdiv_eq_ediv_of_nonneg h0]
    omega
  · rw [← neg_neg (lo + hi), Int.neg_tdiv, Int.tdiv_eq_ediv_of_nonneg (by omega)]
    omega

/-- `__is_debugged` with `from` and `to` at the given values. -/
def DebugTable.search (t : DebugTable) (name : CString) (lo hi : ℤ) : Except DebugFault ℤ :=
  if h : lo < hi then do
    let middle := (lo + hi).tdiv 2
    let file ← t.file middle
    if strcmp file name < 0 then t.search name (middle + 1) hi
    else if strcmp file name > 0 then t.search name lo (middle - 1)
    else return 1
  else if lo = hi then do
    let file ← t.file lo
    if strcmp file name = 0 then return 1 else return 0
  else return 0
termination_by (hi - lo).toNat
decreasing_by
  all_goals
    have := tdiv_two_between h
    omega

def isDebugged (t : DebugTable) (name : CString) : Except DebugFault ℤ :=
  t.search name 0 (t.nbDebuggedFiles - 1)

end Armator
