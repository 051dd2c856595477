import Mathlib

/-!
# Reading a stream by rules

A rule is a language, and the rules stand in an order.  At each place of the stream the
longest prefix counts that a rule matches, and of the rules that match it the first one
(`First`).  A reading of the stream takes one such step after the other to the end
(`Reads`).

There is at most one reading (`Reads.unique`), and its texts make up the stream
(`Reads.flatten`).  Two facts let a stream be read in parts.  A word that no rule
continues is read whatever comes behind it (`First.of_final`).  And a place where no
word of a rule can reach over is a place where the reading begins anew, whatever comes
before it (`Reads.append`).
-/

namespace Lexing

open Computability

variable {α ι : Type*}

/-! ### Languages -/

def oneOf (P : α → Prop) : Language α := {w | ∃ a, P a ∧ w = [a]}

theorem length_of_mem_oneOf {P : α → Prop} {w : List α} (h : w ∈ oneOf P) : w.length = 1 := by
  obtain ⟨a, -, rfl⟩ := h
  rfl

theorem mem_oneOf_mul {P : α → Prop} {l : Language α} {w : List α} :
    w ∈ oneOf P * l ↔ ∃ a v, P a ∧ v ∈ l ∧ w = a :: v := by
  rw [Language.mem_mul]
  constructor
  · rintro ⟨_, ⟨a, ha, rfl⟩, v, hv, rfl⟩
    exact ⟨a, v, ha, hv, rfl⟩
  · rintro ⟨a, v, ha, hv, rfl⟩
    exact ⟨[a], ⟨a, ha, rfl⟩, v, hv, rfl⟩

theorem mem_kstar_oneOf {P : α → Prop} {w : List α} : w ∈ (oneOf P)∗ ↔ ∀ a ∈ w, P a := by
  rw [Language.mem_kstar]
  constructor
  · rintro ⟨ws, rfl, hws⟩ a ha
    obtain ⟨v, hv, hav⟩ := List.mem_flatten.mp ha
    obtain ⟨b, hb, rfl⟩ := hws v hv
    rw [List.mem_singleton.mp hav]
    exact hb
  · intro h
    refine ⟨w.map fun a => [a], ?_, ?_⟩
    · rw [← List.flatMap_def, List.flatMap_singleton']
    · intro v hv
      obtain ⟨a, ha, rfl⟩ := List.mem_map.mp hv
      exact ⟨a, h a ha, rfl⟩

variable [LinearOrder ι] {L : ι → Language α}

/-! ### One step -/

/-- **The discipline.**  Of the stream `s` the rule `i` takes the text `w`: no rule matches
more of it, and no earlier rule the same. -/
structure First (L : ι → Language α) (s : List α) (i : ι) (w : List α) : Prop where
  isPrefix : w <+: s
  mem : w ∈ L i
  ne_nil : w ≠ []
  longest : ∀ j v, v <+: s → v ∈ L j → v.length ≤ w.length
  first : ∀ j, w ∈ L j → i ≤ j

theorem First.unique {s : List α} {i j : ι} {w v : List α} (h : First L s i w)
    (h' : First L s j v) : i = j ∧ w = v := by
  have hl : w.length = v.length :=
    Nat.le_antisymm (h'.longest i w h.isPrefix h.mem) (h.longest j v h'.isPrefix h'.mem)
  have hw : w = v := by
    rw [List.prefix_iff_eq_take.mp h.isPrefix, List.prefix_iff_eq_take.mp h'.isPrefix, hl]
  subst hw
  exact ⟨le_antisymm (h.first j h'.mem) (h'.first i h.mem), rfl⟩

def Final (L : ι → Language α) (w : List α) : Prop := ∀ j v, v ∈ L j → w <+: v → v = w

/-- **A word that no rule continues is read whatever comes behind it.** -/
theorem First.of_final {i : ι} {w : List α} (hw : w ∈ L i) (hne : w ≠ [])
    (hfirst : ∀ j, w ∈ L j → i ≤ j) (hf : Final L w) (t : List α) : First L (w ++ t) i w := by
  refine ⟨List.prefix_append w t, hw, hne, ?_, hfirst⟩
  intro j v hv hj
  rcases List.prefix_or_prefix_of_prefix hv (List.prefix_append w t) with h | h
  · exact h.length_le
  · rw [hf j v hj h]

/-- No word of a rule reaches from before `t` into it. -/
def Barrier (L : ι → Language α) (t : List α) : Prop :=
  ∀ j u v, u ≠ [] → v ≠ [] → v <+: t → u ++ v ∉ L j

theorem First.append {s t : List α} {i : ι} {w : List α} (h : First L s i w) (ht : Barrier L t) :
    First L (s ++ t) i w := by
  refine ⟨h.isPrefix.trans (List.prefix_append s t), h.mem, h.ne_nil, ?_, h.first⟩
  intro j v hv hj
  rcases List.prefix_or_prefix_of_prefix hv (List.prefix_append s t) with hs | ⟨v', rfl⟩
  · exact h.longest j v hs hj
  · -- such a word would reach over the barrier
    by_cases hv' : v' = []
    · subst hv'
      rw [List.append_nil] at hj ⊢
      exact h.longest j s List.prefix_rfl hj
    · have hs : s ≠ [] := by
        rintro rfl
        exact h.ne_nil (List.prefix_nil.mp h.isPrefix)
      exact absurd hj (ht j s v' hs hv' ((List.prefix_append_right_inj s).mp hv))

/-! ### Whole streams -/

/-- A stream read to its end: the rules that were used, with the text each of them took. -/
inductive Reads (L : ι → Language α) : List α → List (ι × List α) → Prop
  | nil : Reads L [] []
  | cons {i : ι} {w s : List α} {ls : List (ι × List α)} (h : First L (w ++ s) i w)
      (hs : Reads L s ls) : Reads L (w ++ s) ((i, w) :: ls)

/-- **The texts make up the stream.** -/
theorem Reads.flatten {s : List α} {ls : List (ι × List α)} (h : Reads L s ls) :
    (ls.map Prod.snd).flatten = s := by
  induction h with
  | nil => rfl
  | cons h hs ih => rw [List.map_cons, List.flatten_cons, ih]

theorem Reads.nil_iff {ls : List (ι × List α)} : Reads L [] ls ↔ ls = [] := by
  constructor
  · intro h
    cases ls with
    | nil => rfl
    | cons l ls =>
      have hflat := h.flatten
      generalize hs : ([] : List α) = s at h
      cases h with
      | cons h' _ => exact absurd (List.append_eq_nil_iff.mp hs.symm).1 h'.ne_nil
  · rintro rfl
    exact .nil

/-- **There is at most one reading.** -/
theorem Reads.unique {s : List α} {ls ms : List (ι × List α)} (h : Reads L s ls)
    (h' : Reads L s ms) : ls = ms := by
  induction h generalizing ms with
  | nil => exact (Reads.nil_iff.mp h').symm
  | @cons i w s ls hw hs ih =>
    generalize hu : w ++ s = u at h' hw
    cases h' with
    | nil => exact absurd (List.append_eq_nil_iff.mp hu).1 hw.ne_nil
    | @cons j v t ms hv ht =>
      obtain ⟨rfl, rfl⟩ := hw.unique hv
      rw [List.append_cancel_left hu] at ih
      rw [ih ht]

theorem Reads.tail {s : List α} {i : ι} {w : List α} {ls : List (ι × List α)}
    (h : Reads L s ((i, w) :: ls)) : ∃ t, s = w ++ t ∧ Reads L t ls := by
  cases h with
  | cons _ hs => exact ⟨_, rfl, hs⟩

theorem Reads.suffix {s : List α} {ls ms : List (ι × List α)} (h : Reads L s (ls ++ ms)) :
    ∃ u t, s = u ++ t ∧ Reads L t ms := by
  induction ls generalizing s with
  | nil => exact ⟨[], s, rfl, h⟩
  | cons l ls ih =>
    obtain ⟨t, rfl, ht⟩ := h.tail
    obtain ⟨u, t, rfl, hm⟩ := ih ht
    exact ⟨l.2 ++ u, t, (List.append_assoc l.2 u t).symm, hm⟩

/-- **Behind a barrier the reading begins anew.** -/
theorem Reads.append {s t : List α} {ls ms : List (ι × List α)} (h : Reads L s ls)
    (ht : Barrier L t) (h' : Reads L t ms) : Reads L (s ++ t) (ls ++ ms) := by
  induction h with
  | nil => exact h'
  | @cons i w s ls hw hs ih =>
    have hw' := hw.append ht
    rw [List.append_assoc] at hw' ⊢
    exact .cons hw' ih

end Lexing
