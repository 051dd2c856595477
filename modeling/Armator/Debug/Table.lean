import Armator.Debug
import Armator.Lib.Sorted

/-!
# The table of debugged files

While there is room, `add_debug_to` is an ordered insertion (`addDebugTo_of_room`), so the
table stays sorted and `__is_debugged` finds exactly the names that were added
(`Holds.search`).  In a full table the position of the new name decides: a name above all
others is dropped (`addDebugTo_of_above`), any other one pushes the last pointer out of the
array (`addDebugTo_of_full`).

`t.Holds l` says that the cells of `t` that are in use are the list `l`.
-/

namespace Armator

open Text Sorted
open Run (ok_bind error_bind)

structure DebugTable.Holds (t : DebugTable) (l : List CString) : Prop where
  count : t.nbDebuggedFiles = l.length
  cells : ∀ k < l.length, t.debuggedFiles[k]? = some l[k]?

theorem noDebuggedFiles_holds : noDebuggedFiles.Holds [] := ⟨rfl, nofun⟩

variable {t : DebugTable} {l : List CString} {name : CString}

namespace DebugTable

theorem Holds.lt_max (h : t.Holds l) {k : ℕ} (hk : k < l.length) : k < maxFilesNumber :=
  (Vector.getElem?_eq_some_iff.mp (h.cells k hk)).1

theorem Holds.length_le (h : t.Holds l) : l.length ≤ maxFilesNumber := by
  by_contra hlt
  have := h.lt_max (k := maxFilesNumber) (not_le.mp hlt)
  exact absurd this (lt_irrefl _)

theorem Holds.file (h : t.Holds l) {k : ℕ} {s : CString} (hk : l[k]? = some s) :
    t.file k = .ok s := by
  obtain ⟨hlt, -⟩ := List.getElem?_eq_some_iff.mp hk
  rw [DebugTable.file, Slots.read_of_getElem? _ _ (h.cells k hlt), hk]
  rfl

/-! ### Adding -/

/-- The first loop stops at the place of the name. -/
theorem Holds.position (h : t.Holds l) {i : ℕ} (hi : i ≤ place name l) :
    t.position name i = .ok (place name l) := by
  have hle : place name l ≤ l.length := place_le_length name l
  have hmax := h.length_le
  rw [DebugTable.position]
  rcases hi.lt_or_eq with hlt | rfl
  · -- the file at `i` is below the name
    have hil : i < l.length := by omega
    have hget : l[i]? = some l[i] := List.getElem?_eq_getElem hil
    have hbelow : strcmp l[i] name < 0 := (strcmp_neg_iff _ _).mpr (lt_of_lt_place hlt hget)
    rw [dif_pos ⟨h.count ▸ hil, by omega⟩, h.file hget]
    rw [ok_bind, if_pos hbelow]
    exact h.position hlt
  · by_cases hend : place name l < l.length
    · have hget : l[place name l]? = some l[place name l] := List.getElem?_eq_getElem hend
      have hnot : ¬ strcmp l[place name l] name < 0 := fun hlt =>
        absurd ((strcmp_neg_iff _ _).mp hlt) (not_lt.mpr (le_at_place hget))
      rw [dif_pos ⟨h.count ▸ hend, by omega⟩, h.file hget]
      rw [ok_bind, if_neg hnot]
      rfl
    · rw [dif_neg]
      · rfl
      · rw [h.count]
        exact fun hlt => hend hlt.1
termination_by place name l - i

end DebugTable

/-- The second loop moves the cells from `i` to `j - 1` one up. -/
theorem shiftFiles_of_lt {i j : ℕ} (hj : j < maxFilesNumber)
    (files : Vector (Option CString) maxFilesNumber) :
    ∃ files', shiftFiles i j files = .ok files' ∧
      ∀ k, files'[k]? = if i < k ∧ k ≤ j then files[k - 1]? else files[k]? := by
  induction j generalizing files with
  | zero =>
    refine ⟨files, rfl, fun k => ?_⟩
    rw [if_neg (by omega)]
  | succ j ih =>
    by_cases hij : j + 1 > i
    · have hget : files[j]? = some (files.get ⟨j, by omega⟩) := Vector.getElem?_eq_getElem _
      obtain ⟨files', hrun, hcells⟩ := ih (by omega) (files.set (j + 1) (files.get ⟨j, by omega⟩) hj)
      refine ⟨files', ?_, fun k => ?_⟩
      · rw [shiftFiles, if_pos hij, Slots.read_of_getElem? _ _ hget, ok_bind,
          ← Nat.cast_succ, Slots.write_of_lt _ _ hj, ok_bind, hrun]
      · rw [hcells, Vector.getElem?_set, Vector.getElem?_set]
        grind
    · refine ⟨files, by rw [shiftFiles, if_neg hij], fun k => ?_⟩
      rw [if_neg (by omega)]

/-- At the end of the array the second loop leaves it at once. -/
theorem shiftFiles_at_max {i : ℕ} (hi : i < maxFilesNumber)
    (files : Vector (Option CString) maxFilesNumber) :
    shiftFiles i maxFilesNumber files = .error .outside := by
  have hget : files[63]? = some (files.get ⟨63, by decide⟩) := Vector.getElem?_eq_getElem _
  have hshift : shiftFiles i (63 + 1) files = .error .outside := by
    rw [shiftFiles, if_pos (show 63 + 1 > i from hi), Slots.read_of_getElem? _ _ hget, ok_bind,
      Slots.write_of_le _ _ (by decide), error_bind]
  exact hshift

/-- **While there is room, a name is put in its place.** -/
theorem addDebugTo_of_room (h : t.Holds l) (hroom : l.length < maxFilesNumber) (name : CString) :
    ∃ t', addDebugTo t name = .ok t' ∧ t'.Holds (l.orderedInsert (· ≤ ·) name) := by
  have hplace := place_le_length name l
  have hlt : place name l < maxFilesNumber := by omega
  obtain ⟨files, hshift, hcells⟩ :=
    shiftFiles_of_lt (i := place name l) (h.count ▸ hroom) t.debuggedFiles
  refine ⟨⟨files.set (place name l) (some name) hlt, t.nbDebuggedFiles + 1⟩, ?_, ?_, ?_⟩
  · rw [addDebugTo, h.position (Nat.zero_le _), ok_bind, if_neg (not_le.mpr hlt), hshift, ok_bind,
      Slots.write_of_lt _ _ hlt, ok_bind]
    rfl
  · rw [List.orderedInsert_length, ← h.count]
  · intro k hk
    rw [List.orderedInsert_length] at hk
    rw [← insertIdx_place, Vector.getElem?_set, List.getElem?_insertIdx, hcells, h.count]
    rcases lt_trichotomy k (place name l) with hlo | rfl | hhi
    · rw [if_neg hlo.ne', if_neg (by omega), if_pos hlo]
      exact h.cells k (by omega)
    · rw [if_pos rfl, if_neg (lt_irrefl _), if_pos rfl, if_pos hplace]
    · rw [if_neg hhi.ne, if_pos ⟨hhi, by omega⟩, if_neg (by omega), if_neg hhi.ne']
      exact h.cells (k - 1) (by omega)

/-- A full table drops a name above all the others. -/
theorem addDebugTo_of_above (h : t.Holds l) (hfull : l.length = maxFilesNumber)
    (habove : ∀ s ∈ l, s < name) : addDebugTo t name = .ok t := by
  have hplace : place name l = maxFilesNumber := hfull ▸ place_eq_length_iff.mpr habove
  rw [addDebugTo, h.position (Nat.zero_le _), ok_bind, if_pos hplace.ge]
  rfl

/-- A full table is overrun by any other name. -/
theorem addDebugTo_of_full (h : t.Holds l) (hfull : l.length = maxFilesNumber)
    (habove : ¬ ∀ s ∈ l, s < name) : addDebugTo t name = .error .outside := by
  have hne : place name l ≠ l.length := fun e => habove (place_eq_length_iff.mp e)
  have hlt : place name l < maxFilesNumber := hfull ▸ lt_of_le_of_ne (place_le_length name l) hne
  rw [addDebugTo, h.position (Nat.zero_le _), ok_bind, if_neg (not_le.mpr hlt), h.count, hfull,
    shiftFiles_at_max hlt, error_bind]

/-! ### Looking up -/

/-- **The search finds what is in the table.** -/
theorem DebugTable.Holds.search (h : t.Holds l) (hs : l.Pairwise (· ≤ ·)) {lo hi : ℤ}
    (hlo : 0 ≤ lo) (hhi : hi < l.length) (hw : Within l name lo hi) :
    t.search name lo hi = .ok (if name ∈ l then 1 else 0) := by
  rw [DebugTable.search]
  by_cases hlt : lo < hi
  · obtain ⟨hlm, hmh⟩ := tdiv_two_between hlt
    -- the middle is the index of a file in use
    obtain ⟨m, hm⟩ := Int.eq_ofNat_of_zero_le (hlo.trans hlm)
    have hget : l[m]? = some l[m] := List.getElem?_eq_getElem (by omega)
    rw [dif_pos hlt]
    simp only [hm]
    rw [h.file hget, ok_bind]
    rcases lt_trichotomy l[m] name with hbelow | heq | habove
    · rw [if_pos ((strcmp_neg_iff _ _).mpr hbelow)]
      exact h.search hs (by omega) hhi (hw.above hs hget hbelow)
    · have hcmp := (strcmp_eq_zero_iff _ _).mpr heq
      have hmem : name ∈ l := List.mem_iff_getElem?.mpr ⟨m, heq ▸ hget⟩
      rw [if_neg (by omega), if_neg (by omega), if_pos hmem]
      rfl
    · have hcmp := (strcmp_pos_iff _ _).mpr habove
      rw [if_neg (by omega), if_pos hcmp]
      exact h.search hs hlo (by omega) (hw.below hs hget habove)
  · rw [dif_neg hlt]
    by_cases heq : lo = hi
    · subst heq
      obtain ⟨m, rfl⟩ := Int.eq_ofNat_of_zero_le hlo
      have hget : l[m]? = some l[m] := List.getElem?_eq_getElem (by omega)
      rw [if_pos rfl, h.file hget, ok_bind]
      simp only [strcmp_eq_zero_iff, hw.mem_iff hget]
      split <;> rfl
    · -- the bounds have crossed
      rw [if_neg heq, if_neg (hw.notMem (by omega))]
      rfl
termination_by (hi - lo).toNat

theorem DebugTable.Holds.isDebugged (h : t.Holds l) (hs : l.Pairwise (· ≤ ·)) (name : CString) :
    isDebugged t name = .ok (if name ∈ l then 1 else 0) := by
  rw [Armator.isDebugged, h.count]
  exact h.search hs le_rfl (by omega) (within_all l name)

/-! ### Sequences of calls -/

/-- Up to the size of the table, the names are all there and in order. -/
theorem run_addDebugTo (names : List CString) (hlen : names.length ≤ maxFilesNumber) :
    ∃ t l, Run.run addDebugTo noDebuggedFiles names = .ok t ∧ t.Holds l ∧ l.Pairwise (· ≤ ·) ∧
      l.Perm names := by
  induction names using List.reverseRecOn with
  | nil => exact ⟨noDebuggedFiles, [], rfl, noDebuggedFiles_holds, .nil, .nil⟩
  | append_singleton names name ih =>
    rw [List.length_append, List.length_singleton] at hlen
    obtain ⟨t, l, hrun, hl, hs, hp⟩ := ih (by omega)
    obtain ⟨t', hadd, hl'⟩ := addDebugTo_of_room hl (by have := hp.length_eq; omega) name
    refine ⟨t', _, Run.run_concat_of_ok hrun hadd, hl', hs.orderedInsert name l, ?_⟩
    exact (List.perm_orderedInsert _ name l).trans
      ((hp.cons name).trans (List.perm_append_singleton name names).symm)

/-- **The names that were added are found, and no others**, in a table that is sorted and
keeps duplicates. -/
theorem isDebugged_run_addDebugTo (names : List CString) (hlen : names.length ≤ maxFilesNumber) :
    ∃ t l, Run.run addDebugTo noDebuggedFiles names = .ok t ∧ t.Holds l ∧
      l.Pairwise (fun a b => strcmp a b ≤ 0) ∧ l.Perm names ∧
      ∀ name, isDebugged t name = .ok (if name ∈ names then 1 else 0) := by
  obtain ⟨t, l, hrun, hl, hs, hp⟩ := run_addDebugTo names hlen
  refine ⟨t, l, hrun, hl, ?_, hp, fun name => ?_⟩
  · exact hs.imp fun {a b} hab => not_lt.mp fun hpos => hab.not_gt ((strcmp_pos_iff a b).mp hpos)
  · rw [hl.isDebugged hs]
    simp only [hp.mem_iff]

/-- Two names, one of them twice. -/
theorem isDebugged_run_addDebugTo_three :
    [⟨[0x62], by decide⟩, ⟨[0x61], by decide⟩, (⟨[0x62], by decide⟩ : CString)].length ≤
        maxFilesNumber ∧
      ∃ t l, Run.run addDebugTo noDebuggedFiles
          [⟨[0x62], by decide⟩, ⟨[0x61], by decide⟩, ⟨[0x62], by decide⟩] = .ok t ∧ t.Holds l ∧
        l.Pairwise (fun a b => strcmp a b ≤ 0) ∧
        l.Perm [⟨[0x62], by decide⟩, ⟨[0x61], by decide⟩, ⟨[0x62], by decide⟩] ∧
        ∀ name, isDebugged t name = .ok (if name ∈
          [⟨[0x62], by decide⟩, ⟨[0x61], by decide⟩, (⟨[0x62], by decide⟩ : CString)] then 1 else 0) :=
  ⟨by decide, isDebugged_run_addDebugTo _ (by decide)⟩

/-! ### A full table -/

theorem run_addDebugTo_of_above (h : t.Holds l) (hfull : l.length = maxFilesNumber)
    {names : List CString} (habove : ∀ n ∈ names, ∀ s ∈ l, s < n) :
    Run.run addDebugTo t names = .ok t := by
  induction names with
  | nil => rfl
  | cons n names ih =>
    rw [Run.run_cons, addDebugTo_of_above h hfull (habove n List.mem_cons_self), ok_bind]
    exact ih fun m hm => habove m (List.mem_cons_of_mem n hm)

theorem run_addDebugTo_of_full (h : t.Holds l) (hfull : l.length = maxFilesNumber)
    {names : List CString} (habove : ¬ ∀ n ∈ names, ∀ s ∈ l, s < n) :
    Run.run addDebugTo t names = .error .outside := by
  induction names with
  | nil => exact absurd nofun habove
  | cons n names ih =>
    rw [Run.run_cons]
    by_cases hn : ∀ s ∈ l, s < n
    · rw [addDebugTo_of_above h hfull hn, ok_bind]
      refine ih fun hrest => habove ?_
      rw [List.forall_mem_cons]
      exact ⟨hn, hrest⟩
    · rw [addDebugTo_of_full h hfull hn, error_bind]

/-- The calls beyond the size of the table meet a full one. -/
theorem run_addDebugTo_beyond {names : List CString} (hlen : maxFilesNumber < names.length) :
    ∃ t l, t.Holds l ∧ l.length = maxFilesNumber ∧ l.Perm (names.take maxFilesNumber) ∧
      Run.run addDebugTo noDebuggedFiles names =
        Run.run addDebugTo t (names.drop maxFilesNumber) := by
  obtain ⟨t, l, hrun, hl, -, hp⟩ := run_addDebugTo (names.take maxFilesNumber) (List.length_take_le _ _)
  refine ⟨t, l, hl, ?_, hp, ?_⟩
  · rw [hp.length_eq, List.length_take]
    omega
  · conv_lhs => rw [← List.take_append_drop maxFilesNumber names]
    rw [Run.run_append, hrun, ok_bind]

/-- **The array is respected exactly by the sequences whose names beyond the size of the
table are all above the others.** -/
theorem addDebugTo_inBounds_iff (names : List CString) :
    (∀ calls, calls <+: names →
      Run.run addDebugTo noDebuggedFiles calls ≠ .error .outside ∧
      ∀ t, Run.run addDebugTo noDebuggedFiles calls = .ok t →
        t.nbDebuggedFiles ≤ maxFilesNumber) ↔
    ∀ n ∈ names.drop maxFilesNumber, ∀ s ∈ names.take maxFilesNumber, strcmp s n < 0 := by
  simp only [strcmp_neg_iff]
  constructor
  · intro hbounds
    by_contra habove
    have hlen : maxFilesNumber < names.length := by
      by_contra hle
      rw [List.drop_eq_nil_of_le (not_lt.mp hle)] at habove
      exact habove nofun
    obtain ⟨t, l, hl, hfull, hp, hrun⟩ := run_addDebugTo_beyond hlen
    simp only [← hp.mem_iff] at habove
    exact (hbounds names (List.prefix_refl names)).1
      (hrun.trans (run_addDebugTo_of_full hl hfull habove))
  · intro habove calls hcalls
    obtain ⟨t, l, hrun, hl⟩ : ∃ t l, Run.run addDebugTo noDebuggedFiles calls = .ok t ∧ t.Holds l := by
      rcases le_or_gt calls.length maxFilesNumber with hle | hlen
      · obtain ⟨t, l, hrun, hl, -, -⟩ := run_addDebugTo calls hle
        exact ⟨t, l, hrun, hl⟩
      · obtain ⟨t, l, hl, hfull, hp, hrun⟩ := run_addDebugTo_beyond hlen
        refine ⟨t, l, hrun.trans (run_addDebugTo_of_above hl hfull ?_), hl⟩
        intro n hn s hs
        exact habove n ((hcalls.drop _).subset hn) s ((hcalls.take _).subset (hp.mem_iff.mp hs))
    refine ⟨by simp [hrun], fun t' ht' => ?_⟩
    rw [← Except.ok.inj (hrun.symm.trans ht'), hl.count]
    exact hl.length_le

/-- One name overruns the table when it is added more often than the table has cells. -/
theorem run_addDebugTo_replicate (name : CString) {n : ℕ} (hn : maxFilesNumber < n) :
    Run.run addDebugTo noDebuggedFiles (List.replicate n name) = .error .outside := by
  have hlen : maxFilesNumber < (List.replicate n name).length := by rwa [List.length_replicate]
  obtain ⟨t, l, hl, hfull, hp, hrun⟩ := run_addDebugTo_beyond hlen
  have htable : name ∈ l := by
    rw [hp.mem_iff, List.take_replicate, List.mem_replicate]
    exact ⟨(lt_min (by decide) (hn.pos)).ne', rfl⟩
  have hrest : name ∈ (List.replicate n name).drop maxFilesNumber := by
    rw [List.drop_replicate, List.mem_replicate]
    exact ⟨Nat.sub_ne_zero_of_lt hn, rfl⟩
  rw [hrun]
  exact run_addDebugTo_of_full hl hfull fun habove => lt_irrefl name (habove name hrest name htable)

theorem addDebugTo_overrun :
    Run.run addDebugTo noDebuggedFiles (List.replicate 65 ⟨[0x61], by decide⟩) = .error .outside :=
  run_addDebugTo_replicate _ (by decide)

end Armator
