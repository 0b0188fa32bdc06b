import OpenViking.Common.SortedMap

/-!
# Tables with their rows in order

The rows `0, …, n - 1` of a table, and a map from the key of each row to its number.  Rows are added
at the end; a row is removed by moving the last one into its place.  Results:

* `IndexesRows.push`, `IndexesRows.swapRemove`: how the map is repaired;
* `IndexesRows.rebuildRows`: the map made again from the rows is the map that was kept.
-/

namespace OpenViking

variable {κ : Type*} [LinearOrder κ]

/-- The map leads from the key of each of the `n` rows to the row, and from no other key. -/
def IndexesRows (m : SortedMap κ ℕ) (key : ℕ → κ) (n : ℕ) : Prop :=
  ∀ k i, m.get k = some i ↔ i < n ∧ key i = k

/-- Make the map from the rows. -/
def rebuildRows (key : ℕ → κ) (n : ℕ) : SortedMap κ ℕ :=
  (List.range n).foldl (fun m i => m.put (key i) i) SortedMap.empty

theorem indexesRows_empty (key : ℕ → κ) : IndexesRows SortedMap.empty key 0 := by
  intro k i
  simp

namespace IndexesRows

variable {m m' : SortedMap κ ℕ} {key key' : ℕ → κ} {n i j : ℕ}

theorem get_key (h : IndexesRows m key n) (hi : i < n) : m.get (key i) = some i :=
  (h (key i) i).2 ⟨hi, rfl⟩

variable {k : κ}

theorem lt (h : IndexesRows m key n) (hk : m.get k = some i) : i < n := ((h k i).1 hk).1

theorem key_eq (h : IndexesRows m key n) (hk : m.get k = some i) : key i = k :=
  ((h k i).1 hk).2

theorem key_inj (h : IndexesRows m key n) (hi : i < n) (hj : j < n) (heq : key i = key j) : i = j := by
  have hk := h.get_key hi
  rw [heq, h.get_key hj, Option.some.injEq] at hk
  exact hk.symm

/-- A key of no row. -/
theorem key_ne (h : IndexesRows m key n) (hk : m.get k = none) (hi : i < n) : key i ≠ k := by
  rintro rfl
  rw [h.get_key hi] at hk
  cases hk

theorem congr (h : IndexesRows m key n) (hkey : ∀ i < n, key' i = key i) : IndexesRows m key' n := by
  intro k i
  rw [h k i]
  refine and_congr_right fun hi => ?_
  rw [hkey i hi]

/-- The rows determine the map. -/
theorem map_eq (h : IndexesRows m key n) (h' : IndexesRows m' key n) : m = m' := by
  refine SortedMap.ext_get fun k => Option.ext fun i => ?_
  rw [h k i, h' k i]

/-- A row at the end, with a new key. -/
theorem push (h : IndexesRows m key n) (hk : m.get k = none)
    (hkey : ∀ i < n, key' i = key i) (hlast : key' n = k) : IndexesRows (m.put k n) key' (n + 1) := by
  intro k' i
  rw [SortedMap.get_put]
  split_ifs with hkk
  · subst hkk
    rw [Option.some.injEq]
    constructor
    · rintro rfl
      exact ⟨Nat.lt_succ_self n, hlast⟩
    · rintro ⟨hi, heq⟩
      by_contra hne
      have hin : i < n := by omega
      rw [hkey i hin] at heq
      exact h.key_ne hk hin heq
  · rw [h k' i]
    constructor
    · rintro ⟨hi, heq⟩
      exact ⟨by omega, (hkey i hi).trans heq⟩
    · rintro ⟨hi, heq⟩
      have hne : i ≠ n := by
        rintro rfl
        exact hkk (heq.symm.trans hlast)
      have hin : i < n := by omega
      exact ⟨hin, (hkey i hin).symm.trans heq⟩

/-- The last row is removed. -/
theorem pop (h : IndexesRows m key (n + 1)) : IndexesRows (m.erase (key n)) key n := by
  intro k i
  rw [SortedMap.get_erase]
  split_ifs with hk
  · subst hk
    refine iff_of_false (by simp) ?_
    rintro ⟨hi, heq⟩
    exact absurd (h.key_inj (by omega) (by omega) heq) (by omega)
  · rw [h k i]
    constructor
    · rintro ⟨hi, heq⟩
      have hne : i ≠ n := by
        rintro rfl
        exact hk heq.symm
      exact ⟨by omega, heq⟩
    · rintro ⟨hi, heq⟩
      exact ⟨by omega, heq⟩

/-- A row is removed, and the last one moves into its place. -/
theorem swapRemove (h : IndexesRows m key (n + 1)) (hi : i < n)
    (hkey : ∀ j < n, key' j = if j = i then key n else key j) :
    IndexesRows ((m.erase (key i)).put (key n) i) key' n := by
  intro k j
  rw [SortedMap.get_put]
  split_ifs with hk
  · -- the key of the row that moves
    subst hk
    rw [Option.some.injEq]
    constructor
    · rintro rfl
      exact ⟨hi, (hkey i hi).trans (if_pos rfl)⟩
    · rintro ⟨hj, heq⟩
      rw [hkey j hj] at heq
      split_ifs at heq with hji
      · exact hji.symm
      · exact absurd (h.key_inj (by omega) (by omega) heq) (by omega)
  · rw [SortedMap.get_erase]
    split_ifs with hki
    · -- the key of the row that goes
      subst hki
      refine iff_of_false (by simp) ?_
      rintro ⟨hj, heq⟩
      rw [hkey j hj] at heq
      split_ifs at heq with hji
      · exact hk heq.symm
      · exact hji (h.key_inj (by omega) (by omega) heq)
    · rw [h k j]
      constructor
      · rintro ⟨hj, heq⟩
        have hjn : j ≠ n := by
          rintro rfl
          exact hk heq.symm
        have hji : j ≠ i := by
          rintro rfl
          exact hki heq.symm
        have hlt : j < n := by omega
        exact ⟨hlt, by rw [hkey j hlt, if_neg hji, heq]⟩
      · rintro ⟨hj, heq⟩
        rw [hkey j hj] at heq
        split_ifs at heq with hji
        · exact absurd heq.symm hk
        · exact ⟨by omega, heq⟩

/-- The map made again from the rows is the map that was kept. -/
theorem rebuildRows (h : IndexesRows m key n) : OpenViking.rebuildRows key n = m := by
  have hbuild : ∀ r ≤ n, IndexesRows (OpenViking.rebuildRows key r) key r := by
    intro r hr
    induction r with
    | zero => exact indexesRows_empty key
    | succ r ih =>
      have hprev := ih (by omega)
      have hfresh : (OpenViking.rebuildRows key r).get (key r) = none := by
        rw [Option.eq_none_iff_forall_ne_some]
        intro j hj
        have hjr := hprev.lt hj
        have hlt : j < n := by omega
        have heq := h.key_inj hlt (by omega) (hprev.key_eq hj)
        omega
      have hpush := hprev.push hfresh (fun _ _ => rfl) rfl
      rw [OpenViking.rebuildRows, List.range_succ, List.foldl_append]
      exact hpush
  exact (hbuild n le_rfl).map_eq h

end IndexesRows

end OpenViking
