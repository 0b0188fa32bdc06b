import OpenViking.Common.BitWords
import OpenViking.Common.System
import OpenViking.Common.TopK
import Mathlib.Algebra.BigOperators.Group.Finset.Piecewise
import Mathlib.Algebra.Order.BigOperators.Group.Finset
import Mathlib.Data.Finset.Sort

/-!
# Filters over an external row order

`IndexManagerImpl::set_filter_layout`, `evaluate_filter` and `evaluate_filter_for_routing`
(`src/index/detail/index_manager_impl.cpp`, 237-441).  A caller registers the labels of the rows of
an index of its own; a scalar filter is then evaluated row by row into a bit set.  The routing
version is to report the same count and, above a threshold, the same bits: it either looks the set
bits up in the inverse of the layout, or scans the rows and keeps the first ones aside until the
threshold is passed.

A row number is kept in 32 bits, both in the inverse layout, where `UINT32_MAX` stands for no row,
and among the rows kept aside.

Results:

* `invertLayout_spec`, `lookupCount_eq_iff`: the inverse of a layout, and when its count is right;
* `routing_refines_iff`: when routing refines the full evaluation.
-/

namespace OpenViking.VectorDB

open BitWords

/-! ## Model -/

/-- `kMissingFilterLayoutOffset`, which is `UINT32_MAX`. -/
def kMissingFilterLayoutOffset : ℕ := 2 ^ 32 - 1

/-- `kFilterLayoutInverseMaxSpanFactor` -/
def kFilterLayoutInverseMaxSpanFactor : ℕ := 4

/-- `kFilterTokenCacheCapacity` -/
def kFilterTokenCacheCapacity : ℕ := 32

/-- A `Bitmap`: the 32-bit numbers in it. -/
@[ext]
structure FilterBitmap where
  bits : Finset ℕ
  bits_lt : ∀ o ∈ bits, o < 2 ^ 32

/-- `nbit()` (`bitmap.h`, 120-125), in 32 bits. -/
def FilterBitmap.nbit (b : FilterBitmap) : ℕ := b.bits.card % 2 ^ 32

/-- `get_set_list` (`bitmap.cpp`, 199-207).  Its buffer has `nbit()` entries, so there is no defined
result for the bitmap of all numbers. -/
def FilterBitmap.getSetList (b : FilterBitmap) : Option (List ℕ) :=
  if b.nbit = b.bits.card then some (b.bits.sort (· ≤ ·)) else none

/-- `filter_layout_offsets_`, `filter_layout_rows_by_offset_` and `filter_layout_inverse_base_`; the
inverse is `none` unless `filter_layout_inverse_ready_`. -/
structure FilterLayout where
  offsets : List ℕ
  inverse : Option (ℕ × List ℕ)
  deriving DecidableEq, Repr

/-- `filter_token_cache_` in the order of `filter_token_order_`, and `next_filter_token_`. -/
structure FilterTokens where
  cache : List (ℕ × FilterBitmap)
  nextFilterToken : ℕ

/-- `FilterResult` (`common_structs.h`, 45-49) -/
structure FilterResult where
  eligibleCount : ℕ
  bitsetWords : List (BitVec 32)
  nativeFilterToken : ℕ
  deriving DecidableEq, Repr

/-- The offset of each row (242-254): `get_offset_by_label` gives an `int`, a negative one for an
unknown label. -/
def layoutOffsets (offsetByLabel : ℕ → Option (Fin (2 ^ 31))) (orderedLabels : List ℕ) : List ℕ :=
  orderedLabels.map fun label => match offsetByLabel label with
    | some offset => offset
    | none => kMissingFilterLayoutOffset

/-- The loop that fills the inverse (268-281), from `row` on: `none` when it meets a repeated offset. -/
def invertFrom (minOffset : ℕ) : ℕ → List ℕ → List ℕ → Option (List ℕ)
  | _, [], rowsByOffset => some rowsByOffset
  | row, offset :: offsets, rowsByOffset =>
    if offset = kMissingFilterLayoutOffset then invertFrom minOffset (row + 1) offsets rowsByOffset
    else if rowsByOffset[offset - minOffset]? ≠ some kMissingFilterLayoutOffset then none
    else invertFrom minOffset (row + 1) offsets
      (rowsByOffset.set (offset - minOffset) (row % 2 ^ 32))

/-- The inverse of a layout (256-284). -/
def invertLayout (offsets : List ℕ) : Option (ℕ × List ℕ) :=
  let valid := offsets.filter (· ≠ kMissingFilterLayoutOffset)
  let minOffset := valid.foldl min kMissingFilterLayoutOffset
  let maxOffset := valid.foldl max 0
  if valid = [] then none
  else if maxOffset - minOffset + 1 > kFilterLayoutInverseMaxSpanFactor * valid.length then none
  else
    (invertFrom minOffset 0 offsets
      (List.replicate (maxOffset - minOffset + 1) kMissingFilterLayoutOffset)).map
        fun rowsByOffset => (minOffset, rowsByOffset)

/-- `set_filter_layout(ordered_labels)` (237-286) -/
def setFilterLayout (offsetByLabel : ℕ → Option (Fin (2 ^ 31))) (orderedLabels : List ℕ) :
    FilterLayout :=
  let offsets := layoutOffsets offsetByLabel orderedLabels
  ⟨offsets, invertLayout offsets⟩

/-- `cache_filter_bitmap_` (428-441): a token of 64 bits, never 0. -/
def cacheFilterBitmap (t : FilterTokens) (bitmap : FilterBitmap) : ℕ × FilterTokens :=
  let token := if t.nextFilterToken = 0 then 1 else t.nextFilterToken
  let cache := t.cache.filter (·.1 ≠ token) ++ [(token, bitmap)]
  (token, ⟨cache.drop (cache.length - kFilterTokenCacheCapacity), (token + 1) % 2 ^ 64⟩)

/-- `offset != UINT32_MAX && (!bitmap || bitmap->Isset(offset))` -/
def Eligible (bitmap : Option FilterBitmap) (offset : ℕ) : Prop :=
  offset ≠ kMissingFilterLayoutOffset ∧ ∀ b ∈ bitmap, offset ∈ b.bits

instance (bitmap : Option FilterBitmap) (offset : ℕ) : Decidable (Eligible bitmap offset) :=
  have : Decidable (∀ b ∈ bitmap, offset ∈ b.bits) := match bitmap with
    | none => isTrue fun _ h => by cases h
    | some b => decidable_of_iff (offset ∈ b.bits)
        ⟨fun h b' hb' => (Option.some.inj hb') ▸ h, fun h => h b rfl⟩
  inferInstanceAs (Decidable (_ ∧ _))

/-- The token, if there is a bitmap and `issue` says so. -/
def issueToken (t : FilterTokens) (bitmap : Option FilterBitmap) (issue : Prop) [Decidable issue] :
    ℕ × FilterTokens :=
  match bitmap with
  | some b => if issue then cacheFilterBitmap t b else (0, t)
  | none => (0, t)

/-- One row of the scan of `evaluate_filter` (309-320). -/
def evaluateRow (bitmap : Option FilterBitmap) (st : ℕ × ℕ × List (BitVec 32)) (offset : ℕ) :
    ℕ × ℕ × List (BitVec 32) :=
  let (row, count, words) := st
  if Eligible bitmap offset then (row + 1, count + 1, setBit words row) else (row + 1, count, words)

/-- `evaluate_filter` (288-326) with the bitmap of its filter, `none` for a query without one.  When
the query cannot be parsed or its filter has no bitmap, both versions return the same code. -/
def evaluateFilter (layout : FilterLayout) (t : FilterTokens) (bitmap : Option FilterBitmap)
    (maxCachedCandidates : ℕ) : FilterResult × FilterTokens :=
  let (_, count, words) := layout.offsets.foldl (evaluateRow bitmap)
    (0, 0, List.replicate ((layout.offsets.length + 31) / 32) 0)
  let (token, t) := issueToken t bitmap (0 < count ∧ count ≤ maxCachedCandidates)
  (⟨count, words, token⟩, t)

/-- The count by the inverse layout (365-379): of the set bits those that have a row. -/
def lookupCount (base : ℕ) (rowsByOffset : List ℕ) (eligibleOffsets : List ℕ) : ℕ :=
  eligibleOffsets.countP fun offset =>
    base ≤ offset ∧ offset - base < rowsByOffset.length ∧
      rowsByOffset[offset - base]? ≠ some kMissingFilterLayoutOffset

/-- The state of the scan of `evaluate_filter_for_routing`. -/
structure RoutingScan where
  row : ℕ
  count : ℕ
  words : List (BitVec 32)
  narrowRows : List ℕ

/-- One row of the scan (394-420). -/
def routeRow (bitmap : Option FilterBitmap) (nativeThreshold size : ℕ) (st : RoutingScan)
    (offset : ℕ) : RoutingScan :=
  if ¬ Eligible bitmap offset then { st with row := st.row + 1 }
  else if size ≤ nativeThreshold then { st with row := st.row + 1, count := st.count + 1 }
  else if st.words = [] then
    let narrowRows := st.narrowRows ++ [st.row % 2 ^ 32]
    if st.count + 1 ≤ nativeThreshold then
      ⟨st.row + 1, st.count + 1, [], narrowRows⟩
    else
      ⟨st.row + 1, st.count + 1, ofRows 32 ((size + 31) / 32) narrowRows, []⟩
  else ⟨st.row + 1, st.count + 1, setBit st.words st.row, st.narrowRows⟩

/-- `evaluate_filter_for_routing` (328-426); `none` where the code has no defined result. -/
def evaluateFilterForRouting (layout : FilterLayout) (t : FilterTokens)
    (bitmap : Option FilterBitmap) (nativeThreshold : ℕ) : Option (FilterResult × FilterTokens) :=
  if nativeThreshold = 0 then some (evaluateFilter layout t bitmap 0)
  else
    let scan : FilterResult × FilterTokens :=
      let st := layout.offsets.foldl (routeRow bitmap nativeThreshold layout.offsets.length)
        ⟨0, 0, [], []⟩
      let (token, t) := issueToken t bitmap (0 < st.count ∧ st.count ≤ nativeThreshold)
      (⟨st.count, st.words, token⟩, t)
    match bitmap, layout.inverse with
    | some b, some (base, rowsByOffset) =>
      if b.nbit ≤ nativeThreshold then
        b.getSetList.map fun eligibleOffsets =>
          let count := lookupCount base rowsByOffset eligibleOffsets
          let (token, t) := issueToken t bitmap (0 < count)
          (⟨count, [], token⟩, t)
      else some scan
    | _, _ => some scan

/-! ## Rows -/

/-- The eligible rows of a layout whose first row is `row`. -/
def eligibleFrom (bitmap : Option FilterBitmap) : ℕ → List ℕ → List ℕ
  | _, [] => []
  | row, offset :: offsets =>
    if Eligible bitmap offset then row :: eligibleFrom bitmap (row + 1) offsets
    else eligibleFrom bitmap (row + 1) offsets

/-- The eligible rows of a layout. -/
def eligibleRows (bitmap : Option FilterBitmap) (offsets : List ℕ) : List ℕ :=
  eligibleFrom bitmap 0 offsets

variable {bitmap : Option FilterBitmap} {row r size base : ℕ}

theorem mem_eligibleFrom_bounds {offsets : List ℕ}
    (h : r ∈ eligibleFrom bitmap row offsets) : row ≤ r ∧ r < row + offsets.length := by
  induction offsets generalizing row with
  | nil => cases h
  | cons offset offsets ih =>
    rw [List.length_cons]
    unfold eligibleFrom at h
    split_ifs at h
    · rcases List.mem_cons.1 h with rfl | h
      · omega
      · have := ih h
        omega
    · have := ih h
      omega

theorem nodup_eligibleFrom (bitmap : Option FilterBitmap) (offsets : List ℕ) (row : ℕ) :
    (eligibleFrom bitmap row offsets).Nodup := by
  induction offsets generalizing row with
  | nil => exact List.nodup_nil
  | cons offset offsets ih =>
    unfold eligibleFrom
    split_ifs
    · refine List.nodup_cons.2 ⟨fun h => ?_, ih (row + 1)⟩
      have := (mem_eligibleFrom_bounds h).1
      omega
    · exact ih (row + 1)

theorem eligibleFrom_append (bitmap : Option FilterBitmap) (offsets offsets' : List ℕ) (row : ℕ) :
    eligibleFrom bitmap row (offsets ++ offsets') =
      eligibleFrom bitmap row offsets ++ eligibleFrom bitmap (row + offsets.length) offsets' := by
  induction offsets generalizing row with
  | nil => rfl
  | cons offset offsets ih =>
    rw [List.cons_append, eligibleFrom, eligibleFrom, ih, List.length_cons,
      show row + 1 + offsets.length = row + (offsets.length + 1) by omega]
    split_ifs <;> rfl

theorem length_eligibleFrom_le (bitmap : Option FilterBitmap) (offsets : List ℕ) (row : ℕ) :
    (eligibleFrom bitmap row offsets).length ≤ offsets.length := by
  induction offsets generalizing row with
  | nil => exact le_refl 0
  | cons offset offsets ih =>
    have := ih (row + 1)
    unfold eligibleFrom
    split_ifs <;> simp only [List.length_cons] <;> omega

/-! ## The full evaluation -/

theorem foldl_evaluateRow (bitmap : Option FilterBitmap) (offsets : List ℕ) (row count : ℕ)
    (words : List (BitVec 32)) :
    offsets.foldl (evaluateRow bitmap) (row, count, words) =
      (row + offsets.length, count + (eligibleFrom bitmap row offsets).length,
        (eligibleFrom bitmap row offsets).foldl setBit words) := by
  induction offsets generalizing row count words with
  | nil => rfl
  | cons offset offsets ih =>
    rw [List.foldl_cons, evaluateRow, eligibleFrom]
    split_ifs
    · rw [ih, List.length_cons, List.length_cons, List.foldl_cons, Prod.mk.injEq, Prod.mk.injEq]
      refine ⟨by omega, by omega, rfl⟩
    · rw [ih, List.length_cons, Prod.mk.injEq]
      exact ⟨by omega, rfl⟩

/-- The full evaluation counts the eligible rows and sets their bits. -/
theorem evaluateFilter_spec (layout : FilterLayout) (t : FilterTokens)
    (bitmap : Option FilterBitmap) (maxCachedCandidates : ℕ) :
    (evaluateFilter layout t bitmap maxCachedCandidates).1.eligibleCount =
        (eligibleRows bitmap layout.offsets).length ∧
      (evaluateFilter layout t bitmap maxCachedCandidates).1.bitsetWords =
        ofRows 32 ((layout.offsets.length + 31) / 32) (eligibleRows bitmap layout.offsets) := by
  unfold evaluateFilter
  rw [foldl_evaluateRow]
  exact ⟨Nat.zero_add _, rfl⟩

/-! ## The scan with rows kept aside -/

/-- What the scan has after the eligible rows `seen`. -/
def ScanOk (nativeThreshold size : ℕ) (seen : List ℕ) (st : RoutingScan) : Prop :=
  st.count = seen.length ∧
    if size ≤ nativeThreshold then st.words = []
    else if seen.length ≤ nativeThreshold then
      st.words = [] ∧ st.narrowRows = seen.map (· % 2 ^ 32)
    else st.words = ofRows 32 ((size + 31) / 32)
      ((seen.take (nativeThreshold + 1)).map (· % 2 ^ 32) ++ seen.drop (nativeThreshold + 1))

theorem ofRows_ne_nil (h : 0 < size) (rows : List ℕ) : ofRows 32 ((size + 31) / 32) rows ≠ [] := by
  intro hnil
  have hlen := congrArg List.length hnil
  unfold ofRows at hlen
  rw [length_foldl_setBit, List.length_replicate, List.length_nil] at hlen
  omega

/-- One more row. -/
theorem ScanOk.routeRow {nativeThreshold : ℕ} {seen : List ℕ} {st : RoutingScan}
    (h : ScanOk nativeThreshold size seen st) (bitmap : Option FilterBitmap) (offset : ℕ) :
    (VectorDB.routeRow bitmap nativeThreshold size st offset).row = st.row + 1 ∧
    ScanOk nativeThreshold size (if Eligible bitmap offset then seen ++ [st.row] else seen)
      (VectorDB.routeRow bitmap nativeThreshold size st offset) := by
  obtain ⟨hcount, hwords⟩ := h
  unfold VectorDB.routeRow
  by_cases hel : Eligible bitmap offset
  · rw [if_neg (not_not.2 hel), if_pos hel]
    by_cases hsize : size ≤ nativeThreshold
    · rw [if_pos hsize] at hwords ⊢
      refine ⟨rfl, ?_, ?_⟩
      · simp [hcount]
      · rw [if_pos hsize]
        exact hwords
    · rw [if_neg hsize] at hwords ⊢
      have hpos : 0 < size := by omega
      by_cases hseen : seen.length ≤ nativeThreshold
      · rw [if_pos hseen] at hwords
        rw [if_pos hwords.1]
        by_cases hnext : seen.length + 1 ≤ nativeThreshold
        · rw [hcount, if_pos hnext]
          refine ⟨rfl, by simp, ?_⟩
          rw [if_neg hsize, List.length_append, List.length_singleton, if_pos hnext, hwords.2]
          exact ⟨rfl, by simp⟩
        · rw [hcount, if_neg hnext]
          refine ⟨rfl, by simp, ?_⟩
          rw [if_neg hsize, List.length_append, List.length_singleton, if_neg hnext, hwords.2]
          have hall : (seen ++ [st.row]).length = nativeThreshold + 1 := by
            rw [List.length_append, List.length_singleton]
            omega
          rw [← hall, List.take_length, List.drop_length, List.append_nil, List.map_append]
          rfl
      · rw [if_neg hseen] at hwords
        have hne : st.words ≠ [] := hwords ▸ ofRows_ne_nil hpos _
        rw [if_neg hne]
        refine ⟨rfl, by simp [hcount], ?_⟩
        rw [if_neg hsize, List.length_append, List.length_singleton, if_neg (by omega),
          List.take_append_of_le_length (by omega), List.drop_append_of_le_length (by omega),
          ← List.append_assoc]
        show setBit st.words st.row = _
        rw [hwords, ofRows, ofRows, List.foldl_append]
        simp only [List.foldl_append, List.foldl_cons, List.foldl_nil]
  · rw [if_pos hel, if_neg hel]
    exact ⟨rfl, hcount, hwords⟩

/-- The scan after all rows. -/
theorem scan_spec (bitmap : Option FilterBitmap) (nativeThreshold size : ℕ) (offsets : List ℕ) :
    ∀ (seen : List ℕ) (st : RoutingScan), ScanOk nativeThreshold size seen st →
      ScanOk nativeThreshold size (seen ++ eligibleFrom bitmap st.row offsets)
        (offsets.foldl (routeRow bitmap nativeThreshold size) st) := by
  induction offsets with
  | nil =>
    intro seen st h
    rw [eligibleFrom, List.append_nil]
    exact h
  | cons offset offsets ih =>
    intro seen st h
    obtain ⟨hrow, hok⟩ := h.routeRow bitmap offset
    have hrest := ih _ _ hok
    rw [hrow] at hrest
    rw [List.foldl_cons, eligibleFrom]
    split_ifs at hrest ⊢
    · rwa [List.append_assoc] at hrest
    · exact hrest

/-- The bits of the scan are those of the eligible rows exactly when the rows kept aside fit 32
bits. -/
theorem narrow_words_iff (nativeThreshold : ℕ) {rows : List ℕ} (hnodup : rows.Nodup)
    (hlt : ∀ r ∈ rows, r < size) :
    ofRows 32 ((size + 31) / 32)
        ((rows.take (nativeThreshold + 1)).map (· % 2 ^ 32) ++ rows.drop (nativeThreshold + 1)) =
      ofRows 32 ((size + 31) / 32) rows ↔
    ∀ r ∈ rows.take (nativeThreshold + 1), r < 2 ^ 32 := by
  have hdiv : ∀ r, r < size → r / 32 < (size + 31) / 32 := fun r hr => by omega
  rw [ofRows_eq_iff (by decide) ?_ fun r hr => hdiv r (hlt r hr)]
  · constructor
    · intro h r hr
      by_contra hbig
      rcases List.mem_append.1 ((h r).2 (List.mem_of_mem_take hr)) with hr' | hr'
      · obtain ⟨r', -, rfl⟩ := List.mem_map.1 hr'
        exact hbig (Nat.mod_lt _ (by decide))
      · rw [← List.take_append_drop (nativeThreshold + 1) rows] at hnodup
        exact (List.nodup_append.1 hnodup).2.2 r hr r hr' rfl
    · intro h r
      have hmap : (rows.take (nativeThreshold + 1)).map (· % 2 ^ 32) =
          rows.take (nativeThreshold + 1) := by
        rw [List.map_congr_left fun r hr => Nat.mod_eq_of_lt (h r hr), List.map_id']
      rw [hmap, List.take_append_drop]
  · intro r hr
    rcases List.mem_append.1 hr with hr | hr
    · obtain ⟨r', hr', rfl⟩ := List.mem_map.1 hr
      refine hdiv _ ((Nat.mod_le _ _).trans_lt (hlt r' (List.mem_of_mem_take hr')))
    · exact hdiv r (hlt r (List.mem_of_mem_drop hr))

/-! ## The inverse layout -/

/-- The rows of an offset. -/
def rowsAt (o : ℕ) : ℕ → List ℕ → List ℕ
  | _, [] => []
  | row, offset :: offsets =>
    if offset ≠ kMissingFilterLayoutOffset ∧ offset = o then row :: rowsAt o (row + 1) offsets
    else rowsAt o (row + 1) offsets

/-- An entry of the inverse as the rows of its offset come in. -/
def fillEntry : ℕ → List ℕ → Option ℕ
  | entry, [] => some entry
  | entry, row :: rows =>
    if entry ≠ kMissingFilterLayoutOffset then none else fillEntry (row % 2 ^ 32) rows

/-- The entry stands for one of the rows of its offset, at most, and for all of them only if none of
them looks like a missing one. -/
theorem entry_of_fillEntry {rows : List ℕ} {entry : ℕ}
    (h : fillEntry kMissingFilterLayoutOffset rows = some entry) :
    (if entry = kMissingFilterLayoutOffset then 0 else 1) ≤ rows.length ∧
      ((if entry = kMissingFilterLayoutOffset then 0 else 1) = rows.length ↔
        ∀ r ∈ rows, r % 2 ^ 32 ≠ kMissingFilterLayoutOffset) := by
  cases rows with
  | nil =>
    obtain rfl := Option.some.inj h
    simp
  | cons r rows =>
    rw [fillEntry, if_neg (not_not.2 rfl)] at h
    cases rows with
    | nil =>
      obtain rfl := Option.some.inj h
      rw [List.length_singleton]
      by_cases hr : r % 2 ^ 32 = kMissingFilterLayoutOffset
      · rw [if_pos hr]
        exact ⟨Nat.zero_le 1, iff_of_false (by decide) fun hall =>
          hall r (List.mem_singleton_self r) hr⟩
      · rw [if_neg hr]
        refine ⟨le_refl 1, iff_of_true rfl fun r' hr' => ?_⟩
        rw [List.mem_singleton.1 hr']
        exact hr
    | cons r' rows =>
      -- a second row only comes in while the first one looks missing
      have hr : r % 2 ^ 32 = kMissingFilterLayoutOffset := by
        by_contra hne
        rw [fillEntry, if_pos hne] at h
        cases h
      have hle : (if entry = kMissingFilterLayoutOffset then 0 else 1) ≤ 1 := by split_ifs <;> omega
      refine ⟨?_, iff_of_false ?_ fun hall => hall r List.mem_cons_self hr⟩
      · rw [List.length_cons]
        omega
      · rw [List.length_cons, List.length_cons]
        omega

/-- Every entry of the inverse has been filled by the rows of its offset. -/
theorem invertFrom_spec {minOffset : ℕ} {offsets : List ℕ}
    (hmin : ∀ o ∈ offsets, o ≠ kMissingFilterLayoutOffset → minOffset ≤ o) :
    ∀ {row : ℕ} {entries result : List ℕ}, invertFrom minOffset row offsets entries = some result →
      result.length = entries.length ∧ ∀ o, minOffset ≤ o → ∀ entry ∈ entries[o - minOffset]?,
        fillEntry entry (rowsAt o row offsets) = result[o - minOffset]? := by
  induction offsets with
  | nil =>
    intro row entries result h
    obtain rfl := Option.some.inj h
    exact ⟨rfl, fun o _ entry he => he.symm⟩
  | cons offset offsets ih =>
    intro row entries result h
    have hmin' : ∀ o ∈ offsets, o ≠ kMissingFilterLayoutOffset → minOffset ≤ o := fun o ho =>
      hmin o (List.mem_cons_of_mem offset ho)
    unfold invertFrom at h
    split_ifs at h with hmissing hdup
    · obtain ⟨hlen, hentries⟩ := ih hmin' h
      refine ⟨hlen, fun o ho entry he => ?_⟩
      rw [rowsAt, if_neg fun hc => hc.1 hmissing]
      exact hentries o ho entry he
    · obtain ⟨hlen, hentries⟩ := ih hmin' h
      rw [List.length_set] at hlen
      have hle := hmin offset List.mem_cons_self hmissing
      have hentry : entries[offset - minOffset]? = some kMissingFilterLayoutOffset := not_not.1 hdup
      refine ⟨hlen, fun o ho entry he => ?_⟩
      by_cases heq : offset = o
      · subst heq
        rw [hentry] at he
        obtain rfl := Option.some.inj he
        rw [rowsAt, if_pos ⟨hmissing, rfl⟩, fillEntry, if_neg (not_not.2 rfl)]
        refine hentries offset ho _ ?_
        obtain ⟨hidx, -⟩ := List.getElem?_eq_some_iff.1 hentry
        rw [List.getElem?_set_self hidx]
        rfl
      · rw [rowsAt, if_neg fun hc => heq hc.2]
        refine hentries o ho entry ?_
        rw [List.getElem?_set_ne (by omega)]
        exact he

/-- What the inverse of a layout says about an offset: nothing where no row has it, otherwise the
entry that its rows have filled. -/
def InverseOk (base : ℕ) (rowsByOffset offsets : List ℕ) : Prop :=
  ∀ o, (base ≤ o ∧ o - base < rowsByOffset.length →
      fillEntry kMissingFilterLayoutOffset (rowsAt o 0 offsets) = rowsByOffset[o - base]?) ∧
    (¬ (base ≤ o ∧ o - base < rowsByOffset.length) → rowsAt o 0 offsets = [])

theorem rowsAt_eq_nil {o : ℕ} {offsets : List ℕ}
    (h : o = kMissingFilterLayoutOffset ∨ o ∉ offsets) (row : ℕ) : rowsAt o row offsets = [] := by
  induction offsets generalizing row with
  | nil => rfl
  | cons offset offsets ih =>
    rw [rowsAt, if_neg, ih (h.imp id fun hno hmem => hno (List.mem_cons_of_mem offset hmem))]
    rintro ⟨hne, rfl⟩
    rcases h with h | h
    · exact hne h
    · exact h List.mem_cons_self

/-- **The inverse of a layout.** -/
theorem invertLayout_spec {offsets : List ℕ} {rowsByOffset : List ℕ}
    (h : invertLayout offsets = some (base, rowsByOffset)) : InverseOk base rowsByOffset offsets := by
  unfold invertLayout at h
  simp only at h
  split_ifs at h
  obtain ⟨entries, hinv, hpair⟩ := Option.map_eq_some_iff.1 h
  obtain ⟨rfl, rfl⟩ := Prod.mk.inj hpair
  have hvalid : ∀ o ∈ offsets, o ≠ kMissingFilterLayoutOffset →
      o ∈ offsets.filter (· ≠ kMissingFilterLayoutOffset) := fun o ho hne =>
    List.mem_filter.2 ⟨ho, by simpa using hne⟩
  obtain ⟨hlen, hentries⟩ := invertFrom_spec
    (fun o ho hne => (foldl_min_le _ _).2 o (hvalid o ho hne)) hinv
  rw [List.length_replicate] at hlen
  intro o
  refine ⟨fun ⟨hbase, hidx⟩ => ?_, fun hout => ?_⟩
  · refine hentries o hbase _ ?_
    rw [List.getElem?_replicate_of_lt (hlen ▸ hidx)]
    rfl
  · refine rowsAt_eq_nil ?_ 0
    by_contra hin
    rw [not_or, not_not] at hin
    have hmem := hvalid o hin.2 hin.1
    have hlow := (foldl_min_le _ kMissingFilterLayoutOffset).2 o hmem
    have hhigh := (le_foldl_max _ 0).2 o hmem
    exact hout ⟨hlow, by omega⟩

/-! ## Counting by the inverse -/

/-- The eligible rows are those of the offsets in the bitmap. -/
theorem eligibleFrom_eq_sum (b : FilterBitmap) (offsets : List ℕ) (row : ℕ) :
    (eligibleFrom (some b) row offsets).length = ∑ o ∈ b.bits, (rowsAt o row offsets).length := by
  induction offsets generalizing row with
  | nil => simp [eligibleFrom, rowsAt]
  | cons offset offsets ih =>
    have hone : ∀ o, (rowsAt o row (offset :: offsets)).length =
        (if offset = o then (if offset ≠ kMissingFilterLayoutOffset then 1 else 0) else 0) +
          (rowsAt o (row + 1) offsets).length := by
      intro o
      rw [rowsAt]
      by_cases heq : offset = o
      · by_cases hne : offset ≠ kMissingFilterLayoutOffset
        · rw [if_pos ⟨hne, heq⟩, if_pos heq, if_pos hne, List.length_cons, Nat.add_comm]
        · rw [if_neg fun hc => hne hc.1, if_pos heq, if_neg hne, Nat.zero_add]
      · rw [if_neg fun hc => heq hc.2, if_neg heq, Nat.zero_add]
    rw [Finset.sum_congr rfl fun o _ => hone o, Finset.sum_add_distrib, ← ih, Finset.sum_ite_eq,
      eligibleFrom]
    have hel : Eligible (some b) offset ↔
        offset ∈ b.bits ∧ offset ≠ kMissingFilterLayoutOffset := by
      unfold Eligible
      simp [and_comm]
    by_cases hin : offset ∈ b.bits
    · by_cases hne : offset ≠ kMissingFilterLayoutOffset
      · rw [if_pos (hel.2 ⟨hin, hne⟩), if_pos hin, if_pos hne, List.length_cons, Nat.add_comm]
      · rw [if_neg fun hc => hne (hel.1 hc).2, if_pos hin, if_neg hne, Nat.zero_add]
    · rw [if_neg fun hc => hin (hel.1 hc).1, if_neg hin, Nat.zero_add]

theorem mem_eligibleFrom_iff {b : FilterBitmap} {offsets : List ℕ} :
    r ∈ eligibleFrom (some b) row offsets ↔ ∃ o ∈ b.bits, r ∈ rowsAt o row offsets := by
  induction offsets generalizing row with
  | nil => simp [eligibleFrom, rowsAt]
  | cons offset offsets ih =>
    have hel : Eligible (some b) offset ↔
        offset ∈ b.bits ∧ offset ≠ kMissingFilterLayoutOffset := by
      unfold Eligible
      simp [and_comm]
    have hmem : ∀ o, r ∈ rowsAt o row (offset :: offsets) ↔
        (offset ≠ kMissingFilterLayoutOffset ∧ offset = o ∧ r = row) ∨
          r ∈ rowsAt o (row + 1) offsets := by
      intro o
      rw [rowsAt]
      split_ifs with hc
      · rw [List.mem_cons]
        exact or_congr_left ⟨fun h => ⟨hc.1, hc.2, h⟩, fun h => h.2.2⟩
      · simp only [ne_eq] at hc
        tauto
    have hrow : r ∈ eligibleFrom (some b) row (offset :: offsets) ↔
        (Eligible (some b) offset ∧ r = row) ∨ r ∈ eligibleFrom (some b) (row + 1) offsets := by
      rw [eligibleFrom]
      split_ifs with hc
      · rw [List.mem_cons]
        simp [hc]
      · simp [hc]
    rw [hrow, ih, hel]
    simp only [hmem]
    constructor
    · rintro (⟨⟨hin, hne⟩, rfl⟩ | ⟨o, ho, hr⟩)
      · exact ⟨offset, hin, .inl ⟨hne, rfl, rfl⟩⟩
      · exact ⟨o, ho, .inr hr⟩
    · rintro ⟨o, ho, ⟨hne, rfl, rfl⟩ | hr⟩
      · exact .inl ⟨⟨ho, hne⟩, rfl⟩
      · exact .inr ⟨o, ho, hr⟩

/-- What the inverse counts for an offset. -/
def foundAt (base : ℕ) (rowsByOffset : List ℕ) (o : ℕ) : ℕ :=
  if base ≤ o ∧ o - base < rowsByOffset.length ∧
      rowsByOffset[o - base]? ≠ some kMissingFilterLayoutOffset then 1 else 0

theorem lookupCount_eq_sum (base : ℕ) (rowsByOffset : List ℕ) (s : Finset ℕ) :
    lookupCount base rowsByOffset (s.sort (· ≤ ·)) = ∑ o ∈ s, foundAt base rowsByOffset o := by
  unfold lookupCount foundAt
  rw [← Finset.card_filter, ← Multiset.coe_countP, Finset.sort_eq, Multiset.countP_eq_card_filter,
    Finset.card_def, Finset.filter_val]

variable {rowsByOffset offsets : List ℕ}

/-- What the inverse counts for an offset is the number of its rows, unless one of them looks like a
missing one. -/
theorem foundAt_spec (h : InverseOk base rowsByOffset offsets) (o : ℕ) :
    foundAt base rowsByOffset o ≤ (rowsAt o 0 offsets).length ∧
      (foundAt base rowsByOffset o = (rowsAt o 0 offsets).length ↔
        ∀ r ∈ rowsAt o 0 offsets, r % 2 ^ 32 ≠ kMissingFilterLayoutOffset) := by
  obtain ⟨hin, hout⟩ := h o
  unfold foundAt
  by_cases hrange : base ≤ o ∧ o - base < rowsByOffset.length
  · have hfill := hin hrange
    obtain ⟨entry, hentry⟩ : ∃ entry, rowsByOffset[o - base]? = some entry :=
      ⟨_, List.getElem?_eq_getElem hrange.2⟩
    rw [hentry] at hfill ⊢
    have hspec := entry_of_fillEntry hfill
    have hcond : (base ≤ o ∧ o - base < rowsByOffset.length ∧
        some entry ≠ some kMissingFilterLayoutOffset) ↔ ¬ entry = kMissingFilterLayoutOffset := by
      simp [hrange.1, hrange.2]
    simp only [hcond, ite_not]
    exact hspec
  · rw [hout hrange, if_neg fun hc => hrange ⟨hc.1, hc.2.1⟩]
    simp

/-- **The count by the inverse is right exactly when no eligible row looks like a missing one.** -/
theorem lookupCount_eq_iff (h : InverseOk base rowsByOffset offsets) (b : FilterBitmap) :
    lookupCount base rowsByOffset (b.bits.sort (· ≤ ·)) =
        (eligibleRows (some b) offsets).length ↔
      ∀ r ∈ eligibleRows (some b) offsets, r % 2 ^ 32 ≠ kMissingFilterLayoutOffset := by
  unfold eligibleRows
  rw [lookupCount_eq_sum, eligibleFrom_eq_sum,
    Finset.sum_eq_sum_iff_of_le fun o _ => (foundAt_spec h o).1]
  constructor
  · intro hall r hr
    obtain ⟨o, ho, hr⟩ := mem_eligibleFrom_iff.1 hr
    exact (foundAt_spec h o).2.1 (hall o ho) r hr
  · intro hall o ho
    exact (foundAt_spec h o).2.2 fun r hr => hall r (mem_eligibleFrom_iff.2 ⟨o, ho, hr⟩)

/-! ## When routing refines the full evaluation -/

/-- Routing reports the count of the full evaluation.  Above the threshold it has the same bits;
otherwise, for a positive threshold, it has none, and a token exactly when there is a filter and an
eligible row. -/
def RoutingRefines (layout : FilterLayout) (t : FilterTokens) (bitmap : Option FilterBitmap)
    (nativeThreshold : ℕ) : Prop :=
  ∃ r t', evaluateFilterForRouting layout t bitmap nativeThreshold = some (r, t') ∧
    ∀ maxCachedCandidates, let full := (evaluateFilter layout t bitmap maxCachedCandidates).1
      r.eligibleCount = full.eligibleCount ∧
        if full.eligibleCount > nativeThreshold then r.bitsetWords = full.bitsetWords
        else 0 < nativeThreshold → r.bitsetWords = [] ∧
          (r.nativeFilterToken ≠ 0 ↔ bitmap.isSome ∧ 0 < full.eligibleCount)

/-- The count is taken from the inverse layout. -/
def UsesInverse (layout : FilterLayout) (bitmap : Option FilterBitmap) (nativeThreshold : ℕ) :
    Prop :=
  ∃ b ∈ bitmap, layout.inverse.isSome ∧ b.nbit ≤ nativeThreshold

/-- The row numbers that are kept in 32 bits are those of the rows.  With the inverse layout: the
bitmap is not that of all numbers, and no eligible row is `2 ^ 32 - 1` modulo `2 ^ 32`.  With the scan:
when the threshold is passed, the rows up to there are below `2 ^ 32`. -/
def RowsFit (layout : FilterLayout) (bitmap : Option FilterBitmap) (nativeThreshold : ℕ) : Prop :=
  0 < nativeThreshold →
    (UsesInverse layout bitmap nativeThreshold →
      (∀ b ∈ bitmap, b.bits.card < 2 ^ 32) ∧
        ∀ r ∈ eligibleRows bitmap layout.offsets, r % 2 ^ 32 ≠ 2 ^ 32 - 1) ∧
    (¬ UsesInverse layout bitmap nativeThreshold →
      nativeThreshold < (eligibleRows bitmap layout.offsets).length →
        ∀ r ∈ (eligibleRows bitmap layout.offsets).take (nativeThreshold + 1), r < 2 ^ 32)

/-- The scan of the routing version, with the token after it. -/
def routeByScan (layout : FilterLayout) (t : FilterTokens) (bitmap : Option FilterBitmap)
    (nativeThreshold : ℕ) : FilterResult × FilterTokens :=
  let st := layout.offsets.foldl (routeRow bitmap nativeThreshold layout.offsets.length)
    ⟨0, 0, [], []⟩
  let (token, t) := issueToken t bitmap (0 < st.count ∧ st.count ≤ nativeThreshold)
  (⟨st.count, st.words, token⟩, t)

variable (t : FilterTokens)

/-- A token is issued when there is a bitmap and the condition holds, and it is not 0. -/
theorem issueToken_ne_zero (bitmap : Option FilterBitmap) (issue : Prop)
    [Decidable issue] : (issueToken t bitmap issue).1 ≠ 0 ↔ bitmap.isSome ∧ issue := by
  unfold issueToken
  cases bitmap with
  | none => simp
  | some b =>
    unfold cacheFilterBitmap
    split_ifs with hissue hzero <;> simp [*]

variable {layout : FilterLayout} {nativeThreshold : ℕ}

theorem refines_iff {t t' : FilterTokens} {r : FilterResult}
    (h : evaluateFilterForRouting layout t bitmap nativeThreshold = some (r, t')) :
    RoutingRefines layout t bitmap nativeThreshold ↔
      r.eligibleCount = (eligibleRows bitmap layout.offsets).length ∧
        if (eligibleRows bitmap layout.offsets).length > nativeThreshold then
          r.bitsetWords = ofRows 32 ((layout.offsets.length + 31) / 32)
            (eligibleRows bitmap layout.offsets)
        else 0 < nativeThreshold → r.bitsetWords = [] ∧
          (r.nativeFilterToken ≠ 0 ↔
            bitmap.isSome ∧ 0 < (eligibleRows bitmap layout.offsets).length) := by
  have hfull := evaluateFilter_spec layout t bitmap
  unfold RoutingRefines
  simp only [(hfull _).1, (hfull _).2, h, Option.some.injEq, Prod.mk.injEq]
  constructor
  · rintro ⟨r', t'', ⟨rfl, rfl⟩, hall⟩
    exact hall 0
  · intro hr
    exact ⟨r, t', ⟨rfl, rfl⟩, fun _ => hr⟩

/-- The routing version by its scan. -/
theorem evaluateFilterForRouting_scan (hpos : 0 < nativeThreshold)
    (h : ¬ UsesInverse layout bitmap nativeThreshold) :
    evaluateFilterForRouting layout t bitmap nativeThreshold =
      some (routeByScan layout t bitmap nativeThreshold) := by
  unfold evaluateFilterForRouting
  rw [if_neg (by omega)]
  cases bitmap with
  | none => rfl
  | some b =>
    cases hinv : layout.inverse with
    | none => rfl
    | some inverse =>
      have hnbit : ¬ b.nbit ≤ nativeThreshold := fun hle =>
        h ⟨b, rfl, by rw [hinv]; rfl, hle⟩
      simp only [if_neg hnbit]
      rfl

/-- **By the scan**, routing refines the full evaluation exactly when the rows kept aside fit. -/
theorem refines_scan_iff (hpos : 0 < nativeThreshold) (h : ¬ UsesInverse layout bitmap nativeThreshold) :
    RoutingRefines layout t bitmap nativeThreshold ↔
      (nativeThreshold < (eligibleRows bitmap layout.offsets).length →
        ∀ r ∈ (eligibleRows bitmap layout.offsets).take (nativeThreshold + 1), r < 2 ^ 32) := by
  have hscan : ScanOk nativeThreshold layout.offsets.length (eligibleRows bitmap layout.offsets)
      (layout.offsets.foldl (routeRow bitmap nativeThreshold layout.offsets.length)
        ⟨0, 0, [], []⟩) := by
    apply scan_spec bitmap nativeThreshold layout.offsets.length layout.offsets [] ⟨0, 0, [], []⟩
    exact ⟨rfl, by simp⟩
  obtain ⟨hcount, hwords⟩ := hscan
  have hlen : (eligibleRows bitmap layout.offsets).length ≤ layout.offsets.length :=
    length_eligibleFrom_le bitmap layout.offsets 0
  have heval : evaluateFilterForRouting layout t bitmap nativeThreshold =
      some ((routeByScan layout t bitmap nativeThreshold).1,
        (routeByScan layout t bitmap nativeThreshold).2) := evaluateFilterForRouting_scan t hpos h
  rw [refines_iff heval]
  by_cases hover : (eligibleRows bitmap layout.offsets).length > nativeThreshold
  · rw [if_neg (by omega), if_neg (by omega)] at hwords
    rw [if_pos hover]
    have hsame := narrow_words_iff nativeThreshold
      (nodup_eligibleFrom bitmap layout.offsets 0) fun r hr => by
        show r < layout.offsets.length
        have := (mem_eligibleFrom_bounds hr).2
        omega
    constructor
    · intro hr _
      exact hsame.1 (hwords.symm.trans hr.2)
    · intro hr
      exact ⟨hcount, hwords.trans (hsame.2 (hr hover))⟩
  · rw [if_neg hover]
    have hempty : (layout.offsets.foldl (routeRow bitmap nativeThreshold layout.offsets.length)
        ⟨0, 0, [], []⟩).words = [] := by
      split_ifs at hwords with hsize hle
      · exact hwords
      · exact hwords.1
      · omega
    refine iff_of_true ⟨hcount, fun _ => ⟨hempty, ?_⟩⟩ fun hr => absurd hr hover
    show (issueToken t bitmap _).1 ≠ 0 ↔ _
    rw [issueToken_ne_zero, hcount]
    have hle : (eligibleRows bitmap layout.offsets).length ≤ nativeThreshold := by omega
    simp only [hle, and_true]

/-- **By the inverse layout**, routing refines the full evaluation exactly when the bitmap is not that
of all numbers and no eligible row looks like a missing one. -/
theorem refines_inverse_iff {b : FilterBitmap}
    {nativeThreshold : ℕ} {rowsByOffset : List ℕ} (hpos : 0 < nativeThreshold)
    (hinv : layout.inverse = some (base, rowsByOffset)) (hnbit : b.nbit ≤ nativeThreshold)
    (hok : InverseOk base rowsByOffset layout.offsets) :
    RoutingRefines layout t (some b) nativeThreshold ↔ b.bits.card < 2 ^ 32 ∧
      ∀ r ∈ eligibleRows (some b) layout.offsets, r % 2 ^ 32 ≠ kMissingFilterLayoutOffset := by
  by_cases hcard : b.bits.card < 2 ^ 32
  · have hnbit' : b.nbit = b.bits.card := Nat.mod_eq_of_lt hcard
    have hlookup := lookupCount_eq_iff hok b
    have heval : evaluateFilterForRouting layout t (some b) nativeThreshold =
        some (⟨lookupCount base rowsByOffset (b.bits.sort (· ≤ ·)), [],
          (issueToken t (some b) (0 < lookupCount base rowsByOffset (b.bits.sort (· ≤ ·)))).1⟩,
          (issueToken t (some b) (0 < lookupCount base rowsByOffset (b.bits.sort (· ≤ ·)))).2) := by
      unfold evaluateFilterForRouting FilterBitmap.getSetList
      rw [if_neg (by omega), hinv]
      simp only [if_pos hnbit, if_pos hnbit']
      rfl
    rw [refines_iff heval, ← hlookup]
    simp only [hcard, true_and]
    refine ⟨fun hr => hr.1, fun hcount => ⟨hcount, ?_⟩⟩
    -- the count is at most the number of set bits, which is within the threshold
    have hle : lookupCount base rowsByOffset (b.bits.sort (· ≤ ·)) ≤ b.bits.card := by
      unfold lookupCount
      exact (List.countP_le_length).trans_eq (Finset.length_sort _)
    rw [if_neg (by omega), issueToken_ne_zero, hcount]
    exact fun _ => Iff.rfl
  · refine iff_of_false ?_ fun h => hcard h.1
    rintro ⟨r, t', h, -⟩
    have hfalse : ¬ b.nbit = b.bits.card := by
      have : b.nbit < 2 ^ 32 := Nat.mod_lt _ (by decide)
      omega
    unfold evaluateFilterForRouting FilterBitmap.getSetList at h
    rw [if_neg (by omega), hinv] at h
    simp only [if_pos hnbit, if_neg hfalse] at h
    cases h

/-- **When routing refines the full evaluation**: for every list of labels, every content of the
index, every bitmap and every threshold, exactly when the row numbers it keeps in 32 bits are those
of the rows. -/
theorem routing_refines_iff (offsetByLabel : ℕ → Option (Fin (2 ^ 31))) (orderedLabels : List ℕ)
    (t : FilterTokens) (bitmap : Option FilterBitmap) (nativeThreshold : ℕ) :
    RoutingRefines (setFilterLayout offsetByLabel orderedLabels) t bitmap nativeThreshold ↔
      RowsFit (setFilterLayout offsetByLabel orderedLabels) bitmap nativeThreshold := by
  unfold RowsFit
  by_cases hpos : 0 < nativeThreshold
  · by_cases huses : UsesInverse (setFilterLayout offsetByLabel orderedLabels) bitmap nativeThreshold
    · obtain ⟨b, rfl, hsome, hnbit⟩ := id huses
      obtain ⟨⟨base, rowsByOffset⟩, hinv⟩ := Option.isSome_iff_exists.1 hsome
      rw [refines_inverse_iff t hpos hinv hnbit (invertLayout_spec hinv)]
      simp [hpos, huses, kMissingFilterLayoutOffset]
    · rw [refines_scan_iff t hpos huses]
      simp [hpos, huses]
  · obtain rfl : nativeThreshold = 0 := by omega
    refine iff_of_true ?_ fun h => absurd h hpos
    have heval : evaluateFilterForRouting (setFilterLayout offsetByLabel orderedLabels) t bitmap 0 =
        some (evaluateFilter (setFilterLayout offsetByLabel orderedLabels) t bitmap 0) := rfl
    have hfull := evaluateFilter_spec (setFilterLayout offsetByLabel orderedLabels) t bitmap 0
    rw [refines_iff heval]
    refine ⟨hfull.1, ?_⟩
    by_cases hany : (eligibleRows bitmap (setFilterLayout offsetByLabel orderedLabels).offsets).length > 0
    · rw [if_pos hany]
      exact hfull.2
    · rw [if_neg hany]
      exact fun h => absurd h hpos

theorem eligibleFrom_replicate (n row : ℕ) :
    eligibleFrom none row (List.replicate n kMissingFilterLayoutOffset) = [] := by
  induction n generalizing row with
  | zero => rfl
  | succ n ih =>
    rw [List.replicate_succ, eligibleFrom, if_neg fun h => h.1 rfl]
    exact ih (row + 1)

/-- Without a filter, `2 ^ 32` unknown labels before two rows of a known one: above the threshold 1, the bits
are set at the rows 0 and 1. -/
theorem routing_refines_fails :
    ¬ RoutingRefines (setFilterLayout (fun label => if label = 2 then none else some 0)
      (List.replicate (2 ^ 32) 2 ++ [0, 0])) ⟨[], 1⟩ none 1 := by
  have hoffsets : (setFilterLayout
      (fun label => if label = 2 then none else some 0)
      (List.replicate (2 ^ 32) 2 ++ [0, 0])).offsets =
        List.replicate (2 ^ 32) kMissingFilterLayoutOffset ++ [0, 0] := by
    show layoutOffsets _ _ = _
    unfold layoutOffsets
    rw [List.map_append, List.map_replicate]
    rfl
  have hrows : eligibleRows none (setFilterLayout
      (fun label => if label = 2 then none else some 0)
      (List.replicate (2 ^ 32) 2 ++ [0, 0])).offsets = [2 ^ 32, 2 ^ 32 + 1] := by
    unfold eligibleRows
    rw [hoffsets, eligibleFrom_append, eligibleFrom_replicate, List.length_replicate]
    rfl
  rw [refines_scan_iff _ (by decide) (by rintro ⟨b, hb, -⟩; cases hb), hrows]
  intro h
  exact absurd (h (by decide) (2 ^ 32) List.mem_cons_self) (lt_irrefl _)

end OpenViking.VectorDB
