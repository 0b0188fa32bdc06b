import OpenViking.VectorDB.StoreManager

/-!
# The delta log

Row `i` of a call is logged under the decimal key `base_ts + i`.  The log is faithful as long as
the keys, compared as strings, come in the order of the rows: a batch reserves keys in the future
of the clock, and one more digit turns the string order around.

Results:

* `entries_logDelta`: keys beyond the table's are appended, in order;
* `deltaLog_faithful`: in every run whose keys come in order the log is the list of all records.
-/

namespace OpenViking.VectorDB

variable {F J : Type}

/-! ## Keys in order -/

/-- The keys `base_ts, …, base_ts + n - 1` sort after those of the table and in their own order. -/
def OrderedKeys (m : SortedMap String (Row F J)) (baseTs n : ℕ) : Prop :=
  ∀ i < n, (∀ e ∈ m.entries, e.1 < toString (baseTs + i)) ∧
    ∀ j < i, toString (baseTs + j) < toString (baseTs + i)

instance (m : SortedMap String (Row F J)) (baseTs n : ℕ) : Decidable (OrderedKeys m baseTs n) :=
  inferInstanceAs (Decidable (∀ i < n, (∀ e ∈ m.entries, e.1 < toString (baseTs + i)) ∧
    ∀ j < i, toString (baseTs + j) < toString (baseTs + i)))

variable {m : SortedMap String (Row F J)}

theorem OrderedKeys.tail {baseTs n : ℕ} {r : Row F J} (h : OrderedKeys m baseTs (n + 1)) :
    OrderedKeys (m.put (toString baseTs) r) (baseTs + 1) n := by
  intro i hi
  obtain ⟨h1, h2⟩ := h (i + 1) (by omega)
  have hs : baseTs + 1 + i = baseTs + (i + 1) := by omega
  rw [hs]
  refine ⟨fun e he => ?_, fun j hj => ?_⟩
  · rcases SortedMap.mem_entries_put.1 he with rfl | ⟨he, -⟩
    · simpa using h2 0 (by omega)
    · exact h1 e he
  · have hj' : baseTs + 1 + j = baseTs + (j + 1) := by omega
    rw [hj']
    exact h2 (j + 1) (by omega)

theorem logDelta_cons (m : SortedMap String (Row F J)) (baseTs : ℕ) (d : DeltaRecord F J)
    (ds : List (DeltaRecord F J)) :
    logDelta m baseTs (d :: ds) = logDelta (m.put (toString baseTs) (.delta d)) (baseTs + 1) ds := by
  simp only [logDelta, deltaBatch, List.mapIdx_cons, List.foldl_cons, applyOp, Nat.add_zero,
    Nat.add_assoc, Nat.add_comm 1]

/-- Keys beyond the table's are appended, in order. -/
theorem entries_logDelta {baseTs : ℕ} {ds : List (DeltaRecord F J)} (h : OrderedKeys m baseTs ds.length) :
    (logDelta m baseTs ds).entries =
      m.entries ++ ds.mapIdx fun i d => (toString (baseTs + i), .delta d) := by
  induction ds generalizing m baseTs with
  | nil => simp
  | cons d ds ih =>
    have hlast : ∀ e ∈ m.entries, e.1 < toString baseTs := by
      simpa using (h 0 (by simp)).1
    rw [logDelta_cons, ih h.tail, SortedMap.entries_put_of_lt _ hlast, List.append_assoc]
    simp only [List.mapIdx_cons, Nat.add_zero, Nat.add_assoc, Nat.add_comm 1, List.cons_append,
      List.nil_append]

variable {s : Store F J}

/-- Every delta key lies in the range that `get_delta_data_after_ts(0)` scans. -/
theorem getDeltaDataAfterTs_zero (h : WellFormed s) :
    getDeltaDataAfterTs s 0 = (table .delta s).entries.filterMap fun kv => kv.2.delta? := by
  rw [getDeltaDataAfterTs, seekToEnd_eq, SortedMap.range_eq_entries]
  rintro ⟨k, r⟩ he
  obtain ⟨n, d, -, rfl⟩ := h.delta (SortedMap.mem_entries_iff.1 he)
  exact ⟨Decimal.toString_zero_le n, Decimal.toString_lt_max n (by decide)⟩

theorem filterMap_delta_mapIdx (ds : List (DeltaRecord F J)) (key : ℕ → String) :
    (ds.mapIdx fun i d => (key i, (Row.delta d : Row F J))).filterMap (fun kv => kv.2.delta?) =
      ds := by
  induction ds generalizing key with
  | nil => rfl
  | cons d ds ih => simp [List.mapIdx_cons, ih]

/-! ## Runs -/

variable [Inhabited J]

/-- The rows of a call: for each one what happens to which label. -/
def StoreCall.rows (s : Store F J) : StoreCall F J → List (DeltaType × ℕ)
  | .addCandsData cands _ needDelta _ _ =>
    if needDelta then cands.map fun c => (.upsert, c.label) else []
  | .deleteData labels needDelta _ =>
    if needDelta then labels.map fun label => (.delete, label) else []
  | .expireData nowTime _ => (expiredCandsData s nowTime).map fun c => (.delete, c.label)

/-- Every call of the run reserves keys that come in order. -/
def RunOrderedKeys (s : Store F J) : List (StoreCall F J) → Prop
  | [] => True
  | c :: cs =>
    OrderedKeys (table .delta s) c.baseTs (c.rows s).length ∧ RunOrderedKeys (c.exec s).1 cs

instance decidableRunOrderedKeys (s : Store F J) :
    (cs : List (StoreCall F J)) → Decidable (RunOrderedKeys s cs)
  | [] => isTrue trivial
  | c :: cs =>
    have := decidableRunOrderedKeys (c.exec s).1 cs
    inferInstanceAs (Decidable (_ ∧ RunOrderedKeys (c.exec s).1 cs))

/-- The records of all rows of the run, in the order the rows are applied. -/
def runRecords (s : Store F J) : List (StoreCall F J) → List (DeltaRecord F J)
  | [] => []
  | c :: cs => (c.exec s).2 ++ runRecords (c.exec s).1 cs

/-- All rows of the run. -/
def runRows (s : Store F J) : List (StoreCall F J) → List (DeltaType × ℕ)
  | [] => []
  | c :: cs => c.rows s ++ runRows (c.exec s).1 cs

/-- A call returns one record for each of its rows. -/
theorem exec_snd_rows (s : Store F J) (c : StoreCall F J) :
    (c.exec s).2.map (fun d => (d.type, d.label)) = c.rows s := by
  cases c with
  | addCandsData cands ttl needDelta baseTs nowTs =>
    rw [StoreCall.exec, addCandsData_snd, StoreCall.rows]
    cases needDelta <;> simp [upsertRecord]
  | deleteData labels needDelta baseTs =>
    rw [StoreCall.exec, deleteData_snd, StoreCall.rows]
    cases needDelta <;> simp [deleteRecord]
  | expireData nowTime baseTs =>
    simp [StoreCall.exec, expireData, StoreCall.rows, deleteRecord]

theorem exec_snd_length (s : Store F J) (c : StoreCall F J) : (c.exec s).2.length = (c.rows s).length := by
  rw [← exec_snd_rows, List.length_map]

theorem runRecords_rows (s : Store F J) (cs : List (StoreCall F J)) :
    (runRecords s cs).map (fun d => (d.type, d.label)) = runRows s cs := by
  induction cs generalizing s with
  | nil => rfl
  | cons c cs ih => rw [runRecords, runRows, List.map_append, exec_snd_rows, ih]

theorem getDeltaDataAfterTs_exec (h : WellFormed s) {c : StoreCall F J}
    (hc : OrderedKeys (table .delta s) c.baseTs (c.rows s).length) :
    getDeltaDataAfterTs (c.exec s).1 0 = getDeltaDataAfterTs s 0 ++ (c.exec s).2 := by
  rw [← exec_snd_length] at hc
  rw [getDeltaDataAfterTs_zero (h.exec c), getDeltaDataAfterTs_zero h, table_delta_exec,
    entries_logDelta hc, List.filterMap_append, filterMap_delta_mapIdx]

variable {cs : List (StoreCall F J)}

theorem getDeltaDataAfterTs_runCalls (h : WellFormed s) (hcs : RunOrderedKeys s cs) :
    getDeltaDataAfterTs (runCalls s cs) 0 = getDeltaDataAfterTs s 0 ++ runRecords s cs := by
  induction cs generalizing s with
  | nil => simp [runCalls, runRecords]
  | cons c cs ih =>
    rw [runCalls, ih (h.exec c) hcs.2, getDeltaDataAfterTs_exec h hcs.1, runRecords,
      List.append_assoc]

theorem RunOrderedKeys.take (h : RunOrderedKeys s cs) (n : ℕ) : RunOrderedKeys s (cs.take n) := by
  induction cs generalizing s n with
  | nil => simpa using h
  | cons c cs ih =>
    cases n with
    | zero => exact trivial
    | succ n => exact ⟨h.1, ih h.2 n⟩

/-- **The delta log is faithful.**  In every run whose calls reserve keys that sort in the order of
the rows, at every point of the run the log read from `0` is the list of the records of all rows so
far, in the order the rows were applied, and holds one record for each row. -/
theorem deltaLog_faithful (cs : List (StoreCall F J))
    (h : RunOrderedKeys (SortedMap.empty : Store F J) cs) (n : ℕ) :
    getDeltaDataAfterTs (runCalls (SortedMap.empty : Store F J) (cs.take n)) 0 =
        runRecords SortedMap.empty (cs.take n) ∧
      (getDeltaDataAfterTs (runCalls (SortedMap.empty : Store F J) (cs.take n)) 0).map
        (fun d => (d.type, d.label)) = runRows SortedMap.empty (cs.take n) := by
  have hlog := getDeltaDataAfterTs_runCalls wellFormed_empty (h.take n)
  have hempty : getDeltaDataAfterTs (SortedMap.empty : Store F J) 0 = [] := rfl
  rw [hempty, List.nil_append] at hlog
  exact ⟨hlog, by rw [hlog, runRecords_rows]⟩

/-- Two rows, their deletion two ticks later, and a clean-up that finds nothing. -/
def spacedRun : List (StoreCall ℕ String) :=
  [.addCandsData [sampleCand 1 "a" 0, sampleCand 2 "b" 0] 0 true 1700000000000000000 0,
    .deleteData [2, 1] true 1700000000000000002, .expireData 1700000000000000005 0]

theorem deltaLog_faithful_spacedRun :
    getDeltaDataAfterTs (runCalls SortedMap.empty (spacedRun.take 3)) 0 =
      runRecords SortedMap.empty (spacedRun.take 3) :=
  (deltaLog_faithful spacedRun (by decide +kernel) 3).1

/-- Three rows at one clock reading, then one row at the next. -/
def overlappingRun : List (StoreCall ℕ String) :=
  [.addCandsData [sampleCand 1 "a" 0, sampleCand 2 "b" 0, sampleCand 3 "c" 0] 0 true
      1700000000000000000 0,
    .addCandsData [sampleCand 4 "d" 0] 0 true 1700000000000000001 0]

/-- The second call's record replaces the second row's: four rows, three records. -/
theorem deltaLog_overlappingRun :
    (runClock SortedMap.empty overlappingRun).Pairwise (· < ·) ∧
      (runRecords SortedMap.empty overlappingRun).length = 4 ∧
      (getDeltaDataAfterTs (runCalls SortedMap.empty overlappingRun) 0).map DeltaRecord.label =
        [1, 4, 3] ∧
      getDeltaDataAfterTs (runCalls SortedMap.empty overlappingRun) 0 ≠
        runRecords SortedMap.empty overlappingRun := by
  decide +kernel

end OpenViking.VectorDB
