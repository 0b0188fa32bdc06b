import OpenViking.VectorDB.Expiry

/-!
# Records that must not expire

An `expire_ns_ts` of 0 means that a record does not expire.  `expire_data` finds the records to look at
through the TTL table, where the rows of an overwritten or deleted record stay, and compares their
`expire_ns_ts` with the clock as a number: a record without expiry is kept only as long as no TTL row
names it.

The mutations are those of `LocalCollection`; `update_data` writes the merged rows without a TTL.
Results:

* `NoTtlRow.exec`: the invariant, that no TTL row names a record without expiry;
* `expireData_sound`: in every run of such calls `expire_data` removes only what has expired.
-/

namespace OpenViking.VectorDB

variable {R F J : Type}

/-! ## Mutations of a collection -/

/-- Rows as the callers write them, and what the collection makes of them. -/
structure RawRows (R F J : Type) where
  /-- the label of a row, from its primary key (826-833) -/
  label : R → ℕ
  /-- `validate_and_process`, `none` where it raises -/
  validate : R → Option R
  /-- the vector, the sparse vector and the fields of a row (835-841) -/
  toCand : R → CandidateData F J
  /-- the row of a record, as `fetch_data` returns it -/
  ofCand : CandidateData F J → R
  /-- `merged.update(raw_data)` on a copy of the first -/
  merge : R → R → R

/-- The clock readings of a write: one for each row, and those of `add_cands_data`. -/
structure WriteClock where
  rowTs : ℕ → ℕ
  baseTs : ℕ
  nowTs : ℕ

/-- The call of `add_cands_data` in `_write_data_list` (817-857). -/
def writeDataList (M : RawRows R F J) (dataList : List R) (ttl : ℕ) (needRecordDelta : Bool)
    (t : WriteClock) : StoreCall F J :=
  let candsList := dataList.mapIdx fun i data =>
    { M.toCand data with
      label := M.label data
      expireNsTs := if ttl > 0 then t.rowTs i + ttl * 1000000000 else 0 }
  .addCandsData candsList ttl needRecordDelta t.baseTs t.nowTs

/-- A mutation of a collection, or a clean-up. -/
inductive DataCall (R : Type) where
  | upsertData (rawDataList : List R) (ttl : ℕ) (needRecordDelta : Bool) (t : WriteClock)
  | updateData (rawDataList : List R) (needRecordDelta : Bool) (t : WriteClock)
  | deleteData (labels : List ℕ) (needRecordDelta : Bool) (baseTs : ℕ)
  | expireData (nowTime baseTs : ℕ)

/-- The rows that `update_data` writes: each merged into its record (780-803), `none` where a record is
missing. -/
def mergedList (M : RawRows R F J) (s : Store F J) (rawDataList : List R) : Option (List R) :=
  rawDataList.mapM fun rawData =>
    (candOf s (M.label rawData)).map fun cand => M.merge (M.ofCand cand) rawData

/-- What a call makes the store manager do, `none` when it raises or has nothing to do. -/
def DataCall.storeCall (M : RawRows R F J) (s : Store F J) : DataCall R → Option (StoreCall F J)
  | .upsertData rawDataList ttl needRecordDelta t =>
    (rawDataList.mapM M.validate).map fun dataList => writeDataList M dataList ttl needRecordDelta t
  | .updateData rawDataList needRecordDelta t =>
    if rawDataList = [] then none
    else do
      let merged ← mergedList M s rawDataList
      let processed ← merged.mapM M.validate
      pure (writeDataList M processed 0 needRecordDelta t)
  | .deleteData labels needRecordDelta baseTs => some (.deleteData labels needRecordDelta baseTs)
  | .expireData nowTime baseTs => some (.expireData nowTime baseTs)

variable [Inhabited J]

/-- The store after a call. -/
def DataCall.exec (M : RawRows R F J) (s : Store F J) (c : DataCall R) : Store F J :=
  match c.storeCall M s with
  | none => s
  | some call => (call.exec s).1

/-- The store after a sequence of calls. -/
def runDataCalls (M : RawRows R F J) (s : Store F J) : List (DataCall R) → Store F J
  | [] => s
  | c :: cs => runDataCalls M (c.exec M s) cs

/-! ## The condition -/

/-- A row of the TTL table names the label. -/
def HasTtlRow (s : Store F J) (label : ℕ) : Prop :=
  ∃ kv ∈ readAll s .ttl, kv.2.ttl? = some (toString label)

instance (s : Store F J) (label : ℕ) : Decidable (HasTtlRow s label) :=
  inferInstanceAs (Decidable (∃ kv ∈ readAll s .ttl, kv.2.ttl? = some (toString label)))

/-- The call of the store manager writes without a TTL only to labels that no TTL row names. -/
def WritesClear (s : Store F J) : StoreCall F J → Prop
  | .addCandsData candsList ttl _ _ _ => ttl = 0 → ∀ c ∈ candsList, ¬ HasTtlRow s c.label
  | _ => True

instance (s : Store F J) : (call : StoreCall F J) → Decidable (WritesClear s call)
  | .addCandsData candsList ttl _ _ _ =>
    inferInstanceAs (Decidable (ttl = 0 → ∀ c ∈ candsList, ¬ HasTtlRow s c.label))
  | .deleteData _ _ _ => isTrue trivial
  | .expireData _ _ => isTrue trivial

/-- So does what the call makes it do. -/
def DataCall.Clear (M : RawRows R F J) (s : Store F J) (c : DataCall R) : Prop :=
  ∀ call ∈ c.storeCall M s, WritesClear s call

instance (M : RawRows R F J) (s : Store F J) (c : DataCall R) : Decidable (c.Clear M s) :=
  inferInstanceAs (Decidable (∀ call ∈ c.storeCall M s, WritesClear s call))

/-- Every call of the run does. -/
def RunClear (M : RawRows R F J) (s : Store F J) : List (DataCall R) → Prop
  | [] => True
  | c :: cs => c.Clear M s ∧ RunClear M (c.exec M s) cs

instance decidableRunClear (M : RawRows R F J) (s : Store F J) :
    (cs : List (DataCall R)) → Decidable (RunClear M s cs)
  | [] => isTrue trivial
  | c :: cs =>
    have := decidableRunClear M (c.exec M s) cs
    inferInstanceAs (Decidable (_ ∧ RunClear M (c.exec M s) cs))

/-! ## The invariant -/

variable {s : Store F J}

omit [Inhabited J] in
theorem hasTtlRow_iff (hw : WellFormed s) {label : ℕ} :
    HasTtlRow s label ↔ ∃ k, (table .ttl s).get k = some (.ttl (toString label)) := by
  rw [HasTtlRow, readAll_eq]
  constructor
  · rintro ⟨⟨k, r⟩, hm, hr⟩
    obtain ⟨hk, -, -⟩ := SortedMap.mem_range.1 hm
    obtain ⟨n, label', rfl, rfl⟩ := hw.ttl hk
    obtain rfl : label' = label := toString_inj.1 (by simpa using hr)
    exact ⟨_, hk⟩
  · rintro ⟨k, hk⟩
    obtain ⟨n, label', -, rfl⟩ := hw.ttl hk
    refine ⟨(toString n, .ttl (toString label)), SortedMap.mem_range.2 ⟨hk, empty_le _, ?_⟩, rfl⟩
    exact Decimal.toString_lt_max _ (by decide)

/-- No TTL row names a record without expiry. -/
def NoTtlRow (s : Store F J) : Prop :=
  ∀ label c, candOf s label = some c → c.expireNsTs = 0 → ¬ HasTtlRow s label

omit [Inhabited J] in
/-- Where a call only removes records and TTL rows, the invariant stays. -/
theorem NoTtlRow.of_le {t : Store F J} (hs : WellFormed s) (ht : WellFormed t) (h : NoTtlRow s)
    (hcand : ∀ label c, candOf t label = some c → candOf s label = some c)
    (hrow : ∀ k r, (table .ttl t).get k = some r → (table .ttl s).get k = some r) : NoTtlRow t := by
  intro label c hc hexp hhas
  obtain ⟨k, hk⟩ := (hasTtlRow_iff ht).1 hhas
  exact h label c (hcand label c hc) hexp ((hasTtlRow_iff hs).2 ⟨k, hrow k _ hk⟩)

/-- An upsert: a row without a TTL goes where no TTL row is, and one with a TTL expires. -/
theorem NoTtlRow.addCandsData (hw : WellFormed s) (h : NoTtlRow s)
    {cands : List (CandidateData F J)} {ttl : ℕ} {needDelta : Bool} {baseTs nowTs : ℕ}
    (hclear : WritesClear s (.addCandsData cands ttl needDelta baseTs nowTs)) :
    NoTtlRow (addCandsData s cands ttl needDelta baseTs nowTs).1 := by
  have hw' : WellFormed (VectorDB.addCandsData s cands ttl needDelta baseTs nowTs).1 :=
    hw.exec (.addCandsData cands ttl needDelta baseTs nowTs)
  intro label c hc hexp hhas
  obtain ⟨k, hk⟩ := (hasTtlRow_iff hw').1 hhas
  rw [addCandsData_fst, table_ttl_putCandsData] at hk
  by_cases hl : label ∈ cands.map CandidateData.label
  · by_cases httl : ttl > 0
    · -- the record has the expiry of this call
      obtain ⟨c', hf, -, hc'⟩ := find_stampExpire_of_mem nowTs httl hl
        (p := fun c => c.label = label) (fun c hc _ => decide_eq_true hc)
      rw [candOf_addCandsData, hf, Option.some_or, Option.some_inj] at hc
      rw [← hc, hc'] at hexp
      omega
    · rw [if_neg httl] at hk
      obtain ⟨c', hmem, rfl⟩ := List.mem_map.1 hl
      exact hclear (by omega) c' hmem ((hasTtlRow_iff hw).2 ⟨k, hk⟩)
  · rw [candOf_addCandsData_of_not_mem hl] at hc
    refine h label c hc hexp ((hasTtlRow_iff hw).2 ⟨k, ?_⟩)
    split_ifs at hk with httl
    · rw [Option.or_eq_some_iff] at hk
      rcases hk with hk | ⟨-, hk⟩
      · -- the new TTL rows name the labels of the call
        obtain ⟨c', hf, heq⟩ := Option.map_eq_some_iff.1 hk
        have hlabel : c'.label = label := toString_inj.1 (by simpa using heq)
        have hmem := mem_stampExpire_label (List.mem_reverse.1 (List.mem_of_find?_eq_some hf))
        rw [hlabel] at hmem
        exact absurd hmem hl
      · exact hk
    · exact hk

/-- Every call of the store manager that writes clear of the TTL rows keeps the invariant. -/
theorem NoTtlRow.exec (hw : WellFormed s) (h : NoTtlRow s) {call : StoreCall F J}
    (hclear : WritesClear s call) : NoTtlRow (call.exec s).1 := by
  have hw' := hw.exec call
  cases call with
  | addCandsData cands ttl needDelta baseTs nowTs => exact h.addCandsData hw hclear
  | deleteData labels needDelta baseTs =>
    refine h.of_le hw hw' (fun label c hc => ?_) fun k r hr => ?_
    · rw [StoreCall.exec, candOf_deleteData] at hc
      split_ifs at hc
      exact hc
    · rw [StoreCall.exec, deleteData_fst, table_ttl_dropData] at hr
      exact hr
  | expireData nowTime baseTs =>
    refine h.of_le hw hw' (fun label c hc => ?_) fun k r hr => ?_
    · rw [StoreCall.exec, candOf_expireData] at hc
      split_ifs at hc
      exact hc
    · rw [StoreCall.exec, table_ttl_expireData] at hr
      split_ifs at hr
      exact hr

theorem WellFormed.dataCall (hw : WellFormed s) (M : RawRows R F J)
    (c : DataCall R) : WellFormed (c.exec M s) := by
  unfold DataCall.exec
  split
  · exact hw
  · exact hw.exec _

theorem NoTtlRow.dataCall (hw : WellFormed s) (h : NoTtlRow s) {M : RawRows R F J}
    {c : DataCall R} (hclear : c.Clear M s) : NoTtlRow (c.exec M s) := by
  unfold DataCall.exec
  split
  · exact h
  · next call hcall => exact h.exec hw (hclear call hcall)

theorem NoTtlRow.runDataCalls (hw : WellFormed s) (h : NoTtlRow s)
    {M : RawRows R F J} {cs : List (DataCall R)} (hclear : RunClear M s cs) :
    WellFormed (runDataCalls M s cs) ∧ NoTtlRow (runDataCalls M s cs) := by
  induction cs generalizing s with
  | nil => exact ⟨hw, h⟩
  | cons c cs ih => exact ih (hw.dataCall M c) (h.dataCall hw hclear.1) hclear.2

/-! ## Soundness -/

omit [Inhabited J] in
/-- What `expire_data` deletes has a TTL row and an expiry that is not beyond the clock. -/
theorem mem_expiredCandsData_cases (hw : WellFormed s) {nowTime : ℕ}
    {c : CandidateData F J} (h : c ∈ expiredCandsData s nowTime) :
    candOf s c.label = some c ∧ HasTtlRow s c.label ∧ c.expireNsTs ≤ nowTime := by
  rw [expiredCandsData, List.mem_filter, read_eq] at h
  obtain ⟨hmem, hexp⟩ := h
  simp only [List.mem_filterMap, List.mem_map] at hmem
  obtain ⟨_, ⟨text, ⟨⟨k, r⟩, hrow, htext⟩, rfl⟩, hc⟩ := hmem
  rw [ttlKvList, beginToSeek_eq] at hrow
  obtain ⟨hk, -, -⟩ := SortedMap.mem_range.1 hrow
  obtain ⟨n, label, rfl, -⟩ := hw.ttl hk
  obtain rfl : toString label = text := by simpa using htext
  have hcand : candOf s label = some c := hc
  obtain rfl := hw.label_eq hcand
  exact ⟨hcand, (hasTtlRow_iff hw).2 ⟨k, hk⟩, by simpa using hexp⟩

omit [Inhabited J] in
theorem noTtlRow_empty : NoTtlRow (SortedMap.empty : Store F J) := by
  intro label c hc
  simp [candOf] at hc

/-- **Records that must not expire are kept.**  In every run of upserts, updates, deletes and clean-ups
whose writes without a TTL go to labels that no TTL row names, `expire_data` at any time keeps every
record without expiry and every record whose expiry is yet to come. -/
theorem expireData_sound (M : RawRows R F J) (cs : List (DataCall R))
    (hclear : RunClear M SortedMap.empty cs) (nowTime baseTs label : ℕ) (c : CandidateData F J)
    (hlive : candOf (runDataCalls M SortedMap.empty cs) label = some c)
    (hkeep : c.expireNsTs = 0 ∨ nowTime < c.expireNsTs) :
    candOf (expireData (runDataCalls M SortedMap.empty cs) nowTime baseTs).1 label = some c := by
  obtain ⟨hw, hinv⟩ := noTtlRow_empty.runDataCalls wellFormed_empty hclear
  rw [candOf_expireData, if_neg, hlive]
  rintro ⟨c', hmem, rfl⟩
  obtain ⟨hcand, hrow, hexp⟩ := mem_expiredCandsData_cases hw hmem
  obtain rfl : c' = c := Option.some.inj (hcand.symm.trans hlive)
  rcases hkeep with hzero | hfuture
  · exact hinv _ _ hcand hzero hrow
  · omega

/-- Rows of a label and a text; a merge appends the texts. -/
def sampleRaw : RawRows (ℕ × String) ℕ String where
  label := Prod.fst
  validate := some
  toCand r := sampleCand r.1 r.2 0
  ofCand c := (c.label, c.fields)
  merge old raw := (raw.1, old.2 ++ raw.2)

def sampleClock (ts : ℕ) : WriteClock := ⟨fun _ => ts, ts, ts⟩

/-- A record with a TTL, and another one without, which is updated. -/
def clearRun : List (DataCall (ℕ × String)) :=
  [.upsertData [(1, "a")] 2 true (sampleClock 1700000000000000000),
    .upsertData [(2, "b")] 0 true (sampleClock 1700000000000000010),
    .updateData [(2, "c")] true (sampleClock 1700000000000000020)]

theorem expireData_sound_clearRun :
    candOf (expireData (runDataCalls sampleRaw SortedMap.empty clearRun) 1700000003000000000
      1700000003000000001).1 2 = some (sampleCand 2 "bc" 0) :=
  expireData_sound sampleRaw clearRun (by decide +kernel) 1700000003000000000 _ 2 _
    (by decide +kernel) (.inl rfl)

/-- A record with a TTL is updated, which takes its TTL away. -/
def staleRowRun : List (DataCall (ℕ × String)) :=
  [.upsertData [(1, "a")] 1 true (sampleClock 1700000000000000000),
    .updateData [(1, "b")] true (sampleClock 1700000000000000010)]

/-- The record has no expiry any more, but the TTL row of its first write is still there: the clean-up
deletes the record. -/
theorem expireData_staleRowRun :
    candOf (runDataCalls sampleRaw SortedMap.empty staleRowRun) 1 = some (sampleCand 1 "ab" 0) ∧
      candOf (expireData (runDataCalls sampleRaw SortedMap.empty staleRowRun) 1700000002000000000
        1700000002000000001).1 1 = none := by
  decide +kernel

end OpenViking.VectorDB
