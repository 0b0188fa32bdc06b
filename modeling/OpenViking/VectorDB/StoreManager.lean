import OpenViking.VectorDB.Store

/-!
# The store manager

A model of `StoreManager` (`vectordb/store/store_manager.py`): the candidates, the delta log and
the TTL table over one store.  `F` is the type of the vector components and `J` that of the
serialized scalar fields, `default` being the empty text `""`.

Each reading of `time.time_ns()` is an argument of the operation that makes it.
-/

namespace OpenViking.VectorDB

variable {F J : Type}

/-! ## Rows -/

/-- `CandidateData` (`vectordb/store/data.py`). -/
structure CandidateData (F J : Type) where
  label : ℕ
  vector : List F
  sparseRawTerms : List String
  sparseValues : List F
  fields : J
  expireNsTs : ℕ
  deriving DecidableEq, Repr

/-- `DeltaRecord.Type`. -/
inductive DeltaType where
  | upsert
  | delete
  deriving DecidableEq, Repr

/-- `DeltaRecord` (`vectordb/store/data.py`). -/
structure DeltaRecord (F J : Type) where
  type : DeltaType
  label : ℕ
  vector : List F
  sparseRawTerms : List String
  sparseValues : List F
  fields : J
  oldFields : J
  deriving DecidableEq, Repr

/-- A row of the store, decoded.  A TTL row is the text of the label. -/
inductive Row (F J : Type) where
  | cand (data : CandidateData F J)
  | delta (data : DeltaRecord F J)
  | ttl (label : String)
  deriving DecidableEq, Repr

/-- `CandidateData.from_bytes`. -/
def Row.cand? : Row F J → Option (CandidateData F J)
  | .cand c => some c
  | _ => none

/-- `DeltaRecord.from_bytes`. -/
def Row.delta? : Row F J → Option (DeltaRecord F J)
  | .delta d => some d
  | _ => none

/-- `data.decode("utf-8")` of a TTL row. -/
def Row.ttl? : Row F J → Option String
  | .ttl l => some l
  | _ => none

@[simp] theorem Row.cand?_cand (c : CandidateData F J) : (Row.cand c).cand? = some c := rfl

@[simp] theorem Row.delta?_delta (d : DeltaRecord F J) : (Row.delta d).delta? = some d := rfl

@[simp] theorem Row.ttl?_ttl (l : String) : (Row.ttl l : Row F J).ttl? = some l := rfl

/-- A row with a one-component vector, for concrete runs. -/
def sampleCand (label : ℕ) (fields : String) (expireNsTs : ℕ) : CandidateData ℕ String :=
  { label := label, vector := [label], sparseRawTerms := [], sparseValues := [], fields := fields,
    expireNsTs := expireNsTs }

abbrev Store (F J : Type) := StoreEngine (Row F J)

/-! ## Operations -/

/-- The candidate stored under the label. -/
def candOf (s : Store F J) (label : ℕ) : Option (CandidateData F J) :=
  ((table .candidates s).get (toString label)).bind Row.cand?

/-- The `fields` of the rows read for `labels`, `""` where there is none (70-84, 145-158). -/
def readOldFields [Inhabited J] (s : Store F J) (labels : List ℕ) : List J :=
  (read s (labels.map toString) .candidates).map fun bytesData =>
    ((bytesData.bind Row.cand?).map CandidateData.fields).getD default

/-- The UPSERT record of a row (85-92). -/
def upsertRecord (c : CandidateData F J) (oldFields : J) : DeltaRecord F J :=
  { type := .upsert, label := c.label, vector := c.vector, sparseRawTerms := c.sparseRawTerms,
    sparseValues := c.sparseValues, fields := c.fields, oldFields := oldFields }

/-- A DELETE record: all but the label and the old fields keep their defaults. -/
def deleteRecord [Inhabited J] (label : ℕ) (oldFields : J) : DeltaRecord F J :=
  { type := .delete, label := label, vector := [], sparseRawTerms := [], sparseValues := [],
    fields := default, oldFields := oldFields }

/-- The batch that logs `deltaList` under the keys `base_ts + i` (94-101, 162-169, 330-338). -/
def deltaBatch (baseTs : ℕ) (deltaList : List (DeltaRecord F J)) : BatchOp (Row F J) :=
  { table := .delta
    ops := deltaList.mapIdx fun i d => (toString (baseTs + i), .put (.delta d)) }

/-- The rows with their expiry: `expire_ns` for all of them when there is a TTL (103-106). -/
def stampExpire (candsList : List (CandidateData F J)) (ttl nowTs : ℕ) :
    List (CandidateData F J) :=
  if ttl > 0 then candsList.map fun c => { c with expireNsTs := nowTs + ttl * 1000000000 }
  else candsList

/-- The write of `add_cands_data`: the delta list, the rows and their TTL rows in one engine call
(94-126). -/
def putCandsData (s : Store F J) (candsList : List (CandidateData F J))
    (deltaList : List (DeltaRecord F J)) (ttl : ℕ) (needDelta : Bool) (baseTs nowTs : ℕ) :
    Store F J :=
  let cands := stampExpire candsList ttl nowTs
  let candsBatch : BatchOp (Row F J) :=
    { table := .candidates, ops := cands.map fun c => (toString c.label, .put (.cand c)) }
  let ttlBatch : BatchOp (Row F J) :=
    { table := .ttl
      ops := cands.map fun c => (toString c.expireNsTs, .put (.ttl (toString c.label))) }
  execSequenceBatchOp s <|
    (if needDelta then [deltaBatch baseTs deltaList] else []) ++ [candsBatch] ++
      (if ttl > 0 then [ttlBatch] else [])

/-- The delta list of `add_cands_data`, from the rows it reads (70-92). -/
def upsertDeltaList [Inhabited J] (s : Store F J) (candsList : List (CandidateData F J))
    (needDelta : Bool) : List (DeltaRecord F J) :=
  if needDelta then
    List.zipWith upsertRecord candsList (readOldFields s (candsList.map CandidateData.label))
  else []

/-- `StoreManager.add_cands_data`.  `baseTs` is the clock at line 94, `nowTs` at line 104. -/
def addCandsData [Inhabited J] (s : Store F J) (candsList : List (CandidateData F J)) (ttl : ℕ)
    (needDelta : Bool) (baseTs nowTs : ℕ) : Store F J × List (DeltaRecord F J) :=
  let deltaList := upsertDeltaList s candsList needDelta
  (putCandsData s candsList deltaList ttl needDelta baseTs nowTs, deltaList)

/-- The write of `delete_data` (161-179). -/
def dropData (s : Store F J) (labelList : List ℕ) (deltaList : List (DeltaRecord F J))
    (needRecordDelta : Bool) (baseTs : ℕ) : Store F J :=
  let candsBatch : BatchOp (Row F J) :=
    { table := .candidates, ops := labelList.map fun label => (toString label, .del) }
  execSequenceBatchOp s <|
    (if needRecordDelta then [deltaBatch baseTs deltaList] else []) ++ [candsBatch]

/-- The delta list of `delete_data` (144-160). -/
def deleteDeltaList [Inhabited J] (s : Store F J) (labelList : List ℕ) (needRecordDelta : Bool) :
    List (DeltaRecord F J) :=
  if needRecordDelta then List.zipWith deleteRecord labelList (readOldFields s labelList) else []

/-- `StoreManager.delete_data`. -/
def deleteData [Inhabited J] (s : Store F J) (labelList : List ℕ) (needRecordDelta : Bool)
    (baseTs : ℕ) : Store F J × List (DeltaRecord F J) :=
  let deltaList := deleteDeltaList s labelList needRecordDelta
  (dropData s labelList deltaList needRecordDelta baseTs, deltaList)

/-- `StoreManager.iter_all_cands_data`, as a list: every candidate in key order. -/
def getAllCandsData (s : Store F J) : List (CandidateData F J) :=
  (readAll s .candidates).filterMap fun kv => kv.2.cand?

/-- `StoreManager.get_delta_data_after_ts`. -/
def getDeltaDataAfterTs (s : Store F J) (nsTs : ℕ) : List (DeltaRecord F J) :=
  (seekToEnd s (toString nsTs) .delta).filterMap fun kv => kv.2.delta?

/-- `StoreManager.delete_delta_data_before_ts`. -/
def deleteDeltaDataBeforeTs (s : Store F J) (nsTs : ℕ) : Store F J × List (DeltaRecord F J) :=
  let deltaKvList := beginToSeek s (toString nsTs) .delta
  (deleteKeys s (deltaKvList.map Prod.fst) .delta, deltaKvList.filterMap fun kv => kv.2.delta?)

/-- The TTL rows that `expire_data` visits at `nowTime` (284-288). -/
def ttlKvList (s : Store F J) (nowTime : ℕ) : List (String × Row F J) :=
  beginToSeek s (toString nowTime) .ttl

/-- The candidates `expire_data` deletes at `nowTime` (290-313). -/
def expiredCandsData (s : Store F J) (nowTime : ℕ) : List (CandidateData F J) :=
  let labelList := (ttlKvList s nowTime).filterMap fun kv => kv.2.ttl?
  ((read s labelList .candidates).filterMap fun byteData => byteData.bind Row.cand?).filter
    fun c => c.expireNsTs ≤ nowTime

/-- `StoreManager.expire_data`.  `nowTime` is the clock at line 284, `baseTs` at line 330. -/
def expireData [Inhabited J] (s : Store F J) (nowTime baseTs : ℕ) :
    Store F J × List (DeltaRecord F J) :=
  let expired := expiredCandsData s nowTime
  let deltaList := expired.map fun c => deleteRecord c.label c.fields
  let candsBatch : BatchOp (Row F J) :=
    { table := .candidates, ops := expired.map fun c => (toString c.label, .del) }
  let ttlBatch : BatchOp (Row F J) :=
    { table := .ttl, ops := (ttlKvList s nowTime).map fun kv => (kv.1, .del) }
  let batchOpList :=
    (if expired = [] then [] else [candsBatch, deltaBatch baseTs deltaList]) ++
      (if ttlKvList s nowTime = [] then [] else [ttlBatch])
  (execSequenceBatchOp s batchOpList, deltaList)

/-! ## What an operation does to each table -/

/-- The delta table after `deltaList` is logged at `baseTs`. -/
def logDelta (m : SortedMap String (Row F J)) (baseTs : ℕ) (deltaList : List (DeltaRecord F J)) :
    SortedMap String (Row F J) :=
  (deltaBatch baseTs deltaList).ops.foldl applyOp m

@[simp] theorem logDelta_nil (m : SortedMap String (Row F J)) (baseTs : ℕ) : logDelta m baseTs [] = m :=
  rfl

theorem table_delta_putCandsData (s : Store F J) (cands : List (CandidateData F J))
    (ds : List (DeltaRecord F J)) (ttl : ℕ) (needDelta : Bool) (baseTs nowTs : ℕ) :
    table .delta (putCandsData s cands ds ttl needDelta baseTs nowTs) =
      logDelta (table .delta s) baseTs (if needDelta then ds else []) := by
  rw [putCandsData, table_execSequenceBatchOp]
  cases needDelta <;> by_cases h : ttl > 0 <;> simp [h, logDelta, deltaBatch]

theorem table_delta_dropData (s : Store F J) (labels : List ℕ) (ds : List (DeltaRecord F J))
    (needDelta : Bool) (baseTs : ℕ) :
    table .delta (dropData s labels ds needDelta baseTs) =
      logDelta (table .delta s) baseTs (if needDelta then ds else []) := by
  rw [dropData, table_execSequenceBatchOp]
  cases needDelta <;> simp [logDelta, deltaBatch]

theorem table_candidates_putCandsData (s : Store F J) (cands : List (CandidateData F J))
    (ds : List (DeltaRecord F J)) (ttl : ℕ) (needDelta : Bool) (baseTs nowTs : ℕ) (k : String) :
    (table .candidates (putCandsData s cands ds ttl needDelta baseTs nowTs)).get k =
      (((stampExpire cands ttl nowTs).reverse.find? fun c => toString c.label = k).map
        Row.cand).or ((table .candidates s).get k) := by
  rw [putCandsData, table_execSequenceBatchOp, ← get_foldl_put]
  cases needDelta <;> by_cases h : ttl > 0 <;> simp [h, deltaBatch]

theorem table_candidates_dropData (s : Store F J) (labels : List ℕ) (ds : List (DeltaRecord F J))
    (needDelta : Bool) (baseTs : ℕ) (k : String) :
    (table .candidates (dropData s labels ds needDelta baseTs)).get k =
      if ∃ label ∈ labels, toString label = k then none
      else (table .candidates s).get k := by
  rw [dropData, table_execSequenceBatchOp, ← get_foldl_del]
  cases needDelta <;> simp [deltaBatch]

theorem table_ttl_putCandsData (s : Store F J) (cands : List (CandidateData F J))
    (ds : List (DeltaRecord F J)) (ttl : ℕ) (needDelta : Bool) (baseTs nowTs : ℕ) (k : String) :
    (table .ttl (putCandsData s cands ds ttl needDelta baseTs nowTs)).get k =
      if ttl > 0 then
        (((stampExpire cands ttl nowTs).reverse.find? fun c => toString c.expireNsTs = k).map
          fun c => Row.ttl (toString c.label)).or ((table .ttl s).get k)
      else (table .ttl s).get k := by
  rw [putCandsData, table_execSequenceBatchOp, ← get_foldl_put]
  cases needDelta <;> by_cases h : ttl > 0 <;> simp [h, deltaBatch]

theorem table_ttl_dropData (s : Store F J) (labels : List ℕ) (ds : List (DeltaRecord F J))
    (needDelta : Bool) (baseTs : ℕ) :
    table .ttl (dropData s labels ds needDelta baseTs) = table .ttl s := by
  rw [dropData, table_execSequenceBatchOp]
  cases needDelta <;> simp [deltaBatch]

theorem toString_inj {a b : ℕ} : toString a = toString b ↔ a = b :=
  Decimal.toString_injective.eq_iff

variable {c : CandidateData F J}

theorem mem_stampExpire_label {cands : List (CandidateData F J)} {ttl nowTs : ℕ}
    (h : c ∈ stampExpire cands ttl nowTs) : c.label ∈ cands.map CandidateData.label := by
  unfold stampExpire at h
  split_ifs at h
  · obtain ⟨c', hc', rfl⟩ := List.mem_map.1 h
    exact List.mem_map.2 ⟨c', hc', rfl⟩
  · exact List.mem_map_of_mem h

theorem find_stampExpire_of_not_mem {cands : List (CandidateData F J)} {ttl nowTs label : ℕ}
    (h : label ∉ cands.map CandidateData.label) :
    (stampExpire cands ttl nowTs).reverse.find? (fun c => c.label = label) = none := by
  rw [List.find?_eq_none]
  intro c hc
  have hlabel := mem_stampExpire_label (List.mem_reverse.1 hc)
  simp only [decide_eq_true_eq]
  rintro rfl
  exact h hlabel

theorem candOf_putCandsData (s : Store F J) (cands : List (CandidateData F J))
    (ds : List (DeltaRecord F J)) (ttl : ℕ) (needDelta : Bool) (baseTs nowTs label : ℕ) :
    candOf (putCandsData s cands ds ttl needDelta baseTs nowTs) label =
      ((stampExpire cands ttl nowTs).reverse.find? fun c => c.label = label).or
        (candOf s label) := by
  rw [candOf, table_candidates_putCandsData, candOf]
  simp only [toString_inj]
  cases (stampExpire cands ttl nowTs).reverse.find? fun c => c.label = label <;> rfl

theorem candOf_dropData (s : Store F J) (labels : List ℕ) (ds : List (DeltaRecord F J))
    (needDelta : Bool) (baseTs label : ℕ) :
    candOf (dropData s labels ds needDelta baseTs) label =
      if label ∈ labels then none else candOf s label := by
  rw [candOf, table_candidates_dropData, candOf]
  simp only [toString_inj, exists_eq_right]
  split_ifs <;> rfl

variable [Inhabited J]

theorem readOldFields_eq (s : Store F J) (labels : List ℕ) :
    readOldFields s labels =
      labels.map fun label => ((candOf s label).map CandidateData.fields).getD default := by
  simp [readOldFields, read_eq, candOf, Function.comp_def]

theorem addCandsData_fst (s : Store F J) (cands : List (CandidateData F J)) (ttl : ℕ)
    (needDelta : Bool) (baseTs nowTs : ℕ) :
    (addCandsData s cands ttl needDelta baseTs nowTs).1 =
      putCandsData s cands (upsertDeltaList s cands needDelta) ttl needDelta baseTs nowTs := rfl

theorem deleteData_fst (s : Store F J) (labels : List ℕ) (needDelta : Bool) (baseTs : ℕ) :
    (deleteData s labels needDelta baseTs).1 =
      dropData s labels (deleteDeltaList s labels needDelta) needDelta baseTs := rfl

theorem addCandsData_snd (s : Store F J) (cands : List (CandidateData F J)) (ttl : ℕ)
    (needDelta : Bool) (baseTs nowTs : ℕ) :
    (addCandsData s cands ttl needDelta baseTs nowTs).2 =
      if needDelta then
        cands.map fun c =>
          upsertRecord c (((candOf s c.label).map CandidateData.fields).getD default)
      else [] := by
  simp only [addCandsData, upsertDeltaList, readOldFields_eq, List.map_map,
    List.zipWith_map_right]
  rw [List.zipWith_self]
  rfl

theorem deleteData_snd (s : Store F J) (labels : List ℕ) (needDelta : Bool) (baseTs : ℕ) :
    (deleteData s labels needDelta baseTs).2 =
      if needDelta then
        labels.map fun label =>
          deleteRecord label (((candOf s label).map CandidateData.fields).getD default)
      else [] := by
  simp only [deleteData, deleteDeltaList, readOldFields_eq, List.zipWith_map_right]
  rw [List.zipWith_self]

theorem table_delta_addCandsData (s : Store F J) (cands : List (CandidateData F J)) (ttl : ℕ)
    (needDelta : Bool) (baseTs nowTs : ℕ) :
    table .delta (addCandsData s cands ttl needDelta baseTs nowTs).1 =
      logDelta (table .delta s) baseTs (addCandsData s cands ttl needDelta baseTs nowTs).2 := by
  rw [addCandsData, table_delta_putCandsData]
  cases needDelta <;> rfl

theorem table_delta_deleteData (s : Store F J) (labels : List ℕ) (needDelta : Bool) (baseTs : ℕ) :
    table .delta (deleteData s labels needDelta baseTs).1 =
      logDelta (table .delta s) baseTs (deleteData s labels needDelta baseTs).2 := by
  rw [deleteData, table_delta_dropData]
  cases needDelta <;> rfl

theorem table_delta_expireData (s : Store F J) (nowTime baseTs : ℕ) :
    table .delta (expireData s nowTime baseTs).1 =
      logDelta (table .delta s) baseTs (expireData s nowTime baseTs).2 := by
  rw [expireData, table_execSequenceBatchOp]
  by_cases h : expiredCandsData s nowTime = [] <;> by_cases h' : ttlKvList s nowTime = [] <;>
    simp [h, h', logDelta, deltaBatch]

theorem table_candidates_expireData (s : Store F J) (nowTime baseTs : ℕ) (k : String) :
    (table .candidates (expireData s nowTime baseTs).1).get k =
      if ∃ c ∈ expiredCandsData s nowTime, toString c.label = k then none
      else (table .candidates s).get k := by
  rw [expireData, table_execSequenceBatchOp, ← get_foldl_del]
  by_cases h : expiredCandsData s nowTime = [] <;> by_cases h' : ttlKvList s nowTime = [] <;>
    simp [h, h', deltaBatch]

theorem table_ttl_expireData (s : Store F J) (nowTime baseTs : ℕ) (k : String) :
    (table .ttl (expireData s nowTime baseTs).1).get k =
      if ∃ kv ∈ ttlKvList s nowTime, kv.1 = k then none else (table .ttl s).get k := by
  rw [expireData, table_execSequenceBatchOp, ← get_foldl_del]
  by_cases h : expiredCandsData s nowTime = [] <;> by_cases h' : ttlKvList s nowTime = [] <;>
    simp [h, h', deltaBatch]

/-! ## Candidates by label -/

theorem candOf_addCandsData (s : Store F J) (cands : List (CandidateData F J)) (ttl : ℕ)
    (needDelta : Bool) (baseTs nowTs label : ℕ) :
    candOf (addCandsData s cands ttl needDelta baseTs nowTs).1 label =
      ((stampExpire cands ttl nowTs).reverse.find? fun c => c.label = label).or
        (candOf s label) :=
  candOf_putCandsData s cands _ ttl needDelta baseTs nowTs label

theorem candOf_deleteData (s : Store F J) (labels : List ℕ) (needDelta : Bool) (baseTs label : ℕ) :
    candOf (deleteData s labels needDelta baseTs).1 label =
      if label ∈ labels then none else candOf s label :=
  candOf_dropData s labels _ needDelta baseTs label

theorem candOf_expireData (s : Store F J) (nowTime baseTs label : ℕ) :
    candOf (expireData s nowTime baseTs).1 label =
      if ∃ c ∈ expiredCandsData s nowTime, c.label = label then none else candOf s label := by
  rw [candOf, table_candidates_expireData, candOf]
  simp only [toString_inj]
  split_ifs <;> rfl

/-! ## Calls and runs -/

/-- A call of the store manager with the clock readings it makes. -/
inductive StoreCall (F J : Type) where
  | addCandsData (candsList : List (CandidateData F J)) (ttl : ℕ) (needDelta : Bool)
      (baseTs nowTs : ℕ)
  | deleteData (labelList : List ℕ) (needRecordDelta : Bool) (baseTs : ℕ)
  | expireData (nowTime baseTs : ℕ)

/-- The store after a call, and the delta list it returns. -/
def StoreCall.exec (s : Store F J) : StoreCall F J → Store F J × List (DeltaRecord F J)
  | .addCandsData cands ttl needDelta baseTs nowTs =>
    VectorDB.addCandsData s cands ttl needDelta baseTs nowTs
  | .deleteData labels needDelta baseTs => VectorDB.deleteData s labels needDelta baseTs
  | .expireData nowTime baseTs => VectorDB.expireData s nowTime baseTs

/-- The clock reading that keys the call's delta records. -/
def StoreCall.baseTs : StoreCall F J → ℕ
  | .addCandsData _ _ _ baseTs _ => baseTs
  | .deleteData _ _ baseTs => baseTs
  | .expireData _ baseTs => baseTs

/-- All clock readings of a call, in order. -/
def StoreCall.clockReadings (s : Store F J) : StoreCall F J → List ℕ
  | .addCandsData _ ttl needDelta baseTs nowTs =>
    (if needDelta then [baseTs] else []) ++ (if ttl > 0 then [nowTs] else [])
  | .deleteData _ needDelta baseTs => if needDelta then [baseTs] else []
  | .expireData nowTime baseTs =>
    nowTime :: (if expiredCandsData s nowTime = [] then [] else [baseTs])

/-- The store after a sequence of calls. -/
def runCalls (s : Store F J) : List (StoreCall F J) → Store F J
  | [] => s
  | c :: cs => runCalls (c.exec s).1 cs

/-- All clock readings of a sequence of calls. -/
def runClock (s : Store F J) : List (StoreCall F J) → List ℕ
  | [] => []
  | c :: cs => c.clockReadings s ++ runClock (c.exec s).1 cs

theorem table_delta_exec (s : Store F J) (c : StoreCall F J) :
    table .delta (c.exec s).1 = logDelta (table .delta s) c.baseTs (c.exec s).2 := by
  cases c with
  | addCandsData cands ttl needDelta baseTs nowTs => exact table_delta_addCandsData ..
  | deleteData labels needDelta baseTs => exact table_delta_deleteData ..
  | expireData nowTime baseTs => exact table_delta_expireData ..

/-! ## Well-formed stores -/

/-- Every table holds rows of its own kind, under the keys the manager writes. -/
structure WellFormed (s : Store F J) : Prop where
  cands : ∀ {k r}, (table .candidates s).get k = some r → ∃ c, r = .cand c ∧ k = toString c.label
  delta : ∀ {k r}, (table .delta s).get k = some r → ∃ n d, r = .delta d ∧ k = toString (n : ℕ)
  ttl : ∀ {k r}, (table .ttl s).get k = some r →
    ∃ n label, r = .ttl (toString (label : ℕ)) ∧ k = toString (n : ℕ)

omit [Inhabited J] in
theorem wellFormed_empty : WellFormed (SortedMap.empty : Store F J) := by
  constructor <;> intro k r h <;> simp at h

omit [Inhabited J] in
theorem logDelta_keys {m : SortedMap String (Row F J)}
    (hm : ∀ {k r}, m.get k = some r → ∃ n d, r = .delta d ∧ k = toString (n : ℕ))
    (baseTs : ℕ) (ds : List (DeltaRecord F J)) {k : String} {r : Row F J}
    (h : (logDelta m baseTs ds).get k = some r) : ∃ n d, r = .delta d ∧ k = toString (n : ℕ) := by
  have hl : logDelta m baseTs ds = (ds.zipIdx.map fun x =>
      (toString (baseTs + x.2), OpType.put (Row.delta x.1))).foldl applyOp m := by
    rw [logDelta, deltaBatch, List.mapIdx_eq_zipIdx_map]
  rw [hl, get_foldl_put] at h
  cases hf : ds.zipIdx.reverse.find? (fun x => toString (baseTs + x.2) = k) with
  | none =>
    rw [hf] at h
    exact hm (by simpa using h)
  | some x =>
    rw [hf] at h
    have hk := List.find?_some hf
    exact ⟨baseTs + x.2, x.1, by simpa using h.symm, by simpa using Eq.symm (of_decide_eq_true hk)⟩

variable {s : Store F J}

omit [Inhabited J] in
theorem WellFormed.label_eq (h : WellFormed s) {label : ℕ}
    (hc : candOf s label = some c) : c.label = label := by
  obtain ⟨r, hr, hrc⟩ := Option.bind_eq_some_iff.1 hc
  obtain ⟨c', rfl, hk⟩ := h.cands hr
  obtain rfl : c' = c := by simpa using hrc
  exact (toString_inj.1 hk).symm

omit [Inhabited J] in
/-- The candidates listed are those stored. -/
theorem WellFormed.mem_getAllCandsData (h : WellFormed s)
    : c ∈ getAllCandsData s ↔ candOf s c.label = some c := by
  rw [getAllCandsData, readAll_eq, List.mem_filterMap, candOf, Option.bind_eq_some_iff]
  constructor
  · rintro ⟨⟨k, r⟩, hm, hr⟩
    obtain ⟨hk, -, -⟩ := SortedMap.mem_range.1 hm
    obtain ⟨c', rfl, rfl⟩ := h.cands hk
    obtain rfl : c' = c := by simpa using hr
    exact ⟨_, hk, rfl⟩
  · rintro ⟨r, hr, hrc⟩
    refine ⟨(toString c.label, r), SortedMap.mem_range.2 ⟨hr, ?_, ?_⟩, hrc⟩
    · exact empty_le _
    · exact Decimal.toString_lt_max _ (by decide)

omit [Inhabited J] in
theorem WellFormed.putCandsData (h : WellFormed s)
    (cands : List (CandidateData F J)) (ds : List (DeltaRecord F J)) (ttl : ℕ) (needDelta : Bool)
    (baseTs nowTs : ℕ) : WellFormed (putCandsData s cands ds ttl needDelta baseTs nowTs) where
  cands := by
    intro k r hr
    rw [table_candidates_putCandsData] at hr
    cases hf : (stampExpire cands ttl nowTs).reverse.find? (fun c => toString c.label = k) with
    | none =>
      rw [hf] at hr
      exact h.cands (by simpa using hr)
    | some c =>
      rw [hf] at hr
      have hk := List.find?_some hf
      exact ⟨c, by simpa using hr.symm, by simpa using Eq.symm (of_decide_eq_true hk)⟩
  delta := by
    intro k r hr
    rw [table_delta_putCandsData] at hr
    exact logDelta_keys h.delta _ _ hr
  ttl := by
    intro k r hr
    rw [table_ttl_putCandsData] at hr
    split_ifs at hr with httl
    · cases hf : (stampExpire cands ttl nowTs).reverse.find?
          (fun c => toString c.expireNsTs = k) with
      | none =>
        rw [hf] at hr
        exact h.ttl (by simpa using hr)
      | some c =>
        rw [hf] at hr
        have hk := List.find?_some hf
        exact ⟨c.expireNsTs, c.label, by simpa using hr.symm,
          by simpa using Eq.symm (of_decide_eq_true hk)⟩
    · exact h.ttl hr

omit [Inhabited J] in
theorem WellFormed.dropData (h : WellFormed s) (labels : List ℕ)
    (ds : List (DeltaRecord F J)) (needDelta : Bool) (baseTs : ℕ) :
    WellFormed (dropData s labels ds needDelta baseTs) where
  cands := by
    intro k r hr
    rw [table_candidates_dropData] at hr
    split_ifs at hr
    exact h.cands hr
  delta := by
    intro k r hr
    rw [table_delta_dropData] at hr
    exact logDelta_keys h.delta _ _ hr
  ttl := by
    intro k r hr
    rw [table_ttl_dropData] at hr
    exact h.ttl hr

theorem WellFormed.exec (h : WellFormed s) (c : StoreCall F J) : WellFormed (c.exec s).1 := by
  cases c with
  | addCandsData cands ttl needDelta baseTs nowTs =>
    exact h.putCandsData cands _ ttl needDelta baseTs nowTs
  | deleteData labels needDelta baseTs => exact h.dropData labels _ needDelta baseTs
  | expireData nowTime baseTs =>
    constructor
    · intro k r hr
      rw [StoreCall.exec, table_candidates_expireData] at hr
      split_ifs at hr
      exact h.cands hr
    · intro k r hr
      rw [table_delta_exec] at hr
      exact logDelta_keys h.delta _ _ hr
    · intro k r hr
      rw [StoreCall.exec, table_ttl_expireData] at hr
      split_ifs at hr
      exact h.ttl hr

/-- Every store the manager builds is well-formed. -/
theorem WellFormed.runCalls (h : WellFormed s) (cs : List (StoreCall F J)) :
    WellFormed (runCalls s cs) := by
  induction cs generalizing s with
  | nil => exact h
  | cons c cs ih => exact ih (h.exec c)

end OpenViking.VectorDB
