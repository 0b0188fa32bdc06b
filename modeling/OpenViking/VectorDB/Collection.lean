import OpenViking.Common.System
import OpenViking.VectorDB.Index

/-!
# The collection: store and index together

A model of the mutations of `LocalCollection` (`vectordb/collection/local_collection.py`) on a
collection with one index: the store is written first and returns the delta list, which is then
applied to the index.

`old_fields` of the delta list is read from the store once for the whole batch.  With a label
repeated in the batch, the rows after the first one therefore clear the keys of the row before the
batch, not those of the row that they replace.  Results:

* `KeysMirror.upsert`, `KeysMirror.delete`: when a batch keeps the index a mirror of the store;
* `index_mirrors_store`: it stays one over every run of such batches.
-/

namespace OpenViking.VectorDB

open IndexManager

variable {F E : Type}

theorem IndexConfig.keysOf_none (cfg : IndexConfig F E) (field : String) : cfg.keysOf none field = ∅ := by
  ext key
  have hnil : ScalarIndex.rowKeys (ScalarIndex.empty cfg.scalarFields).shape (cfg.strKvMap none)
      field = [] := ScalarIndex.rowKeys_of_entries_nil rfl field
  simp [keysOf, hnil]

/-! ## Rows of one label -/

/-- The last row of the batch with the label: the one the store keeps. -/
def lastRow (candsList : List (CandidateData F FieldsJson)) (label : ℕ) :
    Option (CandidateData F FieldsJson) :=
  candsList.reverse.find? fun c => c.label = label

/-- The fields of the label in the store before the batch. -/
def oldFieldsOf (s : Store F FieldsJson) (label : ℕ) : FieldsJson :=
  ((candOf s label).map CandidateData.fields).getD none

/-- The rows of a batch are covered: every key of every row is a key of the label's row before the
batch, or one of its last row in the batch. -/
def BatchCovered (cfg : IndexConfig F E) (s : Store F FieldsJson)
    (candsList : List (CandidateData F FieldsJson)) : Prop :=
  ∀ c ∈ candsList, ∀ last, lastRow candsList c.label = some last → ∀ field,
    cfg.keysOf c.fields field ⊆
      cfg.keysOf (oldFieldsOf s c.label) field ∪ cfg.keysOf last.fields field

/-- A batch without repeated labels is covered. -/
theorem batchCovered_of_nodup (cfg : IndexConfig F E) (s : Store F FieldsJson)
    {candsList : List (CandidateData F FieldsJson)}
    (h : (candsList.map CandidateData.label).Nodup) : BatchCovered cfg s candsList := by
  intro c hc last hlast field
  have hmem : last ∈ candsList := List.mem_reverse.1 (List.mem_of_find?_eq_some hlast)
  have hlabel : last.label = c.label := by simpa using List.find?_some hlast
  obtain rfl : last = c := List.inj_on_of_nodup_map h hmem hc hlabel
  exact Set.subset_union_right

/-! ## The content after a batch -/

/-- The records of the rows of a batch. -/
def upsertRecords (s : Store F FieldsJson) (candsList : List (CandidateData F FieldsJson)) :
    List (DeltaRecord F FieldsJson) :=
  candsList.map fun c => upsertRecord c (oldFieldsOf s c.label)

theorem upsertContent_concat (cfg : IndexConfig F E) (m : ℕ → Option (Entry F E))
    (ds : List (DeltaRecord F FieldsJson)) (d : DeltaRecord F FieldsJson) (label : ℕ) :
    upsertContent cfg m (ds ++ [d]) label =
      if label = d.label then some (upsertEntry cfg (upsertContent cfg m ds d.label) d)
      else upsertContent cfg m ds label := by
  simp only [upsertContent, List.foldl_append, List.foldl_cons, List.foldl_nil,
    Function.update_apply]

theorem lastRow_concat (cands : List (CandidateData F FieldsJson))
    (c : CandidateData F FieldsJson) (label : ℕ) :
    lastRow (cands ++ [c]) label = if c.label = label then some c else lastRow cands label := by
  simp only [lastRow, List.reverse_append, List.reverse_cons, List.reverse_nil, List.nil_append,
    List.cons_append, List.find?_cons]
  by_cases h : c.label = label <;> simp [h]

variable {cands : List (CandidateData F FieldsJson)}

theorem exists_lastRow
    {c : CandidateData F FieldsJson} (hc : c ∈ cands) : ∃ last, lastRow cands c.label = some last := by
  rw [← Option.isSome_iff_exists, lastRow, List.find?_isSome]
  exact ⟨c, List.mem_reverse.2 hc, by simp⟩

variable {label : ℕ}

/-- A label that is not in the batch keeps its entry. -/
theorem upsertContent_of_lastRow_eq_none (cfg : IndexConfig F E) (m : ℕ → Option (Entry F E))
    (s : Store F FieldsJson) (h : lastRow cands label = none) :
    upsertContent cfg m (upsertRecords s cands) label = m label := by
  induction cands using List.reverseRecOn with
  | nil => rfl
  | append_singleton cands c ih =>
    rw [lastRow_concat] at h
    split_ifs at h with hc
    rw [upsertRecords, List.map_append, List.map_singleton, upsertContent_concat]
    exact (if_neg (Ne.symm hc)).trans (ih h)

/-- The keys of an entry, none for a label that has no entry. -/
def entryKeys (e : Option (Entry F E)) (field : String) : Set String :=
  ((e.map Entry.keys).getD fun _ => ∅) field

@[simp] theorem entryKeys_some (e : Entry F E) : entryKeys (some e) = e.keys := rfl

/-- The keys of the batch's rows that the label's row before the batch did not have. -/
def newKeys (cfg : IndexConfig F E) (s : Store F FieldsJson)
    (cands : List (CandidateData F FieldsJson)) (label : ℕ) (field : String) : Set String :=
  {key | (∃ c ∈ cands, c.label = label ∧ key ∈ cfg.keysOf c.fields field) ∧
    key ∉ cfg.keysOf (oldFieldsOf s label) field}

theorem keys_upsertEntry (cfg : IndexConfig F E) (old : Option (Entry F E))
    (c : CandidateData F FieldsJson) (oldFields : FieldsJson) (field : String) :
    (upsertEntry cfg old (upsertRecord c oldFields)).keys field =
      (entryKeys old field \ cfg.keysOf oldFields field) ∪ cfg.keysOf c.fields field :=
  rfl

theorem newKeys_concat (cfg : IndexConfig F E) (s : Store F FieldsJson)
    (cands : List (CandidateData F FieldsJson)) (c : CandidateData F FieldsJson) (label : ℕ)
    (field : String) :
    newKeys cfg s (cands ++ [c]) label field =
      if c.label = label then
        newKeys cfg s cands label field ∪
          (cfg.keysOf c.fields field \ cfg.keysOf (oldFieldsOf s label) field)
      else newKeys cfg s cands label field := by
  ext key
  by_cases hc : c.label = label
  · simp [newKeys, hc, or_and_right, exists_or]
  · simp [newKeys, hc, or_and_right, exists_or]

theorem upsertContent_records_concat (cfg : IndexConfig F E) (m : ℕ → Option (Entry F E))
    (s : Store F FieldsJson) (cands : List (CandidateData F FieldsJson))
    (c : CandidateData F FieldsJson) (label : ℕ) :
    upsertContent cfg m (upsertRecords s (cands ++ [c])) label =
      if c.label = label then
        some (upsertEntry cfg (upsertContent cfg m (upsertRecords s cands) label)
          (upsertRecord c (oldFieldsOf s label)))
      else upsertContent cfg m (upsertRecords s cands) label := by
  rw [upsertRecords, List.map_append, List.map_singleton, upsertContent_concat]
  by_cases hc : c.label = label
  · subst hc
    rw [if_pos rfl]
    exact if_pos rfl
  · rw [if_neg hc]
    exact if_neg (Ne.symm hc)

variable {s : Store F FieldsJson} {m : ℕ → Option (Entry F E)}

/-- No row of the batch clears more than the keys before the batch. -/
theorem entryKeys_upsertContent_diff (cfg : IndexConfig F E) {field : String}
    (hm : entryKeys (m label) field ⊆ cfg.keysOf (oldFieldsOf s label) field)
    (cands : List (CandidateData F FieldsJson)) :
    entryKeys (upsertContent cfg m (upsertRecords s cands) label) field \
      cfg.keysOf (oldFieldsOf s label) field = newKeys cfg s cands label field := by
  induction cands using List.reverseRecOn with
  | nil =>
    have hnil : newKeys cfg s [] label field = ∅ := by simp [newKeys]
    rw [hnil]
    exact Set.sdiff_eq_empty.2 hm
  | append_singleton cands c ih =>
    rw [upsertContent_records_concat, newKeys_concat]
    split_ifs with hc
    · rw [entryKeys_some, keys_upsertEntry, ih, Set.union_sdiff_distrib, ← ih, Set.sdiff_sdiff,
        Set.union_self]
    · exact ih

variable {last : CandidateData F FieldsJson}

/-- The keys of a label after a batch that has it: those of its last row, and those of the other
rows that the row before the batch did not have. -/
theorem keys_upsertContent (cfg : IndexConfig F E) {field : String}
    (hm : entryKeys (m label) field ⊆ cfg.keysOf (oldFieldsOf s label) field)
    (hlast : lastRow cands label = some last) :
    entryKeys (upsertContent cfg m (upsertRecords s cands) label) field =
      cfg.keysOf last.fields field ∪ newKeys cfg s cands label field := by
  induction cands using List.reverseRecOn generalizing last with
  | nil => simp [lastRow] at hlast
  | append_singleton cands c ih =>
    rw [lastRow_concat] at hlast
    rw [upsertContent_records_concat, newKeys_concat]
    split_ifs at hlast ⊢ with hc
    · cases hlast
      have hsub : cfg.keysOf c.fields field \ cfg.keysOf (oldFieldsOf s label) field ⊆
          cfg.keysOf c.fields field ∪ newKeys cfg s cands label field :=
        Set.sdiff_subset.trans Set.subset_union_left
      rw [entryKeys_some, keys_upsertEntry, entryKeys_upsertContent_diff cfg hm, Set.union_comm,
        ← Set.union_assoc, Set.union_eq_self_of_subset_right hsub]
    · exact ih hlast

theorem exists_upsertContent (cfg : IndexConfig F E) (m : ℕ → Option (Entry F E)) (s : Store F FieldsJson)
    (hlast : lastRow cands label = some last) :
    ∃ e, upsertContent cfg m (upsertRecords s cands) label = some e := by
  induction cands using List.reverseRecOn generalizing last with
  | nil => simp [lastRow] at hlast
  | append_singleton cands c ih =>
    rw [lastRow_concat] at hlast
    rw [upsertContent_records_concat]
    split_ifs at hlast ⊢ with hc
    · exact ⟨_, rfl⟩
    · exact ih hlast

/-- The vector of a label after a batch that has it: that of its last row. -/
theorem vector_upsertContent (cfg : IndexConfig F E) (m : ℕ → Option (Entry F E)) (s : Store F FieldsJson)
    (hlast : lastRow cands label = some last) (hvector : last.vector ≠ []) (oldFields : FieldsJson) :
    ∃ e, upsertContent cfg m (upsertRecords s cands) label = some e ∧
      e.vector = cfg.encode last.vector ∧ e.sparse = sparseOf (upsertRecord last oldFields) := by
  induction cands using List.reverseRecOn generalizing last with
  | nil => simp [lastRow] at hlast
  | append_singleton cands c ih =>
    rw [lastRow_concat] at hlast
    rw [upsertContent_records_concat]
    split_ifs at hlast ⊢ with hc
    · cases hlast
      exact ⟨_, rfl, if_neg hvector, rfl⟩
    · exact ih hlast hvector

/-! ## Mirrors -/

/-- The index has, for each label, the keys of the store's row. -/
def KeysMirror (cfg : IndexConfig F E) (s : Store F FieldsJson) (m : ℕ → Option (Entry F E)) :
    Prop :=
  ∀ label, (m label).map Entry.keys = (candOf s label).map fun c => cfg.keysOf c.fields

/-- The entry of a row. -/
def entryOf (cfg : IndexConfig F E) (c : CandidateData F FieldsJson) : Entry F E where
  vector := cfg.encode c.vector
  sparse := sparseOf (upsertRecord c none)
  keys := cfg.keysOf c.fields

theorem entryOf_expire (cfg : IndexConfig F E) (c : CandidateData F FieldsJson) (expireNs : ℕ) :
    entryOf cfg { c with expireNsTs := expireNs } = entryOf cfg c := rfl

/-- The index has, for each label, the vector and the keys of the store's row. -/
def Mirrors (cfg : IndexConfig F E) (s : Store F FieldsJson) (m : ℕ → Option (Entry F E)) : Prop :=
  ∀ label, m label = (candOf s label).map (entryOf cfg)

variable {cfg : IndexConfig F E}

theorem Mirrors.keysMirror (h : Mirrors cfg s m) : KeysMirror cfg s m := by
  intro label
  rw [h label, Option.map_map]
  rfl

section Mirror

variable {cfg : IndexConfig F E} {s : Store F FieldsJson} {m : ℕ → Option (Entry F E)}

theorem KeysMirror.entryKeys_eq (h : KeysMirror cfg s m) (label : ℕ) (field : String) :
    entryKeys (m label) field = cfg.keysOf (oldFieldsOf s label) field := by
  rw [entryKeys, h label, oldFieldsOf]
  cases candOf s label with
  | none => exact (cfg.keysOf_none field).symm
  | some c => rfl

/-- The candidate that an upsert leaves in the store. -/
theorem candOf_upsert (cfg : IndexConfig F E) (s : Store F FieldsJson)
    (cands : List (CandidateData F FieldsJson)) (ttl : ℕ) (needDelta : Bool) (baseTs nowTs label : ℕ) :
    ∃ stamp : CandidateData F FieldsJson → CandidateData F FieldsJson,
      (∀ c, (stamp c).label = c.label ∧ (stamp c).fields = c.fields ∧
        entryOf cfg (stamp c) = entryOf cfg c) ∧
      candOf (addCandsData s cands ttl needDelta baseTs nowTs).1 label =
        ((lastRow cands label).map stamp).or (candOf s label) := by
  by_cases h : ttl > 0
  · refine ⟨fun c => { c with expireNsTs := nowTs + ttl * 1000000000 },
      fun c => ⟨rfl, rfl, entryOf_expire cfg c _⟩, ?_⟩
    rw [candOf_addCandsData, stampExpire, if_pos h, ← List.map_reverse, List.find?_map]
    rfl
  · refine ⟨id, fun c => ⟨rfl, rfl, rfl⟩, ?_⟩
    rw [candOf_addCandsData, stampExpire, if_neg h]
    simp [lastRow]

theorem addCandsData_records (s : Store F FieldsJson) (cands : List (CandidateData F FieldsJson))
    (ttl baseTs nowTs : ℕ) :
    (addCandsData s cands ttl true baseTs nowTs).2 = upsertRecords s cands :=
  addCandsData_snd s cands ttl true baseTs nowTs

theorem newKeys_subset (hb : BatchCovered cfg s cands) {label : ℕ}
    {last : CandidateData F FieldsJson} (hlast : lastRow cands label = some last) (field : String) :
    newKeys cfg s cands label field ⊆ cfg.keysOf last.fields field := by
  rintro key ⟨⟨c, hc, rfl, hkey⟩, hnot⟩
  exact (hb c hc last hlast field hkey).resolve_left hnot

variable {cands : List (CandidateData F FieldsJson)}

/-- A covered batch keeps the keys of the index those of the store. -/
theorem KeysMirror.upsert (h : KeysMirror cfg s m) (hb : BatchCovered cfg s cands) (ttl baseTs nowTs : ℕ) :
    KeysMirror cfg (addCandsData s cands ttl true baseTs nowTs).1
      (upsertContent cfg m (upsertRecords s cands)) := by
  intro label
  obtain ⟨stamp, hstamp, hcand⟩ := candOf_upsert cfg s cands ttl true baseTs nowTs label
  rw [hcand]
  cases hlast : lastRow cands label with
  | none =>
    rw [upsertContent_of_lastRow_eq_none cfg m s hlast]
    exact h label
  | some last =>
    obtain ⟨e, he⟩ := exists_upsertContent cfg m s hlast
    have hkeys : e.keys = cfg.keysOf last.fields := by
      funext field
      rw [← entryKeys_some e, ← he, keys_upsertContent cfg (h.entryKeys_eq label field).le hlast]
      exact Set.union_eq_self_of_subset_right (newKeys_subset hb hlast field)
    simp [he, hkeys, (hstamp last).2.1]

/-- A covered batch of rows with vectors keeps the index a mirror of the store. -/
theorem Mirrors.upsert (h : Mirrors cfg s m)
    (hb : BatchCovered cfg s cands) (hv : ∀ c ∈ cands, c.vector ≠ []) (ttl baseTs nowTs : ℕ) :
    Mirrors cfg (addCandsData s cands ttl true baseTs nowTs).1
      (upsertContent cfg m (upsertRecords s cands)) := by
  intro label
  have hkeys := h.keysMirror.upsert hb ttl baseTs nowTs label
  obtain ⟨stamp, hstamp, hcand⟩ := candOf_upsert cfg s cands ttl true baseTs nowTs label
  rw [hcand] at hkeys ⊢
  cases hlast : lastRow cands label with
  | none =>
    rw [upsertContent_of_lastRow_eq_none cfg m s hlast]
    exact h label
  | some last =>
    have hmem : last ∈ cands := List.mem_reverse.1 (List.mem_of_find?_eq_some hlast)
    obtain ⟨e, he, hvec, hsparse⟩ := vector_upsertContent cfg m s hlast (hv last hmem) none
    rw [hlast, he] at hkeys
    have hk : e.keys = cfg.keysOf last.fields := by simpa [(hstamp last).2.1] using hkeys
    rw [he, Option.map_some, Option.some_or, Option.map_some, (hstamp last).2.2]
    exact congrArg some (Entry.ext hvec hsparse hk)

/-! ### Deletions -/

theorem deleteContent_apply (m : ℕ → Option (Entry F E)) (ds : List (DeltaRecord F FieldsJson)) (label : ℕ) :
    deleteContent m ds label = if label ∈ ds.map DeltaRecord.label then none else m label := by
  induction ds generalizing m with
  | nil => simp [deleteContent]
  | cons d ds ih =>
    have hstep : deleteContent m (d :: ds) = deleteContent (Function.update m d.label none) ds := rfl
    rw [hstep, ih, Function.update_apply]
    by_cases h : label ∈ ds.map DeltaRecord.label
    · simp [h]
    · by_cases h' : label = d.label <;> simp [h, h']

/-- The records of the labels of a deletion. -/
def deleteRecords (s : Store F FieldsJson) (labels : List ℕ) : List (DeltaRecord F FieldsJson) :=
  labels.map fun label => deleteRecord label (oldFieldsOf s label)

theorem deleteData_records (s : Store F FieldsJson) (labels : List ℕ) (baseTs : ℕ) :
    (VectorDB.deleteData s labels true baseTs).2 = deleteRecords s labels :=
  deleteData_snd s labels true baseTs

theorem label_deleteRecords (s : Store F FieldsJson) (labels : List ℕ) :
    (deleteRecords s labels).map DeltaRecord.label = labels := by
  simp [deleteRecords, deleteRecord, Function.comp_def]

theorem label_upsertRecords (s : Store F FieldsJson) (cands : List (CandidateData F FieldsJson)) :
    (upsertRecords s cands).map DeltaRecord.label = cands.map CandidateData.label := by
  simp [upsertRecords, upsertRecord, Function.comp_def]

/-- A deletion reads the keys its labels have. -/
theorem KeysMirror.oldFieldsCover (h : KeysMirror cfg s m) (labels : List ℕ) :
    IndexInv.OldFieldsCover cfg m (deleteRecords s labels) := by
  intro d hd e he field
  obtain ⟨label, -, rfl⟩ := List.mem_map.1 hd
  have hkeys := h.entryKeys_eq label field
  have hm : m label = some e := he
  rw [hm, entryKeys_some] at hkeys
  exact hkeys.le

theorem KeysMirror.delete (h : KeysMirror cfg s m) (labels : List ℕ) (baseTs : ℕ) :
    KeysMirror cfg (VectorDB.deleteData s labels true baseTs).1
      (deleteContent m (deleteRecords s labels)) := by
  intro label
  rw [deleteContent_apply, label_deleteRecords, candOf_deleteData]
  split_ifs
  · rfl
  · exact h label

theorem Mirrors.delete (h : Mirrors cfg s m) (labels : List ℕ) (baseTs : ℕ) :
    Mirrors cfg (VectorDB.deleteData s labels true baseTs).1
      (deleteContent m (deleteRecords s labels)) := by
  intro label
  rw [deleteContent_apply, label_deleteRecords, candOf_deleteData]
  split_ifs
  · rfl
  · exact h label

end Mirror

/-! ## Runs -/

/-- A collection with one index. -/
structure Collection (F E : Type) where
  store : Store F FieldsJson
  index : IndexManager F E

/-- A call of `upsert_data` or `delete_data`, with its clock readings: `baseTs` and `nowTs` those of
the store, `applyTs` that of the index. -/
inductive CollectionCall (F : Type) where
  | upsertData (candsList : List (CandidateData F FieldsJson)) (ttl baseTs nowTs applyTs : ℕ)
  | deleteData (labelList : List ℕ) (baseTs applyTs : ℕ)

/-- `LocalCollection._write_data_list` (847-857) and `LocalCollection.delete_data` (913-921). -/
def CollectionCall.exec (cfg : IndexConfig F E) (x : Collection F E) :
    CollectionCall F → Collection F E
  | .upsertData cands ttl baseTs nowTs applyTs =>
    let r := addCandsData x.store cands ttl true baseTs nowTs
    { store := r.1, index := IndexManager.addData cfg x.index r.2 applyTs }
  | .deleteData labels baseTs applyTs =>
    let r := VectorDB.deleteData x.store labels true baseTs
    { store := r.1, index := IndexManager.deleteData cfg x.index r.2 applyTs }

/-- A collection with an empty store and an empty index. -/
def Collection.empty (cfg : IndexConfig F E) : Collection F E :=
  ⟨SortedMap.empty, IndexManager.empty cfg⟩

/-- The batch is covered, and the index has offsets for its new labels. -/
def CollectionCall.Covered (cfg : IndexConfig F E) (x : Collection F E) : CollectionCall F → Prop
  | .upsertData cands _ _ _ _ =>
    BatchCovered cfg x.store cands ∧ x.index.OffsetsFit (cands.map CandidateData.label)
  | .deleteData _ _ _ => True

/-- The invariant of a collection. -/
structure CollectionInv (cfg : IndexConfig F E) (x : Collection F E) : Prop where
  store : WellFormed x.store
  index : IndexInv cfg x.index
  bits : BitsLive x.index
  mirror : KeysMirror cfg x.store (content x.index)

theorem collectionInv_empty (cfg : IndexConfig F E) : CollectionInv cfg (Collection.empty cfg) where
  store := wellFormed_empty
  index := IndexInv.empty cfg
  bits := bitsLive_empty cfg
  mirror := fun _ => rfl

theorem CollectionInv.exec {x : Collection F E}
    (h : CollectionInv cfg x) {call : CollectionCall F} (hc : call.Covered cfg x) :
    CollectionInv cfg (call.exec cfg x) := by
  cases call with
  | upsertData cands ttl baseTs nowTs applyTs =>
    have hfit : x.index.OffsetsFit
        ((addCandsData x.store cands ttl true baseTs nowTs).2.map DeltaRecord.label) := by
      rw [addCandsData_records, label_upsertRecords]
      exact hc.2
    obtain ⟨hinv, hcontent⟩ := h.index.addData hfit applyTs
    refine ⟨h.store.exec (.addCandsData cands ttl true baseTs nowTs), hinv,
      h.index.bitsLive_addData h.bits hfit applyTs, ?_⟩
    rw [addCandsData_records] at hcontent
    simp only [CollectionCall.exec, addCandsData_records, hcontent]
    exact h.mirror.upsert hc.1 ttl baseTs nowTs
  | deleteData labels baseTs applyTs =>
    have hcover : IndexInv.OldFieldsCover cfg (content x.index)
        (VectorDB.deleteData x.store labels true baseTs).2 := by
      rw [deleteData_records]
      exact h.mirror.oldFieldsCover labels
    obtain ⟨hinv, hcontent⟩ := h.index.deleteData
      (VectorDB.deleteData x.store labels true baseTs).2 applyTs
    refine ⟨h.store.exec (.deleteData labels true baseTs), hinv,
      h.index.bitsLive_deleteData h.bits hcover applyTs, ?_⟩
    rw [deleteData_records] at hcontent
    simp only [CollectionCall.exec, deleteData_records, hcontent]
    exact h.mirror.delete labels baseTs

/-! ## An index built afresh -/

/-- Distinct labels have distinct offsets, all below the counter. -/
theorem IndexInv.card_le {ix : IndexManager F E} (h : IndexInv cfg ix)
    {labels : Finset ℕ} (hl : ∀ l ∈ labels, (ix.points.get l).isSome) :
    labels.card ≤ ix.nextLogicalOffset := by
  have hmaps : ∀ l ∈ labels, ((ix.points.get l).map Point.offset).getD 0 ∈
      Finset.range ix.nextLogicalOffset := by
    intro l hmem
    obtain ⟨p, hp⟩ := Option.isSome_iff_exists.1 (hl l hmem)
    simpa [hp] using h.offset_lt hp
  have hinj : Set.InjOn (fun l => ((ix.points.get l).map Point.offset).getD 0)
      (labels : Set ℕ) := by
    intro l hmem l' hmem' heq
    obtain ⟨p, hp⟩ := Option.isSome_iff_exists.1 (hl l hmem)
    obtain ⟨p', hp'⟩ := Option.isSome_iff_exists.1 (hl l' hmem')
    exact h.offset_inj hp hp' (by simpa [hp, hp'] using heq)
  simpa using Finset.card_le_card_of_injOn _ hmaps hinj

/-- The candidates listed have the labels of their keys, each once. -/
theorem WellFormed.nodup_labels (h : WellFormed s) :
    ((getAllCandsData s).map CandidateData.label).Nodup := by
  have hkeys : ((table .candidates s).range "" maxUnicodeChar).Pairwise fun x y => x.1 < y.1 :=
    (table .candidates s).sorted.filter _
  rw [getAllCandsData, readAll_eq, List.map_filterMap, List.Nodup]
  refine (hkeys.imp_of_mem ?_).filterMap _ fun _ _ h => h
  rintro ⟨k, r⟩ ⟨k', r'⟩ hm hm' hlt label hl label' hl' rfl
  obtain ⟨c, rfl, rfl⟩ := h.cands (SortedMap.mem_range.1 hm).1
  obtain ⟨c', rfl, rfl⟩ := h.cands (SortedMap.mem_range.1 hm').1
  simp only [Row.cand?_cand, Option.map_some, Option.some.injEq] at hl hl'
  simp only [hl, hl'] at hlt
  exact lt_irrefl _ hlt

theorem WellFormed.lastRow_getAllCandsData (h : WellFormed s)
    (label : ℕ) : lastRow (getAllCandsData s) label = candOf s label := by
  apply Option.ext
  intro c
  constructor
  · intro hlast
    have hmem : c ∈ getAllCandsData s := List.mem_reverse.1 (List.mem_of_find?_eq_some hlast)
    have hlabel : c.label = label := by simpa using List.find?_some hlast
    exact hlabel ▸ h.mem_getAllCandsData.1 hmem
  · intro hc
    have hlabel := h.label_eq hc
    subst hlabel
    have hmem := h.mem_getAllCandsData.2 hc
    obtain ⟨last, hlast⟩ := exists_lastRow hmem
    have hmem' : last ∈ getAllCandsData s := List.mem_reverse.1 (List.mem_of_find?_eq_some hlast)
    have hlabel' : last.label = c.label := by simpa using List.find?_some hlast
    obtain rfl := List.inj_on_of_nodup_map h.nodup_labels hmem' hmem hlabel'
    exact hlast

/-- An index built from the candidates of a store is a mirror of it. -/
theorem keysMirror_build (cfg : IndexConfig F E) (h : WellFormed s)
    (hfit : ((getAllCandsData s).map CandidateData.label).toFinset.card ≤ 2 ^ 31) (now : ℕ) :
    IndexInv cfg (build cfg (getAllCandsData s) now) ∧
      KeysMirror cfg s (content (build cfg (getAllCandsData s) now)) := by
  have hrecords : (getAllCandsData s).map (fun c => upsertRecord c none) =
      upsertRecords SortedMap.empty (getAllCandsData s) := rfl
  have hroom : (IndexManager.empty cfg).OffsetsFit
      (((getAllCandsData s).map fun c => upsertRecord c none).map DeltaRecord.label) := by
    rw [hrecords, label_upsertRecords]
    exact (Nat.zero_add _).trans_le ((Finset.card_filter_le _ _).trans hfit)
  obtain ⟨hinv, hcontent⟩ := (IndexInv.empty cfg).addData hroom now
  refine ⟨hinv, fun label => ?_⟩
  have hempty : KeysMirror cfg SortedMap.empty (content (IndexManager.empty cfg)) := fun _ => rfl
  have hmirror := hempty.upsert (batchCovered_of_nodup cfg SortedMap.empty h.nodup_labels) 0 0 0
    label
  have hcand : candOf (addCandsData SortedMap.empty (getAllCandsData s) 0 true 0 0).1 label =
      candOf s label := by
    rw [candOf_addCandsData, ← h.lastRow_getAllCandsData label]
    exact Option.or_none
  rw [build, hcontent, hrecords, hmirror, hcand]

/-! ## The index mirrors the store -/

/-- The row of `label` has its offset in the bitmap of `key`. -/
def HasKey (ix : IndexManager F E) (label : ℕ) (field key : String) : Prop :=
  ∃ offset, ix.getOffsetByLabel label = some offset ∧ ix.scalar.Isset field key offset

instance (ix : IndexManager F E) (label : ℕ) (field key : String) :
    Decidable (HasKey ix label field key) :=
  match h : ix.getOffsetByLabel label with
  | none => isFalse (by rintro ⟨offset, ho, -⟩; rw [h] at ho; cases ho)
  | some offset => decidable_of_iff (ix.scalar.Isset field key offset)
      ⟨fun hs => ⟨offset, h, hs⟩, by rintro ⟨o, ho, hs⟩; rw [h] at ho; cases ho; exact hs⟩

theorem IndexInv.hasKey_iff {ix : IndexManager F E} (h : IndexInv cfg ix) {field key : String} :
    HasKey ix label field key ↔ key ∈ entryKeys (content ix label) field := by
  simp only [HasKey, h.getOffsetByLabel_eq, entryKeys, content]
  cases ix.points.get label with
  | none => simp
  | some p => simp

theorem CollectionInv.live_labels {x : Collection F E} (h : CollectionInv cfg x) :
    (x.index.points.get label).isSome ↔ (candOf x.store label).isSome := by
  have hm := congrArg Option.isSome (h.mirror label)
  simp only [Option.isSome_map, content] at hm
  rw [hm]

/-- **The index mirrors the store.**  In every run of covered batches: a live label has its offset
in exactly the bitmaps of the keys of its row in the store, a label that is not live has no offset,
no bitmap has any other offset, and every label has the keys it has in an index built afresh from
`get_all_cands_data()`. -/
theorem index_mirrors_store (cfg : IndexConfig F E) {x : Collection F E}
    (h : Reaches (fun x call => some (CollectionCall.exec cfg x call))
      (fun x call => CollectionCall.Covered cfg x call) (Collection.empty cfg) x) :
    (∀ label c, candOf x.store label = some c →
      ∃ offset, x.index.getOffsetByLabel label = some offset ∧
        ∀ field key, x.index.scalar.Isset field key offset ↔ key ∈ cfg.keysOf c.fields field) ∧
    (∀ label, candOf x.store label = none → x.index.getOffsetByLabel label = none) ∧
    (∀ field key offset, x.index.scalar.Isset field key offset →
      ∃ label, (candOf x.store label).isSome ∧ x.index.getOffsetByLabel label = some offset) ∧
    ∀ now label field key, HasKey x.index label field key ↔
      HasKey (build cfg (getAllCandsData x.store) now) label field key := by
  have hinv : CollectionInv cfg x :=
    h.invariant (collectionInv_empty cfg) fun _ _ _ hi hc hs => Option.some.inj hs ▸ hi.exec hc
  refine ⟨fun label c hc => ?_, fun label hnone => ?_, fun field key offset hset => ?_,
    fun now label field key => ?_⟩
  · have hm := hinv.mirror label
    rw [hc] at hm
    cases hp : x.index.points.get label with
    | none => simp [content, hp] at hm
    | some p =>
      refine ⟨p.offset, by rw [hinv.index.getOffsetByLabel_eq, hp]; rfl, fun field key => ?_⟩
      have hkeys : (fun field => {key | x.index.scalar.Isset field key p.offset}) =
          cfg.keysOf c.fields := by
        simpa [content, hp] using hm
      rw [← hkeys]
      rfl
  · rw [hinv.index.getOffsetByLabel_eq]
    have hl : (x.index.points.get label).isSome ↔ _ := hinv.live_labels
    rw [hnone] at hl
    simpa using hl
  · obtain ⟨label, p, hp, rfl⟩ := hinv.bits field key offset hset
    refine ⟨label, hinv.live_labels.1 (by simp [hp]), ?_⟩
    rw [hinv.index.getOffsetByLabel_eq, hp, Option.map_some]
  · have hfit : ((getAllCandsData x.store).map CandidateData.label).toFinset.card ≤ 2 ^ 31 := by
      refine (hinv.index.card_le fun l hl => ?_).trans hinv.index.next_le
      obtain ⟨c, hc, rfl⟩ := List.mem_map.1 (List.mem_toFinset.1 hl)
      rw [hinv.live_labels, hinv.store.mem_getAllCandsData.1 hc]
      rfl
    obtain ⟨hbuild, hmirror⟩ := keysMirror_build cfg hinv.store hfit now
    rw [hinv.index.hasKey_iff, hbuild.hasKey_iff, hinv.mirror.entryKeys_eq,
      hmirror.entryKeys_eq]

/-- One indexed string field. -/
def colorConfig : IndexConfig ℕ (List ℕ) where
  encode := id
  blank := []
  convert := id
  scalarFields := [("color", false)]

/-- A row with a color. -/
def colorCand (label : ℕ) (color : String) : CandidateData ℕ FieldsJson where
  label := label
  vector := [label]
  sparseRawTerms := []
  sparseValues := []
  fields := some [("color", .string color)]
  expireNsTs := 0

/-- An insertion of two labels, an update of one and the deletion of the other. -/
def distinctCalls : List (CollectionCall ℕ) :=
  [.upsertData [colorCand 1 "red", colorCand 2 "red"] 0 10 0 20,
    .upsertData [colorCand 1 "blue"] 0 30 0 40, .deleteData [2, 2] 50 60]

theorem index_mirrors_store_distinctCalls :
    ∃ x, runActs (fun x call => some (CollectionCall.exec colorConfig x call))
        (Collection.empty colorConfig) distinctCalls = some x ∧
      ∃ offset, x.index.getOffsetByLabel 1 = some offset ∧
        ∀ field key, x.index.scalar.Isset field key offset ↔
          key ∈ colorConfig.keysOf (some [("color", .string "blue")]) field := by
  have hmeet : ActsMeet (fun x call => some (CollectionCall.exec colorConfig x call))
      (fun x call => CollectionCall.Covered colorConfig x call) (Collection.empty colorConfig)
      distinctCalls := by
    refine ⟨⟨batchCovered_of_nodup _ _ (by decide), by decide +kernel⟩, fun x1 h1 => ?_⟩
    obtain rfl := Option.some.inj h1
    refine ⟨⟨batchCovered_of_nodup _ _ (by decide), by decide +kernel⟩, fun x2 h2 => ?_⟩
    exact ⟨trivial, fun _ _ => trivial⟩
  exact ⟨_, rfl, (index_mirrors_store colorConfig (Reaches.of_runActs hmeet rfl)).1 1
    (colorCand 1 "blue") (by decide +kernel)⟩

/-- One batch with a label twice. -/
def repeatedCall : CollectionCall ℕ :=
  .upsertData [colorCand 1 "red", colorCand 1 "blue"] 0 10 0 20

/-- The store keeps the second row, but the bitmap of the first row's key keeps the offset; an index
built afresh from the store does not have it. -/
theorem index_repeatedCall :
    let x := repeatedCall.exec colorConfig (Collection.empty colorConfig)
    candOf x.store 1 = some (colorCand 1 "blue") ∧ HasKey x.index 1 "color" "blue" ∧
      HasKey x.index 1 "color" "red" ∧
      "red" ∉ ScalarIndex.rowKeys x.index.scalar.shape
        (colorConfig.strKvMap (colorCand 1 "blue").fields) "color" ∧
      ¬ HasKey (build colorConfig (getAllCandsData x.store) 30) 1 "color" "red" := by
  decide +kernel

end OpenViking.VectorDB
