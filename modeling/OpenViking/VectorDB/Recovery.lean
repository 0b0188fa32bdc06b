import OpenViking.VectorDB.Concurrent
import OpenViking.VectorDB.DeltaLog
import Mathlib.Data.List.MinMax

/-!
# Persistence and crash recovery

`PersistentIndex.persist` dumps the index under its `update_timestamp`, outside the mutation barrier;
`PersistCollection._recover` loads the newest complete dump and replays the deltas whose keys are not
below its version.  A version is the time of an application to the index, a delta key the time of a
write to the store: a write that is older than the version but not yet applied when the index is
dumped is neither in the dump nor replayed.

Records that are in the dump already may be replayed, too.  That is harmless: what a replay leaves
over from the dump are keys that the last record of the label has (`value_replay`).  Results:

* `HostInv.step`: when dumps come at the right time, all snapshots stay sound;
* `recover_agrees`: in such a run recovery always leads to an index that agrees with the store.
-/

namespace OpenViking.VectorDB

open IndexManager

variable {F E : Type}

/-! ## Replaying records again -/

section Replay

variable {cfg : IndexConfig F E}

/-- What a history leaves over from the entry it starts with, and no more. -/
theorem entryKeys_value_subset (cfg : IndexConfig F E) (v w : Option (Entry F E))
    (ds : List (DeltaRecord F FieldsJson)) (field : String) :
    entryKeys ((contentOps cfg).value w ds) field ⊆
      entryKeys ((contentOps cfg).value v ds) field ∪ entryKeys w field := by
  induction ds using List.reverseRecOn with
  | nil => exact Set.subset_union_right
  | append_singleton ds d ih =>
    simp only [KeyedOps.value_append, KeyedOps.value_singleton]
    generalize (contentOps cfg).value w ds = a at ih ⊢
    generalize (contentOps cfg).value v ds = b at ih ⊢
    cases ht : d.type with
    | delete =>
      have hnone : (contentOps cfg).effect d a = none := by
        simp only [contentOps, recordEffect, ht]
      rw [hnone]
      exact Set.empty_subset _
    | upsert =>
      have hsome : ∀ e, (contentOps cfg).effect d e = some (upsertEntry cfg e d) := by
        intro e
        simp only [contentOps, recordEffect, ht]
      rw [hsome, hsome, entryKeys_some, entryKeys_some]
      rintro key (⟨hkey, hold⟩ | hnew)
      · rcases ih hkey with hb | hw
        · exact .inl (.inl ⟨hb, hold⟩)
        · exact .inr hw
      · exact .inl (.inr hnew)

/-- A history that ends in what its last record stands for can be replayed on its own result. -/
theorem value_replay {v : Option (Entry F E)} {ds : List (DeltaRecord F FieldsJson)}
    {d : DeltaRecord F FieldsJson} (hlast : ds.getLast? = some d) (hvector : d.type = .upsert → d.vector ≠ [])
    (hv : (contentOps cfg).value v ds = recordEntry cfg d) :
    (contentOps cfg).value ((contentOps cfg).value v ds) ds = (contentOps cfg).value v ds := by
  obtain ⟨ds, rfl⟩ := List.getLast?_eq_some_iff.1 hlast
  have hsub := entryKeys_value_subset cfg v (recordEntry cfg d) ds
  rw [hv]
  simp only [KeyedOps.value_append, KeyedOps.value_singleton] at hv ⊢
  generalize (contentOps cfg).value (recordEntry cfg d) ds = a at hsub ⊢
  generalize (contentOps cfg).value v ds = b at hsub hv
  cases ht : d.type with
  | delete => simp only [contentOps, recordEffect, recordEntry, ht]
  | upsert =>
    simp only [contentOps, recordEffect, recordEntry, ht, Option.some.injEq] at hv hsub ⊢
    refine Entry.ext (if_neg (hvector ht)) rfl (funext fun field => ?_)
    refine Set.Subset.antisymm ?_ Set.subset_union_right
    rintro key (⟨hkey, hold⟩ | hnew)
    · rcases hsub field hkey with hb | hw
      · have hkeys := congrFun (congrArg Entry.keys hv) field
        exact hkeys.le (.inl ⟨hb, hold⟩)
      · exact hw
    · exact hnew

end Replay

/-! ## Recovery -/

/-- The state of the replay loop of `_recover` (1341-1398).  `flushes` counts the index calls. -/
structure ReplayState (F E : Type) where
  index : IndexManager F E
  upsertList : List (DeltaRecord F FieldsJson)
  deleteList : List (DeltaRecord F FieldsJson)
  flushes : ℕ

namespace ReplayState

/-- Replay the collected upserts; `now` gives the clock of each index call. -/
def flushUpserts (cfg : IndexConfig F E) (now : ℕ → ℕ) (st : ReplayState F E) :
    ReplayState F E :=
  if st.upsertList = [] then st
  else
    { st with
      index := IndexManager.addData cfg st.index st.upsertList (now st.flushes)
      upsertList := []
      flushes := st.flushes + 1 }

/-- Replay the collected deletions. -/
def flushDeletes (cfg : IndexConfig F E) (now : ℕ → ℕ) (st : ReplayState F E) :
    ReplayState F E :=
  if st.deleteList = [] then st
  else
    { st with
      index := IndexManager.deleteData cfg st.index st.deleteList (now st.flushes)
      deleteList := []
      flushes := st.flushes + 1 }

/-- One delta of the loop. -/
def collect (cfg : IndexConfig F E) (now : ℕ → ℕ) (st : ReplayState F E)
    (data : DeltaRecord F FieldsJson) : ReplayState F E :=
  match data.type with
  | .upsert =>
    let st := st.flushDeletes cfg now
    { st with upsertList := st.upsertList ++ [data] }
  | .delete =>
    let st := st.flushUpserts cfg now
    { st with deleteList := st.deleteList ++ [data] }

end ReplayState

/-- The index after the deltas are replayed on it. -/
def replay (cfg : IndexConfig F E) (ix : IndexManager F E)
    (deltaList : List (DeltaRecord F FieldsJson)) (now : ℕ → ℕ) : IndexManager F E :=
  let st := deltaList.foldl (ReplayState.collect cfg now) ⟨ix, [], [], 0⟩
  ((st.flushUpserts cfg now).flushDeletes cfg now).index

/-- `get_newest_version`, with the snapshot it leads to. -/
def newestVersion (versions : List (IndexManager F E)) : Option (IndexManager F E) :=
  versions.argmax IndexManager.updateTimestamp

/-- `_recover` for one index: load the newest snapshot and replay the deltas from its version on.
`none` when there is no snapshot. -/
def recover (cfg : IndexConfig F E) (versions : List (IndexManager F E))
    (s : Store F FieldsJson) (now : ℕ → ℕ) : Option (IndexManager F E) :=
  (newestVersion versions).map fun ix =>
    replay cfg ix (getDeltaDataAfterTs s ix.updateTimestamp) now

namespace ReplayState

variable {cfg : IndexConfig F E} {now : ℕ → ℕ} {ix : IndexManager F E}
  {seen : List (DeltaRecord F FieldsJson)} {st : ReplayState F E}

/-- The loop after the deltas `seen`: at most one list is in use, and what it holds is still to be
applied; every time stamp is the snapshot's or a clock reading. -/
structure Loop (cfg : IndexConfig F E) (now : ℕ → ℕ) (ix : IndexManager F E)
    (seen : List (DeltaRecord F FieldsJson)) (st : ReplayState F E) : Prop where
  index : IndexInv cfg st.index
  content : (contentOps cfg).run (content ix) seen =
    (contentOps cfg).run (content st.index) (st.upsertList ++ st.deleteList)
  upserts : ∀ d ∈ st.upsertList, d.type = .upsert
  deletes : ∀ d ∈ st.deleteList, d.type = .delete
  one : st.upsertList = [] ∨ st.deleteList = []
  next_le : st.index.nextLogicalOffset + st.upsertList.length ≤ ix.nextLogicalOffset + seen.length
  flushes_le : st.flushes + st.upsertList.length + st.deleteList.length ≤ seen.length
  stamp : st.index.updateTimestamp = ix.updateTimestamp ∨
    ∃ n < st.flushes, st.index.updateTimestamp = now n

section

variable (h : Loop cfg now ix seen st)

include h

theorem Loop.flushUpserts (hfit : ix.nextLogicalOffset + seen.length ≤ 2 ^ 31) :
    Loop cfg now ix seen (st.flushUpserts cfg now) ∧ (st.flushUpserts cfg now).upsertList = [] := by
  unfold ReplayState.flushUpserts
  split_ifs with hnil
  · exact ⟨h, hnil⟩
  have hdel : st.deleteList = [] := h.one.resolve_left hnil
  have hlen : 0 < st.upsertList.length := List.length_pos_of_ne_nil hnil
  have hnext := h.next_le
  have hflush := h.flushes_le
  have hroom : st.index.OffsetsFit (st.upsertList.map DeltaRecord.label) :=
    offsetsFit_of_length (by rw [List.length_map]; omega)
  obtain ⟨hindex, hcontent⟩ := h.index.addData hroom (now st.flushes)
  refine ⟨⟨hindex, ?_, by simp, h.deletes, .inl rfl, ?_, ?_, ?_⟩, rfl⟩
  · rw [h.content, hcontent, hdel, ← run_eq_upsertContent cfg h.upserts]
    simp
  · have := addData_next_le cfg st.index st.upsertList (now st.flushes)
    simp only [List.length_nil]
    omega
  · simp only [List.length_nil]
    omega
  · rcases addData_updateTimestamp cfg st.index st.upsertList (now st.flushes) with hts | hts
    · exact .inr ⟨st.flushes, Nat.lt_succ_self _, hts⟩
    · rcases h.stamp with hs | ⟨n, hn, hs⟩
      · exact .inl (hts.trans hs)
      · exact .inr ⟨n, hn.trans (Nat.lt_succ_self _), hts.trans hs⟩

theorem Loop.flushDeletes :
    Loop cfg now ix seen (st.flushDeletes cfg now) ∧ (st.flushDeletes cfg now).deleteList = [] := by
  unfold ReplayState.flushDeletes
  split_ifs with hnil
  · exact ⟨h, hnil⟩
  have hups : st.upsertList = [] := h.one.resolve_right hnil
  have hlen : 0 < st.deleteList.length := List.length_pos_of_ne_nil hnil
  have hnext := h.next_le
  have hflush := h.flushes_le
  obtain ⟨hindex, hcontent⟩ := h.index.deleteData st.deleteList (now st.flushes)
  refine ⟨⟨hindex, ?_, h.upserts, by simp, .inr rfl, ?_, ?_, ?_⟩, rfl⟩
  · rw [h.content, hcontent, hups, ← run_eq_deleteContent cfg h.deletes]
    simp
  · rw [deleteData_next]
    omega
  · simp only [List.length_nil]
    omega
  · rcases deleteData_updateTimestamp cfg st.index st.deleteList (now st.flushes) with hts | hts
    · exact .inr ⟨st.flushes, Nat.lt_succ_self _, hts⟩
    · rcases h.stamp with hs | ⟨n, hn, hs⟩
      · exact .inl (hts.trans hs)
      · exact .inr ⟨n, hn.trans (Nat.lt_succ_self _), hts.trans hs⟩

theorem Loop.collect (d : DeltaRecord F FieldsJson) (hfit : ix.nextLogicalOffset + seen.length ≤ 2 ^ 31) :
    Loop cfg now ix (seen ++ [d]) (st.collect cfg now d) := by
  unfold ReplayState.collect
  cases hd : d.type with
  | upsert =>
    obtain ⟨h', hdel⟩ := h.flushDeletes
    have hnext := h'.next_le
    have hflush := h'.flushes_le
    refine ⟨h'.index, ?_, ?_, h'.deletes, .inr hdel, ?_, ?_, h'.stamp⟩
    · simp only [hdel, List.append_nil, KeyedOps.run_append, h'.content]
    · simpa [or_imp, forall_and, hd] using h'.upserts
    · simp only [List.length_append, List.length_singleton]
      omega
    · simp only [List.length_append, List.length_singleton]
      omega
  | delete =>
    obtain ⟨h', hups⟩ := h.flushUpserts hfit
    have hnext := h'.next_le
    have hflush := h'.flushes_le
    refine ⟨h'.index, ?_, h'.upserts, ?_, .inl hups, ?_, ?_, h'.stamp⟩
    · simp only [hups, List.nil_append, KeyedOps.run_append, h'.content]
    · simpa [or_imp, forall_and, hd] using h'.deletes
    · simp only [List.length_append, List.length_singleton]
      omega
    · simp only [List.length_append, List.length_singleton]
      omega

theorem Loop.foldl (ds : List (DeltaRecord F FieldsJson))
    (hfit : ix.nextLogicalOffset + (seen ++ ds).length ≤ 2 ^ 31) :
    Loop cfg now ix (seen ++ ds) (ds.foldl (ReplayState.collect cfg now) st) := by
  induction ds generalizing seen st with
  | nil => simpa using h
  | cons d ds ih =>
    have hd : ix.nextLogicalOffset + seen.length ≤ 2 ^ 31 := by
      simp only [List.length_append, List.length_cons] at hfit
      omega
    have heq : seen ++ d :: ds = seen ++ [d] ++ ds := by simp
    rw [heq] at hfit ⊢
    exact ih (h.collect d hd) hfit

end

end ReplayState

variable {cfg : IndexConfig F E}

/-- Replay, in terms of the content. -/
theorem replay_content {ix : IndexManager F E} (h : IndexInv cfg ix)
    (ds : List (DeltaRecord F FieldsJson)) (now : ℕ → ℕ) (hfit : ix.nextLogicalOffset + ds.length ≤ 2 ^ 31) :
    IndexInv cfg (replay cfg ix ds now) ∧
      content (replay cfg ix ds now) = (contentOps cfg).run (content ix) ds ∧
      ((replay cfg ix ds now).updateTimestamp = ix.updateTimestamp ∨
        ∃ n < ds.length, (replay cfg ix ds now).updateTimestamp = now n) := by
  have h0 : ReplayState.Loop cfg now ix [] ⟨ix, [], [], 0⟩ :=
    ⟨h, rfl, by simp, by simp, .inl rfl, by simp, by simp, .inl rfl⟩
  have hloop := h0.foldl ds (by simpa using hfit)
  obtain ⟨h1, hups⟩ := hloop.flushUpserts hfit
  obtain ⟨h2, hdel⟩ := h1.flushDeletes
  have hups' : (((ds.foldl (ReplayState.collect cfg now) ⟨ix, [], [], 0⟩).flushUpserts cfg
      now).flushDeletes cfg now).upsertList = [] := by
    generalize (ds.foldl (ReplayState.collect cfg now) ⟨ix, [], [], 0⟩).flushUpserts cfg now = st
      at hups ⊢
    unfold ReplayState.flushDeletes
    split_ifs <;> exact hups
  refine ⟨h2.index, ?_, ?_⟩
  · have hcontent := h2.content
    rw [hups', hdel] at hcontent
    exact hcontent.symm
  · rcases h2.stamp with hs | ⟨n, hn, hs⟩
    · exact .inl hs
    · have hle := h2.flushes_le
      exact .inr ⟨n, by simp only [List.nil_append] at hle; omega, hs⟩

/-! ## The delta log as a list -/

/-- The delta records with their keys, in key order. -/
def deltaEntries (s : Store F FieldsJson) : List (String × DeltaRecord F FieldsJson) :=
  (table .delta s).entries.filterMap fun kv => kv.2.delta?.map fun d => (kv.1, d)

/-- The keys that a delta list gets. -/
def keyed (baseTs : ℕ) (ds : List (DeltaRecord F FieldsJson)) :
    List (String × DeltaRecord F FieldsJson) :=
  ds.mapIdx fun i d => (toString (baseTs + i), d)

/-- The entries of a label. -/
def entriesOf (label : ℕ) (log : List (String × DeltaRecord F FieldsJson)) :
    List (String × DeltaRecord F FieldsJson) :=
  log.filter fun e => e.2.label = label

theorem entriesOf_append (label : ℕ) (log log' : List (String × DeltaRecord F FieldsJson)) :
    entriesOf label (log ++ log') = entriesOf label log ++ entriesOf label log' :=
  List.filter_append ..

theorem history_map_snd (cfg : IndexConfig F E) (label : ℕ) (log : List (String × DeltaRecord F FieldsJson)) :
    (contentOps cfg).history label (log.map Prod.snd) = (entriesOf label log).map Prod.snd := by
  rw [KeyedOps.history, entriesOf, List.filter_map]
  rfl

theorem map_snd_keyed (baseTs : ℕ) (ds : List (DeltaRecord F FieldsJson)) :
    (keyed baseTs ds).map Prod.snd = ds := by
  have hmap : ∀ key : ℕ → String, (ds.mapIdx fun i d => (key i, d)).map Prod.snd = ds := by
    induction ds with
    | nil => exact fun _ => rfl
    | cons d ds ih => simp [List.mapIdx_cons, ih]
  exact hmap fun i => toString (baseTs + i)

variable {ds : List (DeltaRecord F FieldsJson)}

theorem mem_keyed {baseTs : ℕ} {e : String × DeltaRecord F FieldsJson} (h : e ∈ keyed baseTs ds) :
    ∃ i < ds.length, e.1 = toString (baseTs + i) ∧ e.2 ∈ ds := by
  obtain ⟨i, hi, rfl⟩ := List.mem_mapIdx.1 h
  exact ⟨i, hi, rfl, List.getElem_mem hi⟩

theorem deltaEntries_sorted (s : Store F FieldsJson) :
    (deltaEntries s).Pairwise fun e e' => e.1 < e'.1 := by
  refine List.Pairwise.filterMap _ ?_ (table .delta s).sorted
  rintro ⟨k, r⟩ ⟨k', r'⟩ hlt e he e' he'
  obtain ⟨d, -, rfl⟩ := Option.map_eq_some_iff.1 he
  obtain ⟨d', -, rfl⟩ := Option.map_eq_some_iff.1 he'
  exact hlt

theorem filterMap_keyed (ds : List (DeltaRecord F FieldsJson)) (key : ℕ → String) :
    (ds.mapIdx fun i d => (key i, (Row.delta d : Row F FieldsJson))).filterMap
        (fun kv => kv.2.delta?.map fun d => (kv.1, d)) = ds.mapIdx fun i d => (key i, d) := by
  induction ds generalizing key with
  | nil => rfl
  | cons d ds ih => simp [List.mapIdx_cons, ih]

variable {s : Store F FieldsJson}

/-- A write whose keys come in order appends its records. -/
theorem deltaEntries_write {baseTs : ℕ} (h : OrderedKeys (table .delta s) baseTs ds.length) (c : Mutation F)
    (nowTs : ℕ) : deltaEntries (c.write s ds baseTs nowTs) = deltaEntries s ++ keyed baseTs ds := by
  have htable : table .delta (c.write s ds baseTs nowTs) = logDelta (table .delta s) baseTs ds := by
    cases c with
    | upsertData cands ttl => exact table_delta_putCandsData s cands ds ttl true baseTs nowTs
    | deleteData labels => exact table_delta_dropData s labels ds true baseTs
  rw [deltaEntries, htable, entries_logDelta h, List.filterMap_append, filterMap_keyed]
  rfl

theorem filterMap_filter_key (p : String → Bool) (es : List (String × Row F FieldsJson)) :
    (es.filter fun e => p e.1).filterMap (fun kv => kv.2.delta?) =
      ((es.filterMap fun kv => kv.2.delta?.map fun d => (kv.1, d)).filter fun e => p e.1).map
        Prod.snd := by
  induction es with
  | nil => rfl
  | cons e es ih => cases hp : p e.1 <;> cases hr : e.2.delta? <;> simp [hp, hr, ih]

theorem getDeltaDataAfterTs_eq (h : WellFormed s) (nsTs : ℕ) :
    getDeltaDataAfterTs s nsTs =
      ((deltaEntries s).filter fun e => toString nsTs ≤ e.1).map Prod.snd := by
  have hrange : (table .delta s).range (toString nsTs) maxUnicodeChar =
      (table .delta s).entries.filter fun e => toString nsTs ≤ e.1 := by
    refine List.filter_congr ?_
    rintro ⟨k, r⟩ he
    obtain ⟨n, d, -, rfl⟩ := h.delta (SortedMap.mem_entries_iff.1 he)
    have hmax : toString n < maxUnicodeChar := Decimal.toString_lt_max n (by decide)
    simp only [hmax, and_true]
  rw [getDeltaDataAfterTs, seekToEnd_eq, hrange, deltaEntries]
  exact filterMap_filter_key (fun k => decide (toString nsTs ≤ k)) _

/-- In a sorted log the entries from a key on are a suffix. -/
theorem exists_append_filter {log : List (String × DeltaRecord F FieldsJson)}
    (h : log.Pairwise fun e e' => e.1 < e'.1) (key : String) :
    ∃ pre, log = pre ++ log.filter fun e => key ≤ e.1 := by
  induction log with
  | nil => exact ⟨[], rfl⟩
  | cons e log ih =>
    obtain ⟨he, hlog⟩ := List.pairwise_cons.1 h
    by_cases hkey : key ≤ e.1
    · refine ⟨[], ?_⟩
      rw [List.nil_append, List.filter_eq_self.2]
      rintro e' he'
      rcases List.mem_cons.1 he' with rfl | he'
      · simpa using hkey
      · simpa using hkey.trans (he e' he').le
    · obtain ⟨pre, hpre⟩ := ih hlog
      refine ⟨e :: pre, ?_⟩
      rw [List.filter_cons_of_neg (by simpa using hkey), List.cons_append, ← hpre]

/-! ## Sound snapshots -/

/-- The content has, for the label, what the log leads to less the entries `rest`. -/
def ReachedBut (cfg : IndexConfig F E) (log : List (String × DeltaRecord F FieldsJson))
    (m : ℕ → Option (Entry F E)) (label : ℕ) (rest : List (String × DeltaRecord F FieldsJson)) :
    Prop :=
  ∃ done, entriesOf label log = done ++ rest ∧
    m label = (contentOps cfg).value none (done.map Prod.snd) ∧
    ∀ d, (done.map Prod.snd).getLast? = some d → m label = recordEntry cfg d

/-- Every entry of the log that the snapshot does not have is among those that are replayed. -/
structure Sound (cfg : IndexConfig F E) (log : List (String × DeltaRecord F FieldsJson))
    (ix : IndexManager F E) : Prop where
  index : IndexInv cfg ix
  reached : ∀ label, ∃ rest, ReachedBut cfg log (content ix) label rest ∧
    ∀ e ∈ rest, toString ix.updateTimestamp ≤ e.1

section Sound

variable {cfg : IndexConfig F E} {log : List (String × DeltaRecord F FieldsJson)}
  {ix : IndexManager F E}

variable {rest : List (String × DeltaRecord F FieldsJson)} {m : ℕ → Option (Entry F E)}

theorem ReachedBut.append {label : ℕ} (h : ReachedBut cfg log m label rest)
    (log' : List (String × DeltaRecord F FieldsJson)) :
    ReachedBut cfg (log ++ log') m label (rest ++ entriesOf label log') := by
  obtain ⟨done, hlog, hm, hlast⟩ := h
  exact ⟨done, by rw [entriesOf_append, hlog, List.append_assoc], hm, hlast⟩

theorem ReachedBut.value_eq {label : ℕ} (h : ReachedBut cfg log m label rest) :
    (contentOps cfg).value (m label) (rest.map Prod.snd) =
      (contentOps cfg).value none ((entriesOf label log).map Prod.snd) := by
  obtain ⟨done, hlog, hm, -⟩ := h
  rw [hlog, List.map_append, KeyedOps.value_append, ← hm]

/-- The entries of later writes are replayed, too. -/
theorem Sound.append (h : Sound cfg log ix) {log' : List (String × DeltaRecord F FieldsJson)}
    (hlog : ∀ e ∈ log', toString ix.updateTimestamp ≤ e.1) : Sound cfg (log ++ log') ix := by
  refine ⟨h.index, fun label => ?_⟩
  obtain ⟨rest, hrest, hkeys⟩ := h.reached label
  refine ⟨_, hrest.append log', fun e he => ?_⟩
  rcases List.mem_append.1 he with he | he
  · exact hkeys e he
  · exact hlog e (List.mem_filter.1 he).1

/-- What recovery makes of a sound snapshot: what the whole log leads to. -/
theorem recover_content (h : Sound cfg log ix) (hsorted : log.Pairwise fun e e' => e.1 < e'.1)
    (hvector : ∀ e ∈ log, e.2.type = .upsert → e.2.vector ≠ []) :
    (contentOps cfg).run (content ix)
        ((log.filter fun e => toString ix.updateTimestamp ≤ e.1).map Prod.snd) =
      (contentOps cfg).run (fun _ => none) (log.map Prod.snd) := by
  funext label
  obtain ⟨rest, hreached, hkeys⟩ := h.reached label
  obtain ⟨done, hlog, hm, hlast⟩ := id hreached
  have hsub : done.Sublist log := by
    refine (List.sublist_append_left done rest).trans ?_
    rw [← hlog]
    exact List.filter_sublist
  have hfilter : entriesOf label (log.filter fun e => toString ix.updateTimestamp ≤ e.1) =
      (done.filter fun e => toString ix.updateTimestamp ≤ e.1) ++ rest := by
    have hrest : (rest.filter fun e => toString ix.updateTimestamp ≤ e.1) = rest :=
      List.filter_eq_self.2 fun e he => by simpa using hkeys e he
    rw [entriesOf, List.filter_comm]
    rw [entriesOf] at hlog
    rw [hlog, List.filter_append, hrest]
  rw [KeyedOps.run_apply, KeyedOps.run_apply, history_map_snd, history_map_snd, hfilter,
    List.map_append, KeyedOps.value_append, ← hreached.value_eq]
  congr 1
  -- the entries of the label that the snapshot has already
  obtain ⟨pre, hpre⟩ := exists_append_filter (hsorted.sublist hsub) (toString ix.updateTimestamp)
  generalize (done.filter fun e => toString ix.updateTimestamp ≤ e.1) = again at hpre ⊢
  cases hagain : (again.map Prod.snd).getLast? with
  | none =>
    rw [List.getLast?_eq_none_iff.1 hagain]
    rfl
  | some d =>
    have hd : (done.map Prod.snd).getLast? = some d := by
      rw [hpre, List.map_append, List.getLast?_append, hagain]
      rfl
    have hvec : d.type = .upsert → d.vector ≠ [] := by
      obtain ⟨e, he, rfl⟩ := List.mem_map.1 (List.mem_of_getLast? hd)
      exact hvector e (hsub.subset he)
    have hentry := hlast d hd
    rw [hpre, List.map_append, KeyedOps.value_append] at hm
    rw [hm]
    exact value_replay hagain hvec (hm.symm.trans hentry)

end Sound

/-! ## The host -/

/-- Where a call of `persist` is: it has seen an update, or dumped the index to a directory that has
no `.write_done` marker yet. -/
inductive PersistPhase (F E : Type) where
  | idle
  | checked
  | dumped (snapshot : IndexManager F E)

/-- A persistent collection on its host: the clock's last reading, and the complete snapshots on
disk, each with its `update_timestamp` as its version. -/
structure Host (ι F E : Type) where
  world : World ι F E
  clock : ℕ
  versions : List (IndexManager F E)
  nowVersion : ℕ
  persist : PersistPhase F E

/-- The steps of the host. -/
inductive HostAct (ι F : Type) where
  | mutate (a : Act ι F)
  | check
  | dump
  | publish
  | crashRecover (now : ℕ → ℕ)

/-- The clock readings of a step from `x` to `y`. -/
def Act.readings {ι : Type} (x y : World ι F E) : Act ι F → List ℕ
  | .write i baseTs nowTs =>
    match x.threads i with
    | .read (.upsertData _ ttl) _ => if ttl > 0 then [baseTs, nowTs] else [baseTs]
    | _ => [baseTs]
  | .applyIndex _ now => if y.index.updateTimestamp = x.index.updateTimestamp then [] else [now]
  | _ => []

namespace Host

variable {ι : Type} [DecidableEq ι]

/-- A new collection with a new index, created at `created`. -/
def empty (cfg : IndexConfig F E) (created : ℕ) : Host ι F E :=
  let ix := { IndexManager.empty cfg with updateTimestamp := created }
  { world := { World.empty cfg with index := ix }
    clock := created
    versions := [ix]
    nowVersion := created
    persist := .idle }

/-- The deltas that a recovery replays. -/
def replayed (x : Host ι F E) : List (DeltaRecord F FieldsJson) :=
  ((newestVersion x.versions).map fun ix =>
    getDeltaDataAfterTs x.world.store ix.updateTimestamp).getD []

/-- One step of the host; the clock is strictly increasing.  `check`, `dump` and `publish` are the
parts of `persist` (1496-1512), the last one with `_clean_index`; after a crash all calls are gone and
the index is the recovered one. -/
def step (cfg : IndexConfig F E) (x : Host ι F E) : HostAct ι F → Option (Host ι F E)
  | .mutate a =>
    (x.world.step cfg a).bind fun y =>
      if (x.clock :: a.readings x.world y).Pairwise (· < ·) then
        some { x with world := y, clock := (a.readings x.world y).getLastD x.clock }
      else none
  | .check =>
    match x.persist with
    | .idle =>
      if x.world.index.updateTimestamp ≤
          ((newestVersion x.versions).map updateTimestamp).getD 0 then some x
      else some { x with persist := .checked }
    | _ => none
  | .dump =>
    match x.persist with
    | .checked => some { x with persist := .dumped x.world.index }
    | _ => none
  | .publish =>
    match x.persist with
    | .dumped snapshot =>
      some { x with
        versions := (x.versions ++ [snapshot]).filter fun v =>
          v.updateTimestamp = x.nowVersion ∨ v.updateTimestamp = snapshot.updateTimestamp
        persist := .idle }
    | _ => none
  | .crashRecover now =>
    (recover cfg x.versions x.world.store now).bind fun ix =>
      if ∀ j < x.replayed.length, x.clock < now j ∧ ∀ k < j, now k < now j then
        some
          { world := { World.empty cfg with store := x.world.store, index := ix }
            clock := max x.clock ix.updateTimestamp
            versions := x.versions
            nowVersion := ((newestVersion x.versions).map updateTimestamp).getD 0
            persist := .idle }
      else none

/-- The condition on a step.  A mutation: it is orderly, its delta keys come in order, and keys and
clock readings have `digits` digits.  A dump: the delta keys of the mutations that are written but not
applied are not below the version of the dump. -/
def Timely (cfg : IndexConfig F E) (digits : ℕ) (x : Host ι F E) : HostAct ι F → Prop
  | .mutate a => World.Orderly cfg x.world a ∧
    match a with
    | .write i baseTs _ => ∀ c ds, x.world.threads i = .read c ds →
        OrderedKeys (table .delta x.world.store) baseTs ds.length ∧
        ∀ k < ds.length, Decimal.numDigits (baseTs + k) = digits
    | .applyIndex _ now => Decimal.numDigits now = digits
    | _ => True
  | .dump => ∀ p ∈ x.world.pending, ∀ e ∈ keyed p.baseTs p.records,
      toString x.world.index.updateTimestamp ≤ e.1
  | .crashRecover now =>
      (∀ ix ∈ newestVersion x.versions, ix.nextLogicalOffset + x.replayed.length ≤ 2 ^ 31) ∧
      ∀ j < x.replayed.length, Decimal.numDigits (now j) = digits
  | _ => True

end Host

/-! ## The invariant of the host -/

theorem Mutation.wellFormed_write (h : WellFormed s) (c : Mutation F)
    (ds : List (DeltaRecord F FieldsJson)) (baseTs nowTs : ℕ) : WellFormed (c.write s ds baseTs nowTs) := by
  cases c with
  | upsertData cands ttl => exact h.putCandsData cands ds ttl true baseTs nowTs
  | deleteData labels => exact h.dropData labels ds true baseTs

variable {d : DeltaRecord F FieldsJson}

theorem Mutation.vector_of_mem {c : Mutation F} (hc : c.RowsCovered cfg s) (hd : d ∈ c.deltaList s)
    (ht : d.type = .upsert) : d.vector ≠ [] := by
  cases c with
  | upsertData cands ttl =>
    rw [deltaList, upsertDeltaList_eq] at hd
    obtain ⟨c, hmem, rfl⟩ := List.mem_map.1 hd
    exact hc.2 c hmem
  | deleteData labels =>
    rw [Mutation.type_of_mem hd] at ht
    cases ht

theorem Mutation.applyTo_updateTimestamp (cfg : IndexConfig F E) (ix : IndexManager F E)
    (c : Mutation F) (ds : List (DeltaRecord F FieldsJson)) (now : ℕ) :
    (c.applyTo cfg ix ds now).updateTimestamp = now ∨
      (c.applyTo cfg ix ds now).updateTimestamp = ix.updateTimestamp := by
  cases c with
  | upsertData cands ttl => exact addData_updateTimestamp cfg ix ds now
  | deleteData labels => exact deleteData_updateTimestamp cfg ix ds now

theorem history_eq_entriesOf (cfg : IndexConfig F E) (label baseTs : ℕ)
    (ds : List (DeltaRecord F FieldsJson)) :
    (entriesOf label (keyed baseTs ds)).map Prod.snd = (contentOps cfg).history label ds := by
  rw [← history_map_snd cfg, map_snd_keyed]

/-- The entries of the log that are still to be applied to the index. -/
def World.pendingEntries {ι : Type} (x : World ι F E) :
    List (String × DeltaRecord F FieldsJson) :=
  x.pending.flatMap fun p => keyed p.baseTs p.records

variable {ι : Type}

theorem World.map_snd_pendingEntries (x : World ι F E) :
    x.pending.flatMap Pending.records = x.pendingEntries.map Prod.snd := by
  rw [pendingEntries, List.map_flatMap]
  simp only [map_snd_keyed]

/-- The last record of a label in a chain of lists, each in the state it was made for. -/
theorem chain_last {m : ℕ → Option (Entry F E)} {ps : List (Pending ι F)}
    (hc : (contentOps cfg).Chain (fun m p => Settled cfg m p.records) Pending.records m ps) {label : ℕ}
    (hd : ((contentOps cfg).history label (ps.flatMap Pending.records)).getLast? = some d) :
    (contentOps cfg).run m (ps.flatMap Pending.records) label = recordEntry cfg d := by
  induction ps generalizing m with
  | nil => simp at hd
  | cons p ps ih =>
    obtain ⟨hp, hps⟩ := hc
    rw [List.flatMap_cons, KeyedOps.history_append] at hd
    rw [List.flatMap_cons, KeyedOps.run_append]
    by_cases hnil : (contentOps cfg).history label (ps.flatMap Pending.records) = []
    · rw [hnil, List.append_nil] at hd
      rw [KeyedOps.run_of_history_eq_nil _ hnil]
      exact hp.last label d hd
    · rw [List.getLast?_append_of_ne_nil _ hnil] at hd
      exact ih hps hd

/-- The snapshots that are on disk or being written to it. -/
def Host.snapshots {ι : Type} (x : Host ι F E) : List (IndexManager F E) :=
  match x.persist with
  | .dumped snapshot => x.versions ++ [snapshot]
  | _ => x.versions

theorem Host.mem_snapshots {x : Host ι F E} {ix : IndexManager F E}
    (h : ix ∈ x.versions) : ix ∈ x.snapshots := by
  unfold snapshots
  split
  · exact List.mem_append_left _ h
  · exact h

/-- The invariant of a host. -/
structure HostInv {ι : Type} (cfg : IndexConfig F E) (digits : ℕ) (x : Host ι F E) : Prop where
  world : World.Inv cfg x.world
  store : WellFormed x.world.store
  vector : ∀ e ∈ deltaEntries x.world.store, e.2.type = .upsert → e.2.vector ≠ []
  reached : ∀ label, ReachedBut cfg (deltaEntries x.world.store) (content x.world.index) label
    (entriesOf label x.world.pendingEntries)
  stamp : x.world.index.updateTimestamp ≤ x.clock ∧
    Decimal.numDigits x.world.index.updateTimestamp = digits
  snapshots : ∀ ix ∈ x.snapshots, Sound cfg (deltaEntries x.world.store) ix ∧
    ix.updateTimestamp ≤ x.clock ∧ Decimal.numDigits ix.updateTimestamp = digits
  nonempty : x.versions ≠ []

theorem deltaEntries_empty : deltaEntries (SortedMap.empty : Store F FieldsJson) = [] := rfl

theorem hostInv_empty (cfg : IndexConfig F E) (created : ℕ) :
    HostInv cfg (Decimal.numDigits created) (Host.empty cfg created : Host ι F E) where
  world := by
    have h : World.Inv cfg (World.empty cfg : World ι F E) := World.inv_empty cfg
    exact ⟨h.index.withTimestamp created, h.mirror, h.chain, h.read, h.made, h.written, h.nodup⟩
  store := wellFormed_empty
  vector := by simp [Host.empty, World.empty, deltaEntries_empty]
  reached := fun label => ⟨[], rfl, rfl, by simp⟩
  stamp := ⟨le_rfl, rfl⟩
  snapshots := by
    intro ix hix
    obtain rfl := List.mem_singleton.1 hix
    exact ⟨⟨(IndexInv.empty cfg).withTimestamp created, fun label =>
      ⟨[], ⟨[], rfl, rfl, by simp⟩, by simp⟩⟩, le_rfl, rfl⟩
  nonempty := by simp [Host.empty]

namespace HostInv

variable {ι : Type} {cfg : IndexConfig F E} {digits : ℕ} {x : Host ι F E}

section

variable (h : HostInv cfg digits x)

include h

/-- The log leads to what the index holds once the pending lists are applied. -/
theorem run_log :
    (contentOps cfg).run (fun _ => none) ((deltaEntries x.world.store).map Prod.snd) =
      (contentOps cfg).run (content x.world.index)
        (x.world.pending.flatMap Pending.records) := by
  funext label
  rw [KeyedOps.run_apply, history_map_snd, ← (h.reached label).value_eq, KeyedOps.run_apply,
    x.world.map_snd_pendingEntries, history_map_snd]

theorem mirror :
    Mirrors cfg x.world.store
      ((contentOps cfg).run (fun _ => none) ((deltaEntries x.world.store).map Prod.snd)) := by
  rw [h.run_log]
  exact h.world.mirror

/-- The last record of a label in the log says what the label ends up with. -/
theorem run_log_last {label : ℕ} {d : DeltaRecord F FieldsJson}
    (hd : ((entriesOf label (deltaEntries x.world.store)).map Prod.snd).getLast? = some d) :
    (contentOps cfg).run (fun _ => none) ((deltaEntries x.world.store).map Prod.snd) label =
      recordEntry cfg d := by
  obtain ⟨done, hlog, -, hlast⟩ := h.reached label
  rw [h.run_log]
  have hrest : (entriesOf label x.world.pendingEntries).map Prod.snd =
      (contentOps cfg).history label (x.world.pending.flatMap Pending.records) := by
    rw [x.world.map_snd_pendingEntries, history_map_snd]
  rw [hlog, List.map_append, hrest] at hd
  by_cases hnil : (contentOps cfg).history label (x.world.pending.flatMap Pending.records) = []
  · rw [hnil, List.append_nil] at hd
    rw [KeyedOps.run_of_history_eq_nil _ hnil]
    exact hlast d hd
  · rw [List.getLast?_append_of_ne_nil _ hnil] at hd
    exact chain_last h.world.chain hd

/-- What recovery leads to in every state that meets the invariant. -/
theorem recover_eq (now : ℕ → ℕ)
    (hfit : ∀ ix ∈ newestVersion x.versions, ix.nextLogicalOffset + x.replayed.length ≤ 2 ^ 31) :
    ∃ ix₀ ∈ x.versions, newestVersion x.versions = some ix₀ ∧
      ∃ ix, recover cfg x.versions x.world.store now = some ix ∧ IndexInv cfg ix ∧
        content ix =
          (contentOps cfg).run (fun _ => none) ((deltaEntries x.world.store).map Prod.snd) ∧
        (ix.updateTimestamp = ix₀.updateTimestamp ∨
          ∃ n < x.replayed.length, ix.updateTimestamp = now n) := by
  obtain ⟨ix₀, hnewest⟩ : ∃ ix₀, newestVersion x.versions = some ix₀ :=
    Option.ne_none_iff_exists'.1 (mt List.argmax_eq_none.1 h.nonempty)
  have hmem : ix₀ ∈ x.versions := List.argmax_mem hnewest
  have hsound := (h.snapshots ix₀ (Host.mem_snapshots hmem)).1
  have hreplayed : x.replayed = getDeltaDataAfterTs x.world.store ix₀.updateTimestamp := by
    rw [Host.replayed, hnewest]
    rfl
  obtain ⟨hindex, hcontent, hstamp⟩ := replay_content hsound.index x.replayed now (hfit ix₀ hnewest)
  refine ⟨ix₀, hmem, hnewest, replay cfg ix₀ x.replayed now, ?_, hindex, ?_, hstamp⟩
  · rw [recover, hnewest, hreplayed]
    rfl
  · rw [hcontent, hreplayed, getDeltaDataAfterTs_eq h.store]
    exact recover_content hsound (deltaEntries_sorted _) h.vector

/-- A step that leaves the store, the index and the pending lists alone. -/
theorem frame {y : World ι F E} (hy : World.Inv cfg y)
    (hstore : y.store = x.world.store) (hindex : y.index = x.world.index)
    (hpending : y.pending = x.world.pending) : HostInv cfg digits { x with world := y } where
  world := hy
  store := hstore ▸ h.store
  vector := hstore ▸ h.vector
  reached := by
    intro label
    have hentries : y.pendingEntries = x.world.pendingEntries := by
      rw [World.pendingEntries, hpending, World.pendingEntries]
    simp only [hstore, hindex, hentries]
    exact h.reached label
  stamp := hindex ▸ h.stamp
  snapshots := hstore ▸ h.snapshots
  nonempty := h.nonempty

end

variable {clock : ℕ}

theorem le_getLastD {rs : List ℕ} (h : (clock :: rs).Pairwise (· < ·)) : clock ≤ rs.getLastD clock := by
  rcases List.eq_nil_or_concat' rs with rfl | ⟨rs, r, rfl⟩
  · exact le_rfl
  · rw [List.getLastD_concat]
    exact ((List.pairwise_cons.1 h).1 r (by simp)).le

variable [DecidableEq ι]

section

variable (h : HostInv cfg digits x)

include h

/-- A timely write: its entries are appended to the log, beyond all versions. -/
theorem write {i : ι} {c : Mutation F}
    {ds : List (DeltaRecord F FieldsJson)} (hi : x.world.threads i = .read c ds) {baseTs nowTs : ℕ}
    (hc : x.Timely cfg digits (.mutate (.write i baseTs nowTs)))
    (hbase : x.clock < baseTs) (hclock : x.clock ≤ clock) :
    HostInv cfg digits { x with
      world := { x.world with
        store := c.write x.world.store ds baseTs nowTs
        threads := Function.update x.world.threads i .written
        pending := x.world.pending ++ [⟨i, c, baseTs, ds⟩] }
      clock := clock } := by
  obtain ⟨horderly, hkeys⟩ := hc
  obtain ⟨hordered, hdigits⟩ := hkeys c ds hi
  have hlog := deltaEntries_write hordered c nowTs
  refine ⟨h.world.write hi horderly, Mutation.wellFormed_write h.store c ds baseTs nowTs, ?_, ?_,
    ⟨h.stamp.1.trans hclock, h.stamp.2⟩, ?_, h.nonempty⟩
  · simp only [hlog]
    intro e he
    rcases List.mem_append.1 he with he | he
    · exact h.vector e he
    · obtain ⟨-, -, -, hmem⟩ := mem_keyed he
      rw [h.world.read i c ds hi] at hmem
      exact Mutation.vector_of_mem (horderly c ds hi).1 hmem
  · intro label
    have hpending : ({ x.world with
          store := c.write x.world.store ds baseTs nowTs
          threads := Function.update x.world.threads i .written
          pending := x.world.pending ++ [⟨i, c, baseTs, ds⟩] } : World ι F E).pendingEntries =
        x.world.pendingEntries ++ keyed baseTs ds := by
      simp [World.pendingEntries]
    rw [hpending, entriesOf_append]
    simp only [hlog]
    exact (h.reached label).append (keyed baseTs ds)
  · intro ix hix
    obtain ⟨hsound, hle, hdig⟩ := h.snapshots ix hix
    refine ⟨?_, hle.trans hclock, hdig⟩
    simp only [hlog]
    refine hsound.append fun e he => ?_
    obtain ⟨k, hk, hkey, -⟩ := mem_keyed he
    rw [hkey, Decimal.toString_le_toString (hdig.trans (hdigits k hk).symm)]
    omega

/-- The content reached by an orderly application. -/
theorem reached_applyIndex {i : ι} {p : Pending ι F} (hp : x.world.pendingOf i = some p) {now : ℕ}
    (hc : World.Orderly cfg x.world (.applyIndex i now)) (label : ℕ) :
    ReachedBut cfg (deltaEntries x.world.store)
      ((contentOps cfg).run (content x.world.index) p.records) label
      (entriesOf label ((x.world.pending.eraseP fun p => p.thread = i).flatMap
        fun p => keyed p.baseTs p.records)) := by
  obtain ⟨pre, post, heq, -, herase, hapart, hsettled, -⟩ := h.world.settled hp hc
  obtain ⟨done, hlog, hm, hlast⟩ := h.reached label
  rw [World.pendingEntries, heq, List.flatMap_append, List.flatMap_cons, entriesOf_append,
    entriesOf_append] at hlog
  rw [herase, List.flatMap_append, entriesOf_append]
  have hown := history_eq_entriesOf cfg label p.baseTs p.records
  by_cases hnil : (contentOps cfg).history label p.records = []
  · rw [hnil, List.map_eq_nil_iff] at hown
    rw [hown, List.nil_append] at hlog
    refine ⟨done, hlog, ?_, ?_⟩
    · rw [KeyedOps.run_of_history_eq_nil _ hnil, hm]
    · rw [KeyedOps.run_of_history_eq_nil _ hnil]
      exact hlast
  · -- no earlier pending list has the label
    have hpre : entriesOf label (pre.flatMap fun p => keyed p.baseTs p.records) = [] := by
      rw [entriesOf, List.filter_eq_nil_iff]
      intro e he
      obtain ⟨q, hq, heq'⟩ := List.mem_flatMap.1 he
      obtain ⟨-, -, -, hmem⟩ := mem_keyed heq'
      have hq' := ((hapart q hq).history_eq_nil_or label).resolve_right hnil
      exact decide_eq_true_iff.not.2 ((contentOps cfg).history_eq_nil.1 hq' e.2 hmem)
    rw [hpre, List.nil_append] at hlog ⊢
    refine ⟨done ++ entriesOf label (keyed p.baseTs p.records), by
      rw [hlog, List.append_assoc], ?_, ?_⟩
    · rw [KeyedOps.run_apply, hm, List.map_append, hown, KeyedOps.value_append]
    · intro d hd
      rw [List.map_append, hown, List.getLast?_append_of_ne_nil _ hnil] at hd
      exact hsettled.last label d hd

/-- A timely application. -/
theorem applyIndex {i : ι} {p : Pending ι F} (hp : x.world.pendingOf i = some p) {now : ℕ}
    (hc : x.Timely cfg digits (.mutate (.applyIndex i now))) (hclock : x.clock ≤ clock)
    (hnow : (p.call.applyTo cfg x.world.index p.records now).updateTimestamp ≠
      x.world.index.updateTimestamp → now ≤ clock) :
    HostInv cfg digits { x with
      world := { x.world with
        index := p.call.applyTo cfg x.world.index p.records now
        threads := Function.update x.world.threads i .applied
        pending := x.world.pending.eraseP fun p => p.thread = i }
      clock := clock } := by
  obtain ⟨horderly, hdigits⟩ := hc
  have hmade := h.world.made p (World.mem_pending_of_pendingOf hp)
  obtain ⟨-, hcontent⟩ := Mutation.applyTo_content h.world.index hmade.1 hmade.2
    (horderly p hp).1 now
  refine ⟨h.world.applyIndex hp horderly, h.store, h.vector, fun label => ?_, ?_, ?_,
    h.nonempty⟩
  · rw [hcontent]
    exact h.reached_applyIndex hp horderly label
  · by_cases hts : (p.call.applyTo cfg x.world.index p.records now).updateTimestamp =
        x.world.index.updateTimestamp
    · simp only [hts]
      exact ⟨h.stamp.1.trans hclock, h.stamp.2⟩
    · have hts' := (Mutation.applyTo_updateTimestamp cfg x.world.index p.call p.records
        now).resolve_right hts
      have hle := hnow hts
      simp only [hts']
      exact ⟨hle, hdigits⟩
  · intro ix hix
    obtain ⟨hsound, hle, hdig⟩ := h.snapshots ix hix
    exact ⟨hsound, hle.trans hclock, hdig⟩

/-- A mutation step, by what it does to the world. -/
theorem mutate {a : Act ι F}
    (hc : x.Timely cfg digits (.mutate a)) {y : World ι F E} (hs : x.world.step cfg a = some y)
    (hr : (x.clock :: a.readings x.world y).Pairwise (· < ·)) :
    HostInv cfg digits
      { x with world := y, clock := (a.readings x.world y).getLastD x.clock } := by
  have hclock := le_getLastD hr
  have hinv := h.world.step hc.1 hs
  cases a with
  | enter i c | readOld i | leave i =>
    simp only [World.step] at hs
    split at hs
    · cases hs
      exact h.frame hinv rfl rfl rfl
    · cases hs
  | write i baseTs nowTs =>
    simp only [World.step] at hs
    split at hs
    · rename_i c ds hi
      cases hs
      refine h.write hi hc ?_ hclock
      refine (List.pairwise_cons.1 hr).1 baseTs ?_
      simp only [Act.readings, hi]
      split <;> [split_ifs; skip] <;> simp
    · cases hs
  | applyIndex i now =>
    simp only [World.step] at hs
    split at hs
    · rename_i p hi hp
      cases hs
      refine h.applyIndex hp hc hclock fun hne => ?_
      simp [Act.readings, hne]
    · cases hs

/-- A timely dump is sound. -/
theorem dump (hc : x.Timely cfg digits .dump) :
    HostInv cfg digits { x with persist := .dumped x.world.index } := by
  refine ⟨h.world, h.store, h.vector, h.reached, h.stamp, ?_, h.nonempty⟩
  intro ix hix
  rcases List.mem_append.1 hix with hix | hix
  · exact h.snapshots ix (Host.mem_snapshots hix)
  · obtain rfl := List.mem_singleton.1 hix
    refine ⟨⟨h.world.index, fun label => ⟨_, h.reached label, fun e he => ?_⟩⟩, h.stamp⟩
    obtain ⟨p, hp, he'⟩ := List.mem_flatMap.1 (List.mem_filter.1 he).1
    exact hc p hp e he'

/-- Recovery starts over from the log. -/
theorem crashRecover {now : ℕ → ℕ} (hc : x.Timely cfg digits (.crashRecover now)) {ix : IndexManager F E}
    (hs : recover cfg x.versions x.world.store now = some ix) (nowVersion : ℕ) :
    HostInv cfg digits
      ({ world := { World.empty cfg with store := x.world.store, index := ix }
         clock := max x.clock ix.updateTimestamp
         versions := x.versions
         nowVersion := nowVersion
         persist := .idle } : Host ι F E) := by
  obtain ⟨ix₀, hmem, -, ix', hrec, hindex, hcontent, hstamp⟩ := h.recover_eq now hc.1
  obtain rfl : ix' = ix := Option.some.inj (hrec.symm.trans hs)
  refine ⟨⟨hindex, ?_, trivial, by simp [World.empty], by simp [World.empty],
    by simp [World.empty], by simp [World.empty]⟩, h.store, h.vector, fun label => ?_,
    ⟨le_max_right _ _, ?_⟩, ?_, h.nonempty⟩
  · simp only [hcontent]
    exact h.mirror
  · have hlog : (contentOps cfg).run (fun _ => none)
        ((deltaEntries x.world.store).map Prod.snd) label =
        (contentOps cfg).value none ((entriesOf label (deltaEntries x.world.store)).map Prod.snd) := by
      rw [KeyedOps.run_apply, history_map_snd]
    refine ⟨entriesOf label (deltaEntries x.world.store), (List.append_nil _).symm, ?_, ?_⟩
    · simp only [hcontent, hlog]
    · intro d hd
      simp only [hcontent]
      exact h.run_log_last hd
  · rcases hstamp with hts | ⟨n, hn, hts⟩
    · simp only [hts]
      exact (h.snapshots ix₀ (Host.mem_snapshots hmem)).2.2
    · simp only [hts]
      exact hc.2 n hn
  · intro v hv
    obtain ⟨hsound, hle, hdig⟩ := h.snapshots v (Host.mem_snapshots hv)
    exact ⟨hsound, hle.trans (le_max_left _ _), hdig⟩

/-- Every timely step keeps the invariant. -/
theorem step {a : HostAct ι F} (hc : x.Timely cfg digits a)
    {y : Host ι F E} (hs : x.step cfg a = some y) : HostInv cfg digits y := by
  cases a with
  | mutate a =>
    obtain ⟨w, hw, hif⟩ := Option.bind_eq_some_iff.1 hs
    split_ifs at hif with hr
    cases hif
    exact h.mutate hc hw hr
  | check =>
    simp only [Host.step] at hs
    split at hs
    · rename_i hidle
      split_ifs at hs
      · cases hs
        exact h
      · cases hs
        have hsnap := h.snapshots
        rw [Host.snapshots, hidle] at hsnap
        exact ⟨h.world, h.store, h.vector, h.reached, h.stamp, hsnap, h.nonempty⟩
    · cases hs
  | dump =>
    simp only [Host.step] at hs
    split at hs
    · cases hs
      exact h.dump hc
    · cases hs
  | publish =>
    simp only [Host.step] at hs
    split at hs
    · rename_i snapshot hdumped
      cases hs
      have hsnap := h.snapshots
      rw [Host.snapshots, hdumped] at hsnap
      refine ⟨h.world, h.store, h.vector, h.reached, h.stamp, fun ix hix => ?_, ?_⟩
      · exact hsnap ix (List.mem_filter.1 hix).1
      · refine List.ne_nil_of_mem (a := snapshot) (List.mem_filter.2 ⟨by simp, ?_⟩)
        simp
    · cases hs
  | crashRecover now =>
    obtain ⟨ix, hix, hif⟩ := Option.bind_eq_some_iff.1 hs
    split_ifs at hif
    cases hif
    exact h.crashRecover hc hix _

end

end HostInv

/-! ## Recovery loses no write -/

/-- **Recovery loses no write.**  In every timely run from a new collection, recovery after a crash
succeeds at every point and leads to an index that holds, for every label, exactly the row of the
store, and nothing for a label without a row. -/
theorem recover_agrees {ι : Type} [DecidableEq ι] (cfg : IndexConfig F E) (created : ℕ) {x : Host ι F E}
    (h : Reaches (Host.step cfg) (Host.Timely cfg (Decimal.numDigits created))
      (Host.empty cfg created) x)
    (hfit : ∀ ix ∈ newestVersion x.versions, ix.nextLogicalOffset + x.replayed.length ≤ 2 ^ 31)
    (now : ℕ → ℕ) :
    ∃ ix, recover cfg x.versions x.world.store now = some ix ∧ Agrees cfg x.world.store ix := by
  have hinv : HostInv cfg (Decimal.numDigits created) x :=
    h.invariant (hostInv_empty cfg created) fun _ _ _ hi hc hs => hi.step hc hs
  obtain ⟨_, _, _, ix, hrec, hindex, hcontent, _⟩ := hinv.recover_eq now hfit
  exact ⟨ix, hrec, hindex.agrees (hcontent ▸ hinv.mirror)⟩

/-- The index is dumped between the write of an insertion and its application, and the last
application came before that write. -/
def keptActs : List (HostAct Bool ℕ) :=
  [.mutate (.enter true (.upsertData [colorCand 2 "blue"] 0)), .mutate (.readOld true),
    .mutate (.write true 11 0), .mutate (.applyIndex true 12),
    .mutate (.enter false (.upsertData [colorCand 1 "red"] 0)), .mutate (.readOld false),
    .mutate (.write false 13 0), .check, .dump, .publish]

theorem recover_agrees_keptActs :
    ∃ x, runActs (Host.step colorConfig) (Host.empty colorConfig 10) keptActs = some x ∧
      ∃ ix, recover colorConfig x.versions x.world.store (fun n => 20 + n) = some ix ∧
        Agrees colorConfig x.world.store ix := by
  have hmeet : ActsMeet (Host.step colorConfig) (Host.Timely colorConfig (Decimal.numDigits 10))
      (Host.empty colorConfig 10) keptActs := by
    refine ⟨⟨trivial, trivial⟩, fun x1 h1 => ?_⟩
    obtain rfl := Option.some.inj h1
    refine ⟨⟨trivial, trivial⟩, fun x2 h2 => ?_⟩
    obtain rfl := Option.some.inj h2
    refine ⟨⟨?_, ?_⟩, fun x3 h3 => ?_⟩
    · rintro c ds ⟨⟩
      refine ⟨⟨batchCovered_of_nodup _ _ (by decide), by decide⟩, ?_⟩
      rintro (_ | _) c' ds' hj hr
      · cases hr
      · exact absurd rfl hj
    · rintro c ds ⟨⟩
      decide +kernel
    obtain rfl := Option.some.inj h3
    refine ⟨⟨?_, ?_⟩, fun x4 h4 => ?_⟩
    · rintro p ⟨⟩
      unfold World.LabelsApart Mutation.Fits
      decide +kernel
    · decide +kernel
    obtain rfl := Option.some.inj h4
    refine ⟨⟨trivial, trivial⟩, fun x5 h5 => ?_⟩
    obtain rfl := Option.some.inj h5
    refine ⟨⟨trivial, trivial⟩, fun x6 h6 => ?_⟩
    obtain rfl := Option.some.inj h6
    refine ⟨⟨?_, ?_⟩, fun x7 h7 => ?_⟩
    · rintro c ds ⟨⟩
      refine ⟨⟨batchCovered_of_nodup _ _ (by decide), by decide⟩, ?_⟩
      rintro (_ | _) c' ds' hj hr
      · exact absurd rfl hj
      · cases hr
    · rintro c ds ⟨⟩
      decide +kernel
    obtain rfl := Option.some.inj h7
    refine ⟨trivial, fun x8 h8 => ?_⟩
    obtain rfl := Option.some.inj h8
    refine ⟨?_, fun x9 h9 => ?_⟩
    · change ∀ p ∈ _, _
      decide +kernel
    obtain rfl := Option.some.inj h9
    exact ⟨trivial, fun _ _ => trivial⟩
  refine ⟨_, rfl, recover_agrees colorConfig 10 (Reaches.of_runActs hmeet rfl) ?_ _⟩
  rintro ix ⟨⟩
  decide +kernel

/-- The index is dumped between the write of one insertion and its application, after the
application of a later one. -/
def lostActs : List (HostAct Bool ℕ) :=
  [.mutate (.enter false (.upsertData [colorCand 1 "red"] 0)),
    .mutate (.enter true (.upsertData [colorCand 2 "blue"] 0)), .mutate (.readOld false),
    .mutate (.write false 11 0), .mutate (.readOld true), .mutate (.write true 12 0),
    .mutate (.applyIndex true 13), .check, .dump, .publish, .mutate (.applyIndex false 14),
    .mutate (.leave false), .mutate (.leave true)]

/-- Both insertions have finished and both rows are in the index, but after a crash the first one is
missing. -/
theorem recover_lostActs :
    ∃ x, runActs (Host.step colorConfig) (Host.empty colorConfig 10) lostActs = some x ∧
      (∀ i, x.world.threads i = .idle) ∧ candOf x.world.store 1 = some (colorCand 1 "red") ∧
      (x.world.index.points.get 1).isSome ∧
      ∃ ix, recover colorConfig x.versions x.world.store (fun n => 20 + n) = some ix ∧
        (ix.points.get 1).isSome = false :=
  ⟨_, rfl, by rintro (_ | _) <;> rfl, by decide +kernel, by decide +kernel, _, rfl,
    by decide +kernel⟩

end OpenViking.VectorDB
