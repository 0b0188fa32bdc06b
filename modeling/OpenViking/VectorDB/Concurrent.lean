import OpenViking.Common.KeyedLog
import OpenViking.VectorDB.Collection

/-!
# Concurrent mutations

`upsert_data` and `delete_data` enter the shared side of the index mutation barrier, read the old
fields of their labels, write the store, apply their delta list to the index and leave.  The barrier
does not order them among each other, so these steps of different calls interleave freely.

The index holds what the written delta lists lead to, less those that are not applied yet
(`World.pending`).  Two lists that share a label do not commute, and a list that is read before
another call's write to the same label has stale old fields.  Results:

* `Inv.step`: in an orderly step the store stays what the index will hold once all lists are applied;
* `concurrent_agree`: in such a run store and index agree whenever all calls have finished.
-/

namespace OpenViking.VectorDB

open IndexManager

variable {F E : Type}

/-! ## Delta records as operations on the content -/

/-- What a delta record makes of the entry of its label. -/
def recordEffect (cfg : IndexConfig F E) (d : DeltaRecord F FieldsJson)
    (old : Option (Entry F E)) : Option (Entry F E) :=
  match d.type with
  | .upsert => some (upsertEntry cfg old d)
  | .delete => none

/-- The content of an index under delta records. -/
def contentOps (cfg : IndexConfig F E) : KeyedOps ℕ (Entry F E) (DeltaRecord F FieldsJson) where
  key := DeltaRecord.label
  effect := recordEffect cfg

variable {ds : List (DeltaRecord F FieldsJson)}

theorem run_eq_upsertContent (cfg : IndexConfig F E)
    (h : ∀ d ∈ ds, d.type = .upsert) (m : ℕ → Option (Entry F E)) :
    (contentOps cfg).run m ds = upsertContent cfg m ds := by
  induction ds generalizing m with
  | nil => rfl
  | cons d ds ih =>
    obtain ⟨hd, hds⟩ := List.forall_mem_cons.1 h
    rw [KeyedOps.run_cons, ih hds]
    simp only [KeyedOps.apply, contentOps, recordEffect, hd]
    rfl

theorem run_eq_deleteContent (cfg : IndexConfig F E)
    (h : ∀ d ∈ ds, d.type = .delete) (m : ℕ → Option (Entry F E)) :
    (contentOps cfg).run m ds = deleteContent m ds := by
  induction ds generalizing m with
  | nil => rfl
  | cons d ds ih =>
    obtain ⟨hd, hds⟩ := List.forall_mem_cons.1 h
    rw [KeyedOps.run_cons, ih hds]
    simp only [KeyedOps.apply, contentOps, recordEffect, hd]
    rfl

/-- The entry that a record stands for. -/
def recordEntry (cfg : IndexConfig F E) (d : DeltaRecord F FieldsJson) : Option (Entry F E) :=
  match d.type with
  | .upsert => some { vector := cfg.encode d.vector, sparse := sparseOf d, keys := cfg.keysOf d.fields }
  | .delete => none

/-! ## Mutations -/

/-- A call of `upsert_data` or `delete_data`, after the conversion of its rows or keys. -/
inductive Mutation (F : Type) where
  | upsertData (candsList : List (CandidateData F FieldsJson)) (ttl : ℕ)
  | deleteData (labelList : List ℕ)

namespace Mutation

/-- The labels it writes. -/
def labels : Mutation F → List ℕ
  | upsertData cands _ => cands.map CandidateData.label
  | deleteData labels => labels

/-- The delta list it makes of the rows it reads. -/
def deltaList (s : Store F FieldsJson) : Mutation F → List (DeltaRecord F FieldsJson)
  | upsertData cands _ => upsertDeltaList s cands true
  | deleteData labels => deleteDeltaList s labels true

/-- Its write to the store. -/
def write (s : Store F FieldsJson) (deltaList : List (DeltaRecord F FieldsJson))
    (baseTs nowTs : ℕ) : Mutation F → Store F FieldsJson
  | upsertData cands ttl => putCandsData s cands deltaList ttl true baseTs nowTs
  | deleteData labels => dropData s labels deltaList true baseTs

/-- `index.upsert_data(delta_list)` and `index.delete_data(delta_list)`. -/
def applyTo (cfg : IndexConfig F E) (ix : IndexManager F E)
    (deltaList : List (DeltaRecord F FieldsJson)) (now : ℕ) : Mutation F → IndexManager F E
  | upsertData _ _ => IndexManager.addData cfg ix deltaList now
  | deleteData _ => IndexManager.deleteData cfg ix deltaList now

/-- The type of its records. -/
def recordType : Mutation F → DeltaType
  | upsertData _ _ => .upsert
  | deleteData _ => .delete

/-- Its rows are covered and have vectors. -/
def RowsCovered (cfg : IndexConfig F E) (s : Store F FieldsJson) : Mutation F → Prop
  | upsertData cands _ => BatchCovered cfg s cands ∧ ∀ c ∈ cands, c.vector ≠ []
  | deleteData _ => True

/-- The index has offsets for its new labels. -/
def Fits (ix : IndexManager F E) : Mutation F → Prop
  | upsertData cands _ => ix.OffsetsFit (cands.map CandidateData.label)
  | deleteData _ => True

variable (s : Store F FieldsJson)

theorem upsertDeltaList_eq (cands : List (CandidateData F FieldsJson)) :
    upsertDeltaList s cands true = upsertRecords s cands :=
  addCandsData_records s cands 0 0 0

theorem deleteDeltaList_eq (labels : List ℕ) :
    deleteDeltaList s labels true = deleteRecords s labels :=
  deleteData_records s labels 0

variable {c : Mutation F}

theorem type_of_mem {s : Store F FieldsJson} {d : DeltaRecord F FieldsJson}
    (h : d ∈ c.deltaList s) : d.type = c.recordType := by
  cases c with
  | upsertData cands ttl =>
    rw [deltaList, upsertDeltaList_eq] at h
    obtain ⟨c, -, rfl⟩ := List.mem_map.1 h
    rfl
  | deleteData labels =>
    rw [deltaList, deleteDeltaList_eq] at h
    obtain ⟨l, -, rfl⟩ := List.mem_map.1 h
    rfl

theorem label_deltaList (c : Mutation F) : (c.deltaList s).map DeltaRecord.label = c.labels := by
  cases c with
  | upsertData cands ttl => rw [deltaList, upsertDeltaList_eq, label_upsertRecords, labels]
  | deleteData labels => rw [deltaList, deleteDeltaList_eq, label_deleteRecords, Mutation.labels]

/-- The delta list depends on the rows of its labels only. -/
theorem deltaList_congr {s s' : Store F FieldsJson}
    (h : ∀ l ∈ c.labels, candOf s' l = candOf s l) : c.deltaList s' = c.deltaList s := by
  cases c with
  | upsertData cands ttl =>
    rw [deltaList, deltaList, upsertDeltaList_eq, upsertDeltaList_eq]
    refine List.map_congr_left fun c hc => ?_
    rw [oldFieldsOf, oldFieldsOf, h c.label (List.mem_map_of_mem hc)]
  | deleteData labels =>
    rw [deltaList, deltaList, deleteDeltaList_eq, deleteDeltaList_eq]
    refine List.map_congr_left fun l hl => ?_
    rw [oldFieldsOf, oldFieldsOf, h l hl]

theorem candOf_write_of_not_mem {l : ℕ} (h : l ∉ c.labels)
    (s : Store F FieldsJson) (ds : List (DeltaRecord F FieldsJson)) (baseTs nowTs : ℕ) :
    candOf (c.write s ds baseTs nowTs) l = candOf s l := by
  cases c with
  | upsertData cands ttl =>
    rw [write, candOf_putCandsData, find_stampExpire_of_not_mem h, Option.none_or]
  | deleteData labels =>
    rw [write, candOf_dropData]
    exact if_neg h

end Mutation

/-! ## What a write leaves -/

section Settled

variable {cfg : IndexConfig F E} {s : Store F FieldsJson} {m : ℕ → Option (Entry F E)}
  {c : Mutation F}

/-- A delta list in a state that it was made for: its deletions clear all the keys of their labels,
and the last record of a label says what the label ends up with. -/
structure Settled (cfg : IndexConfig F E) (m : ℕ → Option (Entry F E))
    (ds : List (DeltaRecord F FieldsJson)) : Prop where
  cover : (∀ d ∈ ds, d.type = .delete) → IndexInv.OldFieldsCover cfg m ds
  last : ∀ label d, ((contentOps cfg).history label ds).getLast? = some d →
    (contentOps cfg).run m ds label = recordEntry cfg d

/-- The write of a covered mutation keeps the mirror, once its delta list is applied. -/
theorem Mirrors.write (h : Mirrors cfg s m) (hc : c.RowsCovered cfg s) (baseTs nowTs : ℕ) :
    Mirrors cfg (c.write s (c.deltaList s) baseTs nowTs)
      ((contentOps cfg).run m (c.deltaList s)) := by
  cases c with
  | upsertData cands ttl =>
    rw [run_eq_upsertContent cfg fun d hd => Mutation.type_of_mem (c := .upsertData cands ttl) hd]
    have hup := h.upsert hc.1 hc.2 ttl baseTs nowTs
    rw [← Mutation.upsertDeltaList_eq] at hup
    exact hup
  | deleteData labels =>
    rw [run_eq_deleteContent cfg fun d hd => Mutation.type_of_mem (c := .deleteData labels) hd]
    have hdel := h.delete labels baseTs
    rw [← Mutation.deleteDeltaList_eq] at hdel
    exact hdel

theorem getLast?_history_upsertRecords (cfg : IndexConfig F E) (s : Store F FieldsJson)
    (cands : List (CandidateData F FieldsJson)) (label : ℕ) :
    ((contentOps cfg).history label (upsertRecords s cands)).getLast? =
      (lastRow cands label).map fun c => upsertRecord c (oldFieldsOf s c.label) := by
  rw [KeyedOps.history, upsertRecords, List.getLast?_eq_head?_reverse, ← List.filter_reverse,
    List.head?_filter, ← List.map_reverse, List.find?_map]
  rfl

theorem Mirrors.settled (h : Mirrors cfg s m) (hc : c.RowsCovered cfg s) :
    Settled cfg m (c.deltaList s) := by
  have hwrite := h.write hc 0 0
  cases c with
  | upsertData cands ttl =>
    constructor
    · intro hdel d hd
      have hup := Mutation.type_of_mem hd
      rw [hdel d hd] at hup
      cases hup
    · intro label d hd
      rw [hwrite label]
      rw [Mutation.deltaList, Mutation.upsertDeltaList_eq, getLast?_history_upsertRecords] at hd
      obtain ⟨last, hlast, rfl⟩ := Option.map_eq_some_iff.1 hd
      obtain ⟨stamp, hstamp, hcand⟩ := candOf_upsert cfg s cands ttl true 0 0 label
      rw [hlast, Option.map_some, Option.some_or] at hcand
      have hput : candOf (Mutation.write s (Mutation.deltaList s (.upsertData cands ttl)) 0 0
          (.upsertData cands ttl)) label = some (stamp last) := hcand
      rw [hput, Option.map_some, (hstamp last).2.2]
      rfl
  | deleteData labels =>
    constructor
    · intro _
      rw [Mutation.deltaList, Mutation.deleteDeltaList_eq]
      exact h.keysMirror.oldFieldsCover labels
    · intro label d hd
      obtain ⟨hmem, hlabel⟩ := (contentOps cfg).mem_history.1 (List.mem_of_getLast? hd)
      have hin : label ∈ (Mutation.deltaList s (.deleteData labels)).map DeltaRecord.label :=
        List.mem_map.2 ⟨d, hmem, hlabel⟩
      rw [run_eq_deleteContent cfg fun d hd => Mutation.type_of_mem (c := .deleteData labels) hd,
        deleteContent_apply, if_pos hin, recordEntry, Mutation.type_of_mem hmem]
      rfl

/-- Whether a list is settled depends on the entries of its labels only. -/
theorem Settled.congr {m' : ℕ → Option (Entry F E)} {ds : List (DeltaRecord F FieldsJson)}
    (heq : ∀ d ∈ ds, m d.label = m' d.label) (h : Settled cfg m ds) : Settled cfg m' ds := by
  constructor
  · intro hdel d hd e he
    exact h.cover hdel d hd e ((heq d hd).trans he)
  · intro label d hd
    obtain ⟨hmem, hlabel⟩ := (contentOps cfg).mem_history.1 (List.mem_of_getLast? hd)
    rw [← h.last label d hd]
    exact (contentOps cfg).run_congr (hlabel ▸ (heq d hmem).symm)

end Settled

/-! ## The machine -/

/-- Where a thread is in its call. -/
inductive Phase (F : Type) where
  | idle
  | entered (c : Mutation F)
  | read (c : Mutation F) (deltaList : List (DeltaRecord F FieldsJson))
  | written
  | applied

/-- A mutation between its write and its application to the index. -/
structure Pending (ι F : Type) where
  thread : ι
  call : Mutation F
  baseTs : ℕ
  records : List (DeltaRecord F FieldsJson)

/-- A collection under concurrent calls.  `pending` lists the mutations that are written and not yet
applied, in the order of their writes. -/
structure World (ι F E : Type) where
  store : Store F FieldsJson
  index : IndexManager F E
  activeMutations : ℕ
  threads : ι → Phase F
  pending : List (Pending ι F)

/-- The steps of a call. -/
inductive Act (ι F : Type) where
  | enter (i : ι) (c : Mutation F)
  | readOld (i : ι)
  | write (i : ι) (baseTs nowTs : ℕ)
  | applyIndex (i : ι) (now : ℕ)
  | leave (i : ι)

namespace World

variable {ι : Type} [DecidableEq ι]

/-- A collection with an empty store and an empty index, and no calls. -/
def empty (cfg : IndexConfig F E) : World ι F E :=
  ⟨SortedMap.empty, IndexManager.empty cfg, 0, fun _ => .idle, []⟩

/-- The pending mutation of a thread. -/
def pendingOf (x : World ι F E) (i : ι) : Option (Pending ι F) :=
  x.pending.find? fun p => p.thread = i

/-- One step of one thread, `none` when the thread is not there.  `enter` and `leave` are those of
`_IndexMutationBarrier.mutation` without publishers; `readOld` and `write` are the two store calls
of `add_cands_data` and `delete_data`. -/
def step (cfg : IndexConfig F E) (x : World ι F E) : Act ι F → Option (World ι F E)
  | .enter i c =>
    match x.threads i with
    | .idle => some { x with
        activeMutations := x.activeMutations + 1
        threads := Function.update x.threads i (.entered c) }
    | _ => none
  | .readOld i =>
    match x.threads i with
    | .entered c => some { x with
        threads := Function.update x.threads i (.read c (c.deltaList x.store)) }
    | _ => none
  | .write i baseTs nowTs =>
    match x.threads i with
    | .read c ds => some { x with
        store := c.write x.store ds baseTs nowTs
        threads := Function.update x.threads i .written
        pending := x.pending ++ [⟨i, c, baseTs, ds⟩] }
    | _ => none
  | .applyIndex i now =>
    match x.threads i, x.pendingOf i with
    | .written, some p => some { x with
        index := p.call.applyTo cfg x.index p.records now
        threads := Function.update x.threads i .applied
        pending := x.pending.eraseP fun p => p.thread = i }
    | _, _ => none
  | .leave i =>
    match x.threads i with
    | .applied => some { x with
        activeMutations := x.activeMutations - 1
        threads := Function.update x.threads i .idle }
    | _ => none

/-- The mutations share no label. -/
def LabelsApart (c c' : Mutation F) : Prop := ∀ l ∈ c.labels, l ∉ c'.labels

/-- The condition on a step.  A write: no other thread has read a label that it writes and is still
to write it; its rows are covered.  An application to the index: no earlier write to one of its
labels is pending; there are offsets for its labels. -/
def Orderly (cfg : IndexConfig F E) (x : World ι F E) : Act ι F → Prop
  | .write i _ _ => ∀ c ds, x.threads i = .read c ds → c.RowsCovered cfg x.store ∧
      ∀ j c' ds', j ≠ i → x.threads j = .read c' ds' → LabelsApart c' c
  | .applyIndex i _ => ∀ p, x.pendingOf i = some p → p.call.Fits x.index ∧
      ∀ q ∈ x.pending.takeWhile fun q => q.thread ≠ i, LabelsApart q.call p.call
  | _ => True

end World

/-! ## The invariant -/

section Apply

variable {cfg : IndexConfig F E} {ix : IndexManager F E} {c : Mutation F}
  {ds : List (DeltaRecord F FieldsJson)}

/-- A delta list applied to the index is run on its content. -/
theorem Mutation.applyTo_content (h : IndexInv cfg ix)
    (hl : ds.map DeltaRecord.label = c.labels) (ht : ∀ d ∈ ds, d.type = c.recordType)
    (hfit : c.Fits ix) (now : ℕ) :
    IndexInv cfg (c.applyTo cfg ix ds now) ∧
      content (c.applyTo cfg ix ds now) = (contentOps cfg).run (content ix) ds := by
  cases c with
  | upsertData cands ttl =>
    rw [run_eq_upsertContent cfg ht]
    exact h.addData (hl ▸ hfit) now
  | deleteData labels =>
    rw [run_eq_deleteContent cfg ht]
    exact h.deleteData ds now

theorem Mutation.bitsLive_applyTo (h : IndexInv cfg ix) (hb : BitsLive ix)
    (hl : ds.map DeltaRecord.label = c.labels) (ht : ∀ d ∈ ds, d.type = c.recordType)
    (hfit : c.Fits ix) (hs : Settled cfg (content ix) ds) (now : ℕ) :
    BitsLive (c.applyTo cfg ix ds now) := by
  cases c with
  | upsertData cands ttl => exact h.bitsLive_addData hb (hl ▸ hfit) now
  | deleteData labels => exact h.bitsLive_deleteData hb (hs.cover ht) now

end Apply

/-- The delta list is one of the call. -/
def Pending.Made {ι : Type} (p : Pending ι F) : Prop :=
  p.records.map DeltaRecord.label = p.call.labels ∧ ∀ d ∈ p.records, d.type = p.call.recordType

namespace World

variable {ι : Type} {cfg : IndexConfig F E} {x : World ι F E}

theorem LabelsApart.records {p q : Pending ι F} (h : LabelsApart q.call p.call) (hq : q.Made) (hp : p.Made) :
    (contentOps cfg).Apart q.records p.records := by
  intro d hd e he hkey
  have hd' : d.label ∈ q.call.labels := hq.1 ▸ List.mem_map_of_mem hd
  have he' : e.label ∈ p.call.labels := hp.1 ▸ List.mem_map_of_mem he
  exact h _ hd' ((show d.label = e.label from hkey) ▸ he')

/-- The store mirrors what the index will hold once the pending lists are applied, each of them in
the state it was made for; delta lists not yet written are up to date. -/
structure Inv (cfg : IndexConfig F E) (x : World ι F E) : Prop where
  index : IndexInv cfg x.index
  mirror : Mirrors cfg x.store
    ((contentOps cfg).run (content x.index) (x.pending.flatMap Pending.records))
  chain : (contentOps cfg).Chain (fun m p => Settled cfg m p.records) Pending.records
    (content x.index) x.pending
  read : ∀ i c ds, x.threads i = .read c ds → ds = c.deltaList x.store
  made : ∀ p ∈ x.pending, p.Made
  written : ∀ p ∈ x.pending, x.threads p.thread = .written
  nodup : (x.pending.map Pending.thread).Nodup

theorem inv_empty (cfg : IndexConfig F E) : Inv cfg (empty cfg : World ι F E) where
  index := IndexInv.empty cfg
  mirror := fun _ => rfl
  chain := trivial
  read := by simp [empty]
  made := by simp [empty]
  written := by simp [empty]
  nodup := by simp [empty]

variable [DecidableEq ι]

variable {i : ι}

/-- A thread that is in no store or index call moves: only what it has read matters. -/
theorem Inv.move (h : Inv cfg x) {t : Phase F} (hi : x.threads i ≠ .written)
    (ht : ∀ c ds, t = .read c ds → ds = c.deltaList x.store) (n : ℕ) :
    Inv cfg { x with activeMutations := n, threads := Function.update x.threads i t } where
  index := h.index
  mirror := h.mirror
  chain := h.chain
  read := by
    intro j c ds hj
    simp only [Function.update_apply] at hj
    split_ifs at hj with hji
    · exact ht c ds hj
    · exact h.read j c ds hj
  made := h.made
  written := by
    intro p hp
    have hw := h.written p hp
    have hne : p.thread ≠ i := by
      rintro rfl
      exact hi hw
    rw [← hw]
    exact Function.update_of_ne hne _ _
  nodup := h.nodup

/-- A write appends its delta list to the pending ones. -/
theorem Inv.write (h : Inv cfg x) {c : Mutation F}
    {ds : List (DeltaRecord F FieldsJson)} (hi : x.threads i = .read c ds) {baseTs nowTs : ℕ}
    (hc : Orderly cfg x (.write i baseTs nowTs)) :
    Inv cfg { x with
      store := c.write x.store ds baseTs nowTs
      threads := Function.update x.threads i .written
      pending := x.pending ++ [⟨i, c, baseTs, ds⟩] } := by
  obtain ⟨hrows, hothers⟩ := hc c ds hi
  obtain rfl := h.read i c ds hi
  have hfresh : ∀ p ∈ x.pending, p.thread ≠ i := by
    rintro p hp rfl
    have hw := h.written p hp
    rw [hi] at hw
    cases hw
  refine ⟨h.index, ?_, ?_, ?_, ?_, ?_, ?_⟩
  · rw [List.flatMap_append, List.flatMap_singleton, KeyedOps.run_append]
    exact h.mirror.write hrows baseTs nowTs
  · exact KeyedOps.chain_concat.2 ⟨h.chain, h.mirror.settled hrows⟩
  · intro j c' ds' hj
    simp only [Function.update_apply] at hj
    split_ifs at hj with hji
    rw [h.read j c' ds' hj]
    refine (Mutation.deltaList_congr fun l hl => ?_).symm
    exact Mutation.candOf_write_of_not_mem (hothers j c' ds' hji hj l hl) _ _ _ _
  · intro p hp
    rcases List.mem_append.1 hp with hp | hp
    · exact h.made p hp
    · obtain rfl := List.mem_singleton.1 hp
      exact ⟨Mutation.label_deltaList _ _, fun d hd => Mutation.type_of_mem hd⟩
  · intro p hp
    rcases List.mem_append.1 hp with hp | hp
    · rw [← h.written p hp]
      exact Function.update_of_ne (hfresh p hp) _ _
    · obtain rfl := List.mem_singleton.1 hp
      exact Function.update_self _ _ _
  · rw [List.map_append, List.nodup_append]
    refine ⟨h.nodup, by simp, ?_⟩
    rintro j hj _ hi' rfl
    obtain ⟨p, hp, rfl⟩ := List.mem_map.1 hj
    exact hfresh p hp (by simpa using hi')

variable {p : Pending ι F}

/-- The pending list around the mutation of a thread. -/
theorem pendingOf_eq_some (hp : x.pendingOf i = some p) :
    ∃ pre post, x.pending = pre ++ p :: post ∧ p.thread = i ∧
      (x.pending.takeWhile fun q => q.thread ≠ i) = pre ∧
      (x.pending.eraseP fun p => p.thread = i) = pre ++ post := by
  obtain ⟨hi, pre, post, heq, hpre⟩ := List.find?_eq_some_iff_append.1 hp
  have hthread : p.thread = i := by simpa using hi
  refine ⟨pre, post, heq, hthread, ?_, ?_⟩
  · rw [heq, List.takeWhile_append_of_pos (by simpa using hpre),
      List.takeWhile_cons_of_neg (by simp [hthread]), List.append_nil]
  · have hcons : (p :: post).eraseP (fun p : Pending ι F => p.thread = i) = post :=
      List.eraseP_cons_of_pos (p := fun p : Pending ι F => decide (p.thread = i)) hi
    rw [heq, List.eraseP_append_right _ (by simpa using hpre), hcons]

/-- The delta list that an orderly application takes, and what the others become. -/
theorem Inv.settled (h : Inv cfg x) (hp : x.pendingOf i = some p)
    {now : ℕ} (hc : Orderly cfg x (.applyIndex i now)) :
    ∃ pre post, x.pending = pre ++ p :: post ∧ p.thread = i ∧
      (x.pending.eraseP fun p => p.thread = i) = pre ++ post ∧
      (∀ q ∈ pre, (contentOps cfg).Apart q.records p.records) ∧
      Settled cfg (content x.index) p.records ∧
      (contentOps cfg).Chain (fun m p => Settled cfg m p.records) Pending.records
        ((contentOps cfg).run (content x.index) p.records) (pre ++ post) := by
  obtain ⟨pre, post, heq, hthread, htake, herase⟩ := pendingOf_eq_some hp
  have hpre := (hc p hp).2
  rw [htake] at hpre
  have hmade : ∀ q ∈ pre ++ p :: post, q.Made := heq ▸ h.made
  have hapart : ∀ q ∈ pre, (contentOps cfg).Apart q.records p.records := fun q hq =>
    (hpre q hq).records (hmade q (by simp [hq])) (hmade p (by simp))
  have hchain := h.chain
  rw [heq] at hchain
  obtain ⟨hsettled, hrest⟩ := hchain.remove (fun heq hs => hs.congr heq) hapart
  exact ⟨pre, post, heq, hthread, herase, hapart, hsettled, hrest⟩

theorem mem_pending_of_pendingOf (hp : x.pendingOf i = some p) :
    p ∈ x.pending :=
  List.mem_of_find?_eq_some hp

/-- An application takes a delta list from the pending ones. -/
theorem Inv.applyIndex (h : Inv cfg x) (hp : x.pendingOf i = some p)
    {now : ℕ} (hc : Orderly cfg x (.applyIndex i now)) :
    Inv cfg { x with
      index := p.call.applyTo cfg x.index p.records now
      threads := Function.update x.threads i .applied
      pending := x.pending.eraseP fun p => p.thread = i } := by
  obtain ⟨pre, post, heq, hthread, herase, hapart, -, hrest⟩ := h.settled hp hc
  have hmade := h.made p (mem_pending_of_pendingOf hp)
  obtain ⟨hindex, hcontent⟩ :=
    Mutation.applyTo_content h.index hmade.1 hmade.2 (hc p hp).1 now
  have hsub : ∀ q ∈ pre ++ post, q ∈ x.pending := by
    intro q hq
    rw [heq]
    simp only [List.mem_append, List.mem_cons] at hq ⊢
    tauto
  refine ⟨hindex, ?_, ?_, ?_, ?_, ?_, ?_⟩
  · have hmirror := h.mirror
    rw [heq, KeyedOps.run_remove hapart] at hmirror
    rw [herase, hcontent]
    exact hmirror
  · rw [herase, hcontent]
    exact hrest
  · intro j c ds hj
    simp only [Function.update_apply] at hj
    split_ifs at hj
    exact h.read j c ds hj
  · rw [herase]
    exact fun q hq => h.made q (hsub q hq)
  · rw [herase]
    intro q hq
    have hne : q.thread ≠ i := by
      rintro rfl
      have hnd := h.nodup
      rw [heq, List.map_append, List.map_cons, List.nodup_middle] at hnd
      refine (List.nodup_cons.1 hnd).1 ?_
      rw [hthread, ← List.map_append]
      exact List.mem_map_of_mem hq
    rw [← h.written q (hsub q hq)]
    exact Function.update_of_ne hne _ _
  · rw [herase]
    refine h.nodup.sublist (List.Sublist.map _ ?_)
    rw [heq]
    exact List.Sublist.append_left (List.sublist_cons_self _ _) _

/-- Every orderly step keeps the invariant. -/
theorem Inv.step (h : Inv cfg x) {a : Act ι F} (hc : Orderly cfg x a) {y : World ι F E}
    (hs : x.step cfg a = some y) : Inv cfg y := by
  cases a with
  | enter i c =>
    simp only [World.step] at hs
    split at hs
    · rename_i hi
      cases hs
      exact h.move (by simp [hi]) (by simp) _
    · cases hs
  | readOld i =>
    simp only [World.step] at hs
    split at hs
    · rename_i c hi
      cases hs
      exact h.move (by simp [hi]) (by rintro _ _ ⟨⟩; rfl) _
    · cases hs
  | write i baseTs nowTs =>
    simp only [World.step] at hs
    split at hs
    · rename_i c ds hi
      cases hs
      exact h.write hi hc
    · cases hs
  | applyIndex i now =>
    simp only [World.step] at hs
    split at hs
    · rename_i p hi hp
      cases hs
      exact h.applyIndex hp hc
    · cases hs
  | leave i =>
    simp only [World.step] at hs
    split at hs
    · rename_i hi
      cases hs
      exact h.move (by simp [hi]) (by simp) _
    · cases hs

/-- No orderly step leaves the bits of a row that is gone. -/
theorem Inv.bitsLive_step (h : Inv cfg x) (hb : BitsLive x.index) {a : Act ι F}
    (hc : Orderly cfg x a) {y : World ι F E} (hs : x.step cfg a = some y) : BitsLive y.index := by
  cases a with
  | applyIndex i now =>
    simp only [World.step] at hs
    split at hs
    · rename_i p hi hp
      cases hs
      obtain ⟨_, _, _, _, _, _, hsettled, _⟩ := h.settled hp hc
      have hmade := h.made p (mem_pending_of_pendingOf hp)
      exact Mutation.bitsLive_applyTo h.index hb hmade.1 hmade.2 (hc p hp).1 hsettled now
    · cases hs
  | enter i _ | readOld i | write i _ _ | leave i =>
    simp only [World.step] at hs
    split at hs
    · cases hs
      exact hb
    · cases hs

theorem bitsLive_of_reaches (h : Reaches (World.step cfg) (Orderly cfg) (empty cfg) x) :
    BitsLive x.index := by
  induction h with
  | refl => exact bitsLive_empty cfg
  | tail hreach hc hs ih =>
    have hinv := hreach.invariant (inv_empty cfg) fun _ _ _ hi hc hs => hi.step hc hs
    exact hinv.bitsLive_step ih hc hs

end World

/-! ## Agreement -/

/-- The index holds for every label exactly the row of the store. -/
structure Agrees (cfg : IndexConfig F E) (s : Store F FieldsJson) (ix : IndexManager F E) :
    Prop where
  row : ∀ label c, candOf s label = some c → ∃ p, ix.points.get label = some p ∧
    ix.getOffsetByLabel label = some p.offset ∧ p.vector = cfg.encode c.vector ∧
    p.sparse = sparseOf (upsertRecord c none) ∧
    ∀ field key, ix.scalar.Isset field key p.offset ↔ key ∈ cfg.keysOf c.fields field
  absent : ∀ label, candOf s label = none → ix.points.get label = none

theorem IndexInv.agrees {cfg : IndexConfig F E} {s : Store F FieldsJson} {ix : IndexManager F E}
    (h : IndexInv cfg ix) (hm : Mirrors cfg s (content ix)) : Agrees cfg s ix := by
  constructor
  · intro label c hc
    have hlabel := hm label
    rw [hc] at hlabel
    obtain ⟨p, hp, hentry⟩ := Option.map_eq_some_iff.1 hlabel
    refine ⟨p, hp, by rw [h.getOffsetByLabel_eq, hp, Option.map_some], congrArg Entry.vector hentry,
      congrArg Entry.sparse hentry, fun field key => ?_⟩
    exact Set.ext_iff.1 (congrFun (congrArg Entry.keys hentry) field) key
  · intro label hc
    have hlabel := hm label
    rw [hc] at hlabel
    exact Option.map_eq_none_iff.1 hlabel

/-- **Store and index agree.**  In every orderly run, whenever all calls have finished, the index
holds for every label exactly the vector and the keys of the store's row, and no bitmap has a bit of
any other offset. -/
theorem concurrent_agree {ι : Type} [DecidableEq ι] (cfg : IndexConfig F E) {x : World ι F E}
    (h : Reaches (World.step cfg) (World.Orderly cfg) (World.empty cfg) x)
    (hdone : ∀ i, x.threads i = .idle) :
    Agrees cfg x.store x.index ∧
      ∀ field key offset, x.index.scalar.Isset field key offset →
        ∃ label, (candOf x.store label).isSome ∧ x.index.getOffsetByLabel label = some offset := by
  have hinv : World.Inv cfg x :=
    h.invariant (World.inv_empty cfg) fun _ _ _ hi hc hs => hi.step hc hs
  have hbits := World.bitsLive_of_reaches h
  have hpending : x.pending = [] := by
    refine List.eq_nil_iff_forall_not_mem.2 fun p hp => ?_
    have hw := hinv.written p hp
    rw [hdone] at hw
    cases hw
  have hmirror := hinv.mirror
  rw [hpending, List.flatMap_nil, KeyedOps.run_nil] at hmirror
  refine ⟨hinv.index.agrees hmirror, fun field key offset hset => ?_⟩
  obtain ⟨label, p, hp, rfl⟩ := hbits field key offset hset
  refine ⟨label, ?_, by rw [hinv.index.getOffsetByLabel_eq, hp, Option.map_some]⟩
  have hlabel := congrArg Option.isSome (hmirror label)
  simpa [content, hp] using hlabel.symm

/-- Two threads insert different labels, each between the steps of the other. -/
def apartActs : List (Act Bool ℕ) :=
  [.enter false (.upsertData [colorCand 1 "red"] 0), .enter true (.upsertData [colorCand 2 "blue"] 0),
    .readOld false, .readOld true, .write true 10 0, .write false 11 0, .applyIndex false 12,
    .applyIndex true 13, .leave true, .leave false]

theorem concurrent_agree_apartActs :
    ∃ x, runActs (World.step colorConfig) (World.empty colorConfig) apartActs = some x ∧
      Agrees colorConfig x.store x.index := by
  have hmeet : ActsMeet (World.step colorConfig) (World.Orderly colorConfig)
      (World.empty colorConfig) apartActs := by
    refine ⟨trivial, fun x1 h1 => ?_⟩
    obtain rfl := Option.some.inj h1
    refine ⟨trivial, fun x2 h2 => ?_⟩
    obtain rfl := Option.some.inj h2
    refine ⟨trivial, fun x3 h3 => ?_⟩
    obtain rfl := Option.some.inj h3
    refine ⟨trivial, fun x4 h4 => ?_⟩
    obtain rfl := Option.some.inj h4
    refine ⟨?_, fun x5 h5 => ?_⟩
    · rintro c ds ⟨⟩
      refine ⟨⟨batchCovered_of_nodup _ _ (by decide), by decide⟩, ?_⟩
      rintro (_ | _) c' ds' hj hr
      · cases hr
        unfold World.LabelsApart
        decide
      · exact absurd rfl hj
    obtain rfl := Option.some.inj h5
    refine ⟨?_, fun x6 h6 => ?_⟩
    · rintro c ds ⟨⟩
      refine ⟨⟨batchCovered_of_nodup _ _ (by decide), by decide⟩, ?_⟩
      rintro (_ | _) c' ds' hj hr
      · exact absurd rfl hj
      · cases hr
    obtain rfl := Option.some.inj h6
    refine ⟨?_, fun x7 h7 => ?_⟩
    · rintro p ⟨⟩
      unfold World.LabelsApart Mutation.Fits
      decide +kernel
    obtain rfl := Option.some.inj h7
    refine ⟨?_, fun x8 h8 => ?_⟩
    · rintro p ⟨⟩
      unfold World.LabelsApart Mutation.Fits
      decide +kernel
    obtain rfl := Option.some.inj h8
    exact ⟨trivial, fun _ _ => ⟨trivial, fun _ _ => trivial⟩⟩
  exact ⟨_, rfl, (concurrent_agree colorConfig (Reaches.of_runActs hmeet rfl)
    (by rintro (_ | _) <;> rfl)).1⟩

/-- Two threads write one label; the one that writes last is applied first. -/
def overtakingActs : List (Act Bool ℕ) :=
  [.enter false (.upsertData [colorCand 1 "red"] 0), .enter true (.upsertData [colorCand 1 "blue"] 0),
    .readOld false, .write false 10 0, .readOld true, .write true 11 0, .applyIndex true 12,
    .applyIndex false 13, .leave true, .leave false]

/-- All calls have finished and the store has the second row, but the index has the key of the first
one too. -/
theorem concurrent_overtakingActs :
    ∃ x, runActs (World.step colorConfig) (World.empty colorConfig) overtakingActs = some x ∧
      (∀ i, x.threads i = .idle) ∧ candOf x.store 1 = some (colorCand 1 "blue") ∧
      HasKey x.index 1 "color" "blue" ∧ HasKey x.index 1 "color" "red" :=
  ⟨_, rfl, by rintro (_ | _) <;> rfl, by decide +kernel, by decide +kernel, by decide +kernel⟩

end OpenViking.VectorDB
