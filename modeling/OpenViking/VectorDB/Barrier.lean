import OpenViking.Common.System
import OpenViking.VectorDB.StoreManager

/-!
# The index mutation barrier

A model of `_IndexMutationBarrier` (`vectordb/collection/local_collection.py`, 67-157) with the
threads that use it: mutations, exclusive mutations, and off-lock rebuilds that read the store page
by page and publish a replacement index (`_rebuild_index`, 1087-1163; `_install_index`, 368-410).

Each action is one critical section of the barrier's condition variable, one call of the store or
one page of a scan; a thread that waits has no enabled action.  Results:

* `Inv.step`, `reaches_inv`: the barrier's invariant, over every interleaving;
* `publish_current`: a replacement index is published only with the store's present contents.
-/

namespace OpenViking.VectorDB.Barrier

open OpenViking

/-! ## State -/

/-- An index object: its identity and the candidates it was built from. -/
structure IndexObj (F J : Type) where
  id : ℕ
  builtFrom : List (CandidateData F J)

/-- The local variables of `_rebuild_index`. -/
structure Rebuild where
  indexName : String
  oldIndex : ℕ
  expectedGeneration : ℕ

/-- Where a thread is. -/
inductive Thread (F J : Type) where
  | idle
  /-- inside `mutation()`, the store not touched yet -/
  | entered (call : StoreCall F J)
  /-- the store call has returned -/
  | stored (call : StoreCall F J) (deltaList : List (DeltaRecord F J))
  /-- past `mark_changed()`, about to change the index -/
  | applying (changed : Bool)
  /-- in the `finally` block of `mutation()` -/
  | exiting (changed : Bool)
  /-- waiting in `_exclusive()` for `exclusive_mutation()` -/
  | waitingExclusive
  /-- in the body of `exclusive_mutation()` -/
  | exclusive
  /-- past the generation bump of `exclusive_mutation()` -/
  | leavingExclusive
  /-- in `get_all_cands_data()` of a rebuild -/
  | scanning (r : Rebuild) (cursor : Option String) (rows : List (String × Row F J))
  /-- all candidates read -/
  | scanned (r : Rebuild) (candsList : List (CandidateData F J))
  /-- past `is_current`, building the new index -/
  | building (r : Rebuild) (candsList : List (CandidateData F J))
  /-- waiting in `_exclusive()` for `publish_if_current` -/
  | waitingPublish (r : Rebuild) (candsList : List (CandidateData F J))
  /-- the publication is reserved -/
  | holding (r : Rebuild) (candsList : List (CandidateData F J))
  /-- `current` has been computed -/
  | deciding (r : Rebuild) (candsList : List (CandidateData F J)) (current : Bool)
  /-- at the end of `publish_if_current` -/
  | leavingPublish

/-- The shared state: the barrier's fields, the store and the index map. -/
structure State (ι F J : Type) where
  activeMutations : ℕ
  publisher : Bool
  waitingPublishers : ℕ
  generation : ℕ
  store : Store F J
  indexes : String → Option (IndexObj F J)
  nextId : ℕ
  threads : ι → Thread F J

/-- The steps of a thread. -/
inductive Action (F J : Type) where
  | enterMutation (call : StoreCall F J)
  | callStore
  | markChanged
  | applyIndex
  | leaveUnchanged
  | raise
  | exitMutation
  | enterExclusive
  | acquireExclusive
  | exclusiveStore (store : Store F J)
  | exclusiveIndexes (indexes : String → Option (IndexObj F J))
  | endExclusive
  | snapshotGeneration (indexName : String) (oldIndex : ℕ)
  | readPage
  | isCurrent
  | build
  | acquirePublish
  | checkGeneration
  | publish
  | release
  | deleteDelta (nsTs : ℕ)

section Model

variable {ι F J : Type} [DecidableEq ι] [Inhabited J]

/-- `mutation.mark_changed()` is called after every store call but an `expire_data` that returned
nothing (853, 917, 1008). -/
def marks : StoreCall F J → List (DeltaRecord F J) → Bool
  | .expireData _ _, deltaList => !deltaList.isEmpty
  | _, _ => true

/-- The candidates among the rows of a scan. -/
def scannedCands (rows : List (String × Row F J)) : List (CandidateData F J) :=
  (rows.filterMap TableName.candidates.keys.strip).filterMap fun kv => kv.2.cand?

/-- One step of thread `i`; `none` when it is not enabled. -/
def step (rowBytes : String × Row F J → ℕ) (x : State ι F J) (ia : ι × Action F J) :
    Option (State ι F J) :=
  let i := ia.1
  let goto (t : Thread F J) (x : State ι F J) : State ι F J :=
    { x with threads := Function.update x.threads i t }
  match ia.2, x.threads i with
  -- mutation()
  | .enterMutation call, .idle =>
    if x.publisher ∨ x.waitingPublishers ≠ 0 then none
    else some (goto (.entered call) { x with activeMutations := x.activeMutations + 1 })
  | .callStore, .entered call =>
    some (goto (.stored call (call.exec x.store).2) { x with store := (call.exec x.store).1 })
  | .markChanged, .entered _ => some (goto (.applying true) x)
  | .markChanged, .stored call deltaList => some (goto (.applying (marks call deltaList)) x)
  | .applyIndex, .applying changed => some (goto (.exiting changed) x)
  | .leaveUnchanged, .entered _ => some (goto (.exiting false) x)
  | .raise, .entered _ => some (goto (.exiting true) x)
  | .raise, .stored _ _ => some (goto (.exiting true) x)
  | .raise, .applying _ => some (goto (.exiting true) x)
  | .exitMutation, .exiting changed =>
    some (goto .idle { x with
      generation := if changed then x.generation + 1 else x.generation
      activeMutations := x.activeMutations - 1 })
  -- exclusive_mutation()
  | .enterExclusive, .idle =>
    some (goto .waitingExclusive { x with waitingPublishers := x.waitingPublishers + 1 })
  | .acquireExclusive, .waitingExclusive =>
    if x.publisher ∨ x.activeMutations ≠ 0 then none
    else some (goto .exclusive { x with
      publisher := true, waitingPublishers := x.waitingPublishers - 1 })
  | .exclusiveStore store, .exclusive => some { x with store := store }
  | .exclusiveIndexes indexes, .exclusive => some { x with indexes := indexes }
  | .endExclusive, .exclusive =>
    some (goto .leavingExclusive { x with generation := x.generation + 1 })
  | .release, .leavingExclusive => some (goto .idle { x with publisher := false })
  -- _rebuild_index()
  | .snapshotGeneration indexName oldIndex, .idle =>
    if x.publisher ∨ x.waitingPublishers ≠ 0 then none
    else some (goto (.scanning ⟨indexName, oldIndex, x.generation⟩ none []) x)
  | .readPage, .scanning r cursor rows =>
    let page := scanPage x.store rowBytes .candidates cursor
    match page.getLast? with
    | none => some (goto (.scanned r (scannedCands rows)) x)
    | some last => some (goto (.scanning r (some last.1) (rows ++ page)) x)
  | .isCurrent, .scanned r cands =>
    if ¬ x.publisher ∧ x.activeMutations = 0 ∧ x.generation = r.expectedGeneration then
      some (goto (.building r cands) x)
    else some (goto .idle x)
  | .build, .building r cands =>
    some (goto (.waitingPublish r cands) { x with waitingPublishers := x.waitingPublishers + 1 })
  -- _install_index()
  | .acquirePublish, .waitingPublish r cands =>
    if x.publisher ∨ x.activeMutations ≠ 0 then none
    else some (goto (.holding r cands) { x with
      publisher := true, waitingPublishers := x.waitingPublishers - 1 })
  | .checkGeneration, .holding r cands =>
    some (goto (.deciding r cands (decide (x.generation = r.expectedGeneration))) x)
  | .publish, .deciding r cands current =>
    if current ∧ (x.indexes r.indexName).map IndexObj.id = some r.oldIndex then
      some (goto .leavingPublish { x with
        indexes := fun name =>
          if name = r.indexName then some ⟨x.nextId, cands⟩ else x.indexes name
        nextId := x.nextId + 1 })
    else some (goto .leavingPublish x)
  | .release, .leavingPublish => some (goto .idle { x with publisher := false })
  -- delta clean-up, outside the barrier
  | .deleteDelta nsTs, .idle => some { x with store := (deleteDeltaDataBeforeTs x.store nsTs).1 }
  | _, _ => none

/-- A collection at rest. -/
def init (store : Store F J) (indexes : String → Option (IndexObj F J)) (nextId : ℕ) :
    State ι F J :=
  { activeMutations := 0, publisher := false, waitingPublishers := 0, generation := 0,
    store := store, indexes := indexes, nextId := nextId, threads := fun _ => .idle }

end Model

/-! ## What threads are doing -/

section Threads

variable {F J : Type}

/-- Counted in `_active_mutations`. -/
def isMutation : Thread F J → Bool
  | .entered _ | .stored _ _ | .applying _ | .exiting _ => true
  | _ => false

/-- Holds `_publisher`. -/
def isPublisher : Thread F J → Bool
  | .exclusive | .leavingExclusive | .holding _ _ | .deciding _ _ _ | .leavingPublish => true
  | _ => false

/-- Has changed, or may change, the candidates and will bump the generation before it leaves. -/
def isPending : Thread F J → Bool
  | .stored call deltaList => marks call deltaList
  | .applying changed | .exiting changed => changed
  | .exclusive => true
  | _ => false

theorem isMutation_or_exclusive {t : Thread F J} (h : isPending t = true) :
    isMutation t = true ∨ t = .exclusive := by
  cases t <;> simp_all [isPending, isMutation]

/-- What a rebuild has read so far agrees with the store. -/
def Agrees : Thread F J → Store F J → Prop
  | .scanning _ cursor rows, s =>
    scannedCands rows ++ scannedCands (scanRest s .candidates cursor) = getAllCandsData s
  | .scanned _ cands, s | .building _ cands, s | .waitingPublish _ cands, s
  | .holding _ cands, s | .deciding _ cands _, s => cands = getAllCandsData s
  | _, _ => True

/-- The snapshot generation of a rebuild. -/
def snapshot? : Thread F J → Option ℕ
  | .scanning r _ _ | .scanned r _ | .building r _ | .waitingPublish r _ | .holding r _
  | .deciding r _ _ => some r.expectedGeneration
  | _ => none

@[simp] theorem scannedCands_append (rows rows' : List (String × Row F J)) :
    scannedCands (rows ++ rows') = scannedCands rows ++ scannedCands rows' := by
  simp [scannedCands]

variable (s : Store F J)

/-- A scan starts with every candidate left to visit. -/
theorem agrees_scan_start :
    scannedCands [] ++ scannedCands (scanRest s .candidates none) = getAllCandsData s := rfl

variable {rowBytes : String × Row F J → ℕ} {rows : List (String × Row F J)}

/-- A page moves the next candidates from those left to those read. -/
theorem agrees_scan_page {s : Store F J} {cursor : Option String} {last : String × Row F J}
    (hlast : (scanPage s rowBytes .candidates cursor).getLast? = some last)
    (h : scannedCands rows ++ scannedCands (scanRest s .candidates cursor) = getAllCandsData s) :
    scannedCands (rows ++ scanPage s rowBytes .candidates cursor) ++
      scannedCands (scanRest s .candidates (some last.1)) = getAllCandsData s := by
  rw [← h, scanRest_eq_page_append hlast, scannedCands_append, scannedCands_append,
    List.append_assoc]

/-- An empty page: everything is read. -/
theorem agrees_scan_end {s : Store F J} {cursor : Option String}
    (hpage : scanPage s rowBytes .candidates cursor = [])
    (h : scannedCands rows ++ scannedCands (scanRest s .candidates cursor) = getAllCandsData s) :
    scannedCands rows = getAllCandsData s := by
  rw [← h, scanRest_eq_nil hpage]
  exact (List.append_nil _).symm

/-- The candidates left to scan, from the table alone. -/
theorem scannedCands_scanRest (cursor : Option String) :
    scannedCands (scanRest s .candidates cursor) =
      ((table .candidates s).entries.filter fun x =>
        Unvisited .candidates cursor (TableName.candidates.fullKey x.1) ∧
          x.1 < maxUnicodeChar).filterMap fun kv => kv.2.cand? := by
  rw [scannedCands]
  refine congrArg _ (SortedMap.entries_ext
    (TableName.candidates.keys.filterMap_strip_sorted (s.sorted.filter _))
    ((table .candidates s).sorted.filter _) ?_)
  rintro ⟨k, r⟩
  rw [List.mem_filterMap, List.mem_filter, SortedMap.mem_entries_iff, get_table]
  simp only [TableName.candidates.keys.strip_eq_some, exists_eq_right, scanRest, List.mem_filter,
    SortedMap.mem_entries_iff, decide_eq_true_eq]
  exact and_congr Iff.rfl (and_congr Iff.rfl TableName.fullKey_lt)

/-- Agreement depends on the candidates table only. -/
theorem Agrees.of_table_eq {t : Thread F J} {s s' : Store F J}
    (hs : table .candidates s' = table .candidates s) (h : Agrees t s) : Agrees t s' := by
  have hall : getAllCandsData s' = getAllCandsData s := by
    rw [getAllCandsData, getAllCandsData, readAll_eq, readAll_eq, hs]
  cases t <;> simp_all [Agrees, scannedCands_scanRest]

theorem table_candidates_deleteDelta (nsTs : ℕ) :
    table .candidates (deleteDeltaDataBeforeTs s nsTs).1 = table .candidates s := by
  rw [deleteDeltaDataBeforeTs]
  generalize (beginToSeek s (toString nsTs) .delta).map Prod.fst = keys
  simp only [deleteKeys]
  induction keys generalizing s with
  | nil => rfl
  | cons k keys ih =>
    exact (ih _).trans (SortedMap.view_erase_of_ofKey_eq_none _ _
      (TableName.candidates.ofKey_fullKey_of_ne (by decide) k))

end Threads

/-! ## What a step can do -/

section Step

variable {ι F J : Type} [DecidableEq ι] [Inhabited J]

/-- Everything a step of thread `i` can do to what the invariant speaks about. -/
structure Effect (x : State ι F J) (i : ι) (x' : State ι F J) : Prop where
  others : ∀ j ≠ i, x'.threads j = x.threads j
  gen_le : x.generation ≤ x'.generation
  gen_eq : isMutation (x.threads i) = true ∨ x.threads i = .exclusive ∨
    x'.generation = x.generation
  pending : isPending (x.threads i) = true →
    isPending (x'.threads i) = true ∨ x.generation < x'.generation
  cands : table .candidates x'.store = table .candidates x.store ∨
    isPending (x'.threads i) = true
  active : (isMutation (x.threads i) = true → 1 ≤ x.activeMutations) →
    x'.activeMutations + (isMutation (x.threads i)).toNat =
      x.activeMutations + (isMutation (x'.threads i)).toNat
  publisher : (isPublisher (x.threads i) = true → x.publisher = true) →
    x'.publisher.toNat + (isPublisher (x.threads i)).toNat =
      x.publisher.toNat + (isPublisher (x'.threads i)).toNat
  newMutation : isMutation (x'.threads i) = true →
    isMutation (x.threads i) = true ∨ x.publisher = false
  newPublisher : isPublisher (x'.threads i) = true →
    isPublisher (x.threads i) = true ∨ x.activeMutations = 0

/-- A store call that does not mark the mutation leaves the candidates alone. -/
theorem table_candidates_of_not_marks {s : Store F J} {call : StoreCall F J}
    (h : marks call (call.exec s).2 = false) : table .candidates (call.exec s).1 = table .candidates s := by
  cases call with
  | addCandsData cands ttl needDelta baseTs nowTs => simp [marks] at h
  | deleteData labels needDelta baseTs => simp [marks] at h
  | expireData nowTime baseTs =>
    have hnil : expiredCandsData s nowTime = [] := by
      simpa [marks, StoreCall.exec, expireData] using h
    ext1 k
    rw [StoreCall.exec, table_candidates_expireData, hnil]
    simp

/-- A store call changes the candidates only if its mutation will be marked. -/
theorem table_candidates_exec (s : Store F J) (call : StoreCall F J) :
    table .candidates (call.exec s).1 = table .candidates s ∨
      marks call (call.exec s).2 = true := by
  cases h : marks call (call.exec s).2 with
  | true => exact .inr rfl
  | false => exact .inl (table_candidates_of_not_marks h)

variable {rowBytes : String × Row F J → ℕ} {x x' : State ι F J} {ia : ι × Action F J}

theorem step_effect (h : step rowBytes x ia = some x') : Effect x ia.1 x' := by
  obtain ⟨i, a⟩ := ia
  simp only [step] at h
  -- one goal for each way the step can go
  split at h
  all_goals try split_ifs at h
  all_goals try split at h
  all_goals cases h
  -- and in each of them one for each field
  all_goals refine ⟨fun j hj => ?_, ?_, ?_, ?_, ?_, ?_, ?_, ?_, ?_⟩
  all_goals simp_all [isMutation, isPublisher, isPending, table_candidates_deleteDelta,
    table_candidates_exec]

/-- A rebuild's own step keeps what it has read in agreement with the store. -/
theorem step_agrees (h : step rowBytes x ia = some x') {g : ℕ} (hg : snapshot? (x'.threads ia.1) = some g) :
    x'.store = x.store ∧ x'.generation = x.generation ∧
      ((snapshot? (x.threads ia.1) = some g ∧
          (Agrees (x.threads ia.1) x.store → Agrees (x'.threads ia.1) x.store)) ∨
        (g = x.generation ∧ Agrees (x'.threads ia.1) x.store)) := by
  obtain ⟨i, a⟩ := ia
  simp only [step] at h
  split at h
  all_goals try split_ifs at h
  all_goals try split at h
  all_goals cases h
  all_goals simp_all [snapshot?, Agrees]
  · exact agrees_scan_start x.store
  · exact .inl (agrees_scan_end ‹_›)
  · exact .inl fun hread => by simpa using agrees_scan_page ‹_› hread

theorem step_decided (h : step rowBytes x ia = some x') {r : Rebuild}
    {cands : List (CandidateData F J)} (hd : x'.threads ia.1 = .deciding r cands true) :
    x'.generation = r.expectedGeneration := by
  obtain ⟨i, a⟩ := ia
  simp only [step] at h
  split at h
  all_goals try split_ifs at h
  all_goals try split at h
  all_goals cases h
  all_goals simp_all

/-- A replacement index appears only when a thread that found its snapshot current publishes. -/
theorem step_publish {i : ι} (h : step rowBytes x (i, .publish) = some x') {name : String}
    (hname : x'.indexes name ≠ x.indexes name) :
    ∃ r cands, x.threads i = .deciding r cands true ∧
      x'.indexes name = some ⟨x.nextId, cands⟩ ∧ x'.store = x.store := by
  cases ht : x.threads i with
  | deciding r cands current =>
    simp only [step, ht] at h
    split_ifs at h with hcur
    · obtain ⟨rfl, -⟩ := hcur
      cases h
      have hr : name = r.indexName := by
        by_contra hne
        exact hname (if_neg hne)
      exact ⟨r, cands, rfl, if_pos hr, rfl⟩
    · cases h
      exact absurd rfl hname
  | _ => simp [step, ht] at h

end Step

/-! ## The invariant -/

section Invariant

variable {ι F J : Type} [Fintype ι]

/-- The invariant of the barrier and its threads. -/
structure Inv (x : State ι F J) : Prop where
  active : x.activeMutations = count isMutation x.threads
  publisher : x.publisher.toNat = count isPublisher x.threads
  excl : x.publisher = true → x.activeMutations = 0
  /-- A snapshot is not newer than the present, and either the generation has moved on, or a change
  that will move it is pending, or what was read is what the store holds. -/
  snapshot : ∀ {k g}, snapshot? (x.threads k) = some g → g ≤ x.generation ∧
    (g < x.generation ∨ (∃ j, isPending (x.threads j) = true) ∨ Agrees (x.threads k) x.store)
  decided : ∀ {k r cands}, x.threads k = .deciding r cands true →
    x.generation = r.expectedGeneration

theorem inv_init (store : Store F J) (indexes : String → Option (IndexObj F J)) (nextId : ℕ) :
    Inv (init store indexes nextId : State ι F J) where
  active := (count_eq_zero.2 fun _ => rfl).symm
  publisher := (count_eq_zero.2 fun _ => rfl).symm
  excl := by simp [init]
  snapshot := by simp [init, snapshot?]
  decided := by simp [init]

variable {x : State ι F J}

theorem Inv.publisher_of_isPublisher (h : Inv x) {i : ι} (hi : isPublisher (x.threads i) = true) :
    x.publisher = true := by
  have hc := le_count hi
  rw [← h.publisher] at hc
  cases hp : x.publisher <;> simp_all

theorem Inv.isPublisher_unique (h : Inv x) {i j : ι} (hi : isPublisher (x.threads i) = true)
    (hj : isPublisher (x.threads j) = true) : i = j :=
  eq_of_count_le_one (h.publisher ▸ Bool.toNat_le _) hi hj

/-- A publisher is never active together with a mutation. -/
theorem Inv.not_isMutation (h : Inv x) {i : ι} (hi : isPublisher (x.threads i) = true) (j : ι) :
    isMutation (x.threads j) = false := by
  have h0 := h.excl (h.publisher_of_isPublisher hi)
  rw [h.active] at h0
  exact count_eq_zero.1 h0 j

variable {x' : State ι F J}

theorem Inv.excl_of_effect (h : Inv x) {i : ι}
    (hactive : x'.activeMutations + (isMutation (x.threads i)).toNat =
      x.activeMutations + (isMutation (x'.threads i)).toNat)
    (hpub : x'.publisher.toNat + (isPublisher (x.threads i)).toNat =
      x.publisher.toNat + (isPublisher (x'.threads i)).toNat)
    (newMutation : isMutation (x'.threads i) = true →
      isMutation (x.threads i) = true ∨ x.publisher = false)
    (newPublisher : isPublisher (x'.threads i) = true →
      isPublisher (x.threads i) = true ∨ x.activeMutations = 0)
    (hp : x'.publisher = true) : x'.activeMutations = 0 := by
  have hmut : x.activeMutations = 0 → isMutation (x.threads i) = false := fun h0 =>
    count_eq_zero.1 (h.active ▸ h0) i
  by_cases hx : x.publisher = true
  · have h0 := h.excl hx
    have hi := hmut h0
    have hi' : isMutation (x'.threads i) = false := by
      by_contra hne
      have := newMutation (by simpa using hne)
      simp_all
    simp_all
  · have hold : isPublisher (x.threads i) = false := by
      by_contra hne
      exact hx (h.publisher_of_isPublisher (by simpa using hne))
    have hnew : isPublisher (x'.threads i) = true := by
      by_contra hne
      simp_all
    have h0 : x.activeMutations = 0 := by simpa [hold] using newPublisher hnew
    have hi' : isMutation (x'.threads i) = false := by
      cases ht : x'.threads i <;> simp_all [isPublisher, isMutation]
    simp_all

variable [DecidableEq ι] [Inhabited J]

variable {ia : ι × Action F J}

variable {rowBytes : String × Row F J → ℕ}

theorem Inv.snapshot_of_step (h : Inv x) (hs : step rowBytes x ia = some x') {k : ι} {g : ℕ}
    (hg : snapshot? (x'.threads k) = some g) :
    g ≤ x'.generation ∧ (g < x'.generation ∨ (∃ j, isPending (x'.threads j) = true) ∨
      Agrees (x'.threads k) x'.store) := by
  have e := step_effect hs
  by_cases hk : k = ia.1
  · subst hk
    obtain ⟨hstore, hgen, ⟨hold, hagree⟩ | ⟨rfl, hagree⟩⟩ := step_agrees hs hg
    · obtain ⟨hle, hlt | ⟨j, hj⟩ | hread⟩ := h.snapshot hold
      · exact ⟨hgen ▸ hle, .inl (hgen ▸ hlt)⟩
      · have hne : j ≠ ia.1 := by
          rintro rfl
          cases ht : x.threads ia.1 <;> simp_all [snapshot?, isPending]
        exact ⟨hgen ▸ hle, .inr (.inl ⟨j, (e.others j hne).symm ▸ hj⟩)⟩
      · exact ⟨hgen ▸ hle, .inr (.inr (hstore ▸ hagree hread))⟩
    · exact ⟨hgen.ge, .inr (.inr (hstore ▸ hagree))⟩
  · rw [e.others k hk] at hg ⊢
    obtain ⟨hle, hrest⟩ := h.snapshot hg
    refine ⟨hle.trans e.gen_le, ?_⟩
    rcases hrest with hlt | ⟨j, hj⟩ | hread
    · exact .inl (hlt.trans_le e.gen_le)
    · by_cases hji : j = ia.1
      · subst hji
        rcases e.pending hj with hp | hlt
        · exact .inr (.inl ⟨_, hp⟩)
        · exact .inl (hle.trans_lt hlt)
      · exact .inr (.inl ⟨j, (e.others j hji).symm ▸ hj⟩)
    · rcases e.cands with hc | hp
      · exact .inr (.inr (hread.of_table_eq hc))
      · exact .inr (.inl ⟨_, hp⟩)

theorem Inv.decided_of_step (h : Inv x) (hs : step rowBytes x ia = some x') {k : ι}
    {r : Rebuild} {cands : List (CandidateData F J)}
    (hd : x'.threads k = .deciding r cands true) : x'.generation = r.expectedGeneration := by
  have e := step_effect hs
  by_cases hk : k = ia.1
  · subst hk
    exact step_decided hs hd
  · rw [e.others k hk] at hd
    have hpub : isPublisher (x.threads k) = true := by rw [hd]; rfl
    rcases e.gen_eq with hm | hx | hgen
    · rw [h.not_isMutation hpub ia.1] at hm
      cases hm
    · exact absurd (h.isPublisher_unique hpub (by rw [hx]; rfl)) hk
    · rw [hgen, h.decided hd]

/-- Every step keeps the invariant. -/
theorem Inv.step (h : Inv x) (hs : step rowBytes x ia = some x') : Inv x' := by
  have e := step_effect hs
  have hupd : x'.threads = Function.update x.threads ia.1 (x'.threads ia.1) := by
    funext j
    by_cases hj : j = ia.1
    · subst hj
      simp
    · rw [Function.update_of_ne hj, e.others j hj]
  have hactive := e.active fun hm => h.active ▸ le_count hm
  have hpub := e.publisher h.publisher_of_isPublisher
  have cmut := count_update isMutation x.threads ia.1 (x'.threads ia.1)
  have cpub := count_update isPublisher x.threads ia.1 (x'.threads ia.1)
  rw [← hupd] at cmut cpub
  have hactive' : x'.activeMutations = count isMutation x'.threads := by
    have := h.active
    omega
  have hpub' : x'.publisher.toNat = count isPublisher x'.threads := by
    have := h.publisher
    omega
  exact ⟨hactive', hpub', h.excl_of_effect hactive hpub e.newMutation e.newPublisher,
    h.snapshot_of_step hs, h.decided_of_step hs⟩

/-- The states of a collection that starts at rest, under every interleaving. -/
abbrev Reachable (rowBytes : String × Row F J → ℕ) (x : State ι F J) : Prop :=
  ∃ store indexes nextId,
    Reaches (step rowBytes) (fun _ _ => True) (init store indexes nextId) x

theorem Reachable.inv (h : Reachable rowBytes x) : Inv x := by
  obtain ⟨store, indexes, nextId, h⟩ := h
  exact h.invariant (inv_init store indexes nextId) fun _ _ _ hi _ hs => hi.step hs

/-- **An index rebuild never publishes a stale snapshot.**  In every state reached under any
interleaving: at most one thread publishes, no thread is in a mutation while one does, and when a
publication changes an index, the replacement was built from exactly the candidates the store holds
at that moment, with no mutation in flight. -/
theorem publish_current {rowBytes : String × Row F J → ℕ} (h : Reachable rowBytes x) :
    (∀ i j, isPublisher (x.threads i) = true → isPublisher (x.threads j) = true → i = j) ∧
      (∀ i j, isPublisher (x.threads i) = true → isMutation (x.threads j) = false) ∧
      ∀ i x', step rowBytes x (i, .publish) = some x' →
        ∀ name, x'.indexes name ≠ x.indexes name →
          ∃ index, x'.indexes name = some index ∧ index.builtFrom = getAllCandsData x'.store ∧
            ∀ j, isMutation (x'.threads j) = false := by
  have hi := h.inv
  refine ⟨fun i j => hi.isPublisher_unique, fun i j hp => hi.not_isMutation hp j, ?_⟩
  intro i x' hs name hname
  obtain ⟨r, cands, ht, hindex, hstore⟩ := step_publish hs hname
  have hpub : isPublisher (x.threads i) = true := by rw [ht]; rfl
  have hpub' : isPublisher (x'.threads i) = true := by
    simp only [step, ht] at hs
    split_ifs at hs <;> cases hs <;> simp [isPublisher]
  refine ⟨_, hindex, ?_, (hi.step hs).not_isMutation hpub'⟩
  obtain ⟨-, hlt | ⟨j, hj⟩ | hread⟩ := hi.snapshot (k := i) (g := r.expectedGeneration)
    (by rw [ht]; rfl)
  · exact absurd (hi.decided ht) hlt.ne'
  · -- a pending change is a mutation's or an exclusive mutation's, and this thread excludes both
    rcases isMutation_or_exclusive hj with hm | hx
    · rw [hi.not_isMutation hpub j] at hm
      cases hm
    · have hij := hi.isPublisher_unique hpub (j := j) (by rw [hx]; rfl)
      rw [← hij, ht] at hx
      cases hx
  · rw [ht] at hread
    rw [hstore]
    exact hread

/-- One thread upserts, then another rebuilds the index up to its publication. -/
def rebuildActs : List (Fin 2 × Action ℕ String) :=
  [(1, .enterMutation (.addCandsData [sampleCand 7 "a" 0] 0 true 100 0)), (1, .callStore),
    (1, .markChanged), (1, .applyIndex), (1, .exitMutation), (0, .snapshotGeneration "default" 0),
    (0, .readPage), (0, .readPage), (0, .isCurrent), (0, .build), (0, .acquirePublish),
    (0, .checkGeneration)]

/-- The collection that `rebuildActs` starts from: an empty store and one empty index. -/
def rebuildInit : State (Fin 2) ℕ String :=
  init SortedMap.empty (fun name => if name = "default" then some ⟨0, []⟩ else none) 1

theorem publish_current_rebuildActs :
    ∃ x x' : State (Fin 2) ℕ String, Reachable (fun _ => 1) x ∧
      step (fun _ => 1) x (0, .publish) = some x' ∧
      (∃ index, x'.indexes "default" = some index ∧
        index.builtFrom = getAllCandsData x'.store ∧ ∀ j, isMutation (x'.threads j) = false) ∧
      getAllCandsData x'.store = [sampleCand 7 "a" 0] := by
  have hrun : ((runActs (step fun _ => 1) rebuildInit rebuildActs).bind fun x =>
      (step (fun _ => 1) x (0, .publish)).map fun x' =>
        ((x.indexes "default").map IndexObj.id, (x'.indexes "default").map IndexObj.id,
          getAllCandsData x'.store)) = some (some 0, some 1, [sampleCand 7 "a" 0]) := by
    decide +kernel
  obtain ⟨x, hx, hpub⟩ := Option.bind_eq_some_iff.1 hrun
  obtain ⟨x', hx', hvals⟩ := Option.map_eq_some_iff.1 hpub
  simp only [Prod.mk.injEq] at hvals
  obtain ⟨hold, hnew, hcands⟩ := hvals
  have hreach : Reachable (fun _ => 1) x :=
    ⟨_, _, _, Reaches.of_runActs (by decide +kernel : ActsMeet _ _ rebuildInit rebuildActs) hx⟩
  have hname : x'.indexes "default" ≠ x.indexes "default" := by
    intro he
    rw [he, hold] at hnew
    cases hnew
  exact ⟨x, x', hreach, hx', (publish_current hreach).2.2 0 x' hx' "default" hname, hcands⟩

end Invariant

end OpenViking.VectorDB.Barrier
