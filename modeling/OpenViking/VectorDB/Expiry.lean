import OpenViking.VectorDB.StoreManager

/-!
# Expiry

`expire_data` finds expired records through the TTL table, whose key is the expiry time alone.  A
record is found as long as its TTL row is its own: a batch with a TTL gives all its rows one
`expire_ns`, so the row of the last label replaces those of the others, and so does a later call
that happens to compute the same `expire_ns`.

Results:

* `TtlCovered.exec`: the invariant, that the TTL row of each expiring record names it;
* `expireData_complete`: in every run of such calls an expired record is deleted and reported.
-/

namespace OpenViking.VectorDB

variable {F J : Type}

/-! ## Expiry times -/

/-- What a call says about the expiry of `label`: nothing unless it upserts it, else the expiry it
sets, `none` without a TTL. -/
def StoreCall.setsExpiry (label : ℕ) : StoreCall F J → Option (Option ℕ)
  | .addCandsData cands ttl _ _ nowTs =>
    if label ∈ cands.map CandidateData.label then
      some (if ttl > 0 then some (nowTs + ttl * 1000000000) else none)
    else none
  | _ => none

/-- The expiry set by the most recent upsert of each label, if that upsert used a TTL. -/
def updateExpiry (g : ℕ → Option ℕ) (c : StoreCall F J) (label : ℕ) : Option ℕ :=
  (c.setsExpiry label).getD (g label)

/-- The expiry set by the most recent upsert of `label` in a run. -/
def lastExpiry (cs : List (StoreCall F J)) : ℕ → Option ℕ :=
  cs.foldl updateExpiry fun _ => none

/-- An upsert with a TTL has rows of one label only, and no other record has its `expire_ns`. -/
def TtlKeyFree (s : Store F J) : StoreCall F J → Prop
  | .addCandsData cands ttl _ _ nowTs =>
    ttl > 0 → (∀ c ∈ cands, ∀ c' ∈ cands, c.label = c'.label) ∧
      ∀ c ∈ getAllCandsData s, c.expireNsTs = nowTs + ttl * 1000000000 →
        c.label ∈ cands.map CandidateData.label
  | _ => True

instance (s : Store F J) : (c : StoreCall F J) → Decidable (TtlKeyFree s c)
  | .addCandsData cands ttl _ _ nowTs =>
    inferInstanceAs (Decidable (ttl > 0 → (∀ c ∈ cands, ∀ c' ∈ cands, c.label = c'.label) ∧
      ∀ c ∈ getAllCandsData s, c.expireNsTs = nowTs + ttl * 1000000000 →
        c.label ∈ cands.map CandidateData.label))
  | .deleteData _ _ _ => isTrue trivial
  | .expireData _ _ => isTrue trivial

/-- Every call of the run writes its TTL rows under a free key. -/
def RunTtlKeyFree [Inhabited J] (s : Store F J) : List (StoreCall F J) → Prop
  | [] => True
  | c :: cs => TtlKeyFree s c ∧ RunTtlKeyFree (c.exec s).1 cs

instance decidableRunTtlKeyFree [Inhabited J] (s : Store F J) :
    (cs : List (StoreCall F J)) → Decidable (RunTtlKeyFree s cs)
  | [] => isTrue trivial
  | c :: cs =>
    have := decidableRunTtlKeyFree (c.exec s).1 cs
    inferInstanceAs (Decidable (_ ∧ RunTtlKeyFree (c.exec s).1 cs))

/-! ## Reading the tables -/

variable {expire label ttl nowTs : ℕ}

/-- A TTL row below the clock whose record has expired puts the record on the list. -/
theorem mem_expiredCandsData {s : Store F J} {nowTime : ℕ} {c : CandidateData F J}
    (hrow : (table .ttl s).get (toString expire) = some (.ttl (toString label)))
    (hkey : toString expire < toString nowTime) (hc : candOf s label = some c)
    (hexp : c.expireNsTs ≤ nowTime) : c ∈ expiredCandsData s nowTime := by
  rw [expiredCandsData, List.mem_filter, read_eq]
  refine ⟨?_, by simpa using hexp⟩
  simp only [List.mem_filterMap, List.mem_map]
  refine ⟨_, ⟨toString label, ⟨(toString expire, .ttl (toString label)), ?_, rfl⟩, rfl⟩, hc⟩
  rw [ttlKvList, beginToSeek_eq]
  exact SortedMap.mem_range.2 ⟨hrow, empty_le _, hkey⟩

/-! ## The invariant -/

/-- The TTL row of every expiring record names it.  `digits` is the number of digits of the clock
readings; a longer expiry is never reached. -/
structure TtlCovered (digits : ℕ) (s : Store F J) (g : ℕ → Option ℕ) : Prop where
  expire : ∀ {label expire c}, g label = some expire → candOf s label = some c →
    c.expireNsTs = expire
  row : ∀ {label expire c}, g label = some expire → candOf s label = some c →
    Decimal.numDigits expire = digits →
    (table .ttl s).get (toString expire) = some (.ttl (toString label))
  digits_le : ∀ {label expire}, g label = some expire → digits ≤ Decimal.numDigits expire

theorem ttlCovered_empty (digits : ℕ) : TtlCovered digits (SortedMap.empty : Store F J) fun _ => none := by
  constructor <;> simp

variable {cands : List (CandidateData F J)}

theorem stampExpire_of_pos (h : ttl > 0) :
    stampExpire cands ttl nowTs =
      cands.map fun c => { c with expireNsTs := nowTs + ttl * 1000000000 } :=
  if_pos h

/-- With a TTL, any test that the stamped row of `label` passes finds a row, stamped too. -/
theorem find_stampExpire_of_mem (nowTs : ℕ) (httl : ttl > 0) (h : label ∈ cands.map CandidateData.label)
    {p : CandidateData F J → Bool} (hp : ∀ c : CandidateData F J, c.label = label →
      c.expireNsTs = nowTs + ttl * 1000000000 → p c = true) :
    ∃ c, (stampExpire cands ttl nowTs).reverse.find? p = some c ∧
      c.label ∈ cands.map CandidateData.label ∧ c.expireNsTs = nowTs + ttl * 1000000000 := by
  obtain ⟨c', hc', rfl⟩ := List.mem_map.1 h
  have hmem : { c' with expireNsTs := nowTs + ttl * 1000000000 } ∈
      (stampExpire cands ttl nowTs).reverse := by
    rw [stampExpire_of_pos httl, List.mem_reverse]
    exact List.mem_map.2 ⟨c', hc', rfl⟩
  cases hf : (stampExpire cands ttl nowTs).reverse.find? p with
  | none =>
    have hnone := List.find?_eq_none.1 hf _ hmem
    exact (hnone (hp _ rfl rfl)).elim
  | some c =>
    have hc := List.mem_reverse.1 (List.mem_of_find?_eq_some hf)
    refine ⟨c, rfl, mem_stampExpire_label hc, ?_⟩
    rw [stampExpire_of_pos httl] at hc
    obtain ⟨c'', -, rfl⟩ := List.mem_map.1 hc
    rfl

/-- An upsert sets the expiry of its labels and leaves the others alone. -/
theorem updateExpiry_addCandsData {g : ℕ → Option ℕ} {needDelta : Bool} {baseTs : ℕ}
    (h : updateExpiry g (.addCandsData cands ttl needDelta baseTs nowTs) label = some expire) :
    (label ∈ cands.map CandidateData.label ∧ ttl > 0 ∧ expire = nowTs + ttl * 1000000000) ∨
      (label ∉ cands.map CandidateData.label ∧ g label = some expire) := by
  simp only [updateExpiry, StoreCall.setsExpiry] at h
  by_cases hl : label ∈ cands.map CandidateData.label
  · rw [if_pos hl] at h
    by_cases httl : ttl > 0
    · rw [if_pos httl] at h
      exact .inl ⟨hl, httl, by simpa using h.symm⟩
    · simp [httl] at h
  · rw [if_neg hl] at h
    exact .inr ⟨hl, h⟩

section Step

variable [Inhabited J] {digits : ℕ} {s : Store F J} {g : ℕ → Option ℕ}

variable {cands : List (CandidateData F J)}

variable {label ttl baseTs nowTs : ℕ}

theorem candOf_addCandsData_of_not_mem
    (hl : label ∉ cands.map CandidateData.label) (ttl : ℕ) (needDelta : Bool) (baseTs nowTs : ℕ) :
    candOf (addCandsData s cands ttl needDelta baseTs nowTs).1 label = candOf s label := by
  rw [candOf_addCandsData, find_stampExpire_of_not_mem hl, Option.none_or]

section

variable (hw : WellFormed s)

include hw

section

variable (h : TtlCovered digits s g)

include h

/-- The TTL rows of the labels an upsert leaves alone stay. -/
theorem TtlCovered.row_addCandsData {needDelta : Bool}
    (hfree : TtlKeyFree s (.addCandsData cands ttl needDelta baseTs nowTs))
    {expire : ℕ} {c : CandidateData F J} (hl : label ∉ cands.map CandidateData.label)
    (hgl : g label = some expire) (hc : candOf s label = some c) (hdig : Decimal.numDigits expire = digits) :
    (table .ttl (VectorDB.addCandsData s cands ttl needDelta baseTs nowTs).1).get
      (toString expire) = some (.ttl (toString label)) := by
  have hold := h.row hgl hc hdig
  rw [addCandsData_fst, table_ttl_putCandsData]
  split_ifs with httl
  · cases hf : (stampExpire cands ttl nowTs).reverse.find?
        (fun c => toString c.expireNsTs = toString expire) with
    | none => simpa using hold
    | some c' =>
      -- the row would be replaced only if this record had the call's own expiry
      have hmem := List.mem_of_find?_eq_some hf
      rw [stampExpire_of_pos httl, List.mem_reverse] at hmem
      obtain ⟨c'', -, rfl⟩ := List.mem_map.1 hmem
      have hkey := List.find?_some hf
      simp only [decide_eq_true_eq, toString_inj] at hkey
      obtain rfl := hw.label_eq hc
      have hin := (hfree httl).2 c (hw.mem_getAllCandsData.2 hc)
        ((h.expire hgl hc).trans hkey.symm)
      exact absurd hin hl
  · exact hold

/-- An upsert under a free TTL key keeps the invariant. -/
theorem TtlCovered.addCandsData {needDelta : Bool}
    (hfree : TtlKeyFree s (.addCandsData cands ttl needDelta baseTs nowTs))
    (hclock : ttl > 0 → Decimal.numDigits nowTs = digits) :
    TtlCovered digits (addCandsData s cands ttl needDelta baseTs nowTs).1
      (updateExpiry g (.addCandsData cands ttl needDelta baseTs nowTs)) := by
  constructor
  · intro label expire c hexp hc
    rcases updateExpiry_addCandsData hexp with ⟨hl, httl, rfl⟩ | ⟨hl, hgl⟩
    · obtain ⟨c', hf, -, hc'⟩ := find_stampExpire_of_mem nowTs httl hl
        (p := fun c => c.label = label) (fun c hc _ => decide_eq_true hc)
      rw [candOf_addCandsData, hf, Option.some_or, Option.some_inj] at hc
      rw [← hc, hc']
    · rw [candOf_addCandsData_of_not_mem hl] at hc
      exact h.expire hgl hc
  · intro label expire c hexp hc hdig
    rcases updateExpiry_addCandsData hexp with ⟨hl, httl, rfl⟩ | ⟨hl, hgl⟩
    · obtain ⟨c', hf, hl', -⟩ := find_stampExpire_of_mem nowTs httl hl
        (p := fun c => toString c.expireNsTs = toString (nowTs + ttl * 1000000000))
        (fun c _ hc => by simp [hc])
      obtain ⟨c1, hc1, hl1⟩ := List.mem_map.1 hl'
      obtain ⟨c2, hc2, rfl⟩ := List.mem_map.1 hl
      rw [addCandsData_fst, table_ttl_putCandsData, if_pos httl, hf]
      simp [← hl1, (hfree httl).1 c1 hc1 c2 hc2]
    · rw [candOf_addCandsData_of_not_mem hl] at hc
      exact h.row_addCandsData hw hfree hl hgl hc hdig
  · intro label expire hexp
    rcases updateExpiry_addCandsData hexp with ⟨-, httl, rfl⟩ | ⟨-, hgl⟩
    · rw [← hclock httl]
      exact Decimal.numDigits_le_of_le (by omega)
    · exact h.digits_le hgl

/-- A clean-up removes the TTL rows below the clock together with the records they name. -/
theorem TtlCovered.expireData {nowTime : ℕ}
    (baseTs : ℕ) (hclock : Decimal.numDigits nowTime = digits) :
    TtlCovered digits (expireData s nowTime baseTs).1 g := by
  have hcand : ∀ {label c},
      candOf (VectorDB.expireData s nowTime baseTs).1 label = some c →
      candOf s label = some c ∧ c ∉ expiredCandsData s nowTime := by
    intro label c hc
    rw [candOf_expireData] at hc
    split_ifs at hc with hex
    exact ⟨hc, fun hmem => hex ⟨c, hmem, hw.label_eq hc⟩⟩
  constructor
  · intro label expire c hexp hc
    exact h.expire hexp (hcand hc).1
  · intro label expire c hexp hc hdig
    obtain ⟨hs, hnot⟩ := hcand hc
    have hrow := h.row hexp hs hdig
    rw [table_ttl_expireData, if_neg]
    · exact hrow
    · rintro ⟨⟨k, r⟩, hmem, rfl⟩
      rw [ttlKvList, beginToSeek_eq] at hmem
      obtain ⟨-, -, hlt⟩ := SortedMap.mem_range.1 hmem
      have hpast := (Decimal.toString_lt_toString (hdig.trans hclock.symm)).1 hlt
      exact hnot (mem_expiredCandsData hrow hlt hs (by rw [h.expire hexp hs]; omega))
  · exact h.digits_le

/-- Every call whose TTL key is free keeps the invariant. -/
theorem TtlCovered.exec {c : StoreCall F J}
    (hfree : TtlKeyFree s c) (hclock : ∀ t ∈ c.clockReadings s, Decimal.numDigits t = digits) :
    TtlCovered digits (c.exec s).1 (updateExpiry g c) := by
  cases c with
  | addCandsData cands ttl needDelta baseTs nowTs =>
    exact h.addCandsData hw hfree fun httl => hclock _ (by simp [StoreCall.clockReadings, httl])
  | deleteData labels needDelta baseTs =>
    have hcand : ∀ {label c}, candOf (VectorDB.deleteData s labels needDelta baseTs).1 label =
        some c → candOf s label = some c := by
      intro label c hc
      rw [candOf_deleteData] at hc
      split_ifs at hc
      exact hc
    refine ⟨fun hexp hc => h.expire hexp (hcand hc), fun hexp hc hdig => ?_, h.digits_le⟩
    rw [StoreCall.exec, deleteData_fst, table_ttl_dropData]
    exact h.row hexp (hcand hc) hdig
  | expireData nowTime baseTs =>
    exact h.expireData hw baseTs (hclock _ (by simp [StoreCall.clockReadings]))

theorem TtlCovered.runCalls
    {cs : List (StoreCall F J)} (hfree : RunTtlKeyFree s cs)
    (hclock : ∀ t ∈ runClock s cs, Decimal.numDigits t = digits) :
    TtlCovered digits (runCalls s cs) (cs.foldl updateExpiry g) := by
  induction cs generalizing s g with
  | nil => exact h
  | cons c cs ih =>
    have hc : ∀ t ∈ c.clockReadings s, Decimal.numDigits t = digits := fun t ht =>
      hclock t (by simp [runClock, ht])
    have hcs : ∀ t ∈ runClock (c.exec s).1 cs, Decimal.numDigits t = digits := fun t ht =>
      hclock t (by simp [runClock, ht])
    exact ih (hw.exec c) (h.exec hw hfree.1 hc) hfree.2 hcs

end

end

end Step

/-! ## Completeness -/

/-- **Expired records are deleted.**  In every run whose upserts with a TTL write under a free TTL
key, and whose clock readings have one number of digits, the first clean-up after the expiry of a
record (set by its most recent upsert) deletes the record and returns its DELETE record. -/
theorem expireData_complete [Inhabited J] (cs : List (StoreCall F J)) (digits : ℕ)
    (hclock : ∀ t ∈ runClock (SortedMap.empty : Store F J) cs, Decimal.numDigits t = digits)
    (hfree : RunTtlKeyFree (SortedMap.empty : Store F J) cs) {label expire : ℕ}
    {c : CandidateData F J} (hlast : lastExpiry cs label = some expire)
    (hlive : candOf (runCalls SortedMap.empty cs) label = some c) {nowTime : ℕ} (baseTs : ℕ)
    (hnow : Decimal.numDigits nowTime = digits) (hpast : expire < nowTime) :
    candOf (expireData (runCalls SortedMap.empty cs) nowTime baseTs).1 label = none ∧
      deleteRecord label c.fields ∈
        (expireData (runCalls SortedMap.empty cs) nowTime baseTs).2 := by
  have hw : WellFormed (runCalls (SortedMap.empty : Store F J) cs) :=
    wellFormed_empty.runCalls cs
  have hinv := (ttlCovered_empty digits).runCalls wellFormed_empty hfree hclock
  have hdig : Decimal.numDigits expire = digits := by
    refine le_antisymm ?_ (hinv.digits_le hlast)
    rw [← hnow]
    exact Decimal.numDigits_le_of_le hpast.le
  have hrow := hinv.row hlast hlive hdig
  have hkey : toString expire < toString nowTime :=
    (Decimal.toString_lt_toString (hdig.trans hnow.symm)).2 hpast
  have hmem := mem_expiredCandsData hrow hkey hlive (by rw [hinv.expire hlast hlive]; omega)
  have hlabel := hw.label_eq hlive
  constructor
  · rw [candOf_expireData, if_pos ⟨c, hmem, hlabel⟩]
  · rw [← hlabel]
    exact List.mem_map.2 ⟨c, hmem, rfl⟩

/-- Two records with a TTL, each in a call of its own, and a clean-up before either expires. -/
def separateTtlRun : List (StoreCall ℕ String) :=
  [.addCandsData [sampleCand 1 "a" 0] 2 true 1700000000000000000 1700000000000000001,
    .addCandsData [sampleCand 2 "b" 0] 3 true 1700000000000000010 1700000000000000011,
    .expireData 1700000001000000000 1700000001000000001]

theorem expireData_complete_separateTtlRun :
    candOf (expireData (runCalls SortedMap.empty separateTtlRun) 1700000003000000000
        1700000003000000001).1 1 = none ∧
      deleteRecord 1 "a" ∈ (expireData (runCalls SortedMap.empty separateTtlRun)
        1700000003000000000 1700000003000000001).2 :=
  expireData_complete separateTtlRun 19 (by decide +kernel) (by decide +kernel)
    (show lastExpiry separateTtlRun 1 = some 1700000002000000001 by decide +kernel)
    (show candOf _ 1 = some (sampleCand 1 "a" 1700000002000000001) by decide +kernel) _
    (by decide +kernel) (by decide)

/-- Two records with a TTL in one call. -/
def sharedTtlRun : List (StoreCall ℕ String) :=
  [.addCandsData [sampleCand 1 "a" 0, sampleCand 2 "b" 0] 1 true 1700000000000000000
    1700000000000000010]

/-- Both records of the batch expire together, but only the last one has a TTL row: the first one
outlives the clean-up, and no DELETE record names it. -/
theorem expireData_sharedTtlRun :
    (∀ t ∈ runClock SortedMap.empty sharedTtlRun, Decimal.numDigits t = 19) ∧
      lastExpiry sharedTtlRun 1 = some 1700000001000000010 ∧
      (candOf (expireData (runCalls SortedMap.empty sharedTtlRun) 1700000002000000000
        1700000002000000001).1 1).isSome ∧
      (expireData (runCalls SortedMap.empty sharedTtlRun) 1700000002000000000
        1700000002000000001).2.map DeltaRecord.label = [2] := by
  decide +kernel

end OpenViking.VectorDB
