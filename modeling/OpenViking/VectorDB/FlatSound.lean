import OpenViking.VectorDB.FlatIndex

/-!
# What a flat index keeps in any run

However many calls there are, also when the logical offsets, counted in 32 bits, start again.

Results:

* `BruteforceSearch.Sound.run`: where the two maps lead, in every run.
-/

namespace OpenViking

/-! ## Maps that lead to rows -/

variable {κ : Type*} [LinearOrder κ]

/-- What the map leads to is a row with the key.  A row whose key another one has, or had, may be
missing. -/
def LeadsToRows (m : SortedMap κ ℕ) (key : ℕ → κ) (n : ℕ) : Prop :=
  ∀ k i, m.get k = some i → i < n ∧ key i = k

namespace LeadsToRows

variable {m : SortedMap κ ℕ} {key key' : ℕ → κ} {n i : ℕ}

theorem congr (h : LeadsToRows m key n) (hkey : ∀ i < n, key' i = key i) : LeadsToRows m key' n := by
  intro k i hi
  obtain ⟨hlt, heq⟩ := h k i hi
  exact ⟨hlt, (hkey i hlt).trans heq⟩

theorem push (h : LeadsToRows m key n) {k : κ} (hkey : ∀ i < n, key' i = key i)
    (hlast : key' n = k) : LeadsToRows (m.put k n) key' (n + 1) := by
  intro k' i hi
  rw [SortedMap.get_put] at hi
  split_ifs at hi with hk
  · obtain rfl := Option.some.inj hi
    exact ⟨by omega, hlast.trans hk.symm⟩
  · obtain ⟨hlt, heq⟩ := h k' i hi
    exact ⟨by omega, (hkey i hlt).trans heq⟩

theorem pop (h : LeadsToRows m key (n + 1)) : LeadsToRows (m.erase (key n)) key n := by
  intro k i hi
  rw [SortedMap.get_erase] at hi
  split_ifs at hi with hk
  obtain ⟨hlt, heq⟩ := h k i hi
  have hne : i ≠ n := by
    rintro rfl
    exact hk heq.symm
  exact ⟨by omega, heq⟩

theorem swapRemove (h : LeadsToRows m key (n + 1)) (hi : i < n)
    (hkey : ∀ j < n, key' j = if j = i then key n else key j) :
    LeadsToRows ((m.erase (key i)).put (key n) i) key' n := by
  intro k j hj
  rw [SortedMap.get_put] at hj
  split_ifs at hj with hk
  · obtain rfl := Option.some.inj hj
    exact ⟨hi, by rw [hkey _ hi, if_pos rfl, hk]⟩
  · rw [SortedMap.get_erase] at hj
    split_ifs at hj with hki
    obtain ⟨hlt, heq⟩ := h k j hj
    have hjn : j ≠ n := by
      rintro rfl
      exact hk heq.symm
    have hji : j ≠ i := by
      rintro rfl
      exact hki heq.symm
    have hjlt : j < n := by omega
    exact ⟨hjlt, by rw [hkey j hjlt, if_neg hji, heq]⟩

theorem rebuildRows (key : ℕ → κ) (n : ℕ) : LeadsToRows (OpenViking.rebuildRows key n) key n := by
  induction n with
  | zero =>
    intro k i hi
    simp [OpenViking.rebuildRows] at hi
  | succ n ih =>
    have hsucc : OpenViking.rebuildRows key (n + 1) =
        (OpenViking.rebuildRows key n).put (key n) n := by
      unfold OpenViking.rebuildRows
      rw [List.range_succ, List.foldl_append]
      rfl
    rw [hsucc]
    exact ih.push (fun _ _ => rfl) rfl

end LeadsToRows

namespace VectorDB

namespace BruteforceSearch

variable {F E : Type}

/-- The label map leads to exactly the rows, the offset map only to rows; each row has its sparse
row, and a place in the buffer. -/
structure Sound (ix : BruteforceSearch F E) : Prop where
  labels : IndexesRows ix.labelMap (fun i => (ix.dataBuffer i).label) ix.currentCount
  offsets : LeadsToRows ix.offsetMap (fun i => (ix.dataBuffer i).offset) ix.currentCount
  sparse : ∀ sp, ix.sparseIndex = some sp → sp.rows.length = ix.currentCount
  capacity : ix.currentCount ≤ ix.capacity

theorem sound_create (cfg : FlatConfig F E) (maxElementCount : ℕ) (memory : ℕ → FlatRow E) :
    (create cfg maxElementCount memory).Sound where
  labels := indexesRows_empty _
  offsets := fun k i hi => by simp [create] at hi
  sparse := by
    unfold create
    cases cfg.enableSparse <;> simp [SparseRowIndex.initEmptyData]
  capacity := Nat.zero_le _

/-! ## Calls -/

variable {cfg : FlatConfig F E} {ix ix' : BruteforceSearch F E} {label i : ℕ}

/-- A point's terms enter the dictionary, and the rows stay. -/
theorem makeSparsePoint_rows [Add F] {sparse : Option (RawSparse F)}
    {dp : Option (SparseDatapoint F)} (h : ix.makeSparsePoint cfg sparse = some (ix', dp)) :
    ∃ s', ix' = { ix with sparseIndex := s' } ∧
      (s' = none ↔ ix.sparseIndex = none) ∧
      ∀ sp', s' = some sp' → ∃ sp, ix.sparseIndex = some sp ∧ sp'.rows = sp.rows := by
  unfold makeSparsePoint at h
  cases hidx : ix.sparseIndex with
  | none =>
    rw [hidx] at h
    cases h
    exact ⟨none, by rw [← hidx], by simp, by simp⟩
  | some sp =>
    cases hsparse : sparse with
    | none =>
      rw [hidx, hsparse] at h
      cases h
      exact ⟨some sp, by rw [← hidx], by simp, fun sp' hsp' => ⟨sp, rfl, by cases hsp'; rfl⟩⟩
    | some raw =>
      rw [hidx, hsparse] at h
      simp only [Option.ite_none_left_eq_some, Option.some.injEq, Prod.mk.injEq] at h
      obtain ⟨-, rfl, -⟩ := h
      exact ⟨_, rfl, by simp, fun sp' hsp' => ⟨sp, rfl, by cases hsp'; rfl⟩⟩

namespace Sound

theorem withSparse (h : ix.Sound) {s' : Option (SparseRowIndex F)}
    (hs : ∀ sp', s' = some sp' → sp'.rows.length = ix.currentCount) :
    ({ ix with sparseIndex := s' } : BruteforceSearch F E).Sound :=
  ⟨h.labels, h.offsets, hs, h.capacity⟩

variable {dp : Option (SparseDatapoint F)} {sparse : Option (RawSparse F)}

theorem makeSparsePoint [Add F] (h : ix.Sound) (hmake : ix.makeSparsePoint cfg sparse = some (ix', dp)) :
    ix'.Sound := by
  obtain ⟨s', rfl, -, hrows⟩ := makeSparsePoint_rows hmake
  refine h.withSparse fun sp' hsp' => ?_
  obtain ⟨sp, hsp, heq⟩ := hrows sp' hsp'
  rw [heq, h.sparse sp hsp]

theorem updateSparse (h : ix.Sound) (hupdate : ix.updateSparse i dp = some ix') :
    ix'.Sound ∧ ix'.labelMap = ix.labelMap ∧ ix'.dataBuffer = ix.dataBuffer := by
  unfold BruteforceSearch.updateSparse at hupdate
  cases hidx : ix.sparseIndex with
  | none =>
    rw [hidx] at hupdate
    cases hupdate
    exact ⟨h, rfl, rfl⟩
  | some sp =>
    cases dp with
    | none =>
      rw [hidx] at hupdate
      cases hupdate
      exact ⟨h, rfl, rfl⟩
    | some dp =>
      simp only [hidx, Option.ite_none_left_eq_some, Option.some.injEq] at hupdate
      obtain ⟨-, rfl⟩ := hupdate
      refine ⟨h.withSparse fun sp' hsp' => ?_, rfl, rfl⟩
      cases hsp'
      rw [List.length_set, h.sparse sp hidx]

/-- A row is written again under its label. -/
theorem writePoint (h : ix.Sound) (hlabel : (ix.dataBuffer i).label = label)
    (vector : Option (List F)) : (ix.writePoint cfg i label vector).Sound := by
  have hsame : ∀ j, ((ix.writePoint cfg i label vector).dataBuffer j).label =
      (ix.dataBuffer j).label ∧ ((ix.writePoint cfg i label vector).dataBuffer j).offset =
      (ix.dataBuffer j).offset := by
    intro j
    unfold BruteforceSearch.writePoint
    by_cases hj : j = i
    · subst hj
      simp [hlabel]
    · simp [Function.update_of_ne hj]
  exact ⟨h.labels.congr fun j _ => (hsame j).1, h.offsets.congr fun j _ => (hsame j).2, h.sparse,
    h.capacity⟩

/-- A row is added, with its sparse row. -/
theorem append (h : ix.Sound) (hnone : ix.labelMap.get label = none) (happend : ix.appendSparse dp = some ix')
    (vector : Option (List F)) :
    ((ix'.appendRow label).writePoint cfg ix'.currentCount label vector).Sound := by
  obtain ⟨s', hix', hlen⟩ : ∃ s', ix' = { ix with sparseIndex := s' } ∧
      ∀ sp', s' = some sp' → sp'.rows.length = ix.currentCount + 1 := by
    unfold appendSparse at happend
    cases hidx : ix.sparseIndex with
    | none =>
      rw [hidx] at happend
      cases happend
      exact ⟨none, by rw [← hidx], by simp⟩
    | some sp =>
      simp only [hidx, Option.ite_none_left_eq_some, Option.some.injEq] at happend
      obtain ⟨hcount, rfl⟩ := happend
      refine ⟨_, rfl, fun sp' hsp' => ?_⟩
      cases hsp'
      rw [List.length_append, h.sparse sp hidx, List.length_singleton]
  subst hix'
  set n := ix.currentCount with hn
  have hother : ∀ j < n, (BruteforceSearch.writePoint cfg (appendRow { ix with sparseIndex := s' } label)
      n label vector).dataBuffer j = ix.dataBuffer j := by
    intro j hj
    exact (Function.update_of_ne hj.ne _ _).trans (Function.update_of_ne hj.ne _ _)
  have hself : (BruteforceSearch.writePoint cfg (appendRow { ix with sparseIndex := s' } label) n label
      vector).dataBuffer n =
      ⟨(vector.map cfg.encode).getD (ix.dataBuffer n).vector, label, ix.nextLogicalOffset % 2 ^ 32⟩ := by
    simp [BruteforceSearch.writePoint, appendRow, hn]
  refine ⟨h.labels.push hnone (fun j hj => by rw [hother j hj]) (by rw [hself]),
    h.offsets.push (fun j hj => by rw [hother j hj]) (by rw [hself]), hlen, ?_⟩
  have hcap := h.capacity
  simp only [BruteforceSearch.writePoint, appendRow]
  split_ifs <;> omega

/-- One row and one sparse row less. -/
theorem popBack {n : ℕ} (hn : ix.currentCount = n + 1)
    (hlabels : IndexesRows ix.labelMap (fun i => (ix.dataBuffer i).label) n)
    (hoffsets : LeadsToRows ix.offsetMap (fun i => (ix.dataBuffer i).offset) n)
    (hsparse : ∀ sp, ix.sparseIndex = some sp → sp.rows.length = n + 1)
    (hcap : n ≤ ix.capacity) : ix.popBack.Sound := by
  have hcount : ix.popBack.currentCount = n := by simp [BruteforceSearch.popBack, hn]
  refine ⟨?_, ?_, fun sp' hsp' => ?_, ?_⟩
  · rw [hcount]
    exact hlabels
  · rw [hcount]
    exact hoffsets
  · obtain ⟨sp, hsp, rfl⟩ := Option.map_eq_some_iff.1 hsp'
    rw [List.length_dropLast, hsparse sp hsp, hcount]
    rfl
  · rw [hcount]
    exact hcap

theorem removePoint (h : ix.Sound) (label : ℕ) (hrun : (ix.removePoint label).state? = some ix') :
    ix'.Sound := by
  unfold BruteforceSearch.removePoint at hrun
  cases hi : ix.labelMap.get label with
  | none =>
    rw [hi] at hrun
    cases hrun
    exact h
  | some i =>
    have hlt := h.labels.lt hi
    have hkey : (ix.dataBuffer i).label = label := h.labels.key_eq hi
    obtain ⟨n, hn⟩ : ∃ n, ix.currentCount = n + 1 := ⟨ix.currentCount - 1, by omega⟩
    have hlabels := h.labels
    have hoffsets := h.offsets
    have hcap := h.capacity
    rw [hn] at hlabels hoffsets hlt
    rw [hi] at hrun
    by_cases hlast : i = n
    · -- the last row itself goes
      subst hlast
      have hcond : ¬ (ix.currentCount > 0 ∧ i ≠ ix.currentCount - 1) := by omega
      simp only [if_neg hcond] at hrun
      obtain rfl := Option.some.inj hrun
      refine popBack hn ?_ hoffsets.pop (fun sp hsp => (h.sparse sp hsp).trans hn) ?_
      · rw [← hkey]
        exact hlabels.pop
      · show i ≤ ix.capacity
        omega
    · -- the last row takes its place
      have hin : i < n := by omega
      have hcond : ix.currentCount > 0 ∧ i ≠ ix.currentCount - 1 := by omega
      simp only [if_pos hcond] at hrun
      rw [show ix.currentCount - 1 = n by omega] at hrun
      have hkeys : ∀ f : FlatRow E → ℕ, ∀ j < n,
          f (Function.update ix.dataBuffer i (ix.dataBuffer n) j) =
            if j = i then f (ix.dataBuffer n) else f (ix.dataBuffer j) := by
        intro f j _
        rw [Function.update_apply]
        split_ifs <;> rfl
      have hswapLabels := hlabels.swapRemove hin (hkeys FlatRow.label)
      have hswapOffsets := hoffsets.swapRemove hin (hkeys FlatRow.offset)
      rw [hkey] at hswapLabels
      unfold moveLastSparse moveLast at hrun
      cases hidx : ix.sparseIndex with
      | none =>
        simp only [hidx] at hrun
        obtain rfl := Option.some.inj hrun
        exact popBack hn hswapLabels hswapOffsets (by simp) (by show n ≤ ix.capacity; omega)
      | some sp =>
        have hlen := h.sparse sp hidx
        simp only [hidx, List.getElem?_eq_getElem (show n < sp.rows.length by omega),
          if_neg (show ¬ sp.rows.length ≤ i by omega)] at hrun
        obtain rfl := Option.some.inj hrun
        refine popBack hn hswapLabels hswapOffsets (fun sp' hsp' => ?_) (by show n ≤ ix.capacity; omega)
        cases hsp'
        rw [List.length_set, hlen, hn]

theorem addPoint [Add F] (h : ix.Sound) {vector : Option (List F)}
    (hrun : (ix.addPoint cfg vector label sparse).state? = some ix') : ix'.Sound := by
  unfold BruteforceSearch.addPoint at hrun
  cases hmake : ix.makeSparsePoint cfg sparse with
  | none =>
    simp only [hmake] at hrun
    obtain rfl := Option.some.inj hrun
    exact h
  | some made =>
    obtain ⟨ix₁, dp⟩ := made
    have h₁ := h.makeSparsePoint hmake
    simp only [hmake] at hrun
    cases hi : ix₁.labelMap.get label with
    | some i =>
      simp only [hi] at hrun
      cases hupdate : ix₁.updateSparse i dp with
      | none =>
        simp only [hupdate] at hrun
        obtain rfl := Option.some.inj hrun
        exact h₁
      | some ix₂ =>
        simp only [hupdate] at hrun
        obtain rfl := Option.some.inj hrun
        obtain ⟨h₂, -, hbuffer⟩ := h₁.updateSparse hupdate
        refine h₂.writePoint ?_ vector
        rw [hbuffer]
        exact h₁.labels.key_eq hi
    | none =>
      simp only [hi] at hrun
      cases happend : ix₁.appendSparse dp with
      | none =>
        simp only [happend] at hrun
        obtain rfl := Option.some.inj hrun
        exact h₁
      | some ix₂ =>
        simp only [happend] at hrun
        split_ifs at hrun
        · obtain rfl := Option.some.inj hrun
          exact h₁.append hi happend vector
        · cases hrun

theorem load_save (h : ix.Sound) (memory : ℕ → FlatRow E) : (load ix.save memory).Sound := by
  have hrow : ∀ i < ix.currentCount, (((List.range ix.capacity).map ix.dataBuffer)[i]?).getD
      (memory i) = ix.dataBuffer i := by
    intro i hi
    have hcap := hi.trans_le h.capacity
    simp [hcap]
  have hlabels := h.labels.congr fun i hi => congrArg FlatRow.label (hrow i hi)
  have hrebuilt := hlabels.rebuildRows
  rw [← hrebuilt] at hlabels
  exact ⟨hlabels, LeadsToRows.rebuildRows _ _, h.sparse, h.capacity⟩

/-- **Every call that is defined** keeps the maps leading to rows. -/
theorem step [Add F] (h : ix.Sound) {a : Act F E}
    (hstep : BruteforceSearch.step cfg ix a = some ix') : ix'.Sound := by
  cases a with
  | addPoint vector label sparse => exact h.addPoint hstep
  | removePoint label => exact h.removePoint label hstep
  | saveLoad memory =>
    obtain rfl := Option.some.inj hstep
    exact h.load_save memory

theorem run [Add F] (h : ix.Sound) {acts : List (Act F E)}
    (hrun : runActs (BruteforceSearch.step cfg) ix acts = some ix') : ix'.Sound := by
  induction acts generalizing ix with
  | nil =>
    obtain rfl := Option.some.inj hrun
    exact h
  | cons a acts ih =>
    obtain ⟨ix₁, hstep, hrest⟩ := Option.bind_eq_some_iff.1 hrun
    exact ih (h.step hstep) hrest

end Sound

end BruteforceSearch

end VectorDB

end OpenViking
