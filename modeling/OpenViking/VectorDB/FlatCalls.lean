import OpenViking.VectorDB.FlatTable

/-!
# Calls of the flat index

What a call does to the buffer and the two maps, in terms of the table that they store.  Results:

* `Represents.load_save`: saved and loaded, an index is the same up to the memory it does not own;
* `Represents.step`: every call that is defined keeps the index and the table related.
-/

namespace OpenViking.VectorDB

variable {F E : Type}

namespace BruteforceSearch

namespace Represents

variable {cfg : FlatConfig F E} {t : FlatTable F} {ix : BruteforceSearch F E} {label i : ℕ}
  {p : PointSpec F}

/-! ### A row is written again -/

theorem updateSparse_spec (h : Represents cfg t ix) (hi : i < ix.currentCount)
    (dp : Option (SparseDatapoint F)) : ∃ s', ix.updateSparse i dp = some { ix with sparseIndex := s' } ∧
      SparseOk cfg t { ix with sparseIndex := s' } ∧
      ∀ sp', s' = some sp' → ∃ sp, ix.sparseIndex = some sp ∧
        ∀ j, sp'.rows[j]? = if j = i then (sp.rows[i]?).map dp.getD else sp.rows[j]? := by
  have hsparse := h.sparse
  unfold SparseOk at hsparse ⊢
  unfold updateSparse
  cases hidx : ix.sparseIndex with
  | none =>
    rw [hidx] at hsparse
    have hix : { ix with sparseIndex := none } = ix := by rw [← hidx]
    exact ⟨none, by simp [hix], hsparse, by simp⟩
  | some sp =>
    rw [hidx] at hsparse
    obtain ⟨henable, hterms, hlen⟩ := hsparse
    cases dp with
    | none =>
      have hix : { ix with sparseIndex := some sp } = ix := by rw [← hidx]
      refine ⟨some sp, by simp [hix], ⟨henable, hterms, hlen⟩, ?_⟩
      rintro sp' ⟨rfl⟩
      refine ⟨sp, rfl, fun j => ?_⟩
      split_ifs with hj
      · subst hj
        cases sp.rows[j]? <;> rfl
      · rfl
    | some d =>
      have hnot : ¬ sp.rows.length ≤ i := by omega
      refine ⟨some { sp with rows := sp.rows.set i d }, by simp only [if_neg hnot],
        ⟨henable, hterms, by simpa using hlen⟩, ?_⟩
      rintro sp' ⟨rfl⟩
      refine ⟨sp, rfl, fun j => ?_⟩
      split_ifs with hj
      · subst hj
        simp [hlen, hi]
      · simp [Ne.symm hj]

/-- The row of a live label is written again. -/
theorem update (h : Represents cfg t ix) (hi : ix.labelMap.get label = some i)
    (hp : t.points label = some p) (vector : Option (List F)) (dp : Option (SparseDatapoint F)) :
    ∃ ix', ix.updateSparse i dp = some ix' ∧
      Represents cfg
        { t with
          points := Function.update t.points label
            (some ⟨p.offset, vector.or p.vector, dp.getD p.sparse⟩) }
        (ix'.writePoint cfg i label vector) := by
  obtain ⟨q, hq, hstores⟩ := h.row hi
  obtain rfl : p = q := by simpa [hp] using hq
  have hlt := h.labels.lt hi
  have hkey := h.labels.key_eq hi
  obtain ⟨s', hupdate, hok, hrows⟩ := h.updateSparse_spec hlt dp
  refine ⟨_, hupdate, ?_⟩
  -- the other rows, and the label and the offset of this one, are as they were
  have hother : ∀ j, j ≠ i →
      (writePoint cfg { ix with sparseIndex := s' } i label vector).dataBuffer j =
        ix.dataBuffer j := fun j hj => Function.update_of_ne hj _ _
  have hself : (writePoint cfg { ix with sparseIndex := s' } i label vector).dataBuffer i =
      ⟨(vector.map cfg.encode).getD (ix.dataBuffer i).vector, label, (ix.dataBuffer i).offset⟩ :=
    Function.update_self _ _ _
  constructor
  · refine h.labels.congr fun j _ => ?_
    by_cases hj : j = i
    · subst hj
      rw [hself]
      exact hkey.symm
    · rw [hother j hj]
  · refine h.offsets.congr fun j _ => ?_
    by_cases hj : j = i
    · subst hj
      rw [hself]
    · rw [hother j hj]
  · intro label' q hq'
    by_cases hl : label' = label
    · subst hl
      exact ⟨i, hi⟩
    · exact h.live ((Function.update_of_ne hl _ _).symm.trans hq')
  · intro label' j hj
    by_cases hl : label' = label
    · subst hl
      obtain rfl : i = j := Option.some.inj (hi.symm.trans hj)
      refine ⟨_, Function.update_self _ _ _, ⟨?_, fun v hv => ?_, fun sp' hsp' => ?_⟩⟩
      · rw [hself]
        exact hstores.offset
      · rw [hself]
        cases vector with
        | some w =>
          obtain rfl : w = v := by simpa using hv
          rfl
        | none => exact hstores.vector v (by simpa using hv)
      · obtain ⟨sp, hsp, hget⟩ := hrows sp' hsp'
        rw [hget i, if_pos rfl, hstores.sparse sp hsp]
        rfl
    · obtain ⟨q, hq', hstores'⟩ := h.row hj
      have hne : j ≠ i := by
        rintro rfl
        exact hl ((h.labels.key_eq hj).symm.trans hkey)
      refine ⟨q, (Function.update_of_ne hl _ _).trans hq', ⟨?_, fun v hv => ?_, fun sp' hsp' => ?_⟩⟩
      · rw [hother j hne]
        exact hstores'.offset
      · rw [hother j hne]
        exact hstores'.vector v hv
      · obtain ⟨sp, hsp, hget⟩ := hrows sp' hsp'
        rw [hget j, if_neg hne]
        exact hstores'.sparse sp hsp
  · exact hok
  · exact h.capacity
  · exact h.next

/-! ### A row is added -/

theorem appendSparse_spec (h : Represents cfg t ix) (dp : Option (SparseDatapoint F)) :
    ∃ s', ix.appendSparse dp = some { ix with sparseIndex := s' } ∧
      SparseOk cfg t { ix with sparseIndex := s', currentCount := ix.currentCount + 1 } ∧
      ∀ sp', s' = some sp' → ∃ sp, ix.sparseIndex = some sp ∧
        sp'.rows = sp.rows ++ [dp.getD []] := by
  have hsparse := h.sparse
  unfold SparseOk at hsparse ⊢
  unfold appendSparse
  cases hidx : ix.sparseIndex with
  | none =>
    rw [hidx] at hsparse
    have hix : { ix with sparseIndex := none } = ix := by rw [← hidx]
    exact ⟨none, by simp [hix], hsparse, by simp⟩
  | some sp =>
    rw [hidx] at hsparse
    obtain ⟨henable, hterms, hlen⟩ := hsparse
    refine ⟨some { sp with rows := sp.rows ++ [dp.getD []] }, by simp [hlen],
      ⟨henable, hterms, by simp [hlen]⟩, ?_⟩
    rintro sp' ⟨rfl⟩
    exact ⟨sp, rfl, rfl⟩

/-- A label comes, with the next offset. -/
theorem append (h : Represents cfg t ix) (hwf : t.Wf) (hnext : t.next < 2 ^ 32)
    (hnone : ix.labelMap.get label = none) (vector : Option (List F)) (dp : Option (SparseDatapoint F)) :
    ∃ ix', ix.appendSparse dp = some ix' ∧ ix'.currentCount = ix.currentCount ∧
      Represents cfg
        { t with
          points := Function.update t.points label (some ⟨t.next, vector, dp.getD []⟩)
          next := t.next + 1 }
        ((ix'.appendRow label).writePoint cfg ix'.currentCount label vector) := by
  obtain ⟨s', happend, hok, hrows⟩ := h.appendSparse_spec dp
  refine ⟨_, happend, rfl, ?_⟩
  have hmod : ix.nextLogicalOffset % 2 ^ 32 = t.next := by
    rw [h.next]
    exact Nat.mod_eq_of_lt hnext
  have hother : ∀ j < ix.currentCount,
      (writePoint cfg (appendRow { ix with sparseIndex := s' } label) ix.currentCount label
        vector).dataBuffer j = ix.dataBuffer j := by
    intro j hj
    exact (Function.update_of_ne hj.ne _ _).trans (Function.update_of_ne hj.ne _ _)
  have hself : (writePoint cfg (appendRow { ix with sparseIndex := s' } label) ix.currentCount label
      vector).dataBuffer ix.currentCount =
      ⟨(vector.map cfg.encode).getD (ix.dataBuffer ix.currentCount).vector, label, t.next⟩ := by
    rw [← hmod]
    simp [writePoint, appendRow]
  have hfresh : ix.offsetMap.get t.next = none := by
    rw [Option.eq_none_iff_forall_ne_some]
    intro j hj
    obtain ⟨p, hp, heq⟩ := h.offset_at (h.offsets.lt hj)
    have hlt := hwf.lt hp
    have hkey : (ix.dataBuffer j).offset = t.next := h.offsets.key_eq hj
    omega
  constructor
  · refine h.labels.push hnone (fun j hj => ?_) ?_
    · rw [hother j hj]
    · rw [hself]
  · rw [show (writePoint cfg (appendRow { ix with sparseIndex := s' } label) ix.currentCount label
      vector).offsetMap = ix.offsetMap.put t.next ix.currentCount by rw [← hmod]; rfl]
    refine h.offsets.push hfresh (fun j hj => ?_) ?_
    · rw [hother j hj]
    · rw [hself]
  · intro label' q hq
    by_cases hl : label' = label
    · subst hl
      exact ⟨_, SortedMap.get_put_self _ _ _⟩
    · obtain ⟨j, hj⟩ := h.live ((Function.update_of_ne hl _ _).symm.trans hq)
      exact ⟨j, (SortedMap.get_put_of_ne _ _ hl).trans hj⟩
  · intro label' j hj
    by_cases hl : label' = label
    · subst hl
      have hput := SortedMap.get_put_self ix.labelMap label' ix.currentCount
      obtain rfl : ix.currentCount = j := Option.some.inj (hput.symm.trans hj)
      refine ⟨_, Function.update_self _ _ _, ⟨?_, fun v hv => ?_, fun sp' hsp' => ?_⟩⟩
      · rw [hself]
      · rw [hself]
        obtain rfl : vector = some v := hv
        rfl
      · obtain ⟨sp, hsp, heq⟩ := hrows sp' hsp'
        rw [heq, ← h.sparse_length hsp]
        simp
    · have hj' : ix.labelMap.get label' = some j := (SortedMap.get_put_of_ne _ _ hl).symm.trans hj
      obtain ⟨q, hq, hstores⟩ := h.row hj'
      have hlt := h.labels.lt hj'
      refine ⟨q, (Function.update_of_ne hl _ _).trans hq, ⟨?_, fun v hv => ?_, fun sp' hsp' => ?_⟩⟩
      · rw [hother j hlt]
        exact hstores.offset
      · rw [hother j hlt]
        exact hstores.vector v hv
      · obtain ⟨sp, hsp, heq⟩ := hrows sp' hsp'
        have hlen := h.sparse_length hsp
        rw [heq, List.getElem?_append_left (by omega)]
        exact hstores.sparse sp hsp
  · exact hok
  · have hcap := h.capacity
    simp only [writePoint, appendRow]
    split_ifs <;> omega
  · exact congrArg (· + 1) h.next

/-! ### A row is removed -/

theorem moveLastSparse_spec (h : Represents cfg t ix) (hi : i < ix.currentCount)
    {ix' : BruteforceSearch F E} (hix : ix'.sparseIndex = ix.sparseIndex) :
    ∃ s', ix'.moveLastSparse i (ix.currentCount - 1) = some { ix' with sparseIndex := s' } ∧
      SparseOk cfg t { ix with sparseIndex := s' } ∧
      ∀ sp', s' = some sp' → ∃ sp, ix.sparseIndex = some sp ∧
        ∀ j, sp'.rows[j]? = if j = i then sp.rows[ix.currentCount - 1]? else sp.rows[j]? := by
  have hsparse := h.sparse
  unfold SparseOk at hsparse ⊢
  unfold moveLastSparse
  rw [hix]
  cases hidx : ix.sparseIndex with
  | none =>
    rw [hidx] at hsparse hix
    have heq : { ix' with sparseIndex := none } = ix' := by rw [← hix]
    exact ⟨none, by simp [heq], hsparse, by simp⟩
  | some sp =>
    rw [hidx] at hsparse
    obtain ⟨henable, hterms, hlen⟩ := hsparse
    have hlast : ix.currentCount - 1 < sp.rows.length := by omega
    have hnot : ¬ sp.rows.length ≤ i := by omega
    have hget := List.getElem?_eq_getElem hlast
    refine ⟨some { sp with rows := sp.rows.set i (sp.rows.get ⟨_, hlast⟩) }, ?_,
      ⟨henable, hterms, by simpa using hlen⟩, ?_⟩
    · simp only [hget, if_neg hnot]
      rfl
    · rintro sp' ⟨rfl⟩
      refine ⟨sp, rfl, fun j => ?_⟩
      split_ifs with hj
      · subst hj
        simp [hlen, hi]
      · simp [Ne.symm hj]

theorem sparseOk_popBack {n : ℕ} (_hn : ix.currentCount = n + 1) (h : SparseOk cfg t ix) :
    SparseOk cfg t ix.popBack := by
  unfold SparseOk at h ⊢
  cases hidx : ix.sparseIndex with
  | none => simpa [popBack, hidx] using h
  | some sp =>
    rw [hidx] at h
    obtain ⟨henable, hterms, hlen⟩ := h
    simp [popBack, hidx, henable, hterms, hlen]

theorem popBack_rows {n : ℕ} {sp' : SparseRowIndex F} (h : ix.popBack.sparseIndex = some sp')
    (hlen : ∀ sp, ix.sparseIndex = some sp → sp.rows.length = n + 1) :
    ∃ sp, ix.sparseIndex = some sp ∧ ∀ j < n, sp'.rows[j]? = sp.rows[j]? := by
  obtain ⟨sp, hsp, rfl⟩ := Option.map_eq_some_iff.1 h
  refine ⟨sp, hsp, fun j hj => ?_⟩
  rw [List.getElem?_dropLast, hlen sp hsp, if_pos (by omega)]

/-- Where the row that is at `j` after a removal was before. -/
def movedFrom (i n j : ℕ) : ℕ := if j = i then n else j

/-- A removal: the last row comes to the place of the one that goes. -/
theorem removePoint_spec (h : Represents cfg t ix) (hi : ix.labelMap.get label = some i) {n : ℕ}
    (hn : ix.currentCount = n + 1) :
    ∃ ix', ix.removePoint label = .done ix' ∧ ix'.currentCount = n ∧ ix'.capacity = ix.capacity ∧
      ix'.nextLogicalOffset = ix.nextLogicalOffset ∧
      IndexesRows ix'.labelMap (fun j => (ix'.dataBuffer j).label) n ∧
      IndexesRows ix'.offsetMap (fun j => (ix'.dataBuffer j).offset) n ∧
      SparseOk cfg t ix' ∧
      (∀ j < n, ix'.dataBuffer j = ix.dataBuffer (movedFrom i n j)) ∧
      ∀ sp', ix'.sparseIndex = some sp' → ∃ sp, ix.sparseIndex = some sp ∧
        ∀ j < n, sp'.rows[j]? = sp.rows[movedFrom i n j]? := by
  have hlabels := h.labels
  have hoffsets := h.offsets
  have hlt := h.labels.lt hi
  have hkey : (ix.dataBuffer i).label = label := h.labels.key_eq hi
  rw [hn] at hlabels hoffsets hlt
  unfold removePoint
  rw [hi]
  by_cases hlast : i = n
  · -- the last row itself goes
    subst hlast
    have hcond : ¬ (ix.currentCount > 0 ∧ i ≠ ix.currentCount - 1) := by omega
    refine ⟨_, if_neg hcond, by simp [popBack, hn], rfl, rfl, ?_, hoffsets.pop,
      sparseOk_popBack hn h.sparse, fun j hj => ?_, fun sp' hsp' => ?_⟩
    · rw [← hkey]
      exact hlabels.pop
    · rw [movedFrom, if_neg hj.ne]
      rfl
    · obtain ⟨sp, hsp, hget⟩ := popBack_rows hsp' fun sp hsp => (h.sparse_length hsp).trans hn
      refine ⟨sp, hsp, fun j hj => ?_⟩
      rw [movedFrom, if_neg hj.ne, hget j hj]
  · -- the last row takes its place
    have hin : i < n := by omega
    have hpred : ix.currentCount - 1 = n := by omega
    have hcond : ix.currentCount > 0 ∧ i ≠ ix.currentCount - 1 := by omega
    -- the index when the row has moved
    obtain ⟨moved, hmoved⟩ : ∃ moved : BruteforceSearch F E, moved = { ix with
      dataBuffer := Function.update ix.dataBuffer i (ix.dataBuffer n)
      labelMap := (ix.labelMap.erase label).put (ix.dataBuffer n).label i
      offsetMap := (ix.offsetMap.erase (ix.dataBuffer i).offset).put (ix.dataBuffer n).offset i } :=
      ⟨_, rfl⟩
    have hmoveLast : ({ ix with
      labelMap := ix.labelMap.erase label
      offsetMap := ix.offsetMap.erase (ix.dataBuffer i).offset } : BruteforceSearch F E).moveLast i
        (ix.currentCount - 1) = moved := by
      rw [hpred, hmoved]
      rfl
    obtain ⟨s', hmove, hok, hrows⟩ :=
      h.moveLastSparse_spec (by omega : i < ix.currentCount) (by rw [hmoved] : moved.sparseIndex = _)
    have hbuffer : ∀ j < n, moved.dataBuffer j = ix.dataBuffer (movedFrom i n j) := by
      intro j _
      rw [hmoved, movedFrom]
      simp only [Function.update_apply]
      split_ifs <;> rfl
    have hkeys : ∀ f : FlatRow E → ℕ, ∀ j < n, f (moved.dataBuffer j) =
        if j = i then f (ix.dataBuffer n) else f (ix.dataBuffer j) := by
      intro f j hj
      rw [hbuffer j hj, movedFrom]
      split_ifs <;> rfl
    refine ⟨popBack { moved with sparseIndex := s' }, ?_, ?_, by rw [hmoved]; rfl,
      by rw [hmoved]; rfl, ?_, ?_, ?_, hbuffer, fun sp' hsp' => ?_⟩
    · simp only [if_pos hcond, hmoveLast, hmove]
    · simp [popBack, hmoved, hn]
    · have hswap := hlabels.swapRemove hin (hkeys FlatRow.label)
      rw [hkey] at hswap
      rw [hmoved] at hswap ⊢
      exact hswap
    · have hswap := hoffsets.swapRemove hin (hkeys FlatRow.offset)
      rw [hmoved] at hswap ⊢
      exact hswap
    · refine sparseOk_popBack (n := n) ?_ ?_
      · rw [hmoved]
        exact hn
      · rw [hmoved]
        exact hok
    · have hlen : ∀ sp, s' = some sp → sp.rows.length = n + 1 := by
        rintro sp rfl
        exact hok.2.2.trans hn
      obtain ⟨sp, hsp, hget⟩ := popBack_rows hsp' hlen
      obtain ⟨sp0, hsp0, hget0⟩ := hrows sp hsp
      refine ⟨sp0, hsp0, fun j hj => ?_⟩
      rw [hget j hj, hget0 j, hpred, movedFrom]
      split_ifs <;> rfl

/-- A label goes, with its row. -/
theorem remove (h : Represents cfg t ix) (label : ℕ) :
    ∃ ix', ix.removePoint label = .done ix' ∧
      Represents cfg { t with points := Function.update t.points label none } ix' := by
  cases hi : ix.labelMap.get label with
  | none =>
    have hpoints : Function.update t.points label none = t.points := by
      rw [Function.update_eq_self_iff]
      exact (h.points_eq_none hi).symm
    refine ⟨ix, by simp [removePoint, hi], ?_⟩
    rw [hpoints]
    exact h
  | some i =>
    have hlt := h.labels.lt hi
    have hkey : (ix.dataBuffer i).label = label := h.labels.key_eq hi
    obtain ⟨n, hn⟩ := Nat.exists_eq_succ_of_ne_zero (by omega : ix.currentCount ≠ 0)
    obtain ⟨ix', hremove, hcount, hcap, hnext, hlabels, hoffsets, hsparse, hbuffer, hrows⟩ :=
      h.removePoint_spec hi hn
    refine ⟨ix', hremove, ?_⟩
    constructor
    · rw [hcount]
      exact hlabels
    · rw [hcount]
      exact hoffsets
    · intro label' p hp
      have hl : label' ≠ label := by
        rintro rfl
        simp at hp
      obtain ⟨j, hj⟩ := h.live ((Function.update_of_ne hl _ _).symm.trans hp)
      have hjlt := h.labels.lt hj
      have hjkey : (ix.dataBuffer j).label = label' := h.labels.key_eq hj
      have hji : j ≠ i := by
        rintro rfl
        exact hl (hjkey.symm.trans hkey)
      -- the last row is found where the removed one was
      by_cases hjn : j = n
      · subst hjn
        refine ⟨i, (hlabels label' i).2 ⟨by omega, ?_⟩⟩
        show (ix'.dataBuffer i).label = label'
        rw [hbuffer i (by omega), movedFrom, if_pos rfl, hjkey]
      · refine ⟨j, (hlabels label' j).2 ⟨by omega, ?_⟩⟩
        show (ix'.dataBuffer j).label = label'
        rw [hbuffer j (by omega), movedFrom, if_neg hji, hjkey]
    · intro label' j hj
      have hjlt := hlabels.lt hj
      have hfrom : movedFrom i n j < ix.currentCount ∧ movedFrom i n j ≠ i := by
        unfold movedFrom
        split_ifs <;> omega
      have hjkey : (ix'.dataBuffer j).label = label' := hlabels.key_eq hj
      rw [hbuffer j hjlt] at hjkey
      obtain ⟨p, hp, hstores⟩ := h.row ((h.labels label' _).2 ⟨hfrom.1, hjkey⟩)
      have hl : label' ≠ label := by
        rintro rfl
        exact hfrom.2 (h.labels.key_inj hfrom.1 hlt (hjkey.trans hkey.symm))
      refine ⟨p, (Function.update_of_ne hl _ _).trans hp, ⟨?_, fun v hv => ?_, fun sp' hsp' => ?_⟩⟩
      · rw [hbuffer j hjlt]
        exact hstores.offset
      · rw [hbuffer j hjlt]
        exact hstores.vector v hv
      · obtain ⟨sp, hsp, hget⟩ := hrows sp' hsp'
        rw [hget j hjlt]
        exact hstores.sparse sp hsp
    · exact hsparse
    · have hcapacity := h.capacity
      omega
    · rw [hnext]
      exact h.next

/-! ### Saving and loading -/

theorem maxOffset_lt (h : Represents cfg t ix) (hwf : t.Wf) (hpos : ix.currentCount > 0) :
    ix.maxOffset < ix.nextLogicalOffset := by
  have hbound : ∀ (l : List ℕ) (m : ℕ), m < ix.nextLogicalOffset →
      (∀ i ∈ l, i < ix.currentCount) →
      l.foldl (fun m i => max m (ix.dataBuffer i).offset) m < ix.nextLogicalOffset := by
    intro l
    induction l with
    | nil => exact fun m hm _ => hm
    | cons i l ih =>
      intro m hm hl
      obtain ⟨p, hp, heq⟩ := h.offset_at (hl i List.mem_cons_self)
      have hlt := hwf.lt hp
      have hnext := h.next
      refine ih _ ?_ fun j hj => hl j (List.mem_cons_of_mem _ hj)
      rw [max_lt_iff]
      exact ⟨hm, by omega⟩
  obtain ⟨p, hp, heq⟩ := h.offset_at hpos
  have hlt := hwf.lt hp
  have hnext := h.next
  exact hbound _ 0 (by omega) fun i hi => List.mem_range.1 hi

/-- Saved and loaded, an index is the same, up to the memory that it does not own. -/
theorem load_save (h : Represents cfg t ix) (hwf : t.Wf) (memory : ℕ → FlatRow E) :
    load ix.save memory =
      { ix with dataBuffer := fun i => if i < ix.capacity then ix.dataBuffer i else memory i } := by
  have hbuffer : ∀ i, (((List.range ix.capacity).map ix.dataBuffer)[i]?).getD (memory i) =
      if i < ix.capacity then ix.dataBuffer i else memory i := by
    intro i
    split_ifs with hi
    · simp [hi]
    · rw [List.getElem?_eq_none (by simpa using hi)]
      rfl
  have hrow : ∀ i < ix.currentCount, (((List.range ix.capacity).map ix.dataBuffer)[i]?).getD
      (memory i) = ix.dataBuffer i := by
    intro i hi
    rw [hbuffer i, if_pos (hi.trans_le h.capacity)]
  have hlabels := (h.labels.congr fun i hi => congrArg FlatRow.label (hrow i hi)).rebuildRows
  have hoffsets := (h.offsets.congr fun i hi => congrArg FlatRow.offset (hrow i hi)).rebuildRows
  -- the offset counter is past every row
  have hcounter : ∀ ix' : BruteforceSearch F E, ix'.currentCount = ix.currentCount →
      ix'.nextLogicalOffset = ix.nextLogicalOffset →
      (∀ i < ix.currentCount, ix'.dataBuffer i = ix.dataBuffer i) →
      ¬ (ix'.currentCount > 0 ∧ ix'.nextLogicalOffset ≤ ix'.maxOffset) := by
    rintro ix' hcount hnext hsame ⟨hpos, hle⟩
    have hmax : ix'.maxOffset = ix.maxOffset := by
      unfold maxOffset
      rw [hcount]
      refine List.foldl_ext _ _ _ fun m i hi => ?_
      rw [hsame i (List.mem_range.1 hi)]
    have hlt := h.maxOffset_lt hwf (by omega)
    omega
  have hcond := hcounter { ix with
    dataBuffer := fun i => (((List.range ix.capacity).map ix.dataBuffer)[i]?).getD (memory i)
    labelMap := SortedMap.empty
    offsetMap := SortedMap.empty } rfl rfl hrow
  unfold load rebuildMaps save
  simp only [Option.getD_some]
  rw [if_neg hcond, hlabels, hoffsets]
  simp only [BruteforceSearch.mk.injEq, and_true]
  exact funext hbuffer

/-- The memory that the index does not own does not matter. -/
theorem withMemory (h : Represents cfg t ix) (memory : ℕ → FlatRow E) :
    Represents cfg t
      { ix with dataBuffer := fun i => if i < ix.capacity then ix.dataBuffer i else memory i } := by
  have hrow : ∀ i < ix.currentCount,
      (if i < ix.capacity then ix.dataBuffer i else memory i) = ix.dataBuffer i :=
    fun i hi => if_pos (hi.trans_le h.capacity)
  constructor
  · exact h.labels.congr fun i hi => congrArg FlatRow.label (hrow i hi)
  · exact h.offsets.congr fun i hi => congrArg FlatRow.offset (hrow i hi)
  · exact h.live
  · intro label i hi
    obtain ⟨p, hp, hstores⟩ := h.row hi
    have heq := hrow i (h.labels.lt hi)
    exact ⟨p, hp, ⟨(congrArg FlatRow.offset heq).trans hstores.offset,
      fun v hv => (congrArg FlatRow.vector heq).trans (hstores.vector v hv), hstores.sparse⟩⟩
  · exact h.sparse
  · exact h.capacity
  · exact h.next

end Represents

/-- An addition that adds a row finds fewer than `2 ^ 31` of them. -/
def RowsFit [Add F] (cfg : FlatConfig F E) (ix : BruteforceSearch F E) : Act F E → Prop
  | .addPoint _ label sparse =>
    (ix.makeSparsePoint cfg sparse).isSome → ix.labelMap.get label = none → ix.currentCount < 2 ^ 31
  | _ => True

namespace Represents

variable {cfg : FlatConfig F E} {t : FlatTable F} {ix : BruteforceSearch F E} [Add F]

/-- Every call that is defined keeps the index and the table related, and only an addition to
`2 ^ 31` rows is not defined. -/
theorem step (h : Represents cfg t ix) (hwf : t.Wf) (a : Act F E) (hnext : t.next + a.isCall.toNat ≤ 2 ^ 32) :
    (RowsFit cfg ix a → ∃ ix', BruteforceSearch.step cfg ix a = some ix' ∧
      Represents cfg (t.step cfg a) ix') ∧
    (¬ RowsFit cfg ix a → BruteforceSearch.step cfg ix a = none) := by
  cases a with
  | addPoint vector label sparse =>
    simp only [Act.isCall, Bool.toNat_true] at hnext
    have hsparse := h.makeSparsePoint_eq sparse
    unfold BruteforceSearch.step addPoint FlatTable.step RowsFit
    cases hpart : t.sparsePart cfg sparse with
    | none =>
      rw [hpart] at hsparse
      simp only [hsparse, hpart, Option.map_none, Option.isSome_none, Bool.false_eq_true,
        false_imp_iff, not_true, forall_const]
      exact ⟨⟨ix, rfl, h⟩, trivial⟩
    | some part =>
      obtain ⟨terms, dp⟩ := part
      rw [hpart] at hsparse
      have hterms := h.withTerms terms
      simp only [hsparse, hpart, Option.map_some, Option.isSome_some, true_imp_iff]
      cases hi : ix.labelMap.get label with
      | some i =>
        obtain ⟨p, hp, -⟩ := h.row hi
        obtain ⟨ix', hupdate, hrep⟩ := hterms.update hi hp vector dp
        simp only [hupdate, reduceCtorEq, false_imp_iff, not_true, forall_const]
        refine ⟨⟨_, rfl, ?_⟩, trivial⟩
        simpa only [FlatTable.pointAt, hp, Option.getD_some, Option.isSome_some, if_true] using hrep
      | none =>
        have hp := h.points_eq_none hi
        have hwf' : ({ t with terms := terms } : FlatTable F).Wf := ⟨hwf.lt, hwf.inj⟩
        obtain ⟨ix', happend, hcount, hrep⟩ := hterms.append hwf' (by
          show t.next < 2 ^ 32
          omega) hi vector dp
        simp only [happend, hcount, true_imp_iff]
        constructor
        · intro hfit
          rw [if_pos hfit]
          refine ⟨_, rfl, ?_⟩
          rw [hcount] at hrep
          simpa only [FlatTable.pointAt, hp, Option.getD_none, Option.isSome_none,
            Bool.false_eq_true, if_false, Option.or_none] using hrep
        · intro hfull
          rw [if_neg hfull]
          rfl
  | removePoint label =>
    obtain ⟨ix', hremove, hrep⟩ := h.remove label
    refine ⟨fun _ => ⟨ix', ?_, hrep⟩, fun hnot => absurd trivial hnot⟩
    rw [BruteforceSearch.step, hremove]
    rfl
  | saveLoad memory =>
    refine ⟨fun _ => ⟨_, rfl, ?_⟩, fun hnot => absurd trivial hnot⟩
    rw [h.load_save hwf]
    exact h.withMemory memory

end Represents

end BruteforceSearch

end OpenViking.VectorDB
