import OpenViking.VectorDB.FlatIndex

/-!
# What the flat index stores

The flat index as the table that its calls describe: for each live label, the offset it was given when
it came, the vector last given for it and its sparse row.  `Represents` relates the buffer and the
two maps to the table.  Results:

* `FlatTable.Wf.step`: offsets are never shared nor given out again;
* `Represents.makeSparsePoint_eq`: the dictionary grows as that of the table.
-/

namespace OpenViking.VectorDB

variable {F E : Type}

/-! ## Tables -/

/-- What the calls so far say of a live label: its offset, the vector last given for it, if any, and
its sparse row. -/
structure PointSpec (F : Type) where
  offset : ℕ
  vector : Option (List F)
  sparse : SparseDatapoint F

/-- The live labels, the dictionary of sparse terms, and the number of offsets given out. -/
structure FlatTable (F : Type) where
  points : ℕ → Option (PointSpec F)
  terms : List ℕ
  next : ℕ

namespace FlatTable

/-- No label is live. -/
def empty : FlatTable F := ⟨fun _ => none, [], 0⟩

/-- The point of a label before an addition: a new one without vector if it is not live. -/
def pointAt (t : FlatTable F) (label : ℕ) : PointSpec F :=
  (t.points label).getD ⟨t.next, none, []⟩

/-- The dictionary and the sparse row after the sparse part of an addition; `none` when it is
refused. -/
def sparsePart [Add F] (cfg : FlatConfig F E) (t : FlatTable F) :
    Option (RawSparse F) → Option (List ℕ × Option (SparseDatapoint F))
  | some (rawTerms, values) =>
    if cfg.enableSparse = false then some (t.terms, none)
    else if rawTerms.length ≠ values.length then none
    else
      let (terms, dp) := indexByTerms t.terms ((rawTerms.map cfg.hashTerm).zip values)
      some (terms, some dp)
  | none => some (t.terms, none)

/-- The table after a call. -/
def step [Add F] (cfg : FlatConfig F E) (t : FlatTable F) : BruteforceSearch.Act F E → FlatTable F
  | .addPoint vector label sparse =>
    match t.sparsePart cfg sparse with
    | none => t
    | some (terms, dp) =>
      let p := t.pointAt label
      { points := Function.update t.points label
          (some ⟨p.offset, vector.or p.vector, dp.getD p.sparse⟩)
        terms := terms
        next := if (t.points label).isSome then t.next else t.next + 1 }
  | .removePoint label => { t with points := Function.update t.points label none }
  | .saveLoad _ => t

/-- Offsets are given out once. -/
structure Wf (t : FlatTable F) : Prop where
  lt : ∀ {label p}, t.points label = some p → p.offset < t.next
  inj : ∀ {label label' p p'}, t.points label = some p → t.points label' = some p' →
    p.offset = p'.offset → label = label'

theorem wf_empty : (empty : FlatTable F).Wf := ⟨by simp [empty], by simp [empty]⟩

variable [Add F] (cfg : FlatConfig F E)

theorem next_le_step (t : FlatTable F) (a : BruteforceSearch.Act F E) : t.next ≤ (t.step cfg a).next := by
  cases a with
  | addPoint vector label sparse =>
    unfold step
    simp only
    split
    · exact le_rfl
    · simp only
      split_ifs <;> omega
  | removePoint label => exact le_rfl
  | saveLoad memory => exact le_rfl

theorem next_step_le (t : FlatTable F) (a : BruteforceSearch.Act F E) :
    (t.step cfg a).next ≤ t.next + a.isCall.toNat := by
  cases a with
  | addPoint vector label sparse =>
    unfold step
    simp only
    split
    · exact Nat.le_add_right _ _
    · simp only [BruteforceSearch.Act.isCall, Bool.toNat_true]
      split_ifs <;> omega
  | removePoint label => exact Nat.le_add_right _ _
  | saveLoad memory => exact le_rfl

/-- A label that is live after a call has the offset it had, or one that is given out by the call. -/
theorem offset_step {t : FlatTable F} {a : BruteforceSearch.Act F E} {label : ℕ} {p : PointSpec F}
    (h : (t.step cfg a).points label = some p) :
    (∃ q, t.points label = some q ∧ p.offset = q.offset) ∨
      (p.offset = t.next ∧ t.points label = none ∧ (t.step cfg a).next = t.next + 1) := by
  cases a with
  | addPoint vector label' sparse =>
    unfold step at h ⊢
    simp only at h ⊢
    split at h
    · exact .inl ⟨p, h, rfl⟩
    · rename_i terms dp hsparse
      simp only at h ⊢
      by_cases hl : label = label'
      · subst hl
        rw [Function.update_self, Option.some.injEq] at h
        subst h
        cases hp : t.points label with
        | some q => exact .inl ⟨q, rfl, by simp [pointAt, hp]⟩
        | none => exact .inr ⟨by simp [pointAt, hp], rfl, by simp⟩
      · rw [Function.update_of_ne hl] at h
        exact .inl ⟨p, h, rfl⟩
  | removePoint label' =>
    simp only [step] at h
    by_cases hl : label = label'
    · subst hl
      simp at h
    · rw [Function.update_of_ne hl] at h
      exact .inl ⟨p, h, rfl⟩
  | saveLoad memory => exact .inl ⟨p, h, rfl⟩

/-- Offsets are never shared. -/
theorem Wf.step {t : FlatTable F} (h : t.Wf) (a : BruteforceSearch.Act F E) :
    (t.step cfg a).Wf where
  lt := by
    intro label p hp
    rcases offset_step cfg hp with ⟨q, hq, heq⟩ | ⟨heq, -, hnext⟩
    · exact heq ▸ (h.lt hq).trans_le (next_le_step cfg t a)
    · omega
  inj := by
    intro label label' p p' hp hp' heq
    rcases offset_step cfg hp with ⟨q, hq, hpq⟩ | ⟨hpn, hnone, hnext⟩
    · rcases offset_step cfg hp' with ⟨q', hq', hpq'⟩ | ⟨hpn', -, -⟩
      · exact h.inj hq hq' (by omega)
      · have := h.lt hq
        omega
    · rcases offset_step cfg hp' with ⟨q', hq', hpq'⟩ | ⟨hpn', hnone', hnext'⟩
      · have := h.lt hq'
        omega
      · -- one call gives out one offset
        cases a with
        | addPoint vector l sparse =>
          have honly : ∀ {k : ℕ}, t.points k = none →
              ((t.step cfg (.addPoint vector l sparse)).points k).isSome → k = l := by
            intro k hk hsome
            by_contra hne
            unfold FlatTable.step at hsome
            simp only at hsome
            split at hsome
            · simp [hk] at hsome
            · simp [Function.update_of_ne hne, hk] at hsome
          rw [honly hnone (by rw [hp]; rfl), honly hnone' (by rw [hp']; rfl)]
        | removePoint l => simp [FlatTable.step] at hnext
        | saveLoad memory => simp [FlatTable.step] at hnext

end FlatTable

/-! ## The index stores the table -/

namespace BruteforceSearch

/-- Row `i` is the row of a point. -/
structure Stores (cfg : FlatConfig F E) (ix : BruteforceSearch F E) (i : ℕ) (p : PointSpec F) :
    Prop where
  offset : (ix.dataBuffer i).offset = p.offset
  vector : ∀ v, p.vector = some v → (ix.dataBuffer i).vector = cfg.encode v
  sparse : ∀ h, ix.sparseIndex = some h → h.rows[i]? = some p.sparse

/-- The sparse rows are there when they are enabled, one for each row. -/
def SparseOk (cfg : FlatConfig F E) (t : FlatTable F) (ix : BruteforceSearch F E) : Prop :=
  match ix.sparseIndex with
  | none => cfg.enableSparse = false
  | some h => cfg.enableSparse = true ∧ h.indexTerm = t.terms ∧ h.rows.length = ix.currentCount

/-- The live labels are those of the rows, which the two maps lead to, and each row is that of its
label. -/
structure Represents (cfg : FlatConfig F E) (t : FlatTable F) (ix : BruteforceSearch F E) :
    Prop where
  labels : IndexesRows ix.labelMap (fun i => (ix.dataBuffer i).label) ix.currentCount
  offsets : IndexesRows ix.offsetMap (fun i => (ix.dataBuffer i).offset) ix.currentCount
  live : ∀ {label p}, t.points label = some p → ∃ i, ix.labelMap.get label = some i
  row : ∀ {label i}, ix.labelMap.get label = some i →
    ∃ p, t.points label = some p ∧ ix.Stores cfg i p
  sparse : ix.SparseOk cfg t
  capacity : ix.currentCount ≤ ix.capacity
  next : ix.nextLogicalOffset = t.next

theorem represents_create (cfg : FlatConfig F E) (maxElementCount : ℕ) (memory : ℕ → FlatRow E) :
    Represents cfg FlatTable.empty (create cfg maxElementCount memory) where
  labels := indexesRows_empty _
  offsets := indexesRows_empty _
  live := by simp [FlatTable.empty]
  row := by simp [create]
  sparse := by
    unfold SparseOk create
    cases cfg.enableSparse <;> simp [SparseRowIndex.initEmptyData, FlatTable.empty]
  capacity := Nat.zero_le _
  next := rfl

namespace Represents

variable {cfg : FlatConfig F E} {t : FlatTable F} {ix : BruteforceSearch F E} {label i : ℕ}
  {p : PointSpec F}

theorem points_eq_none (h : Represents cfg t ix) (hi : ix.labelMap.get label = none) :
    t.points label = none := by
  rw [Option.eq_none_iff_forall_ne_some]
  intro p hp
  obtain ⟨i, hi'⟩ := h.live hp
  rw [hi] at hi'
  cases hi'

/-- The offset of a row is that of the point of its label. -/
theorem offset_at (h : Represents cfg t ix) (hi : i < ix.currentCount) :
    ∃ p, t.points (ix.dataBuffer i).label = some p ∧ (ix.dataBuffer i).offset = p.offset := by
  obtain ⟨p, hp, hstores⟩ := h.row (h.labels.get_key hi)
  exact ⟨p, hp, hstores.offset⟩

/-! ### Terms -/

variable [Add F]

theorem makeSparsePoint_eq (h : Represents cfg t ix) (sparse : Option (RawSparse F)) :
    ix.makeSparsePoint cfg sparse = (t.sparsePart cfg sparse).map fun part =>
      ({ ix with sparseIndex := ix.sparseIndex.map fun h => { h with indexTerm := part.1 } },
        part.2) := by
  have hsparse := h.sparse
  unfold SparseOk at hsparse
  unfold makeSparsePoint FlatTable.sparsePart
  cases hidx : ix.sparseIndex with
  | none =>
    rw [hidx] at hsparse
    have hix : { ix with sparseIndex := none } = ix := by rw [← hidx]
    rcases sparse with _ | ⟨rawTerms, values⟩
    · simp [hix]
    · simp [hsparse, hix]
  | some sp =>
    rw [hidx] at hsparse
    obtain ⟨henable, hterms, -⟩ := hsparse
    have hix : { ix with sparseIndex := some { sp with indexTerm := t.terms } } = ix := by
      rw [← hterms, ← hidx]
    rcases sparse with _ | ⟨rawTerms, values⟩
    · simp [hix]
    · simp only [henable, Bool.true_eq_false, if_false, Option.map_some]
      split_ifs with hlen
      · rfl
      · simp [hterms]

omit [Add F] in
/-- The dictionary of both changes. -/
theorem withTerms (h : Represents cfg t ix) (terms : List ℕ) : Represents cfg { t with terms := terms }
      { ix with sparseIndex := ix.sparseIndex.map fun h => { h with indexTerm := terms } } where
  labels := h.labels
  offsets := h.offsets
  live := h.live
  row := by
    intro label i hi
    obtain ⟨p, hp, hstores⟩ := h.row hi
    refine ⟨p, hp, ⟨hstores.offset, hstores.vector, fun sp hsp => ?_⟩⟩
    obtain ⟨sp', hsp', rfl⟩ := Option.map_eq_some_iff.1 hsp
    exact hstores.sparse sp' hsp'
  sparse := by
    have hsparse := h.sparse
    unfold SparseOk at hsparse ⊢
    cases hidx : ix.sparseIndex with
    | none => simpa [hidx] using hsparse
    | some sp =>
      rw [hidx] at hsparse
      exact ⟨hsparse.1, rfl, hsparse.2.2⟩
  capacity := h.capacity
  next := h.next

omit [Add F] in
theorem sparse_length (h : Represents cfg t ix) {sp : SparseRowIndex F}
    (hsp : ix.sparseIndex = some sp) : sp.rows.length = ix.currentCount := by
  have hsparse := h.sparse
  unfold SparseOk at hsparse
  rw [hsp] at hsparse
  exact hsparse.2.2

end Represents

end BruteforceSearch

end OpenViking.VectorDB
