import OpenViking.VectorDB.ScalarIndex
import OpenViking.VectorDB.StoreManager
import Mathlib.Data.Finset.Card
import Mathlib.Data.Set.Basic

/-!
# The index

A model of `IndexManagerImpl` (`src/index/detail/index_manager_impl.cpp`) over the flat vector index
`BruteforceSearch` (`vector/common/bruteforce.h`) and the scalar index, and of the calls that
`LocalIndex` (`vectordb/index/local_index.py`) makes to it.

A row of the vector index has a logical offset, given out once and never reused, by which the
bitmaps of the scalar index refer to it.  What matters to a reader of the index is, for each label,
its vector and the keys whose bitmaps have its offset: the `content` of the index.  Results:

* `IndexInv.addOne`, `IndexInv.deleteOne`: offsets are never shared nor given out again;
* `IndexInv.bitsLive_addOne`, `IndexInv.bitsLive_deleteOne`: when only offsets of rows have bits.
-/

namespace OpenViking.VectorDB

/-! ## State -/

/-- What an index is created with: the encoding of vectors (normalization and quantization), what
a row without a vector holds, the field conversion `convert_fields_dict_for_index` and the indexed
scalar fields. -/
structure IndexConfig (F E : Type) where
  encode : List F → E
  blank : E
  convert : List (String × FieldValue) → List (String × FieldValue)
  scalarFields : List (String × Bool)

/-- A row of `data_buffer_` with its sparse row. -/
structure Point (F E : Type) where
  offset : ℕ
  vector : E
  sparse : List String × List F

/-- `IndexManagerImpl`: `label_map_` with the rows it leads to, the offset counter, the scalar
index and `update_timestamp`. -/
structure IndexManager (F E : Type) where
  points : SortedMap ℕ (Point F E)
  nextLogicalOffset : ℕ
  scalar : ScalarIndex
  updateTimestamp : ℕ

variable {F E : Type}

/-- `parse_from_json` of the converted fields. -/
def IndexConfig.strKvMap (cfg : IndexConfig F E) (fields : FieldsJson) : SortedMap String String :=
  parseFromJson (fields.map cfg.convert)

namespace IndexManager

/-- An index without rows. -/
def empty (cfg : IndexConfig F E) : IndexManager F E where
  points := SortedMap.empty
  nextLogicalOffset := 0
  scalar := ScalarIndex.empty cfg.scalarFields
  updateTimestamp := 0

/-- The sparse part of a request, empty unless both lists are given. -/
def sparseOf (d : DeltaRecord F FieldsJson) : List String × List F :=
  if d.sparseRawTerms ≠ [] ∧ d.sparseValues ≠ [] then (d.sparseRawTerms, d.sparseValues)
  else ([], [])

/-- The vector a row ends up with: `add_point` skips the encoding when there is no vector. -/
def encodeOver (cfg : IndexConfig F E) (old : E) (vector : List F) : E :=
  if vector = [] then old else cfg.encode vector

/-- `BruteforceSearch::add_point` (66-130). -/
def addPoint (cfg : IndexConfig F E) (ix : IndexManager F E) (d : DeltaRecord F FieldsJson) :
    IndexManager F E :=
  match ix.points.get d.label with
  | some p =>
    { ix with
      points := ix.points.put d.label
        { p with vector := encodeOver cfg p.vector d.vector, sparse := sparseOf d } }
  | none =>
    { ix with
      points := ix.points.put d.label
        { offset := ix.nextLogicalOffset % 2 ^ 32
          vector := encodeOver cfg cfg.blank d.vector
          sparse := sparseOf d }
      nextLogicalOffset := ix.nextLogicalOffset + 1 }

/-- `get_offset_by_label` (329-340) as an `int`: `none` for a negative one. -/
def getOffsetByLabel (ix : IndexManager F E) (label : ℕ) : Option ℕ :=
  (ix.points.get label).bind fun p => if p.offset < 2 ^ 31 then some p.offset else none

/-- One row of `IndexManagerImpl::add_data` (547-564). -/
def addOne (cfg : IndexConfig F E) (ix : IndexManager F E) (d : DeltaRecord F FieldsJson) :
    IndexManager F E :=
  let ix := addPoint cfg ix d
  match ix.getOffsetByLabel d.label with
  | none => ix
  | some offset =>
    { ix with
      scalar := ix.scalar.addRowData offset (cfg.strKvMap d.fields) (cfg.strKvMap d.oldFields) }

/-- `IndexManagerImpl::add_data`; `now` is the clock when the rows are in. -/
def addData (cfg : IndexConfig F E) (ix : IndexManager F E)
    (dataList : List (DeltaRecord F FieldsJson)) (now : ℕ) : IndexManager F E :=
  let (ix', hasUpdate) := dataList.foldl
    (fun st d =>
      (addOne cfg st.1 d, st.2 || ((addPoint cfg st.1 d).getOffsetByLabel d.label).isSome))
    (ix, false)
  { ix' with updateTimestamp := if hasUpdate then now else ix'.updateTimestamp }

/-- One row of `IndexManagerImpl::delete_data` (592-605). -/
def deleteOne (cfg : IndexConfig F E) (ix : IndexManager F E) (d : DeltaRecord F FieldsJson) :
    IndexManager F E :=
  match ix.getOffsetByLabel d.label with
  | none => ix
  | some offset =>
    { ix with
      scalar := ix.scalar.deleteRowData offset (cfg.strKvMap d.oldFields)
      points := ix.points.erase d.label }

/-- `IndexManagerImpl::delete_data`. -/
def deleteData (cfg : IndexConfig F E) (ix : IndexManager F E)
    (dataList : List (DeltaRecord F FieldsJson)) (now : ℕ) : IndexManager F E :=
  let (ix', hasUpdate) := dataList.foldl
    (fun st d => (deleteOne cfg st.1 d, st.2 || (st.1.getOffsetByLabel d.label).isSome))
    (ix, false)
  { ix' with updateTimestamp := if hasUpdate then now else ix'.updateTimestamp }

/-- An index built afresh from a list of candidates. -/
def build (cfg : IndexConfig F E) (candsList : List (CandidateData F FieldsJson)) (now : ℕ) :
    IndexManager F E :=
  addData cfg (empty cfg) (candsList.map fun c => upsertRecord c none) now

end IndexManager

/-- What an index holds for a label. -/
@[ext]
structure Entry (F E : Type) where
  vector : E
  sparse : List String × List F
  keys : String → Set String

/-- The keys of each indexed field in a row. -/
def IndexConfig.keysOf (cfg : IndexConfig F E) (fields : FieldsJson) (field : String) :
    Set String :=
  {key | key ∈ ScalarIndex.rowKeys (ScalarIndex.empty cfg.scalarFields).shape
    (cfg.strKvMap fields) field}

namespace IndexManager

/-- What the index holds for each label: the row's vector, and the keys that have its offset. -/
def content (ix : IndexManager F E) (label : ℕ) : Option (Entry F E) :=
  (ix.points.get label).map fun p =>
    { vector := p.vector
      sparse := p.sparse
      keys := fun field => {key | ix.scalar.Isset field key p.offset} }

/-- What an UPSERT record makes of an entry: the keys of `old_fields` go, those of `fields` come. -/
def upsertEntry (cfg : IndexConfig F E) (old : Option (Entry F E))
    (d : DeltaRecord F FieldsJson) : Entry F E where
  vector := encodeOver cfg ((old.map Entry.vector).getD cfg.blank) d.vector
  sparse := sparseOf d
  keys := fun field =>
    (((old.map Entry.keys).getD fun _ => ∅) field \ cfg.keysOf d.oldFields field) ∪
      cfg.keysOf d.fields field

end IndexManager

/-- Offsets are given out once and fit an `int`; no offset has bits before it is given out. -/
structure IndexInv (cfg : IndexConfig F E) (ix : IndexManager F E) : Prop where
  shape : ix.scalar.shape = (ScalarIndex.empty cfg.scalarFields).shape
  bounded : ix.scalar.Bounded
  offset_lt : ∀ {label p}, ix.points.get label = some p → p.offset < ix.nextLogicalOffset
  offset_inj : ∀ {label label' p p'}, ix.points.get label = some p →
    ix.points.get label' = some p' → p.offset = p'.offset → label = label'
  bits_lt : ∀ {field key offset}, ix.scalar.Isset field key offset → offset < ix.nextLogicalOffset
  next_le : ix.nextLogicalOffset ≤ 2 ^ 31

/-- Every bit is that of a row. -/
def BitsLive (ix : IndexManager F E) : Prop :=
  ∀ field key offset, ix.scalar.Isset field key offset →
    ∃ label p, ix.points.get label = some p ∧ p.offset = offset

theorem bitsLive_empty (cfg : IndexConfig F E) : BitsLive (IndexManager.empty cfg) :=
  fun _ _ _ h => absurd h (ScalarIndex.not_isset_empty _ _ _ _)

namespace IndexInv

open IndexManager

variable {cfg : IndexConfig F E} {ix : IndexManager F E}

theorem empty (cfg : IndexConfig F E) : IndexInv cfg (IndexManager.empty cfg) where
  shape := rfl
  bounded := ScalarIndex.bounded_empty _
  offset_lt := by simp [IndexManager.empty]
  offset_inj := by simp [IndexManager.empty]
  bits_lt := fun h => absurd h (ScalarIndex.not_isset_empty _ _ _ _)
  next_le := by simp [IndexManager.empty]

theorem getOffsetByLabel_eq (h : IndexInv cfg ix) (label : ℕ) :
    ix.getOffsetByLabel label = (ix.points.get label).map Point.offset := by
  unfold getOffsetByLabel
  cases hp : ix.points.get label with
  | none => rfl
  | some p =>
    have hlt := h.offset_lt hp
    have hle := h.next_le
    simp only [Option.bind_some, Option.map_some]
    rw [if_pos (by omega)]

/-- Write a row with its offset: the bits of the other rows stay. -/
theorem content_put (h : IndexInv cfg ix) {label : ℕ} {p : Point F E}
    (hp : ∀ {label' p'}, ix.points.get label' = some p' → label' ≠ label →
      p'.offset ≠ p.offset) (next : ℕ) (fields old : SortedMap String String) (label' : ℕ) :
    content { ix with
        points := ix.points.put label p
        nextLogicalOffset := next
        scalar := ix.scalar.addRowData p.offset fields old } label' =
      if label' = label then
        some { vector := p.vector
               sparse := p.sparse
               keys := fun field =>
                 ({key | ix.scalar.Isset field key p.offset} \
                   {key | key ∈ ScalarIndex.rowKeys ix.scalar.shape old field}) ∪
                 {key | key ∈ ScalarIndex.rowKeys ix.scalar.shape fields field} }
      else content ix label' := by
  simp only [content, SortedMap.get_put]
  split_ifs with hl
  · simp only [Option.map_some, ScalarIndex.isset_addRowData h.bounded, true_and]
    rfl
  · cases hp' : ix.points.get label' with
    | none => rfl
    | some p' =>
      have hne := hp hp' hl
      simp [ScalarIndex.isset_addRowData h.bounded, hne]

theorem put (h : IndexInv cfg ix) {label : ℕ} {p : Point F E}
    (hp : ∀ {label' p'}, ix.points.get label' = some p' → label' ≠ label →
      p'.offset ≠ p.offset) {next : ℕ} (hnext : p.offset < next)
    (hle : ix.nextLogicalOffset ≤ next) (hfit : next ≤ 2 ^ 31) (fields old : SortedMap String String) :
    IndexInv cfg { ix with
        points := ix.points.put label p
        nextLogicalOffset := next
        scalar := ix.scalar.addRowData p.offset fields old } where
  shape := by simp [h.shape]
  bounded := h.bounded.addRowData _ _ _
  offset_lt := by
    intro label' p' hp'
    rw [SortedMap.get_put] at hp'
    split_ifs at hp'
    · cases hp'
      exact hnext
    · exact (h.offset_lt hp').trans_le hle
  offset_inj := by
    intro l1 l2 p1 p2 h1 h2 heq
    rw [SortedMap.get_put] at h1 h2
    split_ifs at h1 h2 with e1 e2 e2
    · rw [e1, e2]
    · cases h1
      exact absurd heq.symm (hp h2 e2)
    · cases h2
      exact absurd heq (hp h1 e1)
    · exact h.offset_inj h1 h2 heq
  bits_lt := by
    intro field key offset hset
    rcases (ScalarIndex.isset_addRowData h.bounded).1 hset with ⟨hset, -⟩ | ⟨rfl, -⟩
    · exact (h.bits_lt hset).trans_le hle
    · exact hnext
  next_le := hfit

/-- The row that an UPSERT record writes. -/
def rowOf (cfg : IndexConfig F E) (ix : IndexManager F E) (d : DeltaRecord F FieldsJson) :
    Point F E :=
  match ix.points.get d.label with
  | some p => { p with vector := encodeOver cfg p.vector d.vector, sparse := sparseOf d }
  | none =>
    { offset := ix.nextLogicalOffset
      vector := encodeOver cfg cfg.blank d.vector
      sparse := sparseOf d }

/-- The offset counter after an UPSERT record. -/
def nextOf (ix : IndexManager F E) (label : ℕ) : ℕ :=
  if (ix.points.get label).isSome then ix.nextLogicalOffset else ix.nextLogicalOffset + 1

variable {d : DeltaRecord F FieldsJson}

section

variable (h : IndexInv cfg ix)

include h

theorem addOne_eq (hfit : nextOf ix d.label ≤ 2 ^ 31) :
    addOne cfg ix d =
      { ix with
        points := ix.points.put d.label (rowOf cfg ix d)
        nextLogicalOffset := nextOf ix d.label
        scalar := ix.scalar.addRowData (rowOf cfg ix d).offset (cfg.strKvMap d.fields)
          (cfg.strKvMap d.oldFields) } := by
  unfold addOne addPoint rowOf nextOf at *
  cases hp : ix.points.get d.label with
  | none =>
    simp only [hp, Option.isSome_none, Bool.false_eq_true, if_false] at hfit
    have hmod : ix.nextLogicalOffset % 2 ^ 32 = ix.nextLogicalOffset := by omega
    have hlt : ix.nextLogicalOffset < 2 ^ 31 := by omega
    simp only [getOffsetByLabel, SortedMap.get_put_self, Option.bind_some, hmod, hlt, if_true,
      Option.isSome_none, Bool.false_eq_true, if_false]
  | some p =>
    have hlt : p.offset < 2 ^ 31 := (h.offset_lt hp).trans_le h.next_le
    simp only [getOffsetByLabel, SortedMap.get_put_self, Option.bind_some, hlt, if_true,
      Option.isSome_some]

theorem rowOf_offset_ne {label' : ℕ}
    {p' : Point F E} (hp' : ix.points.get label' = some p') (hl : label' ≠ d.label) :
    p'.offset ≠ (rowOf cfg ix d).offset := by
  unfold rowOf
  split
  · rename_i p hp
    exact fun heq => hl (h.offset_inj hp' hp heq)
  · exact (h.offset_lt hp').ne

/-- Every row added keeps the invariant, as long as the offsets fit. -/
theorem addOne (hfit : nextOf ix d.label ≤ 2 ^ 31) : IndexInv cfg (IndexManager.addOne cfg ix d) := by
  rw [addOne_eq h hfit]
  refine h.put (h.rowOf_offset_ne) ?_ ?_ hfit _ _
  · unfold rowOf nextOf
    cases hp : ix.points.get d.label with
    | none => simp
    | some p => simpa using h.offset_lt hp
  · unfold nextOf
    split_ifs <;> omega

theorem bitsLive_addOne (hl : BitsLive ix)
    (hfit : nextOf ix d.label ≤ 2 ^ 31) : BitsLive (IndexManager.addOne cfg ix d) := by
  rw [addOne_eq h hfit]
  intro field key offset hset
  rcases (ScalarIndex.isset_addRowData h.bounded).1 hset with ⟨hset, -⟩ | ⟨rfl, -⟩
  · obtain ⟨l, q, hq, rfl⟩ := hl _ _ _ hset
    by_cases hlabel : l = d.label
    · subst hlabel
      exact ⟨_, _, SortedMap.get_put_self _ _ _, by simp [rowOf, hq]⟩
    · exact ⟨l, q, by rw [SortedMap.get_put_of_ne _ _ hlabel, hq], rfl⟩
  · exact ⟨_, _, SortedMap.get_put_self _ _ _, rfl⟩

/-- One row of an upsert, in terms of the content: the label gets the entry that the record makes
of its old one, the other labels keep theirs. -/
theorem content_addOne (hfit : nextOf ix d.label ≤ 2 ^ 31) (label : ℕ) :
    content (IndexManager.addOne cfg ix d) label =
      if label = d.label then some (upsertEntry cfg (content ix d.label) d)
      else content ix label := by
  rw [addOne_eq h hfit, h.content_put h.rowOf_offset_ne]
  split_ifs
  · refine congrArg some (Entry.ext ?_ ?_ ?_)
    · unfold rowOf content upsertEntry
      cases ix.points.get d.label <;> rfl
    · unfold rowOf upsertEntry
      cases ix.points.get d.label <;> rfl
    · funext field
      simp only [upsertEntry, content, rowOf, IndexConfig.keysOf, h.shape]
      cases hp : ix.points.get d.label with
      | some p => rfl
      | none =>
        -- a fresh offset has no bits yet
        have hfresh : {key | ix.scalar.Isset field key ix.nextLogicalOffset} = ∅ := by
          rw [Set.eq_empty_iff_forall_notMem]
          intro key hset
          exact lt_irrefl _ (h.bits_lt hset)
        simp [hfresh]
  · rfl

/-- A row that a DELETE record finds. -/
theorem deleteOne_eq {p : Point F E} (hp : ix.points.get d.label = some p) :
    deleteOne cfg ix d =
      { ix with
        scalar := ix.scalar.deleteRowData p.offset (cfg.strKvMap d.oldFields)
        points := ix.points.erase d.label } := by
  simp only [deleteOne, h.getOffsetByLabel_eq, hp, Option.map_some]

end

theorem deleteOne_of_none (hp : ix.points.get d.label = none) : deleteOne cfg ix d = ix := by
  simp only [deleteOne, getOffsetByLabel, hp, Option.bind_none]

/-- Every row deleted keeps the invariant. -/
theorem deleteOne (h : IndexInv cfg ix) (d : DeltaRecord F FieldsJson) :
    IndexInv cfg (IndexManager.deleteOne cfg ix d) := by
  cases hp : ix.points.get d.label with
  | none =>
    rw [deleteOne_of_none hp]
    exact h
  | some p =>
    rw [h.deleteOne_eq hp]
    refine ⟨by simp [h.shape], h.bounded.deleteRowData _ _, ?_, ?_, ?_, h.next_le⟩
    · intro label q hq
      rw [SortedMap.get_erase] at hq
      split_ifs at hq
      exact h.offset_lt hq
    · intro l1 l2 p1 p2 h1 h2
      rw [SortedMap.get_erase] at h1 h2
      split_ifs at h1 h2
      exact h.offset_inj h1 h2
    · intro field key offset hset
      exact h.bits_lt ((ScalarIndex.isset_deleteRowData h.bounded).1 hset).1

/-- A deletion leaves no bits behind, if its old fields cover the keys its offset has. -/
theorem bitsLive_deleteOne (h : IndexInv cfg ix) (hl : BitsLive ix)
    (hold : ∀ e, content ix d.label = some e → ∀ field, e.keys field ⊆ cfg.keysOf d.oldFields field) :
    BitsLive (IndexManager.deleteOne cfg ix d) := by
  cases hp : ix.points.get d.label with
  | none =>
    rw [deleteOne_of_none hp]
    exact hl
  | some p =>
    rw [h.deleteOne_eq hp]
    intro field key offset hset
    obtain ⟨hbit, hnot⟩ := (ScalarIndex.isset_deleteRowData h.bounded).1 hset
    obtain ⟨l, q, hq, rfl⟩ := hl _ _ _ hbit
    have hlabel : l ≠ d.label := by
      rintro rfl
      obtain rfl : q = p := by simpa [hq] using hp
      refine hnot ⟨rfl, ?_⟩
      have hcontent : content ix d.label = some ⟨q.vector, q.sparse, fun field =>
        {key | ix.scalar.Isset field key q.offset}⟩ := by simp [content, hq]
      rw [h.shape]
      exact hold _ hcontent field hbit
    exact ⟨l, q, by rw [SortedMap.get_erase, if_neg hlabel, hq], rfl⟩

/-- One row of a deletion, in terms of the content. -/
theorem content_deleteOne (h : IndexInv cfg ix) (d : DeltaRecord F FieldsJson) (label : ℕ) :
    content (IndexManager.deleteOne cfg ix d) label =
      if label = d.label then none else content ix label := by
  cases hp : ix.points.get d.label with
  | none =>
    rw [deleteOne_of_none hp]
    split_ifs with hl
    · simp [content, hl, hp]
    · rfl
  | some p =>
    rw [h.deleteOne_eq hp]
    simp only [content, SortedMap.get_erase]
    split_ifs with hl
    · rfl
    · cases hq : ix.points.get label with
      | none => rfl
      | some q =>
        have hne : q.offset ≠ p.offset := fun heq => hl (h.offset_inj hq hp heq)
        simp [ScalarIndex.isset_deleteRowData h.bounded, hne]

end IndexInv

namespace IndexManager

/-- Room for the labels that are new to the index: its offsets stay below `2 ^ 31`. -/
def OffsetsFit (ix : IndexManager F E) (labels : List ℕ) : Prop :=
  ix.nextLogicalOffset + (labels.toFinset.filter fun l => ix.points.get l = none).card ≤ 2 ^ 31

instance (ix : IndexManager F E) (labels : List ℕ) : Decidable (ix.OffsetsFit labels) :=
  have : ∀ l, Decidable (ix.points.get l = none) := fun _ => decidable_of_iff _ Option.isNone_iff_eq_none
  inferInstanceAs (Decidable (_ ≤ _))

/-- The content after the rows of an upsert. -/
def upsertContent (cfg : IndexConfig F E) (m : ℕ → Option (Entry F E))
    (ds : List (DeltaRecord F FieldsJson)) : ℕ → Option (Entry F E) :=
  ds.foldl (fun m d => Function.update m d.label (some (upsertEntry cfg (m d.label) d))) m

/-- The content after the rows of a deletion. -/
def deleteContent (m : ℕ → Option (Entry F E)) (ds : List (DeltaRecord F FieldsJson)) :
    ℕ → Option (Entry F E) :=
  ds.foldl (fun m d => Function.update m d.label none) m

theorem foldl_fst {α β δ : Type} (f : α → δ → α) (g : α × β → δ → β) (ds : List δ) (x : α × β) :
    (ds.foldl (fun st d => (f st.1 d, g st d)) x).1 = ds.foldl f x.1 := by
  induction ds generalizing x with
  | nil => rfl
  | cons d ds ih => exact ih _

variable (cfg : IndexConfig F E)

variable (ix : IndexManager F E)

/-- An upsert is its rows in order, and a time stamp. -/
theorem addData_eq (ds : List (DeltaRecord F FieldsJson)) (now : ℕ) :
    ∃ ts, addData cfg ix ds now = { ds.foldl (addOne cfg) ix with updateTimestamp := ts } := by
  have hfst := foldl_fst (addOne cfg)
    (fun st d => st.2 || ((addPoint cfg st.1 d).getOffsetByLabel d.label).isSome) ds (ix, false)
  exact ⟨(addData cfg ix ds now).updateTimestamp, by rw [← hfst]; rfl⟩

/-- A deletion is its rows in order, and a time stamp. -/
theorem deleteData_eq (ds : List (DeltaRecord F FieldsJson)) (now : ℕ) :
    ∃ ts, deleteData cfg ix ds now = { ds.foldl (deleteOne cfg) ix with updateTimestamp := ts } := by
  have hfst := foldl_fst (deleteOne cfg)
    (fun st d => st.2 || (st.1.getOffsetByLabel d.label).isSome) ds (ix, false)
  exact ⟨(deleteData cfg ix ds now).updateTimestamp, by rw [← hfst]; rfl⟩

/-! ### The time stamp and the offset counter -/

theorem addOne_updateTimestamp
    (d : DeltaRecord F FieldsJson) : (addOne cfg ix d).updateTimestamp = ix.updateTimestamp := by
  have hpoint : (addPoint cfg ix d).updateTimestamp = ix.updateTimestamp := by
    unfold addPoint
    split <;> rfl
  simp only [addOne]
  split <;> exact hpoint

theorem addOne_next_le (d : DeltaRecord F FieldsJson) :
    (addOne cfg ix d).nextLogicalOffset ≤ ix.nextLogicalOffset + 1 := by
  have hpoint : (addPoint cfg ix d).nextLogicalOffset ≤ ix.nextLogicalOffset + 1 := by
    unfold addPoint
    split
    · exact Nat.le_succ _
    · exact le_rfl
  simp only [addOne]
  split <;> exact hpoint

theorem deleteOne_updateTimestamp
    (d : DeltaRecord F FieldsJson) : (deleteOne cfg ix d).updateTimestamp = ix.updateTimestamp := by
  unfold deleteOne
  split <;> rfl

theorem deleteOne_next (d : DeltaRecord F FieldsJson) :
    (deleteOne cfg ix d).nextLogicalOffset = ix.nextLogicalOffset := by
  unfold deleteOne
  split <;> rfl

theorem foldl_keeps {α β δ : Type} {f : α → δ → α} {g : α → β} (h : ∀ a d, g (f a d) = g a)
    (ds : List δ) (a : α) : g (ds.foldl f a) = g a := by
  induction ds generalizing a with
  | nil => rfl
  | cons d ds ih => rw [List.foldl_cons, ih, h]

/-- An upsert sets the time stamp to its clock, or leaves it. -/
theorem addData_updateTimestamp (ds : List (DeltaRecord F FieldsJson)) (now : ℕ) :
    (addData cfg ix ds now).updateTimestamp = now ∨
      (addData cfg ix ds now).updateTimestamp = ix.updateTimestamp := by
  simp only [addData]
  split_ifs
  · exact .inl rfl
  · rw [foldl_fst]
    exact .inr (foldl_keeps (addOne_updateTimestamp cfg) ds ix)

theorem deleteData_updateTimestamp (ds : List (DeltaRecord F FieldsJson)) (now : ℕ) :
    (deleteData cfg ix ds now).updateTimestamp = now ∨
      (deleteData cfg ix ds now).updateTimestamp = ix.updateTimestamp := by
  simp only [deleteData]
  split_ifs
  · exact .inl rfl
  · rw [foldl_fst]
    exact .inr (foldl_keeps (deleteOne_updateTimestamp cfg) ds ix)

theorem addData_next_le (ds : List (DeltaRecord F FieldsJson)) (now : ℕ) :
    (addData cfg ix ds now).nextLogicalOffset ≤ ix.nextLogicalOffset + ds.length := by
  obtain ⟨ts, heq⟩ := addData_eq cfg ix ds now
  rw [heq]
  clear heq
  change (ds.foldl (addOne cfg) ix).nextLogicalOffset ≤ _
  induction ds generalizing ix with
  | nil => exact le_rfl
  | cons d ds ih =>
    have hone := addOne_next_le cfg ix d
    have hrest := ih (addOne cfg ix d)
    rw [List.foldl_cons, List.length_cons]
    omega

theorem deleteData_next (ds : List (DeltaRecord F FieldsJson)) (now : ℕ) :
    (deleteData cfg ix ds now).nextLogicalOffset = ix.nextLogicalOffset := by
  obtain ⟨ts, heq⟩ := deleteData_eq cfg ix ds now
  rw [heq]
  exact foldl_keeps (deleteOne_next cfg) ds ix

/-- There is room for every label if there is room for that many new ones. -/
theorem offsetsFit_of_length {ix : IndexManager F E} {labels : List ℕ}
    (h : ix.nextLogicalOffset + labels.length ≤ 2 ^ 31) : ix.OffsetsFit labels := by
  have hcard := Finset.card_filter_le labels.toFinset fun l => ix.points.get l = none
  have hlen := List.toFinset_card_le labels
  unfold OffsetsFit
  omega

end IndexManager

namespace IndexInv

open IndexManager

variable {cfg : IndexConfig F E} {ix : IndexManager F E}

theorem withTimestamp (h : IndexInv cfg ix) (ts : ℕ) :
    IndexInv cfg { ix with updateTimestamp := ts } :=
  ⟨h.shape, h.bounded, h.offset_lt, h.offset_inj, h.bits_lt, h.next_le⟩

/-- The room that is left for the other labels once one is in. -/
theorem offsetsFit_tail (h : IndexInv cfg ix) {d : DeltaRecord F FieldsJson} {labels : List ℕ}
    (hfit : ix.OffsetsFit (d.label :: labels)) :
    nextOf ix d.label ≤ 2 ^ 31 ∧ (IndexManager.addOne cfg ix d).OffsetsFit labels := by
  unfold IndexManager.OffsetsFit at hfit
  have hnext : nextOf ix d.label +
      ((labels.toFinset.filter fun l => ix.points.get l = none).erase d.label).card ≤ 2 ^ 31 := by
    refine le_trans ?_ hfit
    rw [List.toFinset_cons, Finset.filter_insert]
    unfold nextOf
    cases hp : ix.points.get d.label with
    | none =>
      simp only [Option.isSome_none, Bool.false_eq_true, if_false, if_true]
      rw [← Finset.card_erase_add_one (Finset.mem_insert_self d.label _),
        Finset.erase_insert_eq_erase]
      omega
    | some p =>
      simp only [Option.isSome_some, if_true, reduceCtorEq, if_false]
      have := Finset.card_erase_le (a := d.label)
        (s := labels.toFinset.filter fun l => ix.points.get l = none)
      omega
  refine ⟨by omega, ?_⟩
  rw [h.addOne_eq (by omega)]
  unfold IndexManager.OffsetsFit
  have hfilter : (labels.toFinset.filter fun l =>
      (ix.points.put d.label (rowOf cfg ix d)).get l = none) =
      (labels.toFinset.filter fun l => ix.points.get l = none).erase d.label := by
    ext l
    simp only [Finset.mem_filter, Finset.mem_erase, SortedMap.get_put]
    split_ifs with hl
    · simp [hl]
    · simp [hl]
  simp only [hfilter]
  exact hnext

variable {ds : List (DeltaRecord F FieldsJson)}

theorem foldl_addOne (h : IndexInv cfg ix) (hfit : ix.OffsetsFit (ds.map DeltaRecord.label)) :
    IndexInv cfg (ds.foldl (IndexManager.addOne cfg) ix) ∧
      content (ds.foldl (IndexManager.addOne cfg) ix) = upsertContent cfg (content ix) ds := by
  induction ds generalizing ix with
  | nil => exact ⟨h, rfl⟩
  | cons d ds ih =>
    obtain ⟨hone, hrest⟩ := h.offsetsFit_tail hfit
    obtain ⟨hinv, hcontent⟩ := ih (h.addOne hone) hrest
    refine ⟨hinv, hcontent.trans ?_⟩
    rw [upsertContent, upsertContent, List.foldl_cons]
    congr 1
    funext label
    rw [h.content_addOne hone, Function.update_apply]

/-- An upsert, in terms of the content. -/
theorem addData (h : IndexInv cfg ix) (hfit : ix.OffsetsFit (ds.map DeltaRecord.label)) (now : ℕ) :
    IndexInv cfg (IndexManager.addData cfg ix ds now) ∧
      content (IndexManager.addData cfg ix ds now) = upsertContent cfg (content ix) ds := by
  obtain ⟨ts, heq⟩ := addData_eq cfg ix ds now
  obtain ⟨hinv, hcontent⟩ := h.foldl_addOne hfit
  rw [heq]
  exact ⟨hinv.withTimestamp ts, hcontent⟩

theorem foldl_deleteOne (h : IndexInv cfg ix) (ds : List (DeltaRecord F FieldsJson)) :
    IndexInv cfg (ds.foldl (IndexManager.deleteOne cfg) ix) ∧
      content (ds.foldl (IndexManager.deleteOne cfg) ix) = deleteContent (content ix) ds := by
  induction ds generalizing ix with
  | nil => exact ⟨h, rfl⟩
  | cons d ds ih =>
    obtain ⟨hinv, hcontent⟩ := ih (h.deleteOne d)
    refine ⟨hinv, hcontent.trans ?_⟩
    rw [deleteContent, deleteContent, List.foldl_cons]
    congr 1
    funext label
    rw [h.content_deleteOne, Function.update_apply]

/-- A deletion, in terms of the content. -/
theorem deleteData (h : IndexInv cfg ix) (ds : List (DeltaRecord F FieldsJson)) (now : ℕ) :
    IndexInv cfg (IndexManager.deleteData cfg ix ds now) ∧
      content (IndexManager.deleteData cfg ix ds now) = deleteContent (content ix) ds := by
  obtain ⟨ts, heq⟩ := deleteData_eq cfg ix ds now
  obtain ⟨hinv, hcontent⟩ := h.foldl_deleteOne ds
  rw [heq]
  exact ⟨hinv.withTimestamp ts, hcontent⟩

/-! ### Bits of a batch -/

theorem bitsLive_addData (h : IndexInv cfg ix) (hl : BitsLive ix)
    (hfit : ix.OffsetsFit (ds.map DeltaRecord.label))
    (now : ℕ) : BitsLive (IndexManager.addData cfg ix ds now) := by
  obtain ⟨ts, heq⟩ := addData_eq cfg ix ds now
  rw [heq]
  clear heq
  change BitsLive (ds.foldl (IndexManager.addOne cfg) ix)
  induction ds generalizing ix with
  | nil => exact hl
  | cons d ds ih =>
    obtain ⟨hone, hrest⟩ := h.offsetsFit_tail hfit
    exact ih (h.addOne hone) (h.bitsLive_addOne hl hone) hrest

/-- The records' old fields cover the keys that their labels have. -/
def OldFieldsCover (cfg : IndexConfig F E) (m : ℕ → Option (Entry F E))
    (ds : List (DeltaRecord F FieldsJson)) : Prop :=
  ∀ d ∈ ds, ∀ e, m d.label = some e → ∀ field, e.keys field ⊆ cfg.keysOf d.oldFields field

theorem bitsLive_deleteData (h : IndexInv cfg ix) (hl : BitsLive ix)
    (hold : OldFieldsCover cfg (content ix) ds)
    (now : ℕ) : BitsLive (IndexManager.deleteData cfg ix ds now) := by
  obtain ⟨ts, heq⟩ := deleteData_eq cfg ix ds now
  rw [heq]
  clear heq
  change BitsLive (ds.foldl (IndexManager.deleteOne cfg) ix)
  induction ds generalizing ix with
  | nil => exact hl
  | cons d ds ih =>
    have hrest : OldFieldsCover cfg (content (IndexManager.deleteOne cfg ix d)) ds := by
      intro d' hd' e he
      rw [h.content_deleteOne] at he
      split_ifs at he
      exact hold d' (List.mem_cons_of_mem _ hd') e he
    exact ih (h.deleteOne d) (h.bitsLive_deleteOne hl (hold d List.mem_cons_self)) hrest

end IndexInv

end OpenViking.VectorDB
