import OpenViking.Common.System
import OpenViking.VectorDB.FieldValues
import OpenViking.VectorDB.Index

/-!
# The index with its field groups

A model of `IndexManagerImpl` (`src/index/detail/index_manager_impl.cpp`) over the field groups in
full.  Without the numbers of the rows it is the index
of `Index`, whose invariants carry over:

* `sameBits_addOne`, `sameBits_deleteOne`: a row does to the bitmaps what it does there;
* `addData_eq`, `deleteData_eq`: a request is its rows in order.
-/

namespace OpenViking.VectorDB.Full

/-! ## Model -/

/-- What an index is created with: as for `VectorDB.IndexConfig`, with the types of the scalar
fields, and the conversions of JSON numbers to `double`. -/
structure IndexConfig (F E R : Type) where
  encode : List F → E
  blank : E
  convert : List (String × FieldValue) → List (String × FieldValue)
  scalarFields : List (String × GroupType)
  ofInt64 : ℤ → R
  ofText : String → R

variable {F E R : Type}

/-- The configuration without the numbers. -/
def IndexConfig.base (cfg : IndexConfig F E R) : VectorDB.IndexConfig F E where
  encode := cfg.encode
  blank := cfg.blank
  convert := cfg.convert
  scalarFields := cfg.scalarFields.map fun f => (f.1, f.2 = .dir)

/-- The entry of `dbl_kv_map_` for a member (`fields_dict.h`, 52-76). -/
def IndexConfig.dblValue (cfg : IndexConfig F E R) : FieldValue → Option R
  | .int64 n => some (cfg.ofInt64 n)
  | .double text => some (cfg.ofText text)
  | _ => none

/-- `dbl_kv_map_` of the converted fields. -/
def IndexConfig.dblKvMap (cfg : IndexConfig F E R) (fields : FieldsJson) : SortedMap String R :=
  ((fields.map cfg.convert).getD []).foldl
    (fun m kv => match cfg.dblValue kv.2 with
      | some value => m.put (cString kv.1) value
      | none => m)
    SortedMap.empty

/-- `FieldsDict` of the converted fields. -/
def IndexConfig.fieldsDict (cfg : IndexConfig F E R) (fields : FieldsJson) : FieldsDict R :=
  ⟨cfg.base.strKvMap fields, cfg.dblKvMap fields⟩

/-- `IndexManagerImpl`. -/
structure IndexManager (F E R : Type) where
  points : SortedMap ℕ (Point F E)
  nextLogicalOffset : ℕ
  scalar : FieldBitmapGroupSet R
  updateTimestamp : ℕ

namespace IndexManager

/-- The index without the numbers. -/
def base (ix : IndexManager F E R) : VectorDB.IndexManager F E where
  points := ix.points
  nextLogicalOffset := ix.nextLogicalOffset
  scalar := ix.scalar.bitmaps
  updateTimestamp := ix.updateTimestamp

/-- An index without rows. -/
def create (cfg : IndexConfig F E R) : IndexManager F E R where
  points := SortedMap.empty
  nextLogicalOffset := 0
  scalar := FieldBitmapGroupSet.create cfg.scalarFields
  updateTimestamp := 0

/-- `add_point` on the vector index. -/
def addPoint (cfg : IndexConfig F E R) (ix : IndexManager F E R) (d : DeltaRecord F FieldsJson) :
    IndexManager F E R :=
  let base := ix.base.addPoint cfg.base d
  { ix with points := base.points, nextLogicalOffset := base.nextLogicalOffset }

/-- `get_offset_by_label` as an `int`: `none` for a negative one. -/
def getOffsetByLabel (ix : IndexManager F E R) (label : ℕ) : Option ℕ :=
  ix.base.getOffsetByLabel label

variable [LinearOrder R]

/-- One row of `IndexManagerImpl::add_data` (547-564). -/
def addOne (cfg : IndexConfig F E R) (ix : IndexManager F E R) (d : DeltaRecord F FieldsJson) :
    IndexManager F E R :=
  let ix := addPoint cfg ix d
  match ix.getOffsetByLabel d.label with
  | none => ix
  | some offset =>
    { ix with
      scalar := ix.scalar.addRowData offset (cfg.fieldsDict d.fields) (cfg.fieldsDict d.oldFields) }

/-- `IndexManagerImpl::add_data`; `now` is the clock when the rows are in. -/
def addData (cfg : IndexConfig F E R) (ix : IndexManager F E R)
    (dataList : List (DeltaRecord F FieldsJson)) (now : ℕ) : IndexManager F E R :=
  let (ix', hasUpdate) := dataList.foldl
    (fun st d =>
      (addOne cfg st.1 d, st.2 || ((addPoint cfg st.1 d).getOffsetByLabel d.label).isSome))
    (ix, false)
  { ix' with updateTimestamp := if hasUpdate then now else ix'.updateTimestamp }

/-- One row of `IndexManagerImpl::delete_data` (592-605). -/
def deleteOne (cfg : IndexConfig F E R) (ix : IndexManager F E R) (d : DeltaRecord F FieldsJson) :
    IndexManager F E R :=
  match ix.getOffsetByLabel d.label with
  | none => ix
  | some offset =>
    { ix with
      scalar := ix.scalar.deleteRowData offset (cfg.fieldsDict d.oldFields)
      points := ix.points.erase d.label }

/-- `IndexManagerImpl::delete_data`. -/
def deleteData (cfg : IndexConfig F E R) (ix : IndexManager F E R)
    (dataList : List (DeltaRecord F FieldsJson)) (now : ℕ) : IndexManager F E R :=
  let (ix', hasUpdate) := dataList.foldl
    (fun st d => (deleteOne cfg st.1 d, st.2 || (st.1.getOffsetByLabel d.label).isSome))
    (ix, false)
  { ix' with updateTimestamp := if hasUpdate then now else ix'.updateTimestamp }

end IndexManager

/-- A request to the index, with the clock when its rows are in. -/
inductive Request (F : Type) where
  | addData (dataList : List (DeltaRecord F FieldsJson)) (now : ℕ)
  | deleteData (dataList : List (DeltaRecord F FieldsJson)) (now : ℕ)

/-! ## The index without the numbers -/

/-- `b` has the rows and the bits of `a`. -/
structure SameBits (a b : VectorDB.IndexManager F E) : Prop where
  points : b.points = a.points
  next : b.nextLogicalOffset = a.nextLogicalOffset
  shape : b.scalar.shape = a.scalar.shape
  bounded : b.scalar.Bounded
  isset : ∀ field key o, b.scalar.Isset field key o ↔ a.scalar.Isset field key o

namespace SameBits

variable {a b : VectorDB.IndexManager F E}

theorem indexInv {cfg : VectorDB.IndexConfig F E} (h : SameBits a b) (ha : IndexInv cfg a) :
    IndexInv cfg b where
  shape := h.shape.trans ha.shape
  bounded := h.bounded
  offset_lt := by
    rw [h.points, h.next]
    exact ha.offset_lt
  offset_inj := by
    rw [h.points]
    exact ha.offset_inj
  bits_lt := by
    intro field key o ho
    rw [h.next]
    exact ha.bits_lt ((h.isset field key o).1 ho)
  next_le := by
    rw [h.next]
    exact ha.next_le

end SameBits

namespace IndexManager

variable [LinearOrder R] (cfg : IndexConfig F E R) {ix : IndexManager F E R}

theorem sameBits_addOne (h : ix.base.scalar.Bounded) (d : DeltaRecord F FieldsJson) :
    SameBits (ix.base.addOne cfg.base d) (ix.addOne cfg d).base := by
  have hpoint : (ix.base.addPoint cfg.base d).scalar = ix.scalar.bitmaps := by
    unfold VectorDB.IndexManager.addPoint
    split <;> rfl
  have hoffset : (ix.addPoint cfg d).getOffsetByLabel d.label =
      (ix.base.addPoint cfg.base d).getOffsetByLabel d.label := rfl
  unfold addOne VectorDB.IndexManager.addOne
  simp only [hoffset]
  cases (ix.base.addPoint cfg.base d).getOffsetByLabel d.label with
  | none => exact ⟨rfl, rfl, by rw [hpoint]; rfl, h, fun _ _ _ => by rw [hpoint]; rfl⟩
  | some offset =>
    obtain ⟨hshape, hbounded, hisset⟩ := FieldBitmapGroupSet.bitmaps_addRowData h offset
      (cfg.fieldsDict d.fields) (cfg.fieldsDict d.oldFields)
    refine ⟨rfl, rfl, ?_, hbounded, fun field key o => ?_⟩
    · simp only [hpoint, ScalarIndex.shape_addRowData]
      exact hshape
    · simp only [hpoint]
      exact hisset field key o

theorem sameBits_deleteOne (h : ix.base.scalar.Bounded) (d : DeltaRecord F FieldsJson) :
    SameBits (ix.base.deleteOne cfg.base d) (ix.deleteOne cfg d).base := by
  have hoffset : ix.getOffsetByLabel d.label = ix.base.getOffsetByLabel d.label := rfl
  unfold deleteOne VectorDB.IndexManager.deleteOne
  rw [hoffset]
  cases ix.base.getOffsetByLabel d.label with
  | none => exact ⟨rfl, rfl, rfl, h, fun _ _ _ => Iff.rfl⟩
  | some offset =>
    have hbits := ix.scalar.bitmaps_deleteRowData offset (cfg.fieldsDict d.oldFields)
    refine ⟨rfl, rfl, ?_, ?_, fun field key o => ?_⟩
    · exact congrArg ScalarIndex.shape hbits
    · show (ix.scalar.deleteRowData offset (cfg.fieldsDict d.oldFields)).bitmaps.Bounded
      rw [hbits]
      exact h.deleteRowData _ _
    · show (ix.scalar.deleteRowData offset (cfg.fieldsDict d.oldFields)).bitmaps.Isset _ _ _ ↔ _
      rw [hbits]
      rfl

/-- An upsert is its rows in order, and a time stamp. -/
theorem addData_eq (ix : IndexManager F E R) (ds : List (DeltaRecord F FieldsJson)) (now : ℕ) :
    ∃ ts, addData cfg ix ds now = { ds.foldl (addOne cfg) ix with updateTimestamp := ts } := by
  have hfst := VectorDB.IndexManager.foldl_fst (addOne cfg)
    (fun st d => st.2 || ((addPoint cfg st.1 d).getOffsetByLabel d.label).isSome) ds (ix, false)
  exact ⟨(addData cfg ix ds now).updateTimestamp, by rw [← hfst]; rfl⟩

/-- A deletion is its rows in order, and a time stamp. -/
theorem deleteData_eq (ix : IndexManager F E R) (ds : List (DeltaRecord F FieldsJson)) (now : ℕ) :
    ∃ ts, deleteData cfg ix ds now = { ds.foldl (deleteOne cfg) ix with updateTimestamp := ts } := by
  have hfst := VectorDB.IndexManager.foldl_fst (deleteOne cfg)
    (fun st d => st.2 || (st.1.getOffsetByLabel d.label).isSome) ds (ix, false)
  exact ⟨(deleteData cfg ix ds now).updateTimestamp, by rw [← hfst]; rfl⟩

end IndexManager

end OpenViking.VectorDB.Full
