import OpenViking.VectorDB.DirIndex
import OpenViking.VectorDB.RangedMap
import OpenViking.VectorDB.ScalarIndex
import Mathlib.Data.List.Infix

/-!
# Field groups

A model of `FieldBitmapGroup` and `FieldBitmapGroupSet` (`scalar/bitmap_holder/bitmap_field_group.h`
and `.cpp`) in full: beside its bitmaps a field has a ranged map of its numbers and, if it is a path
field, a trie of its keys.  The bitmaps alone are the scalar index of `ScalarIndex`, which the
updates here refine:

* `FieldBitmapGroupSet.bitmaps_addRowData`, `FieldBitmapGroupSet.bitmaps_deleteRowData`.
-/

namespace OpenViking.VectorDB.Full

/-! ## Groups -/

/-- The type of a group: `kBitmapGroupBitmaps`, `kBitmapGroupRangedMap`,
`kBitmapGroupBothBitmapsAndRange`, `kBitmapGroupDir`. -/
inductive GroupType where
  | bitmaps
  | rangedMap
  | both
  | dir
  deriving DecidableEq, Repr

/-- `FieldBitmapGroup`.  The leaves of the trie point to bitmaps of the group, by their keys. -/
structure FieldBitmapGroup (R : Type) where
  typeId : GroupType
  bitmapGroup : SortedMap String (Finset ℕ)
  rangedMap : Option (RangedMap R)
  dirIndex : Option (DirIndex String)
  elementSize : ℕ

variable {R : Type}

namespace FieldBitmapGroup

/-- A group without rows (`bitmap_field_group.cpp`, 16-29). -/
def create (typeId : GroupType) : FieldBitmapGroup R where
  typeId := typeId
  bitmapGroup := SortedMap.empty
  rangedMap := if typeId = .both ∨ typeId = .rangedMap then some RangedMap.empty else none
  dirIndex := if typeId = .dir then some DirIndex.empty else none
  elementSize := 0

/-- The bitmap of a key; empty when there is none, as `get_editable_bitmap` would make it. -/
def bitmap (g : FieldBitmapGroup R) (key : String) : Finset ℕ := (g.bitmapGroup.get key).getD ∅

/-- One key of `add_field_data(field_str, offset)`: a new bitmap is entered in the trie. -/
def setBit (offset : ℕ) (g : FieldBitmapGroup R) (key : String) : FieldBitmapGroup R :=
  { g with
    bitmapGroup := g.bitmapGroup.put key (insert offset (g.bitmap key))
    dirIndex := if (g.bitmapGroup.get key).isNone then g.dirIndex.map (·.addKey key key)
      else g.dirIndex }

/-- `add_field_data(field_str, offset)` (`bitmap_field_group.h`, 132-164). -/
def addFieldData (g : FieldBitmapGroup R) (fieldStr : String) (offset : ℕ) : FieldBitmapGroup R :=
  let g' := (bitmapKeys g.dirIndex.isSome fieldStr).foldl (setBit offset) g
  { g' with elementSize := max (offset + 1) g'.elementSize }

/-- `add_field_data(field_dbl, offset)` (175-187). -/
def addFieldDouble [LinearOrder R] (g : FieldBitmapGroup R) (value : R) (offset : ℕ) : FieldBitmapGroup R :=
  match (g.rangedMap.getD RangedMap.empty).addOffsetAndScore kRangedMapSlotSize offset value with
  | none => { g with rangedMap := some (g.rangedMap.getD RangedMap.empty) }
  | some m => { g with rangedMap := some m, elementSize := max (offset + 1) g.elementSize }

/-- One key of `delete_field_data(field_str, offset)`: a bitmap that is not there is made. -/
def unsetBit (offset : ℕ) (g : FieldBitmapGroup R) (key : String) : FieldBitmapGroup R :=
  { g with bitmapGroup := g.bitmapGroup.put key ((g.bitmap key).erase offset) }

/-- `delete_field_data(field_str, offset)` (202-229). -/
def deleteFieldData (g : FieldBitmapGroup R) (fieldStr : String) (offset : ℕ) :
    FieldBitmapGroup R :=
  if offset ≥ g.elementSize then g
  else (bitmapKeys g.dirIndex.isSome fieldStr).foldl (unsetBit offset) g

/-- `delete_field_data(field_dbl, offset)` (247-266), whatever the value. -/
def deleteFieldDouble [LinearOrder R] (g : FieldBitmapGroup R) (_value : R) (offset : ℕ) : FieldBitmapGroup R :=
  if offset ≥ g.elementSize then g
  else { g with rangedMap := some ((g.rangedMap.getD RangedMap.empty).deleteOffset offset) }

/-- The union of the bitmaps whose keys have a property; `none` when no key has it:
`get_bitmap_by_prefix`, `get_bitmap_by_contains` and `get_bitmap_by_regex`
(`bitmap_field_group.cpp`, 617-725). -/
def getBitmapWhere (g : FieldBitmapGroup R) (p : String → Bool) : Option (Finset ℕ) :=
  match (g.bitmapGroup.entries.filter fun e => p e.1).map Prod.snd with
  | [] => none
  | b :: bs => some (bs.foldl (· ∪ ·) b)

/-- The group as the scalar index sees it: its bitmaps. -/
def bitmaps (g : FieldBitmapGroup R) : VectorDB.FieldBitmapGroup where
  dirIndex := g.dirIndex.isSome
  bitmapGroup := g.bitmapGroup
  elementSize := g.elementSize

end FieldBitmapGroup

/-! ## Group sets -/

/-- `FieldBitmapGroupSet`. -/
structure FieldBitmapGroupSet (R : Type) where
  groups : SortedMap String (FieldBitmapGroup R)
  elementSize : ℕ

namespace FieldBitmapGroupSet

/-- A set of groups without rows: the groups that `ScalarIndex` makes for its meta data. -/
def create (fields : List (String × GroupType)) : FieldBitmapGroupSet R where
  groups := fields.foldl (fun m f => m.put f.1 (FieldBitmapGroup.create f.2)) SortedMap.empty
  elementSize := 0

/-- An operation on the group of one field, if there is one. -/
def onGroup {V : Type} (op : FieldBitmapGroup R → V → ℕ → FieldBitmapGroup R) (offset : ℕ)
    (s : FieldBitmapGroupSet R) (kv : String × V) : FieldBitmapGroupSet R :=
  match s.groups.get kv.1 with
  | none => s
  | some g => { s with groups := s.groups.put kv.1 (op g kv.2 offset) }

/-- `add_field_data(kv_map, offset)` (`bitmap_field_group.h`, 314-380), of strings or of doubles. -/
def addFields {V : Type} (op : FieldBitmapGroup R → V → ℕ → FieldBitmapGroup R)
    (s : FieldBitmapGroupSet R) (kvMap : SortedMap String V) (offset : ℕ) : FieldBitmapGroupSet R :=
  let s' := kvMap.entries.foldl (onGroup op offset) s
  { s' with elementSize := max s'.elementSize (offset + 1) }

/-- `delete_field_data(kv_map, offset)` (407-470), of strings or of doubles. -/
def deleteFields {V : Type} (op : FieldBitmapGroup R → V → ℕ → FieldBitmapGroup R)
    (s : FieldBitmapGroupSet R) (kvMap : SortedMap String V) (offset : ℕ) : FieldBitmapGroupSet R :=
  if offset ≥ s.elementSize then s else kvMap.entries.foldl (onGroup op offset) s

/-- `add_field_data(str_kv_map, offset)`. -/
def addFieldData (s : FieldBitmapGroupSet R) (strKvMap : SortedMap String String) (offset : ℕ) :
    FieldBitmapGroupSet R :=
  s.addFields FieldBitmapGroup.addFieldData strKvMap offset

/-- `add_field_data(double_kv_map, offset)`. -/
def addFieldDouble [LinearOrder R] (s : FieldBitmapGroupSet R) (dblKvMap : SortedMap String R) (offset : ℕ) :
    FieldBitmapGroupSet R :=
  s.addFields FieldBitmapGroup.addFieldDouble dblKvMap offset

/-- `delete_field_data(str_kv_map, offset)`. -/
def deleteFieldData (s : FieldBitmapGroupSet R) (strKvMap : SortedMap String String) (offset : ℕ) :
    FieldBitmapGroupSet R :=
  s.deleteFields FieldBitmapGroup.deleteFieldData strKvMap offset

/-- `delete_field_data(double_kv_map, offset)`. -/
def deleteFieldDouble [LinearOrder R] (s : FieldBitmapGroupSet R) (dblKvMap : SortedMap String R) (offset : ℕ) :
    FieldBitmapGroupSet R :=
  s.deleteFields FieldBitmapGroup.deleteFieldDouble dblKvMap offset

end FieldBitmapGroupSet

/-- `FieldsDict` (`fields_dict.h`). -/
structure FieldsDict (R : Type) where
  strKvMap : SortedMap String String
  dblKvMap : SortedMap String R

namespace FieldBitmapGroupSet

/-- `ScalarIndex::delete_row_data` (`scalar_index.cpp`, 88-98). -/
def deleteRowData [LinearOrder R] (s : FieldBitmapGroupSet R) (offset : ℕ) (oldFields : FieldsDict R) :
    FieldBitmapGroupSet R :=
  let s := if oldFields.strKvMap.entries = [] then s else s.deleteFieldData oldFields.strKvMap offset
  if oldFields.dblKvMap.entries = [] then s else s.deleteFieldDouble oldFields.dblKvMap offset

/-- `ScalarIndex::add_row_data` (65-86). -/
def addRowData [LinearOrder R] (s : FieldBitmapGroupSet R) (offset : ℕ) (fields oldFields : FieldsDict R) :
    FieldBitmapGroupSet R :=
  let s := s.deleteRowData offset oldFields
  let s := if fields.strKvMap.entries = [] then s else s.addFieldData fields.strKvMap offset
  if fields.dblKvMap.entries = [] then s else s.addFieldDouble fields.dblKvMap offset

/-! ### Lookups of filters -/

/-- `is_path_field_name`. -/
def isPathFieldName (s : FieldBitmapGroupSet R) (field : String) : Bool :=
  (s.groups.get field).any (·.typeId = .dir)

/-- `get_bitmap(field, key)`. -/
def getBitmap (s : FieldBitmapGroupSet R) (field key : String) : Option (Finset ℕ) :=
  (s.groups.get field).bind fun g => g.bitmapGroup.get key

/-- `make_full_temp` (573-578); `SetRange` takes 32-bit bounds. -/
def makeFullTemp (s : FieldBitmapGroupSet R) : Finset ℕ := Finset.range (s.elementSize % 2 ^ 32)

/-- The union of a list of bitmaps, `FastUnion` on an empty one. -/
def fastUnion (bitmaps : List (Finset ℕ)) : Finset ℕ := bitmaps.foldl (· ∪ ·) ∅

/-- `make_field_copy(field, keys)` (`bitmap_field_group.cpp`, 427-455). -/
def makeFieldCopy (s : FieldBitmapGroupSet R) (field : String) (keys : List String) :
    Option (Finset ℕ) :=
  match keys with
  | [] => none
  | [key] => s.getBitmap field key
  | keys => some (fastUnion (keys.filterMap (s.getBitmap field)))

/-- `make_path_field_copy(field, keys, depth)` (457-490). -/
def makePathFieldCopy (s : FieldBitmapGroupSet R) (field : String) (keys : List String)
    (depth : ℤ) : Option (Finset ℕ) :=
  (s.groups.get field).bind fun g =>
    if depth = -1 ∧ ("/" ∈ keys ∨ "" ∈ keys) then some s.makeFullTemp
    else g.dirIndex.map fun dip =>
      fastUnion ((keys.flatMap fun key => dip.getMergedBitmaps key depth).map g.bitmap)

/-- `make_path_field_exclude_copy(field, keys, depth)` (492-497). -/
def makePathFieldExcludeCopy (s : FieldBitmapGroupSet R) (field : String) (keys : List String)
    (depth : ℤ) : Finset ℕ :=
  s.makeFullTemp \ (s.makePathFieldCopy field keys depth).getD ∅

/-- `make_field_exclude_copy(field, keys)` (499-518). -/
def makeFieldExcludeCopy (s : FieldBitmapGroupSet R) (field : String) (keys : List String) :
    Finset ℕ :=
  match keys with
  | [] => s.makeFullTemp
  | [key] => s.makeFullTemp \ (s.getBitmap field key).getD ∅
  | keys => s.makeFullTemp \ (s.makeFieldCopy field keys).getD ∅

/-- `make_field_prefix_copy(field, prefix)` (520-536). -/
def makeFieldPrefixCopy (s : FieldBitmapGroupSet R) (field keyPrefix : String) :
    Option (Finset ℕ) :=
  (s.groups.get field).bind fun g =>
    let searchPrefix := if s.isPathFieldName field = true ∧ keyPrefix.toList ≠ [] ∧
        keyPrefix.toList.head? ≠ some '/' then "/" ++ keyPrefix else keyPrefix
    g.getBitmapWhere fun key => searchPrefix.toList.isPrefixOf key.toList

/-- `make_field_contains_copy(field, substring)` (538-545). -/
def makeFieldContainsCopy (s : FieldBitmapGroupSet R) (field substring : String) :
    Option (Finset ℕ) :=
  (s.groups.get field).bind fun g =>
    g.getBitmapWhere fun key => substring.toList <:+: key.toList

/-- `make_field_regex_copy(field, pattern)` (547-554); `compile` is `std::regex` with
`std::regex_search`, `none` for a pattern that it rejects. -/
def makeFieldRegexCopy (compile : String → Option (String → Bool)) (s : FieldBitmapGroupSet R)
    (field pattern : String) : Option (Finset ℕ) :=
  (s.groups.get field).bind fun g => (compile pattern).bind g.getBitmapWhere

/-- `make_range_copy(range_out, field, …)` (`bitmap_field_group.h`, 495-506). -/
def makeRangeCopy [LinearOrder R] (s : FieldBitmapGroupSet R) (rangeOut : Bool) (field : String) (lowerThan : R)
    (includeLe : Bool) (greaterThan : R) (includeGe : Bool) : Option (Finset ℕ) :=
  (s.groups.get field).bind fun g => g.rangedMap.bind fun m =>
    m.rangeBitmap rangeOut lowerThan includeLe greaterThan includeGe

/-- `make_range2d_copy(fields, center, radius)` (548-571). -/
def makeRange2dCopy [LinearOrder R] [Add R] [Sub R] [Mul R] [Zero R] (s : FieldBitmapGroupSet R)
    (field0 field1 : String) (x y radius : R) : Option (Finset ℕ) :=
  match (s.groups.get field0).bind FieldBitmapGroup.rangedMap,
      (s.groups.get field1).bind FieldBitmapGroup.rangedMap with
  | some m0, some m1 => RangedMap.range2dBitmap m0 m1 x y radius
  | _, _ => none

/-! ### The bitmaps alone -/

/-- The set as the scalar index sees it: the bitmaps of its groups. -/
def bitmaps (s : FieldBitmapGroupSet R) : VectorDB.ScalarIndex where
  groups := s.groups.mapValues FieldBitmapGroup.bitmaps
  elementSize := s.elementSize

end FieldBitmapGroupSet

namespace FieldBitmapGroup

theorem bitmaps_foldl_setBit (offset : ℕ) (keys : List String) (g : FieldBitmapGroup R) :
    (keys.foldl (setBit offset) g).bitmaps =
      keys.foldl (VectorDB.FieldBitmapGroup.setBit offset) g.bitmaps := by
  induction keys generalizing g with
  | nil => rfl
  | cons key keys ih =>
    rw [List.foldl_cons, List.foldl_cons, ih]
    congr 1
    unfold setBit
    split_ifs <;> simp [bitmaps, VectorDB.FieldBitmapGroup.setBit, bitmap,
      VectorDB.FieldBitmapGroup.bitmap]

variable (g : FieldBitmapGroup R)

@[simp]
theorem bitmaps_addFieldData (fieldStr : String) (offset : ℕ) :
    (g.addFieldData fieldStr offset).bitmaps = g.bitmaps.addFieldData fieldStr offset := by
  have h := bitmaps_foldl_setBit offset (bitmapKeys g.dirIndex.isSome fieldStr) g
  have hsize := congrArg VectorDB.FieldBitmapGroup.elementSize h
  unfold VectorDB.FieldBitmapGroup.addFieldData
  simp only [show g.bitmaps.dirIndex = g.dirIndex.isSome from rfl, ← h]
  rfl

theorem bitmaps_foldl_unsetBit (offset : ℕ) (keys : List String) (g : FieldBitmapGroup R) :
    (keys.foldl (unsetBit offset) g).bitmaps =
      keys.foldl (VectorDB.FieldBitmapGroup.unsetBit offset) g.bitmaps := by
  induction keys generalizing g with
  | nil => rfl
  | cons key keys ih => exact ih _

@[simp]
theorem bitmaps_deleteFieldData (fieldStr : String) (offset : ℕ) :
    (g.deleteFieldData fieldStr offset).bitmaps = g.bitmaps.deleteFieldData fieldStr offset := by
  unfold deleteFieldData VectorDB.FieldBitmapGroup.deleteFieldData
  simp only [show g.bitmaps.elementSize = g.elementSize from rfl]
  split_ifs
  · rfl
  · exact bitmaps_foldl_unsetBit offset _ g

@[simp]
theorem bitmaps_deleteFieldDouble [LinearOrder R] (value : R) (offset : ℕ) :
    (g.deleteFieldDouble value offset).bitmaps = g.bitmaps := by
  unfold deleteFieldDouble
  split_ifs <;> rfl

/-- A number added to a field leaves its bitmaps. -/
theorem bitmaps_addFieldDouble [LinearOrder R] (value : R) (offset : ℕ) :
    ∃ size ≥ g.elementSize,
      (g.addFieldDouble value offset).bitmaps = { g.bitmaps with elementSize := size } := by
  unfold addFieldDouble
  split
  · exact ⟨g.elementSize, le_rfl, rfl⟩
  · exact ⟨max (offset + 1) g.elementSize, le_max_right _ _, rfl⟩

end FieldBitmapGroup

namespace FieldBitmapGroupSet

variable {op' : VectorDB.FieldBitmapGroup → String → ℕ → VectorDB.FieldBitmapGroup} {op : FieldBitmapGroup R → String → ℕ → FieldBitmapGroup R}

theorem bitmaps_onGroup
    (hop : ∀ g text offset, (op g text offset).bitmaps = op' g.bitmaps text offset) (offset : ℕ)
    (s : FieldBitmapGroupSet R) (kv : String × String) :
    (onGroup op offset s kv).bitmaps = ScalarIndex.onGroup op' offset s.bitmaps kv := by
  unfold onGroup ScalarIndex.onGroup
  simp only [bitmaps, SortedMap.get_mapValues]
  cases s.groups.get kv.1 with
  | none => rfl
  | some g => simp only [Option.map_some, SortedMap.mapValues_put, hop]

theorem bitmaps_foldl_onGroup
    (hop : ∀ g text offset, (op g text offset).bitmaps = op' g.bitmaps text offset) (offset : ℕ)
    (s : FieldBitmapGroupSet R) (kvs : List (String × String)) :
    (kvs.foldl (onGroup op offset) s).bitmaps =
      kvs.foldl (ScalarIndex.onGroup op' offset) s.bitmaps := by
  induction kvs generalizing s with
  | nil => rfl
  | cons kv kvs ih => rw [List.foldl_cons, List.foldl_cons, ih, bitmaps_onGroup hop]

variable (s : FieldBitmapGroupSet R)

variable (kv : SortedMap String String)

theorem bitmaps_addFieldData
    (offset : ℕ) : (s.addFieldData kv offset).bitmaps = s.bitmaps.addFieldData kv offset := by
  have h := bitmaps_foldl_onGroup FieldBitmapGroup.bitmaps_addFieldData offset s kv.entries
  have hsize := congrArg ScalarIndex.elementSize h
  unfold ScalarIndex.addFieldData
  simp only [← h]
  rfl

theorem bitmaps_deleteFieldData
    (offset : ℕ) : (s.deleteFieldData kv offset).bitmaps = s.bitmaps.deleteFieldData kv offset := by
  unfold deleteFieldData deleteFields ScalarIndex.deleteFieldData
  simp only [show s.bitmaps.elementSize = s.elementSize from rfl]
  split_ifs
  · rfl
  · exact bitmaps_foldl_onGroup FieldBitmapGroup.bitmaps_deleteFieldData offset s kv.entries

end FieldBitmapGroupSet

end OpenViking.VectorDB.Full
