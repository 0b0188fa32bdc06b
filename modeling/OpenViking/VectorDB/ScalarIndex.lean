import OpenViking.Common.SortedMap
import Mathlib.Data.Finset.Basic
import Mathlib.Data.String.Basic

/-!
# The scalar index

A model of `ScalarIndex` (`src/index/detail/scalar/scalar_index.cpp`): for each indexed field a group
of bitmaps, one bitmap for each key, and in a bitmap the logical offsets of the rows that have the
key.  The ranged maps of numeric fields and the directory trie of path fields are left out.

Results:

* `ScalarIndex.isset_addFieldData`, `ScalarIndex.isset_deleteFieldData`: which bits an operation on
  one offset sets and clears;
* `ScalarIndex.isset_addRowData`: a row's bits after an update with given old fields.
-/

namespace OpenViking.VectorDB

/-! ## Fields -/

/-- An element of a JSON array. -/
inductive FieldElem where
  | int64 (n : ℤ)
  | string (s : String)
  | other
  deriving DecidableEq, Repr

/-- A member of the JSON object of a row's scalar fields. -/
inductive FieldValue where
  | int64 (n : ℤ)
  | double (text : String)
  | string (s : String)
  | bool (b : Bool)
  | array (elems : List FieldElem)
  | other
  deriving DecidableEq, Repr

/-- The serialized scalar fields of a row: the JSON object, or `none` for the empty text. -/
abbrev FieldsJson := Option (List (String × FieldValue))

/-- A `const char*` ends at the first NUL. -/
def cString (s : String) : String := String.ofList (s.toList.takeWhile (· ≠ Char.ofNat 0))

/-- The text of an array element; an element of another type is skipped. -/
def FieldElem.text : FieldElem → String
  | .int64 n => toString n
  | .string s => cString s
  | .other => ""

/-- The entry of `str_kv_map_` for a member (`fields_dict.h`, 52-76). -/
def FieldValue.strValue : FieldValue → Option String
  | .int64 n => some (toString n)
  | .double _ => none
  | .string s => some (cString s)
  | .bool b => some (if b then "1" else "0")
  | .array elems => some (String.intercalate ";" (elems.map FieldElem.text))
  | .other => none

/-- `str_kv_map_` of `FieldsDict` after `parse_from_json`. -/
def parseFromJson (fields : FieldsJson) : SortedMap String String :=
  (fields.getD []).foldl
    (fun m kv => match kv.2.strValue with
      | some text => m.put (cString kv.1) text
      | none => m)
    SortedMap.empty

/-- `split(keys, field_str, ";")` (`src/common/string_utils.h`): the non-empty tokens. -/
def splitKeys (fieldStr : String) : List String :=
  ((fieldStr.toList.splitOn ';').filter (· ≠ [])).map String.ofList

/-- `normalize_path_key`. -/
def normalizePathKey (key : String) : String :=
  match key.toList with
  | [] => key
  | c :: _ => if c = '/' then key else "/" ++ key

/-- The bitmap keys of a field's text; `dir` for a path field. -/
def bitmapKeys (dir : Bool) (fieldStr : String) : List String :=
  let keys := if ';' ∈ fieldStr.toList then splitKeys fieldStr else [fieldStr]
  if dir then keys.map normalizePathKey else keys

/-! ## Bitmaps of one field -/

/-- `FieldBitmapGroup` (`bitmap_field_group.h`). -/
structure FieldBitmapGroup where
  dirIndex : Bool
  bitmapGroup : SortedMap String (Finset ℕ)
  elementSize : ℕ

namespace FieldBitmapGroup

/-- `get_editable_bitmap(key)`, created empty when there is none. -/
def bitmap (g : FieldBitmapGroup) (key : String) : Finset ℕ := (g.bitmapGroup.get key).getD ∅

/-- `Set(offset)` on the bitmap of a key. -/
def setBit (offset : ℕ) (g : FieldBitmapGroup) (key : String) : FieldBitmapGroup :=
  { g with bitmapGroup := g.bitmapGroup.put key (insert offset (g.bitmap key)) }

/-- `Unset(offset)` on the bitmap of a key. -/
def unsetBit (offset : ℕ) (g : FieldBitmapGroup) (key : String) : FieldBitmapGroup :=
  { g with bitmapGroup := g.bitmapGroup.put key ((g.bitmap key).erase offset) }

/-- `add_field_data(field_str, offset)`. -/
def addFieldData (g : FieldBitmapGroup) (fieldStr : String) (offset : ℕ) : FieldBitmapGroup :=
  let g' := (bitmapKeys g.dirIndex fieldStr).foldl (setBit offset) g
  { g' with elementSize := max (offset + 1) g'.elementSize }

/-- `delete_field_data(field_str, offset)`. -/
def deleteFieldData (g : FieldBitmapGroup) (fieldStr : String) (offset : ℕ) : FieldBitmapGroup :=
  if offset ≥ g.elementSize then g
  else (bitmapKeys g.dirIndex fieldStr).foldl (unsetBit offset) g

/-- Every bit lies below `element_size_`. -/
def Bounded (g : FieldBitmapGroup) : Prop := ∀ key, ∀ o ∈ g.bitmap key, o < g.elementSize

variable {g : FieldBitmapGroup} {offset o : ℕ}

variable {key k fieldStr : String}

theorem mem_bitmap_setBit :
    o ∈ (g.setBit offset key).bitmap k ↔ o ∈ g.bitmap k ∨ (o = offset ∧ k = key) := by
  simp only [bitmap, setBit, SortedMap.get_put]
  split_ifs with h
  · subst h
    simp [or_comm]
  · simp [h]

theorem mem_bitmap_unsetBit :
    o ∈ (g.unsetBit offset key).bitmap k ↔ o ∈ g.bitmap k ∧ ¬ (o = offset ∧ k = key) := by
  simp only [bitmap, unsetBit, SortedMap.get_put]
  split_ifs with h
  · subst h
    simp [and_comm]
  · simp [h]

theorem mem_bitmap_foldl_setBit {keys : List String} :
    o ∈ (keys.foldl (setBit offset) g).bitmap k ↔ o ∈ g.bitmap k ∨ (o = offset ∧ k ∈ keys) := by
  induction keys generalizing g with
  | nil => simp
  | cons key keys ih =>
    rw [List.foldl_cons, ih, mem_bitmap_setBit, List.mem_cons]
    tauto

theorem mem_bitmap_foldl_unsetBit {keys : List String} :
    o ∈ (keys.foldl (unsetBit offset) g).bitmap k ↔
      o ∈ g.bitmap k ∧ ¬ (o = offset ∧ k ∈ keys) := by
  induction keys generalizing g with
  | nil => simp
  | cons key keys ih =>
    rw [List.foldl_cons, ih, mem_bitmap_unsetBit, List.mem_cons]
    tauto

theorem foldl_setBit_frame (offset : ℕ) (keys : List String) (g : FieldBitmapGroup) :
    (keys.foldl (setBit offset) g).dirIndex = g.dirIndex ∧
      (keys.foldl (setBit offset) g).elementSize = g.elementSize := by
  induction keys generalizing g with
  | nil => exact ⟨rfl, rfl⟩
  | cons key keys ih => exact ih _

theorem foldl_unsetBit_frame (offset : ℕ) (keys : List String) (g : FieldBitmapGroup) :
    (keys.foldl (unsetBit offset) g).dirIndex = g.dirIndex ∧
      (keys.foldl (unsetBit offset) g).elementSize = g.elementSize := by
  induction keys generalizing g with
  | nil => exact ⟨rfl, rfl⟩
  | cons key keys ih => exact ih _

@[simp] theorem dirIndex_addFieldData (g : FieldBitmapGroup) (fieldStr : String) (offset : ℕ) :
    (g.addFieldData fieldStr offset).dirIndex = g.dirIndex :=
  (foldl_setBit_frame offset _ g).1

@[simp] theorem dirIndex_deleteFieldData (g : FieldBitmapGroup) (fieldStr : String) (offset : ℕ) :
    (g.deleteFieldData fieldStr offset).dirIndex = g.dirIndex := by
  unfold deleteFieldData
  split_ifs
  · rfl
  · exact (foldl_unsetBit_frame offset _ g).1

theorem mem_bitmap_addFieldData :
    o ∈ (g.addFieldData fieldStr offset).bitmap k ↔
      o ∈ g.bitmap k ∨ (o = offset ∧ k ∈ bitmapKeys g.dirIndex fieldStr) :=
  mem_bitmap_foldl_setBit

/-- Below `element_size_` or not, the row's keys lose the offset: beyond it there is no bit. -/
theorem mem_bitmap_deleteFieldData (hg : g.Bounded) :
    o ∈ (g.deleteFieldData fieldStr offset).bitmap k ↔
      o ∈ g.bitmap k ∧ ¬ (o = offset ∧ k ∈ bitmapKeys g.dirIndex fieldStr) := by
  unfold deleteFieldData
  split_ifs with h
  · refine ⟨fun ho => ⟨ho, ?_⟩, fun ho => ho.1⟩
    rintro ⟨rfl, -⟩
    have := hg k o ho
    omega
  · exact mem_bitmap_foldl_unsetBit

theorem Bounded.addFieldData (hg : g.Bounded) (fieldStr : String)
    (offset : ℕ) : (g.addFieldData fieldStr offset).Bounded := by
  intro k o ho
  have hsize : (g.addFieldData fieldStr offset).elementSize = max (offset + 1) g.elementSize := by
    simp only [FieldBitmapGroup.addFieldData, (foldl_setBit_frame offset _ g).2]
  rw [hsize]
  rcases mem_bitmap_addFieldData.1 ho with ho | ⟨rfl, -⟩
  · exact lt_max_of_lt_right (hg k o ho)
  · exact lt_max_of_lt_left (Nat.lt_succ_self _)

theorem Bounded.deleteFieldData (hg : g.Bounded) (fieldStr : String)
    (offset : ℕ) : (g.deleteFieldData fieldStr offset).Bounded := by
  intro k o ho
  have hsize : (g.deleteFieldData fieldStr offset).elementSize = g.elementSize := by
    unfold FieldBitmapGroup.deleteFieldData
    split_ifs
    · rfl
    · exact (foldl_unsetBit_frame offset _ g).2
  rw [hsize]
  exact hg k o ((mem_bitmap_deleteFieldData hg).1 ho).1

end FieldBitmapGroup

/-! ## The index over all fields -/

/-- `ScalarIndex`, its `FieldBitmapGroupSet`: a group for each indexed field. -/
structure ScalarIndex where
  groups : SortedMap String FieldBitmapGroup
  elementSize : ℕ

namespace ScalarIndex

/-- The indexed fields, each with whether it is a path field. -/
def shape (ix : ScalarIndex) (field : String) : Option Bool :=
  (ix.groups.get field).map FieldBitmapGroup.dirIndex

/-- An operation on the group of one member of `str_kv_map_`, if the field is indexed. -/
def onGroup (op : FieldBitmapGroup → String → ℕ → FieldBitmapGroup) (offset : ℕ)
    (ix : ScalarIndex) (kv : String × String) : ScalarIndex :=
  match ix.groups.get kv.1 with
  | none => ix
  | some g => { ix with groups := ix.groups.put kv.1 (op g kv.2 offset) }

/-- `FieldBitmapGroupSet::add_field_data(str_kv_map, offset)`. -/
def addFieldData (ix : ScalarIndex) (strKvMap : SortedMap String String) (offset : ℕ) :
    ScalarIndex :=
  let ix' := strKvMap.entries.foldl (onGroup FieldBitmapGroup.addFieldData offset) ix
  { ix' with elementSize := max ix'.elementSize (offset + 1) }

/-- `FieldBitmapGroupSet::delete_field_data(str_kv_map, offset)`. -/
def deleteFieldData (ix : ScalarIndex) (strKvMap : SortedMap String String) (offset : ℕ) :
    ScalarIndex :=
  if offset ≥ ix.elementSize then ix
  else strKvMap.entries.foldl (onGroup FieldBitmapGroup.deleteFieldData offset) ix

/-- `ScalarIndex::add_row_data` (65-86). -/
def addRowData (ix : ScalarIndex) (offset : ℕ) (fields oldFields : SortedMap String String) :
    ScalarIndex :=
  let ix := if oldFields.entries = [] then ix else ix.deleteFieldData oldFields offset
  if fields.entries = [] then ix else ix.addFieldData fields offset

/-- `ScalarIndex::delete_row_data` (88-98). -/
def deleteRowData (ix : ScalarIndex) (offset : ℕ) (oldFields : SortedMap String String) :
    ScalarIndex :=
  if oldFields.entries = [] then ix else ix.deleteFieldData oldFields offset

/-- The index of the given fields with no rows. -/
def empty (fields : List (String × Bool)) : ScalarIndex where
  groups := fields.foldl (fun m f => m.put f.1 ⟨f.2, SortedMap.empty, 0⟩) SortedMap.empty
  elementSize := 0

/-! ### Bits -/

/-- The bit of `offset` in the bitmap of `key` of `field`. -/
def Isset (ix : ScalarIndex) (field key : String) (offset : ℕ) : Prop :=
  ∃ g, ix.groups.get field = some g ∧ offset ∈ g.bitmap key

instance (ix : ScalarIndex) (field key : String) (offset : ℕ) :
    Decidable (ix.Isset field key offset) :=
  match h : ix.groups.get field with
  | none => isFalse (by rintro ⟨g, hg, -⟩; rw [h] at hg; cases hg)
  | some g => decidable_of_iff (offset ∈ g.bitmap key)
      ⟨fun ho => ⟨g, h, ho⟩, by rintro ⟨g', hg', ho⟩; rw [h] at hg'; cases hg'; exact ho⟩

/-- The keys of an indexed field in a row's fields. -/
def rowKeys (shape : String → Option Bool) (strKvMap : SortedMap String String)
    (field : String) : List String :=
  match shape field, strKvMap.get field with
  | some dir, some text => bitmapKeys dir text
  | _, _ => []

variable {kv : SortedMap String String} {shape : String → Option Bool}

theorem mem_rowKeys {field key : String} :
    key ∈ rowKeys shape kv field ↔
      ∃ dir text, shape field = some dir ∧ (field, text) ∈ kv.entries ∧
        key ∈ bitmapKeys dir text := by
  unfold rowKeys
  simp only [SortedMap.mem_entries_iff]
  split
  · rename_i dir text hdir htext
    simp [hdir, htext]
  · rename_i hnone
    constructor
    · simp
    · rintro ⟨dir, text, hdir, htext, -⟩
      exact absurd htext (hnone dir text hdir)

/-- Every bit lies below the size of its group and of the set. -/
structure Bounded (ix : ScalarIndex) : Prop where
  group : ∀ {field g}, ix.groups.get field = some g → g.Bounded
  set : ∀ {field key offset}, ix.Isset field key offset → offset < ix.elementSize

variable {op : FieldBitmapGroup → String → ℕ → FieldBitmapGroup}

theorem shape_onGroup (hop : ∀ g text offset, (op g text offset).dirIndex = g.dirIndex) (offset : ℕ)
    (ix : ScalarIndex) (kv : String × String) : (onGroup op offset ix kv).shape = ix.shape := by
  funext field
  unfold onGroup
  split
  · rfl
  · rename_i g hg
    simp only [shape, SortedMap.get_put]
    split_ifs with h
    · subst h
      simp [hg, hop]
    · rfl

theorem shape_foldl_onGroup (hop : ∀ g text offset, (op g text offset).dirIndex = g.dirIndex) (offset : ℕ)
    (ix : ScalarIndex) (kvs : List (String × String)) :
    (kvs.foldl (onGroup op offset) ix).shape = ix.shape := by
  induction kvs generalizing ix with
  | nil => rfl
  | cons kv kvs ih => rw [List.foldl_cons, ih, shape_onGroup hop]

@[simp] theorem shape_addFieldData (ix : ScalarIndex) (kv : SortedMap String String) (offset : ℕ) :
    (ix.addFieldData kv offset).shape = ix.shape :=
  shape_foldl_onGroup FieldBitmapGroup.dirIndex_addFieldData offset ix kv.entries

@[simp] theorem shape_deleteFieldData (ix : ScalarIndex) (kv : SortedMap String String) (offset : ℕ) :
    (ix.deleteFieldData kv offset).shape = ix.shape := by
  unfold deleteFieldData
  split_ifs
  · rfl
  · exact shape_foldl_onGroup FieldBitmapGroup.dirIndex_deleteFieldData offset ix kv.entries

theorem elementSize_onGroup (op : FieldBitmapGroup → String → ℕ → FieldBitmapGroup)
    (offset : ℕ) (ix : ScalarIndex) (kv : String × String) :
    (onGroup op offset ix kv).elementSize = ix.elementSize := by
  unfold onGroup
  split <;> rfl

theorem elementSize_foldl_onGroup (op : FieldBitmapGroup → String → ℕ → FieldBitmapGroup)
    (offset : ℕ) (ix : ScalarIndex) (kvs : List (String × String)) :
    (kvs.foldl (onGroup op offset) ix).elementSize = ix.elementSize := by
  induction kvs generalizing ix with
  | nil => rfl
  | cons kv kvs ih => rw [List.foldl_cons, ih, elementSize_onGroup]

theorem get_onGroup (op : FieldBitmapGroup → String → ℕ → FieldBitmapGroup) (offset : ℕ)
    (ix : ScalarIndex) (kv : String × String) (field : String) :
    (onGroup op offset ix kv).groups.get field =
      if field = kv.1 then (ix.groups.get field).map fun g => op g kv.2 offset
      else ix.groups.get field := by
  unfold onGroup
  split
  · rename_i hnone
    split_ifs with h
    · subst h
      simp [hnone]
    · rfl
  · rename_i g hg
    simp only [SortedMap.get_put]
    split_ifs with h
    · subst h
      simp [hg]
    · rfl

variable {ix : ScalarIndex} {offset o : ℕ}

theorem isset_onGroup_add {kv : String × String} {field key : String} :
    (onGroup FieldBitmapGroup.addFieldData offset ix kv).Isset field key o ↔
      ix.Isset field key o ∨
        (o = offset ∧ field = kv.1 ∧ ∃ dir, ix.shape field = some dir ∧
          key ∈ bitmapKeys dir kv.2) := by
  simp only [Isset, get_onGroup, shape]
  split_ifs with h
  · cases hg : ix.groups.get field with
    | none => simp
    | some g => simp [h, FieldBitmapGroup.mem_bitmap_addFieldData]
  · simp [h]

theorem isset_onGroup_delete
    (hix : ∀ {field g}, ix.groups.get field = some g → g.Bounded) {kv : String × String}
    {field key : String} :
    (onGroup FieldBitmapGroup.deleteFieldData offset ix kv).Isset field key o ↔
      ix.Isset field key o ∧
        ¬ (o = offset ∧ field = kv.1 ∧ ∃ dir, ix.shape field = some dir ∧
          key ∈ bitmapKeys dir kv.2) := by
  simp only [Isset, get_onGroup, shape]
  split_ifs with h
  · cases hg : ix.groups.get field with
    | none => simp
    | some g => simp [h, FieldBitmapGroup.mem_bitmap_deleteFieldData (hix hg)]
  · simp [h]

variable {g : FieldBitmapGroup} {field : String}

theorem bounded_onGroup (hop : ∀ {g text offset}, g.Bounded → (op g text offset).Bounded) {offset : ℕ}
    (hix : ∀ {field g}, ix.groups.get field = some g → g.Bounded) (kv : String × String)
    (hg : (onGroup op offset ix kv).groups.get field = some g) : g.Bounded := by
  rw [get_onGroup] at hg
  split_ifs at hg
  · obtain ⟨g', hg', rfl⟩ := Option.map_eq_some_iff.1 hg
    exact hop (hix hg')
  · exact hix hg

theorem bounded_foldl_onGroup (hop : ∀ {g text offset}, g.Bounded → (op g text offset).Bounded) {offset : ℕ}
    (hix : ∀ {field g}, ix.groups.get field = some g → g.Bounded) (kvs : List (String × String))
    (hg : (kvs.foldl (onGroup op offset) ix).groups.get field = some g) : g.Bounded := by
  induction kvs generalizing ix with
  | nil => exact hix hg
  | cons kv kvs ih => exact ih (fun h => bounded_onGroup hop hix kv h) hg

variable {kvs : List (String × String)}

/-- The keys of the first field are its own, and those of the others. -/
theorem setKeys_cons {kv : String × String} {key : String} :
    (o = offset ∧ field = kv.1 ∧ ∃ dir, ix.shape field = some dir ∧ key ∈ bitmapKeys dir kv.2) ∨
        (o = offset ∧ ∃ dir text, ix.shape field = some dir ∧ (field, text) ∈ kvs ∧ key ∈ bitmapKeys dir text) ↔
      o = offset ∧ ∃ dir text, ix.shape field = some dir ∧ (field, text) ∈ kv :: kvs ∧
        key ∈ bitmapKeys dir text := by
  constructor
  · rintro (⟨rfl, rfl, dir, hdir, hkey⟩ | ⟨rfl, dir, text, hdir, hmem, hkey⟩)
    · exact ⟨rfl, dir, kv.2, hdir, by simp, hkey⟩
    · exact ⟨rfl, dir, text, hdir, List.mem_cons_of_mem _ hmem, hkey⟩
  · rintro ⟨rfl, dir, text, hdir, hmem, hkey⟩
    rcases List.mem_cons.1 hmem with rfl | hmem
    · exact .inl ⟨rfl, rfl, dir, hdir, hkey⟩
    · exact .inr ⟨rfl, dir, text, hdir, hmem, hkey⟩

theorem isset_foldl_add {field key : String} :
    (kvs.foldl (onGroup FieldBitmapGroup.addFieldData offset) ix).Isset field key o ↔
      ix.Isset field key o ∨
        (o = offset ∧ ∃ dir text, ix.shape field = some dir ∧ (field, text) ∈ kvs ∧
          key ∈ bitmapKeys dir text) := by
  induction kvs generalizing ix with
  | nil => simp
  | cons kv kvs ih =>
    rw [List.foldl_cons, ih, isset_onGroup_add,
      shape_onGroup FieldBitmapGroup.dirIndex_addFieldData, or_assoc]
    exact or_congr Iff.rfl setKeys_cons

theorem isset_foldl_delete (hix : ∀ {field g}, ix.groups.get field = some g → g.Bounded)
    {field key : String} :
    (kvs.foldl (onGroup FieldBitmapGroup.deleteFieldData offset) ix).Isset field key o ↔
      ix.Isset field key o ∧
        ¬ (o = offset ∧ ∃ dir text, ix.shape field = some dir ∧ (field, text) ∈ kvs ∧
          key ∈ bitmapKeys dir text) := by
  induction kvs generalizing ix with
  | nil => simp
  | cons kv kvs ih =>
    rw [List.foldl_cons,
      ih fun h => bounded_onGroup (fun hg => hg.deleteFieldData _ _) hix kv h,
      isset_onGroup_delete hix, shape_onGroup FieldBitmapGroup.dirIndex_deleteFieldData, and_assoc]
    refine and_congr Iff.rfl ?_
    rw [← not_or]
    exact not_congr setKeys_cons

/-- Adding a row's fields sets the offset in the bitmaps of its keys, and nothing else. -/
theorem isset_addFieldData {field key : String} :
    (ix.addFieldData kv offset).Isset field key o ↔
      ix.Isset field key o ∨ (o = offset ∧ key ∈ rowKeys ix.shape kv field) := by
  rw [mem_rowKeys]
  exact isset_foldl_add

/-- Deleting a row's fields clears the offset in the bitmaps of its keys, and nothing else. -/
theorem isset_deleteFieldData (hix : ix.Bounded) {field key : String} :
    (ix.deleteFieldData kv offset).Isset field key o ↔
      ix.Isset field key o ∧ ¬ (o = offset ∧ key ∈ rowKeys ix.shape kv field) := by
  rw [mem_rowKeys]
  unfold deleteFieldData
  split_ifs with h
  · refine ⟨fun ho => ⟨ho, ?_⟩, fun ho => ho.1⟩
    rintro ⟨rfl, -⟩
    have := hix.set ho
    omega
  · exact isset_foldl_delete hix.group

theorem Bounded.addFieldData (hix : ix.Bounded)
    (kv : SortedMap String String) (offset : ℕ) : (ix.addFieldData kv offset).Bounded where
  group := bounded_foldl_onGroup (fun hg => hg.addFieldData _ _) hix.group kv.entries
  set := by
    intro field key o ho
    have hsize : (ix.addFieldData kv offset).elementSize = max ix.elementSize (offset + 1) := by
      simp only [ScalarIndex.addFieldData, elementSize_foldl_onGroup]
    rw [hsize]
    rcases isset_addFieldData.1 ho with ho | ⟨rfl, -⟩
    · exact lt_max_of_lt_left (hix.set ho)
    · exact lt_max_of_lt_right (Nat.lt_succ_self _)

theorem Bounded.deleteFieldData (hix : ix.Bounded)
    (kv : SortedMap String String) (offset : ℕ) : (ix.deleteFieldData kv offset).Bounded where
  group := by
    unfold ScalarIndex.deleteFieldData
    split_ifs
    · exact hix.group
    · exact bounded_foldl_onGroup (fun hg => hg.deleteFieldData _ _) hix.group kv.entries
  set := by
    intro field key o ho
    have hsize : (ix.deleteFieldData kv offset).elementSize = ix.elementSize := by
      unfold ScalarIndex.deleteFieldData
      split_ifs
      · rfl
      · exact elementSize_foldl_onGroup _ _ _ _
    rw [hsize]
    exact hix.set ((isset_deleteFieldData hix).1 ho).1

/-! ### Rows -/

theorem rowKeys_of_entries_nil (h : kv.entries = []) (field : String) : rowKeys shape kv field = [] := by
  rw [List.eq_nil_iff_forall_not_mem]
  intro key hkey
  obtain ⟨_, _, _, hmem, _⟩ := mem_rowKeys.1 hkey
  simp [h] at hmem

/-- Deleting a row with the fields `old` clears the bits of `old` at its offset. -/
theorem isset_deleteRowData (hix : ix.Bounded) {old : SortedMap String String} {field key : String} :
    (ix.deleteRowData offset old).Isset field key o ↔
      ix.Isset field key o ∧ ¬ (o = offset ∧ key ∈ rowKeys ix.shape old field) := by
  unfold deleteRowData
  split_ifs with h
  · simp [rowKeys_of_entries_nil h]
  · exact isset_deleteFieldData hix

@[simp] theorem shape_deleteRowData (ix : ScalarIndex) (offset : ℕ) (old : SortedMap String String) :
    (ix.deleteRowData offset old).shape = ix.shape := by
  unfold deleteRowData
  split_ifs <;> simp

theorem Bounded.deleteRowData (hix : ix.Bounded) (offset : ℕ)
    (old : SortedMap String String) : (ix.deleteRowData offset old).Bounded := by
  unfold ScalarIndex.deleteRowData
  split_ifs
  · exact hix
  · exact hix.deleteFieldData old offset

theorem addRowData_eq (ix : ScalarIndex) (offset : ℕ) (fields old : SortedMap String String) :
    ix.addRowData offset fields old =
      if fields.entries = [] then ix.deleteRowData offset old
      else (ix.deleteRowData offset old).addFieldData fields offset :=
  rfl

/-- Adding a row with the fields `fields` over the fields `old` clears the bits of `old` at its
offset, then sets those of `fields`. -/
theorem isset_addRowData (hix : ix.Bounded) {fields old : SortedMap String String} {field key : String} :
    (ix.addRowData offset fields old).Isset field key o ↔
      (ix.Isset field key o ∧ ¬ (o = offset ∧ key ∈ rowKeys ix.shape old field)) ∨
        (o = offset ∧ key ∈ rowKeys ix.shape fields field) := by
  rw [addRowData_eq]
  split_ifs with h
  · simp [rowKeys_of_entries_nil h, isset_deleteRowData hix]
  · rw [isset_addFieldData, isset_deleteRowData hix, shape_deleteRowData]

@[simp] theorem shape_addRowData (ix : ScalarIndex) (offset : ℕ) (fields old : SortedMap String String) :
    (ix.addRowData offset fields old).shape = ix.shape := by
  rw [addRowData_eq]
  split_ifs <;> simp

theorem Bounded.addRowData (hix : ix.Bounded) (offset : ℕ)
    (fields old : SortedMap String String) : (ix.addRowData offset fields old).Bounded := by
  rw [addRowData_eq]
  split_ifs
  · exact hix.deleteRowData offset old
  · exact (hix.deleteRowData offset old).addFieldData fields offset

/-! ### The empty index -/

variable (fields : List (String × Bool))

theorem get_empty_groups (h : (empty fields).groups.get field = some g) : ∀ key, g.bitmap key = ∅ := by
  have key_lemma : ∀ (fs : List (String × Bool)) (m : SortedMap String FieldBitmapGroup),
      (∀ {f g}, m.get f = some g → ∀ key, g.bitmap key = ∅) →
      ∀ {f g}, (fs.foldl (fun m f => m.put f.1 ⟨f.2, SortedMap.empty, 0⟩) m).get f = some g →
        ∀ key, g.bitmap key = ∅ := by
    intro fs
    induction fs with
    | nil => exact fun m hm => hm
    | cons f fs ih =>
      intro m hm
      refine ih _ fun {f' g} hg key => ?_
      rw [SortedMap.get_put] at hg
      split_ifs at hg
      · cases hg
        rfl
      · exact hm hg key
  exact key_lemma fields SortedMap.empty (fun h => by simp at h) h

theorem not_isset_empty (field key : String) (offset : ℕ) : ¬ (empty fields).Isset field key offset := by
  rintro ⟨g, hg, ho⟩
  simp [get_empty_groups fields hg key] at ho

theorem bounded_empty : (empty fields).Bounded where
  group := by
    intro field g hg key o ho
    simp [get_empty_groups fields hg key] at ho
  set := fun h => absurd h (not_isset_empty _ _ _ _)

end ScalarIndex

end OpenViking.VectorDB
