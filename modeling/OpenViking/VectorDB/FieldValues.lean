import OpenViking.VectorDB.FieldGroups
import OpenViking.VectorDB.RangedMapOrder

/-!
# Rows of the field groups

What a row has in the field groups: the keys whose bitmaps have its offset.

Results:

* `FieldBitmapGroupSet.bitmaps_addRowData`, `FieldBitmapGroupSet.bitmaps_deleteRowData`: the bits
  after an update of a row are those of the scalar index without numbers.
-/

namespace OpenViking.VectorDB.Full

variable {R : Type}

namespace FieldBitmapGroupSet

/-! ## One field -/

variable {V : Type}

variable (op : FieldBitmapGroup R → V → ℕ → FieldBitmapGroup R)

variable (offset : ℕ)

theorem get_onGroup (s : FieldBitmapGroupSet R) (kv : String × V) (field : String) :
    (onGroup op offset s kv).groups.get field =
      (s.groups.get field).map fun g => if field = kv.1 then op g kv.2 offset else g := by
  unfold onGroup
  cases hg : s.groups.get kv.1 with
  | none =>
    by_cases h : field = kv.1
    · subst h
      simp [hg]
    · simp [h]
  | some g =>
    by_cases h : field = kv.1
    · subst h
      simp [hg]
    · simp [SortedMap.get_put, h]

/-- The group of a field after an operation on each member of a map. -/
theorem get_foldl_onGroup
    (s : FieldBitmapGroupSet R) (kvMap : SortedMap String V) (field : String) :
    (kvMap.entries.foldl (onGroup op offset) s).groups.get field =
      (s.groups.get field).map fun g =>
        match kvMap.get field with
        | none => g
        | some v => op g v offset := by
  obtain ⟨es, hes⟩ := kvMap
  change (es.foldl (onGroup op offset) s).groups.get field = (s.groups.get field).map fun g =>
    match SortedMap.getEntry field es with
    | none => g
    | some v => op g v offset
  induction es generalizing s with
  | nil => simp [SortedMap.getEntry]
  | cons e es ih =>
    obtain ⟨he, hes'⟩ := List.pairwise_cons.1 hes
    rw [List.foldl_cons, ih _ hes', get_onGroup, Option.map_map]
    congr 1
    funext g
    rw [show SortedMap.getEntry field (e :: es) =
      if e.1 = field then some e.2 else SortedMap.getEntry field es from rfl]
    by_cases h : field = e.1
    · -- the field stands in the map once
      have hnone : SortedMap.getEntry field es = none := by
        rw [Option.eq_none_iff_forall_ne_some]
        intro v hv
        have hlt := he _ ((SortedMap.getEntry_eq_some hes').1 hv)
        exact absurd hlt (by simp [h])
      simp [hnone, ← h]
    · simp [h, Ne.symm h]

theorem elementSize_foldl_onGroup (s : FieldBitmapGroupSet R)
    (kvs : List (String × V)) : (kvs.foldl (onGroup op offset) s).elementSize = s.elementSize := by
  induction kvs generalizing s with
  | nil => rfl
  | cons kv kvs ih =>
    rw [List.foldl_cons, ih, onGroup]
    split <;> rfl

variable (s : FieldBitmapGroupSet R)

theorem get_addFields (kvMap : SortedMap String V) (offset : ℕ) (field : String) :
    (s.addFields op kvMap offset).groups.get field =
      (s.groups.get field).map fun g =>
        match kvMap.get field with
        | none => g
        | some v => op g v offset :=
  get_foldl_onGroup op offset s kvMap field

theorem elementSize_addFields (kvMap : SortedMap String V) (offset : ℕ) :
    (s.addFields op kvMap offset).elementSize = max s.elementSize (offset + 1) := by
  simp only [addFields, elementSize_foldl_onGroup]

theorem get_deleteFields
    (kvMap : SortedMap String V) (offset : ℕ) (field : String) :
    (s.deleteFields op kvMap offset).groups.get field =
      (s.groups.get field).map fun g =>
        match kvMap.get field with
        | none => g
        | some v => if offset ≥ s.elementSize then g else op g v offset := by
  unfold deleteFields
  split_ifs with h
  · cases s.groups.get field with
    | none => rfl
    | some g => cases kvMap.get field <;> rfl
  · exact get_foldl_onGroup op offset s kvMap field

@[simp] theorem elementSize_deleteFields
    (kvMap : SortedMap String V) (offset : ℕ) :
    (s.deleteFields op kvMap offset).elementSize = s.elementSize := by
  unfold deleteFields
  split_ifs
  · rfl
  · exact elementSize_foldl_onGroup op offset s kvMap.entries

end FieldBitmapGroupSet

/-! ## Bits -/

namespace FieldBitmapGroupSet

variable [LinearOrder R]

@[simp] theorem bitmaps_deleteFieldDouble (s : FieldBitmapGroupSet R) (kv : SortedMap String R)
    (offset : ℕ) : (s.deleteFieldDouble kv offset).bitmaps = s.bitmaps := by
  have hgroups : (s.deleteFieldDouble kv offset).bitmaps.groups = s.bitmaps.groups := by
    refine SortedMap.ext_get fun field => ?_
    rw [bitmaps, bitmaps, SortedMap.get_mapValues, SortedMap.get_mapValues, deleteFieldDouble,
      get_deleteFields, Option.map_map]
    congr 1
    funext g
    simp only [Function.comp_apply]
    split
    · rfl
    · split_ifs <;> simp
  have hsize : (s.deleteFieldDouble kv offset).bitmaps.elementSize = s.bitmaps.elementSize :=
    elementSize_deleteFields _ _ _ _
  cases h1 : (s.deleteFieldDouble kv offset).bitmaps
  cases h2 : s.bitmaps
  simp_all

/-- The group of a field after numbers are added: its bitmaps are as they were. -/
theorem get_bitmaps_addFieldDouble (s : FieldBitmapGroupSet R) (kv : SortedMap String R)
    (offset : ℕ) (field : String) :
    ((s.addFieldDouble kv offset).bitmaps.groups.get field = none ∧
      s.bitmaps.groups.get field = none) ∨
    ∃ g size, size ≥ g.elementSize ∧ s.bitmaps.groups.get field = some g ∧
      (s.addFieldDouble kv offset).bitmaps.groups.get field =
        some { g with elementSize := size } := by
  simp only [bitmaps, SortedMap.get_mapValues, addFieldDouble, get_addFields]
  cases s.groups.get field with
  | none => exact .inl ⟨rfl, rfl⟩
  | some g =>
    refine .inr ?_
    simp only [Option.map_some, Option.some.injEq]
    cases kv.get field with
    | none => exact ⟨g.bitmaps, g.elementSize, le_rfl, rfl, rfl⟩
    | some value =>
      obtain ⟨size, hsize, heq⟩ := g.bitmaps_addFieldDouble value offset
      exact ⟨g.bitmaps, size, hsize, rfl, heq⟩

@[simp] theorem shape_addFieldDouble (s : FieldBitmapGroupSet R) (kv : SortedMap String R) (offset : ℕ) :
    (s.addFieldDouble kv offset).bitmaps.shape = s.bitmaps.shape := by
  funext field
  unfold ScalarIndex.shape
  rcases s.get_bitmaps_addFieldDouble kv offset field with ⟨h, h'⟩ | ⟨g, size, -, h, h'⟩
  · rw [h, h']
  · rw [h, h']
    rfl

@[simp] theorem isset_addFieldDouble (s : FieldBitmapGroupSet R) (kv : SortedMap String R) (offset : ℕ)
    (field key : String) (o : ℕ) :
    (s.addFieldDouble kv offset).bitmaps.Isset field key o ↔ s.bitmaps.Isset field key o := by
  unfold ScalarIndex.Isset
  rcases s.get_bitmaps_addFieldDouble kv offset field with ⟨h, h'⟩ | ⟨g, size, -, h, h'⟩
  · simp [h, h']
  · simp [h, h', VectorDB.FieldBitmapGroup.bitmap]

variable {s : FieldBitmapGroupSet R}

theorem bounded_addFieldDouble (hs : s.bitmaps.Bounded)
    (kv : SortedMap String R) (offset : ℕ) : (s.addFieldDouble kv offset).bitmaps.Bounded where
  group := by
    intro field g' hg' key o ho
    rcases s.get_bitmaps_addFieldDouble kv offset field with ⟨h, -⟩ | ⟨g, size, hsize, h, h'⟩
    · rw [h] at hg'
      cases hg'
    · rw [h'] at hg'
      cases hg'
      exact (hs.group h key o ho).trans_le hsize
  set := by
    intro field key o ho
    have hsize : (s.addFieldDouble kv offset).bitmaps.elementSize =
        max s.elementSize (offset + 1) := elementSize_addFields _ _ _ _
    rw [hsize]
    exact lt_max_of_lt_left (hs.set ((isset_addFieldDouble s kv offset field key o).1 ho))

/-- The bitmaps of a row that is deleted, with or without numbers. -/
theorem bitmaps_deleteRowData (s : FieldBitmapGroupSet R) (offset : ℕ) (old : FieldsDict R) :
    (s.deleteRowData offset old).bitmaps = s.bitmaps.deleteRowData offset old.strKvMap := by
  unfold deleteRowData ScalarIndex.deleteRowData
  simp only
  split_ifs with hdbl hstr hstr
  · rfl
  · exact bitmaps_deleteFieldData _ _ _
  · exact bitmaps_deleteFieldDouble _ _ _
  · rw [bitmaps_deleteFieldDouble, bitmaps_deleteFieldData]

/-- The bits of a row that is added are those without the numbers. -/
theorem bitmaps_addRowData (hs : s.bitmaps.Bounded) (offset : ℕ) (fields old : FieldsDict R) :
    (s.addRowData offset fields old).bitmaps.shape = s.bitmaps.shape ∧
      (s.addRowData offset fields old).bitmaps.Bounded ∧
      ∀ field key o, (s.addRowData offset fields old).bitmaps.Isset field key o ↔
        (s.bitmaps.addRowData offset fields.strKvMap old.strKvMap).Isset field key o := by
  have hstr : (if fields.strKvMap.entries = [] then s.deleteRowData offset old
      else (s.deleteRowData offset old).addFieldData fields.strKvMap offset).bitmaps =
      s.bitmaps.addRowData offset fields.strKvMap old.strKvMap := by
    rw [ScalarIndex.addRowData_eq, ← bitmaps_deleteRowData]
    split_ifs
    · rfl
    · exact bitmaps_addFieldData _ _ _
  have hshape := ScalarIndex.shape_addRowData s.bitmaps offset fields.strKvMap old.strKvMap
  have hbounded := hs.addRowData offset fields.strKvMap old.strKvMap
  rw [← hstr] at hshape hbounded ⊢
  unfold addRowData
  simp only
  split_ifs at hshape hbounded ⊢
  · exact ⟨hshape, hbounded, fun _ _ _ => Iff.rfl⟩
  · exact ⟨hshape, hbounded, fun _ _ _ => Iff.rfl⟩
  · exact ⟨(shape_addFieldDouble _ _ _).trans hshape, bounded_addFieldDouble hbounded _ _,
      fun _ _ _ => isset_addFieldDouble _ _ _ _ _ _⟩
  · exact ⟨(shape_addFieldDouble _ _ _).trans hshape, bounded_addFieldDouble hbounded _ _,
      fun _ _ _ => isset_addFieldDouble _ _ _ _ _ _⟩

end FieldBitmapGroupSet

end OpenViking.VectorDB.Full
