import OpenViking.VectorDB.RowLayout

/-!
# Rows packed in Python

`_PyBytesRow.serialize` collects format characters and values, those of the slots and those of the variable
region, and packs them one after the other.  Both are in the order of the fields' ids.  Results:

* `pySerialize_ok_iff`: when it succeeds, and what it gives (`pyImage`);
* `rowAt_pyImage`: when the fields are declared in the order of their ids, each slot and each value stands
  where the layout says.
-/

namespace OpenViking.VectorDB

open Buffer

/-! ## Packing -/

variable {b : Bytes}

variable {items var : List PackItem} {item slot : PackItem}

theorem packAll_cons_ok :
    packAll (item :: items) = .ok b ↔
      ∃ x y, item.pack = .ok x ∧ packAll items = .ok y ∧ b = x ++ y := by
  rw [packAll]
  cases item.pack with
  | error e => simp [bind, Except.bind]
  | ok x =>
    cases packAll items with
    | error e => simp [bind, Except.bind]
    | ok y => simp [bind, Except.bind, eq_comm]

theorem packAll_append_ok {more : List PackItem} :
    packAll (items ++ more) = .ok b ↔
      ∃ x y, packAll items = .ok x ∧ packAll more = .ok y ∧ b = x ++ y := by
  induction items generalizing b with
  | nil => simp [packAll]
  | cons item items ih =>
    simp only [List.cons_append, packAll_cons_ok, ih]
    constructor
    · rintro ⟨x, _, hx, ⟨y, z, hy, hz, rfl⟩, rfl⟩
      exact ⟨x ++ y, z, ⟨x, y, hx, hy, rfl⟩, hz, by simp⟩
    · rintro ⟨_, z, ⟨x, y, hx, hy, rfl⟩, hz, rfl⟩
      exact ⟨x, y ++ z, hx, ⟨y, z, hy, hz, rfl⟩, by simp⟩

theorem packAll_q (vec : List (BitVec 64)) :
    packAll (vec.map .q) = .ok (vec.flatMap fun n => toLE 8 n.toNat) := by
  induction vec with
  | nil => rfl
  | cons n vec ih => simp [packAll, PackItem.pack, ih, bind, Except.bind]

theorem packAll_f (vec : List (BitVec 32)) :
    packAll (vec.map .f) = .ok (vec.flatMap fun x => toLE 4 x.toNat) := by
  induction vec with
  | nil => rfl
  | cons n vec ih => simp [packAll, PackItem.pack, ih, bind, Except.bind]

variable {x y : Bytes}

theorem ite_ok_iff {c : Prop} [Decidable c] {b : Bytes} {e : CodecError} :
    (if c then Except.ok x else .error e) = .ok b ↔ c ∧ b = x := by
  by_cases h : c <;> simp [h, eq_comm]

variable {n off : ℕ}

theorem pack_H_ok : (PackItem.H n).pack = .ok b ↔ n < 2 ^ 16 ∧ b = toLE 2 n := ite_ok_iff

theorem pack_I_ok : (PackItem.I n).pack = .ok b ↔ n < 2 ^ 32 ∧ b = toLE 4 n := ite_ok_iff

theorem packAll_texts_ok {vec : List Bytes} :
    packAll (vec.flatMap fun s => [.H s.length, .s s]) = .ok b ↔
      (∀ s ∈ vec, s.length < 2 ^ 16) ∧ b = vec.flatMap fun s => toLE 2 s.length ++ s := by
  induction vec generalizing b with
  | nil => simp [packAll, eq_comm]
  | cons s vec ih =>
    simp only [List.flatMap_cons, List.cons_append, List.nil_append, packAll_cons_ok, pack_H_ok, ih]
    constructor
    · rintro ⟨x, _, ⟨hs, rfl⟩, ⟨y, z, hy, ⟨hvec, rfl⟩, rfl⟩, rfl⟩
      obtain rfl : s = y := Except.ok.inj hy
      refine ⟨?_, by simp⟩
      rintro t (_ | ⟨_, ht⟩)
      · exact hs
      · exact hvec t ht
    · rintro ⟨hvec, rfl⟩
      refine ⟨_, _, ⟨hvec s List.mem_cons_self, rfl⟩, ⟨s, _, rfl, ⟨fun t ht => ?_, rfl⟩, rfl⟩, by simp⟩
      exact hvec t (List.mem_cons_of_mem _ ht)

/-- The bytes of a field, if it has any: those of its slot and those of its value. -/
def PyPacks (m : FieldMeta) (v : Value) (off : ℕ) (x y : Bytes) : Prop :=
  ∃ slot var, pyFieldItems m v off = .ok (slot, var) ∧ slot.pack = .ok x ∧ packAll var = .ok y

variable {m : FieldMeta} {v : Value}

theorem pyPacks_of_items (h : pyFieldItems m v off = .ok (slot, var)) :
    PyPacks m v off x y ↔ slot.pack = .ok x ∧ packAll var = .ok y := by
  unfold PyPacks
  rw [h]
  constructor
  · rintro ⟨slot', var', heq, hx, hy⟩
    obtain ⟨rfl, rfl⟩ := Prod.mk.inj (Except.ok.inj heq)
    exact ⟨hx, hy⟩
  · exact fun hxy => ⟨slot, var, rfl, hxy⟩

/-- A field whose value stands in its slot. -/
theorem pyPacks_inline
    (h : pyFieldItems m v off = .ok (slot, [])) (hslot : slot.pack = .ok (slotBytes m.dataType v off))
    (hvar : m.dataType.isVariable = false) :
    PyPacks m v off x y ↔
      Limits m.dataType v ∧ (m.dataType.isVariable = true → off < 2 ^ 32) ∧
        x = slotBytes m.dataType v off ∧ y = fullVarBytes m.dataType v := by
  have hlim : Limits m.dataType v := by
    cases hm : m.dataType <;> rw [hm] at hvar <;> trivial
  have hfull : fullVarBytes m.dataType v = [] := by
    cases hm : m.dataType <;> rw [hm] at hvar <;> first | rfl | cases hvar
  rw [pyPacks_of_items h, hslot, hfull]
  simp [hlim, hvar, packAll, eq_comm]

/-- A field whose slot has the offset of its value. -/
theorem pyPacks_variable (h : pyFieldItems m v off = .ok (.I off, var))
    (hslot : slotBytes m.dataType v off = toLE 4 off) (hvar : m.dataType.isVariable = true)
    (hfull : packAll var = .ok y ↔ Limits m.dataType v ∧ y = fullVarBytes m.dataType v) :
    PyPacks m v off x y ↔
      Limits m.dataType v ∧ (m.dataType.isVariable = true → off < 2 ^ 32) ∧
        x = slotBytes m.dataType v off ∧ y = fullVarBytes m.dataType v := by
  rw [pyPacks_of_items h, pack_I_ok, hfull, hslot]
  constructor
  · rintro ⟨⟨hoff, hx⟩, hlim, hy⟩
    exact ⟨hlim, fun _ => hoff, hx, hy⟩
  · rintro ⟨hlim, hoff, hx, hy⟩
    exact ⟨⟨hoff hvar, hx⟩, hlim, hy⟩

/-- A length, then what it is the length of. -/
theorem packAll_length_ok {c : Prop} {z b : Bytes}
    (hitem : ∀ {b}, item.pack = .ok b ↔ c ∧ b = z) (h : packAll items = .ok x) :
    packAll (item :: items) = .ok b ↔ c ∧ b = z ++ x := by
  rw [packAll_cons_ok, h]
  simp only [hitem, Except.ok.injEq]
  constructor
  · rintro ⟨_, _, ⟨hn, rfl⟩, rfl, rfl⟩
    exact ⟨hn, rfl⟩
  · rintro ⟨hn, rfl⟩
    exact ⟨_, x, ⟨hn, rfl⟩, rfl, rfl⟩

theorem packAll_s (s : Bytes) : packAll [.s s] = .ok s := by
  simp [packAll, PackItem.pack, bind, Except.bind]

/-- **The bytes of one field.** -/
theorem pyPacks_iff (h : WellTyped m.dataType v) :
    PyPacks m v off x y ↔
      Limits m.dataType v ∧ (m.dataType.isVariable = true → off < 2 ^ 32) ∧
        x = slotBytes m.dataType v off ∧ y = fullVarBytes m.dataType v := by
  obtain ⟨name, type, offset, id, dflt⟩ := m
  cases type <;> cases v <;> try exact absurd h not_false
  case int64.int64 v => exact pyPacks_inline rfl rfl rfl
  case uint64.uint64 v => exact pyPacks_inline rfl rfl rfl
  case float32.float v => exact pyPacks_inline rfl rfl rfl
  case boolean.bool v =>
    have hslot : (PackItem.B v.toNat).pack = .ok (toLE 1 v.toNat) := by cases v <;> rfl
    exact pyPacks_inline rfl hslot rfl
  case string.string s =>
    by_cases hs : s.length > stringMaxUint16Length
    · have hlim : ¬ Limits .string (.string s) := by
        show ¬ s.length < 2 ^ 16
        unfold stringMaxUint16Length at hs
        omega
      constructor
      · rintro ⟨slot, var, hitems, -⟩
        simp only [pyFieldItems, hs, if_true] at hitems
        cases hitems
      · exact fun hxy => absurd hxy.1 hlim
    · exact pyPacks_variable (if_neg hs) rfl rfl (packAll_length_ok pack_H_ok (packAll_s s))
  case binary.string s =>
    exact pyPacks_variable rfl rfl rfl (packAll_length_ok pack_I_ok (packAll_s s))
  case listInt64.listInt64 vec =>
    exact pyPacks_variable rfl rfl rfl (packAll_length_ok pack_H_ok (packAll_q vec))
  case listFloat32.listFloat vec =>
    exact pyPacks_variable rfl rfl rfl (packAll_length_ok pack_H_ok (packAll_f vec))
  case listString.listString vec =>
    refine pyPacks_variable rfl rfl rfl ?_
    simp only [packAll_cons_ok, pack_H_ok, packAll_texts_ok]
    constructor
    · rintro ⟨_, _, ⟨hlen, rfl⟩, ⟨hvec, rfl⟩, rfl⟩
      exact ⟨⟨hlen, hvec⟩, rfl⟩
    · rintro ⟨⟨hlen, hvec⟩, rfl⟩
      exact ⟨_, _, ⟨hlen, rfl⟩, ⟨hvec, rfl⟩, rfl⟩

/-! ## Rows -/

/-- The slots of a row, in the order of the ids. -/
def pySlots (off : ℕ) (fs : List (FieldMeta × Value)) : List Bytes :=
  (placed off fs).map fun e => slotBytes e.1.1.dataType e.1.2 e.2

/-- The values in the variable region, in the order of the ids. -/
def pyVars (fs : List (FieldMeta × Value)) : List Bytes :=
  fs.map fun f => fullVarBytes f.1.dataType f.2

/-- The values are within the limits, and their offsets fit into a slot. -/
def PyFits (off : ℕ) (fs : List (FieldMeta × Value)) : Prop :=
  (∀ f ∈ fs, Limits f.1.dataType f.2) ∧
    ∀ e ∈ placed off fs, e.1.1.dataType.isVariable = true → e.2 < 2 ^ 32

/-- The items of a row can be packed, and give these bytes. -/
def PyRowPacks (off : ℕ) (fs : List (FieldMeta × Value)) (x y : Bytes) : Prop :=
  ∃ slots vars, pyItems fs off = .ok (slots, vars) ∧ packAll slots = .ok x ∧ packAll vars = .ok y

variable {fs : List (FieldMeta × Value)}

theorem pyRowPacks_cons {f : FieldMeta × Value} :
    PyRowPacks off (f :: fs) x y ↔ ∃ x₁ y₁ x₂ y₂, PyPacks f.1 f.2 off x₁ y₁ ∧
      PyRowPacks (off + varSize f.1.dataType f.2) fs x₂ y₂ ∧ x = x₁ ++ x₂ ∧ y = y₁ ++ y₂ := by
  constructor
  · rintro ⟨slots, vars, hitems, hx, hy⟩
    rw [pyItems] at hitems
    cases hf : pyFieldItems f.1 f.2 off with
    | error e =>
      rw [hf] at hitems
      cases hitems
    | ok item =>
      cases hfs : pyItems fs (off + varSize f.1.dataType f.2) with
      | error e =>
        rw [hf, hfs] at hitems
        cases hitems
      | ok items =>
        rw [hf, hfs] at hitems
        obtain ⟨rfl, rfl⟩ := Prod.mk.inj (Except.ok.inj hitems)
        obtain ⟨x₁, x₂, hx₁, hx₂, rfl⟩ := packAll_cons_ok.1 hx
        obtain ⟨y₁, y₂, hy₁, hy₂, rfl⟩ := packAll_append_ok.1 hy
        exact ⟨x₁, y₁, x₂, y₂, ⟨_, _, hf, hx₁, hy₁⟩, ⟨_, _, hfs, hx₂, hy₂⟩, rfl, rfl⟩
  · rintro ⟨x₁, y₁, x₂, y₂, ⟨slot, var, hf, hx₁, hy₁⟩, ⟨slots, vars, hfs, hx₂, hy₂⟩, rfl, rfl⟩
    refine ⟨slot :: slots, var ++ vars, ?_, packAll_cons_ok.2 ⟨x₁, x₂, hx₁, hx₂, rfl⟩,
      packAll_append_ok.2 ⟨y₁, y₂, hy₁, hy₂, rfl⟩⟩
    rw [pyItems, hf, hfs]
    rfl

theorem pyFits_cons {f : FieldMeta × Value} :
    PyFits off (f :: fs) ↔ (Limits f.1.dataType f.2 ∧ (f.1.dataType.isVariable = true → off < 2 ^ 32)) ∧
      PyFits (off + varSize f.1.dataType f.2) fs := by
  simp only [PyFits, placed, List.forall_mem_cons]
  tauto

theorem pyRowPacks_iff (h : ∀ f ∈ fs, WellTyped f.1.dataType f.2) :
    PyRowPacks off fs x y ↔
      PyFits off fs ∧ x = (pySlots off fs).flatten ∧ y = (pyVars fs).flatten := by
  induction fs generalizing off x y with
  | nil =>
    constructor
    · rintro ⟨slots, vars, hitems, hx, hy⟩
      obtain ⟨rfl, rfl⟩ := Prod.mk.inj (Except.ok.inj hitems)
      exact ⟨⟨by simp, by simp [placed]⟩, (Except.ok.inj hx).symm, (Except.ok.inj hy).symm⟩
    · rintro ⟨-, rfl, rfl⟩
      exact ⟨[], [], rfl, rfl, rfl⟩
  | cons f fs ih =>
    have hrest : ∀ g ∈ fs, WellTyped g.1.dataType g.2 := fun g hg => h g (List.mem_cons_of_mem _ hg)
    rw [pyRowPacks_cons, pyFits_cons]
    constructor
    · rintro ⟨x₁, y₁, x₂, y₂, hf, hfs, rfl, rfl⟩
      obtain ⟨hlim, hoff, rfl, rfl⟩ := (pyPacks_iff (h f List.mem_cons_self)).1 hf
      obtain ⟨hfits, rfl, rfl⟩ := (ih hrest).1 hfs
      exact ⟨⟨⟨hlim, hoff⟩, hfits⟩, rfl, rfl⟩
    · rintro ⟨⟨⟨hlim, hoff⟩, hfits⟩, rfl, rfl⟩
      exact ⟨_, _, _, _, (pyPacks_iff (h f List.mem_cons_self)).2 ⟨hlim, hoff, rfl, rfl⟩,
        (ih hrest).2 ⟨hfits, rfl, rfl⟩, rfl, rfl⟩

/-- What `_PyBytesRow.serialize` gives. -/
def pyImage (S : Schema) (fs : List (FieldMeta × Value)) : Bytes :=
  toLE 1 S.fieldOrder.length ++ ((pySlots S.totalByteLength fs).flatten ++ (pyVars fs).flatten)

theorem Schema.RowTyped.wellTyped {S : Schema} {row : List Value} (h : S.RowTyped row) :
    ∀ f ∈ S.fields row, WellTyped f.1.dataType f.2 := by
  rintro ⟨m, v⟩ hf
  exact List.forall₂_zip h hf

/-- **What `_PyBytesRow.serialize` gives.** -/
theorem pySerialize_ok_iff {S : Schema} {row : List Value} (h : S.RowTyped row) :
    S.pySerialize row = .ok b ↔ S.fieldOrder.length < 2 ^ 8 ∧
      PyFits S.totalByteLength (S.fields row) ∧ b = pyImage S (S.fields row) := by
  have hpacks : S.pySerialize row = .ok b ↔ S.fieldOrder.length < 2 ^ 8 ∧
      ∃ x y, PyRowPacks S.totalByteLength (S.fields row) x y ∧
        b = toLE 1 S.fieldOrder.length ++ (x ++ y) := by
    simp only [Schema.pySerialize, h.withDefaults, PyRowPacks]
    cases pyItems (S.fields row) S.totalByteLength with
    | error e => simp [bind, Except.bind]
    | ok items =>
      by_cases hn : S.fieldOrder.length < 2 ^ 8
      · cases hbody : packAll (items.1 ++ items.2) with
        | error e =>
          simp only [bind, Except.bind, hn, if_true, hbody, reduceCtorEq, true_and, false_iff]
          rintro ⟨x, y, ⟨slots, vars, heq, hx, hy⟩, -⟩
          obtain rfl : items = (slots, vars) := Except.ok.inj heq
          have := packAll_append_ok.2 ⟨x, y, hx, hy, rfl⟩
          rw [hbody] at this
          cases this
        | ok body =>
          obtain ⟨x, y, hx, hy, rfl⟩ := packAll_append_ok.1 hbody
          simp only [bind, Except.bind, hn, if_true, hbody, Except.ok.injEq, true_and]
          constructor
          · exact fun hb => ⟨x, y, ⟨_, _, rfl, hx, hy⟩, hb.symm⟩
          · rintro ⟨x', y', ⟨slots, vars, rfl, hx', hy'⟩, rfl⟩
            rw [Except.ok.inj (hx.symm.trans hx'), Except.ok.inj (hy.symm.trans hy')]
      · simp only [bind, Except.bind, hn, if_false, reduceCtorEq, false_and]
  rw [hpacks]
  simp only [pyRowPacks_iff h.wellTyped]
  constructor
  · rintro ⟨hn, x, y, ⟨hfits, rfl, rfl⟩, rfl⟩
    exact ⟨hn, hfits, rfl⟩
  · rintro ⟨hn, hfits, rfl⟩
    exact ⟨hn, _, _, ⟨hfits, rfl, rfl⟩, rfl⟩

/-! ## Where everything stands -/

theorem length_flatten_pySlots (off : ℕ) (fs : List (FieldMeta × Value)) :
    (pySlots off fs).flatten.length = (fs.map fun f => f.1.dataType.byteLen).sum := by
  have hlen : (pySlots off fs).map List.length =
      (placed off fs).map fun e => e.1.1.dataType.byteLen := by
    rw [pySlots, List.map_map]
    exact List.map_congr_left fun e _ => length_slotBytes _ _ _
  rw [List.length_flatten, hlen]
  conv_rhs => rw [← map_fst_placed off fs, List.map_map]
  rfl

theorem length_flatten_pyVars (fs : List (FieldMeta × Value)) :
    (pyVars fs).flatten.length = varTotal fs := by
  rw [List.length_flatten, pyVars, List.map_map, varTotal]
  congr 1
  exact List.map_congr_left fun f _ => length_fullVarBytes _ _

theorem place_pyVars (off : ℕ) (fs : List (FieldMeta × Value)) :
    place off (pyVars fs) =
      (placed off fs).map fun e => (e.2, fullVarBytes e.1.1.dataType e.1.2) := by
  induction fs generalizing off with
  | nil => rfl
  | cons f fs ih =>
    simp only [pyVars, placed, List.map_cons, place, length_fullVarBytes]
    congr 1
    exact ih _

section Image

variable {S : Schema} {fs : List (FieldMeta × Value)}

/-- The slots fill the fixed region. -/
theorem length_slots (hl : S.LaidOut) (h : S.Accepted) (hfs : fs.map Prod.fst = S.fieldOrder) :
    1 + (pySlots S.totalByteLength fs).flatten.length = S.totalByteLength := by
  rw [length_flatten_pySlots, hl.total]
  have hsum : (fs.map fun f => f.1.dataType.byteLen) =
      S.fieldOrder.map fun m => m.dataType.byteLen := by
    rw [← hfs, List.map_map]
    rfl
  rw [hsum, (h.fieldOrder_perm.map _).sum_eq]

theorem length_pyImage (hl : S.LaidOut) (h : S.Accepted) (hfs : fs.map Prod.fst = S.fieldOrder) :
    (pyImage S fs).length = S.totalByteLength + varTotal fs := by
  have := length_slots hl h hfs
  simp only [pyImage, List.length_append, length_toLE, length_flatten_pyVars]
  omega

theorem at_pyImage (hl : S.LaidOut) (h : S.Accepted) (hfs : fs.map Prod.fst = S.fieldOrder) {b : Bytes} :
    At b 0 (pyImage S fs) ↔ At b 0 (toLE 1 S.fieldOrder.length) ∧
      At b 1 (pySlots S.totalByteLength fs).flatten ∧ At b S.totalByteLength (pyVars fs).flatten := by
  rw [pyImage, at_append, at_append, length_toLE, Nat.zero_add, length_slots hl h hfs]

/-- The values of variable length stand at their offsets. -/
theorem at_vars {b : Bytes} {off : ℕ} :
    At b off (pyVars fs).flatten ↔
      ∀ e ∈ placed off fs, At b e.2 (fullVarBytes e.1.1.dataType e.1.2) := by
  constructor
  · intro hat e he
    have hmem : (e.2, fullVarBytes e.1.1.dataType e.1.2) ∈ place off (pyVars fs) := by
      rw [place_pyVars]
      exact List.mem_map_of_mem he
    exact at_place hat hmem
  · intro hat
    refine at_flatten fun w hw => ?_
    rw [place_pyVars] at hw
    obtain ⟨e, he, rfl⟩ := List.mem_map.1 hw
    exact hat e he

end Image

/-- Slots in the order of the declaration stand at their offsets. -/
theorem at_slots {fields : List FieldDef} (hfs : fs.map Prod.fst = metasFrom 1 fields) :
    At b 1 (pySlots off fs).flatten ↔
      ∀ e ∈ placed off fs, At b e.1.1.offset (slotBytes e.1.1.dataType e.1.2 e.2) := by
  have hplace : place 1 (pySlots off fs) = (placed off fs).map fun e =>
      (e.1.1.offset, slotBytes e.1.1.dataType e.1.2 e.2) := by
    have hmap : (placed off fs).map (fun e => e.1.1) = metasFrom 1 fields := by
      conv_rhs => rw [← hfs, ← map_fst_placed off fs, List.map_map]
      rfl
    exact place_metasFrom (fun e : (FieldMeta × Value) × ℕ => e.1.1) _ hmap fun e _ => length_slotBytes _ _ _
  constructor
  · intro hat e he
    have hmem : (e.1.1.offset, slotBytes e.1.1.dataType e.1.2 e.2) ∈ place 1 (pySlots off fs) := by
      rw [hplace]
      exact List.mem_map_of_mem he
    exact at_place hat hmem
  · intro hat
    refine at_flatten fun w hw => ?_
    rw [hplace] at hw
    obtain ⟨e, he, rfl⟩ := List.mem_map.1 hw
    exact hat e he

section InOrder

variable {fields : List FieldDef} {fs : List (FieldMeta × Value)}

/-- With the fields in the order of their ids, the image is what the layout asks for. -/
theorem at_pyImage_iff (h : (layOut fields).Accepted) (horder : (layOut fields).InOrder)
    (hfs : fs.map Prod.fst = (layOut fields).fieldOrder) (hlim : ∀ f ∈ fs, Limits f.1.dataType f.2)
    {b : Bytes} : At b 0 (pyImage (layOut fields) fs) ↔ RowAt b (layOut fields) fs := by
  have hmetas : fs.map Prod.fst = metasFrom 1 fields := by
    rw [hfs, h.fieldOrder_eq horder]
    rfl
  have hvar : ∀ e ∈ placed (layOut fields).totalByteLength fs,
      fullVarBytes e.1.1.dataType e.1.2 = varBytes e.1.1.dataType e.1.2 := by
    intro e he
    have hmem : e.1 ∈ (placed (layOut fields).totalByteLength fs).map Prod.fst :=
      List.mem_map_of_mem he
    rw [map_fst_placed] at hmem
    exact (hlim e.1 hmem).varBytes_eq.symm
  rw [at_pyImage (laidOut_layOut fields) h hfs, at_slots hmetas, at_vars]
  constructor
  · rintro ⟨hheader, hslot, hat⟩
    exact ⟨hheader, hslot, fun e he => hvar e he ▸ hat e he⟩
  · rintro ⟨hheader, hslot, hat⟩
    exact ⟨hheader, hslot, fun e he => (hvar e he).symm ▸ hat e he⟩

theorem rowAt_pyImage (h : (layOut fields).Accepted) (horder : (layOut fields).InOrder)
    (hfs : fs.map Prod.fst = (layOut fields).fieldOrder) (hlim : ∀ f ∈ fs, Limits f.1.dataType f.2) :
    RowAt (pyImage (layOut fields) fs) (layOut fields) fs :=
  (at_pyImage_iff h horder hfs hlim).1 (at_self _)

theorem RowAt.eq_pyImage (h : (layOut fields).Accepted) (horder : (layOut fields).InOrder)
    (hfs : fs.map Prod.fst = (layOut fields).fieldOrder) (hlim : ∀ f ∈ fs, Limits f.1.dataType f.2)
    {b : Bytes} (hb : RowAt b (layOut fields) fs)
    (hlen : b.length = (layOut fields).totalByteLength + varTotal fs) : b = pyImage (layOut fields) fs := by
  refine At.eq ((at_pyImage_iff h horder hfs hlim).2 hb) ?_
  rw [hlen, length_pyImage (laidOut_layOut fields) h hfs]

end InOrder

end OpenViking.VectorDB
