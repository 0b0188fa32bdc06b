import OpenViking.VectorDB.RowDecode
import OpenViking.VectorDB.RowPacking

/-!
# Reading whole rows

Both decoders go through the fields in the order of their ids.  Results:

* `RowAt.decodes`: when every slot and value stands where the layout says, every field is read back;
* `deserialize_iff`, `pyDeserialize_iff`: what is read under a schema that has more fields than the row.
-/

namespace OpenViking.VectorDB

open Buffer

/-! ## Rows that are read back -/

/-- The fields have different names. -/
def Schema.NamesDistinct (S : Schema) : Prop := (S.metas.map FieldMeta.name).Nodup

/-- The row has a well-typed value for every field, its texts in UTF-8. -/
def Schema.RowGiven (S : Schema) (row : List Value) : Prop :=
  S.RowTyped row ∧ ∀ f ∈ S.fields row, TextsUtf8 f.1.dataType f.2

/-- The values of the row under the names of their fields. -/
def Schema.named (S : Schema) (row : List Value) : List (String × Value) :=
  (S.fields row).map fun f => (f.1.name, f.2)

/-- Both decoders find the value of every field at the place the schema has for it. -/
def Decodes (b : Bytes) (fs : List (FieldMeta × Value)) : Prop :=
  ∀ f ∈ fs, decodeSlot b f.1.offset f.1.dataType = some f.2 ∧
    pyDecodeSlot b f.1.offset f.1.dataType = .ok f.2

theorem exists_placed {off : ℕ} {fs : List (FieldMeta × Value)} {f : FieldMeta × Value} (hf : f ∈ fs) :
    ∃ e ∈ placed off fs, e.1 = f := by
  rw [← map_fst_placed off fs] at hf
  exact List.mem_map.1 hf

/-- The offsets of the values fit into their slots. -/
def OffsetsFit (off : ℕ) (fs : List (FieldMeta × Value)) : Prop :=
  ∀ e ∈ placed off fs, e.1.1.dataType.isVariable = true → e.2 < 2 ^ 32

theorem offsetsFit_of_total {off : ℕ} {fs : List (FieldMeta × Value)} (h : off + varTotal fs < 2 ^ 31) :
    OffsetsFit off fs := by
  intro e he _
  have := (le_of_mem_placed he).2
  omega

section RowAt

variable {S : Schema} {b : Bytes} {fs : List (FieldMeta × Value)} {f : FieldMeta × Value}

/-- Where a field's value stands. -/
theorem RowAt.field (h : RowAt b S fs) (hoffs : OffsetsFit S.totalByteLength fs) (hf : f ∈ fs)
    (hlim : Limits f.1.dataType f.2) :
    ∃ off, (f.1.dataType.isVariable = true → off < 2 ^ 32) ∧
      At b f.1.offset (slotBytes f.1.dataType f.2 off) ∧ At b off (fullVarBytes f.1.dataType f.2) := by
  obtain ⟨e, he, rfl⟩ := @exists_placed S.totalByteLength _ _ hf
  refine ⟨e.2, hoffs e he, h.slot e he, ?_⟩
  rw [← hlim.varBytes_eq]
  exact h.var e he

theorem RowAt.decodeSlot (h : RowAt b S fs) (hoffs : OffsetsFit S.totalByteLength fs) (hf : f ∈ fs)
    (htyped : WellTyped f.1.dataType f.2) (hlim : Limits f.1.dataType f.2) :
    VectorDB.decodeSlot b f.1.offset f.1.dataType = some f.2 := by
  obtain ⟨off, hoff, hslot, hat⟩ := h.field hoffs hf hlim
  exact decodeSlot_of_at htyped hlim hoff hslot hat

theorem RowAt.decodes (h : RowAt b S fs) (hoffs : OffsetsFit S.totalByteLength fs)
    (htyped : ∀ f ∈ fs, WellTyped f.1.dataType f.2) (hlim : ∀ f ∈ fs, Limits f.1.dataType f.2)
    (hutf : ∀ f ∈ fs, TextsUtf8 f.1.dataType f.2) : Decodes b fs := by
  intro f hf
  obtain ⟨off, hoff, hslot, hat⟩ := h.field hoffs hf (hlim f hf)
  exact ⟨h.decodeSlot hoffs hf (htyped f hf) (hlim f hf),
    pyDecodeSlot_of_at (htyped f hf) (hlim f hf) (hutf f hf) hoff hslot hat⟩

end RowAt

/-! ## One field of a row -/

theorem Schema.NamesDistinct.getFieldMeta {S : Schema} (h : S.NamesDistinct) {m : FieldMeta}
    (hm : m ∈ S.metas) : S.getFieldMeta m.name = some m := by
  rw [Schema.getFieldMeta]
  cases hf : S.metas.reverse.find? (fun m' => m'.name = m.name) with
  | none => exact absurd (List.find?_eq_none.1 hf m (List.mem_reverse.2 hm)) (by simp)
  | some m' =>
    have hm' := List.mem_reverse.1 (List.mem_of_find?_eq_some hf)
    have hname : m'.name = m.name := by simpa using List.find?_some hf
    rw [List.inj_on_of_nodup_map h hm' hm hname]

/-- The number of fields in the header. -/
theorem header_eq {b : Bytes} {n : ℕ} (h : At b 0 (toLE 1 n)) : ∃ rest, b = UInt8.ofNat n :: rest := by
  have hbyte := h 0 (by simp)
  cases b with
  | nil => cases hbyte
  | cons d rest =>
    obtain rfl : d = UInt8.ofNat n := by simpa [toLE] using hbyte
    exact ⟨rest, rfl⟩

section Field

variable {S : Schema} {b : Bytes} {name : String} {m : FieldMeta} {n : ℕ}

section

variable (hname : S.getFieldMeta name = some m)

include hname

section

variable (hheader : At b 0 (toLE 1 n))

include hheader

/-- A field whose id is below the number in the header is read from its slot. -/
theorem deserializeField_below
    (hid : m.id < n % 2 ^ 8) (hlen : m.offset < b.length) :
    S.deserializeField b name = decodeSlot b m.offset m.dataType := by
  obtain ⟨rest, rfl⟩ := header_eq hheader
  have hcount : ¬ m.id ≥ (List.headD (UInt8.ofNat n :: rest) 0).toNat := by
    rw [List.headD_cons, UInt8.toNat_ofNat']
    omega
  simp only [Schema.deserializeField, hname]
  rw [if_neg (not_le.2 hlen), if_neg hcount]

/-- A field whose id is not below the number in the header has its default. -/
theorem deserializeField_default (hid : n % 2 ^ 8 ≤ m.id) :
    S.deserializeField b name = some m.defaultValue := by
  obtain ⟨rest, rfl⟩ := header_eq hheader
  have hcount : m.id ≥ (List.headD (UInt8.ofNat n :: rest) 0).toNat := by
    rw [List.headD_cons, UInt8.toNat_ofNat']
    exact hid
  simp only [Schema.deserializeField, hname]
  rw [if_pos hcount, ite_self]

theorem pyDeserializeField_below
    (hid : m.id < n % 2 ^ 8) : S.pyDeserializeField b name = pyDecodeSlot b m.offset m.dataType := by
  obtain ⟨rest, rfl⟩ := header_eq hheader
  have hcount : ¬ m.id ≥ (UInt8.ofNat n).toNat := by
    rw [UInt8.toNat_ofNat']
    omega
  simp only [Schema.pyDeserializeField, hname]
  rw [if_neg hcount]

theorem pyDeserializeField_default (hid : n % 2 ^ 8 ≤ m.id) :
    S.pyDeserializeField b name = .ok m.pyDefaultValue := by
  obtain ⟨rest, rfl⟩ := header_eq hheader
  have hcount : m.id ≥ (UInt8.ofNat n).toNat := by
    rw [UInt8.toNat_ofNat']
    exact hid
  simp only [Schema.pyDeserializeField, hname]
  rw [if_pos hcount]

end

end

end Field

/-! ## All fields of a row -/

section Fields

variable {S : Schema} {row : List Value}

theorem mem_fields (h : S.Accepted) {m : FieldMeta} {v : Value} :
    (m, v) ∈ S.fields row ↔ m ∈ S.metas ∧ row[m.id]? = some v := by
  rw [Schema.fields, List.mem_iff_getElem?]
  simp only [List.getElem?_zip_eq_some, h.getElem?_fieldOrder]
  constructor
  · rintro ⟨i, ⟨hm, rfl⟩, hv⟩
    exact ⟨hm, hv⟩
  · rintro ⟨hm, hv⟩
    exact ⟨m.id, ⟨hm, rfl⟩, hv⟩

/-- The fields beyond the row have their defaults. -/
theorem withDefaults_eq (h : S.Accepted) (hrow : Value.monostate ∉ row) (defaultOf : FieldMeta → Value) :
    S.withDefaults defaultOf row =
      S.fieldOrder.map fun m => (m, (row[m.id]?).getD (defaultOf m)) := by
  apply List.ext_getElem?
  intro i
  rw [Schema.withDefaults, List.getElem?_mapIdx, List.getElem?_map]
  cases hm : S.fieldOrder[i]? with
  | none => rfl
  | some m =>
    obtain ⟨-, rfl⟩ := h.getElem?_fieldOrder.1 hm
    rw [Option.map_some, Option.map_some]
    cases hv : row[m.id]? with
    | none => rfl
    | some v =>
      have hne : v ≠ .monostate := fun heq => hrow (heq ▸ List.mem_of_getElem? hv)
      cases v <;> first | rfl | exact absurd rfl hne

theorem Schema.RowTyped.monostate_notMem (h : S.RowTyped row) : Value.monostate ∉ row := by
  intro hmem
  obtain ⟨⟨i, hi⟩, hget⟩ := List.get_of_mem hmem
  have htyped := (List.forall₂_iff_get.1 h).2 i (by rw [List.Forall₂.length_eq h]; exact hi) hi
  rw [hget] at htyped
  exact htyped.ne_monostate rfl

theorem mapM_ok {α β : Type} {f : α → Except CodecError β} {l : List α} {r : List β} :
    l.mapM f = .ok r ↔ List.Forall₂ (fun a c => f a = .ok c) l r := by
  induction l generalizing r with
  | nil =>
    rw [List.mapM_nil]
    constructor
    · intro h
      obtain rfl := Except.ok.inj h
      exact .nil
    · rintro ⟨⟩
      rfl
  | cons a l ih =>
    rw [List.mapM_cons]
    constructor
    · intro h
      cases hfa : f a with
      | error e =>
        rw [hfa] at h
        cases h
      | ok c =>
        cases hl : l.mapM f with
        | error e =>
          rw [hfa, hl] at h
          cases h
        | ok cs =>
          rw [hfa, hl] at h
          obtain rfl := Except.ok.inj h
          exact .cons hfa (ih.1 hl)
    · rintro (_ | ⟨hfa, hl⟩)
      rw [hfa, ih.2 hl]
      rfl

/-- Both decoders give the row's values, and defaults for the fields beyond it. -/
def Schema.Reads (S : Schema) (row : List Value) (b : Bytes) : Prop :=
  S.deserialize b =
      (S.withDefaults FieldMeta.defaultValue row).map (fun f => (f.1.name, some f.2)) ∧
    S.pyDeserialize b =
      .ok ((S.withDefaults FieldMeta.pyDefaultValue row).map fun f => (f.1.name, f.2))

section Reads

variable {b : Bytes}

/-- `BytesRow` reads the row's fields from their slots. -/
theorem deserialize_iff (h : S.Accepted) (hnames : S.NamesDistinct) (hrow : Value.monostate ∉ row)
    (hheader : At b 0 (toLE 1 row.length)) (hn : row.length < 2 ^ 8)
    (hlen : ∀ m ∈ S.metas, m.id < row.length → m.offset < b.length) :
    S.deserialize b = (S.withDefaults FieldMeta.defaultValue row).map (fun f => (f.1.name, some f.2)) ↔
      ∀ f ∈ S.fields row, decodeSlot b f.1.offset f.1.dataType = some f.2 := by
  have hmod : row.length % 2 ^ 8 = row.length := Nat.mod_eq_of_lt hn
  rw [withDefaults_eq h hrow, List.map_map, Schema.deserialize]
  simp only [List.map_inj_left, Function.comp_def, Prod.mk.injEq, true_and, h.mem_fieldOrder]
  constructor
  · rintro hread ⟨m, v⟩ hf
    obtain ⟨hm, hv⟩ := (mem_fields h).1 hf
    have hid : m.id < row.length := (List.getElem?_eq_some_iff.1 hv).1
    have hm' := hread m hm
    rwa [deserializeField_below (hnames.getFieldMeta hm) hheader (by omega) (hlen m hm hid), hv] at hm'
  · intro hdec m hm
    cases hv : row[m.id]? with
    | none =>
      have hid : row.length ≤ m.id := List.getElem?_eq_none_iff.1 hv
      exact deserializeField_default (hnames.getFieldMeta hm) hheader (by omega)
    | some v =>
      have hid : m.id < row.length := (List.getElem?_eq_some_iff.1 hv).1
      rw [deserializeField_below (hnames.getFieldMeta hm) hheader (by omega) (hlen m hm hid)]
      exact hdec (m, v) ((mem_fields h).2 ⟨hm, hv⟩)

/-- `_PyBytesRow` reads the row's fields from their slots. -/
theorem pyDeserialize_iff (h : S.Accepted) (hnames : S.NamesDistinct) (hrow : Value.monostate ∉ row)
    (hheader : At b 0 (toLE 1 row.length)) (hn : row.length < 2 ^ 8) :
    S.pyDeserialize b =
        .ok ((S.withDefaults FieldMeta.pyDefaultValue row).map fun f => (f.1.name, f.2)) ↔
      ∀ f ∈ S.fields row, pyDecodeSlot b f.1.offset f.1.dataType = .ok f.2 := by
  have hmod : row.length % 2 ^ 8 = row.length := Nat.mod_eq_of_lt hn
  have hpy : S.pyDeserialize b =
      .ok ((S.withDefaults FieldMeta.pyDefaultValue row).map fun f => (f.1.name, f.2)) ↔
        ∀ m ∈ S.metas, S.pyDeserializeField b m.name =
          .ok ((row[m.id]?).getD m.pyDefaultValue) := by
    rw [withDefaults_eq h hrow, List.map_map, Schema.pyDeserialize, mapM_ok, List.forall₂_map_right_iff,
      List.forall₂_same]
    simp only [Function.comp_def, h.mem_fieldOrder]
    refine forall₂_congr fun m _ => ?_
    cases S.pyDeserializeField b m.name with
    | error e => simp [bind, Except.bind]
    | ok v => simp [bind, Except.bind]
  rw [hpy]
  constructor
  · rintro hread ⟨m, v⟩ hf
    obtain ⟨hm, hv⟩ := (mem_fields h).1 hf
    have hid : m.id < row.length := (List.getElem?_eq_some_iff.1 hv).1
    have hm' := hread m hm
    rwa [pyDeserializeField_below (hnames.getFieldMeta hm) hheader (by omega), hv] at hm'
  · intro hdec m hm
    cases hv : row[m.id]? with
    | none =>
      have hid : row.length ≤ m.id := List.getElem?_eq_none_iff.1 hv
      exact pyDeserializeField_default (hnames.getFieldMeta hm) hheader (by omega)
    | some v =>
      have hid : m.id < row.length := (List.getElem?_eq_some_iff.1 hv).1
      rw [pyDeserializeField_below (hnames.getFieldMeta hm) hheader (by omega)]
      exact hdec (m, v) ((mem_fields h).2 ⟨hm, hv⟩)

end Reads

end Fields

end OpenViking.VectorDB
