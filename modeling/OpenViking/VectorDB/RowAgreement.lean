import OpenViking.VectorDB.RowOrder

/-!
# When rows survive

The two codecs as a whole.  Results:

* `codecs_agree_iff`: when the two codecs write the same rows, and read them back;
* `serialize_faithful_iff`: which rows `BytesRow::serialize` refuses or writes so that they are read back;
* `reads_grown`: rows read under a schema that has more fields.
-/

namespace OpenViking.VectorDB

open Buffer

/-! ## Rows written by either codec -/

section Written

variable {fields : List FieldDef} {S : Schema} {row : List Value} {b : Bytes}

/-- Every value of the row can be written. -/
def Schema.Within (S : Schema) (row : List Value) : Prop :=
  ∀ f ∈ S.fields row, Limits f.1.dataType f.2

section

variable (hS : Schema.ofFields fields = some S)

include hS

theorem decodeSlot_of_serialize (hrow : S.RowTyped row) (hlim : S.Within row) (hb : S.serialize row = .ok b) :
    ∀ f ∈ S.fields row, decodeSlot b f.1.offset f.1.dataType = some f.2 := by
  obtain ⟨rfl, h⟩ := ofFields_eq_some hS
  obtain ⟨hfits, -, hat⟩ := serialize_eq_ok (laidOut_layOut fields) h hrow hb
  exact fun f hf => hat.decodeSlot (offsetsFit_of_total hfits.2) hf (hrow.wellTyped f hf) (hlim f hf)

theorem decodes_of_serialize (hrow : S.RowGiven row)
    (hlim : S.Within row) (hb : S.serialize row = .ok b) : Decodes b (S.fields row) := by
  obtain ⟨rfl, h⟩ := ofFields_eq_some hS
  obtain ⟨hfits, -, hat⟩ := serialize_eq_ok (laidOut_layOut fields) h hrow.1 hb
  exact hat.decodes (offsetsFit_of_total hfits.2) hrow.1.wellTyped hlim hrow.2

theorem decodes_of_pySerialize (horder : S.InOrder)
    (hrow : S.RowGiven row) (hb : S.pySerialize row = .ok b) : Decodes b (S.fields row) := by
  obtain ⟨rfl, h⟩ := ofFields_eq_some hS
  obtain ⟨-, ⟨hlim, hoffs⟩, rfl⟩ := (pySerialize_ok_iff hrow.1).1 hb
  have hat := rowAt_pyImage h horder (map_fst_fields hrow.1) hlim
  exact hat.decodes hoffs hrow.1.wellTyped hlim hrow.2

/-- `BytesRow` writes the same bytes. -/
theorem serialize_eq_pySerialize (horder : S.InOrder)
    (hrow : S.RowTyped row) (hb : S.pySerialize row = .ok b) (hlen : b.length < 2 ^ 31) :
    S.serialize row = .ok b := by
  obtain ⟨rfl, h⟩ := ofFields_eq_some hS
  have hl := laidOut_layOut fields
  obtain ⟨-, ⟨hlim, -⟩, rfl⟩ := (pySerialize_ok_iff hrow).1 hb
  rw [length_pyImage hl h (map_fst_fields hrow)] at hlen
  have hfits : Fits (layOut fields).totalByteLength ((layOut fields).fields row) := by
    refine ⟨fun f hf hlong => ?_, hlen⟩
    have hlt := hlim f hf
    rw [hlong.1] at hlt
    have hlong := hlong.2
    change (stringOf f.2).length < 2 ^ 16 at hlt
    unfold stringMaxUint16Length at hlong
    omega
  obtain ⟨b, hb⟩ := serialize_isOk hrow hfits
  obtain ⟨-, hlen', hat⟩ := serialize_eq_ok hl h hrow hb
  rw [hb, hat.eq_pyImage h horder (map_fst_fields hrow) hlim hlen']

/-- A row of sample values is packed in Python. -/
theorem pySerialize_sampleRow (hn : fields.length < 2 ^ 8) (high : FieldMeta → Bool) :
    ∃ row, S.RowGiven row ∧ S.Within row ∧ S.fields row = sampleRow high S.fieldOrder ∧
      S.pySerialize row = .ok (pyImage S (S.fields row)) ∧ (pyImage S (S.fields row)).length < 2 ^ 31 := by
  obtain ⟨rfl, h⟩ := ofFields_eq_some hS
  have hl := laidOut_layOut fields
  have hlen : (layOut fields).metas.length = fields.length := length_metasFrom 1 fields
  have htotal := total_sampleRow_lt hl h (by omega) high
  set S := layOut fields
  set row := S.fieldOrder.map fun m => sampleValue (high m) m.dataType with hrow
  have hfields : S.fields row = sampleRow high S.fieldOrder := by
    have hzip := List.zip_map' (f := id) (g := fun m => sampleValue (high m) m.dataType)
      (l := S.fieldOrder)
    rwa [List.map_id] at hzip
  have htyped : S.RowTyped row := by
    rw [Schema.RowTyped, hrow, List.forall₂_map_right_iff, List.forall₂_same]
    exact fun m _ => wellTyped_sampleValue _ _
  have hsample : ∀ f ∈ S.fields row, Limits f.1.dataType f.2 ∧ TextsUtf8 f.1.dataType f.2 := by
    intro f hf
    rw [hfields] at hf
    obtain ⟨m, -, rfl⟩ := List.mem_map.1 hf
    exact ⟨limits_sampleValue _ _, textsUtf8_sampleValue _ _⟩
  rw [← hfields] at htotal
  refine ⟨row, ⟨htyped, fun f hf => (hsample f hf).2⟩, fun f hf => (hsample f hf).1, hfields, ?_, ?_⟩
  · refine (pySerialize_ok_iff htyped).2
      ⟨?_, ⟨fun f hf => (hsample f hf).1, offsetsFit_of_total htotal⟩, rfl⟩
    rw [h.length_fieldOrder, hlen]
    exact hn
  · rw [length_pyImage hl h (map_fst_fields htyped)]
    exact htotal

/-- The header and the size of a row that has been written. -/
theorem header_of_serialize (hrow : S.RowTyped row)
    (hb : S.serialize row = .ok b) : At b 0 (toLE 1 row.length) ∧ S.totalByteLength ≤ b.length := by
  obtain ⟨rfl, h⟩ := ofFields_eq_some hS
  obtain ⟨-, hlen, hat⟩ := serialize_eq_ok (laidOut_layOut fields) h hrow hb
  refine ⟨?_, by omega⟩
  rw [← List.Forall₂.length_eq hrow]
  exact hat.header

theorem header_of_pySerialize (hrow : S.RowTyped row)
    (hb : S.pySerialize row = .ok b) : At b 0 (toLE 1 row.length) ∧ S.totalByteLength ≤ b.length := by
  obtain ⟨rfl, h⟩ := ofFields_eq_some hS
  obtain ⟨-, -, rfl⟩ := (pySerialize_ok_iff hrow).1 hb
  have hlen := length_pyImage (laidOut_layOut fields) h (map_fst_fields hrow)
  refine ⟨?_, by omega⟩
  rw [← List.Forall₂.length_eq hrow]
  exact ((at_pyImage (laidOut_layOut fields) h (map_fst_fields hrow)).1 (at_self _)).1

end

end Written

/-! ## Schemas that grow -/

section Grown

variable {fields extra : List FieldDef} {S S' : Schema} {row : List Value} {b : Bytes}

theorem layOut_append (fields extra : List FieldDef) :
    ∃ more, (layOut (fields ++ extra)).metas = (layOut fields).metas ++ more :=
  ⟨_, metasFrom_append 1 fields extra⟩

section

variable (hS : Schema.ofFields fields = some S)

include hS

/-- The fields with the smaller ids are the old ones. -/
theorem mem_metas_grown (hS' : Schema.ofFields (fields ++ extra) = some S') {m : FieldMeta} :
    m ∈ S'.metas ∧ m.id < fields.length ↔ m ∈ S.metas := by
  obtain ⟨rfl, h⟩ := ofFields_eq_some hS
  obtain ⟨rfl, h'⟩ := ofFields_eq_some hS'
  obtain ⟨more, hmore⟩ := layOut_append fields extra
  have hlen : (layOut fields).metas.length = fields.length := length_metasFrom 1 fields
  have hsub : ∀ m ∈ (layOut fields).metas, m ∈ (layOut (fields ++ extra)).metas := by
    intro m hm
    rw [hmore]
    exact List.mem_append_left _ hm
  constructor
  · rintro ⟨hm, hid⟩
    obtain ⟨m', hm', hid'⟩ := h.exists_id (hlen ▸ hid)
    rwa [List.inj_on_of_nodup_map h'.nodup hm (hsub m' hm') hid'.symm]
  · exact fun hm => ⟨hsub m hm, hlen ▸ h.id_lt hm⟩

theorem length_row (hrow : S.RowTyped row) : row.length = fields.length := by
  rw [← List.Forall₂.length_eq hrow, (ofFields_eq_some hS).2.length_fieldOrder, (ofFields_eq_some hS).1]
  exact length_metasFrom 1 fields

section

variable (hS' : Schema.ofFields (fields ++ extra) = some S')

include hS'

/-- The row has the values of the same fields. -/
theorem mem_fields_grown (hrow : S.RowTyped row)
    (f : FieldMeta × Value) : f ∈ S'.fields row ↔ f ∈ S.fields row := by
  obtain ⟨m, v⟩ := f
  rw [mem_fields (ofFields_eq_some hS').2, mem_fields (ofFields_eq_some hS).2, ← mem_metas_grown hS hS',
    and_assoc]
  refine and_congr_right fun _ => ⟨fun hv => ⟨?_, hv⟩, And.right⟩
  rw [← length_row hS hrow]
  exact (List.getElem?_eq_some_iff.1 hv).1

/-- A row that has been written under the old schema is read from its slots. -/
theorem deserialize_grown_iff (hnames : S'.NamesDistinct)
    (hn : fields.length < 2 ^ 8) (hrow : S.RowTyped row)
    (hb : At b 0 (toLE 1 row.length) ∧ S.totalByteLength ≤ b.length) :
    S'.deserialize b =
        (S'.withDefaults FieldMeta.defaultValue row).map (fun f => (f.1.name, some f.2)) ↔
      ∀ f ∈ S.fields row, decodeSlot b f.1.offset f.1.dataType = some f.2 := by
  have hlen := length_row hS hrow
  have hl : S.LaidOut := (ofFields_eq_some hS).1 ▸ laidOut_layOut fields
  have hoff : ∀ m ∈ S'.metas, m.id < row.length → m.offset < b.length := by
    intro m hm hid
    rw [hlen] at hid
    have hbound := (hl.bounds m ((mem_metas_grown hS hS').1 ⟨hm, hid⟩)).2
    have hpos : 0 < m.dataType.byteLen := by cases m.dataType <;> decide
    omega
  rw [deserialize_iff (ofFields_eq_some hS').2 hnames hrow.monostate_notMem hb.1 (by omega) hoff]
  simp only [mem_fields_grown hS hS' hrow]

theorem reads_grown_iff (hnames : S'.NamesDistinct)
    (hn : fields.length < 2 ^ 8) (hrow : S.RowTyped row)
    (hb : At b 0 (toLE 1 row.length) ∧ S.totalByteLength ≤ b.length) :
    S'.Reads row b ↔ Decodes b (S.fields row) := by
  have hlen := length_row hS hrow
  rw [Schema.Reads, deserialize_grown_iff hS hS' hnames hn hrow hb,
    pyDeserialize_iff (ofFields_eq_some hS').2 hnames hrow.monostate_notMem hb.1 (by omega)]
  simp only [mem_fields_grown hS hS' hrow, Decodes, forall_and]

end

end

end Grown

/-! ## The main results -/

/-- What the two codecs promise each other for a row: what Python packs is what `BytesRow` writes, and both
read the row back from it. -/
def Schema.Agrees (S : Schema) (row : List Value) : Prop :=
  ∀ b, S.pySerialize row = .ok b → b.length < 2 ^ 31 →
    S.serialize row = .ok b ∧
      S.deserialize b = (S.named row).map (fun p => (p.1, some p.2)) ∧
      S.pyDeserialize b = .ok (S.named row)

theorem reads_iff_named {S : Schema} {row : List Value} (hrow : S.RowTyped row) {b : Bytes} :
    S.Reads row b ↔ S.deserialize b = (S.named row).map (fun p => (p.1, some p.2)) ∧
      S.pyDeserialize b = .ok (S.named row) := by
  rw [Schema.Reads, hrow.withDefaults, hrow.withDefaults, Schema.named, List.map_map]
  rfl

section Agree

variable {fields : List FieldDef} {S : Schema}

/-- **The two codecs agree and round-trip exactly when the fields are declared in the order of their ids**,
or when there are so many that Python packs no row. -/
theorem codecs_agree_iff (hS : Schema.ofFields fields = some S) (hnames : S.NamesDistinct) :
    (∀ row, S.RowGiven row → S.Agrees row) ↔ S.InOrder ∨ 255 < fields.length := by
  have hS' : Schema.ofFields (fields ++ []) = some S := by rw [List.append_nil, hS]
  have h := (ofFields_eq_some hS).2
  have hlen : S.fieldOrder.length = fields.length := by
    rw [h.length_fieldOrder, (ofFields_eq_some hS).1]
    exact length_metasFrom 1 fields
  constructor
  · intro hagree
    by_cases hn : fields.length < 2 ^ 8
    · left
      obtain ⟨rfl, -⟩ := ofFields_eq_some hS
      refine inOrder_of_decodes h (by rw [← h.length_fieldOrder, hlen]; exact hn) fun high => ?_
      obtain ⟨row, hrow, -, hfields, hb, hsmall⟩ := pySerialize_sampleRow hS hn high
      obtain ⟨-, hread⟩ := hagree row hrow _ hb hsmall
      rw [← hfields]
      exact (reads_grown_iff hS hS' hnames hn hrow.1 (header_of_pySerialize hS hrow.1 hb)).1
        ((reads_iff_named hrow.1).2 hread)
    · exact .inr (by omega)
  · rintro horder row hrow b hb hsmall
    have hn := ((pySerialize_ok_iff hrow.1).1 hb).1
    rw [hlen] at hn
    have horder : S.InOrder := horder.resolve_right (by omega)
    refine ⟨serialize_eq_pySerialize hS horder hrow.1 hb hsmall, (reads_iff_named hrow.1).1 ?_⟩
    exact (reads_grown_iff hS hS' hnames hn hrow.1 (header_of_pySerialize hS hrow.1 hb)).2
      (decodes_of_pySerialize hS horder hrow hb)

/-- Two fields, the second one declared with the first id. -/
def countAndFlag : List FieldDef :=
  [⟨"count", .int64, 1, .monostate⟩, ⟨"flag", .boolean, 0, .monostate⟩]

theorem ofFields_countAndFlag : Schema.ofFields countAndFlag = some (layOut countAndFlag) := by decide

theorem codecs_agree_iff_flagAndCount : (layOut countAndFlag.reverse).Agrees [.bool true, .int64 5] := by
  have hS : Schema.ofFields countAndFlag.reverse = some (layOut countAndFlag.reverse) := by decide
  refine (codecs_agree_iff hS (by unfold Schema.NamesDistinct; decide)).2 (.inl (by decide)) _
    ⟨.cons trivial (.cons trivial .nil), ?_⟩
  rintro f (_ | ⟨_, _ | ⟨_, hf⟩⟩)
  · trivial
  · trivial
  · cases hf

theorem rowGiven_countAndFlag (flag : Bool) (count : BitVec 64) :
    (layOut countAndFlag).RowGiven [.bool flag, .int64 count] :=
  ⟨.cons trivial (.cons trivial .nil), by
    rintro f (_ | ⟨_, _ | ⟨_, hf⟩⟩)
    · trivial
    · trivial
    · cases hf⟩

/-- The flag and the count of a row packed in Python: `BytesRow` writes other bytes, and both decoders read
another row. -/
theorem codecs_disagree_countAndFlag :
    Schema.ofFields countAndFlag = some (layOut countAndFlag) ∧
      (layOut countAndFlag).NamesDistinct ∧
      (layOut countAndFlag).RowGiven [.bool true, .int64 5] ∧
      (layOut countAndFlag).pySerialize [.bool true, .int64 5] = .ok [2, 1, 5, 0, 0, 0, 0, 0, 0, 0] ∧
      (layOut countAndFlag).serialize [.bool true, .int64 5] = .ok [2, 5, 0, 0, 0, 0, 0, 0, 0, 1] ∧
      (layOut countAndFlag).pyDeserialize [2, 1, 5, 0, 0, 0, 0, 0, 0, 0] =
        .ok [("flag", .bool false), ("count", .int64 1281)] ∧
      ¬ (layOut countAndFlag).Agrees [.bool true, .int64 5] := by
  refine ⟨ofFields_countAndFlag, by unfold Schema.NamesDistinct; decide, rowGiven_countAndFlag true 5,
    by decide, by decide, by decide, fun hagree => ?_⟩
  have heq := (hagree [2, 1, 5, 0, 0, 0, 0, 0, 0, 0] (by decide) (by decide)).1
  exact absurd heq (by decide)

/-- **Rows written under a schema are read under one with more fields**, each old field with its value and
each new one with its default: those that `BytesRow` writes always, by `_PyBytesRow` when its texts are UTF-8;
those that Python packs exactly when the old fields are declared in the order of their ids. -/
theorem reads_grown {extra : List FieldDef} {S' : Schema} (hS : Schema.ofFields fields = some S)
    (hS' : Schema.ofFields (fields ++ extra) = some S') (hnames : S'.NamesDistinct)
    (hn : (fields ++ extra).length ≤ 255) :
    (∀ row, S.RowTyped row → S.Within row → ∀ b, S.serialize row = .ok b →
        S'.deserialize b =
          (S'.withDefaults FieldMeta.defaultValue row).map (fun f => (f.1.name, some f.2))) ∧
      (∀ row, S.RowGiven row → S.Within row → ∀ b, S.serialize row = .ok b → S'.Reads row b) ∧
      ((∀ row, S.RowGiven row → S.Within row → ∀ b, S.pySerialize row = .ok b → S'.Reads row b) ↔
        S.InOrder) := by
  have hn : fields.length < 2 ^ 8 := by
    rw [List.length_append] at hn
    omega
  refine ⟨fun row hrow hlim b hb => ?_, fun row hrow hlim b hb => ?_, fun hread => ?_,
    fun horder row hrow _ b hb => ?_⟩
  · exact (deserialize_grown_iff hS hS' hnames hn hrow (header_of_serialize hS hrow hb)).2
      (decodeSlot_of_serialize hS hrow hlim hb)
  · exact (reads_grown_iff hS hS' hnames hn hrow.1 (header_of_serialize hS hrow.1 hb)).2
      (decodes_of_serialize hS hrow hlim hb)
  · obtain ⟨rfl, h⟩ := ofFields_eq_some hS
    have hlen : (layOut fields).metas.length = fields.length := length_metasFrom 1 fields
    refine inOrder_of_decodes h (hlen ▸ hn) fun high => ?_
    obtain ⟨row, hrow, hlim, hfields, hb, -⟩ := pySerialize_sampleRow hS hn high
    rw [← hfields]
    exact (reads_grown_iff hS hS' hnames hn hrow.1 (header_of_pySerialize hS hrow.1 hb)).1
      (hread row hrow hlim _ hb)
  · exact (reads_grown_iff hS hS' hnames hn hrow.1 (header_of_pySerialize hS hrow.1 hb)).2
      (decodes_of_pySerialize hS horder hrow hb)

/-- A field that is added later. -/
def scoreField : FieldDef := ⟨"score", .float32, 2, .float 0⟩

theorem ofFields_scoreField :
    Schema.ofFields (countAndFlag ++ [scoreField]) = some (layOut (countAndFlag ++ [scoreField])) := by
  decide

theorem reads_grown_countAndFlag :
    (∀ row, (layOut countAndFlag).RowTyped row → (layOut countAndFlag).Within row → ∀ b,
        (layOut countAndFlag).serialize row = .ok b →
          (layOut (countAndFlag ++ [scoreField])).deserialize b =
            ((layOut (countAndFlag ++ [scoreField])).withDefaults FieldMeta.defaultValue row).map
              (fun f => (f.1.name, some f.2))) ∧
      (∀ row, (layOut countAndFlag).RowGiven row → (layOut countAndFlag).Within row → ∀ b,
        (layOut countAndFlag).serialize row = .ok b →
          (layOut (countAndFlag ++ [scoreField])).Reads row b) ∧
      ((∀ row, (layOut countAndFlag).RowGiven row → (layOut countAndFlag).Within row → ∀ b,
        (layOut countAndFlag).pySerialize row = .ok b →
          (layOut (countAndFlag ++ [scoreField])).Reads row b) ↔ (layOut countAndFlag).InOrder) :=
  reads_grown ofFields_countAndFlag ofFields_scoreField (by unfold Schema.NamesDistinct; decide)
    (by decide)

/-- A row packed in Python, read under the schema with the field added. -/
theorem not_reads_grown_countAndFlag :
    Schema.ofFields countAndFlag = some (layOut countAndFlag) ∧
      Schema.ofFields (countAndFlag ++ [scoreField]) = some (layOut (countAndFlag ++ [scoreField])) ∧
      (layOut (countAndFlag ++ [scoreField])).NamesDistinct ∧
      (layOut countAndFlag).RowGiven [.bool true, .int64 5] ∧
      (layOut countAndFlag).Within [.bool true, .int64 5] ∧
      (layOut countAndFlag).pySerialize [.bool true, .int64 5] = .ok [2, 1, 5, 0, 0, 0, 0, 0, 0, 0] ∧
      (layOut (countAndFlag ++ [scoreField])).pyDeserialize [2, 1, 5, 0, 0, 0, 0, 0, 0, 0] =
        .ok [("flag", .bool false), ("count", .int64 1281), ("score", .float 0)] ∧
      ¬ (layOut (countAndFlag ++ [scoreField])).Reads [.bool true, .int64 5]
        [2, 1, 5, 0, 0, 0, 0, 0, 0, 0] := by
  have hwithin : (layOut countAndFlag).Within [.bool true, .int64 5] := by
    rintro f (_ | ⟨_, _ | ⟨_, hf⟩⟩)
    · trivial
    · trivial
    · cases hf
  refine ⟨ofFields_countAndFlag, ofFields_scoreField, by unfold Schema.NamesDistinct; decide,
    rowGiven_countAndFlag true 5, hwithin, by decide, by decide, fun hread => ?_⟩
  exact absurd hread.2 (by decide)

end Agree

section Faithful

variable {fields : List FieldDef} {S : Schema} {row : List Value}

/-- What is read under the field's name is its value.  Of fields with one name the last declared one is read,
`g`: its slot when its id is below the number in the header byte, else its default. -/
def Schema.Survives (S : Schema) (row : List Value) (f : FieldMeta × Value) : Prop :=
  ∃ g ∈ S.fields row, S.getFieldMeta f.1.name = some g.1 ∧
    if g.1.id < S.metas.length % 2 ^ 8 then Limits g.1.dataType g.2 ∧ f.2 = g.2
    else f.2 = g.1.defaultValue

/-- Either an exception, or bytes from which every field is read back. -/
def Schema.Faithful (S : Schema) (row : List Value) : Prop :=
  (∃ what, S.serialize row = .error (.invalidArgument what)) ∨
    ∃ b, S.serialize row = .ok b ∧ S.deserialize b = (S.named row).map fun p => (p.1, some p.2)

theorem exists_getFieldMeta (h : S.Accepted) (hrow : S.RowTyped row) {f : FieldMeta × Value}
    (hf : f ∈ S.fields row) :
    ∃ g ∈ S.fields row, S.getFieldMeta f.1.name = some g.1 ∧ g.1.name = f.1.name := by
  have hm : f.1 ∈ S.metas := ((mem_fields h).1 hf).1
  cases hget : S.getFieldMeta f.1.name with
  | none => exact absurd (List.find?_eq_none.1 hget f.1 (List.mem_reverse.2 hm)) (by simp)
  | some m =>
    have hmem : m ∈ S.metas := List.mem_reverse.1 (List.mem_of_find?_eq_some hget)
    have hname : m.name = f.1.name := by simpa using List.find?_some hget
    have hid : m.id < row.length := by
      rw [← List.Forall₂.length_eq hrow, h.length_fieldOrder]
      exact h.id_lt hmem
    exact ⟨(m, row[m.id]), (mem_fields h).2 ⟨hmem, List.getElem?_eq_getElem hid⟩, rfl, hname⟩

theorem deserialize_eq_named_iff (hrow : S.RowTyped row) {b : Bytes} :
    S.deserialize b = (S.named row).map (fun p => (p.1, some p.2)) ↔
      ∀ f ∈ S.fields row, S.deserializeField b f.1.name = some f.2 := by
  rw [Schema.deserialize, ← map_fst_fields hrow, Schema.named, List.map_map, List.map_map]
  simp only [List.map_inj_left, Function.comp_def, Prod.mk.injEq, true_and]

/-- Which fields are read back from bytes that have been written. -/
theorem deserialize_eq_named_iff_survives (hS : Schema.ofFields fields = some S)
    (hrow : S.RowTyped row) {b : Bytes} (hb : S.serialize row = .ok b) :
    S.deserialize b = (S.named row).map (fun p => (p.1, some p.2)) ↔
      ∀ f ∈ S.fields row, S.Survives row f := by
  obtain ⟨rfl, h⟩ := ofFields_eq_some hS
  have hl := laidOut_layOut fields
  obtain ⟨hfits, hlen, hat⟩ := serialize_eq_ok hl h hrow hb
  have hoffs := offsetsFit_of_total hfits.2
  have hoff : ∀ g ∈ (layOut fields).fields row, g.1.offset < b.length := by
    intro g hg
    have hbound := (hl.bounds g.1 ((mem_fields h).1 hg).1).2
    have hpos : 0 < g.1.dataType.byteLen := by cases g.1.dataType <;> decide
    omega
  have hheader := hat.header
  rw [h.length_fieldOrder] at hheader
  have hfield : ∀ g ∈ (layOut fields).fields row, Limits g.1.dataType g.2 →
      decodeSlot b g.1.offset g.1.dataType = some g.2 := fun g hg hlim =>
    hat.decodeSlot hoffs hg (hrow.wellTyped g hg) hlim
  rw [deserialize_eq_named_iff hrow]
  constructor
  · intro hread f hf
    obtain ⟨g, hg, hget, hname⟩ := exists_getFieldMeta h hrow hf
    refine ⟨g, hg, hget, ?_⟩
    have hf' := hread f hf
    split_ifs with hid
    · rw [deserializeField_below hget hheader hid (hoff g hg)] at hf'
      -- the field `g` is itself one of those that are read back
      have hg' := hread g hg
      rw [hname, deserializeField_below hget hheader hid (hoff g hg)] at hg'
      exact ⟨limits_of_decodeSlot hg', Option.some.inj (hf'.symm.trans hg')⟩
    · rw [deserializeField_default hget hheader (not_lt.1 hid)] at hf'
      exact (Option.some.inj hf').symm
  · intro hsurv f hf
    obtain ⟨g, hg, hget, hcond⟩ := hsurv f hf
    split_ifs at hcond with hid
    · rw [deserializeField_below hget hheader hid (hoff g hg), hcond.2]
      exact hfield g hg hcond.1
    · rw [deserializeField_default hget hheader (not_lt.1 hid), hcond]

/-- **What `BytesRow` does not corrupt**: a row is refused or read back exactly when it has a text that is
too long and everything before it fits, or it fits and each of its fields survives. -/
theorem serialize_faithful_iff (hS : Schema.ofFields fields = some S) (hrow : S.RowTyped row) :
    S.Faithful row ↔ Throws S.totalByteLength (S.fields row) ∨
      (Fits S.totalByteLength (S.fields row) ∧ ∀ f ∈ S.fields row, S.Survives row f) := by
  obtain ⟨hlayout, h⟩ := ofFields_eq_some hS
  have hl : S.LaidOut := hlayout ▸ laidOut_layOut fields
  refine or_congr (serialize_throws_iff hrow) ⟨?_, ?_⟩
  · rintro ⟨b, hb, hread⟩
    exact ⟨(serialize_eq_ok hl h hrow hb).1,
      (deserialize_eq_named_iff_survives hS hrow hb).1 hread⟩
  · rintro ⟨hfits, hsurv⟩
    obtain ⟨b, hb⟩ := serialize_isOk hrow hfits
    exact ⟨b, hb, (deserialize_eq_named_iff_survives hS hrow hb).2 hsurv⟩

/-- A field with a list of numbers. -/
def tagsField : FieldDef := ⟨"tags", .listInt64, 0, .monostate⟩

theorem ofFields_tagsField : Schema.ofFields [tagsField] = some (layOut [tagsField]) := by decide

theorem rowTyped_tagsField (vec : List (BitVec 64)) :
    (layOut [tagsField]).RowTyped [.listInt64 vec] := .cons trivial .nil

theorem serialize_faithful_iff_tagsField : (layOut [tagsField]).Faithful [.listInt64 [7]] := by
  refine (serialize_faithful_iff ofFields_tagsField (rowTyped_tagsField [7])).2
    (.inr ⟨by decide, fun f hf => ?_⟩)
  obtain rfl := List.mem_singleton.1 hf
  exact ⟨_, hf, by decide, by decide⟩

/-- A list of 65536 numbers is written with the length 0. -/
theorem not_faithful_tagsField :
    Schema.ofFields [tagsField] = some (layOut [tagsField]) ∧
      (layOut [tagsField]).RowTyped [.listInt64 (List.replicate 65536 0)] ∧
      ¬ (layOut [tagsField]).Faithful [.listInt64 (List.replicate 65536 0)] := by
  have hS := ofFields_tagsField
  have hrow := rowTyped_tagsField (List.replicate 65536 0)
  refine ⟨hS, hrow, ?_⟩
  have hfields : ∀ f ∈ (layOut [tagsField]).fields [.listInt64 (List.replicate 65536 0)],
      f.1.dataType = .listInt64 ∧ f.2 = .listInt64 (List.replicate 65536 0) := by
    rintro f (_ | ⟨_, hf⟩)
    · exact ⟨rfl, rfl⟩
    · cases hf
  rintro (hthrows | ⟨b, hb, hread⟩)
  · obtain ⟨pre, f, post, heq, -, hlong, -⟩ := (serialize_throws_iff hrow).1 hthrows
    have hf := (hfields f (by rw [heq]; simp)).1
    rw [hlong] at hf
    cases hf
  · have hsurv := (deserialize_eq_named_iff_survives hS hrow hb).1 hread
    obtain ⟨g, hg, -, hcond⟩ := hsurv _ List.mem_cons_self
    obtain ⟨htype, hval⟩ := hfields g hg
    have hid : g.1.id < (layOut [tagsField]).metas.length % 2 ^ 8 := by
      have := (mem_fields (ofFields_eq_some hS).2).1 hg
      exact (ofFields_eq_some hS).2.id_lt this.1
    rw [if_pos hid, htype, hval] at hcond
    have hlim : (List.replicate 65536 (0 : BitVec 64)).length < 2 ^ 16 := hcond.1
    rw [List.length_replicate] at hlim
    omega

end Faithful

end OpenViking.VectorDB
