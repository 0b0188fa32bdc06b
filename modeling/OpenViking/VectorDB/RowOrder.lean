import OpenViking.VectorDB.RowCodec

/-!
# Rows whose fields are declared out of order

`_PyBytesRow.serialize` packs the slots in the order of the ids, but a field's offset follows from the order
of the declaration.  Result:

* `inOrder_of_decodes`: when every row can be read back, the fields are declared in the order of their ids.
-/

namespace OpenViking.VectorDB

open Buffer

/-! ## Sample values -/

/-- Zero, or the empty value. -/
def lowValue : FieldType → Value
  | .int64 => .int64 0
  | .uint64 => .uint64 0
  | .float32 => .float 0
  | .string => .string []
  | .binary => .string []
  | .boolean => .bool false
  | .listInt64 => .listInt64 []
  | .listString => .listString []
  | .listFloat32 => .listFloat []

/-- One, or a value of length two. -/
def highValue : FieldType → Value
  | .int64 => .int64 1
  | .uint64 => .uint64 1
  | .float32 => .float 1
  | .string => .string [0, 0]
  | .binary => .string [0, 0]
  | .boolean => .bool true
  | .listInt64 => .listInt64 [0, 0]
  | .listString => .listString [[], []]
  | .listFloat32 => .listFloat [0, 0]

/-- A sample value of the type. -/
def sampleValue (high : Bool) (type : FieldType) : Value :=
  if high then highValue type else lowValue type

theorem wellTyped_sampleValue (high : Bool) (type : FieldType) :
    WellTyped type (sampleValue high type) := by
  cases high <;> cases type <;> trivial

theorem limits_sampleValue (high : Bool) (type : FieldType) : Limits type (sampleValue high type) := by
  cases high <;> cases type <;> decide

theorem textsUtf8_sampleValue (high : Bool) (type : FieldType) :
    TextsUtf8 type (sampleValue high type) := by
  cases high <;> cases type <;> decide

theorem varSize_sampleValue_le (high : Bool) (type : FieldType) :
    varSize type (sampleValue high type) ≤ 18 := by
  cases high <;> cases type <;> decide

theorem varSize_of_not_isVariable {type : FieldType} (h : type.isVariable = false) (v : Value) :
    varSize type v = 0 := by
  cases type <;> first | rfl | cases h

theorem fullVarBytes_of_not_isVariable {type : FieldType} (h : type.isVariable = false) (v : Value) :
    fullVarBytes type v = [] := by
  cases type <;> first | rfl | cases h

theorem slotBytes_of_isVariable {type : FieldType} (h : type.isVariable = true) (v : Value) (off : ℕ) :
    slotBytes type v off = toLE 4 off := by
  cases type <;> first | rfl | cases h

/-- The slots of zero and one differ in their first byte. -/
theorem slotBytes_sampleValue {type : FieldType} (h : type.isVariable = false) (high : Bool) (off : ℕ) :
    slotBytes type (sampleValue high type) off =
      UInt8.ofNat high.toNat :: List.replicate (type.byteLen - 1) 0 := by
  cases high <;> cases type <;> first | rfl | cases h

/-- The empty value begins with its length. -/
theorem fullVarBytes_lowValue {type : FieldType} (h : type.isVariable = true) :
    ∃ rest, fullVarBytes type (lowValue type) = 0 :: rest := by
  cases type <;> first | exact ⟨_, rfl⟩ | cases h

/-! ## What the decoders say about the bytes -/

variable {b : Bytes} {slot : ℕ} {type : FieldType}

variable {w n pos : ℕ}

theorem getElem?_of_readLE (h : readLE b slot (w + 1) = some n) :
    b[slot]? = some (UInt8.ofNat n) := (at_cons.1 (at_of_readLE h)).1

theorem eq_toNat_of_readLE {k : ℕ} {x : BitVec k} (h : readLE b slot w = some n)
    (hk : 256 ^ w = 2 ^ k) (hx : BitVec.ofNat k n = x) : n = x.toNat := by
  have hn := readLE_lt h
  rw [hk] at hn
  rw [← hx, BitVec.toNat_ofNat, Nat.mod_eq_of_lt hn]

/-- A value that stands in its slot tells whether the first byte of the slot is zero. -/
theorem getElem?_of_decodeSlot_inline (hinline : type.isVariable = false) {high : Bool}
    (h : decodeSlot b slot type = some (sampleValue high type)) : b[slot]? = some 0 ↔ high = false := by
  cases type with
  | int64 =>
    obtain ⟨n, hn, hv⟩ := Option.map_eq_some_iff.1 h
    rw [getElem?_of_readLE hn]
    cases high <;> rw [eq_toNat_of_readLE hn (by decide) (Value.int64.inj hv)] <;> decide
  | uint64 =>
    obtain ⟨n, hn, hv⟩ := Option.map_eq_some_iff.1 h
    rw [getElem?_of_readLE hn]
    cases high <;> rw [eq_toNat_of_readLE hn (by decide) (Value.uint64.inj hv)] <;> decide
  | float32 =>
    obtain ⟨n, hn, hv⟩ := Option.map_eq_some_iff.1 h
    rw [getElem?_of_readLE hn]
    cases high <;> rw [eq_toNat_of_readLE hn (by decide) (Value.float.inj hv)] <;> decide
  | boolean =>
    obtain ⟨n, hn, hv⟩ := Option.map_eq_some_iff.1 h
    have hlt := readLE_lt hn
    have hbyte : UInt8.ofNat n = 0 ↔ n = 0 := by
      rw [← UInt8.toNat_inj, UInt8.toNat_ofNat']
      simp
      omega
    rw [getElem?_of_readLE hn, Option.some.injEq, hbyte]
    cases high with
    | false => simpa using Value.bool.inj hv
    | true => simpa using Value.bool.inj hv
  | _ => cases hinline

/-- A value that is not the empty one has been read. -/
theorem readVariable_eq {read : ℕ → ℕ → Option Value} {empty v : Value}
    (h : readVariable b slot w read empty = v) (hne : v ≠ empty) :
    ∃ off n, readLE b slot 4 = some off ∧ readLE b off w = some n ∧ read (off + w) n = some v := by
  rw [readVariable] at h
  cases hoff : readLE b slot 4 with
  | none =>
    rw [hoff] at h
    exact absurd h.symm hne
  | some off =>
    rw [hoff] at h
    dsimp only at h
    cases hlen : readLE b off w with
    | none =>
      rw [hlen] at h
      exact absurd h.symm hne
    | some n =>
      rw [hlen] at h
      dsimp only at h
      cases hread : read (off + w) n with
      | none =>
        rw [hread] at h
        exact absurd h.symm hne
      | some u =>
        rw [hread] at h
        exact ⟨off, n, rfl, hlen, by rw [hread, ← h]; rfl⟩

theorem length_of_readText {s : Bytes} (h : readText b pos n = some (.string s)) : n = s.length := by
  rw [readText] at h
  split_ifs at h with hle
  have hs := Value.string.inj (Option.some.inj h)
  rw [← hs, List.length_take, List.length_drop]
  omega

theorem length_of_pyTexts {vec : List Bytes} (h : pyTexts b n pos = .ok vec) : n = vec.length := by
  induction n generalizing pos vec with
  | zero =>
    obtain rfl := Except.ok.inj h
    rfl
  | succ n ih =>
    rw [pyTexts] at h
    cases hlen : unpackFrom b pos 2 with
    | error e =>
      rw [hlen] at h
      cases h
    | ok len =>
      cases hs : pyText b (pos + 2) len with
      | error e =>
        simp [hlen, hs, bind, Except.bind] at h
      | ok s =>
        cases hrest : pyTexts b n (pos + 2 + len) with
        | error e =>
          simp [hlen, hs, hrest, bind, Except.bind] at h
        | ok rest =>
          simp only [hlen, hs, hrest, bind, Except.bind, Except.ok.injEq] at h
          rw [← h, List.length_cons, ih hrest]

theorem unpackFrom_ok (h : unpackFrom b pos w = .ok n) : readLE b pos w = some n := by
  rw [unpackFrom] at h
  cases hread : readLE b pos w with
  | none =>
    rw [hread] at h
    cases h
  | some k =>
    rw [hread] at h
    rw [Except.ok.inj h]

/-- A value of variable length tells its length, at the offset in its slot. -/
theorem readLE_of_decodes_variable (hvar : type.isVariable = true)
    (h : decodeSlot b slot type = some (highValue type))
    (hpy : pyDecodeSlot b slot type = .ok (highValue type)) :
    ∃ off w, 2 ≤ w ∧ readLE b slot 4 = some off ∧ readLE b off w = some 2 := by
  cases type with
  | string =>
    obtain ⟨off, n, hoff, hn, hread⟩ := readVariable_eq (Option.some.inj h) (by decide)
    obtain rfl : n = 2 := length_of_readText hread
    exact ⟨off, 2, le_rfl, hoff, hn⟩
  | binary =>
    obtain ⟨off, n, hoff, hn, hread⟩ := readVariable_eq (Option.some.inj h) (by decide)
    obtain rfl : n = 2 := length_of_readText hread
    exact ⟨off, 4, by decide, hoff, hn⟩
  | listInt64 =>
    obtain ⟨off, n, hoff, hn, hread⟩ := readVariable_eq (Option.some.inj h) (by decide)
    split_ifs at hread
    have hlen := congrArg List.length (Value.listInt64.inj (Option.some.inj hread))
    rw [List.length_map, length_readNumbers] at hlen
    obtain rfl : n = 2 := hlen
    exact ⟨off, 2, le_rfl, hoff, hn⟩
  | listFloat32 =>
    obtain ⟨off, n, hoff, hn, hread⟩ := readVariable_eq (Option.some.inj h) (by decide)
    split_ifs at hread
    have hlen := congrArg List.length (Value.listFloat.inj (Option.some.inj hread))
    rw [List.length_map, length_readNumbers] at hlen
    obtain rfl : n = 2 := hlen
    exact ⟨off, 2, le_rfl, hoff, hn⟩
  | listString =>
    -- `BytesRow` may give fewer texts than the list has, `_PyBytesRow` does not
    rw [pyDecodeSlot] at hpy
    cases hoff : unpackFrom b slot 4 with
    | error e =>
      rw [hoff] at hpy
      cases hpy
    | ok off =>
      cases hn : unpackFrom b off 2 with
      | error e => simp [hoff, hn, bind, Except.bind] at hpy
      | ok n =>
        cases hvec : pyTexts b n (off + 2) with
        | error e => simp [hoff, hn, hvec, bind, Except.bind] at hpy
        | ok vec =>
          simp only [hoff, hn, hvec, bind, Except.bind, Except.ok.injEq] at hpy
          have hlen := length_of_pyTexts hvec
          rw [Value.listString.inj hpy] at hlen
          obtain rfl : n = 2 := hlen
          exact ⟨off, 2, le_rfl, unpackFrom_ok hoff, unpackFrom_ok hn⟩
  | _ => cases hvar

/-! ## Two rows that tell the order -/

theorem exists_mismatch {α : Type} {l l' : List α} (hlen : l.length = l'.length) (h : l ≠ l') :
    ∃ pre a c post post', l = pre ++ a :: post ∧ l' = pre ++ c :: post' ∧ a ≠ c := by
  induction l generalizing l' with
  | nil =>
    have := List.length_eq_zero_iff.1 hlen.symm
    exact absurd this.symm h
  | cons a l ih =>
    cases l' with
    | nil => cases hlen
    | cons c l' =>
      by_cases hac : a = c
      · subst hac
        obtain ⟨pre, x, y, post, post', rfl, rfl, hne⟩ :=
          ih (Nat.succ.inj hlen) fun heq => h (by rw [heq])
        exact ⟨a :: pre, x, y, post, post', rfl, rfl, hne⟩
      · exact ⟨[], a, c, l, l', rfl, rfl, hac⟩

theorem offset_metasFrom {off : ℕ} {fields : List FieldDef} {pre post : List FieldMeta} {m : FieldMeta}
    (h : metasFrom off fields = pre ++ m :: post) :
    m.offset = off + (pre.map fun m => m.dataType.byteLen).sum := by
  induction pre generalizing off fields with
  | nil =>
    cases fields with
    | nil => cases h
    | cons field fields =>
      obtain ⟨rfl, -⟩ := List.cons.inj h
      rfl
  | cons a pre ih =>
    cases fields with
    | nil => cases h
    | cons field fields =>
      obtain ⟨rfl, hrest⟩ := List.cons.inj h
      rw [ih hrest, List.map_cons, List.sum_cons, Nat.add_assoc]

theorem placed_append (off : ℕ) (fs gs : List (FieldMeta × Value)) :
    placed off (fs ++ gs) = placed off fs ++ placed (off + varTotal fs) gs := by
  induction fs generalizing off with
  | nil => rfl
  | cons f fs ih => simp [placed, ih, varTotal_cons, Nat.add_assoc]

/-- The bytes before a field's slot, the slot, and the bytes behind it. -/
theorem pyImage_append_cons (S : Schema) (fs gs : List (FieldMeta × Value)) (f : FieldMeta × Value) :
    pyImage S (fs ++ f :: gs) =
      (toLE 1 S.fieldOrder.length ++ (pySlots S.totalByteLength fs).flatten) ++
        (slotBytes f.1.dataType f.2 (S.totalByteLength + varTotal fs) ++
          ((pySlots (S.totalByteLength + varTotal fs + varSize f.1.dataType f.2) gs).flatten ++
            (pyVars (fs ++ f :: gs)).flatten)) := by
  have hslots : pySlots S.totalByteLength (fs ++ f :: gs) = pySlots S.totalByteLength fs ++
      slotBytes f.1.dataType f.2 (S.totalByteLength + varTotal fs) ::
        pySlots (S.totalByteLength + varTotal fs + varSize f.1.dataType f.2) gs := by
    rw [pySlots, placed_append, List.map_append]
    rfl
  rw [pyImage, hslots]
  simp [List.append_assoc]

/-- A row of sample values. -/
def sampleRow (high : FieldMeta → Bool) (metas : List FieldMeta) : List (FieldMeta × Value) :=
  metas.map fun m => (m, sampleValue (high m) m.dataType)

theorem sampleRow_congr {high high' : FieldMeta → Bool} {metas : List FieldMeta}
    (h : ∀ m ∈ metas, high m = high' m) : sampleRow high metas = sampleRow high' metas :=
  List.map_congr_left fun m hm => by rw [h m hm]

theorem map_fst_sampleRow (high : FieldMeta → Bool) (metas : List FieldMeta) :
    (sampleRow high metas).map Prod.fst = metas := by
  simp [sampleRow, Function.comp_def]

theorem sum_byteLen_le (metas : List FieldMeta) :
    (metas.map fun m => m.dataType.byteLen).sum ≤ 8 * metas.length := by
  induction metas with
  | nil => exact le_rfl
  | cons m metas ih =>
    have hlen : m.dataType.byteLen ≤ 8 := by cases m.dataType <;> decide
    rw [List.map_cons, List.sum_cons, List.length_cons]
    omega

theorem varTotal_sampleRow_le (high : FieldMeta → Bool) (metas : List FieldMeta) :
    varTotal (sampleRow high metas) ≤ 18 * metas.length := by
  induction metas with
  | nil => exact le_rfl
  | cons m metas ih =>
    have hsize := varSize_sampleValue_le (high m) m.dataType
    rw [sampleRow, List.map_cons, varTotal_cons, List.length_cons]
    rw [sampleRow] at ih
    dsimp only
    omega

/-- A row of sample values is small. -/
theorem total_sampleRow_lt {S : Schema} (hl : S.LaidOut) (h : S.Accepted)
    (hn : S.metas.length < 2 ^ 8) (high : FieldMeta → Bool) :
    S.totalByteLength + varTotal (sampleRow high S.fieldOrder) < 2 ^ 31 := by
  have hfixed := sum_byteLen_le S.metas
  have hvar := varTotal_sampleRow_le high S.fieldOrder
  rw [h.length_fieldOrder] at hvar
  rw [hl.total]
  omega

section Mismatch

variable {S : Schema} {pre post : List FieldMeta} {t m : FieldMeta}

theorem length_before (high : FieldMeta → Bool) (pre : List FieldMeta) (S : Schema) :
    (toLE 1 S.fieldOrder.length ++
      (pySlots S.totalByteLength (sampleRow high pre)).flatten).length =
        1 + (pre.map fun m => m.dataType.byteLen).sum := by
  rw [List.length_append, length_toLE, length_flatten_pySlots, sampleRow, List.map_map]
  rfl

/-- The slot of the field `t` stands where `m` is expected. -/
theorem at_mismatch (hord : S.fieldOrder = pre ++ t :: post)
    (hoffset : m.offset = 1 + (pre.map fun m => m.dataType.byteLen).sum) (high : FieldMeta → Bool) :
    At (pyImage S (sampleRow high S.fieldOrder)) m.offset
      (slotBytes t.dataType (sampleValue (high t) t.dataType)
        (S.totalByteLength + varTotal (sampleRow high pre))) := by
  have hrow : sampleRow high S.fieldOrder =
      sampleRow high pre ++ (t, sampleValue (high t) t.dataType) :: sampleRow high post := by
    rw [hord, sampleRow, List.map_append]
    rfl
  rw [hrow, pyImage_append_cons, hoffset, ← length_before high pre S]
  have hself := at_self (slotBytes t.dataType (sampleValue (high t) t.dataType)
    (S.totalByteLength + varTotal (sampleRow high pre)) ++
      ((pySlots (S.totalByteLength + varTotal (sampleRow high pre) +
        varSize t.dataType (sampleValue (high t) t.dataType)) (sampleRow high post)).flatten ++
        (pyVars (sampleRow high pre ++ (t, sampleValue (high t) t.dataType) ::
          sampleRow high post)).flatten))
  exact (at_append.1 hself).1.append_left _

/-- When `m` stands in its slot, its value cannot be told from the slot of `t`. -/
theorem not_decodes_inline (hord : S.fieldOrder = pre ++ t :: post)
    (hoffset : m.offset = 1 + (pre.map fun m => m.dataType.byteLen).sum) (hm : m ∈ post)
    (hpre : m ∉ pre) (hne : t ≠ m) (hinline : m.dataType.isVariable = false) :
    ¬ ∀ high, Decodes (pyImage S (sampleRow high S.fieldOrder)) (sampleRow high S.fieldOrder) := by
  intro hdec
  have hmem : ∀ high, (m, sampleValue (high m) m.dataType) ∈ sampleRow high S.fieldOrder := by
    intro high
    rw [hord]
    exact List.mem_map.2 ⟨m, by simp [hm], rfl⟩
  have hlow := (hdec (fun _ => false) _ (hmem _)).1
  have hhigh := (hdec (fun m' => m' = m) _ (hmem _)).1
  have hbyte : (pyImage S (sampleRow (fun _ => false) S.fieldOrder))[m.offset]? =
      (pyImage S (sampleRow (fun m' => m' = m) S.fieldOrder))[m.offset]? := by
    have hrow : sampleRow (fun m' => decide (m' = m)) pre = sampleRow (fun _ => false) pre :=
      sampleRow_congr fun m' hm' => by simpa using fun heq : m' = m => hpre (heq ▸ hm')
    have h0 := at_mismatch hord hoffset fun _ => false
    have h1 := at_mismatch hord hoffset fun m' => m' = m
    rw [hrow, decide_eq_false hne] at h1
    have hpos : 0 < (slotBytes t.dataType (sampleValue false t.dataType)
        (S.totalByteLength + varTotal (sampleRow (fun _ => false) pre))).length := by
      rw [length_slotBytes]
      cases t.dataType <;> decide
    exact (h0 0 hpos).trans (h1 0 hpos).symm
  have hzero := (getElem?_of_decodeSlot_inline hinline hlow).2 rfl
  rw [hbyte] at hzero
  have := (getElem?_of_decodeSlot_inline hinline hhigh).1 hzero
  simp at this

/-- When both are of variable length, the slot leads to the value of `t`. -/
theorem not_decodes_variable (hl : S.LaidOut) (h : S.Accepted) (hn : S.metas.length < 2 ^ 8)
    (hord : S.fieldOrder = pre ++ t :: post)
    (hoffset : m.offset = 1 + (pre.map fun m => m.dataType.byteLen).sum) (hm : m ∈ post)
    (hne : t ≠ m) (hvar : m.dataType.isVariable = true) (hvar' : t.dataType.isVariable = true) :
    ¬ ∀ high, Decodes (pyImage S (sampleRow high S.fieldOrder)) (sampleRow high S.fieldOrder) := by
  intro hdec
  have hmem : (m, highValue m.dataType) ∈ sampleRow (fun m' => m' = m) S.fieldOrder := by
    rw [hord]
    exact List.mem_map.2 ⟨m, by simp [hm], by simp [sampleValue]⟩
  obtain ⟨hcpp, hpy⟩ := hdec (fun m' => m' = m) _ hmem
  obtain ⟨off, w, hw, hoff, hlen⟩ := readLE_of_decodes_variable hvar hcpp hpy
  -- the offset is that of the value of `t`
  have hslot := at_mismatch hord hoffset fun m' => m' = m
  rw [slotBytes_of_isVariable hvar'] at hslot
  have hplaced : ((t, lowValue t.dataType),
      S.totalByteLength + varTotal (sampleRow (fun m' => m' = m) pre)) ∈
        placed S.totalByteLength (sampleRow (fun m' => m' = m) S.fieldOrder) := by
    rw [hord, sampleRow, List.map_append, placed_append]
    refine List.mem_append_right _ ?_
    rw [List.map_cons, decide_eq_false hne]
    exact List.mem_cons_self
  have htotal := total_sampleRow_lt hl h hn fun m' => m' = m
  have hle := (le_of_mem_placed hplaced).2
  dsimp only at hle
  have hread := readLE_of_at hslot (by decide) (by omega)
  rw [hoff] at hread
  obtain rfl := Option.some.inj hread
  -- there the length of the empty value stands
  have hvars := ((at_pyImage hl h (map_fst_sampleRow (fun m' => m' = m) _)).1 (at_self _)).2.2
  have hval := at_vars.1 hvars _ hplaced
  obtain ⟨rest, hrest⟩ := fullVarBytes_lowValue hvar'
  rw [hrest] at hval
  obtain ⟨w, rfl⟩ := Nat.exists_eq_add_of_le' hw
  have htwo := getElem?_of_readLE (w := w + 1) hlen
  rw [(at_cons.1 hval).1] at htwo
  exact absurd htwo (by decide)

/-- The images of two rows that differ only in whether the value of `t` is zero or one. -/
theorem pyImage_differ (hord : S.fieldOrder = pre ++ t :: post)
    (hoffset : m.offset = 1 + (pre.map fun m => m.dataType.byteLen).sum)
    (hinline : t.dataType.isVariable = false) (hpre : t ∉ pre) (hpost : t ∉ post) (high : FieldMeta → Bool) :
    ∃ x y : Bytes, x.length = m.offset ∧ ∀ one : Bool,
      pyImage S (sampleRow (fun m' => if m' = t then one else high m') S.fieldOrder) =
        x ++ UInt8.ofNat one.toNat :: y := by
  refine ⟨toLE 1 S.fieldOrder.length ++ (pySlots S.totalByteLength (sampleRow high pre)).flatten,
    List.replicate (t.dataType.byteLen - 1) 0 ++
      ((pySlots (S.totalByteLength + varTotal (sampleRow high pre)) (sampleRow high post)).flatten ++
        ((pyVars (sampleRow high pre)).flatten ++ (pyVars (sampleRow high post)).flatten)),
    ?_, fun one => ?_⟩
  · rw [length_before, hoffset]
  · have hrest : ∀ metas, t ∉ metas →
        sampleRow (fun m' => if m' = t then one else high m') metas = sampleRow high metas := by
      intro metas ht
      exact sampleRow_congr fun m' hm' => if_neg fun heq : m' = t => ht (heq ▸ hm')
    have hrow : sampleRow (fun m' => if m' = t then one else high m') S.fieldOrder =
        sampleRow high pre ++ (t, sampleValue one t.dataType) :: sampleRow high post := by
      rw [hord, ← hrest pre hpre, ← hrest post hpost, sampleRow, List.map_append, List.map_cons,
        if_pos rfl]
      rfl
    have hvars : (pyVars (sampleRow high pre ++ (t, sampleValue one t.dataType) ::
        sampleRow high post)).flatten =
          (pyVars (sampleRow high pre)).flatten ++ (pyVars (sampleRow high post)).flatten := by
      simp [pyVars, fullVarBytes_of_not_isVariable hinline]
    rw [hrow, pyImage_append_cons, hvars]
    dsimp only
    rw [slotBytes_sampleValue hinline, varSize_of_not_isVariable hinline]
    simp [List.append_assoc]

/-- When only `m` is of variable length, the slot of `t` leads to two places. -/
theorem not_decodes_mixed (hord : S.fieldOrder = pre ++ t :: post)
    (hoffset : m.offset = 1 + (pre.map fun m => m.dataType.byteLen).sum) (hm : m ∈ post)
    (hne : t ≠ m) (hvar : m.dataType.isVariable = true) (hinline : t.dataType.isVariable = false)
    (hpre : t ∉ pre) (hpost : t ∉ post) :
    ¬ ∀ high, Decodes (pyImage S (sampleRow high S.fieldOrder)) (sampleRow high S.fieldOrder) := by
  intro hdec
  obtain ⟨x, y, hx, himage⟩ := pyImage_differ hord hoffset hinline hpre hpost fun m' => m' = m
  have hreads : ∀ one : Bool, ∃ off w, 2 ≤ w ∧
      readLE (x ++ UInt8.ofNat one.toNat :: y) m.offset 4 = some off ∧
        readLE (x ++ UInt8.ofNat one.toNat :: y) off w = some 2 := by
    intro one
    rw [← himage one]
    have hmem : (m, highValue m.dataType) ∈
        sampleRow (fun m' => if m' = t then one else m' = m) S.fieldOrder := by
      rw [hord]
      refine List.mem_map.2 ⟨m, by simp [hm], ?_⟩
      simp [sampleValue, hne.symm]
    obtain ⟨hcpp, hpy⟩ := hdec _ _ hmem
    exact readLE_of_decodes_variable hvar hcpp hpy
  obtain ⟨off, w, hw, hoff, hlen⟩ := hreads false
  obtain ⟨off', w', hw', hoff', hlen'⟩ := hreads true
  -- the offsets differ by one
  have hsucc : off' = off + 1 := by
    rw [← hx] at hoff hoff'
    rw [eq_of_readLE_append hoff, eq_of_readLE_append hoff']
    show 1 + 256 * ofLE (y.take 3) = 0 + 256 * ofLE (y.take 3) + 1
    omega
  subst hsucc
  obtain ⟨w, rfl⟩ := Nat.exists_eq_add_of_le' hw
  obtain ⟨w', rfl⟩ := Nat.exists_eq_add_of_le' hw'
  have hzero : (x ++ UInt8.ofNat (false.toNat) :: y)[off + 1]? = some 0 :=
    (at_cons.1 (at_cons.1 (at_of_readLE hlen)).2).1
  have htwo : (x ++ UInt8.ofNat (true.toNat) :: y)[off + 1]? = some 2 :=
    getElem?_of_readLE (w := w' + 1) hlen'
  by_cases hidx : off + 1 < x.length
  · rw [List.getElem?_append_left hidx] at hzero htwo
    rw [hzero] at htwo
    exact absurd htwo (by decide)
  · rw [List.getElem?_append_right (by omega)] at hzero htwo
    cases hk : off + 1 - x.length with
    | zero =>
      rw [hk, List.getElem?_cons_zero] at htwo
      exact absurd htwo (by decide)
    | succ k =>
      rw [hk] at hzero htwo
      rw [List.getElem?_cons_succ] at hzero htwo
      rw [hzero] at htwo
      exact absurd htwo (by decide)

end Mismatch

/-- **Rows that can all be read back are those of fields declared in the order of their ids.** -/
theorem inOrder_of_decodes {fields : List FieldDef} (h : (layOut fields).Accepted)
    (hn : (layOut fields).metas.length < 2 ^ 8)
    (hdec : ∀ high, Decodes (pyImage (layOut fields) (sampleRow high (layOut fields).fieldOrder))
      (sampleRow high (layOut fields).fieldOrder)) : (layOut fields).InOrder := by
  by_contra hno
  have hdiff : (layOut fields).fieldOrder ≠ (layOut fields).metas := by
    intro heq
    exact hno (by rw [Schema.InOrder, ← heq, h.map_id_fieldOrder, heq])
  obtain ⟨pre, t, m, post, post', hord, hmetas, hne⟩ := exists_mismatch h.length_fieldOrder hdiff
  have hoffset := @offset_metasFrom 1 _ _ _ _ hmetas
  have hnodup : (layOut fields).fieldOrder.Nodup :=
    (h.fieldOrder_perm.nodup_iff).2 (List.Nodup.of_map _ h.nodup)
  have hnodup' : (layOut fields).metas.Nodup := List.Nodup.of_map _ h.nodup
  rw [hmetas, List.nodup_append, List.nodup_cons] at hnodup'
  have hmpre : m ∉ pre := fun hm => hnodup'.2.2 m hm m List.mem_cons_self rfl
  have hm : m ∈ post := by
    have hmem : m ∈ (layOut fields).fieldOrder := by
      rw [h.mem_fieldOrder, hmetas]
      simp
    rw [hord] at hmem
    simpa [hmpre, hne.symm] using hmem
  rw [hord, List.nodup_append, List.nodup_cons] at hnodup
  have htpre : t ∉ pre := fun ht => hnodup.2.2 t ht t List.mem_cons_self rfl
  cases hvar : m.dataType.isVariable with
  | false => exact not_decodes_inline hord hoffset hm hmpre hne hvar hdec
  | true =>
    cases hvar' : t.dataType.isVariable with
    | false => exact not_decodes_mixed hord hoffset hm hne hvar hvar' htpre hnodup.2.1.1 hdec
    | true =>
      exact not_decodes_variable (laidOut_layOut fields) h hn hord hoffset hm hne hvar hvar' hdec

end OpenViking.VectorDB
