import OpenViking.VectorDB.RowLayout

/-!
# Reading the fields of a row

What `BytesRow::deserialize_field` and `_PyBytesRow.deserialize_field` make of the bytes of one field.
Results:

* `decodeSlot_of_at`, `pyDecodeSlot_of_at`: both give a value back that stands
  where it belongs;
* `limits_of_decodeSlot`: `BytesRow` never gives a value that is beyond the limits of the format.
-/

namespace OpenViking.VectorDB

open Buffer

variable {b : Bytes} {pos slot off : ℕ} {type : FieldType} {v : Value}

/-! ## Numbers and texts -/

theorem readNumbers_of_at {α : Type} {w : ℕ} {toNat : α → ℕ} (h : ∀ x, toNat x < 256 ^ w)
    {vec : List α} (hat : At b pos (vec.flatMap fun x => toLE w (toNat x))) :
    readNumbers b w vec.length pos = vec.map toNat := by
  induction vec generalizing pos with
  | nil => rfl
  | cons x vec ih =>
    rw [List.flatMap_cons, at_append, length_toLE] at hat
    have hslice := hat.1.slice
    rw [length_toLE] at hslice
    rw [List.length_cons, readNumbers, hslice, ofLE_toLE (h x), ih hat.2, List.map_cons]

theorem length_readNumbers (b : Bytes) (w n pos : ℕ) : (readNumbers b w n pos).length = n := by
  induction n generalizing pos with
  | zero => rfl
  | succ n ih => rw [readNumbers, List.length_cons, ih]

/-- The end of what stands at a position, also when it is empty. -/
theorem le_of_at_append {x y : Bytes} (hx : x ≠ []) (hat : At b pos (x ++ y)) :
    pos + x.length + y.length ≤ b.length := by
  have := hat.le (by simp [hx])
  rw [List.length_append] at this
  omega

variable {w n : ℕ}

theorem toLE_ne_nil (hw : 0 < w) : toLE w n ≠ [] := by
  rw [← List.length_pos_iff_ne_nil, length_toLE]
  exact hw

/-- A length in `w` bytes, then what it is the length of. -/
theorem at_length {x : Bytes} (hw : 0 < w) (hn : n < 256 ^ w) (hat : At b pos (toLE w n ++ x)) :
    readLE b pos w = some n ∧ At b (pos + w) x ∧ pos + w + x.length ≤ b.length := by
  have hle := le_of_at_append (toLE_ne_nil hw) hat
  rw [length_toLE] at hle
  rw [at_append, length_toLE] at hat
  exact ⟨readLE_of_at hat.1 hw hn, hat.2, hle⟩

theorem readText_of_at {s : Bytes} (hs : At b pos s) (hle : pos + s.length ≤ b.length) :
    readText b pos s.length = some (.string s) := by
  rw [readText, if_neg (by omega), hs.slice]

theorem readTexts_of_at {vec : List Bytes} (h : ∀ s ∈ vec, s.length < 2 ^ 16)
    (hat : At b pos (vec.flatMap fun s => toLE 2 s.length ++ s)) : readTexts b vec.length pos = vec := by
  induction vec generalizing pos with
  | nil => rfl
  | cons s vec ih =>
    rw [List.flatMap_cons, at_append] at hat
    obtain ⟨hlen, hs, hle⟩ := at_length (by decide) (h s List.mem_cons_self) hat.1
    have hrest := hat.2
    rw [List.length_append, length_toLE, ← Nat.add_assoc] at hrest
    have hnot : ¬ pos + 2 + s.length > b.length := by omega
    rw [List.length_cons, readTexts]
    simp only [hlen, if_neg hnot]
    rw [hs.slice, ih (fun t ht => h t (List.mem_cons_of_mem _ ht)) hrest]

theorem pyTexts_of_at {vec : List Bytes} (h : ∀ s ∈ vec, s.length < 2 ^ 16) (hutf : ∀ s ∈ vec, Utf8 s)
    (hat : At b pos (vec.flatMap fun s => toLE 2 s.length ++ s)) : pyTexts b vec.length pos = .ok vec := by
  induction vec generalizing pos with
  | nil => rfl
  | cons s vec ih =>
    rw [List.flatMap_cons, at_append] at hat
    obtain ⟨hlen, hs, -⟩ := at_length (by decide) (h s List.mem_cons_self) hat.1
    have hrest := hat.2
    rw [List.length_append, length_toLE, ← Nat.add_assoc] at hrest
    have hrec := ih (fun t ht => h t (List.mem_cons_of_mem _ ht))
      (fun t ht => hutf t (List.mem_cons_of_mem _ ht)) hrest
    rw [List.length_cons, pyTexts]
    simp [unpackFrom, hlen, pyText, hs.slice, hutf s List.mem_cons_self, hrec, bind, Except.bind]

/-! ## The decoders -/

/-- The texts of the value are valid UTF-8. -/
def TextsUtf8 : FieldType → Value → Prop
  | .string, v => Utf8 (stringOf v)
  | .listString, v => ∀ s ∈ listStringOf v, Utf8 s
  | _, _ => True

instance (type : FieldType) (v : Value) : Decidable (TextsUtf8 type v) := by
  unfold TextsUtf8
  split <;> infer_instance

theorem readVariable_of_at {x : Bytes} {read : ℕ → ℕ → Option Value} {empty : Value}
    (hw : 0 < w) (hn : n < 256 ^ w) (hslot : At b slot (toLE 4 off)) (hoff : off < 2 ^ 32)
    (hat : At b off (toLE w n ++ x)) (hread : read (off + w) n = some v) :
    readVariable b slot w read empty = v := by
  obtain ⟨hlen, -, -⟩ := at_length hw hn hat
  simp only [readVariable, readLE_of_at hslot (by decide) (by omega), hlen, hread, Option.getD_some]

theorem map_ofNat_toNat {n : ℕ} (vec : List (BitVec n)) :
    (vec.map BitVec.toNat).map (BitVec.ofNat n) = vec := by
  simp [Function.comp_def]

/-- **`BytesRow::deserialize_field` gives back the value that stands in a row.** -/
theorem decodeSlot_of_at (h : WellTyped type v) (hlim : Limits type v)
    (hoff : type.isVariable = true → off < 2 ^ 32)
    (hslot : At b slot (slotBytes type v off)) (hat : At b off (fullVarBytes type v)) :
    decodeSlot b slot type = some v := by
  cases type <;> cases v <;> try exact absurd h not_false
  case int64.int64 n =>
    simp [decodeSlot, readLE_of_at (n := n.toNat) hslot (by decide) (by have := n.isLt; omega)]
  case uint64.uint64 n =>
    simp [decodeSlot, readLE_of_at (n := n.toNat) hslot (by decide) (by have := n.isLt; omega)]
  case float32.float x =>
    simp [decodeSlot, readLE_of_at (n := x.toNat) hslot (by decide) (by have := x.isLt; omega)]
  case boolean.bool x =>
    have hread := readLE_of_at (n := x.toNat) hslot (by decide) (by cases x <;> decide)
    cases x <;> simp [decodeSlot, hread]
  case string.string s =>
    obtain ⟨-, hs, hle⟩ := at_length (by decide) hlim hat
    have hread : readText b (off + 2) s.length = some (.string s) := readText_of_at hs hle
    exact congrArg some (readVariable_of_at (by decide) hlim hslot (hoff rfl) hat hread)
  case binary.string s =>
    obtain ⟨-, hs, hle⟩ := at_length (by decide) hlim hat
    have hread : readText b (off + 4) s.length = some (.string s) := readText_of_at hs hle
    exact congrArg some (readVariable_of_at (by decide) hlim hslot (hoff rfl) hat hread)
  case listInt64.listInt64 vec =>
    obtain ⟨-, hvec, hle⟩ := at_length (by decide) hlim hat
    have hnums : readNumbers b 8 vec.length (off + 2) = vec.map BitVec.toNat :=
      readNumbers_of_at (fun n => n.isLt) hvec
    rw [length_flatMap_toLE] at hle
    have hnot : ¬ off + 2 + vec.length * 8 > b.length := not_lt.2 hle
    refine congrArg some (readVariable_of_at (n := vec.length) (by decide) hlim hslot (hoff rfl) hat ?_)
    rw [if_neg hnot, hnums, map_ofNat_toNat]
  case listFloat32.listFloat vec =>
    obtain ⟨-, hvec, hle⟩ := at_length (by decide) hlim hat
    have hnums : readNumbers b 4 vec.length (off + 2) = vec.map BitVec.toNat :=
      readNumbers_of_at (fun n => n.isLt) hvec
    rw [length_flatMap_toLE] at hle
    have hnot : ¬ off + 2 + vec.length * 4 > b.length := not_lt.2 hle
    refine congrArg some (readVariable_of_at (n := vec.length) (by decide) hlim hslot (hoff rfl) hat ?_)
    rw [if_neg hnot, hnums, map_ofNat_toNat]
  case listString.listString vec =>
    obtain ⟨-, hvec, -⟩ := at_length (by decide) hlim.1 hat
    have htexts : readTexts b vec.length (off + 2) = vec := readTexts_of_at hlim.2 hvec
    refine congrArg some (readVariable_of_at (n := vec.length) (by decide) hlim.1 hslot (hoff rfl) hat ?_)
    rw [htexts]

/-- **`_PyBytesRow.deserialize_field` gives back the value that stands in a row.** -/
theorem pyDecodeSlot_of_at (h : WellTyped type v) (hlim : Limits type v) (hutf : TextsUtf8 type v)
    (hoff : type.isVariable = true → off < 2 ^ 32) (hslot : At b slot (slotBytes type v off))
    (hat : At b off (fullVarBytes type v)) : pyDecodeSlot b slot type = .ok v := by
  cases type <;> cases v <;> try exact absurd h not_false
  case int64.int64 n =>
    simp [pyDecodeSlot, unpackFrom, bind, Except.bind,
      readLE_of_at (n := n.toNat) hslot (by decide) (by have := n.isLt; omega)]
  case uint64.uint64 n =>
    simp [pyDecodeSlot, unpackFrom, bind, Except.bind,
      readLE_of_at (n := n.toNat) hslot (by decide) (by have := n.isLt; omega)]
  case float32.float x =>
    simp [pyDecodeSlot, unpackFrom, bind, Except.bind,
      readLE_of_at (n := x.toNat) hslot (by decide) (by have := x.isLt; omega)]
  case boolean.bool x =>
    have hbyte := hslot 0 (by simp [slotBytes])
    cases x <;> simp_all [pyDecodeSlot, slotBytes, toLE]
  case string.string s =>
    obtain ⟨hlen, hs, -⟩ := at_length (by decide) hlim hat
    have hptr := readLE_of_at hslot (by decide) (hoff rfl)
    simp only [stringOf] at hs hlen hutf
    simp [pyDecodeSlot, unpackFrom, hptr, hlen, pyText, hs.slice, bind, Except.bind,
      show Utf8 s from hutf]
  case binary.string s =>
    obtain ⟨hlen, hs, -⟩ := at_length (by decide) hlim hat
    have hptr := readLE_of_at hslot (by decide) (hoff rfl)
    simp only [stringOf] at hs hlen
    simp [pyDecodeSlot, unpackFrom, hptr, hlen, hs.slice, bind, Except.bind]
  case listInt64.listInt64 vec =>
    obtain ⟨hlen, hvec, hle⟩ := at_length (by decide) hlim hat
    have hptr := readLE_of_at hslot (by decide) (hoff rfl)
    simp only [length_flatMap_toLE, listInt64Of] at hle hvec hlen
    simp [pyDecodeSlot, unpackFrom, hptr, hlen, pyNumbers, hle, bind, Except.bind,
      readNumbers_of_at (fun n => n.isLt) hvec, Function.comp_def]
  case listFloat32.listFloat vec =>
    obtain ⟨hlen, hvec, hle⟩ := at_length (by decide) hlim hat
    have hptr := readLE_of_at hslot (by decide) (hoff rfl)
    simp only [length_flatMap_toLE, listFloatOf] at hle hvec hlen
    simp [pyDecodeSlot, unpackFrom, hptr, hlen, pyNumbers, hle, bind, Except.bind,
      readNumbers_of_at (fun n => n.isLt) hvec, Function.comp_def]
  case listString.listString vec =>
    obtain ⟨hlen, hvec, -⟩ := at_length (by decide) hlim.1 hat
    have hptr := readLE_of_at hslot (by decide) (hoff rfl)
    have htexts : pyTexts b vec.length (off + 2) = .ok vec := pyTexts_of_at hlim.2 hutf hvec
    simp only [listStringOf] at hlen
    simp [pyDecodeSlot, unpackFrom, hptr, hlen, bind, Except.bind, htexts]

/-! ## What `BytesRow` can give -/

theorem ofLE_lt (x : Bytes) : ofLE x < 256 ^ x.length := by
  induction x with
  | nil => decide
  | cons d x ih =>
    have hd := d.toNat_lt
    rw [ofLE, List.length_cons, pow_succ]
    omega

theorem readLE_lt (h : readLE b off w = some n) : n < 256 ^ w := by
  rw [readLE] at h
  split_ifs at h with hle
  cases h
  refine (ofLE_lt _).trans_le (Nat.pow_le_pow_right (by decide) ?_)
  rw [List.length_take]
  exact min_le_left _ _

theorem length_readTexts_le (b : Bytes) (n pos : ℕ) :
    (readTexts b n pos).length ≤ n ∧ ∀ s ∈ readTexts b n pos, s.length < 2 ^ 16 := by
  induction n generalizing pos with
  | zero => simp [readTexts]
  | succ n ih =>
    rw [readTexts]
    cases hlen : readLE b pos 2 with
    | none => simp
    | some len =>
      dsimp only
      split_ifs with hle
      · simp
      · have := readLE_lt hlen
        obtain ⟨hn, hs⟩ := ih (pos + 2 + len)
        refine ⟨by simpa using hn, ?_⟩
        rintro s (_ | ⟨_, hmem⟩)
        · rw [List.length_take]
          omega
        · exact hs s hmem

/-- What is read behind a length of `w` bytes, or the empty value. -/
theorem readVariable_cases {w : ℕ} (b : Bytes) (slot : ℕ) (read : ℕ → ℕ → Option Value) (empty : Value) :
    readVariable b slot w read empty = empty ∨
      ∃ pos n, n < 256 ^ w ∧ read pos n = some (readVariable b slot w read empty) := by
  rw [readVariable]
  cases readLE b slot 4 with
  | none => exact .inl rfl
  | some off =>
    dsimp only
    cases hlen : readLE b off w with
    | none => exact .inl rfl
    | some n =>
      dsimp only
      cases hread : read (off + w) n with
      | none => exact .inl rfl
      | some v => exact .inr ⟨off + w, n, readLE_lt hlen, by simpa using hread⟩

/-- **`BytesRow::deserialize_field` never gives a value beyond the limits.** -/
theorem limits_of_decodeSlot (h : decodeSlot b slot type = some v) : Limits type v := by
  have hvar : ∀ {w : ℕ} {read : ℕ → ℕ → Option Value} {empty : Value},
      some (readVariable b slot w read empty) = some v → Limits type empty →
      (∀ pos n, n < 256 ^ w → ∀ u, read pos n = some u → Limits type u) → Limits type v := by
    intro w read empty heq hempty hread
    obtain rfl := Option.some.inj heq
    rcases readVariable_cases b slot read empty with heq | ⟨pos, n, hn, hv⟩
    · rw [heq]
      exact hempty
    · exact hread pos n hn _ hv
  cases type with
  | string =>
    refine hvar h (by decide) fun pos n hn u hu => ?_
    rw [readText] at hu
    split_ifs at hu
    cases hu
    show ((b.drop pos).take n).length < 2 ^ 16
    rw [List.length_take]
    omega
  | binary =>
    refine hvar h (by decide) fun pos n hn u hu => ?_
    rw [readText] at hu
    split_ifs at hu
    cases hu
    show ((b.drop pos).take n).length < 2 ^ 32
    rw [List.length_take]
    omega
  | listInt64 =>
    refine hvar h (by decide) fun pos n hn u hu => ?_
    split_ifs at hu
    cases hu
    show ((readNumbers b 8 n pos).map (BitVec.ofNat 64)).length < 2 ^ 16
    rw [List.length_map, length_readNumbers]
    exact hn
  | listFloat32 =>
    refine hvar h (by decide) fun pos n hn u hu => ?_
    split_ifs at hu
    cases hu
    show ((readNumbers b 4 n pos).map (BitVec.ofNat 32)).length < 2 ^ 16
    rw [List.length_map, length_readNumbers]
    exact hn
  | listString =>
    refine hvar h (by decide) fun pos n hn u hu => ?_
    cases hu
    obtain ⟨hlen, hs⟩ := length_readTexts_le b n pos
    exact ⟨lt_of_le_of_lt hlen hn, hs⟩
  | _ => trivial

end OpenViking.VectorDB
