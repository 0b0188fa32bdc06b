import OpenViking.Common.TopK
import OpenViking.VectorDB.BytesRow
import Mathlib.Algebra.Order.BigOperators.Group.List
import Mathlib.Data.List.Nodup
import Mathlib.Data.List.Perm.Basic
import Mathlib.Data.List.Range

/-!
# Where a row's fields stand

The slots of a row follow the order in which the fields are declared, the values of variable length the
order of their ids.  Results:

* `serialize_eq_ok`: when `BytesRow::serialize` gives bytes, each value stands where the layout says;
* `serialize_throws_iff`: when it throws.
-/

namespace OpenViking.VectorDB

open Buffer

/-! ## Schemas -/

/-- The ids of the fields are 0 to n - 1, each of them once. -/
def Schema.Accepted (S : Schema) : Prop :=
  (S.metas.map FieldMeta.id).Perm (List.range S.metas.length)

theorem length_metasFrom (off : ℕ) (fields : List FieldDef) :
    (metasFrom off fields).length = fields.length := by
  induction fields generalizing off with
  | nil => rfl
  | cons field fields ih => simp [metasFrom, ih]

theorem map_id_metasFrom (off : ℕ) (fields : List FieldDef) :
    (metasFrom off fields).map FieldMeta.id = fields.map fun field => field.id.toNat := by
  induction fields generalizing off with
  | nil => rfl
  | cons field fields ih => simp [metasFrom, ih]

theorem metasFrom_append (off : ℕ) (fields more : List FieldDef) :
    metasFrom off (fields ++ more) = metasFrom off fields ++
      metasFrom (off + (fields.map fun field => field.dataType.byteLen).sum) more := by
  induction fields generalizing off with
  | nil => rfl
  | cons field fields ih => simp [metasFrom, ih, Nat.add_assoc]

variable {off : ℕ}

/-- Slots of the right size, one after the other, stand at the offsets of their fields. -/
theorem place_metasFrom {τ : Type} {L : List τ} (metaOf : τ → FieldMeta) (slot : τ → Bytes)
    {fields : List FieldDef} (hL : L.map metaOf = metasFrom off fields)
    (h : ∀ e ∈ L, (slot e).length = (metaOf e).dataType.byteLen) :
    place off (L.map slot) = L.map fun e => ((metaOf e).offset, slot e) := by
  induction fields generalizing off L with
  | nil =>
    obtain rfl := List.map_eq_nil_iff.1 hL
    rfl
  | cons field fields ih =>
    obtain ⟨e, L, rfl, he, hrest⟩ := List.map_eq_cons_iff.1 hL
    have hlen := h e List.mem_cons_self
    have hoff : (metaOf e).offset = off := by rw [he]
    have htype : (metaOf e).dataType = field.dataType := by rw [he]
    rw [List.map_cons, List.map_cons, place, hlen, htype, hoff]
    congr 1
    exact ih hrest fun e' he' => h e' (List.mem_cons_of_mem _ he')

theorem sum_byteLen_metasFrom (off : ℕ) (fields : List FieldDef) :
    ((metasFrom off fields).map fun m => m.dataType.byteLen).sum =
      (fields.map fun field => field.dataType.byteLen).sum := by
  induction fields generalizing off with
  | nil => rfl
  | cons field fields ih => simp [metasFrom, ih]

/-- The slots of two fields do not overlap. -/
def MetaApart (a b : FieldMeta) : Prop :=
  a.offset + a.dataType.byteLen ≤ b.offset ∨ b.offset + b.dataType.byteLen ≤ a.offset

theorem MetaApart.symm {a b : FieldMeta} (h : MetaApart a b) : MetaApart b a := Or.symm h

/-- The layout of the slots: one after the other, behind the header. -/
structure Schema.LaidOut (S : Schema) : Prop where
  apart : S.metas.Pairwise MetaApart
  bounds : ∀ m ∈ S.metas, 1 ≤ m.offset ∧ m.offset + m.dataType.byteLen ≤ S.totalByteLength
  total : S.totalByteLength = 1 + (S.metas.map fun m => m.dataType.byteLen).sum

theorem laidOut_layOut (fields : List FieldDef) : (layOut fields).LaidOut := by
  have hplace : place 1 ((metasFrom 1 fields).map fun m =>
      (List.replicate m.dataType.byteLen 0 : Bytes)) =
        (metasFrom 1 fields).map fun m => (m.offset, List.replicate m.dataType.byteLen 0) :=
    place_metasFrom (fun m => m) _ (List.map_id' _) fun m _ => List.length_replicate
  have hlen : (((metasFrom 1 fields).map fun m =>
      (List.replicate m.dataType.byteLen 0 : Bytes)).flatten).length =
        (fields.map fun field => field.dataType.byteLen).sum := by
    rw [List.length_flatten, List.map_map, ← sum_byteLen_metasFrom 1]
    congr 1
    exact List.map_congr_left fun m _ => List.length_replicate
  refine ⟨?_, fun m hm => ?_, ?_⟩
  · have hpair := pairwise_place 1 ((metasFrom 1 fields).map fun m =>
      (List.replicate m.dataType.byteLen 0 : Bytes))
    rw [hplace, List.pairwise_map] at hpair
    exact hpair.imp fun h => by simpa [Apart, MetaApart] using h
  · have hmem : (m.offset, (List.replicate m.dataType.byteLen 0 : Bytes)) ∈
        place 1 ((metasFrom 1 fields).map fun m => List.replicate m.dataType.byteLen 0) := by
      rw [hplace]
      exact List.mem_map_of_mem hm
    have hle := le_of_mem_place hmem
    rw [hlen] at hle
    simpa [layOut] using hle
  · simp [layOut, sum_byteLen_metasFrom]

namespace Schema

variable {S : Schema}

theorem Accepted.nodup (h : S.Accepted) : (S.metas.map FieldMeta.id).Nodup :=
  h.nodup_iff.2 List.nodup_range

variable {m : FieldMeta}

/-- The field with an id. -/
theorem Accepted.find_iff (h : S.Accepted) {i : ℕ} :
    S.metas.reverse.find? (fun m => m.id = i) = some m ↔ m ∈ S.metas ∧ m.id = i := by
  constructor
  · intro hf
    exact ⟨List.mem_reverse.1 (List.mem_of_find?_eq_some hf), by simpa using List.find?_some hf⟩
  · rintro ⟨hm, rfl⟩
    cases hf : S.metas.reverse.find? (fun m' => m'.id = m.id) with
    | none => exact absurd (List.find?_eq_none.1 hf m (List.mem_reverse.2 hm)) (by simp)
    | some m' =>
      have hm' := List.mem_reverse.1 (List.mem_of_find?_eq_some hf)
      have hid : m'.id = m.id := by simpa using List.find?_some hf
      rw [List.inj_on_of_nodup_map h.nodup hm' hm hid]

theorem Accepted.find_eq (h : S.Accepted) (hm : m ∈ S.metas) :
    S.metas.reverse.find? (fun m' => m'.id = m.id) = some m := h.find_iff.2 ⟨hm, rfl⟩

theorem Accepted.exists_id (h : S.Accepted) {i : ℕ} (hi : i < S.metas.length) :
    ∃ m ∈ S.metas, m.id = i := by
  have : i ∈ S.metas.map FieldMeta.id := h.mem_iff.2 (List.mem_range.2 hi)
  simpa using this

theorem Accepted.id_lt (h : S.Accepted) (hm : m ∈ S.metas) :
    m.id < S.metas.length :=
  List.mem_range.1 (h.mem_iff.1 (List.mem_map_of_mem hm))

/-- `field_orders_` has the ids 0, 1, and so on. -/
theorem Accepted.map_id_fieldOrder (h : S.Accepted) :
    S.fieldOrder.map FieldMeta.id = List.range S.metas.length := by
  rw [fieldOrder, List.map_filterMap]
  have hsome : ∀ i ∈ List.range S.metas.length,
      (S.metas.reverse.find? fun m => m.id = i).map FieldMeta.id = some i := by
    intro i hi
    obtain ⟨m, hm, rfl⟩ := h.exists_id (List.mem_range.1 hi)
    rw [h.find_eq hm]
    rfl
  rw [List.filterMap_congr hsome, List.filterMap_some]

theorem Accepted.length_fieldOrder (h : S.Accepted) : S.fieldOrder.length = S.metas.length := by
  have := congrArg List.length h.map_id_fieldOrder
  simpa using this

theorem Accepted.mem_fieldOrder (h : S.Accepted) : m ∈ S.fieldOrder ↔ m ∈ S.metas := by
  rw [fieldOrder, List.mem_filterMap]
  constructor
  · rintro ⟨i, -, hf⟩
    exact (h.find_iff.1 hf).1
  · exact fun hm => ⟨m.id, List.mem_range.2 (h.id_lt hm), h.find_eq hm⟩

/-- The fields in the order of their ids are the declared ones. -/
theorem Accepted.fieldOrder_perm (h : S.Accepted) : S.fieldOrder.Perm S.metas := by
  have hnodup : S.fieldOrder.Nodup := by
    refine List.Nodup.of_map FieldMeta.id ?_
    rw [h.map_id_fieldOrder]
    exact List.nodup_range
  exact (List.perm_ext_iff_of_nodup hnodup (List.Nodup.of_map _ h.nodup)).2 fun m =>
    h.mem_fieldOrder

theorem Accepted.getElem?_fieldOrder (h : S.Accepted) {i : ℕ} :
    S.fieldOrder[i]? = some m ↔ m ∈ S.metas ∧ m.id = i := by
  have hid : ∀ {j : ℕ} {m' : FieldMeta}, S.fieldOrder[j]? = some m' → m'.id = j := by
    intro j m' hj
    have hlt : j < S.metas.length := by
      rw [← h.length_fieldOrder]
      exact (List.getElem?_eq_some_iff.1 hj).1
    have hmap := congrArg (fun l : List ℕ => l[j]?) h.map_id_fieldOrder
    simp only [List.getElem?_map, hj, Option.map_some, List.getElem?_range hlt] at hmap
    exact Option.some.inj hmap
  constructor
  · exact fun hi => ⟨h.mem_fieldOrder.1 (List.mem_of_getElem? hi), hid hi⟩
  · rintro ⟨hm, rfl⟩
    obtain ⟨j, hj⟩ := List.getElem?_of_mem (h.mem_fieldOrder.2 hm)
    rwa [hid hj]

/-- The fields are declared in the order of their ids. -/
def InOrder (S : Schema) : Prop := S.metas.map FieldMeta.id = List.range S.metas.length

instance (S : Schema) : Decidable S.InOrder := inferInstanceAs (Decidable (_ = _))

theorem Accepted.fieldOrder_eq (h : S.Accepted) (horder : S.InOrder) : S.fieldOrder = S.metas := by
  rw [fieldOrder, ← horder, List.filterMap_map]
  have hsome : ∀ m ∈ S.metas,
      ((fun i => S.metas.reverse.find? fun m => m.id = i) ∘ FieldMeta.id) m = some m :=
    fun m hm => h.find_eq hm
  rw [List.filterMap_congr hsome, List.filterMap_some]

theorem LaidOut.fieldOrder_apart (hl : S.LaidOut) (h : S.Accepted) :
    S.fieldOrder.Pairwise MetaApart :=
  (h.fieldOrder_perm.pairwise_iff MetaApart.symm).2 hl.apart

end Schema

variable {S : Schema}

/-- What `Schema::Schema` accepts. -/
theorem ofFields_eq_some {fields : List FieldDef} (h : Schema.ofFields fields = some S) :
    S = layOut fields ∧ S.Accepted := by
  unfold Schema.ofFields at h
  split_ifs at h with hnil hneg hmax hnodup
  · cases h
    subst hnil
    exact ⟨rfl, by simp [Schema.Accepted, layOut, metasFrom]⟩
  · obtain rfl : layOut fields = S := by simpa using h
    refine ⟨rfl, ?_⟩
    have hnonneg : ∀ field ∈ fields, 0 ≤ field.id := by simpa using hneg
    have hlt : ∀ field ∈ fields, field.id.toNat < fields.length := by
      intro field hfield
      have hle := (le_foldl_max (fields.map FieldDef.id) (-1)).2 field.id (List.mem_map_of_mem hfield)
      rw [← maxId, not_not.1 hmax] at hle
      have := hnonneg field hfield
      omega
    have hids : (fields.map fun field => field.id.toNat).Nodup := by
      have hcomp : (fields.map FieldDef.id).map Int.toNat = fields.map fun field => field.id.toNat := by
        simp
      rw [← hcomp]
      refine List.Nodup.map_on (fun a ha b hb heq => ?_) hnodup
      obtain ⟨f, hf, rfl⟩ := List.mem_map.1 ha
      obtain ⟨g, hg, rfl⟩ := List.mem_map.1 hb
      have := hnonneg f hf
      have := hnonneg g hg
      omega
    rw [Schema.Accepted, layOut, map_id_metasFrom, length_metasFrom]
    refine (List.subperm_of_subset hids fun n hn => ?_).perm_of_length_le (by simp)
    obtain ⟨field, hfield, rfl⟩ := List.mem_map.1 hn
    exact List.mem_range.2 (hlt field hfield)

/-! ## Rows -/

/-- The row has a well-typed value for every field. -/
def Schema.RowTyped (S : Schema) (row : List Value) : Prop :=
  List.Forall₂ (fun m v => WellTyped m.dataType v) S.fieldOrder row

variable {type : FieldType}

theorem WellTyped.ne_monostate {v : Value} (h : WellTyped type v) : v ≠ .monostate := by
  rintro rfl
  cases type <;> exact h

/-- The fields of a row. -/
def Schema.fields (S : Schema) (row : List Value) : List (FieldMeta × Value) := S.fieldOrder.zip row

variable {row : List Value}

/-- A row that has all values needs no defaults. -/
theorem Schema.RowTyped.withDefaults (h : S.RowTyped row)
    (defaultOf : FieldMeta → Value) : S.withDefaults defaultOf row = S.fields row := by
  apply List.ext_getElem?
  intro i
  rw [Schema.withDefaults, Schema.fields, List.zip_eq_zipWith, List.getElem?_mapIdx,
    List.getElem?_zipWith]
  cases hm : S.fieldOrder[i]? with
  | none => rfl
  | some m =>
    have hlt := (List.getElem?_eq_some_iff.1 hm).1
    rw [h.length_eq] at hlt
    have hv : row[i]? = some row[i] := List.getElem?_eq_getElem hlt
    have htyped := (List.forall₂_iff_get.1 h).2 i (by rw [h.length_eq]; exact hlt) hlt
    have hne : row[i] ≠ .monostate := htyped.ne_monostate
    simp only [hv, Option.map_some]

/-- The fields with the offsets of their values, the first one at `off`. -/
def placed : ℕ → List (FieldMeta × Value) → List ((FieldMeta × Value) × ℕ)
  | _, [] => []
  | off, f :: fs => (f, off) :: placed (off + varSize f.1.dataType f.2) fs

/-- The size of the variable region. -/
def varTotal (fs : List (FieldMeta × Value)) : ℕ := (fs.map fun f => varSize f.1.dataType f.2).sum

theorem varTotal_cons (f : FieldMeta × Value) (fs : List (FieldMeta × Value)) :
    varTotal (f :: fs) = varSize f.1.dataType f.2 + varTotal fs := by
  simp [varTotal]

theorem map_fst_placed (off : ℕ) (fs : List (FieldMeta × Value)) : (placed off fs).map Prod.fst = fs := by
  induction fs generalizing off with
  | nil => rfl
  | cons f fs ih => simp [placed, ih]

theorem zip_placed (off : ℕ) (fs : List (FieldMeta × Value)) :
    fs.zip ((placed off fs).map Prod.snd) = placed off fs := by
  induction fs generalizing off with
  | nil => rfl
  | cons f fs ih => simp [placed, ih]

variable {fs : List (FieldMeta × Value)}

theorem le_of_mem_placed {e : (FieldMeta × Value) × ℕ} (h : e ∈ placed off fs) :
    off ≤ e.2 ∧ e.2 + varSize e.1.1.dataType e.1.2 ≤ off + varTotal fs := by
  induction fs generalizing off with
  | nil => cases h
  | cons f fs ih =>
    rw [varTotal_cons]
    rcases List.mem_cons.1 h with rfl | h
    · exact ⟨le_refl _, by dsimp only; omega⟩
    · have := ih h
      omega

theorem pairwise_placed (off : ℕ) (fs : List (FieldMeta × Value)) :
    (placed off fs).Pairwise fun e e' => e.2 + varSize e.1.1.dataType e.1.2 ≤ e'.2 := by
  induction fs generalizing off with
  | nil => exact .nil
  | cons f fs ih => exact .cons (fun e he => (le_of_mem_placed he).1) (ih _)

/-! ## Sizes -/

@[simp] theorem length_slotBytes (type : FieldType) (v : Value) (off : ℕ) :
    (slotBytes type v off).length = type.byteLen := by
  cases type <;> simp [slotBytes, FieldType.byteLen]

theorem length_shortText_le (s : Bytes) : (shortText s).length ≤ 2 + s.length := by
  simp [shortText]

theorem length_flatMap_toLE {n w : ℕ} (vec : List (BitVec n)) :
    (vec.flatMap fun x => toLE w x.toNat).length = vec.length * w := by
  simp [List.length_flatMap]

/-- What is written to the variable region fits. -/
theorem length_varBytes_le (type : FieldType) (v : Value) : (varBytes type v).length ≤ varSize type v := by
  cases type with
  | string => exact length_shortText_le _
  | binary =>
    simp [varBytes, varSize]
  | listInt64 | listFloat32 =>
    simp only [varBytes, varSize, List.length_append, length_toLE, length_flatMap_toLE,
      List.length_take]
    omega
  | listString =>
    simp only [varBytes, varSize, List.length_append, length_toLE, List.length_flatMap]
    have : ∀ vec : List Bytes, (vec.map fun s => (shortText s).length).sum ≤
        (vec.map fun s => 2 + s.length).sum := by
      intro vec
      exact List.sum_le_sum fun s _ => length_shortText_le s
    have := this (listStringOf v)
    omega
  | _ => exact Nat.zero_le _

/-- The lengths of the value can be written: those of lists and of texts in them in 16 bits, that of a
byte string in 32 bits. -/
def Limits : FieldType → Value → Prop
  | .string, v => (stringOf v).length < 2 ^ 16
  | .binary, v => (stringOf v).length < 2 ^ 32
  | .listInt64, v => (listInt64Of v).length < 2 ^ 16
  | .listFloat32, v => (listFloatOf v).length < 2 ^ 16
  | .listString, v => (listStringOf v).length < 2 ^ 16 ∧ ∀ s ∈ listStringOf v, s.length < 2 ^ 16
  | _, _ => True

instance (type : FieldType) (v : Value) : Decidable (Limits type v) := by
  unfold Limits
  split <;> infer_instance

theorem shortText_eq {s : Bytes} (h : s.length < 2 ^ 16) : shortText s = toLE 2 s.length ++ s := by
  rw [shortText, Nat.mod_eq_of_lt h, List.take_length]

/-- What is written to the variable region, within the limits. -/
def fullVarBytes : FieldType → Value → Bytes
  | .string, v => toLE 2 (stringOf v).length ++ stringOf v
  | .binary, v => toLE 4 (stringOf v).length ++ stringOf v
  | .listInt64, v =>
    toLE 2 (listInt64Of v).length ++ (listInt64Of v).flatMap fun n => toLE 8 n.toNat
  | .listFloat32, v =>
    toLE 2 (listFloatOf v).length ++ (listFloatOf v).flatMap fun x => toLE 4 x.toNat
  | .listString, v =>
    toLE 2 (listStringOf v).length ++ (listStringOf v).flatMap fun s => toLE 2 s.length ++ s
  | _, _ => []

theorem Limits.varBytes_eq {v : Value} (h : Limits type v) : varBytes type v = fullVarBytes type v := by
  cases type with
  | string => exact shortText_eq h
  | binary =>
    have hlen : (stringOf v).length % 2 ^ 32 = (stringOf v).length := Nat.mod_eq_of_lt h
    rw [varBytes, hlen, List.take_length]
    rfl
  | listInt64 =>
    have hlen : (listInt64Of v).length % 2 ^ 16 = (listInt64Of v).length := Nat.mod_eq_of_lt h
    simp only [varBytes, fullVarBytes, hlen, List.take_length]
  | listFloat32 =>
    have hlen : (listFloatOf v).length % 2 ^ 16 = (listFloatOf v).length := Nat.mod_eq_of_lt h
    simp only [varBytes, fullVarBytes, hlen, List.take_length]
  | listString =>
    have htexts : (listStringOf v).flatMap shortText =
        (listStringOf v).flatMap fun s => toLE 2 s.length ++ s := by
      rw [List.flatMap_def, List.flatMap_def, List.map_congr_left fun s hs => shortText_eq (h.2 s hs)]
    rw [varBytes, fullVarBytes, htexts]
  | _ => rfl

theorem length_fullVarBytes (type : FieldType) (v : Value) :
    (fullVarBytes type v).length = varSize type v := by
  cases type <;> simp [fullVarBytes, varSize, List.length_flatMap]

/-! ## `BytesRow::serialize` -/

/-- The text is too long for a text field. -/
def TooLong (f : FieldMeta × Value) : Prop :=
  f.1.dataType = .string ∧ (stringOf f.2).length > stringMaxUint16Length

instance (f : FieldMeta × Value) : Decidable (TooLong f) := inferInstanceAs (Decidable (_ ∧ _))

/-- No text is too long, and the total size is an `int`. -/
def Fits (off : ℕ) (fs : List (FieldMeta × Value)) : Prop :=
  (∀ f ∈ fs, ¬ TooLong f) ∧ off + varTotal fs < 2 ^ 31

instance (off : ℕ) (fs : List (FieldMeta × Value)) : Decidable (Fits off fs) :=
  inferInstanceAs (Decidable (_ ∧ _))

/-- There is a text that is too long, and what comes before it fits. -/
def Throws (off : ℕ) (fs : List (FieldMeta × Value)) : Prop :=
  ∃ pre f post, fs = pre ++ f :: post ∧ Fits off pre ∧ TooLong f

theorem fits_cons {f : FieldMeta × Value} :
    Fits off (f :: fs) ↔ ¬ TooLong f ∧ Fits (off + varSize f.1.dataType f.2) fs := by
  simp only [Fits, List.forall_mem_cons, varTotal_cons, and_assoc, Nat.add_assoc]

theorem throws_cons {f : FieldMeta × Value} :
    Throws off (f :: fs) ↔
      off < 2 ^ 31 ∧ (TooLong f ∨ (¬ TooLong f ∧ Throws (off + varSize f.1.dataType f.2) fs)) := by
  constructor
  · rintro ⟨pre, g, post, heq, hfits, hlong⟩
    have hoff := hfits.2
    refine ⟨by omega, ?_⟩
    cases pre with
    | nil =>
      obtain ⟨rfl, rfl⟩ := List.cons.inj heq
      exact .inl hlong
    | cons h pre =>
      obtain ⟨rfl, rfl⟩ := List.cons.inj heq
      rw [fits_cons] at hfits
      exact .inr ⟨hfits.1, pre, g, post, rfl, hfits.2, hlong⟩
  · rintro ⟨hoff, hlong | ⟨hshort, pre, g, post, rfl, hfits, hlong⟩⟩
    · exact ⟨[], f, fs, rfl, ⟨by simp, by simpa [varTotal] using hoff⟩, hlong⟩
    · exact ⟨f :: pre, g, post, rfl, fits_cons.2 ⟨hshort, hfits⟩, hlong⟩

/-- What the first pass gives. -/
theorem varInfos_eq (off : ℕ) (fs : List (FieldMeta × Value)) (h : Fits off fs) :
    varInfos fs off = .ok ((placed off fs).map Prod.snd, off + varTotal fs) := by
  induction fs generalizing off with
  | nil =>
    have hoff : off < 2 ^ 31 := by simpa [varTotal] using h.2
    rw [varInfos, if_pos hoff]
    rfl
  | cons f fs ih =>
    have hsum := h.2
    rw [fits_cons] at h
    have hlt : off < 2 ^ 31 := by omega
    have hshort : ¬ (f.1.dataType = .string ∧ (stringOf f.2).length > stringMaxUint16Length) := h.1
    rw [varInfos, if_pos hlt, if_neg hshort, ih _ h.2, varTotal_cons, Nat.add_assoc]
    rfl

/-- When the first pass throws. -/
theorem varInfos_throws : (∃ what, varInfos fs off = .error (.invalidArgument what)) ↔ Throws off fs := by
  induction fs generalizing off with
  | nil =>
    rw [varInfos]
    by_cases hoff : off < 2 ^ 31
    · rw [if_pos hoff]
      simp [Throws]
    · rw [if_neg hoff]
      simp [Throws]
  | cons f fs ih =>
    rw [throws_cons]
    by_cases hoff : off < 2 ^ 31
    · rw [varInfos, if_pos hoff]
      by_cases hlong : TooLong f
      · have hif : f.1.dataType = .string ∧ (stringOf f.2).length > stringMaxUint16Length := hlong
        rw [if_pos hif]
        exact ⟨fun _ => ⟨hoff, .inl hlong⟩, fun _ => ⟨_, rfl⟩⟩
      · have hif : ¬ (f.1.dataType = .string ∧ (stringOf f.2).length > stringMaxUint16Length) :=
          hlong
        rw [if_neg hif]
        simp only [hoff, hlong, false_or, not_false_iff, true_and, ← ih]
        cases varInfos fs (off + varSize f.1.dataType f.2) with
        | error e => simp [bind, Except.bind]
        | ok r => simp [bind, Except.bind]
    · rw [varInfos, if_neg hoff]
      simp only [Except.error.injEq, reduceCtorEq, exists_false, hoff, false_and]

theorem varInfos_ok {r : List ℕ × ℕ} (h : varInfos fs off = .ok r) : Fits off fs := by
  induction fs generalizing off r with
  | nil =>
    rw [varInfos] at h
    split_ifs at h with hoff
    exact ⟨by simp, by simpa [varTotal] using hoff⟩
  | cons f fs ih =>
    rw [varInfos] at h
    split_ifs at h with hoff hlong
    cases hrest : varInfos fs (off + varSize f.1.dataType f.2) with
    | error e =>
      rw [hrest] at h
      cases h
    | ok r' => exact fits_cons.2 ⟨hlong, ih hrest⟩

/-- The slots and the values stand where the layout says. -/
structure RowAt (b : Bytes) (S : Schema) (fs : List (FieldMeta × Value)) : Prop where
  header : At b 0 (toLE 1 S.fieldOrder.length)
  slot : ∀ e ∈ placed S.totalByteLength fs,
    At b e.1.1.offset (slotBytes e.1.1.dataType e.1.2 e.2)
  var : ∀ e ∈ placed S.totalByteLength fs, At b e.2 (varBytes e.1.1.dataType e.1.2)

theorem mem_fieldWrites {e : (FieldMeta × Value) × ℕ} {w : ℕ × Bytes} (h : w ∈ fieldWrites e) :
    w = (e.1.1.offset, slotBytes e.1.1.dataType e.1.2 e.2) ∨
      w = (e.2, varBytes e.1.1.dataType e.1.2) := by
  simp only [fieldWrites, List.mem_cons] at h
  split_ifs at h
  · simpa using h
  · exact .inl (by simpa using h)

/-- The writes for two fields do not overlap. -/
theorem apart_of_mem_fieldWrites (hl : S.LaidOut) {e e' : (FieldMeta × Value) × ℕ}
    (he : e.1.1 ∈ S.metas) (he' : e'.1.1 ∈ S.metas) (hoff : S.totalByteLength ≤ e.2)
    (hoff' : S.totalByteLength ≤ e'.2) (hslots : MetaApart e.1.1 e'.1.1)
    (hvars : e.2 + varSize e.1.1.dataType e.1.2 ≤ e'.2) :
    ∀ w ∈ fieldWrites e, ∀ w' ∈ fieldWrites e', Apart w w' := by
  have hb := (hl.bounds _ he).2
  have hb' := (hl.bounds _ he').2
  have hlen := length_varBytes_le e.1.1.dataType e.1.2
  intro w hw w' hw'
  rcases mem_fieldWrites hw with rfl | rfl <;> rcases mem_fieldWrites hw' with rfl | rfl
  · simpa [Apart, MetaApart] using hslots
  · exact .inl (by simp only [length_slotBytes]; omega)
  · exact .inr (by simp only [length_slotBytes]; omega)
  · exact .inl (by dsimp only; omega)

theorem varBytes_of_not_isVariable (h : type.isVariable = false) (v : Value) : varBytes type v = [] := by
  cases type <;> first | rfl | cases h

section Writes

variable {S : Schema} {fs : List (FieldMeta × Value)}

/-- The fields of a row are those of the schema, in the order of the ids. -/
theorem mem_metas_of_placed (h : S.Accepted) (hfs : fs.map Prod.fst = S.fieldOrder)
    {e : (FieldMeta × Value) × ℕ} {off : ℕ} (he : e ∈ placed off fs) : e.1.1 ∈ S.metas := by
  rw [← h.mem_fieldOrder, ← hfs]
  have : e.1 ∈ (placed off fs).map Prod.fst := List.mem_map_of_mem he
  rw [map_fst_placed] at this
  exact List.mem_map_of_mem this

theorem pairwise_writes (hl : S.LaidOut) (h : S.Accepted) (hfs : fs.map Prod.fst = S.fieldOrder) :
    ((placed S.totalByteLength fs).flatMap fieldWrites).Pairwise Apart := by
  rw [List.pairwise_flatMap]
  constructor
  · intro e he
    have hb := (hl.bounds _ (mem_metas_of_placed h hfs he)).2
    have hoff := (le_of_mem_placed he).1
    simp only [fieldWrites]
    split_ifs
    · refine List.pairwise_pair.2 (.inl ?_)
      simp only [length_slotBytes]
      omega
    · exact List.pairwise_singleton _ _
  · have hslots : (placed S.totalByteLength fs).Pairwise fun e e' => MetaApart e.1.1 e'.1.1 := by
      have := hl.fieldOrder_apart h
      rw [← hfs, ← map_fst_placed S.totalByteLength fs, List.pairwise_map, List.pairwise_map] at this
      exact this
    have hboth := List.Pairwise.and_mem.1 (hslots.and (pairwise_placed S.totalByteLength fs))
    refine hboth.imp fun {e e'} hee => ?_
    obtain ⟨he, he', hslot, hvar⟩ := hee
    exact apart_of_mem_fieldWrites hl (mem_metas_of_placed h hfs he) (mem_metas_of_placed h hfs he')
      (le_of_mem_placed he).1 (le_of_mem_placed he').1 hslot hvar

theorem bound_writes (hl : S.LaidOut) (h : S.Accepted) (hfs : fs.map Prod.fst = S.fieldOrder)
    {w : ℕ × Bytes} (hw : w ∈ (placed S.totalByteLength fs).flatMap fieldWrites) :
    1 ≤ w.1 ∧ w.1 + w.2.length ≤ S.totalByteLength + varTotal fs := by
  obtain ⟨e, he, hw⟩ := List.mem_flatMap.1 hw
  obtain ⟨hpos, hb⟩ := hl.bounds _ (mem_metas_of_placed h hfs he)
  obtain ⟨hoff, hend⟩ := le_of_mem_placed he
  have hlen := length_varBytes_le e.1.1.dataType e.1.2
  rcases mem_fieldWrites hw with rfl | rfl
  · simp only [length_slotBytes]
    omega
  · dsimp only
    omega

/-- `BytesRow::serialize` puts everything where it belongs. -/
theorem rowAt_writes (hl : S.LaidOut) (h : S.Accepted) (hfs : fs.map Prod.fst = S.fieldOrder) :
    let b := writeAll (patch (List.replicate (S.totalByteLength + varTotal fs) 0) 0
      (toLE 1 S.fieldOrder.length)) ((placed S.totalByteLength fs).flatMap fieldWrites)
    b.length = S.totalByteLength + varTotal fs ∧ RowAt b S fs := by
  intro b
  have hpos : 0 < S.totalByteLength := by
    rw [hl.total]
    omega
  -- the header is one more write
  have hb : b = writeAll (List.replicate (S.totalByteLength + varTotal fs) 0)
      ((0, toLE 1 S.fieldOrder.length) :: (placed S.totalByteLength fs).flatMap fieldWrites) := rfl
  have hbound : ∀ w ∈ (0, toLE 1 S.fieldOrder.length) ::
      (placed S.totalByteLength fs).flatMap fieldWrites,
      w.1 + w.2.length ≤ (List.replicate (S.totalByteLength + varTotal fs) (0 : UInt8)).length := by
    intro w hw
    rw [List.length_replicate]
    rcases List.mem_cons.1 hw with rfl | hw
    · simp only [length_toLE]
      omega
    · exact (bound_writes hl h hfs hw).2
  have hpair : ((0, toLE 1 S.fieldOrder.length) ::
      (placed S.totalByteLength fs).flatMap fieldWrites).Pairwise Apart := by
    refine .cons (fun w hw => .inl ?_) (pairwise_writes hl h hfs)
    simpa using (bound_writes hl h hfs hw).1
  have hat := fun w hw => at_writeAll hbound hpair (w := w) hw
  rw [← hb] at hat
  refine ⟨?_, hat _ List.mem_cons_self, fun e he => ?_, fun e he => ?_⟩
  · rw [hb, length_writeAll hbound, List.length_replicate]
  · refine hat (e.1.1.offset, slotBytes e.1.1.dataType e.1.2 e.2)
      (List.mem_cons_of_mem _ (List.mem_flatMap.2 ⟨e, he, ?_⟩))
    exact List.mem_cons_self
  · by_cases hvar : e.1.1.dataType.isVariable = true
    · refine hat (e.2, varBytes e.1.1.dataType e.1.2)
        (List.mem_cons_of_mem _ (List.mem_flatMap.2 ⟨e, he, ?_⟩))
      simp [fieldWrites, hvar]
    · rw [varBytes_of_not_isVariable (by simpa using hvar)]
      exact at_nil _ _

end Writes

theorem map_fst_fields (h : S.RowTyped row) :
    (S.fields row).map Prod.fst = S.fieldOrder :=
  List.map_fst_zip (le_of_eq h.length_eq)

/-- **What `BytesRow::serialize` gives.** -/
theorem serialize_eq_ok (hl : S.LaidOut) (h : S.Accepted)
    (hrow : S.RowTyped row) {b : Bytes} (hb : S.serialize row = .ok b) :
    Fits S.totalByteLength (S.fields row) ∧
      b.length = S.totalByteLength + varTotal (S.fields row) ∧ RowAt b S (S.fields row) := by
  simp only [Schema.serialize, hrow.withDefaults] at hb
  cases hinfos : varInfos (S.fields row) S.totalByteLength with
  | error e =>
    rw [hinfos] at hb
    cases hb
  | ok r =>
    have hfits := varInfos_ok hinfos
    rw [varInfos_eq _ _ hfits] at hb
    have hrow := rowAt_writes hl h (map_fst_fields hrow)
    simp only [bind, Except.bind, zip_placed, Except.ok.injEq] at hb
    rw [hb] at hrow
    exact ⟨hfits, hrow⟩

theorem serialize_isOk (hrow : S.RowTyped row)
    (hfits : Fits S.totalByteLength (S.fields row)) : ∃ b, S.serialize row = .ok b := by
  simp only [Schema.serialize, hrow.withDefaults, varInfos_eq _ _ hfits]
  exact ⟨_, rfl⟩

theorem serialize_throws_iff (hrow : S.RowTyped row) :
    (∃ what, S.serialize row = .error (.invalidArgument what)) ↔
      Throws S.totalByteLength (S.fields row) := by
  rw [← varInfos_throws]
  simp only [Schema.serialize, hrow.withDefaults]
  cases varInfos (S.fields row) S.totalByteLength with
  | error e => simp [bind, Except.bind]
  | ok r => simp [bind, Except.bind]

end OpenViking.VectorDB
