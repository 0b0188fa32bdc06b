import OpenViking.Common.Decimal
import OpenViking.Common.Slashes
import OpenViking.VectorDB.ScalarIndex
import Mathlib.Data.List.TakeWhile

/-!
# The values of a row and their keys

What a row holds in a string, path or list field, and under which keys the scalar index files it.
`FieldsDict::parse_from_json` (`fields_dict.h`, 37-78) joins the elements of a list with `;` and ends
every text at its first NUL; `add_field_data` (`bitmap_field_group.h`, 132-164) splits the text again
at each `;` and drops the empty parts.  A filter looks its value up as it is.

Results:

* `mem_bitmapKeys_of_held`: a value that can be found is a key of its row;
* `clean_of_mem_bitmapKeys`: no key has a `;` or a NUL in it.
-/

namespace OpenViking.VectorDB

/-! ## What a row holds -/

/-- The value of an array element, `none` for one of another type. -/
def FieldElem.value : FieldElem → Option String
  | .int64 n => some (toString n)
  | .string s => some s
  | .other => none

/-- The values that a member holds in a field of strings, of paths or of lists: a string, or the
elements of a list.  A list may come as one text with its elements joined by `;`. -/
def FieldValue.held (isList : Bool) : FieldValue → List String
  | .string s => if isList then splitKeys s else [s]
  | .array elems => elems.filterMap FieldElem.value
  | _ => []

/-- A value that the index can find: it has neither a `;` nor a NUL in it.  A part of a joined text
does not stand behind a NUL, and an empty element is the only one of its list. -/
def FieldValue.Findable (isList : Bool) (value : FieldValue) (v : String) : Prop :=
  ';' ∉ v.toList ∧ Char.ofNat 0 ∉ v.toList ∧
    match value with
    | .string s => isList = true → v ∈ splitKeys (cString s)
    | .array elems => v = "" → elems.length = 1
    | _ => True

/-- The member of a field: the last one of its name, nulls and numbers that are no `int64` apart. -/
def memberOf (members : List (String × FieldValue)) (field : String) : Option FieldValue :=
  (members.filter fun kv => cString kv.1 = field ∧ kv.2.strValue.isSome).getLast?.map Prod.snd

/-- The text of a field is that of its member. -/
theorem get_parseFromJson (fields : FieldsJson) (field : String) :
    (parseFromJson fields).get field =
      (memberOf (fields.getD []) field).bind FieldValue.strValue := by
  unfold parseFromJson memberOf
  induction fields.getD [] using List.reverseRecOn with
  | nil => rfl
  | append_singleton kvs kv ih =>
    rw [List.foldl_append, List.foldl_cons, List.foldl_nil, List.filter_append]
    cases htext : kv.2.strValue with
    | none => simpa [htext] using ih
    | some text =>
      simp only [SortedMap.get_put]
      by_cases hname : field = cString kv.1
      · simp [hname, htext]
      · have hother : ¬ cString kv.1 = field := fun he => hname he.symm
        rw [if_neg hname, ih]
        simp [hother]

/-! ## Keys -/

/-- The key of a value; `dir` for a path field. -/
def keyOf (dir : Bool) (v : String) : String := if dir then normalizePathKey v else v

variable {dir : Bool}

variable {text key v : String}

theorem mem_bitmapKeys :
    key ∈ bitmapKeys dir text ↔
      ∃ v, (if ';' ∈ text.toList then v ∈ splitKeys text else v = text) ∧ key = keyOf dir v := by
  unfold bitmapKeys keyOf
  cases dir <;> split_ifs <;> simp [eq_comm]

theorem mem_splitKeys : v ∈ splitKeys text ↔ v.toList ∈ text.toList.splitOn ';' ∧ v ≠ "" := by
  unfold splitKeys
  simp only [List.mem_map, List.mem_filter]
  constructor
  · rintro ⟨part, ⟨hpart, hne⟩, rfl⟩
    refine ⟨by simpa using hpart, fun h => ?_⟩
    have hnil : part = [] := by simpa using congrArg String.toList h
    exact of_decide_eq_true hne hnil
  · rintro ⟨hpart, hne⟩
    exact ⟨v.toList, ⟨hpart, by simpa using hne⟩, by simp⟩

theorem cString_of_not_mem {s : String} (h : Char.ofNat 0 ∉ s.toList) : cString s = s := by
  unfold cString
  rw [List.takeWhile_eq_self_iff.2, String.ofList_toList]
  intro c hc
  have hne : c ≠ Char.ofNat 0 := fun he => h (he ▸ hc)
  simpa using hne

theorem nul_not_mem_cString (s : String) : Char.ofNat 0 ∉ (cString s).toList := by
  intro h
  unfold cString at h
  rw [String.toList_ofList] at h
  simpa using List.mem_takeWhile_imp h

/-- An element's text is its value, if that has no NUL. -/
theorem text_of_value {e : FieldElem} (he : e.value = some v)
    (hv : Char.ofNat 0 ∉ v.toList) : e.text = v := by
  cases e with
  | int64 n => exact Option.some.inj he
  | string s =>
    obtain rfl : s = v := Option.some.inj he
    exact cString_of_not_mem hv
  | other => cases he

/-- The joined text has a separator as soon as there are two elements. -/
theorem separator_mem_intercalate {texts : List String} (h : 2 ≤ texts.length) :
    ';' ∈ (String.intercalate ";" texts).toList := by
  obtain ⟨a, b, rest, rfl⟩ : ∃ a b rest, texts = a :: b :: rest := by
    cases texts with
    | nil => simp at h
    | cons a rest =>
      cases rest with
      | nil => simp at h
      | cons b rest => exact ⟨a, b, rest, rfl⟩
  rw [String.toList_intercalate, List.map_cons, List.map_cons, List.intercalate_cons_cons]
  simp

variable {value : FieldValue}

/-- **A value that can be found is a key of its row.** -/
theorem mem_bitmapKeys_of_held {dir isList : Bool}
    (htext : value.strValue = some text) (hv : v ∈ value.held isList)
    (hf : value.Findable isList v) : keyOf dir v ∈ bitmapKeys dir text := by
  obtain ⟨hsep, hnul, hkind⟩ := hf
  refine mem_bitmapKeys.2 ⟨v, ?_, rfl⟩
  cases value with
  | string s =>
    obtain rfl : cString s = text := Option.some.inj htext
    cases isList with
    | false =>
      obtain rfl : v = s := by simpa [FieldValue.held] using hv
      rw [cString_of_not_mem hnul, if_neg hsep]
    | true =>
      have hpart := hkind rfl
      split_ifs with htwo
      · exact hpart
      · have hself := (mem_splitKeys.1 hpart).1
        rw [List.splitOn_eq_singleton htwo, List.mem_singleton] at hself
        exact String.toList_inj.1 hself
  | array elems =>
    obtain rfl : String.intercalate ";" (elems.map FieldElem.text) = text := Option.some.inj htext
    obtain ⟨e, he, hval⟩ := List.mem_filterMap.1 hv
    have hmem : v ∈ elems.map FieldElem.text :=
      List.mem_map.2 ⟨e, he, text_of_value hval hnul⟩
    by_cases hone : elems.length = 1
    · obtain ⟨e', rfl⟩ := List.length_eq_one_iff.1 hone
      obtain rfl : v = e'.text := by simpa using hmem
      simp [hsep]
    · have htwo : 2 ≤ (elems.map FieldElem.text).length := by
        have := List.length_pos_of_mem he
        rw [List.length_map]
        omega
      rw [if_pos (separator_mem_intercalate htwo), mem_splitKeys, String.toList_intercalate]
      exact ⟨mem_splitOn_intercalate hsep (List.mem_map.2 ⟨v, hmem, rfl⟩), fun h => hone (hkind h)⟩
  | _ => simp [FieldValue.held] at hv

/-- A key of the index: no `;` and no NUL in it. -/
def Clean (key : String) : Prop := ';' ∉ key.toList ∧ Char.ofNat 0 ∉ key.toList

theorem clean_keyOf : Clean (keyOf dir v) ↔ Clean v := by
  unfold keyOf normalizePathKey Clean
  split_ifs with hdir
  · split
    · rfl
    · split_ifs
      · rfl
      · simp [String.toList_append]
  · rfl

theorem nul_not_mem_toString (n : ℤ) : Char.ofNat 0 ∉ (toString n).toList :=
  Decimal.notMem_toString_int (by decide) (by decide) n

/-- No NUL comes into a text. -/
theorem nul_not_mem_strValue (h : value.strValue = some text) : Char.ofNat 0 ∉ text.toList := by
  cases value with
  | int64 n =>
    obtain rfl : toString n = text := Option.some.inj h
    exact nul_not_mem_toString n
  | string s =>
    obtain rfl : cString s = text := Option.some.inj h
    exact nul_not_mem_cString s
  | bool b =>
    obtain rfl : (if b then "1" else "0") = text := Option.some.inj h
    cases b <;> decide
  | array elems =>
    obtain rfl : String.intercalate ";" (elems.map FieldElem.text) = text := Option.some.inj h
    have helem : ∀ e ∈ elems, Char.ofNat 0 ∉ e.text.toList := by
      intro e _
      cases e with
      | int64 n => exact nul_not_mem_toString n
      | string s => exact nul_not_mem_cString s
      | other => simp [FieldElem.text]
    rw [String.toList_intercalate]
    intro hmem
    rcases mem_intercalate hmem with hc | ⟨part, hpart, hc⟩
    · revert hc
      decide
    · obtain ⟨text, htext, rfl⟩ := List.mem_map.1 hpart
      obtain ⟨e, he, rfl⟩ := List.mem_map.1 htext
      exact helem e he hc
  | double text => cases h
  | other => cases h

/-- **No key has a `;` or a NUL in it.** -/
theorem clean_of_mem_bitmapKeys
    (htext : value.strValue = some text) (h : key ∈ bitmapKeys dir text) : Clean key := by
  obtain ⟨v, hv, rfl⟩ := mem_bitmapKeys.1 h
  have hnul := nul_not_mem_strValue htext
  rw [clean_keyOf]
  split_ifs at hv with hsep
  · obtain ⟨hno, hsub⟩ := mem_splitOn (mem_splitKeys.1 hv).1
    exact ⟨hno, fun hc => hnul (hsub hc)⟩
  · rw [hv]
    exact ⟨hsep, hnul⟩

end OpenViking.VectorDB
