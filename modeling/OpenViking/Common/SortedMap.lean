import Mathlib.Data.List.Sort
import Mathlib.Order.Lattice
import Mathlib.Data.List.Lookmap

/-!
# Sorted maps

A finite map kept as the list of its entries in strictly increasing key order: the contents of a
`std::map` (or of an ordered key-value store) together with what its iterator visits.

The order is a field of the structure, so every map below is sorted by construction.  Results:

* `SortedMap.entries_put_of_lt`: a key beyond all others is appended at the end;
* `SortedMap.mem_range`: what a half-open range scan visits.
-/

namespace OpenViking

/-- Entries in strictly increasing key order. -/
structure SortedMap (α : Type*) (β : Type*) [LinearOrder α] where
  entries : List (α × β)
  sorted : entries.Pairwise (fun x y => x.1 < y.1)

/-- On a list in the order of a bound, the entries before the first that is not below are those
below. -/
theorem takeWhile_eq_filter {α : Type*} {p : α → Bool} {l : List α}
    (h : l.Pairwise fun a b => p b = true → p a = true) :
    l.takeWhile p = l.filter p ∧ l.dropWhile p = l.filter fun a => !p a := by
  induction l with
  | nil => simp
  | cons a l ih =>
    obtain ⟨ha, hl⟩ := List.pairwise_cons.1 h
    by_cases hp : p a = true
    · simp [hp, ih hl]
    · have hnone : ∀ b ∈ l, p b = false := by
        intro b hb
        have := mt (ha b hb) hp
        simpa using this
      have hfilter : l.filter p = [] := by simpa using hnone
      have hall : (l.filter fun a => !p a) = l := by simpa using hnone
      simp [hp, hfilter, hall]

namespace SortedMap

variable {α β : Type*} [LinearOrder α]

/-! ## Operations -/

/-- The empty map. -/
def empty : SortedMap α β := ⟨[], List.Pairwise.nil⟩

instance : Inhabited (SortedMap α β) := ⟨empty⟩

/-- The value at `k` in an entry list. -/
def getEntry (k : α) : List (α × β) → Option β
  | [] => none
  | e :: es => if e.1 = k then some e.2 else getEntry k es

/-- The value at `k`. -/
def get (m : SortedMap α β) (k : α) : Option β := getEntry k m.entries

/-- Put `v` at `k` into an ordered entry list, replacing what is there. -/
def putEntry (k : α) (v : β) : List (α × β) → List (α × β)
  | [] => [(k, v)]
  | e :: es =>
    if k < e.1 then (k, v) :: e :: es
    else if e.1 = k then (k, v) :: es
    else e :: putEntry k v es

variable {es : List (α × β)} {x : α × β}

variable {k lo hi : α} {v : β}

theorem fst_mem_putEntry (h : x ∈ putEntry k v es) : x = (k, v) ∨ x ∈ es := by
  induction es with
  | nil => simpa [putEntry] using h
  | cons e es ih =>
    unfold putEntry at h
    split_ifs at h with h1 h2
    · simpa using h
    · rcases List.mem_cons.1 h with h | h
      · exact .inl h
      · exact .inr (List.mem_cons_of_mem _ h)
    · rcases List.mem_cons.1 h with h | h
      · exact .inr (h ▸ List.mem_cons_self)
      · exact (ih h).imp id (List.mem_cons_of_mem _)

theorem putEntry_sorted (k : α) (v : β) (h : es.Pairwise (fun x y => x.1 < y.1)) :
    (putEntry k v es).Pairwise (fun x y => x.1 < y.1) := by
  induction es with
  | nil => simp [putEntry]
  | cons e es ih =>
    obtain ⟨he, hes⟩ := List.pairwise_cons.1 h
    unfold putEntry
    split_ifs with h1 h2
    · refine List.pairwise_cons.2 ⟨fun x hx => ?_, h⟩
      rcases List.mem_cons.1 hx with rfl | hx
      · exact h1
      · exact h1.trans (he x hx)
    · subst h2
      exact List.pairwise_cons.2 ⟨he, hes⟩
    · refine List.pairwise_cons.2 ⟨fun x hx => ?_, ih hes⟩
      rcases fst_mem_putEntry hx with rfl | hx
      · exact lt_of_le_of_ne (not_lt.1 h1) h2
      · exact he x hx

/-- `data_[k] = v`. -/
def put (m : SortedMap α β) (k : α) (v : β) : SortedMap α β :=
  ⟨putEntry k v m.entries, putEntry_sorted k v m.sorted⟩

/-- `data_.erase(k)`. -/
def erase (m : SortedMap α β) (k : α) : SortedMap α β :=
  ⟨m.entries.filter (fun e => e.1 ≠ k), m.sorted.filter _⟩

/-- The entries from `lo` (inclusive) to `hi` (exclusive), in key order. -/
def range (m : SortedMap α β) (lo hi : α) : List (α × β) :=
  m.entries.filter (fun e => lo ≤ e.1 ∧ e.1 < hi)

/-- Every value changed by a function. -/
def mapValues {γ : Type*} (f : β → γ) (m : SortedMap α β) : SortedMap α γ :=
  ⟨m.entries.map fun e => (e.1, f e.2), m.sorted.map _ fun _ _ h => h⟩

/-! ## Lookups -/

@[simp] theorem get_empty (k : α) : (empty : SortedMap α β).get k = none := rfl

@[simp] theorem entries_empty : (empty : SortedMap α β).entries = [] := rfl

theorem getEntry_eq_some (h : es.Pairwise (fun x y => x.1 < y.1)) : getEntry k es = some v ↔ (k, v) ∈ es := by
  induction es with
  | nil => simp [getEntry]
  | cons e es ih =>
    obtain ⟨he, hes⟩ := List.pairwise_cons.1 h
    unfold getEntry
    split_ifs with h1
    · subst h1
      constructor
      · intro hv
        cases hv
        exact List.mem_cons_self
      · intro hm
        rcases List.mem_cons.1 hm with hm | hm
        · rw [← hm]
        · exact absurd (he _ hm) (lt_irrefl _)
    · rw [ih hes, List.mem_cons]
      constructor
      · exact .inr
      · rintro (rfl | hm)
        · exact absurd rfl h1
        · exact hm

variable {m : SortedMap α β}

theorem mem_entries_iff :
    (k, v) ∈ m.entries ↔ m.get k = some v :=
  (getEntry_eq_some m.sorted).symm

/-- Two sorted lists with the same members are the same list. -/
theorem entries_ext {es fs : List (α × β)} (hes : es.Pairwise (fun x y => x.1 < y.1))
    (hfs : fs.Pairwise (fun x y => x.1 < y.1)) (h : ∀ e, e ∈ es ↔ e ∈ fs) : es = fs := by
  have nodup : ∀ {l : List (α × β)}, l.Pairwise (fun x y => x.1 < y.1) → l.Nodup := by
    intro l hl
    refine hl.imp ?_
    rintro a b hlt rfl
    exact lt_irrefl _ hlt
  refine List.Perm.eq_of_pairwise ?_ hes hfs
    ((List.perm_ext_iff_of_nodup (nodup hes) (nodup hfs)).2 h)
  intro a b _ _ hab hba
  exact absurd (hab.trans hba) (lt_irrefl _)

/-- A map is determined by its lookups. -/
@[ext] theorem ext_get {n : SortedMap α β} (h : ∀ k, m.get k = n.get k) : m = n := by
  have he : m.entries = n.entries := entries_ext m.sorted n.sorted fun ⟨k, v⟩ => by
    rw [mem_entries_iff, mem_entries_iff, h k]
  cases m
  cases n
  subst he
  rfl

theorem mem_putEntry_iff (h : es.Pairwise (fun x y => x.1 < y.1)) :
    x ∈ putEntry k v es ↔ x = (k, v) ∨ (x ∈ es ∧ x.1 ≠ k) := by
  induction es with
  | nil => simp [putEntry]
  | cons e es ih =>
    obtain ⟨he, hes⟩ := List.pairwise_cons.1 h
    unfold putEntry
    split_ifs with h1 h2
    · have hne : ∀ y ∈ e :: es, y.1 ≠ k := by
        intro y hy
        rcases List.mem_cons.1 hy with rfl | hy
        · exact h1.ne'
        · exact (h1.trans (he y hy)).ne'
      rw [List.mem_cons]
      exact or_congr Iff.rfl ⟨fun hx => ⟨hx, hne x hx⟩, fun hx => hx.1⟩
    · subst h2
      have hne : ∀ y ∈ es, y.1 ≠ e.1 := fun y hy => (he y hy).ne'
      simp only [List.mem_cons]
      constructor
      · rintro (rfl | hx)
        · exact .inl rfl
        · exact .inr ⟨.inr hx, hne x hx⟩
      · rintro (rfl | ⟨rfl | hx, hk⟩)
        · exact .inl rfl
        · exact absurd rfl hk
        · exact .inr hx
    · simp only [List.mem_cons, ih hes]
      constructor
      · rintro (rfl | rfl | ⟨hx, hk⟩)
        · exact .inr ⟨.inl rfl, h2⟩
        · exact .inl rfl
        · exact .inr ⟨.inr hx, hk⟩
      · rintro (rfl | ⟨rfl | hx, hk⟩)
        · exact .inr (.inl rfl)
        · exact .inl rfl
        · exact .inr (.inr ⟨hx, hk⟩)

theorem mem_entries_put :
    x ∈ (m.put k v).entries ↔ x = (k, v) ∨ (x ∈ m.entries ∧ x.1 ≠ k) :=
  mem_putEntry_iff m.sorted

theorem mem_entries_erase : x ∈ (m.erase k).entries ↔ x ∈ m.entries ∧ x.1 ≠ k := by
  simp [erase]

theorem get_put (m : SortedMap α β) (k : α) (v : β) (k' : α) :
    (m.put k v).get k' = if k' = k then some v else m.get k' := by
  apply Option.ext
  intro w
  rw [← mem_entries_iff, mem_entries_put]
  split_ifs with h
  · subst h
    simp [eq_comm]
  · simp [h, mem_entries_iff]

theorem get_erase (m : SortedMap α β) (k k' : α) :
    (m.erase k).get k' = if k' = k then none else m.get k' := by
  apply Option.ext
  intro w
  rw [← mem_entries_iff, mem_entries_erase]
  split_ifs with h
  · simp [h]
  · simp [h, mem_entries_iff]

theorem getEntry_map {γ : Type*} (f : β → γ) (es : List (α × β)) (k : α) :
    getEntry k (es.map fun e => (e.1, f e.2)) = (getEntry k es).map f := by
  induction es with
  | nil => rfl
  | cons e es ih =>
    simp only [List.map_cons, getEntry]
    split_ifs
    · rfl
    · exact ih

@[simp] theorem get_mapValues {γ : Type*} (f : β → γ) (m : SortedMap α β) (k : α) :
    (m.mapValues f).get k = (m.get k).map f :=
  getEntry_map f m.entries k

theorem mapValues_put {γ : Type*} (f : β → γ) (m : SortedMap α β) (k : α) (v : β) :
    (m.put k v).mapValues f = (m.mapValues f).put k (f v) := by
  refine ext_get fun k' => ?_
  rw [get_mapValues, get_put, get_put, get_mapValues]
  split_ifs <;> rfl

@[simp] theorem get_put_self (m : SortedMap α β) (k : α) (v : β) : (m.put k v).get k = some v := by
  rw [get_put, if_pos rfl]

theorem get_put_of_ne (m : SortedMap α β) {k' : α} (v : β) (h : k' ≠ k) :
    (m.put k v).get k' = m.get k' := by
  rw [get_put, if_neg h]

/-! ## Order -/

theorem putEntry_of_lt (h : ∀ e ∈ es, e.1 < k) : putEntry k v es = es ++ [(k, v)] := by
  induction es with
  | nil => rfl
  | cons e es ih =>
    have he : e.1 < k := h e List.mem_cons_self
    unfold putEntry
    rw [if_neg (lt_asymm he), if_neg he.ne, ih fun x hx => h x (List.mem_cons_of_mem _ hx)]
    rfl

/-- A key beyond all others is appended at the end. -/
theorem entries_put_of_lt (v : β) (h : ∀ e ∈ m.entries, e.1 < k) :
    (m.put k v).entries = m.entries ++ [(k, v)] :=
  putEntry_of_lt h

theorem mem_range {e : α × β} : e ∈ m.range lo hi ↔ m.get e.1 = some e.2 ∧ lo ≤ e.1 ∧ e.1 < hi := by
  rw [range, List.mem_filter, decide_eq_true_iff, ← mem_entries_iff]

/-- A range that spans all keys visits every entry. -/
theorem range_eq_entries (h : ∀ e ∈ m.entries, lo ≤ e.1 ∧ e.1 < hi) : m.range lo hi = m.entries :=
  List.filter_eq_self.2 fun e he => decide_eq_true (h e he)

/-! ## Views

Several tables share one map when each embeds its keys into the map's keys.  `SortedMap.view` is
one table's part of the map, with the table's own keys. -/

/-- An order-preserving embedding of keys with a decidable image. -/
structure KeyEmb (γ α : Type*) [LinearOrder γ] [LinearOrder α] where
  toKey : γ → α
  ofKey : α → Option γ
  ofKey_eq_some : ∀ {a c}, ofKey a = some c ↔ a = toKey c
  toKey_lt : ∀ {c d}, toKey c < toKey d ↔ c < d

namespace KeyEmb

variable {γ : Type*} [LinearOrder γ] (f : KeyEmb γ α)

@[simp] theorem ofKey_toKey (c : γ) : f.ofKey (f.toKey c) = some c := f.ofKey_eq_some.2 rfl

theorem toKey_inj {c d : γ} : f.toKey c = f.toKey d ↔ c = d := by
  refine ⟨fun h => ?_, fun h => by rw [h]⟩
  have hs : some c = some d := by rw [← f.ofKey_toKey c, ← f.ofKey_toKey d, h]
  exact Option.some_inj.1 hs

theorem toKey_le {c d : γ} : f.toKey c ≤ f.toKey d ↔ c ≤ d := by
  rw [← not_lt, f.toKey_lt, not_lt]

/-- The entry as the table sees it. -/
def strip (e : α × β) : Option (γ × β) := (f.ofKey e.1).map fun c => (c, e.2)

theorem strip_eq_some {e : α × β} {c : γ} {v : β} : f.strip e = some (c, v) ↔ e = (f.toKey c, v) := by
  obtain ⟨a, w⟩ := e
  simp only [strip, Option.map_eq_some_iff, Prod.mk.injEq]
  constructor
  · rintro ⟨c', hc, rfl, rfl⟩
    exact ⟨f.ofKey_eq_some.1 hc, rfl⟩
  · rintro ⟨rfl, rfl⟩
    exact ⟨c, f.ofKey_toKey c, rfl, rfl⟩

theorem filterMap_strip_sorted {es : List (α × β)} (h : es.Pairwise (fun x y => x.1 < y.1)) :
    (es.filterMap f.strip).Pairwise (fun x y => x.1 < y.1) := by
  refine h.filterMap f.strip ?_
  rintro ⟨a, v⟩ ⟨b, w⟩ hab ⟨c, v'⟩ hc ⟨d, w'⟩ hd
  obtain ⟨rfl, rfl⟩ := Prod.mk.inj (f.strip_eq_some.1 hc)
  obtain ⟨rfl, rfl⟩ := Prod.mk.inj (f.strip_eq_some.1 hd)
  exact f.toKey_lt.1 hab

end KeyEmb

section View

variable {γ : Type*} [LinearOrder γ] (f : KeyEmb γ α)

/-- The part of the map whose keys are embedded, under the table's own keys. -/
def view (m : SortedMap α β) : SortedMap γ β :=
  ⟨m.entries.filterMap f.strip, f.filterMap_strip_sorted m.sorted⟩

@[simp] theorem get_view (m : SortedMap α β) (c : γ) : (m.view f).get c = m.get (f.toKey c) := by
  apply Option.ext
  intro v
  rw [← mem_entries_iff, ← mem_entries_iff, view, List.mem_filterMap]
  simp only [f.strip_eq_some, exists_eq_right]

theorem view_put (m : SortedMap α β) (c : γ) (v : β) :
    (m.put (f.toKey c) v).view f = (m.view f).put c v := by
  ext1 d
  simp only [get_view, get_put, f.toKey_inj]

theorem view_erase (m : SortedMap α β) (c : γ) : (m.erase (f.toKey c)).view f = (m.view f).erase c := by
  ext1 d
  simp only [get_view, get_erase, f.toKey_inj]

theorem view_put_of_ofKey_eq_none (m : SortedMap α β) {a : α} (v : β) (h : f.ofKey a = none) :
    (m.put a v).view f = m.view f := by
  ext1 d
  have hne : f.toKey d ≠ a := fun he => by simp [← he] at h
  simp only [get_view, get_put, if_neg hne]

theorem view_erase_of_ofKey_eq_none (m : SortedMap α β) {a : α} (h : f.ofKey a = none) :
    (m.erase a).view f = m.view f := by
  ext1 d
  have hne : f.toKey d ≠ a := fun he => by simp [← he] at h
  simp only [get_view, get_erase, if_neg hne]

/-- A range scan between embedded bounds, stripped, is the range scan of the view. -/
theorem filterMap_strip_range (m : SortedMap α β) (lo hi : γ) :
    (m.range (f.toKey lo) (f.toKey hi)).filterMap f.strip = (m.view f).range lo hi := by
  refine entries_ext (f.filterMap_strip_sorted (m.sorted.filter _))
    ((m.view f).sorted.filter _) ?_
  rintro ⟨c, v⟩
  change _ ↔ (c, v) ∈ (m.view f).range lo hi
  simp only [List.mem_filterMap, f.strip_eq_some, exists_eq_right, mem_range, get_view,
    f.toKey_lt, f.toKey_le]

end View

end SortedMap

end OpenViking
