import Mathlib.Data.List.Nodup
import Mathlib.Tactic.Common

/-!
# Dictionaries that keep the order of insertion

Entries with distinct keys.  A new key goes to the end, a key that is there keeps its place.

* `get_set`, `get_erase`, `get_filter`: what is read after a change.
-/

namespace OpenViking

/-- A dictionary: its entries in the order their keys were first set. -/
structure Dict (K V : Type*) where
  entries : List (K × V)
  nodup : (entries.map Prod.fst).Nodup

namespace Dict

variable {K V W : Type*}

def empty : Dict K V := ⟨[], List.nodup_nil⟩

def length (d : Dict K V) : ℕ := d.entries.length

/-- The entries whose keys and values are accepted. -/
def filter (p : K → V → Bool) (d : Dict K V) : Dict K V where
  entries := d.entries.filter fun e => p e.1 e.2
  nodup := d.nodup.sublist ((List.filter_sublist).map _)

/-- The values through a function. -/
def mapValues (f : V → W) (d : Dict K V) : Dict K W where
  entries := d.entries.map fun e => (e.1, f e.2)
  nodup := by
    rw [List.map_map]
    exact d.nodup

variable [DecidableEq K]

/-- The value of a key. -/
def get (d : Dict K V) (k : K) : Option V := d.entries.lookup k

/-- `k in d`. -/
def contains (d : Dict K V) (k : K) : Bool := (d.get k).isSome

/-- `del d[k]`, when it is there. -/
def erase (d : Dict K V) (k : K) : Dict K V := d.filter fun k' _ => decide (k' ≠ k)

theorem lookup_eq_some_iff {l : List (K × V)} (h : (l.map Prod.fst).Nodup) {k : K} {v : V} :
    l.lookup k = some v ↔ (k, v) ∈ l := by
  induction l with
  | nil => simp
  | cons e l ih =>
    obtain ⟨k', v'⟩ := e
    rw [List.map_cons, List.nodup_cons] at h
    rw [List.lookup_cons, List.mem_cons, Prod.mk.injEq]
    by_cases hk : k = k'
    · subst hk
      have hnot : (k, v) ∉ l := fun hmem => h.1 (List.mem_map.2 ⟨_, hmem, rfl⟩)
      simp [hnot, eq_comm]
    · rw [beq_eq_false_iff_ne.2 hk]
      simp [ih h.2, hk]

theorem get_eq_some_iff {d : Dict K V} {k : K} {v : V} :
    d.get k = some v ↔ (k, v) ∈ d.entries := lookup_eq_some_iff d.nodup

theorem get_eq_none_iff {d : Dict K V} {k : K} : d.get k = none ↔ k ∉ d.entries.map Prod.fst := by
  rw [Option.eq_none_iff_forall_ne_some]
  constructor
  · intro h hmem
    obtain ⟨⟨k', v⟩, he, rfl⟩ := List.mem_map.1 hmem
    exact h v (get_eq_some_iff.2 he)
  · intro h v hv
    exact h (List.mem_map_of_mem (get_eq_some_iff.1 hv))

@[simp]
theorem get_empty (k : K) : (empty : Dict K V).get k = none := rfl

@[simp]
theorem get_mapValues (f : V → W) (d : Dict K V) (k : K) : (d.mapValues f).get k = (d.get k).map f := by
  apply Option.ext
  intro w
  rw [get_eq_some_iff, Option.map_eq_some_iff]
  simp [mapValues, get_eq_some_iff]

theorem get_filter (p : K → V → Bool) (d : Dict K V) (k : K) :
    (d.filter p).get k = (d.get k).filter (p k) := by
  apply Option.ext
  intro v
  rw [get_eq_some_iff, Option.filter_eq_some_iff, get_eq_some_iff, filter, List.mem_filter]

@[simp]
theorem get_erase (d : Dict K V) (k k' : K) : (d.erase k).get k' = if k' = k then none else d.get k' := by
  rw [erase, get_filter]
  by_cases h : k' = k
  · simp [h]
  · cases d.get k' <;> simp [h]

/-- Set a key: in its place when it is there, at the end otherwise. -/
def set (d : Dict K V) (k : K) (v : V) : Dict K V :=
  if h : k ∈ d.entries.map Prod.fst then
    { entries := d.entries.map fun e => if e.1 = k then (k, v) else e
      nodup := by
        have hkeys : (d.entries.map fun e => if e.1 = k then (k, v) else e).map Prod.fst =
            d.entries.map Prod.fst := by
          rw [List.map_map]
          refine List.map_congr_left fun e _ => ?_
          by_cases he : e.1 = k <;> simp [he]
        rw [hkeys]
        exact d.nodup }
  else
    { entries := d.entries ++ [(k, v)]
      nodup := by
        rw [List.map_append, List.nodup_append]
        exact ⟨d.nodup, by simp, fun a ha b hb => by
          rw [List.map_singleton, List.mem_singleton] at hb
          rintro rfl
          rw [hb] at ha
          exact h ha⟩ }

@[simp]
theorem get_set (d : Dict K V) (k k' : K) (v : V) :
    (d.set k v).get k' = if k' = k then some v else d.get k' := by
  apply Option.ext
  intro w
  rw [get_eq_some_iff, set]
  split_ifs with hmem hk hk
  · subst hk
    obtain ⟨⟨_, u⟩, he, rfl⟩ := List.mem_map.1 hmem
    simp only [List.mem_map, Option.some.injEq]
    constructor
    · rintro ⟨e, -, heq⟩
      split_ifs at heq with hek
      · exact (Prod.mk.inj heq).2
      · exact absurd (congrArg Prod.fst heq) hek
    · rintro rfl
      exact ⟨_, he, if_pos rfl⟩
  · rw [get_eq_some_iff]
    simp only [List.mem_map]
    constructor
    · rintro ⟨e, he, heq⟩
      split_ifs at heq with hek
      · exact absurd (congrArg Prod.fst heq).symm hk
      · exact heq ▸ he
    · intro he
      exact ⟨_, he, if_neg hk⟩
  · subst hk
    have hnot : (k', w) ∉ d.entries := fun h => hmem (List.mem_map_of_mem h)
    simp [hnot, eq_comm]
  · rw [get_eq_some_iff, List.mem_append, List.mem_singleton, Prod.mk.injEq]
    simp [hk]

/-- `d.setdefault(k, v)`. -/
def setDefault (d : Dict K V) (k : K) (v : V) : Dict K V := if d.contains k then d else d.set k v

/-- `d.update(l)`. -/
def update (d : Dict K V) (l : List (K × V)) : Dict K V := l.foldl (fun d e => d.set e.1 e.2) d

end Dict

end OpenViking
