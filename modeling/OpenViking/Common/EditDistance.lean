import Mathlib.Data.List.Basic
import Mathlib.Data.List.Range
import Mathlib.Order.Bounds.Basic
import Mathlib.Order.MinMax
import Mathlib.Tactic.Common
import Mathlib.Tactic.SplitIfs

/-!
# Edit distance

The least number of insertions, deletions and changes of one element that lead from one list to
another, and its computation row by row.

Results:

* `IsDistance.snoc`: the distance of two lists from those without their last elements;
* `isDistance_levenshteinDistance`: the computation gives the distance.
-/

namespace OpenViking.EditDistance

variable {α : Type*}

/-- `n` edits lead from one list to the other, both read from their starts. -/
inductive Edits : List α → List α → ℕ → Prop
  | nil : Edits [] [] 0
  | insert {s t : List α} {n : ℕ} (b : α) : Edits s t n → Edits s (t ++ [b]) (n + 1)
  | delete {s t : List α} {n : ℕ} (a : α) : Edits s t n → Edits (s ++ [a]) t (n + 1)
  | keep {s t : List α} {n : ℕ} (a : α) : Edits s t n → Edits (s ++ [a]) (t ++ [a]) n
  | change {s t : List α} {n : ℕ} (a b : α) : Edits s t n → Edits (s ++ [a]) (t ++ [b]) (n + 1)

/-- The edit distance. -/
def IsDistance (s t : List α) (n : ℕ) : Prop := IsLeast {n | Edits s t n} n

variable {s t pre : List α}

theorem Edits.symm {n : ℕ} (h : Edits s t n) : Edits t s n := by
  induction h with
  | nil => exact .nil
  | insert b _ ih => exact .delete b ih
  | delete a _ ih => exact .insert a ih
  | keep a _ ih => exact .keep a ih
  | change a b _ ih => exact .change b a ih

theorem IsDistance.symm {n : ℕ} (h : IsDistance s t n) : IsDistance t s n :=
  ⟨h.1.symm, fun _ hk => h.2 hk.symm⟩

theorem IsDistance.unique {n k : ℕ} (h : IsDistance s t n) (h' : IsDistance s t k) :
    n = k :=
  IsLeast.unique h h'

theorem edits_nil_left (t : List α) : Edits [] t t.length := by
  induction t using List.reverseRecOn with
  | nil => exact .nil
  | append_singleton t b ih =>
    rw [List.length_append, List.length_singleton]
    exact .insert b ih

/-- An edit changes the length by one at most. -/
theorem Edits.length_le {n : ℕ} (h : Edits s t n) : t.length ≤ s.length + n := by
  induction h <;> simp only [List.length_append, List.length_singleton, List.length_nil] at * <;>
    omega

theorem isDistance_nil_left (t : List α) : IsDistance [] t t.length :=
  ⟨edits_nil_left t, fun n hn => by simpa using Edits.length_le hn⟩

theorem edits_self (s : List α) : Edits s s 0 := by
  induction s using List.reverseRecOn with
  | nil => exact .nil
  | append_singleton s a ih => exact .keep a ih

theorem isDistance_self (s : List α) : IsDistance s s 0 := ⟨edits_self s, fun _ _ => Nat.zero_le _⟩

/-! ## Rows -/

/-- A row has the distances to `pre`, and to `pre` with more and more of `t`. -/
def IsRow (s : List α) : List α → List α → List ℕ → Prop
  | pre, [], row => ∃ n, row = [n] ∧ IsDistance s pre n
  | pre, d :: t, row => ∃ n rest, row = n :: rest ∧ IsDistance s pre n ∧ IsRow s (pre ++ [d]) t rest

theorem IsRow.head {row : List ℕ} (h : IsRow s pre t row) :
    ∃ n rest, row = n :: rest ∧ IsDistance s pre n := by
  cases t with
  | nil =>
    obtain ⟨n, rfl, hn⟩ := h
    exact ⟨n, [], rfl, hn⟩
  | cons d t =>
    obtain ⟨n, rest, rfl, hn, -⟩ := h
    exact ⟨n, rest, rfl, hn⟩

theorem isRow_start (pre t : List α) : IsRow [] pre t (List.range' pre.length (t.length + 1)) := by
  induction t generalizing pre with
  | nil => exact ⟨pre.length, rfl, isDistance_nil_left pre⟩
  | cons d t ih =>
    refine ⟨pre.length, _, List.range'_succ, isDistance_nil_left pre, ?_⟩
    have hrest := ih (pre ++ [d])
    rwa [List.length_append, List.length_singleton] at hrest

theorem IsRow.getLast? {row : List ℕ} (h : IsRow s pre t row) :
    ∃ n, row.getLast? = some n ∧ IsDistance s (pre ++ t) n := by
  induction t generalizing pre row with
  | nil =>
    obtain ⟨n, rfl, hn⟩ := h
    exact ⟨n, rfl, by rwa [List.append_nil]⟩
  | cons d t ih =>
    obtain ⟨n, rest, rfl, -, hrest⟩ := h
    obtain ⟨k, hk, hdist⟩ := ih hrest
    refine ⟨k, ?_, by rwa [List.append_assoc] at hdist⟩
    rw [List.getLast?_cons, hk]
    rfl

section

variable [DecidableEq α]

/-- The last edit of a run. -/
theorem Edits.last {p q : List α} {a b : α} {n : ℕ} (h : Edits (p ++ [a]) (q ++ [b]) n) :
    (∃ k, n = k + 1 ∧ (Edits (p ++ [a]) q k ∨ Edits p (q ++ [b]) k)) ∨
      ∃ k, Edits p q k ∧ k + (if a ≠ b then 1 else 0) ≤ n := by
  generalize hs : p ++ [a] = s at h
  generalize ht : q ++ [b] = t at h
  cases h with
  | nil => simp at hs
  | @insert s' t' k b' h' =>
    obtain ⟨rfl, -⟩ := List.append_inj' ht rfl
    exact .inl ⟨k, rfl, .inl h'⟩
  | @delete s' t' k a' h' =>
    obtain ⟨rfl, -⟩ := List.append_inj' hs rfl
    exact .inl ⟨k, rfl, .inr h'⟩
  | keep c h' =>
    obtain ⟨rfl, ha⟩ := List.append_inj' hs rfl
    obtain ⟨rfl, hb⟩ := List.append_inj' ht rfl
    have hab : a = b := List.singleton_inj.1 (ha.trans hb.symm)
    exact .inr ⟨n, h', by simp [hab]⟩
  | @change s' t' k c d h' =>
    obtain ⟨rfl, -⟩ := List.append_inj' hs rfl
    obtain ⟨rfl, -⟩ := List.append_inj' ht rfl
    exact .inr ⟨k, h', by split_ifs <;> omega⟩

/-- **The distance of two lists from those without their last elements.** -/
theorem IsDistance.snoc {p q : List α} {a b : α} {both right left : ℕ} (hboth : IsDistance p q both)
    (hright : IsDistance (p ++ [a]) q right) (hleft : IsDistance p (q ++ [b]) left) :
    IsDistance (p ++ [a]) (q ++ [b])
      (min (min (left + 1) (right + 1)) (both + if a ≠ b then 1 else 0)) := by
  constructor
  · have hchange : Edits (p ++ [a]) (q ++ [b]) (both + if a ≠ b then 1 else 0) := by
      by_cases hab : a = b
      · subst hab
        rw [if_neg (by simp)]
        exact .keep a hboth.1
      · rw [if_pos hab]
        exact .change a b hboth.1
    show Edits _ _ _
    rcases min_choice (min (left + 1) (right + 1)) (both + if a ≠ b then 1 else 0) with h | h
    · rw [h]
      rcases min_choice (left + 1) (right + 1) with h' | h'
      · rw [h']
        exact .delete a hleft.1
      · rw [h']
        exact .insert b hright.1
    · rw [h]
      exact hchange
  · intro n hn
    rcases Edits.last hn with ⟨k, rfl, h | h⟩ | ⟨k, h, hk⟩
    · have := hright.2 h
      omega
    · have := hleft.2 h
      omega
    · have := hboth.2 h
      omega

/-! ## Row by row -/

/-- The rest of the next row, after `last`; `c` is the next element of the first list. -/
def rowAfter (c : α) : List α → List ℕ → ℕ → List ℕ
  | d :: t, above :: next :: row, last =>
    let value := min (min (next + 1) (last + 1)) (above + if c ≠ d then 1 else 0)
    value :: rowAfter c t (next :: row) value
  | _, _, _ => []

/-- The rows for a list, from a row and its number. -/
def lastRow (t : List α) : List α → List ℕ → ℕ → List ℕ
  | [], row, _ => row
  | c :: s, row, i => lastRow t s ((i + 1) :: rowAfter c t row (i + 1)) (i + 1)

/-- The distance, by the rows for the longer list. -/
def levenshteinDistance (s t : List α) : ℕ :=
  let (s, t) := if s.length < t.length then (t, s) else (s, t)
  if t = [] then s.length else ((lastRow t s (List.range (t.length + 1)) 0).getLast?).getD 0

/-- The next row. -/
theorem IsRow.next {s : List α} {c : α} {t pre : List α} {row : List ℕ} {last : ℕ}
    (h : IsRow s pre t row) (hlast : IsDistance (s ++ [c]) pre last) :
    IsRow (s ++ [c]) pre t (last :: rowAfter c t row last) := by
  induction t generalizing pre row last with
  | nil => exact ⟨last, by simp [rowAfter], hlast⟩
  | cons d t ih =>
    obtain ⟨above, rest, rfl, habove, hrest⟩ := h
    obtain ⟨next, row, rfl, hnext⟩ := hrest.head
    refine ⟨last, _, rfl, hlast, ?_⟩
    rw [rowAfter]
    exact ih hrest (habove.snoc hlast hnext)

theorem isRow_lastRow {s t done : List α} {row : List ℕ} (h : IsRow done [] t row) :
    IsRow (done ++ s) [] t (lastRow t s row done.length) := by
  induction s generalizing done row with
  | nil => rwa [List.append_nil]
  | cons c s ih =>
    have hlast : IsDistance (done ++ [c]) [] (done.length + 1) := by
      have := (isDistance_nil_left (done ++ [c])).symm
      rwa [List.length_append, List.length_singleton] at this
    have hrest := ih (h.next hlast)
    rw [List.length_append, List.length_singleton, List.append_assoc] at hrest
    exact hrest

/-- **The computation gives the distance.** -/
theorem isDistance_levenshteinDistance (s t : List α) : IsDistance s t (levenshteinDistance s t) := by
  have hrows : ∀ s t : List α, IsDistance s t
      (if t = [] then s.length else ((lastRow t s (List.range (t.length + 1)) 0).getLast?).getD 0) := by
    intro s t
    split_ifs with ht
    · rw [ht]
      exact (isDistance_nil_left s).symm
    · have hstart := isRow_start ([] : List α) t
      rw [List.length_nil, ← List.range_eq_range'] at hstart
      obtain ⟨n, hn, hdist⟩ := (isRow_lastRow (s := s) hstart).getLast?
      rw [List.length_nil] at hn
      rw [hn]
      exact hdist
  unfold levenshteinDistance
  by_cases h : s.length < t.length
  · rw [if_pos h]
    exact (hrows t s).symm
  · rw [if_neg h]
    exact hrows s t

end

end OpenViking.EditDistance
