import Mathlib.Data.List.Basic
import Mathlib.Tactic.Common
import Mathlib.Tactic.SplitIfs

/-!
# Bit sets in words

A set of numbers as a list of words of `w` bits, number `r` at bit `r % w` of word `r / w`.

Results:

* `hasBit_setBit`: setting one bit sets that bit alone;
* `ofRows_eq_iff`: two lists of numbers give the same words exactly when they have the same members.
-/

namespace OpenViking.BitWords

variable {w : ℕ}

/-- `words[row / w] |= 1 << (row % w)`. -/
def setBit (words : List (BitVec w)) (row : ℕ) : List (BitVec w) :=
  words.modify (row / w) (· ||| BitVec.twoPow w (row % w))

/-- The bit of a number. -/
def hasBit (words : List (BitVec w)) (row : ℕ) : Bool :=
  ((words[row / w]?).getD 0#w).getLsbD (row % w)

/-- The words with the bits of the given numbers. -/
def ofRows (w len : ℕ) (rows : List ℕ) : List (BitVec w) :=
  rows.foldl setBit (List.replicate len 0#w)

@[simp] theorem length_setBit (words : List (BitVec w)) (row : ℕ) :
    (setBit words row).length = words.length := by
  simp [setBit]

variable {words : List (BitVec w)}

/-- Setting one bit sets that bit alone. -/
theorem hasBit_setBit (hw : 0 < w) {row : ℕ} (hrow : row / w < words.length) (r : ℕ) :
    hasBit (setBit words row) r = (hasBit words r || decide (r = row)) := by
  unfold hasBit setBit
  rw [List.getElem?_modify]
  by_cases hword : row / w = r / w
  · have hr : r / w < words.length := hword ▸ hrow
    rw [List.getElem?_eq_getElem hr]
    simp only [hword, if_true, Option.getD_some]
    have hlt : row % w < w := Nat.mod_lt _ hw
    have hiff : r = row ↔ row % w = r % w := by
      refine ⟨fun h => by rw [h], fun h => ?_⟩
      rw [← Nat.div_add_mod r w, ← Nat.div_add_mod row w, h, hword]
    simp [hlt, hiff]
  · have hne : r ≠ row := fun h => hword (by rw [h])
    simp [hword, hne]

@[simp] theorem length_foldl_setBit (rows : List ℕ) (words : List (BitVec w)) :
    (rows.foldl setBit words).length = words.length := by
  induction rows generalizing words with
  | nil => rfl
  | cons row rows ih => rw [List.foldl_cons, ih, length_setBit]

theorem hasBit_foldl_setBit (hw : 0 < w) {rows : List ℕ}
    (hrows : ∀ row ∈ rows, row / w < words.length) (r : ℕ) :
    hasBit (rows.foldl setBit words) r = (hasBit words r || decide (r ∈ rows)) := by
  induction rows generalizing words with
  | nil => simp
  | cons row rows ih =>
    have hrest : ∀ row' ∈ rows, row' / w < (setBit words row).length := fun row' h => by
      rw [length_setBit]
      exact hrows row' (List.mem_cons_of_mem row h)
    rw [List.foldl_cons, ih hrest, hasBit_setBit hw (hrows row List.mem_cons_self), Bool.or_assoc,
      ← Bool.decide_or]
    simp only [List.mem_cons]

theorem hasBit_ofRows (hw : 0 < w) {len : ℕ} {rows : List ℕ} (hrows : ∀ row ∈ rows, row / w < len)
    (r : ℕ) : hasBit (ofRows w len rows) r = decide (r ∈ rows) := by
  have hzero : hasBit (List.replicate len 0#w) r = false := by
    unfold hasBit
    rw [List.getElem?_replicate]
    split_ifs <;> simp
  unfold ofRows
  rw [hasBit_foldl_setBit hw (by simpa using hrows), hzero, Bool.false_or]

/-- Two lists of numbers give the same words exactly when they have the same members. -/
theorem ofRows_eq_iff (hw : 0 < w) {len : ℕ} {rows rows' : List ℕ}
    (hrows : ∀ row ∈ rows, row / w < len) (hrows' : ∀ row ∈ rows', row / w < len) :
    ofRows w len rows = ofRows w len rows' ↔ ∀ r, r ∈ rows ↔ r ∈ rows' := by
  constructor
  · intro h r
    have hbit := congrArg (hasBit · r) h
    simp only [hasBit_ofRows hw hrows, hasBit_ofRows hw hrows'] at hbit
    exact decide_eq_decide.1 hbit
  · intro h
    refine List.ext_getElem (by simp [ofRows]) fun i hi hi' => BitVec.eq_of_getLsbD_eq fun j hj => ?_
    have hbit : hasBit (ofRows w len rows) (w * i + j) = hasBit (ofRows w len rows') (w * i + j) := by
      rw [hasBit_ofRows hw hrows, hasBit_ofRows hw hrows', decide_eq_decide]
      exact h _
    have hdiv : (w * i + j) / w = i := by
      rw [Nat.mul_add_div hw, Nat.div_eq_of_lt hj, Nat.add_zero]
    have hmod : (w * i + j) % w = j := by rw [Nat.mul_add_mod, Nat.mod_eq_of_lt hj]
    unfold hasBit at hbit
    rw [hdiv, hmod, List.getElem?_eq_getElem hi, List.getElem?_eq_getElem hi'] at hbit
    exact hbit

end OpenViking.BitWords
