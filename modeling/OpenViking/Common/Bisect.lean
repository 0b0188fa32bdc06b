import Mathlib.Algebra.Order.Group.Nat
import Mathlib.Tactic.Common

/-!
# Binary search

The two loops that halve a range: for the last number that passes a test, and for the first one.

Results:

* `bisectLast_passes`: the last number passes;
* `bisectFirst_eq`: for a test that holds from a number on, the first that passes is this number.
-/

namespace OpenViking

/-- The loop `while low < high` for the last number that passes, with `fuel` steps. -/
def bisectLast (passes : ℕ → Bool) : ℕ → ℕ → ℕ → ℕ
  | 0, low, _ => low
  | fuel + 1, low, high =>
    if low < high then
      let mid := (low + high + 1) / 2
      if passes mid then bisectLast passes fuel mid high else bisectLast passes fuel low (mid - 1)
    else low

/-- The loop `while low <= high` for the first number that passes, with `fuel` steps. -/
def bisectFirst (passes : ℕ → Bool) : ℕ → ℕ → ℕ → Option ℕ → Option ℕ
  | 0, _, _, found => found
  | fuel + 1, low, high, found =>
    if low ≤ high then
      let mid := (low + high) / 2
      if passes mid then bisectFirst passes fuel low (mid - 1) (some mid)
      else bisectFirst passes fuel (mid + 1) high found
    else found

section Search

theorem bisectLast_passes (passes : ℕ → Bool) (fuel : ℕ) {low : ℕ} (hlow : passes low = true) (high : ℕ) :
    passes (bisectLast passes fuel low high) = true := by
  induction fuel generalizing low high with
  | zero => exact hlow
  | succ fuel ih =>
    rw [bisectLast]
    by_cases hlt : low < high
    · rw [if_pos hlt]
      dsimp only
      by_cases hmid : passes ((low + high + 1) / 2) = true
      · rw [if_pos hmid]
        exact ih hmid high
      · rw [if_neg hmid]
        exact ih hlow _
    · rw [if_neg hlt]
      exact hlow

/-- A test that holds from a number on is decided by the search, whatever was found above the range. -/
theorem bisectFirst_eq {passes : ℕ → Bool} {first : ℕ} (hfirst : ∀ n, passes n = true ↔ first ≤ n) (fuel : ℕ) {low : ℕ}
    (hpos : 1 ≤ low) (hlow : low ≤ first) {high : ℕ} (hfuel : high < low + fuel) (found : Option ℕ) :
    bisectFirst passes fuel low high found = if first ≤ high then some first else found := by
  induction fuel generalizing low high found with
  | zero =>
    rw [if_neg (by omega)]
    rfl
  | succ fuel ih =>
    rw [bisectFirst]
    by_cases hle : low ≤ high
    · rw [if_pos hle]
      dsimp only
      by_cases hmid : passes ((low + high) / 2) = true
      · have hfirstMid := (hfirst _).1 hmid
        rw [if_pos hmid, ih hpos hlow (by omega), if_pos (by omega : first ≤ high)]
        by_cases hbelow : first ≤ (low + high) / 2 - 1
        · rw [if_pos hbelow]
        · have hhit : (low + high) / 2 = first := by omega
          rw [if_neg hbelow, hhit]
      · have hfirstMid : ¬ first ≤ (low + high) / 2 := fun h => hmid ((hfirst _).2 h)
        rw [if_neg hmid]
        exact ih (by omega) (by omega) (by omega) found
    · rw [if_neg hle, if_neg (by omega)]

end Search

end OpenViking
