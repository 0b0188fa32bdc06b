import Mathlib.Algebra.Order.Group.Nat
import Mathlib.Tactic.Common

/-!
# Pages

A list that is given out in pages, each with the token of the next one.

Results:

* `Pages.of_cursor`: tokens that stand at places further and further on lead to the end.
-/

namespace OpenViking

/-- A page, and the token of the next one if there is one. -/
structure Page (α τ : Type*) where
  entries : List α
  nextToken : Option τ
  deriving DecidableEq

/-- From this token on the pages come to an end, and together they hold these entries. -/
inductive Pages {α τ : Type*} (page : Option τ → Page α τ → Prop) : Option τ → List α → Prop
  | last {token : Option τ} {entries : List α} (h : page token ⟨entries, none⟩) : Pages page token entries
  | more {token : Option τ} {next : τ} {entries rest : List α} (h : page token ⟨entries, some next⟩)
      (hrest : Pages page (some next) rest) : Pages page token (entries ++ rest)

section Pages

variable {α τ : Type*} {page : Option τ → Page α τ → Prop}

/-- Each token stands at a place; from there the page gives what is left, or a part of it and a token that
stands where the rest begins. -/
theorem Pages.of_cursor (stands : Option τ → ℕ → Prop) (left : ℕ → List α) (stop : ℕ)
    (hpage : ∀ token place, stands token place →
      page token ⟨left place, none⟩ ∨
        ∃ entries next place', page token ⟨entries, some next⟩ ∧ stands (some next) place' ∧
          place < place' ∧ place' ≤ stop ∧ left place = entries ++ left place')
    {token : Option τ} {place : ℕ} (h : stands token place) : Pages page token (left place) := by
  induction hgap : stop - place using Nat.strongRecOn generalizing token place with
  | _ gap ih =>
    rcases hpage token place h with hlast | ⟨entries, next, place', hmore, hnext, hlt, hle, heq⟩
    · exact .last hlast
    · rw [heq]
      exact .more hmore (ih (stop - place') (by omega) hnext rfl)

end Pages

end OpenViking
