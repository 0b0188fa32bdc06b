import Mathlib.Algebra.BigOperators.Group.Finset.Piecewise
import Mathlib.Algebra.Order.BigOperators.Group.Finset
import Mathlib.Data.Fintype.BigOperators

/-!
# Transition systems

Runs of a partial step function, the invariant rule for them, and pools of threads that are counted
by what they are doing.

* `always_iff_actsMeet`: what holds all along a run, from what each step does to it;
* `count_update`: the count of a pool after one thread moves.
-/

namespace OpenViking

/-- Two threads, as in the runs below, are some. -/
instance neZero_two : @NeZero ℕ Zero.ofOfNat0 2 := ⟨by decide⟩

/-! ## Runs -/

section Runs

variable {σ α : Type*}

/-- `t` is reached from `s` by steps that all meet the condition `C` (on the state before the step
and the action). -/
inductive Reaches (step : σ → α → Option σ) (C : σ → α → Prop) (s : σ) : σ → Prop
  | refl : Reaches step C s s
  | tail {t u : σ} {a : α} (h : Reaches step C s t) (hc : C t a) (hs : step t a = some u) :
      Reaches step C s u

variable {step : σ → α → Option σ} {C D : σ → α → Prop} {s t : σ}

/-- What holds at the start and is kept by every step holds in every state reached. -/
theorem Reaches.invariant {Inv : σ → Prop} (h0 : Inv s)
    (hstep : ∀ t a u, Inv t → C t a → step t a = some u → Inv u) (h : Reaches step C s t) : Inv t := by
  induction h with
  | refl => exact h0
  | tail _ hc hs ih => exact hstep _ _ _ ih hc hs

theorem Reaches.mono (hCD : ∀ s a, C s a → D s a) (h : Reaches step C s t) : Reaches step D s t := by
  induction h with
  | refl => exact .refl
  | tail _ hc hs ih => exact ih.tail (hCD _ _ hc) hs

/-- Execute the actions in order; `none` when one is not enabled. -/
def runActs (step : σ → α → Option σ) : σ → List α → Option σ
  | s, [] => some s
  | s, a :: as => (step s a).bind fun u => runActs step u as

theorem runActs_append (s : σ) (as bs : List α) :
    runActs step s (as ++ bs) = (runActs step s as).bind fun u => runActs step u bs := by
  induction as generalizing s with
  | nil => rfl
  | cons a as ih =>
    rw [List.cons_append, runActs, runActs, Option.bind_assoc]
    congr 1
    funext u
    exact ih u

/-- Every action of the list meets the condition in the state where it is taken. -/
def ActsMeet (step : σ → α → Option σ) (C : σ → α → Prop) : σ → List α → Prop
  | _, [] => True
  | s, a :: as => C s a ∧ ∀ u ∈ step s a, ActsMeet step C u as

instance decidableActsMeet (step : σ → α → Option σ) (C : σ → α → Prop)
    [∀ s a, Decidable (C s a)] : (s : σ) → (as : List α) → Decidable (ActsMeet step C s as)
  | _, [] => isTrue trivial
  | s, a :: as =>
    have : ∀ u, Decidable (ActsMeet step C u as) := fun u => decidableActsMeet step C u as
    inferInstanceAs (Decidable (C s a ∧ ∀ u ∈ step s a, ActsMeet step C u as))

variable {as : List α}

/-- What each of the actions keeps is kept by all of them in order. -/
theorem ActsMeet.foldl {f : σ → α → σ} {Inv : σ → Prop}
    (hmeet : ActsMeet (fun s a => some (f s a)) C s as) (h : Inv s)
    (hstep : ∀ s a, Inv s → C s a → Inv (f s a)) : Inv (as.foldl f s) := by
  induction as generalizing s with
  | nil => exact h
  | cons a as ih => exact ih (hmeet.2 (f s a) rfl) (hstep s a h hmeet.1)

theorem ActsMeet.mono (hCD : ∀ s a, C s a → D s a) (h : ActsMeet step C s as) : ActsMeet step D s as := by
  induction as generalizing s with
  | nil => trivial
  | cons a as ih => exact ⟨hCD s a h.1, fun u hu => ih (h.2 u hu)⟩

/-- `P` holds in every state that the run of the actions passes through. -/
def Always (step : σ → α → Option σ) (P : σ → Prop) : σ → List α → Prop
  | s, [] => P s
  | s, a :: as => P s ∧ ∀ u ∈ step s a, Always step P u as

instance decidableAlways (step : σ → α → Option σ) (P : σ → Prop) [∀ s, Decidable (P s)] :
    (s : σ) → (as : List α) → Decidable (Always step P s as)
  | s, [] => inferInstanceAs (Decidable (P s))
  | s, a :: as =>
    have : ∀ u, Decidable (Always step P u as) := fun u => decidableAlways step P u as
    inferInstanceAs (Decidable (P s ∧ ∀ u ∈ step s a, Always step P u as))

/-- What each step keeps exactly when it meets a condition holds all along a run exactly when all its
steps meet that condition. -/
theorem always_iff_actsMeet {P : σ → Prop}
    (hstep : ∀ t a u, P t → step t a = some u → (P u ↔ C t a)) (hs : P s)
    (hrun : runActs step s as = some t) : Always step P s as ↔ ActsMeet step C s as := by
  induction as generalizing s with
  | nil => exact iff_of_true hs trivial
  | cons a as ih =>
    obtain ⟨u, hu, hrest⟩ := Option.bind_eq_some_iff.1 hrun
    have hmem : ∀ v, v ∈ step s a ↔ v = u := fun v => by
      rw [hu, Option.mem_some_iff, eq_comm]
    simp only [Always, ActsMeet, hmem, forall_eq, hs, true_and]
    rw [← hstep s a u hs hu]
    constructor
    · intro h
      have hPu : P u := by cases as <;> [exact h; exact h.1]
      exact ⟨hPu, (ih hPu hrest).1 h⟩
    · intro h
      exact (ih h.1 hrest).2 h.2

theorem Reaches.trans {u : σ} (h : Reaches step C s t) (h' : Reaches step C t u) : Reaches step C s u := by
  induction h' with
  | refl => exact h
  | tail _ hc hs ih => exact ih.tail hc hs

/-- A concrete list of actions, executed, is a run. -/
theorem Reaches.of_runActs (hm : ActsMeet step C s as)
    (h : runActs step s as = some t) : Reaches step C s t := by
  induction as generalizing s with
  | nil =>
    obtain rfl : s = t := by simpa [runActs] using h
    exact .refl
  | cons a as ih =>
    obtain ⟨u, hu, hrun⟩ := Option.bind_eq_some_iff.1 h
    have h1 : Reaches step C s u := Reaches.refl.tail hm.1 hu
    exact h1.trans (ih (hm.2 u hu) hrun)

end Runs

/-! ## Pools -/

section Pools

variable {ι τ : Type*} [Fintype ι]

/-- How many threads of the pool are in a state that `p` accepts. -/
def count (p : τ → Bool) (th : ι → τ) : ℕ := ∑ i, (p (th i)).toNat

theorem count_update [DecidableEq ι] (p : τ → Bool) (th : ι → τ) (i : ι) (t : τ) :
    count p (Function.update th i t) + (p (th i)).toNat = count p th + (p t).toNat := by
  have hcomp : (fun j => (p (Function.update th i t j)).toNat) =
      Function.update (fun j => (p (th j)).toNat) i (p t).toNat := by
    funext j
    by_cases h : j = i
    · subst h
      simp
    · simp [h]
  rw [count, count, hcomp, Finset.sum_update_of_mem (Finset.mem_univ i),
    ← Finset.add_sum_erase _ (fun j => (p (th j)).toNat) (Finset.mem_univ i),
    Finset.sdiff_singleton_eq_erase]
  omega

variable {p : τ → Bool} {th : ι → τ}

theorem count_eq_zero : count p th = 0 ↔ ∀ i, p (th i) = false := by
  simp [count]

theorem le_count {i : ι} (h : p (th i) = true) : 1 ≤ count p th := by
  have := Finset.single_le_sum (f := fun j => (p (th j)).toNat) (fun j _ => Nat.zero_le _)
    (Finset.mem_univ i)
  simpa [count, h] using this

theorem eq_of_count_le_one (h : count p th ≤ 1) {i j : ι}
    (hi : p (th i) = true) (hj : p (th j) = true) : i = j := by
  classical
  by_contra hij
  have hpair : ∑ k ∈ {i, j}, (p (th k)).toNat ≤ count p th :=
    Finset.sum_le_sum_of_subset (Finset.subset_univ _)
  rw [Finset.sum_pair hij, hi, hj] at hpair
  simp only [Bool.toNat_true] at hpair
  omega

end Pools

end OpenViking
