import Mathlib.Tactic.Common

/-!
# Specifications of state programs

What a program of `StateM` ends in, stated of its result and its final state.

* `wp_mono`: weakening;
* `wp_forM`: the rule for loops over a list.
-/

namespace OpenViking.StateSpec

variable {σ α β : Type}

/-- From `s`, the program ends in `Q`. -/
def wp (m : StateM σ α) (Q : α → σ → Prop) (s : σ) : Prop := Q (m s).1 (m s).2

variable {m : StateM σ α} {f : α → StateM σ β} {s : σ}

theorem wp_pure {a : α} {Q : α → σ → Prop} (h : Q a s) : wp (pure a : StateM σ α) Q s := h

theorem wp_get {Q : σ → σ → Prop} (h : Q s s) : wp (get : StateM σ σ) Q s := h

variable {Q : PUnit → σ → Prop}

theorem wp_set {t : σ} (h : Q ⟨⟩ t) : wp (set t : StateM σ PUnit) Q s := h

theorem wp_modify {g : σ → σ} (h : Q ⟨⟩ (g s)) : wp (modify g : StateM σ PUnit) Q s := h

theorem wp_bind {Q : β → σ → Prop} (h : wp m (fun a t => wp (f a) Q t) s) : wp (m >>= f) Q s := h

theorem wp_mono {Q Q' : α → σ → Prop} (h : wp m Q s) (hQ : ∀ a t, Q a t → Q' a t) : wp m Q' s :=
  hQ _ _ h

/-- What each turn of a loop keeps, the loop keeps. -/
theorem wp_forM {P : σ → Prop} {l : List α} {g : α → StateM σ PUnit}
    (hg : ∀ a ∈ l, ∀ s, P s → wp (g a) (fun _ t => P t) s) (h : P s) :
    wp (l.forM g) (fun _ t => P t) s := by
  induction l generalizing s with
  | nil => exact wp_pure h
  | cons a l ih =>
    have hrest : ∀ b ∈ l, ∀ s, P s → wp (g b) (fun _ t => P t) s :=
      fun b hb => hg b (List.mem_cons_of_mem _ hb)
    exact wp_bind (wp_mono (hg a (List.mem_cons_self ..) s h) fun _ _ ht => ih hrest ht)

end OpenViking.StateSpec
