import OpenViking.Common.Prog

/-!
# Programs that are cut off

A program runs alone, each call resolved as a list says; where the list ends before the program
does, a crash cuts it off between two calls.  `CrashWp` is a weakest precondition with a crash
condition: the program ends in `Q`, and before each of its calls `C` holds.

* `CrashWp.play`: what it says about a program that may be cut off;
* `CrashWp.eval`: what it says about a program whose calls are all resolved alike.
-/

namespace OpenViking.Prog

variable {C : Type} {ρ : C → Type} {α β σ : Type}

/-- The program, its calls resolved in turn as listed; `none` where it is cut off. -/
def play (exec : (c : C) → σ → ℕ → ρ c × σ) : Prog ρ α → List ℕ → σ → Option α × σ
  | ret a, _, s => (some a, s)
  | call c k, n :: l, s => (k (exec c s n).1).play exec l (exec c s n).2
  | call _ _, [], s => (none, s)
  | stuck, _, s => (none, s)

/-- With calls resolved in the allowed ways, the program ends in `Q`, and `K` holds before each
call. -/
def CrashWp (exec : (c : C) → σ → ℕ → ρ c × σ) (allowed : ℕ → Prop) :
    Prog ρ α → (α → σ → Prop) → (σ → Prop) → σ → Prop
  | ret a, Q, _, s => Q a s
  | call c k, Q, K, s =>
    K s ∧ ∀ n, allowed n → (k (exec c s n).1).CrashWp exec allowed Q K (exec c s n).2
  | stuck, _, _, _ => False

/-- The program has ended in `Q`, or is cut off in `K`. -/
def Ends (Q : α → σ → Prop) (K : σ → Prop) : Option α × σ → Prop
  | (some a, t) => Q a t
  | (none, t) => K t

namespace CrashWp

variable {exec : (c : C) → σ → ℕ → ρ c × σ} {allowed : ℕ → Prop} {K : σ → Prop} {s : σ}

variable {p : Prog ρ α}

theorem mono {Q Q' : α → σ → Prop} (hQ : ∀ a t, Q a t → Q' a t)
    (h : p.CrashWp exec allowed Q K s) : p.CrashWp exec allowed Q' K s := by
  induction p generalizing s with
  | ret a => exact hQ a s h
  | call c k ih => exact ⟨h.1, fun n hn => ih _ (h.2 n hn)⟩
  | stuck => exact h

theorem bind {f : α → Prog ρ β} {Q : β → σ → Prop}
    (h : p.CrashWp exec allowed (fun a t => (f a).CrashWp exec allowed Q K t) K s) :
    (p >>= f).CrashWp exec allowed Q K s := by
  induction p generalizing s with
  | ret a => exact h
  | call c k ih => exact ⟨h.1, fun n hn => ih _ (h.2 n hn)⟩
  | stuck => exact h

theorem perform {c : C} {Q : ρ c → σ → Prop} (hK : K s)
    (h : ∀ n, allowed n → Q (exec c s n).1 (exec c s n).2) :
    (Prog.perform c).CrashWp exec allowed Q K s :=
  ⟨hK, h⟩

/-- **A program that may be cut off ends in `Q`, or is cut off in `K`.** -/
theorem play {Q : α → σ → Prop} (h : p.CrashWp exec allowed Q K s) {l : List ℕ}
    (hl : ∀ n ∈ l, allowed n) : Ends Q K (p.play exec l s) := by
  induction p generalizing s l with
  | ret a => exact h
  | call c k ih =>
    cases l with
    | nil => exact h.1
    | cons n l =>
      rw [List.forall_mem_cons] at hl
      exact ih _ (h.2 n hl.1) hl.2
  | stuck => exact h.elim

/-- **A program whose calls are resolved alike ends, and in `Q`.** -/
theorem eval {Q : α → σ → Prop} (h : p.CrashWp exec allowed Q K s) {n : ℕ}
    (hn : allowed n) : ∃ a t, p.eval exec n s = some (a, t) ∧ Q a t := by
  induction p generalizing s with
  | ret a => exact ⟨a, s, rfl, h⟩
  | call c k ih => exact ih _ (h.2 n hn)
  | stuck => exact h.elim

end CrashWp

end OpenViking.Prog
