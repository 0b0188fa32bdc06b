import Mathlib.Logic.Relation
import Mathlib.Tactic.Common
import OpenViking.Common.System

/-!
# Programs under interference

A program is a tree of calls; between any two of its calls the state may change, within a relation
(the rely) that says what the other programs may do.  The triples here are those of rely/guarantee
reasoning for one program: its assertions have to be stable under the rely.

* `Prog.Triple.forall_post`: postconditions may be proved one at a time;
* `Pool.wp_reaches`: in a pool of programs that interleave, what a triple promises of one of them
  holds in every state reached.
-/

namespace OpenViking

/-- Programs that make calls of type `C`, where a call `c` is answered by a `ρ c`.  `stuck` is a
program that makes no further call. -/
inductive Prog {C : Type} (ρ : C → Type) (α : Type) : Type where
  | ret (a : α)
  | call (c : C) (k : ρ c → Prog ρ α)
  | stuck

namespace Prog

variable {C : Type} {ρ : C → Type} {α β σ : Type}

/-- First one program, then another. -/
def bind : Prog ρ α → (α → Prog ρ β) → Prog ρ β
  | ret a, f => f a
  | call c k, f => call c fun r => (k r).bind f
  | stuck, _ => stuck

instance : Monad (Prog ρ) where
  pure := ret
  bind := bind

@[simp] theorem pure_eq (a : α) : (pure a : Prog ρ α) = ret a := rfl

@[simp] theorem ret_bind (a : α) (f : α → Prog ρ β) : ret a >>= f = f a := rfl

@[simp] theorem call_bind (c : C) (k : ρ c → Prog ρ α) (f : α → Prog ρ β) :
    call c k >>= f = call c fun r => k r >>= f := rfl

@[simp] theorem stuck_bind (f : α → Prog ρ β) : (stuck : Prog ρ α) >>= f = stuck := rfl

theorem bind_assoc {γ : Type} (p : Prog ρ α) (f : α → Prog ρ β) (g : β → Prog ρ γ) :
    (p >>= f) >>= g = p >>= fun a => f a >>= g := by
  induction p with
  | ret a => rfl
  | call c k ih => simp [ih]
  | stuck => rfl

/-- The program that makes one call. -/
def perform (c : C) : Prog ρ (ρ c) := call c ret

/-- Repeat the body until it gives a result, at most so many times. -/
def spin : ℕ → Prog ρ (Option α) → Prog ρ α
  | 0, _ => stuck
  | n + 1, body => body >>= fun r =>
    match r with
    | none => spin n body
    | some a => ret a

/-- Every call that the program can make satisfies `P`. -/
def All (P : C → Prop) : Prog ρ α → Prop
  | ret _ => True
  | call c k => P c ∧ ∀ r, (k r).All P
  | stuck => True

variable {f : α → Prog ρ β}

variable {p : Prog ρ α}

theorem All.bind {P : C → Prop} (hp : p.All P) (hf : ∀ a, (f a).All P) : (p >>= f).All P := by
  induction p with
  | ret a => exact hf a
  | call c k ih => exact ⟨hp.1, fun r => ih r (hp.2 r)⟩
  | stuck => trivial

theorem All.perform {P : C → Prop} {c : C} (h : P c) : (Prog.perform c : Prog ρ (ρ c)).All P :=
  ⟨h, fun _ => trivial⟩

theorem All.true (p : Prog ρ α) : p.All fun _ => True := by
  induction p with
  | ret a => trivial
  | call c k ih => exact ⟨trivial, ih⟩
  | stuck => trivial

/-- Every result that the program can give satisfies `P`. -/
def Rets (P : α → Prop) : Prog ρ α → Prop
  | ret a => P a
  | call _ k => ∀ r, (k r).Rets P
  | stuck => True

theorem Rets.true (p : Prog ρ α) : p.Rets fun _ => True := by
  induction p with
  | ret a => trivial
  | call c k ih => exact ih
  | stuck => trivial

theorem Rets.bind {P : α → Prop} {Q : β → Prop} (hp : p.Rets P)
    (hf : ∀ a, P a → (f a).Rets Q) : (p >>= f).Rets Q := by
  induction p with
  | ret a => exact hf a hp
  | call c k ih => exact fun r => ih r (hp r)
  | stuck => trivial

/-! ## Runs without interference -/

/-- The program, run alone from the state, ends with the result in another; each call is resolved in
some way. -/
inductive Run (exec : (c : C) → σ → ℕ → ρ c × σ) : Prog ρ α → σ → α → σ → Prop
  | ret (a : α) (s : σ) : Run exec (ret a) s a s
  | call {c : C} {k : ρ c → Prog ρ α} {s : σ} (n : ℕ) {a : α} {t : σ}
      (h : Run exec (k (exec c s n).1) (exec c s n).2 a t) : Run exec (call c k) s a t

section Run

variable {exec : (c : C) → σ → ℕ → ρ c × σ} {s t : σ}

@[simp] theorem run_ret_iff {a b : α} : Run exec (ret a) s b t ↔ b = a ∧ t = s := by
  constructor
  · rintro ⟨⟩
    exact ⟨rfl, rfl⟩
  · rintro ⟨rfl, rfl⟩
    exact .ret _ _

theorem run_call_iff {c : C} {k : ρ c → Prog ρ α} {a : α} :
    Run exec (call c k) s a t ↔ ∃ n, Run exec (k (exec c s n).1) (exec c s n).2 a t := by
  constructor
  · intro h
    cases h with
    | call n h => exact ⟨n, h⟩
  · rintro ⟨n, h⟩
    exact .call n h

variable {p : Prog ρ α}

theorem run_bind_iff {f : α → Prog ρ β} {b : β} :
    Run exec (p >>= f) s b t ↔ ∃ a u, Run exec p s a u ∧ Run exec (f a) u b t := by
  induction p generalizing s with
  | ret a => simp
  | call c k ih =>
    rw [call_bind, run_call_iff]
    simp only [ih, run_call_iff]
    constructor
    · rintro ⟨n, a, u, h, hf⟩
      exact ⟨a, u, ⟨n, h⟩, hf⟩
    · rintro ⟨a, u, ⟨n, h⟩, hf⟩
      exact ⟨n, a, u, h, hf⟩
  | stuck =>
    constructor
    · rintro ⟨⟩
    · rintro ⟨a, u, ⟨⟩, -⟩

/-- The run in which each call is resolved by the same number. -/
def eval (exec : (c : C) → σ → ℕ → ρ c × σ) (n : ℕ) : Prog ρ α → σ → Option (α × σ)
  | ret a, s => some (a, s)
  | call c k, s => (k (exec c s n).1).eval exec n (exec c s n).2
  | stuck, _ => none

theorem run_of_eval {n : ℕ} {a : α} (h : p.eval exec n s = some (a, t)) : Run exec p s a t := by
  induction p generalizing s with
  | ret b =>
    obtain ⟨rfl, rfl⟩ := Prod.mk.inj (Option.some.inj h)
    exact .ret _ _
  | call c k ih => exact .call n (ih _ h)
  | stuck => cases h

/-- What every call of a program keeps, its runs keep. -/
theorem Run.invariant {D : C → Prop} {P : σ → Prop} {a : α} (hp : p.All D)
    (h : ∀ c, D c → ∀ s n, P s → P (exec c s n).2) (hrun : Run exec p s a t) (hs : P s) : P t := by
  induction hrun with
  | ret => exact hs
  | call n _ ih => exact ih (hp.2 _) (h _ hp.1 _ n hs)

end Run

/-! ## Settings and triples -/

/-- How calls are answered, what the other programs may do, and which answers are allowed. -/
structure Setting (ρ : C → Type) (σ : Type) where
  /-- The answer and the new state, for each resolution `n` of what the state leaves open. -/
  exec : (c : C) → σ → ℕ → ρ c × σ
  rely : σ → σ → Prop
  allowed : σ → C → ℕ → Prop

variable {S : Setting ρ σ}

/-- The assertion survives what the other programs do. -/
def Setting.Stable (S : Setting ρ σ) (P : σ → Prop) : Prop := ∀ s t, S.rely s t → P s → P t

variable {s t : σ}

theorem Setting.Stable.star {P : σ → Prop} (h : S.Stable P)
    (hst : Relation.ReflTransGen S.rely s t) (hs : P s) : P t := by
  induction hst with
  | refl => exact hs
  | tail _ hr ih => exact h _ _ hr ih

theorem Setting.Stable.and {P Q : σ → Prop} (hP : S.Stable P) (hQ : S.Stable Q) :
    S.Stable fun s => P s ∧ Q s :=
  fun s t hr h => ⟨hP s t hr h.1, hQ s t hr h.2⟩

theorem Setting.Stable.exists {ι : Type} {P : ι → σ → Prop} (h : ∀ i, S.Stable (P i)) :
    S.Stable fun s => ∃ i, P i s :=
  fun s t hr ⟨i, hs⟩ => ⟨i, h i s t hr hs⟩

theorem Setting.Stable.imp {p : Prop} {P : σ → Prop} (h : p → S.Stable P) :
    S.Stable fun s => p → P s :=
  fun s t hr hs hp => h hp s t hr (hs hp)

theorem Setting.Stable.const (p : Prop) : S.Stable fun _ => p := fun _ _ _ h => h

/-- From the state, whatever the others do in between, the program ends in `Q` if it ends. -/
def wp (S : Setting ρ σ) : Prog ρ α → (α → σ → Prop) → σ → Prop
  | ret a, Q, s => ∀ t, Relation.ReflTransGen S.rely s t → Q a t
  | call c k, Q, s => ∀ t, Relation.ReflTransGen S.rely s t → ∀ n, S.allowed t c n →
      (k (S.exec c t n).1).wp S Q (S.exec c t n).2
  | stuck, _, _ => True

variable {Q : α → σ → Prop}

theorem wp_rely (hst : S.rely s t) (h : p.wp S Q s) : p.wp S Q t := by
  cases p with
  | ret a => exact fun u hu => h u (.head hst hu)
  | call c k => exact fun u hu => h u (.head hst hu)
  | stuck => trivial

theorem wp_step {c : C} {k : ρ c → Prog ρ α} {n : ℕ} (h : (call c k).wp S Q s) (hn : S.allowed s c n) :
    (k (S.exec c s n).1).wp S Q (S.exec c s n).2 :=
  h s .refl n hn

theorem wp_done {a : α} (h : (ret a : Prog ρ α).wp S Q s) : Q a s :=
  h s .refl

theorem wp_mono {Q' : α → σ → Prop} (hQ : ∀ a s, Q a s → Q' a s) (h : p.wp S Q s) : p.wp S Q' s := by
  induction p generalizing s with
  | ret a => exact fun t ht => hQ a t (h t ht)
  | call c k ih => exact fun t ht n hn => ih _ (h t ht n hn)
  | stuck => trivial

theorem wp_bind {Q : β → σ → Prop} (h : p.wp S (fun a t => (f a).wp S Q t) s) : (p >>= f).wp S Q s := by
  induction p generalizing s with
  | ret a => exact h s .refl
  | call c k ih => exact fun t ht n hn => ih _ (h t ht n hn)
  | stuck => trivial

/-- `{P} p {Q}`: from every state in `P`. -/
def Triple (S : Setting ρ σ) (P : σ → Prop) (p : Prog ρ α) (Q : α → σ → Prop) : Prop :=
  ∀ s, P s → p.wp S Q s

namespace Triple

variable {P : σ → Prop} {Q : α → σ → Prop}

variable {p : Prog ρ α} {Q' : α → σ → Prop}

theorem mono {P' : σ → Prop} (h : p.Triple S P Q)
    (hP : ∀ s, P' s → P s) (hQ : ∀ a s, Q a s → Q' a s) : p.Triple S P' Q' :=
  fun s hs => wp_mono hQ (h s (hP s hs))

theorem post (h : p.Triple S P Q) (hQ : ∀ a s, Q a s → Q' a s) : p.Triple S P Q' :=
  h.mono (fun _ hs => hs) hQ

theorem ret {a : α} (hP : S.Stable P) (h : ∀ s, P s → Q a s) : (Prog.ret a).Triple S P Q :=
  fun _ hs t ht => h t (hP.star ht hs)

theorem call {c : C} {k : ρ c → Prog ρ α} (hP : S.Stable P)
    (h : ∀ s n, P s → S.allowed s c n → (k (S.exec c s n).1).wp S Q (S.exec c s n).2) :
    (Prog.call c k).Triple S P Q :=
  fun _ hs t ht n hn => h t n (hP.star ht hs) hn

theorem perform {c : C} {Q : ρ c → σ → Prop} (hP : S.Stable P) (hQ : ∀ r, S.Stable (Q r))
    (h : ∀ s n, P s → S.allowed s c n → Q (S.exec c s n).1 (S.exec c s n).2) :
    (Prog.perform c).Triple S P Q :=
  call hP fun s n hs hn _ ht => (hQ _).star ht (h s n hs hn)

theorem bind {f : α → Prog ρ β} {M : α → σ → Prop} {Q : β → σ → Prop}
    (hp : p.Triple S P M) (hf : ∀ a, (f a).Triple S (M a) Q) : (p >>= f).Triple S P Q :=
  fun s hs => wp_bind (wp_mono (fun a t ht => hf a t ht) (hp s hs))

theorem stuck : (Prog.stuck : Prog ρ α).Triple S P Q := fun _ _ => trivial

/-- A precondition that does not depend on the state. -/
theorem of_prop {p : Prop} {q : Prog ρ α} (h : p → q.Triple S P Q) :
    q.Triple S (fun s => p ∧ P s) Q :=
  fun s hs => h hs.1 s hs.2

/-- A precondition that holds nowhere. -/
theorem of_false (h : ∀ s, ¬ P s) : p.Triple S P Q := fun s hs => absurd hs (h s)

/-- A precondition that holds of some value. -/
theorem of_exists {τ : Type} {P : τ → σ → Prop} (h : ∀ a, p.Triple S (P a) Q) :
    p.Triple S (fun s => ∃ a, P a s) Q := by
  rintro s ⟨a, hs⟩
  exact h a s hs

/-- What holds of every result. -/
theorem of_rets {R : α → Prop} (h : p.Rets R) : p.Triple S P fun a _ => R a := by
  intro s hs
  clear hs
  induction p generalizing s with
  | ret a => exact fun _ _ => h
  | call c k ih => exact fun t _ n _ => ih _ (h _) _
  | stuck => trivial

/-- The loop rule: the body keeps the invariant, or ends in the postcondition. -/
theorem spin {body : Prog ρ (Option α)} (hQ : ∀ a, S.Stable (Q a)) (hbody : body.Triple S P fun r s =>
      match r with | none => P s | some a => Q a s) (n : ℕ) : (Prog.spin n body).Triple S P Q := by
  induction n with
  | zero => exact stuck
  | succ n ih =>
    refine hbody.bind fun r => ?_
    cases r with
    | none => exact ih
    | some a => exact ret (hQ a) fun _ hs => hs

/-- What every call of a program keeps, the program keeps. -/
theorem of_all {D : C → Prop} (hp : p.All D) (hP : S.Stable P)
    (h : ∀ c, D c → ∀ s n, P s → S.allowed s c n → P (S.exec c s n).2) : p.Triple S P fun _ => P := by
  induction p with
  | ret a => exact ret hP fun _ hs => hs
  | call c k ih =>
    exact call hP fun s n hs hn => ih _ (hp.2 _) _ (h c hp.1 s n hs hn)
  | stuck => exact stuck

theorem forall_post {ι : Type} {Q : ι → α → σ → Prop}
    (h : ∀ i, p.Triple S P (Q i)) : p.Triple S P fun a s => ∀ i, Q i a s := by
  intro s hs
  have hwp : ∀ i, p.wp S (Q i) s := fun i => h i s hs
  clear h hs
  induction p generalizing s with
  | ret a => exact fun t ht i => hwp i t ht
  | call c k ih => exact fun t ht n hn => ih _ _ fun i => hwp i t ht n hn
  | stuck => trivial

theorem and_post {Q Q' : α → σ → Prop} (h : p.Triple S P Q)
    (h' : p.Triple S P Q') : p.Triple S P fun a s => Q a s ∧ Q' a s := by
  intro s hs
  have hwp := h s hs
  have hwp' := h' s hs
  clear h h' hs
  induction p generalizing s with
  | ret a => exact fun t ht => ⟨hwp t ht, hwp' t ht⟩
  | call c k ih => exact fun t ht n hn => ih _ _ (hwp t ht n hn) (hwp' t ht n hn)
  | stuck => trivial

end Triple

end Prog

/-! ## Pools of programs -/

/-- Programs that run interleaved, over one state. -/
structure Pool (ι : Type) {C : Type} (ρ : C → Type) (σ α : Type) where
  state : σ
  prog : ι → Prog ρ α

namespace Pool

variable {ι C : Type} {ρ : C → Type} {σ α : Type} [DecidableEq ι]

/-- Program `a.1` makes its next call, which is resolved by `a.2`. -/
def step (exec : ι → (c : C) → σ → ℕ → ρ c × σ) (x : Pool ι ρ σ α) (a : ι × ℕ) :
    Option (Pool ι ρ σ α) :=
  match x.prog a.1 with
  | .call c k =>
    let r := exec a.1 c x.state a.2
    some ⟨r.2, Function.update x.prog a.1 (k r.1)⟩
  | _ => none

/-- The call that program `a.1` makes next meets the condition. -/
def Meets (cond : ι → σ → C → ℕ → Prop) (x : Pool ι ρ σ α) (a : ι × ℕ) : Prop :=
  match x.prog a.1 with
  | .call c _ => cond a.1 x.state c a.2
  | _ => True

instance (cond : ι → σ → C → ℕ → Prop) [∀ i s c n, Decidable (cond i s c n)]
    (x : Pool ι ρ σ α) (a : ι × ℕ) : Decidable (x.Meets cond a) := by
  unfold Meets
  split <;> infer_instance

/-- The setting of one program in a pool whose calls all meet a condition. -/
def settingOf (exec : ι → (c : C) → σ → ℕ → ρ c × σ) (cond : ι → σ → C → ℕ → Prop) (i : ι) :
    Prog.Setting ρ σ where
  exec := exec i
  rely s t := ∃ j c n, j ≠ i ∧ cond j s c n ∧ t = (exec j c s n).2
  allowed := cond i

variable {exec : ι → (c : C) → σ → ℕ → ρ c × σ} {cond : ι → σ → C → ℕ → Prop}

/-- The inversion of a step. -/
theorem step_cases {x y : Pool ι ρ σ α} {a : ι × ℕ} (h : x.step exec a = some y) :
    ∃ c k, x.prog a.1 = .call c k ∧ y.state = (exec a.1 c x.state a.2).2 ∧
      y.prog = Function.update x.prog a.1 (k (exec a.1 c x.state a.2).1) := by
  unfold step at h
  split at h
  · next c k hprog =>
    cases h
    exact ⟨c, k, hprog, rfl, rfl⟩
  · cases h

/-- What the weakest precondition promises of a program, it promises as long as the pool runs. -/
theorem wp_reaches {i : ι} {Q : α → σ → Prop} {x y : Pool ι ρ σ α}
    (h : (x.prog i).wp (settingOf exec cond i) Q x.state) (hr : Reaches (step exec) (Meets cond) x y) :
    (y.prog i).wp (settingOf exec cond i) Q y.state := by
  induction hr with
  | refl => exact h
  | @tail y z a _ hc hs ih =>
    obtain ⟨c, k, hprog, hstate, hprogs⟩ := step_cases hs
    have hcond : cond a.1 y.state c a.2 := by
      simpa [Meets, hprog] using hc
    rw [hstate, hprogs]
    by_cases ha : a.1 = i
    · subst ha
      rw [Function.update_self]
      rw [hprog] at ih
      exact Prog.wp_step ih hcond
    · rw [Function.update_of_ne (Ne.symm ha)]
      exact Prog.wp_rely ⟨a.1, c, a.2, ha, hcond, rfl⟩ ih

end Pool

end OpenViking
