import Mathlib.Data.List.Basic
import Mathlib.Logic.Function.Basic
import Mathlib.Tactic.Common

/-!
# Logs of keyed operations

Operations that each read and write the value of one key.  What a log does to a key is what the
key's own operations do to its value, so logs that share no key commute, and a batch that comes late
but shares no key with the batches before it can be moved to the front.

* `KeyedOps.run_remove`: a batch moves before the batches it shares no key with;
* `KeyedOps.Chain`: what holds of each batch in the state that the batches before it lead to;
  `Chain.remove` keeps it when a batch moves to the front.
-/

namespace OpenViking

/-- Operations on a map, each on one key. -/
structure KeyedOps (K V O : Type*) where
  key : O → K
  effect : O → Option V → Option V

namespace KeyedOps

variable {K V O β : Type*} (S : KeyedOps K V O)

/-- The value that a history leads to. -/
def value (v : Option V) (os : List O) : Option V := os.foldl (fun v o => S.effect o v) v

variable (v : Option V)

@[simp] theorem value_nil : S.value v [] = v := rfl

theorem value_append (os ps : List O) :
    S.value v (os ++ ps) = S.value (S.value v os) ps := List.foldl_append

@[simp] theorem value_singleton (o : O) : S.value v [o] = S.effect o v := rfl

/-- The logs share no key. -/
def Apart (os ps : List O) : Prop := ∀ o ∈ os, ∀ p ∈ ps, S.key o ≠ S.key p

variable {S}

theorem Apart.symm {os ps : List O} (h : S.Apart os ps) : S.Apart ps os :=
  fun p hp o ho => (h o ho p hp).symm

variable {bs pre post : List β}

theorem Apart.of_flatMap {ops : β → List O} {p : List O}
    (h : ∀ b ∈ bs, S.Apart (ops b) p) : S.Apart (bs.flatMap ops) p := by
  intro o ho
  obtain ⟨b, hb, hob⟩ := List.mem_flatMap.1 ho
  exact h b hb o hob

/-! ## Logs -/

variable (S) [DecidableEq K]

/-- One operation. -/
def apply (m : K → Option V) (o : O) : K → Option V :=
  Function.update m (S.key o) (S.effect o (m (S.key o)))

/-- A log of operations, oldest first. -/
def run (m : K → Option V) (os : List O) : K → Option V := os.foldl S.apply m

/-- The operations on a key. -/
def history (k : K) (os : List O) : List O := os.filter fun o => S.key o = k

@[simp] theorem run_nil (m : K → Option V) : S.run m [] = m := rfl

@[simp] theorem run_cons (m : K → Option V) (o : O) (os : List O) :
    S.run m (o :: os) = S.run (S.apply m o) os := rfl

theorem run_append (m : K → Option V) (os ps : List O) :
    S.run m (os ++ ps) = S.run (S.run m os) ps := List.foldl_append

@[simp] theorem history_nil (k : K) : S.history k [] = [] := rfl

theorem history_append (k : K) (os ps : List O) :
    S.history k (os ++ ps) = S.history k os ++ S.history k ps := List.filter_append ..

variable {os : List O}

theorem mem_history {k : K} {o : O} : o ∈ S.history k os ↔ o ∈ os ∧ S.key o = k := by
  simp [history]

theorem history_eq_nil {k : K} : S.history k os = [] ↔ ∀ o ∈ os, S.key o ≠ k := by
  simp [history, List.filter_eq_nil_iff]

/-- The value of a key after a log. -/
theorem run_apply (m : K → Option V) (os : List O) (k : K) :
    S.run m os k = S.value (m k) (S.history k os) := by
  induction os generalizing m with
  | nil => rfl
  | cons o os ih =>
    rw [run_cons, ih, history, history, List.filter_cons]
    by_cases h : S.key o = k
    · subst h
      simp [apply, value]
    · simp [apply, h, Ne.symm h]

variable {m : K → Option V}

theorem run_congr {m' : K → Option V} {k : K} (h : m k = m' k) : S.run m os k = S.run m' os k := by
  rw [run_apply, run_apply, h]

theorem run_of_history_eq_nil {k : K} (h : S.history k os = []) : S.run m os k = m k := by
  rw [run_apply, h, value_nil]

variable {S}

theorem Apart.history_eq_nil_or {os ps : List O} (h : S.Apart os ps) (k : K) :
    S.history k os = [] ∨ S.history k ps = [] := by
  by_contra hne
  push Not at hne
  obtain ⟨o, ho⟩ := List.exists_mem_of_ne_nil _ hne.1
  obtain ⟨p, hp⟩ := List.exists_mem_of_ne_nil _ hne.2
  obtain ⟨ho, hok⟩ := S.mem_history.1 ho
  obtain ⟨hp, hpk⟩ := S.mem_history.1 hp
  exact h o ho p hp (hok.trans hpk.symm)

theorem Apart.history_eq_nil {os ps : List O} (h : S.Apart os ps) {o : O} (ho : o ∈ os) :
    S.history (S.key o) ps = [] :=
  S.history_eq_nil.2 fun p hp => (h o ho p hp).symm

/-- Logs that share no key commute. -/
theorem Apart.run_comm {os ps : List O} (h : S.Apart os ps) (m : K → Option V) :
    S.run (S.run m os) ps = S.run (S.run m ps) os := by
  funext k
  rcases h.history_eq_nil_or k with hnil | hnil <;> simp [run_apply, hnil]

/-- A batch moves before the batches it shares no key with. -/
theorem run_remove {ops : β → List O} {b : β} (h : ∀ q ∈ pre, S.Apart (ops q) (ops b)) (m : K → Option V) :
    S.run m ((pre ++ b :: post).flatMap ops) =
      S.run (S.run m (ops b)) ((pre ++ post).flatMap ops) := by
  simp only [List.flatMap_append, List.flatMap_cons, run_append]
  rw [(Apart.of_flatMap h).run_comm]

/-! ## Chains of batches -/

/-- `R` holds of every batch, in the state that the batches before it lead to. -/
def Chain (S : KeyedOps K V O) (R : (K → Option V) → β → Prop) (ops : β → List O) :
    (K → Option V) → List β → Prop
  | _, [] => True
  | m, b :: bs => R m b ∧ Chain S R ops (S.run m (ops b)) bs

variable {R : (K → Option V) → β → Prop} {ops : β → List O}

theorem chain_concat {b : β} :
    S.Chain R ops m (bs ++ [b]) ↔ S.Chain R ops m bs ∧ R (S.run m (bs.flatMap ops)) b := by
  induction bs generalizing m with
  | nil => simp [Chain]
  | cons a bs ih => simp [Chain, ih, List.flatMap_cons, run_append, and_assoc]

/-- When `R` is about the keys of the batch alone, it also holds of a batch that moves before those
it shares no key with, and still holds of the others. -/
theorem Chain.remove (hR : ∀ {m m' b}, (∀ o ∈ ops b, m (S.key o) = m' (S.key o)) → R m b → R m' b)
    {b : β} (hc : S.Chain R ops m (pre ++ b :: post)) (h : ∀ q ∈ pre, S.Apart (ops q) (ops b)) :
    R m b ∧ S.Chain R ops (S.run m (ops b)) (pre ++ post) := by
  induction pre generalizing m with
  | nil => exact hc
  | cons q pre ih =>
    obtain ⟨hq, hrest⟩ := hc
    obtain ⟨hqb, hpre⟩ := List.forall_mem_cons.1 h
    obtain ⟨hb, htail⟩ := ih hrest hpre
    refine ⟨hR (fun o ho => S.run_of_history_eq_nil ?_) hb, hR (fun o ho => ?_) hq, ?_⟩
    · exact hqb.symm.history_eq_nil ho
    · exact (S.run_of_history_eq_nil (hqb.history_eq_nil ho)).symm
    · rwa [hqb.run_comm] at htail

end KeyedOps

end OpenViking
