import Mathlib.Data.List.Pairwise
import Mathlib.Logic.Relation

/-!
# One-shot grants

A grant is live until it is taken; whoever takes it may issue one other grant of each kind from it,
and an issued grant may be live in its turn.  So the grants that descend from one root by products of
one kind form a chain, and only the last of a chain can be live.

Results:

* `Lineage.Inv.issued_once`, `Lineage.Inv.length_filter_issued`: a grant has at most one product of
  each kind;
* `Lineage.Inv.live_unique`: at most one live grant descends from a root.
-/

namespace OpenViking

/-- Which grants are `live`, which takers may still issue a product of which kind from a grant, and
what has been issued, each product with its source. -/
structure Lineage (G T K : Type*) where
  live : G → Prop
  holds : T → G → K → Prop
  issued : List (G × G)

namespace Lineage

variable {G T K : Type*} {kind : G → K} {s s' : Lineage G T K}

/-- Nobody has taken `g`, and nothing was issued from it. -/
def Untouched (s : Lineage G T K) (g : G) : Prop :=
  (∀ t k, ¬ s.holds t g k) ∧ ∀ p, (g, p) ∉ s.issued

/-- What a step may do.  In each case grants may also go dead and takers may give up. -/
inductive Step (kind : G → K) (s s' : Lineage G T K) : Prop
  /-- Nothing else happens. -/
  | quiet (hlive : ∀ g, s'.live g → s.live g) (hholds : ∀ t g k, s'.holds t g k → s.holds t g k)
      (hissued : s'.issued = s.issued)
  /-- A root `p` becomes live. -/
  | seed (p : G) (hp : s.Untouched p) (hlive : ∀ g, s'.live g → s.live g ∨ g = p)
      (hholds : ∀ t g k, s'.holds t g k → s.holds t g k) (hissued : s'.issued = s.issued)
  /-- `t` takes the live grant `g`. -/
  | take (t : T) (g : G) (hg : s.live g) (hdead : ¬ s'.live g) (hlive : ∀ g, s'.live g → s.live g)
      (hholds : ∀ t' g' k, s'.holds t' g' k → s.holds t' g' k ∨ t' = t ∧ g' = g)
      (hissued : s'.issued = s.issued)
  /-- `t` issues `p` from `g`. -/
  | issue (t : T) (g p : G) (hg : s.holds t g (kind p)) (hp : s.Untouched p)
      (hdone : ¬ s'.holds t g (kind p)) (hlive : ∀ g, s'.live g → s.live g ∨ g = p)
      (hholds : ∀ t g k, s'.holds t g k → s.holds t g k)
      (hissued : s'.issued = s.issued ++ [(g, p)])

/-- The invariant: a grant is in one pair of hands at most, and what is live or in hand has not
issued yet. -/
structure Inv (kind : G → K) (s : Lineage G T K) : Prop where
  held_once : ∀ {t t' g k k'}, s.holds t g k → s.holds t' g k' → t = t'
  live_not_held : ∀ {t g k}, s.live g → ¬ s.holds t g k
  live_not_source : ∀ {g p}, s.live g → (g, p) ∉ s.issued
  held_not_source : ∀ {t g k p}, s.holds t g k → (g, p) ∈ s.issued → kind p ≠ k
  once : s.issued.Pairwise fun a b => ¬ (a.1 = b.1 ∧ kind a.2 = kind b.2)

theorem inv_start (hlive : ∀ g, ¬ s.live g) (hholds : ∀ t g k, ¬ s.holds t g k)
    (hissued : s.issued = []) : Inv kind s where
  held_once h := absurd h (hholds _ _ _)
  live_not_held h := absurd h (hlive _)
  live_not_source h := absurd h (hlive _)
  held_not_source h := absurd h (hholds _ _ _)
  once := by rw [hissued]; exact .nil

theorem Inv.untouched (h : Inv kind s) {g : G} (hg : s.live g) : s.Untouched g :=
  ⟨fun _ _ => h.live_not_held hg, fun _ => h.live_not_source hg⟩

/-- **A step keeps the invariant.** -/
theorem Inv.step (h : Inv kind s) (hs : Step kind s s') : Inv kind s' := by
  cases hs with
  | quiet hlive hholds hissued =>
    refine ⟨fun a b => h.held_once (hholds _ _ _ a) (hholds _ _ _ b),
      fun a b => h.live_not_held (hlive _ a) (hholds _ _ _ b), fun a => ?_, fun a => ?_, ?_⟩
    · rw [hissued]
      exact h.live_not_source (hlive _ a)
    · rw [hissued]
      exact h.held_not_source (hholds _ _ _ a)
    · rw [hissued]
      exact h.once
  | seed p hp hlive hholds hissued =>
    have hunt : ∀ {g}, s'.live g → s.Untouched g := fun {g} hg => by
      rcases hlive g hg with hg | rfl
      · exact h.untouched hg
      · exact hp
    refine ⟨fun a b => h.held_once (hholds _ _ _ a) (hholds _ _ _ b),
      fun a b => (hunt a).1 _ _ (hholds _ _ _ b), fun a => ?_, fun a => ?_, ?_⟩
    · rw [hissued]
      exact (hunt a).2 _
    · rw [hissued]
      exact h.held_not_source (hholds _ _ _ a)
    · rw [hissued]
      exact h.once
  | take t g hg hdead hlive hholds hissued =>
    have hsource : ∀ {p}, (g, p) ∉ s.issued := h.live_not_source hg
    refine ⟨fun {t₁ t₂ g' k₁ k₂} a b => ?_, fun {t' g' k} a b => ?_, fun a => ?_,
      fun {t' g' k p} a hmem => ?_, ?_⟩
    · rcases hholds _ _ _ a with a | ⟨rfl, rfl⟩
      · rcases hholds _ _ _ b with b | ⟨rfl, rfl⟩
        · exact h.held_once a b
        · exact absurd a (h.live_not_held hg)
      · rcases hholds _ _ _ b with b | ⟨rfl, -⟩
        · exact absurd b (h.live_not_held hg)
        · rfl
    · rcases hholds _ _ _ b with b | ⟨-, rfl⟩
      · exact h.live_not_held (hlive _ a) b
      · exact hdead a
    · rw [hissued]
      exact h.live_not_source (hlive _ a)
    · rw [hissued] at hmem
      rcases hholds _ _ _ a with a | ⟨-, rfl⟩
      · exact h.held_not_source a hmem
      · exact absurd hmem hsource
    · rw [hissued]
      exact h.once
  | issue t g p hg hp hdone hlive hholds hissued =>
    have hunt : ∀ {g'}, s'.live g' → s.Untouched g' := fun {g'} hg' => by
      rcases hlive g' hg' with hg' | rfl
      · exact h.untouched hg'
      · exact hp
    refine ⟨fun a b => h.held_once (hholds _ _ _ a) (hholds _ _ _ b),
      fun a b => (hunt a).1 _ _ (hholds _ _ _ b), fun {g' q} a hmem => ?_,
      fun {t' g' k q} a hmem => ?_, ?_⟩
    · rw [hissued, List.mem_append, List.mem_singleton] at hmem
      rcases hmem with hmem | heq
      · exact (hunt a).2 _ hmem
      · obtain ⟨rfl, rfl⟩ := Prod.mk.inj heq
        exact (hunt a).1 _ _ hg
    · rw [hissued, List.mem_append, List.mem_singleton] at hmem
      have ha := hholds _ _ _ a
      rcases hmem with hmem | heq
      · exact h.held_not_source ha hmem
      · obtain ⟨rfl, rfl⟩ := Prod.mk.inj heq
        rintro rfl
        obtain rfl := h.held_once ha hg
        exact hdone a
    · rw [hissued, List.pairwise_append]
      refine ⟨h.once, List.pairwise_singleton _ _, fun a ha b hb => ?_⟩
      obtain rfl := List.mem_singleton.1 hb
      rintro ⟨hsource, hkind⟩
      obtain ⟨a₁, a₂⟩ := a
      obtain rfl : a₁ = g := hsource
      exact h.held_not_source hg ha hkind

/-! ## What the invariant says -/

/-- A grant has at most one product of each kind. -/
theorem Inv.issued_once (h : Inv kind s) {g p q : G} (hp : (g, p) ∈ s.issued)
    (hq : (g, q) ∈ s.issued) (hkind : kind p = kind q) : p = q := by
  by_contra hne
  have hsymm : Std.Symm fun a b : G × G => ¬ (a.1 = b.1 ∧ kind a.2 = kind b.2) :=
    ⟨fun _ _ hab hba => hab ⟨hba.1.symm, hba.2.symm⟩⟩
  have hpq : (g, p) ≠ (g, q) := fun heq => hne (Prod.mk.inj heq).2
  exact h.once.forall hp hq hpq ⟨rfl, hkind⟩

/-- What was issued from one grant, of one kind, is at most one product. -/
theorem Inv.length_filter_issued (h : Inv kind s) (f : G × G → Bool)
    (hf : ∀ a b, f a → f b → a.1 = b.1 ∧ kind a.2 = kind b.2) : (s.issued.filter f).length ≤ 1 := by
  have honce := h.once.filter f
  have hall : ∀ e ∈ s.issued.filter f, f e := fun e he => (List.mem_filter.1 he).2
  cases hl : s.issued.filter f with
  | nil => exact Nat.zero_le 1
  | cons a rest =>
    cases rest with
    | nil => exact Nat.le_refl 1
    | cons b rest =>
      rw [hl] at honce hall
      have hab := List.rel_of_pairwise_cons honce (List.mem_cons_self (a := b))
      exact absurd (hf a b (hall a (by simp)) (hall b (by simp))) hab

/-- `g` descends from `root`, by products of the kind `k`. -/
def Descends (kind : G → K) (k : K) (s : Lineage G T K) : G → G → Prop :=
  Relation.ReflTransGen fun a b => (a, b) ∈ s.issued ∧ kind b = k

/-- **At most one live grant descends from a root.** -/
theorem Inv.live_unique (h : Inv kind s) {k : K} {root a b : G} (ha : s.live a) (hb : s.live b)
    (hra : s.Descends kind k root a) (hrb : s.Descends kind k root b) : a = b := by
  induction hra using Relation.ReflTransGen.head_induction_on with
  | refl =>
    rcases hrb.cases_head with heq | ⟨c, hc, -⟩
    · exact heq
    · exact absurd hc.1 (h.live_not_source ha)
  | head hxc _ ih =>
    rcases hrb.cases_head with rfl | ⟨c', hc', hrest⟩
    · exact absurd hxc.1 (h.live_not_source hb)
    · obtain rfl := h.issued_once hxc.1 hc'.1 (hxc.2.trans hc'.2.symm)
      exact ih hrest

end Lineage

end OpenViking
