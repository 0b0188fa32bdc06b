import Mathlib.Order.Basic
import Mathlib.Tactic.Common
import Mathlib.Data.Fintype.Basic

/-!
# Two parties that announce themselves and look at each other

Each of two parties has a register of its own, in which it writes a time stamp to announce itself and
which it empties again.  A party looks at the other's register, announces itself when that is empty,
looks again, and has won when it is still empty.  Otherwise the younger of two announcements is taken
back and the older one stays while its party starts over.  A party may also empty the other's register,
if it found something in it and then nothing.

This is the protocol that `acquire_tree` and an acquire below it follow, without the file tree.  Where
a party stands (`Standing`) is what it is doing and whether its register is filled; which two standings
go together is a finite table.  Results:

* `Inv.move`: every move of a party keeps the invariant;
* `Inv.not_both_won`: the parties do not both win.
-/

namespace OpenViking.Transaction.TreeProtocol

/-! ## Parties -/

/-- What a party is doing. -/
inductive Pc where
  /-- it looks for the first time in its round -/
  | pre
  /-- it has found the other's register filled, and is to look whether it is stale -/
  | saw
  /-- it has then found it empty, and is to empty it -/
  | rmOther
  /-- it has found it empty at first, and is to announce itself -/
  | clear
  /-- it has announced itself and looks again -/
  | posted
  /-- it has found the other's register empty again -/
  | passed
  /-- it has found it filled -/
  | met
  /-- it has read the other's time stamp -/
  | theirs (stamp : ℕ)
  /-- it keeps its announcement -/
  | kept
  /-- it is to take its announcement back -/
  | backOff
  /-- it has taken it back -/
  | gone
  /-- its time is up, and it is to take its announcement back -/
  | late
  /-- its time is up, and it has taken it back -/
  | lost
  | won
  deriving DecidableEq

/-- A party: what it is doing and what is in its register. -/
structure Party where
  pc : Pc
  register : Option ℕ

/-- The announcement `(m, me)` is older than `(n, other)`. -/
def Older {ι : Type} [LT ι] (m : ℕ) (me : ι) (n : ℕ) (other : ι) : Prop := m < n ∨ m = n ∧ me < other

/-- The moves of a party; `y` is the other's register before it and `y'` after it. -/
inductive Move {ι : Type} [LT ι] (me other : ι) (y : Option ℕ) :
    Party → Party → Option ℕ → Prop where
  | stay (x : Party) : Move me other y x x y
  | see (x : Option ℕ) (hy : y.isSome) : Move me other y ⟨.pre, x⟩ ⟨.saw, x⟩ y
  | miss (x : Option ℕ) (hy : y = none) : Move me other y ⟨.pre, x⟩ ⟨.clear, x⟩ y
  | wait (x : Option ℕ) (hy : y.isSome) : Move me other y ⟨.saw, x⟩ ⟨.pre, x⟩ y
  | stale (x : Option ℕ) (hy : y = none) : Move me other y ⟨.saw, x⟩ ⟨.rmOther, x⟩ y
  | rmOther (x : Option ℕ) : Move me other y ⟨.rmOther, x⟩ ⟨.pre, x⟩ none
  | post (x : Option ℕ) (stamp : ℕ) : Move me other y ⟨.clear, x⟩ ⟨.posted, some stamp⟩ y
  | meet (x : Option ℕ) (hy : y.isSome) : Move me other y ⟨.posted, x⟩ ⟨.met, x⟩ y
  | pass (x : Option ℕ) (hy : y = none) : Move me other y ⟨.posted, x⟩ ⟨.passed, x⟩ y
  | win (x : Option ℕ) : Move me other y ⟨.passed, x⟩ ⟨.won, x⟩ y
  | read (x : Option ℕ) (stamp : ℕ) (hy : y = some stamp) :
      Move me other y ⟨.met, x⟩ ⟨.theirs stamp, x⟩ y
  | noRead (x : Option ℕ) (hy : y = none) : Move me other y ⟨.met, x⟩ ⟨.kept, x⟩ y
  | younger (m stamp : ℕ) (h : Older stamp other m me) :
      Move me other y ⟨.theirs stamp, some m⟩ ⟨.backOff, some m⟩ y
  | older (m stamp : ℕ) (h : ¬ Older stamp other m me) :
      Move me other y ⟨.theirs stamp, some m⟩ ⟨.kept, some m⟩ y
  | again (x : Option ℕ) : Move me other y ⟨.kept, x⟩ ⟨.pre, x⟩ y
  | late (x : Option ℕ) : Move me other y ⟨.kept, x⟩ ⟨.late, x⟩ y
  | backOff (x : Option ℕ) : Move me other y ⟨.backOff, x⟩ ⟨.gone, none⟩ y
  | goneAgain (x : Option ℕ) : Move me other y ⟨.gone, x⟩ ⟨.pre, x⟩ y
  | lose (x : Option ℕ) : Move me other y ⟨.late, x⟩ ⟨.lost, none⟩ y

/-! ## Standings -/

/-- Where a party stands. -/
inductive Standing where
  | idle
  | sawIdle
  | rmIdle
  | clear
  | kept
  | again
  | posted
  | passed
  | met
  | backOff
  | lost
  | bad
  deriving DecidableEq

instance : Fintype Standing where
  elems := {.idle, .sawIdle, .rmIdle, .clear, .kept, .again, .posted, .passed, .met, .backOff, .lost,
    .bad}
  complete := by
    intro s
    cases s <;> decide

/-- The standing, from what the party is doing and whether its register is filled.  A party that is
past its announcement has it in its register. -/
def standingOf : Pc → Bool → Standing
  | .pre, true => .kept
  | .pre, false => .idle
  | .saw, true => .kept
  | .saw, false => .sawIdle
  | .rmOther, true => .again
  | .rmOther, false => .rmIdle
  | .clear, true => .again
  | .clear, false => .clear
  | .posted, true => .posted
  | .passed, true => .passed
  | .won, true => .passed
  | .met, true => .met
  | .theirs _, true => .met
  | .kept, true => .kept
  | .late, true => .kept
  | .backOff, true => .backOff
  | .gone, false => .idle
  | .lost, false => .lost
  | _, _ => .bad

def Party.standing (x : Party) : Standing := standingOf x.pc x.register.isSome

/-- The register is filled. -/
def Standing.live : Standing → Bool
  | .kept | .again | .posted | .passed | .met | .backOff => true
  | _ => false

/-- The standings that a standing goes with. -/
def Standing.partners : Standing → List Standing
  | .idle => [.idle, .clear, .kept, .again, .posted, .passed, .met, .lost]
  | .sawIdle => [.kept, .again, .posted, .passed, .met, .lost]
  | .rmIdle => [.lost]
  | .clear => [.idle, .clear, .posted, .passed, .lost]
  | .kept => [.idle, .sawIdle, .posted, .passed, .met, .backOff, .lost]
  | .again => [.idle, .sawIdle, .lost]
  | .posted => [.idle, .sawIdle, .clear, .kept, .posted, .passed, .met, .backOff, .lost]
  | .passed => [.idle, .sawIdle, .clear, .kept, .posted, .met, .backOff, .lost]
  | .met => [.idle, .sawIdle, .kept, .posted, .passed, .met, .backOff, .lost]
  | .backOff => [.kept, .posted, .passed, .met, .lost]
  | .lost => [.idle, .sawIdle, .rmIdle, .clear, .kept, .again, .posted, .passed, .met, .backOff, .lost]
  | .bad => []

/-- The two standings go together. -/
def Compatible (s t : Standing) : Prop := t ∈ s.partners

instance : DecidableRel Compatible := fun s t => inferInstanceAs (Decidable (t ∈ s.partners))

theorem Compatible.symm {s t : Standing} (h : Compatible s t) : Compatible t s := by
  revert s t
  decide

theorem Compatible.ne_bad {s t : Standing} (h : Compatible s t) : s ≠ .bad := by
  rintro rfl
  cases h

/-- A party that does not stand badly has a filled register just when its standing says so. -/
theorem standing_live {x : Party} (h : x.standing ≠ .bad) : x.standing.live = x.register.isSome := by
  obtain ⟨pc, register⟩ := x
  unfold Party.standing at h ⊢
  cases pc <;> cases hreg : register.isSome <;> simp_all [standingOf, Standing.live]

/-! ## The invariant -/

variable {ι : Type} [LinearOrder ι] {me other : ι} {x y : Party}

/-- What the time stamps of a party are to those of the other. -/
structure Dates (me other : ι) (x y : Party) : Prop where
  /-- the time stamp that it has read is the other's, -/
  theirs : ∀ stamp n, x.pc = .theirs stamp → y.register = some n → stamp = n
  /-- or the other has taken it back because it was the younger one; -/
  takenBack : ∀ stamp m, x.pc = .theirs stamp → x.register = some m → y.register = none →
    y.standing ≠ .lost → ¬ Older stamp other m me
  /-- it is to take its own back only if it is the younger one, -/
  backOff : ∀ m n, x.pc = .backOff → x.register = some m → y.register = some n → Older n other m me
  /-- and it keeps its own only if it is the older one. -/
  kept : ∀ m n, x.standing = .kept → x.register = some m → y.register = some n → Older m me n other

/-- The invariant of the two parties. -/
structure Inv (me other : ι) (x y : Party) : Prop where
  compatible : Compatible x.standing y.standing
  mine : Dates me other x y
  theirs : Dates other me y x

theorem Inv.symm (h : Inv me other x y) : Inv other me y x :=
  ⟨h.compatible.symm, h.theirs, h.mine⟩

variable {m n stamp : ℕ}

theorem Older.total (hne : me ≠ other) (h : ¬ Older n other m me) : Older m me n other := by
  unfold Older at h ⊢
  rcases lt_trichotomy m n with hmn | rfl | hmn
  · exact .inl hmn
  · rcases lt_trichotomy me other with hlt | heq | hlt
    · exact .inr ⟨rfl, hlt⟩
    · exact absurd heq hne
    · exact absurd (.inr ⟨rfl, hlt⟩) h
  · exact absurd (.inl hmn) h

theorem Older.asymm (h : Older m me n other) : ¬ Older n other m me := by
  rintro (h' | ⟨rfl, h'⟩)
  · rcases h with h | ⟨rfl, -⟩
    · omega
    · omega
  · rcases h with h | ⟨-, h⟩
    · omega
    · exact lt_asymm h h'

/-- The parties do not both win. -/
theorem Inv.not_both_won (h : Inv me other x y) : ¬ (x.pc = .won ∧ y.pc = .won) := by
  rintro ⟨hx, hy⟩
  have hc := h.compatible
  unfold Party.standing at hc
  rw [hx, hy] at hc
  revert hc
  cases x.register.isSome <;> cases y.register.isSome <;> decide

/-- At the start both registers are empty. -/
theorem inv_start : Inv me other ⟨.pre, none⟩ ⟨.pre, none⟩ := by
  have hdates : ∀ me other : ι, Dates me other ⟨.pre, none⟩ ⟨.pre, none⟩ := by
    intro me other
    constructor <;> simp
  exact ⟨by decide, hdates _ _, hdates _ _⟩

/-! ## Moves -/

theorem Inv.live (h : Inv me other x y) : y.standing.live = y.register.isSome :=
  standing_live h.compatible.symm.ne_bad

/-- A party that is to empty the other's register finds it empty. -/
theorem Inv.register_eq_none (h : Inv me other x y) (hx : x.pc = .rmOther) : y.register = none := by
  have hc := h.compatible
  have hlive := h.live
  rw [Party.standing, hx] at hc
  have hnone : y.standing.live = false := by
    revert hc
    cases x.register.isSome <;> generalize y.standing = t <;> revert t <;> decide
  rw [hnone] at hlive
  exact Option.not_isSome_iff_eq_none.1 (by simp [← hlive])

/-- A move that leaves the party's register as it is. -/
theorem Inv.of_same_register (h : Inv me other x y) {pc : Pc}
    (hc : Compatible (Party.standing ⟨pc, x.register⟩) y.standing)
    (hlost : x.standing = .lost → Party.standing ⟨pc, x.register⟩ = .lost)
    (hmine : Dates me other ⟨pc, x.register⟩ y) : Inv me other ⟨pc, x.register⟩ y := by
  refine ⟨hc, hmine, h.theirs.theirs, ?_, h.theirs.backOff, h.theirs.kept⟩
  exact fun stamp m hpc hm hx hne => h.theirs.takenBack stamp m hpc hm hx fun hl => hne (hlost hl)

variable {register : Option ℕ}

/-- The time stamps of a party that has not read one, nor is to take its own back. -/
theorem Dates.of_kept {pc : Pc} (htheirs : ∀ stamp, pc ≠ .theirs stamp) (hback : pc ≠ .backOff)
    (hkept : ∀ m n, Party.standing ⟨pc, register⟩ = .kept → register = some m →
      y.register = some n → Older m me n other) : Dates me other ⟨pc, register⟩ y :=
  ⟨fun stamp _ h => absurd h (htheirs stamp), fun stamp _ h => absurd h (htheirs stamp),
    fun _ _ h => absurd h hback, hkept⟩

/-- A move between two standings with a register that stays. -/
theorem Inv.move_same (h : Inv me other x y) {pc : Pc}
    (hc : Compatible (Party.standing ⟨pc, x.register⟩) y.standing)
    (hlost : x.standing ≠ .lost) (htheirs : ∀ stamp, pc ≠ .theirs stamp) (hback : pc ≠ .backOff)
    (hkept : ∀ m n, Party.standing ⟨pc, x.register⟩ = .kept → x.register = some m →
      y.register = some n → Older m me n other) : Inv me other ⟨pc, x.register⟩ y :=
  h.of_same_register hc (fun hl => absurd hl hlost) (.of_kept htheirs hback hkept)

theorem standingOf_theirs (stamp : ℕ) (filled : Bool) :
    standingOf (.theirs stamp) filled = standingOf .met filled := by
  cases filled <;> rfl

/-- The party announces itself: no one with an older time stamp of it is there. -/
theorem Inv.post (h : Inv me other ⟨.clear, register⟩ y) (stamp : ℕ) :
    Inv me other ⟨.posted, some stamp⟩ y := by
  have hc : Compatible (standingOf .clear register.isSome) y.standing := h.compatible
  have hout : y.standing ≠ .met ∧ y.standing ≠ .backOff ∧ y.standing ≠ .kept := by
    revert hc
    cases register.isSome <;> generalize y.standing = t <;> revert t <;> decide
  have hfilled : ∀ {n pc}, y.pc = pc → y.register = some n → y.standing = standingOf pc true := by
    intro n pc hpc hn
    rw [Party.standing, hpc, hn]
    rfl
  refine ⟨?_, .of_kept (by simp) (by simp) fun m n hs => (by cases hs), ?_⟩
  · show Compatible .posted y.standing
    revert hc
    cases register.isSome <;> generalize y.standing = t <;> revert t <;> decide
  · have hbad : y.standing ≠ .bad := h.compatible.symm.ne_bad
    refine ⟨fun σ n hpc _ => ?_, fun σ m hpc hm => ?_, fun m n hpc hm => ?_, fun m n hs => ?_⟩
    · cases hreg : y.register with
      | none => exact absurd (by rw [Party.standing, hpc, hreg]; rfl) hbad
      | some n => exact absurd ((hfilled hpc hreg).trans (standingOf_theirs σ true)) hout.1
    · exact absurd ((hfilled hpc hm).trans (standingOf_theirs σ true)) hout.1
    · exact absurd (hfilled hpc hm) hout.2.1
    · exact absurd hs hout.2.2

/-- The party takes its announcement back: if the other has read it, the other is the older one. -/
theorem Inv.takeBack (h : Inv me other ⟨.backOff, register⟩ y) : Inv me other ⟨.gone, none⟩ y := by
  have hc : Compatible (standingOf .backOff register.isSome) y.standing := h.compatible
  obtain ⟨m, rfl⟩ : ∃ m, register = some m := by
    cases register with
    | none => exact absurd rfl h.compatible.ne_bad
    | some m => exact ⟨m, rfl⟩
  refine ⟨?_, .of_kept (by simp) (by simp) fun _ _ _ hm => (by cases hm), ?_⟩
  · have htable : ∀ t, Compatible .backOff t → Compatible .idle t := by decide
    exact htable _ hc
  · refine ⟨fun _ _ _ hn => (by cases hn), fun σ n hpc hn _ _ => ?_,
      fun _ _ _ _ hn => (by cases hn), fun _ _ _ _ hn => (by cases hn)⟩
    obtain rfl : σ = m := h.theirs.theirs σ m hpc rfl
    exact (h.mine.backOff σ n rfl rfl hn).asymm

/-- The party gives up. -/
theorem Inv.lose (h : Inv me other ⟨.late, register⟩ y) : Inv me other ⟨.lost, none⟩ y := by
  refine ⟨?_, .of_kept (by simp) (by simp) fun _ _ _ hm => (by cases hm), ?_⟩
  · have hbad : y.standing ≠ .bad := h.compatible.symm.ne_bad
    show Compatible .lost y.standing
    revert hbad
    generalize y.standing = t
    revert t
    decide
  · exact ⟨fun _ _ _ hn => (by cases hn), fun _ _ _ _ _ hne => absurd rfl hne,
      fun _ _ _ _ hn => (by cases hn), fun _ _ _ _ hn => (by cases hn)⟩

/-- The party has read the other's time stamp. -/
theorem Inv.read (h : Inv me other ⟨.met, register⟩ y)
    (hy : y.register = some stamp) : Inv me other ⟨.theirs stamp, register⟩ y := by
  refine h.of_same_register (x := ⟨.met, register⟩) ?_ ?_ ⟨?_, ?_, ?_, ?_⟩
  · rw [Party.standing, standingOf_theirs]
    exact h.compatible
  · intro hl
    rw [Party.standing, standingOf_theirs]
    exact hl
  · intro σ n hpc hn
    rw [Pc.theirs.inj hpc.symm]
    exact Option.some.inj (hy.symm.trans hn)
  · intro σ m _ _ hnone
    rw [hy] at hnone
    cases hnone
  · exact fun _ _ hpc => (by cases hpc)
  · intro m n hs
    cases register <;> cases hs

/-- The party is the younger one: the other has not taken its announcement back, and is not to. -/
theorem Inv.younger (h : Inv me other ⟨.theirs stamp, some m⟩ y)
    (hold : Older stamp other m me) : Inv me other ⟨.backOff, some m⟩ y := by
  have htable : ∀ t, Compatible .met t → t ≠ .backOff → (t.live = false → t = .lost) →
      Compatible .backOff t := by decide
  have hback : y.standing ≠ .backOff := by
    intro hs
    cases hreg : y.register with
    | none =>
      have hlive := h.live
      rw [hs, hreg] at hlive
      cases hlive
    | some n =>
      obtain rfl : stamp = n := h.mine.theirs stamp n rfl hreg
      have hpc : y.pc = .backOff := by
        rw [Party.standing, hreg] at hs
        cases hy : y.pc <;> rw [hy] at hs <;> first | rfl | cases hs
      exact (h.theirs.backOff stamp m hpc hreg rfl).asymm hold
  have hlost : y.standing.live = false → y.standing = .lost := by
    intro hdead
    by_contra hne
    rw [h.live] at hdead
    exact h.mine.takenBack stamp m rfl rfl (Option.not_isSome_iff_eq_none.1 (by simp [hdead])) hne hold
  refine h.of_same_register (x := ⟨.theirs stamp, some m⟩) (htable _ h.compatible hback hlost)
    (fun hl => by cases hl) ⟨?_, ?_, ?_, ?_⟩
  · exact fun _ _ hpc => (by cases hpc)
  · exact fun _ _ hpc => (by cases hpc)
  · rintro m' n - hm hn
    obtain rfl : m = m' := Option.some.inj hm
    rwa [← h.mine.theirs stamp n rfl hn]
  · exact fun _ _ hs => (by cases hs)

/-- The party is the older one: the other does not keep its announcement. -/
theorem Inv.older (hne : me ≠ other) (h : Inv me other ⟨.theirs stamp, some m⟩ y)
    (hold : ¬ Older stamp other m me) : Inv me other ⟨.kept, some m⟩ y := by
  have htable : ∀ t, Compatible .met t → t ≠ .kept → Compatible .kept t := by decide
  have hkept : y.standing ≠ .kept := by
    intro hs
    cases hreg : y.register with
    | none =>
      have hlive := h.live
      rw [hs, hreg] at hlive
      cases hlive
    | some n =>
      obtain rfl : stamp = n := h.mine.theirs stamp n rfl hreg
      exact hold (h.theirs.kept stamp m hs hreg rfl)
  refine h.of_same_register (x := ⟨.theirs stamp, some m⟩) (htable _ h.compatible hkept)
    (fun hl => by cases hl) (.of_kept (by simp) (by simp) fun m' n _ hm hn => ?_)
  obtain rfl : m = m' := Option.some.inj hm
  rw [h.mine.theirs stamp n rfl hn] at hold
  exact Older.total hne hold

/-- How the standing may change while the register stays: from `pc` to `pc'` when the other's register
is filled as `b` says, or either way. -/
def Leads (pc pc' : Pc) (b : Option Bool) : Prop :=
  ∀ filled t, Compatible (standingOf pc filled) t → (∀ v ∈ b, t.live = v) →
    Compatible (standingOf pc' filled) t ∧ standingOf pc filled ≠ .lost ∧
      (standingOf pc' filled = .kept → standingOf pc filled = .kept ∨ t.live = false)

instance (pc pc' : Pc) (b : Option Bool) : Decidable (Leads pc pc' b) :=
  inferInstanceAs (Decidable (∀ _, _))

/-- A move along the table. -/
theorem Inv.lead {pc : Pc} (h : Inv me other ⟨pc, register⟩ y) (pc' : Pc)
    {b : Option Bool} (hlead : Leads pc pc' b) (hb : ∀ v ∈ b, y.register.isSome = v)
    (htheirs : ∀ stamp, pc' ≠ .theirs stamp) (hback : pc' ≠ .backOff) : Inv me other ⟨pc', register⟩ y := by
  have hlive := h.live
  obtain ⟨hc, hlost, hkept⟩ := hlead register.isSome y.standing h.compatible fun v hv =>
    hlive.trans (hb v hv)
  refine h.move_same hc hlost htheirs hback fun m n hs hm hn => ?_
  rcases hkept hs with hs' | hdead
  · exact h.mine.kept m n hs' hm hn
  · rw [hdead, hn] at hlive
    cases hlive

/-- **Every move of a party keeps the invariant**, and leaves the other's register as it is. -/
theorem Inv.move (hne : me ≠ other) (h : Inv me other x y) {x' : Party}
    (hm : Move me other y.register x x' register) : register = y.register ∧ Inv me other x' y := by
  have hnone : y.register = none → ∀ v ∈ some false, y.register.isSome = v := by
    intro hy v hv
    simpa [hy] using hv
  have hsome : y.register.isSome → ∀ v ∈ some true, y.register.isSome = v := by
    intro hy v hv
    simpa [hy] using hv
  have hany : ∀ v ∈ (none : Option Bool), y.register.isSome = v := fun v hv => by cases hv
  cases hm with
  | stay => exact ⟨rfl, h⟩
  | see r hy => exact ⟨rfl, h.lead .saw (by decide) (hsome hy) (by simp) (by simp)⟩
  | miss r hy => exact ⟨rfl, h.lead .clear (by decide) (hnone hy) (by simp) (by simp)⟩
  | wait r hy => exact ⟨rfl, h.lead .pre (by decide) (hsome hy) (by simp) (by simp)⟩
  | stale r hy => exact ⟨rfl, h.lead .rmOther (by decide) (hnone hy) (by simp) (by simp)⟩
  | rmOther r =>
    have hy := h.register_eq_none rfl
    exact ⟨hy.symm, h.lead .pre (by decide) (hnone hy) (by simp) (by simp)⟩
  | post r stamp => exact ⟨rfl, h.post stamp⟩
  | meet r hy => exact ⟨rfl, h.lead .met (by decide) (hsome hy) (by simp) (by simp)⟩
  | pass r hy => exact ⟨rfl, h.lead .passed (by decide) (hnone hy) (by simp) (by simp)⟩
  | win r => exact ⟨rfl, h.lead .won (by decide) hany (by simp) (by simp)⟩
  | read r stamp hy => exact ⟨rfl, h.read hy⟩
  | noRead r hy => exact ⟨rfl, h.lead .kept (by decide) (hnone hy) (by simp) (by simp)⟩
  | younger m stamp hold => exact ⟨rfl, h.younger hold⟩
  | older m stamp hold => exact ⟨rfl, h.older hne hold⟩
  | again r => exact ⟨rfl, h.lead .pre (by decide) hany (by simp) (by simp)⟩
  | late r => exact ⟨rfl, h.lead .late (by decide) hany (by simp) (by simp)⟩
  | backOff r => exact ⟨rfl, h.takeBack⟩
  | goneAgain r => exact ⟨rfl, h.lead .pre (by decide) hany (by simp) (by simp)⟩
  | lose r => exact ⟨rfl, h.lose⟩

end OpenViking.Transaction.TreeProtocol
