import OpenViking.ApiKeys.Histories
import OpenViking.Common.System

/-!
# Operations that fail

A save raises and leaves its file as it was, or the process dies between two saves and a new
manager loads what is there.  Only `create_account` undoes what it has done in memory, and what it
cannot undo is the list of accounts.

* `failures_unnoticed`: in a run of such steps, no failed operation changes anybody's access;
* `removal_noticed`: a removal that fails takes the user's access away until the next restart.
-/

namespace OpenViking.ApiKeys

open Fs (Str)

/-- Some user has the key. -/
def Registry.Has (reg : Registry) (key : Str) : Prop := ∃ a u r, reg a u = some ⟨key, r⟩

/-- Users end with the operation. -/
def Op.ends : Op → Bool
  | removeUser _ _ => true
  | deleteAccount _ => true
  | _ => false

/-- The manager and its files; `ended` has the keys of users that were removed and of accounts that
were deleted, but for keys that were drawn again. -/
structure Service extends System where
  ended : Str → Prop

namespace Service

/-- An operation whose saves are resolved as listed, and the start of the manager that follows if
the list ends before the operation does; or a restart, after loads that were cut off or given up. -/
inductive Event where
  | call (op : Op) (draw : Draw) (saves : List ℕ) (start : Start)
  | restart (abandoned : List (Start × List ℕ)) (start : Start)

/-- What loads that were cut off or given up have done to the files. -/
def abandon (P : Primitives) (rootKey : Str) (abandoned : List (Start × List ℕ)) (files : Files) :
    Files :=
  abandoned.foldl (fun files attempt =>
    ((load P rootKey attempt.1.hashingEnabled attempt.1.salts attempt.1.now).play exec attempt.2
      files).2) files

def step (P : Primitives) (rootKey : Str) (s : Service) : Event → Option Service
  | .call op draw saves start =>
    match (op.run P s.manager draw).play exec saves s.files with
    | (some (r, m), files) =>
      let registry := s.registry.record op r
      some
        { manager := m
          files := files
          registry := registry
          ended := fun key =>
            (s.ended key ∨ op.ends = true ∧ s.registry.Has key) ∧ ¬ registry.Has key }
    | (none, files) =>
      (boot P rootKey start files s.registry).map fun t => { t with ended := s.ended }
  | .restart abandoned start =>
    (boot P rootKey start (abandon P rootKey abandoned s.files) s.registry).map fun t =>
      { t with ended := s.ended }

/-- The saves that fail do no harm. -/
def Event.Harmless (s : Service) : Event → Prop
  | call op _ saves _ => op.Harmless s.manager s.files saves
  | restart _ _ => True

/-- What a manager that loads the files answers satisfies `Q`. -/
def AfterRestart (P : Primitives) (rootKey : Str) (files : Files) (reg : Registry)
    (Q : Manager → Prop) : Prop :=
  ∀ start, ∃ t, boot P rootKey start files reg = some t ∧ Q t.manager

/-- An operation that raised changes no answer, at once or after a restart; after a crash no key
resolves that had ended before. -/
def Unnoticed (P : Primitives) (rootKey : Str) (s : Service) : Event → Prop
  | .call op draw saves _ =>
    match (op.run P s.manager draw).play exec saves s.files with
    | (some (.error _, m), files) =>
      ∀ key, m.resolve P key = s.manager.resolve P key ∧
        AfterRestart P rootKey files s.registry fun m' => m'.resolve P key = s.manager.resolve P key
    | (some (.ok _, _), _) => True
    | (none, files) =>
      ∀ key, s.ended key → key ≠ rootKey →
        AfterRestart P rootKey files s.registry fun m' => ∀ identity, m'.resolve P key ≠ .ok identity
  | .restart _ _ => True

/-- The memory and the files have the users of the registry. -/
structure Inv (P : Primitives) (rootKey : Str) (s : Service) : Prop where
  system : s.toSystem.Inv P rootKey
  ended : ∀ key, s.ended key → ¬ s.registry.Has key

section Steps

variable {P : Primitives} (hP : P.Sound) {rootKey : Str}
include hP

variable {reg : Registry} {files : Files}

theorem run_consistent {m : Manager} (hholds : Holds P m reg)
    (hbacked : Backed P reg m files) {op : Op} {saves : List ℕ}
    (hharmless : op.Harmless m files saves) (draw : Draw) :
    Consistent P reg op m ((op.run P m draw).play exec saves files) := by
  obtain ⟨error, hrun⟩ | ⟨m', result, hrun, hholds', heffect⟩ := hholds.run_splits hP op draw
  · rw [hrun]
    refine ⟨?_, ?_, rfl⟩
    · rw [Registry.record_error]
      exact hholds
    · rw [Registry.record_error]
      exact hbacked
  · rw [hrun]
    exact Op.save_play hP hholds hbacked heffect hholds' hharmless

theorem stored_abandon (h : Stored P reg files) (abandoned : List (Start × List ℕ)) :
    Stored P reg (abandon P rootKey abandoned files) := by
  induction abandoned generalizing files with
  | nil => exact h
  | cons attempt abandoned ih =>
    refine ih ?_
    have hends := (load_crashWp hP (fun _ => True) h rootKey attempt.1.hashingEnabled
      attempt.1.salts attempt.1.now).play (l := attempt.2) fun _ _ => trivial
    dsimp only
    revert hends
    generalize (load P rootKey attempt.1.hashingEnabled attempt.1.salts attempt.1.now).play exec
      attempt.2 files = outcome
    intro hends
    obtain ⟨_ | _ | m, files'⟩ := outcome
    · exact hends
    · exact hends.1
    · exact hends.1.stored

/-- A manager that loads files of the registry has its users. -/
theorem afterRestart (h : Stored P reg files)
    {Q : Manager → Prop} (hQ : ∀ m, m.rootKey = rootKey → Holds P m reg → Q m) :
    AfterRestart P rootKey files reg Q := by
  intro start
  obtain ⟨t, hboot, hinv, hreg⟩ := boot_inv hP h rootKey start
  refine ⟨t, hboot, hQ t.manager hinv.rootKey ?_⟩
  rw [← hreg]
  exact hinv.holds

/-- **Steps whose failures do no harm keep the memory and the files together.** -/
theorem step_inv {s : Service} (h : s.Inv P rootKey) {event : Event} (hharmless : event.Harmless s) :
    ∃ s', step P rootKey s event = some s' ∧ s'.Inv P rootKey := by
  have hboot : ∀ {files : Files} (start : Start), Stored P s.registry files →
      ∃ s', (boot P rootKey start files s.registry).map
        (fun t => ({ t with ended := s.ended } : Service)) = some s' ∧ s'.Inv P rootKey := by
    intro files start hstored
    obtain ⟨t, hboot, hinv, hreg⟩ := boot_inv hP hstored rootKey start
    refine ⟨{ t with ended := s.ended }, by rw [hboot]; rfl, hinv, ?_⟩
    rw [hreg]
    exact h.ended
  cases event with
  | restart abandoned start =>
    exact hboot start (stored_abandon hP h.system.backed.stored abandoned)
  | call op draw saves start =>
    have hconsistent := run_consistent hP h.system.holds h.system.backed hharmless draw
    rw [step]
    revert hconsistent
    generalize (op.run P s.manager draw).play exec saves s.files = outcome
    intro hconsistent
    obtain ⟨_ | ⟨r, m⟩, files⟩ := outcome
    · exact hboot start hconsistent
    · obtain ⟨hholds, hbacked, hroot⟩ := hconsistent
      exact ⟨_, rfl, ⟨hroot.trans h.system.rootKey, hholds, hbacked⟩, fun key hkey => hkey.2⟩

theorem unnoticed_of_inv {s : Service} (h : s.Inv P rootKey) {event : Event}
    (hharmless : event.Harmless s) : Unnoticed P rootKey s event := by
  cases event with
  | restart abandoned start => trivial
  | call op draw saves start =>
    have hconsistent := run_consistent hP h.system.holds h.system.backed hharmless draw
    unfold Unnoticed
    dsimp only
    revert hconsistent
    generalize (op.run P s.manager draw).play exec saves s.files = outcome
    intro hconsistent
    obtain ⟨_ | ⟨_ | result, m⟩, files⟩ := outcome
    · intro key hended hne
      refine afterRestart hP hconsistent fun m' hroot hholds => ?_
      refine hholds.resolve_ok hP (by rwa [hroot]) fun a u r hreg => ?_
      exact h.ended key hended ⟨a, u, r, hreg⟩
    · obtain ⟨hholds, hbacked, hroot⟩ := hconsistent
      rw [Registry.record_error] at hholds hbacked
      intro key
      refine ⟨h.system.holds.resolve_congr hP hholds hroot key, ?_⟩
      refine afterRestart hP hbacked.stored fun m' hroot' hholds' => ?_
      exact h.system.holds.resolve_congr hP hholds' (hroot'.trans h.system.rootKey.symm) key
    · trivial

/-- **In a run of such steps, no failed operation changes anybody's access.** -/
theorem failures_unnoticed {first : Start} {s₀ : System} {s : Service}
    (hboot : boot P rootKey first Dict.empty (fun _ _ => none) = some s₀)
    (hrun : Reaches (step P rootKey) (fun s event => event.Harmless s)
      { s₀ with ended := fun _ => False } s)
    {event : Event} (hharmless : event.Harmless s) : Unnoticed P rootKey s event := by
  obtain ⟨s₁, hboot₁, hinv₁, -⟩ := boot_inv hP (stored_empty (P := P)) rootKey first
  obtain rfl := Option.some_inj.1 (hboot.symm.trans hboot₁)
  have hstart : Inv P rootKey { s₀ with ended := fun _ => False } :=
    ⟨hinv₁, fun _ hended => hended.elim⟩
  refine unnoticed_of_inv hP (hrun.invariant hstart ?_) hharmless
  intro t e u hinv hc hs
  obtain ⟨u', hs', hinv'⟩ := step_inv hP hinv hc
  obtain rfl := Option.some_inj.1 (hs.symm.trans hs')
  exact hinv'

end Steps

/-- The account is listed, its user is not saved, and the rollback takes the account out again. -/
theorem failures_unnoticed_acme :
    ∃ s₀, boot textbook "root".toList ⟨false, fun _ _ => 0, []⟩ Dict.empty (fun _ _ => none) =
        some s₀ ∧
      Unnoticed textbook "root".toList { s₀ with ended := fun _ => False }
        (.call (.createAccount "acme".toList "alice".toList) ⟨"s1".toList, 0, []⟩ [0, 1, 0]
          ⟨true, fun _ _ => 0, []⟩) := by
  obtain ⟨s₀, hboot, -, -⟩ := boot_inv sound_textbook (stored_empty (P := textbook))
    "root".toList ⟨false, fun _ _ => 0, []⟩
  refine ⟨s₀, hboot, failures_unnoticed sound_textbook hboot .refl fun _ hleaves => ?_⟩
  exact absurd hleaves (by decide)

/-- **A removal that fails takes the user's access away**: after the failed save of `remove_user`,
the key of the user does not resolve. -/
theorem removal_noticed :
    ¬ ∀ (first : Start) (s₀ : System) (s : Service) (event : Event),
      boot textbook "root".toList first Dict.empty (fun _ _ => none) = some s₀ →
      Reaches (step textbook "root".toList) (fun _ _ => True) { s₀ with ended := fun _ => False } s →
      Unnoticed textbook "root".toList s event := by
  intro hall
  obtain ⟨s₀, hboot, hinv, -⟩ := boot_inv sound_textbook (stored_empty (P := textbook))
    "root".toList ⟨false, fun _ _ => 0, []⟩
  -- the answers before and after the removal whose save fails
  have hanswers : ((boot textbook "root".toList ⟨false, fun _ _ => 0, []⟩ Dict.empty
      (fun _ _ => none)).bind fun s₀ =>
        (step textbook "root".toList { s₀ with ended := fun _ => False }
          (.call (.createAccount "acme".toList "alice".toList) ⟨"s1".toList, 0, []⟩ [0, 0]
            ⟨false, fun _ _ => 0, []⟩)).map fun s =>
              (s.manager.resolve textbook
                (generateApiKey textbook "acme".toList "alice".toList "s1".toList),
              ((removeUser s.manager "acme".toList "alice".toList).play exec [1] s.files).1.map
                fun outcome => (outcome.1.toOption.isSome, outcome.2.resolve textbook
                  (generateApiKey textbook "acme".toList "alice".toList "s1".toList)))) =
      some (.ok ⟨"admin".toList, some "acme".toList, some "alice".toList⟩,
        some (false, .error (.unauthenticated "Invalid API Key"))) := by
    decide +kernel
  rw [hboot, Option.bind_some] at hanswers
  obtain ⟨s, hstep, hanswers⟩ := Option.map_eq_some_iff.1 hanswers
  obtain ⟨hbefore, hafter⟩ := Prod.mk.inj hanswers
  have hunnoticed := hall _ s₀ s (.call (.removeUser "acme".toList "alice".toList)
    ⟨[], 0, []⟩ [1] ⟨false, fun _ _ => 0, []⟩) hboot (Reaches.refl.tail trivial hstep)
  unfold Unnoticed at hunnoticed
  dsimp only [Op.run] at hunnoticed
  revert hunnoticed hafter
  generalize (removeUser s.manager "acme".toList "alice".toList).play exec [1] s.files = played
  intro hafter hunnoticed
  obtain ⟨_ | ⟨_ | result, m⟩, files⟩ := played
  · cases hafter
  · obtain ⟨-, hresolve⟩ := Prod.mk.inj (Option.some_inj.1 hafter)
    have hsame := (hunnoticed
      (generateApiKey textbook "acme".toList "alice".toList "s1".toList)).1
    rw [hbefore] at hsame
    rw [hsame] at hresolve
    cases hresolve
  · cases (Prod.mk.inj (Option.some_inj.1 hafter)).1

end Service

end OpenViking.ApiKeys
