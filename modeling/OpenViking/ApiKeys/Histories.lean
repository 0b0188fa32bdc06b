import OpenViking.ApiKeys.Saves

/-!
# Histories of operations and restarts

The operations run one after another with all saves succeeding, and new managers load the files in
between.  The registry records what each operation returned.

* `step_inv`: every event keeps the memory, the files and the registry together;
* `resolve_history`: a key opens its current owner's account, and other keys open nothing.
-/

namespace OpenViking.ApiKeys

open Fs (Str)

/-! ## The system -/

/-- The manager, its files, and what the operations said about the users. -/
structure System where
  manager : Manager
  files : Files
  registry : Registry

/-- The settings and the random and clock values of a load. -/
structure Start where
  hashingEnabled : Bool
  salts : Str → Str → ℕ
  now : Str

inductive Event where
  | call (op : Op) (draw : Draw)
  | restart (start : Start)

/-- A new manager loads the files. -/
def boot (P : Primitives) (rootKey : Str) (start : Start) (files : Files) (registry : Registry) :
    Option System :=
  match (load P rootKey start.hashingEnabled start.salts start.now).eval exec 0 files with
  | some (.ok m, files) => some ⟨m, files, registry⟩
  | _ => none

/-- An operation, or a restart. -/
def step (P : Primitives) (rootKey : Str) (s : System) : Event → Option System
  | .call op draw =>
    ((op.run P s.manager draw).eval exec 0 s.files).map fun end' =>
      ⟨end'.1.2, end'.2, s.registry.record op end'.1.1⟩
  | .restart start => boot P rootKey start s.files s.registry

/-- The first manager loads an empty store; then the events happen. -/
def history (P : Primitives) (rootKey : Str) (first : Start) (events : List Event) :
    Option System :=
  (boot P rootKey first Dict.empty fun _ _ => none).bind fun s =>
    events.foldlM (step P rootKey) s

/-- The memory and the files have the users of the registry. -/
structure System.Inv (P : Primitives) (rootKey : Str) (s : System) : Prop where
  rootKey : s.manager.rootKey = rootKey
  holds : Holds P s.manager s.registry
  backed : Backed P s.registry s.manager s.files

section System

variable {P : Primitives} (hP : P.Sound) {rootKey : Str}
include hP

theorem boot_inv {files : Files} {reg : Registry} (h : Stored P reg files) (rootKey : Str) (start : Start) :
    ∃ s, boot P rootKey start files reg = some s ∧ s.Inv P rootKey ∧ s.registry = reg := by
  obtain ⟨r, files', heval, hends⟩ := (load_crashWp hP (fun n => n = 0) h rootKey
    start.hashingEnabled start.salts start.now).eval rfl
  cases r with
  | error error =>
    obtain ⟨-, n, hn, hne⟩ := hends
    exact absurd hn hne
  | ok m =>
    obtain ⟨hloading, hroot⟩ := hends
    obtain ⟨hholds, hbacked⟩ := hloading.done
    refine ⟨⟨m, files', reg⟩, ?_, ⟨hroot, hholds, hbacked⟩, rfl⟩
    rw [boot, heval]

/-- **Every event keeps the memory, the files and the registry together.** -/
theorem step_inv {s : System} (h : s.Inv P rootKey) (event : Event) :
    ∃ s', step P rootKey s event = some s' ∧ s'.Inv P rootKey := by
  cases event with
  | restart start =>
    obtain ⟨s', hboot, hinv, -⟩ := boot_inv hP h.backed.stored rootKey start
    exact ⟨s', hboot, hinv⟩
  | call op draw =>
    rw [step]
    obtain ⟨error, hrun⟩ | ⟨m', result, hrun, hholds, heffect⟩ := h.holds.run_splits hP op draw
    · refine ⟨⟨s.manager, s.files, s.registry.record op (.error error)⟩, by rw [hrun]; rfl,
        h.rootKey, ?_, ?_⟩
      · rw [Registry.record_error]
        exact h.holds
      · rw [Registry.record_error]
        exact h.backed
    · obtain ⟨files', heval, hbacked⟩ := Op.save_succeeds h.backed heffect hholds
      exact ⟨⟨m', files', s.registry.record op (.ok result)⟩, by rw [hrun, heval]; rfl,
        heffect.rootKey.trans h.rootKey, hholds, hbacked⟩

theorem foldlM_inv {s : System} (h : s.Inv P rootKey) (events : List Event) :
    ∃ s', events.foldlM (step P rootKey) s = some s' ∧ s'.Inv P rootKey := by
  induction events generalizing s with
  | nil => exact ⟨s, rfl, h⟩
  | cons event events ih =>
    obtain ⟨s', hstep, hinv⟩ := step_inv hP h event
    obtain ⟨s'', hfold, hinv'⟩ := ih hinv
    refine ⟨s'', ?_, hinv'⟩
    rw [List.foldlM_cons, hstep]
    exact hfold

omit hP in
theorem stored_empty : Stored P (fun _ _ => none) Dict.empty where
  users a u := by
    simp [Files.held, Files.accounts, Dict.contains]
  fresh _ a u := by simp [Files.usersOf]

/-- **A key opens its current owner's account, and every other key opens nothing**, after any
sequence of operations and restarts. -/
theorem resolve_history (hroot : isAscii rootKey = true) (first : Start) (events : List Event) :
    ∃ s, history P rootKey first events = some s ∧
      ∀ k, isAscii k = true → k ≠ rootKey →
        (∀ a u r, s.registry a u = some ⟨k, r⟩ →
          s.manager.resolve P k = .ok ⟨r, some a, some u⟩) ∧
        ((∀ a u r, s.registry a u ≠ some ⟨k, r⟩) →
          ∃ message, s.manager.resolve P k = .error (.unauthenticated message)) := by
  obtain ⟨s₀, hboot, hinv₀, -⟩ := boot_inv hP (stored_empty (P := P)) rootKey first
  obtain ⟨s, hfold, hinv⟩ := foldlM_inv hP hinv₀ events
  refine ⟨s, by rw [history, hboot, Option.bind_some, hfold], fun k hk hne => ?_⟩
  have hrootKey : isAscii s.manager.rootKey = true := by rwa [hinv.rootKey]
  have hne' : k ≠ s.manager.rootKey := by rwa [hinv.rootKey]
  exact ⟨fun a u r hreg => hinv.holds.resolve_current hP hrootKey hne' hreg,
    fun hother => ⟨_, hinv.holds.resolve_other hP hrootKey hk hne' hother⟩⟩

end System

/-- An account is made, hashing is turned on by a restart, and the key is changed. -/
theorem resolve_history_acme :
    ∃ s, history textbook "root".toList ⟨false, fun _ _ => 0, []⟩
        [.call (.createAccount "acme".toList "alice".toList) ⟨"s1".toList, 0, []⟩,
          .restart ⟨true, fun _ _ => 2, []⟩,
          .call (.regenerateKey "acme".toList "alice".toList) ⟨"s2".toList, 1, []⟩] = some s ∧
      s.manager.resolve textbook (generateApiKey textbook "acme".toList "alice".toList "s2".toList) =
        .ok ⟨"admin".toList, some "acme".toList, some "alice".toList⟩ := by
  obtain ⟨s, hs, hall⟩ := resolve_history sound_textbook
    (show isAscii "root".toList = true by decide +kernel) ⟨false, fun _ _ => 0, []⟩
    [.call (.createAccount "acme".toList "alice".toList) ⟨"s1".toList, 0, []⟩,
      .restart ⟨true, fun _ _ => 2, []⟩,
      .call (.regenerateKey "acme".toList "alice".toList) ⟨"s2".toList, 1, []⟩]
  refine ⟨s, hs, (hall _ (by decide +kernel) (by decide +kernel)).1 _ _ _ ?_⟩
  have hreg : (history textbook "root".toList ⟨false, fun _ _ => 0, []⟩
      [.call (.createAccount "acme".toList "alice".toList) ⟨"s1".toList, 0, []⟩,
        .restart ⟨true, fun _ _ => 2, []⟩,
        .call (.regenerateKey "acme".toList "alice".toList) ⟨"s2".toList, 1, []⟩]).map
      (fun s => s.registry "acme".toList "alice".toList) =
      some (some ⟨generateApiKey textbook "acme".toList "alice".toList "s2".toList,
        "admin".toList⟩) := by decide +kernel
  rw [hs] at hreg
  exact Option.some_inj.1 hreg

end OpenViking.ApiKeys
