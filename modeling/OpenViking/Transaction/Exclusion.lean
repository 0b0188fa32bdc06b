import OpenViking.Transaction.Secure

/-!
# Mutual exclusion

Any number of owners acquire and release paths, and their calls interleave.  Two of them should never
hold the same path.  Between the check and the write of one owner the other one can do both, and the
write that comes last overwrites the other's token; so this is a result about runs in which

* no call writes or removes a lock file that names another owner at that moment, and an exact lock
  is written into a directory only where the prefixed lock file of its path names no other owner;
* no acquire writes or removes a lock file that its owner holds;
* the acquired paths are in `U`, whose names are visible and whose prefixed lock files are distinct.

Results:

* `World.Inv.step`: in such a step the locks of the owners stay secure;
* `mutual_exclusion`: in every state of such a run no two owners hold the same path.
-/

namespace OpenViking.Transaction

open PathLockEngine

variable {ι : Type} [LinearOrder ι]

/-! ## Owners -/

/-- What an owner is doing; an acquire and a release with what is left of their program. -/
inductive Activity (ι : Type) where
  | idle
  | acquiring (path : Path) (prog : Locking ι (Bool × List Path))
  | releasing (prog : Locking ι (List Path))

/-- An owner: its `locks`, the paths that it has acquired since it last began to release, and what it
is doing. -/
structure Owner (ι : Type) where
  locks : List Path
  held : List Path
  activity : Activity ι

/-- The owners and what they share. -/
structure World (ι : Type) where
  sys : Sys ι
  owners : ι → Owner ι

/-- What can happen: an owner begins to acquire or to release, makes the next call of its program, or
gets the result. -/
inductive Act (ι : Type) where
  | acquire (i : ι) (lockType : LockType) (path : Path)
  | release (i : ι)
  | call (i : ι) (n : ℕ)
  | finish (i : ι)

namespace World

/-- The world with another owner `i`. -/
def set (w : World ι) (i : ι) (o : Owner ι) : World ι :=
  { w with owners := Function.update w.owners i o }

/-- One step. -/
def step (E : PathLockEngine) (w : World ι) : Act ι → Option (World ι)
  | .acquire i lockType path =>
    let o := w.owners i
    match o.activity with
    | .idle =>
      some (w.set i { o with activity := .acquiring path (E.acquire i lockType o.locks path) })
    | _ => none
  | .release i =>
    let o := w.owners i
    match o.activity with
    | .idle => some (w.set i { o with held := [], activity := .releasing (release i o.locks) })
    | _ => none
  | .call i n =>
    let o := w.owners i
    match o.activity with
    | .acquiring path (.call c k) =>
      let r := Sys.exec i c w.sys n
      some ({ w with sys := r.2 }.set i { o with activity := .acquiring path (k r.1) })
    | .releasing (.call c k) =>
      let r := Sys.exec i c w.sys n
      some ({ w with sys := r.2 }.set i { o with activity := .releasing (k r.1) })
    | _ => none
  | .finish i =>
    let o := w.owners i
    match o.activity with
    | .acquiring path (.ret r) =>
      some (w.set i
        { locks := r.2
          held := if r.1 then path :: o.held else o.held
          activity := .idle })
    | .releasing (.ret locks) => some (w.set i { o with locks, activity := .idle })
    | _ => none

/-- The step is a careful one, and an acquire is for a path of `U`. -/
def Careful (E : PathLockEngine) (U : Path → Prop) (w : World ι) : Act ι → Prop
  | .acquire _ _ path => U path
  | .call i _ =>
    match (w.owners i).activity with
    | .acquiring _ (.call c _) => SafeCall E i w.sys c ∧ Spares (w.owners i).locks c
    | .releasing (.call c _) => SafeCall E i w.sys c
    | _ => True
  | _ => True

instance (E : PathLockEngine) (U : Path → Prop) [DecidablePred U] (w : World ι) :
    (a : Act ι) → Decidable (w.Careful E U a)
  | .acquire _ _ path => inferInstanceAs (Decidable (U path))
  | .release _ => .isTrue trivial
  | .call i n => by
    unfold Careful
    dsimp only
    split <;> infer_instance
  | .finish _ => .isTrue trivial

/-- The owners have not begun, and the file tree is any. -/
def start (fs : Fs ι) (clock : ℕ) : World ι where
  sys := .ofFs fs clock
  owners _ := { locks := [], held := [], activity := .idle }

/-! ## The invariant -/

/-- What holds of an owner: unless it is releasing, its lock files are secure and protect the paths it
holds; and its program is one that keeps it so. -/
def OwnerInv (E : PathLockEngine) (U : Path → Prop) (i : ι) (s : Sys ι) (o : Owner ι) : Prop :=
  let kept := SecureAll E U i o.locks s ∧ ∀ path ∈ o.held, U path ∧ Protects E i o.locks path s
  match o.activity with
  | .idle => kept
  | .acquiring path prog => kept ∧ U path ∧
      prog.wp (excluding E i o.locks) (AcquireSecures E U i o.locks path) s
  | .releasing prog => o.held = [] ∧ prog.Rets (· = [])

/-- The invariant. -/
structure Inv (E : PathLockEngine) (U : Path → Prop) (w : World ι) : Prop where
  dated : Dated w.sys
  owners : ∀ i, OwnerInv E U i w.sys (w.owners i)

variable {E : PathLockEngine} {U : Path → Prop} {w : World ι}

theorem inv_start (fs : Fs ι) (clock : ℕ) : Inv E U (start fs clock) := by
  refine ⟨fun f => ⟨le_refl 0, le_refl 0⟩, fun i => ⟨?_, ?_⟩⟩
  · exact fun f hf => by cases hf
  · exact fun path hpath => by cases hpath

variable {o : Owner ι} {s : Sys ι}

/-- The other owners' careful calls keep what holds of an owner. -/
theorem OwnerInv.rely {i j : ι} (hij : j ≠ i) (h : OwnerInv E U i s o)
    {c : Call} (hc : SafeCall E j s c) (n : ℕ) : OwnerInv E U i (Sys.exec j c s n).2 o := by
  have hrely : (excluding E i o.locks).rely s (Sys.exec j c s n).2 := ⟨j, c, n, hij, hc, rfl⟩
  have hkept : (SecureAll E U i o.locks s ∧ ∀ path ∈ o.held, U path ∧ Protects E i o.locks path s) →
      SecureAll E U i o.locks (Sys.exec j c s n).2 ∧
        ∀ path ∈ o.held, U path ∧ Protects E i o.locks path (Sys.exec j c s n).2 := by
    intro hk
    refine ⟨stable_secureAll _ _ _ hrely hk.1, fun path hpath => ?_⟩
    exact ⟨(hk.2 path hpath).1, stable_protects _ _ _ _ hrely (hk.2 path hpath).2⟩
  unfold OwnerInv at h ⊢
  cases hact : o.activity with
  | idle =>
    rw [hact] at h
    exact hkept h
  | acquiring path prog =>
    rw [hact] at h
    exact ⟨hkept h.1, h.2.1, Prog.wp_rely hrely h.2.2⟩
  | releasing prog =>
    rw [hact] at h
    exact h

variable {i : ι}

theorem releaseEach_rets {locks rest : List Path} (h : locks.Perm rest) :
    (releaseEach i locks rest).Rets (· = []) := by
  induction rest generalizing locks with
  | nil => exact h.eq_nil
  | cons f rest ih =>
    refine (Prog.Rets.true _).bind fun _ _ => ih ?_
    simpa using h.erase f

theorem release_rets (i : ι) (locks : List Path) : (release i locks).Rets (· = []) :=
  releaseEach_rets (List.reverse_perm locks).symm

variable {path : Path}

theorem Protects.exec {locks : List Path}
    (h : Protects E i locks path s) {c : Call} (hc : Spares locks c) (n : ℕ) :
    Protects E i locks path (Sys.exec i c s n).2 := by
  obtain ⟨f, hmem, hf | ⟨a, ha, hnil, heq, htree⟩⟩ := h
  · exact ⟨f, hmem, .inl hf⟩
  · refine ⟨f, hmem, .inr ⟨a, ha, hnil, heq, ?_⟩⟩
    rw [Sys.ownType, (exec_of_target_ne (fun htarget => hc f htarget hmem) i s n).1]
    exact htree

theorem Protects.mono {locks locks' : List Path} (hsub : locks ⊆ locks')
    (h : Protects E i locks path s) : Protects E i locks' path s := by
  obtain ⟨f, hmem, hf⟩ := h
  exact ⟨f, hsub hmem, hf⟩

/-- An owner changes, and the shared state does not. -/
theorem Inv.set (h : Inv E U w) (ho : OwnerInv E U i w.sys o) : Inv E U (w.set i o) := by
  refine ⟨h.dated, fun j => ?_⟩
  by_cases hj : j = i
  · subst hj
    simpa [World.set] using ho
  · simpa [World.set, hj] using h.owners j

/-- An owner makes a careful call. -/
theorem Inv.call (h : Inv E U w) {c : Call} (n : ℕ)
    (hc : SafeCall E i w.sys c) (ho : OwnerInv E U i (Sys.exec i c w.sys n).2 o) :
    Inv E U ({ w with sys := (Sys.exec i c w.sys n).2 }.set i o) := by
  refine ⟨kept_dated i c w.sys n h.dated, fun j => ?_⟩
  by_cases hj : j = i
  · subst hj
    simpa [World.set] using ho
  · simpa [World.set, hj] using (h.owners j).rely (Ne.symm hj) hc n

/-- **A careful step keeps the invariant.** -/
theorem Inv.step (hU : Usable E U) (h : Inv E U w) {a : Act ι} (ha : w.Careful E U a)
    {w' : World ι} (hstep : w.step E a = some w') : Inv E U w' := by
  cases a with
  | acquire i lockType path =>
    have ho := h.owners i
    unfold World.step at hstep
    unfold OwnerInv at ho
    cases hact : (w.owners i).activity with
    | idle =>
      simp only [hact, Option.some.injEq] at hstep ho
      rw [← hstep]
      exact h.set ⟨ho, ha, acquire_secures hU lockType ha w.sys ⟨h.dated, ho.1⟩⟩
    | acquiring path prog => simp [hact] at hstep
    | releasing prog => simp [hact] at hstep
  | release i =>
    unfold World.step at hstep
    cases hact : (w.owners i).activity with
    | idle =>
      simp only [hact, Option.some.injEq] at hstep
      rw [← hstep]
      exact h.set ⟨rfl, release_rets i _⟩
    | acquiring path prog => simp [hact] at hstep
    | releasing prog => simp [hact] at hstep
  | call i n =>
    have ho := h.owners i
    unfold World.step at hstep
    unfold World.Careful at ha
    unfold OwnerInv at ho
    cases hact : (w.owners i).activity with
    | idle => simp [hact] at hstep
    | acquiring path prog =>
      cases prog with
      | ret r => simp [hact] at hstep
      | stuck => simp [hact] at hstep
      | call c k =>
        simp only [hact, Option.some.injEq] at hstep ho ha
        rw [← hstep]
        obtain ⟨⟨hsecure, hheld⟩, hpath, hwp⟩ := ho
        refine h.call n ha.1 ⟨⟨hsecure.exec ha.2 i n, fun q hq => ?_⟩, hpath, ?_⟩
        · exact ⟨(hheld q hq).1, Protects.exec (hheld q hq).2 ha.2 n⟩
        · exact Prog.wp_step (S := excluding E i (w.owners i).locks) hwp ha
    | releasing prog =>
      cases prog with
      | ret r => simp [hact] at hstep
      | stuck => simp [hact] at hstep
      | call c k =>
        simp only [hact, Option.some.injEq] at hstep ho ha
        rw [← hstep]
        exact h.call n ha ⟨ho.1, ho.2 _⟩
  | finish i =>
    have ho := h.owners i
    unfold World.step at hstep
    unfold OwnerInv at ho
    cases hact : (w.owners i).activity with
    | idle => simp [hact] at hstep
    | acquiring path prog =>
      cases prog with
      | call c k => simp [hact] at hstep
      | stuck => simp [hact] at hstep
      | ret r =>
        simp only [hact, Option.some.injEq] at hstep ho
        rw [← hstep]
        obtain ⟨⟨hsecure, hheld⟩, hpath, hwp⟩ := ho
        obtain ⟨⟨hsecure', hprotects⟩, hsub⟩ := Prog.wp_done hwp
        refine h.set ⟨hsecure', fun q hq => ?_⟩
        have hold : ∀ q ∈ (w.owners i).held, U q ∧ Protects E i r.2 q w.sys := fun q hq =>
          ⟨(hheld q hq).1, Protects.mono hsub (hheld q hq).2⟩
        dsimp only at hq
        split_ifs at hq with hr
        · rcases List.mem_cons.1 hq with rfl | hq
          · exact ⟨hpath, hprotects hr⟩
          · exact hold q hq
        · exact hold q hq
    | releasing prog =>
      cases prog with
      | call c k => simp [hact] at hstep
      | stuck => simp [hact] at hstep
      | ret locks =>
        simp only [hact, Option.some.injEq] at hstep ho
        rw [← hstep]
        obtain ⟨hheld, rfl⟩ : (w.owners i).held = [] ∧ locks = [] := ho
        refine h.set ⟨fun f hf => (by cases hf), fun q hq => ?_⟩
        rw [hheld] at hq
        cases hq

/-- An owner that holds a path is not releasing, and its locks protect it. -/
theorem Inv.protects (h : Inv E U w) (hpath : path ∈ (w.owners i).held) :
    SecureAll E U i (w.owners i).locks w.sys ∧ U path ∧
      Protects E i (w.owners i).locks path w.sys := by
  have ho := h.owners i
  unfold OwnerInv at ho
  cases hact : (w.owners i).activity with
  | idle =>
    rw [hact] at ho
    exact ⟨ho.1, ho.2 path hpath⟩
  | acquiring path' prog =>
    rw [hact] at ho
    exact ⟨ho.1.1, ho.1.2 path hpath⟩
  | releasing prog =>
    rw [hact] at ho
    rw [ho.1] at hpath
    cases hpath

end World

/-! ## Runs -/

/-- **Mutual exclusion, where the run is careful.**  Whatever the file tree is at the start: in every
state that is reached by careful steps, two different owners do not both hold the same path. -/
theorem mutual_exclusion (E : PathLockEngine) (U : Path → Prop) (hU : Usable E U) (fs : Fs ι)
    (clock : ℕ) (w : World ι)
    (hrun : Reaches (World.step E) (World.Careful E U) (World.start fs clock) w) (i j : ι)
    (hij : i ≠ j) (path : Path) : ¬ (path ∈ (w.owners i).held ∧ path ∈ (w.owners j).held) := by
  rintro ⟨hi, hj⟩
  have hinv : World.Inv E U w := hrun.invariant (World.inv_start fs clock)
    fun _ _ _ h ha hstep => h.step hU ha hstep
  obtain ⟨hsecure, hpath, hprotects⟩ := hinv.protects hi
  obtain ⟨hsecure', -, hprotects'⟩ := hinv.protects hj
  exact not_both_protect hU hij hinv.dated hpath hsecure hsecure' hprotects hprotects'

/-- An engine for the entries of `/`, which need no digest. -/
def rootEngine : PathLockEngine := ⟨fun _ => "", 300000000000, 2⟩

/-- The directory `/d`. -/
def rootFs : Fs (Fin 2) := Fs.empty.makeDir ["d"]

/-- Owner 0 acquires `/d` and releases it, then owner 1 acquires it. -/
def turnActs : List (Act (Fin 2)) :=
  [.acquire 0 .exact ["d"]] ++ List.replicate 8 (.call 0 0) ++ [.finish 0, .release 0] ++
    List.replicate 2 (.call 0 0) ++ [.finish 0, .acquire 1 .tree ["d"]] ++
    List.replicate 14 (.call 1 0) ++ [.finish 1]

theorem usable_root : Usable rootEngine (· = ["d"]) where
  visible := by
    rintro path rfl name hname
    obtain rfl : name = "d" := by simpa using hname
    exact ⟨by decide, by decide, by decide, by decide⟩
  distinct := by
    rintro p q rfl rfl _
    rfl

theorem mutual_exclusion_turnActs :
    ∃ w, Reaches (World.step rootEngine) (World.Careful rootEngine (· = ["d"]))
        (World.start rootFs 1) w ∧
      ["d"] ∈ (w.owners 1).held ∧ ¬ (["d"] ∈ (w.owners 0).held ∧ ["d"] ∈ (w.owners 1).held) := by
  have hcareful : ActsMeet (World.step rootEngine) (World.Careful rootEngine (· = ["d"]))
      (World.start rootFs 1) turnActs := by
    decide +kernel
  have hrun := Reaches.of_runActs hcareful rfl
  exact ⟨_, hrun, by decide +kernel,
    mutual_exclusion rootEngine (· = ["d"]) usable_root rootFs 1 _ hrun 0 1 (by decide) ["d"]⟩

/-- Both owners make their checks of `/d`, then one writes its token and returns, then the other. -/
def overwriteActs : List (Act (Fin 2)) :=
  [.acquire 0 .exact ["d"], .acquire 1 .exact ["d"]] ++ List.replicate 4 (.call 0 0) ++
    List.replicate 4 (.call 1 0) ++ List.replicate 4 (.call 0 0) ++ [.finish 0] ++
    List.replicate 4 (.call 1 0) ++ [.finish 1]

/-- Both owners have got `True` for `/d`, and neither has begun to release. -/
theorem mutual_exclusion_overwriteActs :
    ∃ w, runActs (World.step rootEngine) (World.start rootFs 1) overwriteActs = some w ∧
      ["d"] ∈ (w.owners 0).held ∧ ["d"] ∈ (w.owners 1).held :=
  ⟨_, rfl, by decide +kernel, by decide +kernel⟩

end OpenViking.Transaction
