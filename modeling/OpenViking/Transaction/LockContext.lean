import OpenViking.Transaction.Leak
import Mathlib.Data.List.Sort

/-!
# Batches and lock contexts on a borrowed handle

`LockManager` acquires several paths for one handle, and rolls back those it got when a later one
fails (`storage/transaction/lock_manager.py`); `LockContext` does so for a block of code, and releases
what it acquired when the block ends (`lock_context.py`).  The handle may already hold locks, and they
should survive.  They do in runs that meet the condition `Keeps` for the handle's locks: besides what
it takes for a single acquire to leak nothing, the handle's own calls must remove none of them, which
the rollback of `acquire_mv` does when it releases the handle as a whole.  Results:

* `Gained.acquire`: after an acquire the handle has what it had, and at most one lock file more;
* `borrowed_handle_survives`: the handle and its lock files are left as they were.
-/

namespace OpenViking.Transaction

namespace PathLockEngine

variable {ι : Type} [LinearOrder ι] (E : PathLockEngine) (me : ι)

/-! ## Batches -/

/-- `key=lambda x: (len(x), x)` -/
def pathLe (p q : Path) : Prop :=
  (pathText p).length < (pathText q).length ∨
    (pathText p).length = (pathText q).length ∧ pathText p ≤ pathText q

instance : DecidableRel pathLe := fun _ _ => inferInstanceAs (Decidable (_ ∨ _))

/-- The loop of the three batches (`lock_manager.py` 176-194): acquire the paths in turn, and release
the new lock files of those before when one fails. -/
def acquireEach (locks acquired : List Path) :
    List (Path × LockType) → Locking ι (Bool × List Path)
  | [] => pure (true, locks)
  | (path, lockType) :: rest => do
    let r ← E.acquire me lockType locks path
    if r.1 then acquireEach r.2 (acquired ++ r.2.filter (· ∉ locks)) rest
    else
      let locks' ← releaseSelected me r.2 acquired
      pure (false, locks')

/-- `LockManager.acquire_tree_batch` (144-202) -/
def acquireTreeBatch (locks paths : List Path) : Locking ι (Bool × List Path) :=
  E.acquireEach me locks [] ((paths.insertionSort pathLe).map (·, .tree))

/-- `LockManager.acquire_exact_path_batch` (204-238) -/
def acquireExactPathBatch (locks paths : List Path) : Locking ι (Bool × List Path) :=
  E.acquireEach me locks [] ((paths.eraseDups.insertionSort pathLe).map (·, .exact))

/-- `LockManager.acquire_exact_tree_batch` (240-289) -/
def acquireExactTreeBatch (locks exactPaths treePaths : List Path) :
    Locking ι (Bool × List Path) :=
  let exactOnly := exactPaths.eraseDups.filter (· ∉ treePaths)
  let allPairs := exactOnly.map (·, LockType.exact) ++ treePaths.eraseDups.map (·, LockType.tree)
  E.acquireEach me locks [] (allPairs.insertionSort fun x y => pathLe x.1 y.1)

/-! ## Contexts -/

/-- The modes of a `LockContext`; `mv` with its `mv_dst_path` and `src_is_dir`. -/
inductive LockMode where
  | tree
  | exact
  | mv (mvDstPath : Option Path) (srcIsDir : Bool)

/-- The exceptions of `__aenter__`: the lock is not acquired, or `paths[0]` of no paths. -/
inductive EnterError where
  | lockAcquisition
  | index
  deriving DecidableEq

/-- The loop of the mode `tree` (`lock_context.py` 48-54), which rolls nothing back. -/
def acquireTrees (locks : List Path) (success : Bool) : List Path → Locking ι (Bool × List Path)
  | [] => pure (success, locks)
  | path :: rest => do
    let r ← E.acquireTree me locks path
    if r.1 then acquireTrees r.2 true rest else pure (false, r.2)

/-- The end of `__aenter__` (73-84) for a handle that the context does not own: the new lock files, or
their release and the error. -/
def finishEnter (locksBefore : List Path) (r : Bool × List Path) :
    Locking ι (Except EnterError (List Path) × List Path) := do
  let acquiredLockPaths := r.2.filter (· ∉ locksBefore)
  if r.1 then pure (.ok acquiredLockPaths, r.2)
  else
    let locks' ← releaseSelected me r.2 acquiredLockPaths
    pure (.error .lockAcquisition, locks')

/-- `LockContext.__aenter__` (42-86) on a handle of the caller with these `locks`: the acquired lock
paths or the error, and the handle's locks. -/
def aenter (mode : LockMode) (paths locks : List Path) :
    Locking ι (Except EnterError (List Path) × List Path) :=
  match mode with
  | .tree => do finishEnter me locks (← E.acquireTrees me locks false paths)
  | .exact => do finishEnter me locks (← E.acquireExactPathBatch me locks paths)
  | .mv none _ => pure (.error .lockAcquisition, locks)
  | .mv (some dst) srcIsDir =>
    match paths with
    | [] => pure (.error .index, locks)
    | src :: _ => do finishEnter me locks (← E.acquireMv me locks src dst srcIsDir)

/-- `LockContext.__aexit__` (88-97) on a handle of the caller. -/
def aexit (acquiredLockPaths locks : List Path) : Locking ι (List Path) :=
  releaseSelected me locks acquiredLockPaths

/-- What is done with a borrowed handle: a batch, or a block in a `LockContext`. -/
inductive HandleOp where
  | treeBatch (paths : List Path)
  | exactPathBatch (paths : List Path)
  | exactTreeBatch (exactPaths treePaths : List Path)
  | context (mode : LockMode) (paths : List Path)

/-- It is a block in a `LockContext`. -/
def HandleOp.isContext : HandleOp → Prop
  | .context _ _ => True
  | _ => False

/-- Run it.  The flag says whether the batch returns `True`, or whether the context was entered (it is
left again then). -/
def runOp (locks : List Path) : HandleOp → Locking ι (Bool × List Path)
  | .treeBatch paths => E.acquireTreeBatch me locks paths
  | .exactPathBatch paths => E.acquireExactPathBatch me locks paths
  | .exactTreeBatch exactPaths treePaths => E.acquireExactTreeBatch me locks exactPaths treePaths
  | .context mode paths => do
    match ← E.aenter me mode paths locks with
    | (.ok acquiredLockPaths, locks') =>
      let locks'' ← aexit me acquiredLockPaths locks'
      pure (true, locks'')
    | (.error _, locks') => pure (false, locks')

end PathLockEngine

open PathLockEngine

variable {ι : Type} [LinearOrder ι] {me : ι} {m w : Path → Option LockType} {locks new : List Path}

/-! ## New lock files -/

/-- What a list has got behind another list, found again by what that one lacks. -/
theorem filter_not_mem_append (l l' : List Path) (h : ∀ f ∈ l', f ∉ l) : (l ++ l').filter (· ∉ l) = l' := by
  have hl : l.filter (· ∉ l) = [] := List.filter_eq_nil_iff.2 fun f hf => by simpa using hf
  have hl' : l'.filter (· ∉ l) = l' := List.filter_eq_self.2 fun f hf => by simpa using h f hf
  rw [List.filter_append, hl, hl', List.nil_append]

/-- The lock files of the handle are those of `m`, with `locks` their list, and the new ones. -/
structure Gained (m : Path → Option LockType) (locks : List Path) (w : Path → Option LockType)
    (new : List Path) : Prop where
  nodup : new.Nodup
  held : ∀ f, f ∈ locks ↔ m f ≠ none
  fresh : ∀ f ∈ new, m f = none
  owned : ∀ f ∈ new, w f ≠ none
  rest : ∀ f, f ∉ new → w f = m f

namespace Gained

theorem nil (h : ∀ f, f ∈ locks ↔ m f ≠ none) : Gained m locks m [] :=
  ⟨.nil, h, by simp, by simp, fun _ _ => rfl⟩

variable {f : Path}

theorem not_mem (h : Gained m locks w new) (hf : f ∈ new) : f ∉ locks :=
  fun hl => (h.held f).1 hl (h.fresh f hf)

theorem eq_of_nil (h : Gained m locks w []) : w = m := funext fun f => h.rest f (by simp)

/-- A lock file that is written to a file the handle does not have. -/
theorem append (h : Gained m locks w new) (hf : w f = none) (lockType : LockType) :
    Gained m locks (Function.update w f (some lockType)) (new ++ [f]) := by
  have hnew : f ∉ new := fun hmem => h.owned f hmem hf
  refine ⟨?_, h.held, ?_, ?_, ?_⟩
  · exact List.nodup_append.2 ⟨h.nodup, by simp, by
      rintro a ha b hb rfl
      exact hnew (by simpa [List.mem_singleton.1 hb] using ha)⟩
  · intro g hg
    rcases List.mem_append.1 hg with hg | hg
    · exact h.fresh g hg
    · rw [List.mem_singleton.1 hg, ← h.rest f hnew, hf]
  · intro g hg
    by_cases hgf : g = f
    · simp [hgf]
    · rw [Function.update_of_ne hgf]
      exact h.owned g (by simpa [hgf] using hg)
  · intro g hg
    simp only [List.mem_append, List.mem_singleton, not_or] at hg
    rw [Function.update_of_ne hg.2]
    exact h.rest g hg.1

/-- The last new lock file is gone again. -/
theorem removed (h : Gained m locks w (new ++ [f])) : Gained m locks (Function.update w f none) new := by
  obtain ⟨hnd, -, hdisj⟩ := List.nodup_append.1 h.nodup
  have hne : ∀ g ∈ new, g ≠ f := fun g hg => hdisj g hg f (by simp)
  refine ⟨hnd, h.held, fun g hg => h.fresh g (by simp [hg]), fun g hg => ?_, fun g hg => ?_⟩
  · rw [Function.update_of_ne (hne g hg)]
    exact h.owned g (by simp [hg])
  · by_cases hgf : g = f
    · rw [hgf, Function.update_self, h.fresh f (by simp)]
    · rw [Function.update_of_ne hgf]
      exact h.rest g (by simp [hg, hgf])

theorem erase_last (h : Gained m locks w (new ++ [f])) :
    (locks ++ (new ++ [f])).erase f = locks ++ new := by
  have hlocks : f ∉ locks := h.not_mem (by simp)
  have hnew : f ∉ new := fun hf => (List.nodup_append.1 h.nodup).2.2 f hf f (by simp) rfl
  rw [List.erase_append_right _ hlocks, List.erase_append_right _ hnew]
  simp

/-- The new lock files are those that were not in the handle's locks before. -/
theorem filter_not_mem (h : Gained m locks w new) :
    (locks ++ new).filter (· ∉ locks) = new :=
  filter_not_mem_append locks new fun _ hf => h.not_mem hf

theorem not_mem_of_none (h : Gained m locks w new) (hf : w f = none) : f ∉ locks ++ new := by
  have hnew : f ∉ new := fun hmem => h.owned f hmem hf
  have hold : f ∉ locks := fun hmem => (h.held f).1 hmem (by rw [← h.rest f hnew, hf])
  simp [hold, hnew]

end Gained

/-! ## Triples -/

/-- The handle has its locks and the new lock files `new`, and no other. -/
def GainedPost (me : ι) (m : Path → Option LockType) (locks locks' : List Path) (s : Sys ι) :
    Prop :=
  ∃ w new, Gained m locks w new ∧ locks' = locks ++ new ∧ Owns me w s

/-- The handle is as it was. -/
def Restored (me : ι) (m : Path → Option LockType) (locks locks' : List Path) (s : Sys ι) : Prop :=
  locks' = locks ∧ Owns me m s

variable {held : List Path}

theorem stable_restored (locks' : List Path) :
    (keeping me held).Stable (Restored me m locks locks') :=
  (Prog.Setting.Stable.const _).and stable_owns

theorem stable_gainedPost (locks' : List Path) :
    (keeping me held).Stable (GainedPost me m locks locks') := by
  rintro s t hst ⟨w, new, hg, hl, hs⟩
  exact ⟨w, new, hg, hl, stable_owns s t hst hs⟩

/-- A triple for each way in which the lock files can have been gained. -/
theorem triple_of_gained {α : Type} {p : List Path → Locking ι α} {Q : α → Sys ι → Prop} {locks' : List Path}
    (h : ∀ w new, Gained m locks w new →
      (p (locks ++ new)).Triple (keeping me held) (Owns me w) Q) :
    (p locks').Triple (keeping me held) (GainedPost me m locks locks') Q := by
  rintro s ⟨w, new, hg, rfl, hs⟩
  exact h w new hg s hs

/-- An acquire keeps what the handle has, and gains at most one lock file. -/
theorem Gained.acquire (h : Gained m locks w new) (E : PathLockEngine) (lockType : LockType) (path : Path) :
    (E.acquire me lockType (locks ++ new) path).Triple (keeping me held) (Owns me w) fun r s =>
      GainedPost me m locks r.2 s := by
  refine (acquire_triple E lockType (locks ++ new) path).post fun r s hs => ?_
  rcases hs with ⟨hl, hown⟩ | ⟨-, f, ty, hf, hl, hown⟩
  · exact ⟨w, new, h, hl, hown⟩
  · refine ⟨_, new ++ [f], h.append hf ty, ?_, hown⟩
    rw [hl, addLock, if_neg (h.not_mem_of_none hf), List.append_assoc]

theorem removeOwned_update (f : Path) :
    (removeOwned me f).Triple (keeping me held) (Owns me w) fun _ =>
      Owns me (Function.update w f none) := by
  refine removeOwned_triple.mono (fun s hs => ⟨Function.update_self f none w, fun g hg => ?_⟩)
    fun _ _ hs => hs
  rw [show s.ownType me = w from hs, Function.update_of_ne hg]

/-- Releasing the new lock files, the last one first, restores the handle. -/
theorem releaseEachSelected_triple (h : Gained m locks w new) :
    (releaseEachSelected me (locks ++ new) new.reverse).Triple (keeping me held) (Owns me w)
      (Restored me m locks) := by
  induction new using List.reverseRecOn generalizing w with
  | nil =>
    obtain rfl := h.eq_of_nil
    exact .ret stable_owns fun s hs => ⟨by simp, hs⟩
  | append_singleton new f ih =>
    rw [List.reverse_append, List.reverse_singleton, List.singleton_append, releaseEachSelected,
      if_pos (by simp), h.erase_last]
    exact (removeOwned_update f).bind fun _ => ih h.removed

theorem releaseSelected_triple (h : Gained m locks w new) :
    (releaseSelected me (locks ++ new) new).Triple (keeping me held) (Owns me w)
      (Restored me m locks) :=
  releaseEachSelected_triple h

/-- `release` restores the handle as well, as far as it is allowed to go: it may not remove a lock
file that the handle held before. -/
theorem release_triple (h : Gained m locks w new) :
    (release me (locks ++ new)).Triple (keeping me locks) (Owns me w) (Restored me m locks) := by
  rw [release, List.reverse_append]
  induction new using List.reverseRecOn generalizing w with
  | nil =>
    obtain rfl := h.eq_of_nil
    rw [List.append_nil, List.reverse_nil, List.nil_append]
    cases hl : locks.reverse with
    | nil =>
      obtain rfl := List.reverse_eq_nil_iff.1 hl
      exact .ret stable_owns fun s hs => ⟨rfl, hs⟩
    | cons f rest =>
      have hf : f ∈ locks := List.mem_reverse.1 (hl ▸ List.mem_cons_self)
      refine Prog.Triple.bind (M := fun _ _ => False) ?_ fun _ => .of_false fun _ hs => hs
      refine (isLockOwnedBy_triple (Option.isSome_iff_ne_none.2 ((h.held f).1 hf))).bind
        fun b => .of_prop ?_
      rintro rfl
      refine .call stable_owns fun s n _ hk => ?_
      exact absurd hf (by simpa [Pool.settingOf, Keeps] using hk)
  | append_singleton new f ih =>
    rw [List.reverse_append, List.reverse_singleton, List.singleton_append, List.cons_append,
      releaseEach, h.erase_last]
    exact (removeOwned_update f).bind fun _ => ih h.removed

/-- What a batch gives: the gained lock files with `True`, the old handle with `False`. -/
def BatchPost (me : ι) (m : Path → Option LockType) (locks : List Path) (r : Bool × List Path)
    (s : Sys ι) : Prop :=
  if r.1 then GainedPost me m locks r.2 s else Restored me m locks r.2 s

theorem BatchPost.gained {r : Bool × List Path} {s : Sys ι} (hheld : ∀ f, f ∈ locks ↔ m f ≠ none)
    (h : BatchPost me m locks r s) : GainedPost me m locks r.2 s := by
  unfold BatchPost at h
  split_ifs at h with hr
  · exact h
  · exact ⟨m, [], .nil hheld, by simpa using h.1, h.2⟩

theorem acquireEach_triple (h : Gained m locks w new) (E : PathLockEngine) (pairs : List (Path × LockType)) :
    (E.acquireEach me (locks ++ new) new pairs).Triple (keeping me held) (Owns me w)
      (BatchPost me m locks) := by
  induction pairs generalizing w new with
  | nil => exact .ret stable_owns fun s hs => ⟨w, new, h, rfl, hs⟩
  | cons pair rest ih =>
    refine (acquire_triple E pair.2 (locks ++ new) pair.1).bind fun r => ?_
    obtain ⟨success, locks'⟩ := r
    cases success with
    | true =>
      rintro s (⟨rfl, hown⟩ | ⟨-, f, ty, hf, rfl, hown⟩)
      · have hnone := filter_not_mem_append (locks ++ new) [] (by simp)
        rw [List.append_nil] at hnone
        have hnext := ih h s hown
        simp only [hnone, List.append_nil, if_true]
        exact hnext
      · have hnew := h.not_mem_of_none hf
        have hone := filter_not_mem_append (locks ++ new) [f] (by simpa using hnew)
        have hnext := ih (h.append hf ty) s hown
        simp only [addLock, if_neg hnew, hone, if_true]
        rwa [List.append_assoc]
    | false =>
      rintro s (⟨rfl, hown⟩ | ⟨htrue, -⟩)
      · refine Prog.wp_bind (Prog.wp_mono (fun locks'' t ht => ?_) (releaseSelected_triple h s hown))
        exact fun u hu => (stable_restored locks'').star hu ht
      · cases htrue

/-- A batch on the handle as it is before the call. -/
theorem batch_triple (hheld : ∀ f, f ∈ locks ↔ m f ≠ none) (E : PathLockEngine)
    (pairs : List (Path × LockType)) :
    (E.acquireEach me locks [] pairs).Triple (keeping me locks) (Owns me m)
      (BatchPost me m locks) := by
  have hbatch : (E.acquireEach me (locks ++ []) [] pairs).Triple (keeping me locks) _ _ :=
    acquireEach_triple (.nil hheld) E pairs
  rwa [List.append_nil] at hbatch

theorem acquireTrees_triple (h : Gained m locks w new) (E : PathLockEngine)
    (success : Bool) (paths : List Path) :
    (E.acquireTrees me (locks ++ new) success paths).Triple (keeping me held) (Owns me w) fun r =>
      GainedPost me m locks r.2 := by
  induction paths generalizing w new success with
  | nil => exact .ret stable_owns fun s hs => ⟨w, new, h, rfl, hs⟩
  | cons path rest ih =>
    refine (h.acquire E .tree path).bind fun r => ?_
    split
    · exact triple_of_gained (p := fun l => E.acquireTrees me l true rest)
        fun w new hg => ih hg true
    · exact .ret (stable_gainedPost _) fun s hs => hs

theorem acquireMvDst_triple (hheld : ∀ f, f ∈ locks ↔ m f ≠ none) (E : PathLockEngine)
    (locks' : List Path) (dst : Path) :
    (E.acquireMvDst me locks' dst).Triple (keeping me locks) (GainedPost me m locks locks') fun r =>
      GainedPost me m locks r.2 := by
  refine Prog.Triple.bind (M := fun r => GainedPost me m locks r.2) ?_ fun r => ?_
  · exact triple_of_gained (p := fun l => E.acquireExactPath me l dst)
      fun w new hg => hg.acquire E .exact dst
  · split
    · exact .ret (stable_gainedPost _) fun s hs => hs
    · refine Prog.Triple.bind (M := Restored me m locks) ?_ fun locks'' => ?_
      · exact triple_of_gained (p := fun l => release me l) fun w new hg => release_triple hg
      · exact .ret (stable_restored _) fun s hs => ⟨m, [], .nil hheld, by simpa using hs.1, hs.2⟩

theorem acquireMv_triple (hheld : ∀ f, f ∈ locks ↔ m f ≠ none) (E : PathLockEngine)
    (src dst : Path) (srcIsDir : Bool) :
    (E.acquireMv me locks src dst srcIsDir).Triple (keeping me locks) (Owns me m) fun r =>
      GainedPost me m locks r.2 := by
  have hsrc : ∀ ty, (E.acquire me ty locks src).Triple (keeping me locks) (Owns me m) fun r =>
      GainedPost me m locks r.2 := by
    intro ty
    have hacq : (E.acquire me ty (locks ++ []) src).Triple (keeping me locks) _ _ :=
      (Gained.nil hheld).acquire E ty src
    rwa [List.append_nil] at hacq
  have hrest : ∀ r : Bool × List Path, (if r.1 then E.acquireMvDst me r.2 dst else pure r).Triple
      (keeping me locks) (GainedPost me m locks r.2) fun r => GainedPost me m locks r.2 := by
    intro r
    split
    · exact acquireMvDst_triple hheld E r.2 dst
    · exact .ret (stable_gainedPost _) fun s hs => hs
  cases srcIsDir with
  | true => exact (hsrc .tree).bind hrest
  | false => exact (hsrc .exact).bind hrest

/-- Entering: the gained lock files are those to release, or the handle is as it was. -/
def EnterPost (me : ι) (m : Path → Option LockType) (locks : List Path)
    (r : Except EnterError (List Path) × List Path) (s : Sys ι) : Prop :=
  match r.1 with
  | .ok acquired => ∃ w, Gained m locks w acquired ∧ r.2 = locks ++ acquired ∧ Owns me w s
  | .error _ => Restored me m locks r.2 s

theorem finishEnter_triple (r : Bool × List Path) :
    (finishEnter me locks r).Triple (keeping me held) (GainedPost me m locks r.2)
      (EnterPost me m locks) := by
  rintro s ⟨w, new, hg, hl, hs⟩
  unfold finishEnter
  rw [hl, hg.filter_not_mem]
  split
  · exact fun t ht => ⟨w, hg, rfl, stable_owns.star ht hs⟩
  · refine Prog.wp_bind (Prog.wp_mono (fun locks'' t ht => ?_) (releaseSelected_triple hg s hs))
    exact fun u hu => (stable_restored locks'').star hu ht

theorem aenter_triple (hheld : ∀ f, f ∈ locks ↔ m f ≠ none) (E : PathLockEngine) (mode : LockMode)
    (paths : List Path) :
    (E.aenter me mode paths locks).Triple (keeping me locks) (Owns me m) (EnterPost me m locks) := by
  cases mode with
  | tree =>
    have htrees : (E.acquireTrees me (locks ++ []) false paths).Triple (keeping me locks) _ _ :=
      acquireTrees_triple (.nil hheld) E false paths
    rw [List.append_nil] at htrees
    exact htrees.bind fun r => finishEnter_triple r
  | exact =>
    have hbatch : (E.acquireExactPathBatch me locks paths).Triple (keeping me locks) _ _ :=
      batch_triple hheld E _
    exact (hbatch.post fun r s hs => hs.gained hheld).bind fun r => finishEnter_triple r
  | mv dst srcIsDir =>
    cases dst with
    | none => exact .ret stable_owns fun s hs => ⟨rfl, hs⟩
    | some dst =>
      cases paths with
      | nil => exact .ret stable_owns fun s hs => ⟨rfl, hs⟩
      | cons src paths =>
        exact (acquireMv_triple hheld E src dst srcIsDir).bind fun r => finishEnter_triple r

/-- What is promised to the owner of a borrowed handle. -/
def OpPost (me : ι) (m : Path → Option LockType) (locks : List Path) (op : HandleOp)
    (r : Bool × List Path) (s : Sys ι) : Prop :=
  r.1 = false ∨ op.isContext → Restored me m locks r.2 s

theorem runOp_triple (hheld : ∀ f, f ∈ locks ↔ m f ≠ none) (E : PathLockEngine) (op : HandleOp) :
    (E.runOp me locks op).Triple (keeping me locks) (Owns me m) (OpPost me m locks op) := by
  have hbatch : ∀ pairs, (E.acquireEach me locks [] pairs).Triple (keeping me locks) (Owns me m)
      fun r s => r.1 = false → Restored me m locks r.2 s := by
    intro pairs
    refine (batch_triple hheld E pairs).post fun r s hs hr => ?_
    rwa [BatchPost, if_neg (by simp [hr])] at hs
  cases op with
  | treeBatch paths | exactPathBatch paths => exact (hbatch _).post fun r s hs hr => hs (hr.resolve_right id)
  | exactTreeBatch exactPaths treePaths =>
    exact (hbatch _).post fun r s hs hr => hs (hr.resolve_right id)
  | context mode paths =>
    refine (aenter_triple hheld E mode paths).bind fun r => ?_
    obtain ⟨result, locks'⟩ := r
    cases result with
    | error e => exact .ret (stable_restored _) fun s hs _ => hs
    | ok acquired =>
      rintro s ⟨w, hg, rfl, hs⟩
      refine Prog.wp_bind (Prog.wp_mono (fun locks'' t ht => ?_) (releaseSelected_triple hg s hs))
      exact fun u hu _ => (stable_restored locks'').star hu ht

/-! ## Runs -/

/-- **A borrowed handle survives, where the run meets the condition.**  Handle `i` holds the lock
files of its `locks`, and the other owners run any programs.  When the batch has returned `False`, or
the context has failed or has been left again, `locks` and the lock files of the handle, with their
types, are what they were. -/
theorem borrowed_handle_survives (E : PathLockEngine) (i : ι) (op : HandleOp)
    (locks locks' : List Path) (success : Bool) (x y : Pool ι (Reply ι) (Sys ι) (Bool × List Path))
    (hheld : ∀ f, f ∈ locks ↔ x.state.Names f i) (hstart : x.prog i = E.runOp i locks op)
    (hrun : Reaches (Pool.step Sys.exec) (Pool.Meets (Keeps i locks)) x y)
    (hret : y.prog i = .ret (success, locks')) (hop : success = false ∨ op.isContext) :
    locks' = locks ∧ ∀ f, y.state.ownType i f = x.state.ownType i f := by
  have hheld' : ∀ f, f ∈ locks ↔ x.state.ownType i f ≠ none := by
    intro f
    rw [hheld f, ne_eq, Sys.ownType_eq_none, not_not]
  have h0 : (x.prog i).wp (keeping i locks) (OpPost i (x.state.ownType i) locks op) x.state := by
    rw [hstart]
    exact runOp_triple hheld' E op x.state rfl
  have hy := Pool.wp_reaches h0 hrun
  rw [hret] at hy
  obtain ⟨hlocks, hown⟩ := Prog.wp_done hy hop
  exact ⟨hlocks, congrFun hown⟩

/-- An engine for paths below `/`, which need no digest. -/
def borrowEngine : PathLockEngine := ⟨fun _ => "", 300000000000, 3⟩

/-- The directories `/a`, `/p` and `/q`; owner 0 has locked `/a` and owner 1 has locked `/q`. -/
def borrowFs : Fs (Fin 2) :=
  (((Fs.empty.makeDir ["a"]).makeDir ["p"]).makeDir ["q"]).writeFile [".path.ovlock", "a"]
    ⟨0, 1, .exact⟩ |>.writeFile [".path.ovlock", "q"] ⟨1, 1, .exact⟩

/-- Owner 0 has something done with its handle, and owner 1 goes on holding its lock. -/
def borrowStart (op : HandleOp) : Pool (Fin 2) (Reply (Fin 2)) (Sys (Fin 2)) (Bool × List Path) where
  state := .ofFs borrowFs 1
  prog i := if i = 0 then borrowEngine.runOp i [[".path.ovlock", "a"]] op else .ret (true, [])

theorem borrowStart_held (op : HandleOp) (f : Path) :
    f ∈ [[".path.ovlock", "a"]] ↔ (borrowStart op).state.Names f 0 := by
  have htoken : borrowFs.token f = if f = [".path.ovlock", "q"] then some ⟨1, 1, .exact⟩
      else if f = [".path.ovlock", "a"] then some ⟨0, 1, .exact⟩ else none := by
    unfold borrowFs
    rw [Fs.token_writeFile_of_writable (by decide +kernel),
      Fs.token_writeFile_of_writable (by decide +kernel), Fs.token_makeDir, Fs.token_makeDir,
      Fs.token_makeDir, Fs.token_empty]
  show _ ↔ (borrowFs.token f).map Token.owner = some 0
  rw [htoken, List.mem_singleton]
  split_ifs with hq ha
  · subst hq
    decide
  · simp [ha]
  · simp [ha]

/-- The batch gets `/p` but not `/q`, and rolls back. -/
theorem borrowed_handle_survives_batch :
    ∃ y, Reaches (Pool.step Sys.exec) (Pool.Meets (Keeps 0 [[".path.ovlock", "a"]]))
        (borrowStart (.exactPathBatch [["p"], ["q"]])) y ∧
      y.prog 0 = .ret (false, [[".path.ovlock", "a"]]) ∧
      ∀ f, y.state.ownType 0 f =
        (borrowStart (.exactPathBatch [["p"], ["q"]])).state.ownType 0 f := by
  have hmeets : ActsMeet (Pool.step Sys.exec) (Pool.Meets (Keeps 0 [[".path.ovlock", "a"]]))
      (borrowStart (.exactPathBatch [["p"], ["q"]])) (List.replicate 15 (0, 1)) := by
    decide +kernel
  have hrun := Reaches.of_runActs hmeets rfl
  exact ⟨_, hrun, rfl, (borrowed_handle_survives borrowEngine 0 (.exactPathBatch [["p"], ["q"]])
    [[".path.ovlock", "a"]] _ false _ _ (borrowStart_held _) rfl hrun rfl (.inl rfl)).2⟩

/-- The source of the move is acquired, the destination is not, and the handle is released as a whole:
the context has failed, and the handle's lock on `/a` is gone. -/
theorem borrowed_handle_lost :
    (∀ f, f ∈ [[".path.ovlock", "a"]] ↔
      (borrowStart (.context (.mv (some ["q"]) true) [["p"]])).state.Names f 0) ∧
    ∃ y, runActs (Pool.step Sys.exec) (borrowStart (.context (.mv (some ["q"]) true) [["p"]]))
        (List.replicate 23 (0, 1)) = some y ∧
      y.prog 0 = .ret (false, []) ∧
      (borrowStart (.context (.mv (some ["q"]) true) [["p"]])).state.ownType 0
        [".path.ovlock", "a"] = some .exact ∧
      y.state.ownType 0 [".path.ovlock", "a"] = none :=
  ⟨borrowStart_held _, _, rfl, rfl, by decide +kernel, by decide +kernel⟩

end OpenViking.Transaction
