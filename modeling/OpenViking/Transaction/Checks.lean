import OpenViking.Transaction.PathLock

/-!
# What the checks of an acquire promise

While one owner's program makes its calls, the other owners' calls come in between.  They write only
tokens of their own, so a lock file that does not name the owner does not come to name it.  Results:

* `Runs.quiet`: a program that changes no lock file keeps what the calls of the others keep;
* `Runs.exactConflictBefore`, `Runs.treeConflictBefore`: a conflict that an acquire finds is a lock
  file that does not name its owner.
-/

namespace OpenViking.Transaction

open PathLockEngine

variable {ι : Type}

namespace Sys

variable [DecidableEq ι]

/-- The same lock files, with the same history. -/
structure SameLocks (s t : Sys ι) : Prop where
  token : t.token = s.token
  writes : t.writes = s.writes
  born : t.born = s.born
  treeBorn : t.treeBorn = s.treeBorn

theorem sameLocks_exec {c : Call} (hc : Quiet c) (i : ι) (s : Sys ι) (n : ℕ) :
    s.SameLocks (exec i c s n).2 := by
  have htoken : (exec i c s n).2.token = s.token := by
    funext f
    rw [token_exec]
    cases c <;> first | rfl | exact absurd hc (by simp [Quiet])
  cases c with
  | write f ts lockType => exact absurd hc (by simp [Quiet])
  | rm f => exact absurd hc (by simp [Quiet])
  | mkdir path =>
    by_cases hm : s.fs.Makable path
    · exact ⟨htoken, by simp [exec, hm], by simp [exec, hm], by simp [exec, hm]⟩
    · exact ⟨htoken, by simp [exec, hm], by simp [exec, hm], by simp [exec, hm]⟩
  | _ => exact ⟨htoken, rfl, rfl, rfl⟩

variable {s : Sys ι}

omit [DecidableEq ι] in
theorem names_iff {f : Path} {i : ι} : s.Names f i ↔ ∃ t, s.token f = some t ∧ t.owner = i := by
  simp [Names]

theorem beq_owner (s : Sys ι) (f : Path) (i : ι) :
    ((s.token f).map Token.owner == some i) = decide (s.Names f i) := by
  rw [Bool.eq_iff_iff, beq_iff_eq, decide_eq_true_iff]
  rfl

omit [DecidableEq ι] in
theorem Names.unique {f : Path} {i j : ι} (hi : s.Names f i) (hj : s.Names f j) :
    i = j := Option.some.inj (hi.symm.trans hj)

/-- A call of another owner does not make a lock file name this one. -/
theorem not_names_exec {i j : ι} (hij : j ≠ i) {f : Path} (h : ¬ s.Names f i)
    (c : Call) (n : ℕ) : ¬ (exec j c s n).2.Names f i := by
  unfold Names at h ⊢
  rw [token_exec]
  cases c with
  | write g ts lockType =>
    simp only [tokenAfter]
    split_ifs
    · simpa using hij
    · exact h
  | rm g =>
    simp only [tokenAfter]
    split_ifs
    · simp
    · exact h
  | _ => exact h

end Sys

/-! ## Programs of one owner among others -/

variable [LinearOrder ι]

/-- In the setting the program is run by `me`, and the other calls are those of other owners. -/
structure Runs (S : Prog.Setting (Reply ι) (Sys ι)) (me : ι) : Prop where
  exec_eq : S.exec = Sys.exec me
  rely_cases : ∀ s t, S.rely s t → ∃ j c n, j ≠ me ∧ t = (Sys.exec j c s n).2

theorem runs_settingOf (cond : ι → Sys ι → Call → ℕ → Prop) (me : ι) :
    Runs (Pool.settingOf Sys.exec cond me) me := by
  refine ⟨rfl, ?_⟩
  rintro s t ⟨j, c, n, hj, -, rfl⟩
  exact ⟨j, c, n, hj, rfl⟩

namespace Runs

variable {S : Prog.Setting (Reply ι) (Sys ι)} {me : ι}

theorem stable_not_names (h : Runs S me) (f : Path) : S.Stable fun s => ¬ s.Names f me := by
  intro s t hr hs
  obtain ⟨j, c, n, hj, rfl⟩ := h.rely_cases s t hr
  exact Sys.not_names_exec hj hs c n

/-- A program that changes no lock file keeps what the others keep. -/
theorem quiet (h : Runs S me) {α : Type} {p : Locking ι α} (hp : p.All Quiet)
    {P : Sys ι → Prop} (hP : S.Stable P) (hsame : ∀ s t, Sys.SameLocks s t → P s → P t) :
    p.Triple S P fun _ => P := by
  refine .of_all hp hP fun c hc s n hs _ => ?_
  rw [h.exec_eq]
  exact hsame s _ (Sys.sameLocks_exec hc me s n) hs

/-- The conflict, if there is one, is a lock file that does not name the owner. -/
def Foreign (me : ι) (r : Option Path) (s : Sys ι) : Prop := ∀ f ∈ r, ¬ s.Names f me

theorem stable_foreign (h : Runs S me) (r : Option Path) : S.Stable (Foreign me r) :=
  fun s t hr hs f hf => h.stable_not_names f s t hr (hs f hf)

/-- The program is a check: it changes no lock file and finds only files of others. -/
structure Check (S : Prog.Setting (Reply ι) (Sys ι)) (me : ι) (p : Locking ι (Option Path)) :
    Prop where
  quiet : p.All Quiet
  foreign : p.Triple S (fun _ => True) (Foreign me)

omit [LinearOrder ι] in
theorem check_none : Check S me (pure none) :=
  ⟨trivial, .ret (.const True) fun _ _ f hf => by cases hf⟩

section

variable (h : Runs S me)

include h

theorem lockedByOther (f : Path) : Check S me (lockedByOther me f) := by
  refine ⟨lockedByOther_quiet me f, ?_⟩
  refine .call (.const True) fun s n _ _ t ht => ?_
  refine (h.stable_foreign _).star ht ?_
  rw [h.exec_eq]
  intro g hg
  simp only [Sys.exec] at hg ⊢
  split at hg
  · next tok htok =>
    split_ifs at hg with howner
    · cases hg
    · obtain rfl : f = g := by simpa using hg
      simpa [Sys.Names, htok] using howner
  · cases hg

theorem treeLockedByOther (f : Path) : Check S me (treeLockedByOther me f) := by
  refine ⟨treeLockedByOther_quiet me f, ?_⟩
  refine .call (.const True) fun s n _ _ t ht => ?_
  refine (h.stable_foreign _).star ht ?_
  rw [h.exec_eq]
  intro g hg
  simp only [Sys.exec] at hg ⊢
  split at hg
  · next tok htok =>
    split_ifs at hg with howner
    · obtain rfl : f = g := by simpa using hg
      simpa [Sys.Names, htok] using howner.1
    · cases hg
  · cases hg

theorem orElse {p q : Locking ι (Option Path)} (hp : Check S me p)
    (hq : Check S me q) : Check S me (orElse p q) := by
  refine ⟨orElse_quiet hp.quiet hq.quiet, hp.foreign.bind fun r => ?_⟩
  cases r with
  | none => exact hq.foreign.mono (fun _ _ => trivial) fun _ _ hs => hs
  | some c => exact .ret (h.stable_foreign _) fun _ hs => hs

/-- A check behind calls that change no lock file. -/
theorem check_bind {α : Type} {p : Locking ι α} {f : α → Locking ι (Option Path)}
    (hp : p.All Quiet) (hf : ∀ a, Check S me (f a)) : Check S me (p >>= f) :=
  ⟨hp.bind fun a => (hf a).quiet,
    (h.quiet hp (.const True) fun _ _ _ _ => trivial).bind fun a => (hf a).foreign⟩

theorem checkAncestorsForTree (path : Path) : Check S me (checkAncestorsForTree me path) := by
  fun_induction PathLockEngine.checkAncestorsForTree me path with
  | case1 a b q ih => exact h.orElse (h.treeLockedByOther _) ih
  | case2 path => exact check_none

theorem checkExactPathLock (E : PathLockEngine) (path : Path) :
    Check S me (E.checkExactPathLock me path) := by
  refine h.check_bind (E.getExactLockPath_quiet path) fun primary => ?_
  dsimp only
  split
  · exact h.lockedByOther _
  · exact h.orElse (h.lockedByOther _) (h.lockedByOther _)

theorem scanEntries {scan : Path → Locking ι (Option Path)}
    (hscan : ∀ path, Check S me (scan path)) (path : Path) (entries : List (String × Bool)) :
    Check S me (scanEntries me scan path entries) := by
  fun_induction PathLockEngine.scanEntries me scan path entries with
  | case1 => exact check_none
  | case2 name isDir entries _ ih => exact ih
  | case3 name isDir entries _ _ ih => exact h.orElse (h.lockedByOther _) ih
  | case4 name entries _ _ ih =>
    exact h.orElse (h.lockedByOther _) (h.orElse (hscan _) ih)
  | case5 name isDir entries _ _ _ ih => exact ih

theorem scanDescendants (depth : ℕ) (path : Path) : Check S me (scanDescendants me depth path) := by
  induction depth generalizing path with
  | zero => exact ⟨trivial, .stuck⟩
  | succ depth ih =>
    refine h.check_bind (isExistingDirectory_quiet path) fun b => ?_
    split
    · exact h.check_bind (.perform trivial) fun entries => h.scanEntries ih path entries
    · exact check_none

theorem exactConflictBefore (E : PathLockEngine) (path lockPath : Path) :
    Check S me (E.exactConflictBefore me path lockPath) := by
  refine h.orElse (h.checkExactPathLock E path) (h.orElse ?_ (h.checkAncestorsForTree path))
  split
  · exact check_none
  · exact h.lockedByOther _

end

theorem exactConflictAfter_quiet (me : ι) (path lockPath : Path) :
    (exactConflictAfter me path lockPath).All Quiet := by
  refine orElse_quiet ((lockedByOther_quiet me _).bind fun _ => trivial) ?_
  exact ((runs_settingOf (fun _ _ _ _ => True) me).checkAncestorsForTree path).quiet

theorem treeConflictBefore (h : Runs S me) (E : PathLockEngine) (path lockPath : Path) :
    Check S me (E.treeConflictBefore me path lockPath) :=
  h.orElse (h.lockedByOther _) (h.orElse (h.checkAncestorsForTree path)
    (h.orElse (h.checkExactPathLock E path) (h.scanDescendants E.fuel path)))

theorem treeConflictAfter (h : Runs S me) (E : PathLockEngine) (path : Path) :
    Check S me (E.treeConflictAfter me path) :=
  h.orElse (h.scanDescendants E.fuel path)
    (h.orElse (h.checkExactPathLock E path) (h.checkAncestorsForTree path))

end Runs

end OpenViking.Transaction
