import OpenViking.Transaction.Checks

/-!
# What an acquire leaves behind

An acquire that fails should leave the lock files that name its owner as it found them.  It does as
long as

* no other owner writes or removes a lock file that names this one,
* the acquire writes over no token of its own, and
* it does not go on waiting, after a conflict, with its token in place;

this is the condition `Keeps` on the steps of a run.  Without the last one a token that is kept for another
round, because the one in the way is younger, stays behind when that round ends at its deadline.

Results:

* `acquire_triple`: what the owner's lock files are after an acquire, for either outcome;
* `acquire_leaks_nothing`: in such a run an acquire that returns `False` has left nothing behind.
-/

namespace OpenViking.Transaction

open PathLockEngine

variable {ι : Type}

/-! ## The lock files of an owner -/

/-- The type of the owner's token in the lock file. -/
def Sys.ownType (s : Sys ι) [DecidableEq ι] (i : ι) (f : Path) : Option LockType :=
  (s.token f).bind fun t => if t.owner = i then some t.lockType else none

theorem Sys.ownType_eq_none [DecidableEq ι] {s : Sys ι} {i : ι} {f : Path} :
    s.ownType i f = none ↔ ¬ s.Names f i := by
  unfold ownType Names
  cases s.token f with
  | none => simp
  | some t => simp

variable [LinearOrder ι]

/-- The calls of the other owners spare the lock files of `i`, and those of `i` do not write over a
token of its own, do not remove the files in `held` and do not wait with a token in place. -/
def Keeps (i : ι) (held : List Path) (j : ι) (s : Sys ι) (c : Call) (n : ℕ) : Prop :=
  match c with
  | .write f _ _ => ¬ s.Names f i
  | .rm f => if j = i then f ∉ held else ¬ s.Names f i
  | .deadline (.conflict f) => j = i → n = 0 → ¬ s.Names f i
  | _ => True

instance (i : ι) (held : List Path) (j : ι) (s : Sys ι) (c : Call) (n : ℕ) :
    Decidable (Keeps i held j s c n) := by
  unfold Keeps
  split <;> infer_instance

/-- The owner's lock files, with their types, are those of `m`. -/
def Owns (i : ι) (m : Path → Option LockType) (s : Sys ι) : Prop := s.ownType i = m

/-- The owner's lock files are those of `m`, but for one that is not among them. -/
def OwnsBut (i : ι) (m : Path → Option LockType) (f : Path) (s : Sys ι) : Prop :=
  m f = none ∧ ∀ g, g ≠ f → s.ownType i g = m g

theorem ownType_exec_of_ne {i j : ι} {held : List Path} (hij : j ≠ i) {s : Sys ι} {c : Call}
    {n : ℕ} (h : Keeps i held j s c n) : (Sys.exec j c s n).2.ownType i = s.ownType i := by
  funext f
  unfold Sys.ownType
  rw [Sys.token_exec]
  cases c with
  | write g ts lockType =>
    simp only [Sys.tokenAfter]
    split_ifs with hf
    · obtain ⟨rfl, -⟩ := hf
      have hnone : s.ownType i f = none := Sys.ownType_eq_none.2 h
      simpa [hij, Sys.ownType] using hnone.symm
    · rfl
  | rm g =>
    simp only [Sys.tokenAfter]
    split_ifs with hf
    · subst hf
      have hnone : s.ownType i f = none := Sys.ownType_eq_none.2 (by simpa [Keeps, hij] using h)
      exact hnone.symm
    · rfl
  | _ => rfl

theorem ownType_written {i : ι} {s : Sys ι} {f : Path} (hw : s.fs.Writable f) (ts : ℕ)
    (lockType : LockType) (n : ℕ) :
    (Sys.exec i (.write f ts lockType) s n).2.ownType i =
      Function.update (s.ownType i) f (some lockType) := by
  funext g
  unfold Sys.ownType
  rw [Sys.token_exec]
  by_cases hg : g = f
  · subst hg
    simp [Sys.tokenAfter, hw]
  · simp [Sys.tokenAfter, hg]

theorem ownType_rm (i : ι) (s : Sys ι) (f : Path) (n : ℕ) :
    (Sys.exec i (.rm f) s n).2.ownType i = Function.update (s.ownType i) f none := by
  funext g
  unfold Sys.ownType
  rw [Sys.token_exec]
  by_cases hg : g = f
  · subst hg
    simp [Sys.tokenAfter]
  · simp [Sys.tokenAfter, hg]

theorem Sys.SameLocks.ownType {s t : Sys ι} (h : s.SameLocks t) (i : ι) : t.ownType i = s.ownType i := by
  funext f
  simp only [Sys.ownType, h.token]

/-! ## Triples -/

section Triples

variable {me : ι} {held : List Path} {m : Path → Option LockType}

/-- The setting of an owner in a pool that meets the condition. -/
abbrev keeping (me : ι) (held : List Path) : Prog.Setting (Reply ι) (Sys ι) :=
  Pool.settingOf Sys.exec (Keeps me held) me

theorem stable_of_ownType {P : (Path → Option LockType) → Prop} :
    (keeping me held).Stable fun s => P (s.ownType me) := by
  rintro s t ⟨j, c, n, hj, hk, rfl⟩ hs
  show P _
  rw [ownType_exec_of_ne hj hk]
  exact hs

theorem stable_owns : (keeping me held).Stable (Owns me m) :=
  stable_of_ownType (P := fun w => w = m)

variable {f : Path}

theorem stable_ownsBut : (keeping me held).Stable (OwnsBut me m f) :=
  stable_of_ownType (P := fun w => m f = none ∧ ∀ g, g ≠ f → w g = m g)

theorem owns_quiet {α : Type} {p : Locking ι α} (hp : p.All Quiet) :
    p.Triple (keeping me held) (Owns me m) fun _ => Owns me m :=
  (runs_settingOf _ me).quiet hp stable_owns fun _ _ hst hs => (hst.ownType me).trans hs

theorem ownsBut_quiet {α : Type} {p : Locking ι α} (hp : p.All Quiet) :
    p.Triple (keeping me held) (OwnsBut me m f) fun _ => OwnsBut me m f := by
  refine (runs_settingOf _ me).quiet hp stable_ownsBut fun s t hst hs => ⟨hs.1, fun g hg => ?_⟩
  rw [hst.ownType]
  exact hs.2 g hg

theorem owns_check {p : Locking ι (Option Path)} (hp : Runs.Check (keeping me held) me p) :
    p.Triple (keeping me held) (Owns me m) fun r s => Runs.Foreign me r s ∧ Owns me m s :=
  (hp.foreign.mono (fun _ _ => trivial) fun _ _ hs => hs).and_post (owns_quiet hp.quiet)

theorem Owns.ownsBut {lockType : LockType} {s : Sys ι} (hf : m f = none)
    (h : Owns me (Function.update m f (some lockType)) s) : OwnsBut me m f s := by
  refine ⟨hf, fun g hg => ?_⟩
  rw [show s.ownType me = _ from h, Function.update_of_ne hg]

theorem OwnsBut.owns {s : Sys ι} (h : OwnsBut me m f s) (hf : ¬ s.Names f me) : Owns me m s := by
  funext g
  by_cases hg : g = f
  · rw [hg, h.1]
    exact Sys.ownType_eq_none.2 hf
  · exact h.2 g hg

/-- After the token is written, it is among the owner's. -/
theorem createLockFile_triple (f : Path) (lockType : LockType) :
    (createLockFile f lockType).Triple (keeping me held) (Owns me m) fun b s =>
      if b then m f = none ∧ Owns me (Function.update m f (some lockType)) s else Owns me m s := by
  refine (owns_quiet timeNs_quiet).bind fun ts => ?_
  refine .perform stable_owns (fun b => ?_) fun s n hs hk => ?_
  · cases b with
    | false => exact stable_owns
    | true => exact (Prog.Setting.Stable.const _).and stable_owns
  · show ite _ _ _
    have hnone : m f = none := by
      rw [← show s.ownType me = m from hs]
      exact Sys.ownType_eq_none.2 hk
    by_cases hw : s.fs.Writable f
    · have hreply : ((keeping me held).exec (.write f ts lockType) s n).1 = true := by
        simp [Pool.settingOf, Sys.exec, hw]
      rw [if_pos hreply]
      refine ⟨hnone, (ownType_written hw ts lockType n).trans ?_⟩
      rw [show s.ownType me = m from hs]
    · have hexec : (keeping me held).exec (.write f ts lockType) s n = (false, s) := by
        simp [Pool.settingOf, Sys.exec, hw]
      rw [hexec]
      exact hs

/-- The owner finds its token, and the files stay as they are. -/
theorem isLockOwnedBy_triple (hf : (m f).isSome) :
    (isLockOwnedBy me f).Triple (keeping me held) (Owns me m) fun b s => b = true ∧ Owns me m s := by
  refine .call stable_owns fun s n hs _ t ht => ⟨?_, stable_owns.star ht hs⟩
  have hnames : s.Names f me := by
    by_contra hno
    rw [← show s.ownType me = m from hs, Sys.ownType_eq_none.2 hno] at hf
    cases hf
  exact (Sys.beq_owner s f me).trans (decide_eq_true hnames)

theorem removeLockFile_triple :
    (removeLockFile f).Triple (keeping me held) (OwnsBut me m f) fun _ => Owns me m := by
  refine .perform stable_ownsBut (fun _ => stable_owns) fun s n hs _ => ?_
  show Sys.ownType _ me = m
  refine (ownType_rm me s f n).trans ?_
  funext g
  by_cases hg : g = f
  · rw [hg, Function.update_self, hs.1]
  · rw [Function.update_of_ne hg, hs.2 g hg]

theorem removeOwned_triple :
    (removeOwned me f).Triple (keeping me held) (OwnsBut me m f) fun _ => Owns me m := by
  have hread : (isLockOwnedBy me f).Triple (keeping me held) (OwnsBut me m f) fun b s =>
      if b then OwnsBut me m f s else Owns me m s := by
    refine .call stable_ownsBut fun s n hs _ => ?_
    by_cases hnames : s.Names f me
    · have hb := (Sys.beq_owner s f me).trans (decide_eq_true hnames)
      show Prog.wp _ (.ret ((s.token f).map Token.owner == some me)) _ s
      rw [hb]
      exact fun t ht => stable_ownsBut.star ht hs
    · have hb := (Sys.beq_owner s f me).trans (decide_eq_false hnames)
      show Prog.wp _ (.ret ((s.token f).map Token.owner == some me)) _ s
      rw [hb]
      exact fun t ht => stable_owns.star ht (hs.owns hnames)
  refine hread.bind fun b => ?_
  cases b with
  | true => exact removeLockFile_triple
  | false => exact .ret stable_owns fun _ hs => hs

variable (E : PathLockEngine)

/-- A conflict of another owner may go: it is none of this owner's files. -/
theorem awaitConflict_triple (conflict : Path) :
    (E.awaitConflict conflict).Triple (keeping me held)
      (fun s => Runs.Foreign me (some conflict) s ∧ Owns me m s) fun r s =>
        r ≠ some true ∧ Owns me m s := by
  have hstable := ((runs_settingOf (Keeps me held) me).stable_foreign (some conflict)).and
    (stable_owns (m := m))
  have hstale := (runs_settingOf (Keeps me held) me).quiet
    (E.isLockStale_quiet conflict) hstable fun s t hst hs => by
      refine ⟨fun f hf => ?_, (hst.ownType me).trans hs.2⟩
      rw [Sys.Names, hst.token]
      exact hs.1 f hf
  refine hstale.bind fun b => ?_
  cases b with
  | true =>
    refine Prog.Triple.bind (M := fun _ => Owns me m) ?_ fun _ => .ret stable_owns fun _ hs => ⟨by simp, hs⟩
    refine removeLockFile_triple.mono (fun s hs => ?_) fun _ _ hs => hs
    refine ⟨?_, fun g _ => congrFun hs.2 g⟩
    rw [← show s.ownType me = m from hs.2]
    exact Sys.ownType_eq_none.2 (hs.1 conflict rfl)
  | false =>
    refine Prog.Triple.mono ?_ (fun s hs => hs.2) fun _ _ hs => hs
    refine (owns_quiet (deadline_quiet .before)).bind fun b => ?_
    split
    · exact .ret stable_owns fun _ hs => ⟨by simp, hs⟩
    · exact .ret stable_owns fun _ hs => ⟨by simp, hs⟩

/-- A wait with the token in place goes on only when the token is gone. -/
theorem deadline_triple (f : Path) :
    (Agfs.deadline (.conflict f) : Locking ι Bool).Triple (keeping me held) (OwnsBut me m f)
      fun b s => if b then OwnsBut me m f s else Owns me m s := by
  refine .perform stable_ownsBut (fun b => ?_) fun s n hs hk => ?_
  · cases b with
    | false => exact stable_owns
    | true => exact stable_ownsBut
  · by_cases hn : n = 0
    · subst hn
      exact hs.owns (hk rfl rfl)
    · have hreply : ((keeping me held).exec (.deadline (.conflict f)) s n).1 = true := by
        simp [Pool.settingOf, Sys.exec, hn]
      show ite _ _ _
      rw [if_pos hreply]
      exact hs

/-- What a round gives: its token is among the owner's when it succeeds, and nothing has changed when
it does not. -/
def RoundPost (me : ι) (m : Path → Option LockType) (f : Path) (r : Option Bool) (s : Sys ι) :
    Prop :=
  if r = some true then m f = none ∧ ∃ lockType, Owns me (Function.update m f (some lockType)) s
  else Owns me m s

theorem roundPost_of_owns {r : Option Bool} {s : Sys ι} (hr : r ≠ some true)
    (h : Owns me m s) : RoundPost me m f r s := by
  rw [RoundPost, if_neg hr]
  exact h

theorem stable_roundPost (r : Option Bool) : (keeping me held).Stable (RoundPost me m f r) := by
  unfold RoundPost
  split_ifs with hr
  · rintro s t hst ⟨hf, lockType, hs⟩
    exact ⟨hf, lockType, stable_owns s t hst hs⟩
  · exact stable_owns

theorem verify_triple {lockType : LockType} (hf : m f = none) :
    (verify me f).Triple (keeping me held) (Owns me (Function.update m f (some lockType)))
      (RoundPost me m f) := by
  refine (isLockOwnedBy_triple (by simp)).bind fun b => .of_prop ?_
  rintro rfl
  exact .ret stable_owns fun s hs => by simpa [RoundPost, hf] using ⟨lockType, hs⟩

theorem exactBackOff_triple (hf : m f = none) (conflict : Path) :
    (exactBackOff me f conflict).Triple (keeping me held) (OwnsBut me m f) (RoundPost me m f) := by
  have hrest : (do
      if ← Agfs.deadline (.conflict f) then
        removeOwned me f
        pure (some false)
      else pure none : Locking ι (Option Bool)).Triple (keeping me held) (OwnsBut me m f)
        (RoundPost me m f) := by
    refine (deadline_triple f).bind fun b => ?_
    cases b with
    | true =>
      exact removeOwned_triple.bind fun _ => .ret stable_owns fun s hs => roundPost_of_owns (by simp) hs
    | false => exact .ret stable_owns fun s hs => roundPost_of_owns (by simp) hs
  refine (ownsBut_quiet (mustBackOff_quiet me f conflict)).bind fun b => ?_
  cases b with
  | true =>
    refine removeOwned_triple.bind fun _ => hrest.mono (fun s hs => ?_) fun _ _ hs => hs
    exact ⟨hf, fun g _ => congrFun hs g⟩
  | false => exact hrest

theorem exactRound_triple (path f : Path) :
    (E.exactRound me path f).Triple (keeping me held) (Owns me m) (RoundPost me m f) := by
  have hruns := runs_settingOf (Keeps me held) me
  refine (owns_check (hruns.exactConflictBefore E path f)).bind fun r => ?_
  cases r with
  | some conflict =>
    exact (awaitConflict_triple E conflict).post fun r s hs => roundPost_of_owns hs.1 hs.2
  | none =>
    refine Prog.Triple.mono ?_ (fun s hs => hs.2) fun _ _ hs => hs
    refine (owns_quiet (ensureParent_quiet path f)).bind fun b => ?_
    cases b with
    | false => exact .ret stable_owns fun s hs => roundPost_of_owns (by simp) hs
    | true =>
      refine (createLockFile_triple f .exact).bind fun b => ?_
      cases b with
      | false => exact .ret stable_owns fun s hs => roundPost_of_owns (by simp) hs
      | true =>
        refine .of_prop fun hf => (isLockOwnedBy_triple (by simp)).bind fun b => .of_prop ?_
        rintro rfl
        refine (owns_quiet (Runs.exactConflictAfter_quiet me path f)).bind fun r => ?_
        cases r with
        | some conflict =>
          exact (exactBackOff_triple hf conflict).mono (fun s hs => hs.ownsBut hf) fun _ _ hs => hs
        | none => exact verify_triple hf

theorem treeBackOff_triple (conflict : Path) :
    (treeBackOff me f conflict).Triple (keeping me held) (OwnsBut me m f) (RoundPost me m f) := by
  have hlast : (pure (some false) : Locking ι (Option Bool)).Triple (keeping me held) (Owns me m)
      (RoundPost me m f) := .ret stable_owns fun s hs => roundPost_of_owns (by simp) hs
  refine (ownsBut_quiet (mustBackOff_quiet me f conflict)).bind fun b => ?_
  cases b with
  | true =>
    refine removeLockFile_triple.bind fun _ => ?_
    refine (owns_quiet (deadline_quiet (.conflict f))).bind fun b => ?_
    cases b with
    | true => exact hlast
    | false => exact .ret stable_owns fun s hs => roundPost_of_owns (by simp) hs
  | false =>
    refine (deadline_triple f).bind fun b => ?_
    cases b with
    | true => exact removeLockFile_triple.bind fun _ => hlast
    | false => exact .ret stable_owns fun s hs => roundPost_of_owns (by simp) hs

theorem treeRound_triple (path f : Path) :
    (E.treeRound me path f).Triple (keeping me held) (Owns me m) (RoundPost me m f) := by
  have hruns := runs_settingOf (Keeps me held) me
  refine (owns_check (hruns.treeConflictBefore E path f)).bind fun r => ?_
  cases r with
  | some conflict =>
    exact (awaitConflict_triple E conflict).post fun r s hs => roundPost_of_owns hs.1 hs.2
  | none =>
    refine Prog.Triple.mono ?_ (fun s hs => hs.2) fun _ _ hs => hs
    refine (owns_quiet (ensureDirectoryExists_quiet path)).bind fun b => ?_
    cases b with
    | false => exact .ret stable_owns fun s hs => roundPost_of_owns (by simp) hs
    | true =>
      refine (createLockFile_triple f .tree).bind fun b => ?_
      cases b with
      | false => exact .ret stable_owns fun s hs => roundPost_of_owns (by simp) hs
      | true =>
        refine .of_prop fun hf => ?_
        refine (owns_quiet (hruns.treeConflictAfter E path).quiet).bind fun r => ?_
        cases r with
        | some conflict =>
          exact (treeBackOff_triple conflict).mono (fun s hs => hs.ownsBut hf) fun _ _ hs => hs
        | none => exact verify_triple hf

/-- What an acquire gives: with `True` either nothing has changed or one lock file is new, among the
owner's and in `owner.locks`; with `False` nothing has changed. -/
def AcquirePost (me : ι) (m : Path → Option LockType) (locks : List Path) (r : Bool × List Path)
    (s : Sys ι) : Prop :=
  (r.2 = locks ∧ Owns me m s) ∨
    r.1 = true ∧ ∃ f lockType, m f = none ∧ r.2 = addLock locks f ∧
      Owns me (Function.update m f (some lockType)) s

theorem rounds_triple (locks : List Path) {round : Locking ι (Option Bool)}
    (h : round.Triple (keeping me held) (Owns me m) (RoundPost me m f)) :
    (E.rounds locks f round).Triple (keeping me held) (Owns me m) (AcquirePost me m locks) := by
  have hspin := Prog.Triple.spin (Q := fun b => RoundPost me m f (some b))
    (fun b => stable_roundPost (some b)) (h.post fun r s hs => by
      cases r with
      | none => exact hs
      | some b => exact hs) E.fuel
  refine hspin.bind fun b => ?_
  cases b with
  | true =>
    refine .ret (stable_roundPost _) fun s hs => .inr ⟨rfl, ?_⟩
    obtain ⟨hf, lockType, hown⟩ := by simpa [RoundPost] using hs
    exact ⟨f, lockType, hf, rfl, hown⟩
  | false => exact .ret (stable_roundPost _) fun s hs => .inl ⟨rfl, hs⟩

theorem addLock_of_mem {locks : List Path} (h : f ∈ locks) : addLock locks f = locks :=
  if_pos h

/-- What the owner's lock files are after an acquire. -/
theorem acquire_triple (lockType : LockType) (locks : List Path) (path : Path) :
    (E.acquire me lockType locks path).Triple (keeping me held) (Owns me m)
      (AcquirePost me m locks) := by
  have hkeep : ∀ b : Bool, (pure (b, locks) : Locking ι (Bool × List Path)).Triple
      (keeping me held) (Owns me m) (AcquirePost me m locks) :=
    fun b => .ret stable_owns fun s hs => .inl ⟨rfl, hs⟩
  have hancestor : ∀ p : Locking ι (Bool × List Path),
      p.Triple (keeping me held) (Owns me m) (AcquirePost me m locks) →
      (do
        if ← hasOwnedAncestorTree me locks path then pure (true, locks)
        else p : Locking ι (Bool × List Path)).Triple (keeping me held) (Owns me m)
          (AcquirePost me m locks) := by
    intro p hp
    refine (owns_quiet (hasOwnedAncestorTree_quiet me locks path)).bind fun b => ?_
    cases b with
    | true => exact hkeep true
    | false => exact hp
  cases lockType with
  | exact =>
    refine (owns_quiet (E.getExactLockPath_quiet path)).bind fun f => ?_
    have hrounds := hancestor _ (rounds_triple E locks (exactRound_triple E path f))
    by_cases hf : f ∈ locks
    · rw [if_pos hf]
      refine (owns_quiet (isLockOwnedBy_quiet me f)).bind fun b => ?_
      cases b with
      | true =>
        rw [addLock_of_mem hf]
        exact hkeep true
      | false => exact hrounds
    · rw [if_neg hf]
      exact hrounds
  | tree =>
    refine (owns_quiet (E.getTreeLockPath_quiet path)).bind fun f => ?_
    have hrounds := hancestor _ (rounds_triple E locks (treeRound_triple E path f))
    by_cases hf : f ∈ locks
    · refine (owns_quiet (ownedLockTypeForLockPath_quiet me locks f)).bind fun r => ?_
      split
      · rw [addLock_of_mem hf]
        exact hkeep true
      · exact hrounds
    · rw [ownedLockTypeForLockPath, if_neg hf]
      exact hrounds

end Triples

/-! ## Runs -/

/-- **A failed acquire leaks nothing, where the run meets the condition.**  Whatever programs the
other owners run, from any state: when the acquire of owner `i` has returned `False`, `owner.locks`
is as before, and the lock files that name `i` are those that named it when it started, with their
types. -/
theorem acquire_leaks_nothing (E : PathLockEngine) (i : ι) (lockType : LockType)
    (locks locks' : List Path) (path : Path) (x y : Pool ι (Reply ι) (Sys ι) (Bool × List Path))
    (hstart : x.prog i = E.acquire i lockType locks path)
    (hrun : Reaches (Pool.step Sys.exec) (Pool.Meets (Keeps i [])) x y)
    (hret : y.prog i = .ret (false, locks')) :
    locks' = locks ∧ ∀ f, y.state.ownType i f = x.state.ownType i f := by
  have h0 : (x.prog i).wp (keeping i []) (AcquirePost i (x.state.ownType i) locks) x.state := by
    rw [hstart]
    exact acquire_triple E lockType locks path x.state rfl
  have hy := Pool.wp_reaches h0 hrun
  rw [hret] at hy
  rcases Prog.wp_done hy with ⟨hlocks, hown⟩ | ⟨htrue, -⟩
  · exact ⟨hlocks, congrFun hown⟩
  · cases htrue

/-- An engine with the digest of `/p/q`, the only one it needs below. -/
def leakEngine : PathLockEngine := ⟨fun _ => "81f107d91404c3a0", 300000000000, 3⟩

/-- Owner 0 acquires the tree `/p` while owner 1 acquires `/p/q`; both are directories. -/
def leakStart : Pool (Fin 2) (Reply (Fin 2)) (Sys (Fin 2)) (Bool × List Path) where
  state := .ofFs ((Fs.empty.makeDir ["p"]).makeDir ["q", "p"]) 1
  prog i :=
    if i = 0 then leakEngine.acquire i .tree [] ["p"] else leakEngine.acquire i .exact [] ["q", "p"]

/-- Owner 1 succeeds, then owner 0 finds its token and its deadline has passed. -/
def blockedActs : List (Fin 2 × ℕ) :=
  List.replicate 11 (1, 0) ++ List.replicate 8 (0, 0) ++ [(0, 1)]

theorem acquire_leaks_nothing_blockedActs :
    ∃ y, Reaches (Pool.step Sys.exec) (Pool.Meets (Keeps 0 [])) leakStart y ∧
      y.prog 0 = .ret (false, []) ∧ ∀ f, y.state.ownType 0 f = leakStart.state.ownType 0 f := by
  have hmeets : ActsMeet (Pool.step Sys.exec) (Pool.Meets (Keeps 0 [])) leakStart blockedActs := by
    decide +kernel
  have hrun := Reaches.of_runActs hmeets rfl
  exact ⟨_, hrun, rfl, (acquire_leaks_nothing leakEngine 0 .tree [] [] ["p"] _ _ rfl hrun rfl).2⟩

/-- Owner 1 makes its checks, owner 0 writes its token, owner 1 writes a younger one.  Owner 0 finds
it, keeps its own because it is the older one, and its deadline passes in the round that follows. -/
def keptActs : List (Fin 2 × ℕ) :=
  List.replicate 5 (1, 0) ++ List.replicate 12 (0, 0) ++ [(1, 1), (1, 0)] ++
    List.replicate 13 (0, 0) ++ [(0, 1)]

/-- Owner 0 has returned `False`, and its tree token is still in `/p`, where there was none. -/
theorem acquire_leaks_keptActs :
    ∃ y, runActs (Pool.step Sys.exec) leakStart keptActs = some y ∧
      leakStart.prog 0 = leakEngine.acquire 0 .tree [] ["p"] ∧ y.prog 0 = .ret (false, []) ∧
      leakStart.state.ownType 0 [".path.ovlock", "p"] = none ∧
      y.state.ownType 0 [".path.ovlock", "p"] = some .tree :=
  ⟨_, rfl, rfl, rfl, by decide +kernel, by decide +kernel⟩

end OpenViking.Transaction
