import OpenViking.Transaction.LockText
import Std.Data.String.ToInt

/-!
# `is_locked` agrees with `acquire_exact_path`

An acquire takes one lock file in the way after the other, and removes it where it is stale, until
none is left or one is not.  Each removal leaves the others as they are, and there are at most as
many as the path has components and one more.

Results:

* `TextEngine.conflictBefore_spec`: a round finds a lock file in the way where there is one;
* `TextEngine.exists_acquireLoop`: the rounds end;
* `TextEngine.acquireExactPath_iff_not_isLocked`: the agreement.
-/

namespace OpenViking.Transaction

namespace TextEngine

variable {E : TextEngine} {owner : LockOwner} {tree : TextTree} {path f g : Path}

/-! ## Lock files -/

/-- The name of a lock file. -/
def IsLockFile : Path → Prop
  | name :: _ => name = lockFileName ∨ isReserved name = true
  | [] => False

/-- No lock file names the owner. -/
def NamedByNone (E : TextEngine) (owner : LockOwner) (tree : TextTree) : Prop :=
  ∀ f, IsLockFile f → E.tokenOwner tree f ≠ some owner.id

/-- The lock files that may be in the way. -/
def candidates (E : TextEngine) (path : Path) : List Path :=
  getLockPath path :: E.getPrefixedExactLockPath path :: ancestorLockPaths path

theorem length_ancestorLockPaths (path : Path) : (ancestorLockPaths path).length = path.length - 1 := by
  induction path with
  | nil => rfl
  | cons name q ih =>
    cases q with
    | nil => rfl
    | cons b q =>
      show (ancestorLockPaths (b :: q)).length + 1 = _
      rw [ih]
      rfl

theorem mem_candidates_of_exact (h : f ∈ E.getExactLockPaths tree path) : f ∈ E.candidates path := by
  have hprimary : E.getExactLockPath tree path ∈ E.candidates path := by
    unfold getExactLockPath
    split_ifs
    · exact List.mem_cons_self
    · exact List.mem_cons_of_mem _ List.mem_cons_self
  unfold getExactLockPaths at h
  split_ifs at h
  · rw [List.mem_singleton.1 h]
    exact hprimary
  · rcases List.mem_cons.1 h with rfl | h
    · exact hprimary
    · rw [List.mem_singleton.1 h]
      exact List.mem_cons_of_mem _ List.mem_cons_self

theorem Guards.mem_candidates (h : E.Guards tree path f) : f ∈ E.candidates path := by
  rcases h.2 with rfl | hf | ⟨hf, -⟩
  · exact List.mem_cons_self
  · exact mem_candidates_of_exact hf
  · exact List.mem_cons_of_mem _ (List.mem_cons_of_mem _ hf)

theorem head_of_mem_ancestorLockPaths (h : f ∈ ancestorLockPaths path) :
    ∃ q, f = getLockPath q ∧ q.length < path.length := by
  induction path with
  | nil => cases h
  | cons name q ih =>
    cases q with
    | nil => cases h
    | cons b q =>
      rcases List.mem_cons.1 h with rfl | h
      · exact ⟨b :: q, rfl, Nat.lt_succ_self _⟩
      · obtain ⟨p, hp, hlt⟩ := ih h
        exact ⟨p, hp, Nat.lt_succ_of_lt hlt⟩

theorem isLockFile_of_mem_candidates (hpath : 2 ≤ path.length) (h : f ∈ E.candidates path) :
    IsLockFile f := by
  rcases List.mem_cons.1 h with rfl | h
  · exact .inl rfl
  · rcases List.mem_cons.1 h with rfl | h
    · obtain ⟨name, b, q, rfl⟩ : ∃ name b q, path = name :: b :: q := by
        cases path with
        | nil => simp at hpath
        | cons name q =>
          cases q with
          | nil => simp at hpath
          | cons b q => exact ⟨name, b, q, rfl⟩
      obtain ⟨file, hfile, heq⟩ := getPrefixedExactLockPath_cons E.toPathLockEngine name b q
      rw [heq]
      exact .inr hfile
    · obtain ⟨q, rfl, -⟩ := head_of_mem_ancestorLockPaths h
      exact .inl rfl

/-! ## Removing a lock file -/

theorem readToken_erase (tree : TextTree) (f g : Path) :
    readToken (tree.erase f) g = if g = f then none else readToken tree g := by
  unfold readToken
  rw [SortedMap.get_erase]
  split_ifs with h
  · rfl
  · rfl

theorem isExistingDirectory_erase (hf : (readToken tree f).isSome) (p : Path) :
    isExistingDirectory (tree.erase f) p = isExistingDirectory tree p := by
  unfold isExistingDirectory
  rw [SortedMap.get_erase]
  split_ifs with h
  · subst h
    have hdir : tree.get p ≠ some .dir := by
      intro hdir
      unfold readToken at hf
      rw [hdir] at hf
      cases hf
    simp [hdir]
  · rfl

theorem getExactLockPath_erase (hf : (readToken tree f).isSome) :
    E.getExactLockPath (tree.erase f) path = E.getExactLockPath tree path := by
  unfold getExactLockPath
  rw [isExistingDirectory_erase hf]

theorem guards_erase (hf : (readToken tree f).isSome) :
    E.Guards (tree.erase f) path g ↔ E.Guards tree path g ∧ g ≠ f := by
  have hexact : E.getExactLockPaths (tree.erase f) path = E.getExactLockPaths tree path := by
    unfold getExactLockPaths
    rw [getExactLockPath_erase hf]
  unfold Guards
  rw [hexact, readToken_erase]
  by_cases hg : g = f
  · rw [if_pos hg]
    simp [hg]
  · rw [if_neg hg]
    simp [hg]

theorem isLockStale_erase (hg : g ≠ f) : E.isLockStale (tree.erase f) g = E.isLockStale tree g := by
  unfold isLockStale
  rw [readToken_erase, if_neg hg]

theorem NamedByNone.erase (h : E.NamedByNone owner tree) (f : Path) :
    E.NamedByNone owner (tree.erase f) := by
  intro g hg
  unfold tokenOwner
  rw [readToken_erase]
  split_ifs
  · simp
  · exact h g hg

/-! ## A round -/

theorem lockedByOther_iff (h : E.NamedByNone owner tree) (hf : IsLockFile f) :
    E.lockedByOther owner tree f = true ↔ (readToken tree f).isSome := by
  have hnot := h f hf
  unfold lockedByOther
  unfold tokenOwner at hnot ⊢
  cases htoken : readToken tree f with
  | none => simp
  | some token =>
    rw [htoken] at hnot
    simpa using hnot

theorem treeLockedByOther_iff (h : E.NamedByNone owner tree) (hf : IsLockFile f) :
    E.treeLockedByOther owner tree f = true ↔ (readToken tree f).isSome ∧
      ∀ token ∈ readToken tree f, (E.parseFencingToken token).lockType = .tree := by
  have hnot := h f hf
  unfold treeLockedByOther
  unfold tokenOwner at hnot
  cases htoken : readToken tree f with
  | none => simp
  | some token =>
    rw [htoken] at hnot
    have hne : (E.parseFencingToken token).owner ≠ owner.id := by simpa using hnot
    simp [hne]

/-- A round finds a lock file in the way, and none only where there is none. -/
theorem conflictBefore_spec (h : E.NamedByNone owner tree) (hpath : 2 ≤ path.length) :
    (∀ f, E.conflictBefore owner tree path (E.getExactLockPath tree path) = some f →
      E.Guards tree path f) ∧
    (E.conflictBefore owner tree path (E.getExactLockPath tree path) = none →
      ∀ f, ¬ E.Guards tree path f) := by
  have hfile : ∀ f ∈ E.candidates path, IsLockFile f := fun f =>
    isLockFile_of_mem_candidates hpath
  have hown : IsLockFile (getLockPath path) := .inl rfl
  unfold conflictBefore
  refine ⟨fun f hf => ?_, fun hnone f hguards => ?_⟩
  · rcases Option.or_eq_some_iff.1 hf with hf | ⟨-, hf⟩
    · have hmem := List.mem_of_find?_eq_some hf
      refine ⟨?_, .inr (.inl hmem)⟩
      exact (lockedByOther_iff h (hfile f (mem_candidates_of_exact hmem))).1 (List.find?_some hf)
    · rcases Option.or_eq_some_iff.1 hf with hf | ⟨-, hf⟩
      · unfold checkPathLock at hf
        split_ifs at hf with hne hother
        obtain rfl := Option.some.inj hf
        exact ⟨(lockedByOther_iff h hown).1 hother, .inl rfl⟩
      · have hmem := List.mem_of_find?_eq_some hf
        have hcandidate : f ∈ E.candidates path := List.mem_cons_of_mem _ (List.mem_cons_of_mem _ hmem)
        obtain ⟨hsome, htree⟩ := (treeLockedByOther_iff h (hfile f hcandidate)).1 (List.find?_some hf)
        exact ⟨hsome, .inr (.inr ⟨hmem, htree⟩)⟩
  · obtain ⟨hexact, hrest⟩ := Option.or_eq_none_iff.1 hnone
    obtain ⟨hsame, hancestors⟩ := Option.or_eq_none_iff.1 hrest
    have hcandidate := hguards.mem_candidates
    obtain ⟨hsome, hf⟩ := hguards
    have hother := (lockedByOther_iff h (hfile f hcandidate)).2 hsome
    have hexact' : f ∉ E.getExactLockPaths tree path := fun hmem =>
      List.find?_eq_none.1 hexact f hmem hother
    rcases hf with rfl | hf | ⟨hf, htree⟩
    · by_cases hlock : getLockPath path = E.getExactLockPath tree path
      · refine hexact' ?_
        rw [hlock]
        unfold getExactLockPaths
        split_ifs
        · exact List.mem_singleton_self _
        · exact List.mem_cons_self
      · rw [if_pos hlock] at hsame
        unfold checkPathLock at hsame
        rw [if_pos hother] at hsame
        cases hsame
    · exact hexact' hf
    · exact List.find?_eq_none.1 hancestors f hf
        ((treeLockedByOther_iff h (hfile f hcandidate)).2 ⟨hsome, htree⟩)

/-! ## The write -/

theorem readToken_put_of_ne (tree : TextTree) {f g : Path} (node : TextNode) (h : g ≠ f) :
    readToken (tree.put f node) g = readToken tree g := by
  unfold readToken
  rw [SortedMap.get_put_of_ne _ _ h]

/-- Making directories changes no lock file. -/
theorem readToken_ensureDirectoryExists (tree : TextTree) (p g : Path) :
    readToken (ensureDirectoryExists tree p) g = readToken tree g := by
  induction p with
  | nil => rfl
  | cons name q ih =>
    unfold ensureDirectoryExists
    by_cases hexists : (tree.get (name :: q)).isSome
    · rw [if_pos hexists]
    · rw [if_neg hexists]
      by_cases hg : g = name :: q
      · subst hg
        have habsent : tree.get (name :: q) = none := by simpa using hexists
        unfold readToken
        rw [SortedMap.get_put_self, habsent]
      · rw [readToken_put_of_ne _ _ hg]
        split_ifs
        · exact ih
        · rfl

theorem getExactLockPath_notMem_ancestors (hpath : 2 ≤ path.length) :
    E.getExactLockPath tree path ∉ ancestorLockPaths path := by
  intro hmem
  obtain ⟨q, hq, hlt⟩ := head_of_mem_ancestorLockPaths hmem
  unfold getExactLockPath at hq
  split_ifs at hq
  · rw [(List.cons.inj hq).2] at hlt
    exact lt_irrefl _ hlt
  · cases path with
    | nil => simp at hpath
    | cons name p =>
      cases p with
      | nil => simp at hpath
      | cons b p =>
        obtain ⟨file, hfile, heq⟩ := getPrefixedExactLockPath_cons E.toPathLockEngine name b p
        rw [heq] at hq
        rw [(List.cons.inj hq).1, not_isReserved_lockFileName] at hfile
        cases hfile

/-- With no lock file in the way, the write gets the lock. -/
theorem answer_exactWrite (h : E.NamedByNone owner tree) (hpath : 2 ≤ path.length)
    (hclear : ∀ f, ¬ E.Guards tree path f) :
    (E.exactWrite owner tree path (E.getExactLockPath tree path)).answer = some true := by
  set lockPath := E.getExactLockPath tree path with hlock
  have hancestor : lockPath ∉ ancestorLockPaths path := getExactLockPath_notMem_ancestors hpath
  unfold exactWrite
  generalize hmade : ensureParent tree path lockPath = made
  have hread : ∀ g, readToken made g = readToken tree g := by
    intro g
    rw [← hmade]
    unfold ensureParent
    split_ifs
    · cases getParentPath path with
      | none => rfl
      | some parent => exact readToken_ensureDirectoryExists tree parent g
    · rfl
  have hnone : ((E.checkPathLock owner (made.put lockPath (.file (some (E.makeFencingToken owner.id))))
      path).filter (· ≠ lockPath)).or (E.checkAncestorsForTree owner
        (made.put lockPath (.file (some (E.makeFencingToken owner.id)))) path) = none := by
    refine Option.or_eq_none_iff.2 ⟨?_, List.find?_eq_none.2 fun f hf hother => ?_⟩
    · unfold checkPathLock
      split_ifs with hother
      · by_cases heq : getLockPath path = lockPath
        · simp [heq]
        · refine absurd hother ?_
          have hfree : readToken tree (getLockPath path) = none := by
            by_contra hsome
            exact hclear _ ⟨Option.isSome_iff_ne_none.2 hsome, .inl rfl⟩
          unfold lockedByOther tokenOwner
          rw [readToken_put_of_ne _ _ heq, hread, hfree]
          simp
      · rfl
    · have hne : f ≠ lockPath := by
        rintro rfl
        exact hancestor hf
      have hfile : IsLockFile f := isLockFile_of_mem_candidates (E := E) hpath
        (List.mem_cons_of_mem _ (List.mem_cons_of_mem _ hf))
      unfold treeLockedByOther at hother
      rw [readToken_put_of_ne _ _ hne, hread] at hother
      obtain ⟨hsome, htree⟩ := (treeLockedByOther_iff h hfile).1 hother
      exact hclear f ⟨hsome, .inr (.inr ⟨hf, htree⟩)⟩
  simp only [isLockOwnedBy_put, if_true, hnone]

/-! ## The rounds -/

theorem countP_lt_of_mem {α : Type} {p q : α → Bool} {l : List α} {a : α} (ha : a ∈ l)
    (hpq : ∀ x, p x = true → q x = true) (hp : p a = false) (hq : q a = true) :
    l.countP p < l.countP q := by
  obtain ⟨front, back, rfl⟩ := List.append_of_mem ha
  have hfront := List.countP_mono_left (l := front) fun x _ => hpq x
  have hback := List.countP_mono_left (l := back) fun x _ => hpq x
  rw [List.countP_append, List.countP_append, List.countP_cons_of_neg (by simp [hp]),
    List.countP_cons_of_pos hq]
  omega

/-- A round with a lock file in the way. -/
theorem acquireLoop_conflict {lockPath conflict : Path} {fuel : ℕ}
    (h : E.conflictBefore owner tree path lockPath = some conflict) :
    E.acquireLoop owner path lockPath (fuel + 1) tree =
      E.reclaim owner tree conflict (E.acquireLoop owner path lockPath fuel) := by
  simp only [acquireLoop, h]

/-- The rounds end, one for each lock file in the way at most, and get the lock exactly when all of
these are stale. -/
theorem exists_acquireLoop (hpath : 2 ≤ path.length) (fuel : ℕ) (tree : TextTree)
    (h : E.NamedByNone owner tree)
    (hfuel : (E.candidates path).countP (fun f => (readToken tree f).isSome) < fuel) :
    ∃ out, E.acquireLoop owner path (E.getExactLockPath tree path) fuel tree = some out ∧
      (out.answer = some true ↔ ∀ f, E.Guards tree path f → E.isLockStale tree f = some true) := by
  induction fuel generalizing tree with
  | zero => exact absurd hfuel (Nat.not_lt_zero _)
  | succ fuel ih =>
    obtain ⟨hfound, hclear⟩ := conflictBefore_spec h hpath
    cases hconflict : E.conflictBefore owner tree path (E.getExactLockPath tree path) with
    | none =>
      have hnone := hclear hconflict
      unfold acquireLoop
      rw [hconflict]
      exact ⟨_, rfl, iff_of_true (answer_exactWrite h hpath hnone) fun f hf => absurd hf (hnone f)⟩
    | some conflict =>
      have hguards := hfound conflict hconflict
      rw [acquireLoop_conflict hconflict]
      unfold reclaim
      by_cases hstale : E.isLockStale tree conflict = some true
      · -- the lock file is removed, and the others stay
        have hfewer : (E.candidates path).countP (fun f => (readToken (tree.erase conflict) f).isSome) <
            (E.candidates path).countP fun f => (readToken tree f).isSome := by
          refine countP_lt_of_mem hguards.mem_candidates (fun f hf => ?_) ?_ hguards.1
          · rw [readToken_erase] at hf
            split_ifs at hf with heq
            · cases hf
            · exact hf
          · rw [readToken_erase, if_pos rfl]
            rfl
        obtain ⟨out, hout, hiff⟩ := ih (tree.erase conflict) (h.erase conflict) (by omega)
        rw [getExactLockPath_erase hguards.1] at hout
        rw [hstale]
        refine ⟨out, hout, hiff.trans ⟨fun hall f hf => ?_, fun hall f hf => ?_⟩⟩
        · by_cases heq : f = conflict
          · rw [heq, hstale]
          · rw [← isLockStale_erase heq]
            exact hall f ((guards_erase hguards.1).2 ⟨hf, heq⟩)
        · obtain ⟨hf, hne⟩ := (guards_erase hguards.1).1 hf
          rw [isLockStale_erase hne]
          exact hall f hf
      · -- the lock file is kept
        have hnot : ¬ ∀ f, E.Guards tree path f → E.isLockStale tree f = some true := fun hall =>
          hstale (hall conflict hguards)
        cases hkept : E.isLockStale tree conflict with
        | none => exact ⟨_, rfl, iff_of_false (by simp) hnot⟩
        | some stale =>
          cases stale with
          | false => exact ⟨_, rfl, iff_of_false (by simp) hnot⟩
          | true => exact absurd hkept hstale

theorem hasOwnedAncestorTree_eq_false (h : E.NamedByNone owner tree) (path : Path) :
    E.hasOwnedAncestorTree owner tree path = false := by
  induction path with
  | nil => rfl
  | cons name q ih =>
    have hnot : E.isLockOwnedBy owner tree (getLockPath (name :: q)) = false :=
      decide_eq_false (h _ (.inl rfl))
    unfold hasOwnedAncestorTree
    rw [ih, hnot]
    simp

/-- **`is_locked` agrees with `acquire_exact_path`.**  For an owner that no lock file names, alone on
the file tree, `acquire_exact_path` with no time to wait ends, and it gets the lock exactly when
`is_locked` says no.  Where a time in a token is too large for a float both may raise instead. -/
theorem acquireExactPath_iff_not_isLocked (E : TextEngine) (owner : LockOwner) (tree : TextTree)
    {path : Path} (hpath : 2 ≤ path.length) (hfree : E.NamedByNone owner tree)
    (hfuel : path.length + 2 ≤ E.fuel) :
    ∃ out, E.acquireExactPath owner tree path = some out ∧
      (out.answer = some true ↔ E.isLocked tree path true = some false) := by
  have hprimary : IsLockFile (E.getExactLockPath tree path) := by
    refine isLockFile_of_mem_candidates (E := E) hpath ?_
    unfold getExactLockPath
    split_ifs
    · exact List.mem_cons_self
    · exact List.mem_cons_of_mem _ List.mem_cons_self
  have hnot : E.isLockOwnedBy owner tree (E.getExactLockPath tree path) = false :=
    decide_eq_false (hfree _ hprimary)
  have hlen : (E.candidates path).length = path.length + 1 := by
    show (ancestorLockPaths path).length + 1 + 1 = _
    rw [length_ancestorLockPaths]
    omega
  have hcount : (E.candidates path).countP (fun f => (readToken tree f).isSome) ≤ _ :=
    List.countP_le_length
  rw [isLocked_iff]
  unfold acquireExactPath
  simp only [hnot, hasOwnedAncestorTree_eq_false hfree]
  simpa using exists_acquireLoop hpath E.fuel tree hfree (by omega)

/-- An engine, at a time of the clock. -/
def someEngine : TextEngine where
  digest := fun _ => "0123456789abcdef"
  lockExpire := 300000000000
  fuel := 10
  now := 1000000000000
  int := fun t => (String.ofList t).toInt?
  int_now := by simp
  exceeds := fun age expire => some (decide ((expire : ℤ) < age))

def someOwner : LockOwner where
  id := ['y']
  locks := []
  id_head := fun c hc => by
    obtain rfl : 'y' = c := by simpa using hc
    decide

/-- The directory `/a/b`, with an old lock of another owner on `/a`. -/
def oldTreeLock : TextTree :=
  ((SortedMap.empty.put ["a"] .dir).put ["b", "a"] .dir).put (getLockPath ["a"])
    (.file (some ['x', ':', 'S']))

theorem namedByNone_oldTreeLock : someEngine.NamedByNone someOwner oldTreeLock := by
  intro f _
  have hread : readToken oldTreeLock f = if f = getLockPath ["a"] then some ['x', ':', 'S'] else none := by
    unfold readToken oldTreeLock
    rw [SortedMap.get_put, SortedMap.get_put, SortedMap.get_put]
    split_ifs
    · decide
    · rfl
    · rfl
    · rfl
  unfold tokenOwner
  rw [hread]
  split_ifs
  · decide
  · simp

theorem acquireExactPath_oldTreeLock :
    ∃ out, someEngine.acquireExactPath someOwner oldTreeLock ["c", "b", "a"] = some out ∧
      out.answer = some true := by
  have hpath : 2 ≤ ["c", "b", "a"].length := by decide
  obtain ⟨out, hout, hiff⟩ := acquireExactPath_iff_not_isLocked someEngine someOwner oldTreeLock hpath
    namedByNone_oldTreeLock (by decide)
  exact ⟨out, hout, hiff.2 (by decide +kernel)⟩

end TextEngine

end OpenViking.Transaction
