import OpenViking.Transaction.TreeAcquire

/-!
# A tree lock and a lock below it

One owner acquires the tree of a directory while another acquires a path below it.  They write
different lock files: the first finds the other's by a scan of the directory, the second finds the
first's on its way up through the ancestors.  Results:

* `DuelInv.step`: the acquires follow the protocol of `TreeProtocol`, and win when they return `True`;
* `tree_excludes_below`: the two acquires do not both return `True`.
-/

namespace OpenViking.Transaction

open PathLockEngine TreeProtocol

variable {ι : Type} [LinearOrder ι] {E : PathLockEngine} {dir : Path} {p q : Side ι}

/-! ## The two sides -/

/-- The owner of the tree. -/
def above (a : ι) (dir : Path) : Side ι := ⟨a, getLockPath dir, .tree⟩

/-- The owner below it; its lock file is one of those that can protect the path. -/
def beneath (b : ι) (lockType : LockType) (f : Path) : Side ι := ⟨b, f, lockType⟩

/-- The path is strictly below the directory, and the scan passes over no component in between. -/
structure Below (dir path : Path) : Prop where
  append : ∃ pre, pre ≠ [] ∧ (∀ name ∈ pre, Visible name) ∧ path = pre ++ dir

variable {path f d : Path}

theorem Below.suffix (h : Below dir path) : dir <:+ path ∧ dir.length < path.length := by
  obtain ⟨pre, hne, -, rfl⟩ := h.append
  refine ⟨List.suffix_append _ _, ?_⟩
  have := List.length_pos_of_ne_nil hne
  simp only [List.length_append]
  omega

theorem Below.ne (h : Below dir path) : dir ≠ path := by
  rintro rfl
  exact lt_irrefl _ h.suffix.2

theorem Below.scanned (h : Below dir path) (hf : f ∈ exactFiles E path) : Scanned dir f := by
  obtain ⟨pre, hne, hvis, rfl⟩ := h.append
  exact scanned_exactFiles E hne hvis hf

/-- The lock file of the tree is none of the path's. -/
theorem Below.lock_not_mem (h : Below dir path) : getLockPath dir ∉ exactFiles E path := by
  intro hmem
  simp only [exactFiles, List.mem_cons, List.not_mem_nil, or_false] at hmem
  rcases hmem with heq | heq
  · exact h.ne (getLockPath_inj heq)
  · exact h.ne (eq_of_prefixed_eq_lock heq.symm).symm

theorem length_of_mem_exactFiles (hf : f ∈ exactFiles E path) : path.length ≤ f.length := by
  simp only [exactFiles, List.mem_cons, List.not_mem_nil, or_false] at hf
  rcases hf with rfl | rfl
  · simp [getLockPath]
  · rcases path with _ | ⟨name, _ | ⟨c, r⟩⟩
    · simp [getPrefixedExactLockPath]
    · simp [getPrefixedExactLockPath, getLockPath]
    · simp [getPrefixedExactLockPath]

/-- None of the path's lock files is one of the tree's. -/
theorem Below.not_mem_exactFiles (h : Below dir path) (hf : f ∈ exactFiles E path) :
    f ∉ exactFiles E dir := by
  obtain ⟨hsuf, hne⟩ := (h.scanned hf).suffix
  have hlock : f ≠ getLockPath dir := by
    rintro rfl
    exact h.lock_not_mem hf
  intro hmem
  simp only [exactFiles, List.mem_cons, List.not_mem_nil, or_false] at hmem
  rcases hmem with heq | heq
  · exact hlock heq
  · rcases dir with _ | ⟨name, _ | ⟨c, r⟩⟩
    · exact hlock heq
    · exact hlock heq
    · refine hne (hsuf.eq_of_length ?_)
      rw [heq]
      rfl

/-- No lock file of the path is that of a directory above the tree. -/
theorem Below.ne_ancestor {a : Path} (h : Below dir path) (hf : f ∈ exactFiles E path)
    (ha : a <:+ dir) (hne : a ≠ dir) : getLockPath a ≠ f := by
  rintro rfl
  have hlt : a.length < dir.length := by
    refine lt_of_le_of_ne ha.length_le fun heq => hne (ha.eq_of_length heq)
  have hlen := length_of_mem_exactFiles hf
  have hpath := h.suffix.2
  simp only [getLockPath, List.length_cons] at hlen
  omega

/-- The scan below the path does not get to the lock file of the tree. -/
theorem Below.not_scanned (h : Below dir path) : ¬ Scanned path (getLockPath dir) := by
  intro hscan
  obtain ⟨hsuf, hne⟩ := hscan.suffix
  have hlen := hsuf.length_le
  have hpath := h.suffix.2
  simp only [getLockPath, List.length_cons] at hlen
  exact hne (hsuf.eq_of_length (by simp only [getLockPath, List.length_cons]; omega))

/-! ## Their checks -/

section Checks

variable {a b : ι} {lockType : LockType} {path f : Path}

omit [LinearOrder ι] in
theorem apart_above (hab : a ≠ b) (h : Below dir path) (hf : f ∈ exactFiles E path) :
    Apart (above a dir) (beneath b lockType f) := by
  refine ⟨hab, fun heq => ?_⟩
  obtain rfl : getLockPath dir = f := heq
  exact h.lock_not_mem hf

theorem watches_above_before (hab : a ≠ b) (h : Below dir path) (hf : f ∈ exactFiles E path) :
    Watches E dir (above a dir) (beneath b lockType f)
      (E.treeConflictBefore a dir (getLockPath dir)) := by
  have hpq : Apart (above a dir) (beneath b lockType f) := apart_above hab h hf
  refine .orElse_right (blind_lockedByOther hpq.file).passes ?_
  refine .orElse_right (blind_checkAncestorsForTree fun c hc hne => h.ne_ancestor hf hc hne).passes ?_
  refine .orElse_right (blind_checkExactPathLock (h.not_mem_exactFiles hf)).passes ?_
  exact watches_scanDescendants hpq E.fuel (h.scanned hf)

theorem watches_above_after (hab : a ≠ b) (h : Below dir path) (hf : f ∈ exactFiles E path) :
    Watches E dir (above a dir) (beneath b lockType f) (E.treeConflictAfter a dir) := by
  have hpq : Apart (above a dir) (beneath b lockType f) := apart_above hab h hf
  refine .orElse_left (watches_scanDescendants hpq E.fuel (h.scanned hf)) ?_
  refine (blind_checkExactPathLock (h.not_mem_exactFiles hf)).orElse ?_
  exact blind_checkAncestorsForTree fun c hc hne => h.ne_ancestor hf hc hne

omit [LinearOrder ι] in
theorem Apart.symm (h : Apart p q) : Apart q p := ⟨h.owner.symm, h.file.symm⟩

theorem watches_beneath_ancestors (hab : a ≠ b) (hdir : dir ≠ []) (h : Below dir path)
    (hf : f ∈ exactFiles E path) :
    Watches E dir (beneath b lockType f) (above a dir) (checkAncestorsForTree b path) :=
  watches_checkAncestorsForTree (apart_above hab h hf).symm rfl rfl h.suffix.1 h.ne hdir

theorem watches_beneath_exactBefore (hab : a ≠ b) (hdir : dir ≠ []) (h : Below dir path)
    (hf : f ∈ exactFiles E path) :
    Watches E dir (beneath b lockType f) (above a dir) (E.exactConflictBefore b path f) := by
  refine .orElse_right (blind_checkExactPathLock h.lock_not_mem).passes (.orElse_right ?_ ?_)
  · split
    · exact blind_none.passes
    · exact (blind_lockedByOther fun heq => h.ne (getLockPath_inj heq).symm).passes
  · exact watches_beneath_ancestors hab hdir h hf

theorem watches_beneath_exactAfter (hab : a ≠ b) (hdir : dir ≠ []) (h : Below dir path)
    (hf : f ∈ exactFiles E path) :
    Watches E dir (beneath b lockType f) (above a dir) (exactConflictAfter b path f) := by
  refine .orElse_right (Blind.passes fun pc => ?_) (watches_beneath_ancestors hab hdir h hf)
  have hblind : Blind E dir (beneath b lockType f) (above a dir) (checkPathLock b path) :=
    blind_lockedByOther fun heq => h.ne (getLockPath_inj heq).symm
  refine (hblind pc).bind ?_
  rintro r pc' ⟨rfl, rfl⟩
  exact ⟨rfl, rfl⟩

theorem watches_beneath_treeBefore (hab : a ≠ b) (hdir : dir ≠ []) (h : Below dir path)
    (hf : f ∈ exactFiles E path) :
    Watches E dir (beneath b lockType f) (above a dir) (E.treeConflictBefore b path f) := by
  have hpq : Apart (above a dir) (beneath b lockType f) := apart_above hab h hf
  refine .orElse_right (blind_lockedByOther hpq.symm.file).passes ?_
  refine .orElse_left (watches_beneath_ancestors hab hdir h hf) ?_
  exact (blind_checkExactPathLock h.lock_not_mem).orElse (blind_scanDescendants E.fuel h.not_scanned)

theorem watches_beneath_treeAfter (hab : a ≠ b) (hdir : dir ≠ []) (h : Below dir path)
    (hf : f ∈ exactFiles E path) :
    Watches E dir (beneath b lockType f) (above a dir) (E.treeConflictAfter b path) := by
  refine .orElse_right (blind_scanDescendants E.fuel h.not_scanned).passes ?_
  refine .orElse_right (blind_checkExactPathLock h.lock_not_mem).passes ?_
  exact watches_beneath_ancestors hab hdir h hf

end Checks

/-! ## Their acquires -/

/-- The acquire has won when it returns `True`. -/
def Wins (r : Bool × List Path) (pc : Pc) : Prop := r.1 = true → pc = .won

theorem hasOwnedAncestorTree_nil (me : ι) (path : Path) : hasOwnedAncestorTree me [] path = pure false := by
  induction path with
  | nil => rfl
  | cons name q ih =>
    show (if (none : Option LockType) = some .tree then pure true else hasOwnedAncestorTree me [] q) = _
    rw [if_neg (by simp), ih]

/-- An owner without locks finds its lock file and makes its rounds. -/
theorem acquireTree_nil (me : ι) (path : Path) :
    E.acquireTree me [] path =
      E.getTreeLockPath path >>= fun f => E.rounds [] f (E.treeRound me path f) := by
  unfold acquireTree
  congr 1
  funext f
  simp [ownedLockTypeForLockPath, hasOwnedAncestorTree_nil]

theorem acquireExactPath_nil (me : ι) (path : Path) :
    E.acquireExactPath me [] path =
      E.getExactLockPath path >>= fun f => E.rounds [] f (E.exactRound me path f) := by
  unfold acquireExactPath
  congr 1
  funext f
  simp [hasOwnedAncestorTree_nil]

/-- The lock file that an acquire finds out. -/
def findLockPath (E : PathLockEngine) : LockType → Path → Locking ι Path
  | .exact => E.getExactLockPath
  | .tree => E.getTreeLockPath

/-- The rounds of an acquire. -/
def roundsOf (E : PathLockEngine) (me : ι) (path : Path) : LockType → Path → Locking ι (Bool × List Path)
  | .exact, f => E.rounds [] f (E.exactRound me path f)
  | .tree, f => E.rounds [] f (E.treeRound me path f)

theorem acquire_nil (me : ι) (lockType : LockType) (path : Path) :
    E.acquire me lockType [] path = findLockPath E lockType path >>= roundsOf E me path lockType := by
  cases lockType with
  | exact => exact acquireExactPath_nil me path
  | tree => exact acquireTree_nil me path

/-- Where the tree is a directory, its lock file is the one in it. -/
theorem getTreeLockPath_above {a : ι} (hp : p = above a dir) :
    Follows E dir p q (fun f pc => f = p.file ∧ pc = .pre) (E.getTreeLockPath dir) .pre := by
  subst hp
  refine Follows.call_quiet trivial fun s n hd _ _ => ⟨.pre, .stay _, ?_⟩
  have hreply : ((Sys.exec a (.stat dir) s n).1 == some true) = true := by
    rcases hd.isDir with rfl | hdir
    · simp [Sys.exec]
    · by_cases hnil : dir = [] <;> simp [Sys.exec, hnil, hdir]
  show Follows E dir _ q _ ((if ((Sys.exec a (.stat dir) s n).1 == some true) = true then
    pure (getLockPath dir) else _) >>= _) _
  rw [if_pos hreply]
  show Follows E dir _ q _ (if getLockPath dir = getLockPath dir then _ else _) _
  rw [if_pos rfl]
  exact ⟨rfl, rfl⟩

section Acquires

variable {a b : ι} {lockType : LockType} {path f : Path}

theorem acquireTree_follows (hab : a ≠ b) (h : Below dir path) (hf : f ∈ exactFiles E path) :
    Follows E dir (above a dir) (beneath b lockType f) Wins (E.acquireTree a [] dir) .pre := by
  rw [acquireTree_nil]
  refine (getTreeLockPath_above rfl).bind ?_
  rintro g pc ⟨rfl, rfl⟩
  refine rounds_follows ?_ []
  exact treeRound_follows (apart_above hab h hf) rfl (watches_above_before hab h hf)
    (watches_above_after hab h hf)

theorem roundsOf_follows (hab : a ≠ b) (hdir : dir ≠ []) (h : Below dir path) (hf : f ∈ exactFiles E path) :
    Follows E dir (beneath b lockType f) (above a dir) Wins (roundsOf E b path lockType f) .pre := by
  have hpq : Apart (beneath b lockType f) (above a dir) := (apart_above hab h hf).symm
  cases lockType with
  | exact =>
    refine rounds_follows ?_ []
    exact exactRound_follows hpq rfl (watches_beneath_exactBefore hab hdir h hf)
      (watches_beneath_exactAfter hab hdir h hf)
  | tree =>
    refine rounds_follows ?_ []
    exact treeRound_follows hpq rfl (watches_beneath_treeBefore hab hdir h hf)
      (watches_beneath_treeAfter hab hdir h hf)

omit [LinearOrder ι] in
theorem findLockPath_quiet : (findLockPath E lockType path : Locking ι Path).All Quiet := by
  cases lockType with
  | exact => exact E.getExactLockPath_quiet path
  | tree => exact E.getTreeLockPath_quiet path

omit [LinearOrder ι] in
theorem findLockPath_rets :
    (findLockPath E lockType path : Locking ι Path).Rets (· ∈ exactFiles E path) := by
  cases lockType with
  | exact => exact getExactLockPath_rets path
  | tree => exact getTreeLockPath_rets path

end Acquires

/-! ## Steps of the two sides -/

omit [LinearOrder ι] in
theorem Fs.isDir_put (fs : Fs ι) {node : Node ι} (hf : fs.nodes.get f ≠ some .dir)
    (h : fs.isDir d) : isDirIn (fs.nodes.put f node) d := by
  refine h.imp id fun hd => ?_
  rw [SortedMap.get_put_of_ne _ _ (by rintro rfl; exact hf hd), hd]

variable {s : Sys ι}

/-- A directory stays one. -/
theorem Sys.isDir_exec (h : s.fs.isDir d) (i : ι) (c : Call) (n : ℕ) : (exec i c s n).2.fs.isDir d := by
  cases c with
  | write f ts lockType =>
    by_cases hw : s.fs.Writable f
    · rw [exec_write hw]
      cases f with
      | nil => exact absurd hw id
      | cons name r =>
        show (s.fs.writeFile (name :: r) _).isDir d
        simp only [Fs.writeFile, hw, dif_pos]
        exact s.fs.isDir_put hw.2 h
    · rw [exec_write_of_not hw]
      exact h
  | rm f =>
    show (s.fs.removeFile f).isDir d
    unfold Fs.removeFile
    split
    · exact h
    · next hf =>
      refine h.imp id fun hd => ?_
      show (s.fs.nodes.erase f).get d = _
      rw [SortedMap.get_erase, if_neg (by rintro rfl; exact hf hd), hd]
  | mkdir path =>
    by_cases hm : s.fs.Makable path
    · simp only [exec, hm, if_true]
      cases path with
      | nil => exact absurd hm id
      | cons name r =>
        simp only [Fs.makeDir, hm, dif_pos]
        exact s.fs.isDir_put (by rw [hm.2]; simp) h
    · simp only [exec, hm, if_false]
      exact h
  | _ => exact h

theorem Sys.clock_exec (s : Sys ι) (i : ι) (c : Call) (n : ℕ) : s.clock ≤ (exec i c s n).2.clock := by
  cases c with
  | write f ts lockType =>
    simp only [exec]
    split <;> exact le_refl _
  | mkdir path =>
    simp only [exec]
    split <;> exact le_refl _
  | readAt f => exact Nat.le_add_right _ _
  | timeNs => exact Nat.le_add_right _ _
  | _ => exact le_refl _

omit [LinearOrder ι] in
theorem Duel.symm (h : Duel dir p q s) : Duel dir q p s :=
  ⟨h.clock, h.isDir, fun f t ht => ⟨(h.tokens f t ht).1, (h.tokens f t ht).2.symm⟩⟩

theorem Duel.exec (h : Duel dir p q s) {c : Call} (hc : p.Legit c) (n : ℕ) :
    Duel dir p q (Sys.exec p.owner c s n).2 := by
  refine ⟨h.clock.trans_le (s.clock_exec _ c n), Sys.isDir_exec h.isDir _ c n, fun f t ht => ?_⟩
  rw [Sys.token_exec] at ht
  cases c with
  | write g ts lockType =>
    obtain ⟨rfl, rfl, hts⟩ := hc
    simp only [Sys.tokenAfter] at ht
    split_ifs at ht with hwrite
    · obtain rfl : (⟨p.owner, ts, p.lockType⟩ : Token ι) = t := Option.some.inj ht
      exact ⟨hts, .inl ⟨hwrite.1, rfl, rfl⟩⟩
    · exact h.tokens f t ht
  | rm g =>
    simp only [Sys.tokenAfter] at ht
    split_ifs at ht
    exact h.tokens f t ht
  | _ => exact h.tokens f t ht

/-- Both sides are in the protocol, and the first one's program follows it. -/
structure Goes (E : PathLockEngine) (dir : Path) (p q : Side ι) {α : Type} (Q : α → Pc → Prop)
    (prog : Locking ι α) (pc pc' : Pc) (s : Sys ι) : Prop where
  duel : Duel dir p q s
  inv : Inv p.owner q.owner (p.party pc s) (q.party pc' s)
  follows : Follows E dir p q Q prog pc

/-- A step of the one side: the other stands where it stood. -/
theorem Goes.step (hne : p.owner ≠ q.owner) {α : Type} {Q : α → Pc → Prop} {c : Call}
    {k : Reply ι c → Locking ι α} {pc pc' : Pc}
    (h : Goes E dir p q Q (.call c k) pc pc' s) {n : ℕ} (hfresh : Fresh E s c n) :
    ∃ pc₁, Goes E dir p q Q (k (Sys.exec p.owner c s n).1) pc₁ pc' (Sys.exec p.owner c s n).2 := by
  obtain ⟨hlegit, pc₁, hmove, hnext⟩ := h.follows s n h.duel hfresh h.inv.compatible.ne_bad
  obtain ⟨hreg, hinv⟩ := h.inv.move hne hmove
  refine ⟨pc₁, h.duel.exec hlegit n, ?_, hnext⟩
  have hparty : q.party pc' (Sys.exec p.owner c s n).2 = q.party pc' s := by
    rw [Side.party, hreg]
    rfl
  rw [hparty]
  exact hinv

/-- Calls that change no lock file change nothing for the two sides. -/
theorem Goes.quiet {α : Type} {Q : α → Pc → Prop} {prog : Locking ι α} {pc pc' : Pc}
    (h : Goes E dir p q Q prog pc pc' s) {c : Call} (hc : Quiet c) (i : ι) (n : ℕ) :
    Goes E dir p q Q prog pc pc' (Sys.exec i c s n).2 := by
  have htoken := (Sys.sameLocks_exec hc i s n).token
  have hparty : ∀ (r : Side ι) pc, r.party pc (Sys.exec i c s n).2 = r.party pc s := by
    intro r pc
    rw [Side.party, Sys.register, htoken]
    rfl
  refine ⟨⟨?_, Sys.isDir_exec h.duel.isDir i c n, ?_⟩, ?_, h.follows⟩
  · exact h.duel.clock.trans_le (s.clock_exec i c n)
  · rw [htoken]
    exact h.duel.tokens
  · rw [hparty, hparty]
    exact h.inv

theorem Goes.swap {α β : Type} {Q : α → Pc → Prop} {Q' : β → Pc → Prop} {prog : Locking ι α}
    {prog' : Locking ι β} {pc pc' : Pc} (h : Goes E dir p q Q prog pc pc' s)
    (h' : Follows E dir q p Q' prog' pc') : Goes E dir q p Q' prog' pc' pc s :=
  ⟨h.duel.symm, h.inv.symm, h'⟩

/-! ## Runs -/

section Run

variable {a b : ι} {lockType : LockType} {path : Path}
  {x y : Pool ι (Reply ι) (Sys ι) (Bool × List Path)}

/-- The owner below has decided on its lock file, and both follow the protocol. -/
def Decided (E : PathLockEngine) (dir : Path) (a b : ι) (lockType : LockType) (f : Path)
    (x : Pool ι (Reply ι) (Sys ι) (Bool × List Path)) : Prop :=
  ∃ pc pc', Goes E dir (above a dir) (beneath b lockType f) Wins (x.prog a) pc pc' x.state ∧
    Follows E dir (beneath b lockType f) (above a dir) Wins (x.prog b) pc'

/-- The owner below has not decided yet: whatever it decides on, the other follows the protocol. -/
structure Undecided (E : PathLockEngine) (dir path : Path) (a b : ι) (lockType : LockType)
    (lead : Locking ι Path) (x : Pool ι (Reply ι) (Sys ι) (Bool × List Path)) : Prop where
  prog : x.prog b = lead >>= roundsOf E b path lockType
  quiet : lead.All Quiet
  rets : lead.Rets (· ∈ exactFiles E path)
  goes : ∀ f ∈ exactFiles E path, ∃ pc,
    Goes E dir (above a dir) (beneath b lockType f) Wins (x.prog a) pc .pre x.state

/-- The invariant of a run. -/
structure DuelInv (E : PathLockEngine) (dir path : Path) (a b : ι) (lockType : LockType)
    (x : Pool ι (Reply ι) (Sys ι) (Bool × List Path)) : Prop where
  others : ∀ i, i ≠ a → i ≠ b → ∃ r, x.prog i = .ret r
  sides : (∃ f ∈ exactFiles E path, Decided E dir a b lockType f x) ∨
    ∃ lead, Undecided E dir path a b lockType lead x

section

variable (hab : a ≠ b)

include hab

/-- With the lock file found out, it has decided. -/
theorem Undecided.decided (hdir : dir ≠ []) (h : Below dir path) {f : Path}
    (hx : Undecided E dir path a b lockType (.ret f) x) :
    f ∈ exactFiles E path ∧ Decided E dir a b lockType f x := by
  have hf : f ∈ exactFiles E path := hx.rets
  obtain ⟨pc, hgoes⟩ := hx.goes f hf
  refine ⟨hf, pc, .pre, hgoes, ?_⟩
  rw [hx.prog]
  exact roundsOf_follows hab hdir h hf

theorem Decided.step {f : Path} (h : Decided E dir a b lockType f x) {act : ι × ℕ}
    (hact : act.1 = a ∨ act.1 = b) (hfresh : x.Meets (fun _ => Fresh E) act)
    (hstep : x.step Sys.exec act = some y) : Decided E dir a b lockType f y := by
  obtain ⟨pc, pc', hgoes, hfollows⟩ := h
  obtain ⟨i, n⟩ := act
  obtain ⟨c, k, hprog, hstate, hprogs⟩ := Pool.step_cases hstep
  have hcond : Fresh E x.state c n := by simpa [Pool.Meets, hprog] using hfresh
  unfold Decided
  rw [hstate, hprogs]
  rcases hact with rfl | rfl
  · rw [hprog] at hgoes
    obtain ⟨pc₁, hnext⟩ := hgoes.step hab hcond
    refine ⟨pc₁, pc', ?_, ?_⟩
    · rw [Function.update_self]
      exact hnext
    · rw [Function.update_of_ne hab.symm]
      exact hfollows
  · rw [hprog] at hfollows
    obtain ⟨pc₁, hnext⟩ := (hgoes.swap hfollows).step hab.symm hcond
    refine ⟨pc, pc₁, ?_, ?_⟩
    · rw [Function.update_of_ne hab]
      exact hnext.swap hgoes.follows
    · rw [Function.update_self]
      exact hnext.follows

theorem Undecided.step_above {lead : Locking ι Path} (h : Undecided E dir path a b lockType lead x) {n : ℕ}
    (hfresh : x.Meets (fun _ => Fresh E) (a, n)) (hstep : x.step Sys.exec (a, n) = some y) :
    Undecided E dir path a b lockType lead y := by
  obtain ⟨c, k, hprog, hstate, hprogs⟩ := Pool.step_cases hstep
  have hcond : Fresh E x.state c n := by simpa [Pool.Meets, hprog] using hfresh
  refine ⟨?_, h.quiet, h.rets, fun f hf => ?_⟩
  · rw [hprogs, Function.update_of_ne hab.symm]
    exact h.prog
  · obtain ⟨pc, hgoes⟩ := h.goes f hf
    rw [hprog] at hgoes
    rw [hstate, hprogs, Function.update_self]
    exact hgoes.step hab hcond

theorem Undecided.step_beneath {c : Call} {k : Reply ι c → Locking ι Path}
    (h : Undecided E dir path a b lockType (.call c k) x) {n : ℕ} (hstep : x.step Sys.exec (b, n) = some y) :
    ∃ lead, Undecided E dir path a b lockType lead y := by
  obtain ⟨c', k', hprog, hstate, hprogs⟩ := Pool.step_cases hstep
  obtain ⟨rfl, hk⟩ := Prog.call.inj (h.prog.symm.trans hprog)
  obtain rfl := eq_of_heq hk
  refine ⟨k (Sys.exec b c x.state n).1, ?_, h.quiet.2 _, h.rets _, fun f hf => ?_⟩
  · rw [hprogs, Function.update_self]
    rfl
  · obtain ⟨pc, hgoes⟩ := h.goes f hf
    refine ⟨pc, ?_⟩
    rw [hstate, hprogs, Function.update_of_ne hab]
    exact hgoes.quiet h.quiet.1 b n

theorem DuelInv.step (hdir : dir ≠ []) (hbelow : Below dir path)
    (h : DuelInv E dir path a b lockType x) {act : ι × ℕ}
    (hfresh : x.Meets (fun _ => Fresh E) act) (hstep : x.step Sys.exec act = some y) :
    DuelInv E dir path a b lockType y := by
  obtain ⟨i, n⟩ := act
  obtain ⟨c, k, hprog, hstate, hprogs⟩ := Pool.step_cases hstep
  have hact : i = a ∨ i = b := by
    by_contra hno
    rw [not_or] at hno
    obtain ⟨r, hr⟩ := h.others i hno.1 hno.2
    rw [show x.prog i = _ from hprog] at hr
    cases hr
  refine ⟨fun j hja hjb => ?_, ?_⟩
  · have hji : j ≠ i := by
      rintro rfl
      exact hact.elim hja hjb
    rw [hprogs, Function.update_of_ne hji]
    exact h.others j hja hjb
  · rcases h.sides with ⟨f, hf, hdec⟩ | ⟨lead, hundec⟩
    · exact .inl ⟨f, hf, hdec.step hab hact hfresh hstep⟩
    · rcases hact with rfl | rfl
      · exact .inr ⟨lead, hundec.step_above hab hfresh hstep⟩
      · cases lead with
        | ret f =>
          obtain ⟨hf, hdec⟩ := hundec.decided hab hdir hbelow
          exact .inl ⟨f, hf, hdec.step hab (.inr rfl) hfresh hstep⟩
        | call c' k' => exact .inr (hundec.step_beneath hab hstep)
        | stuck =>
          have hstuck : x.prog i = .stuck := hundec.prog
          rw [show x.prog i = _ from hprog] at hstuck
          cases hstuck

theorem DuelInv.not_both (hdir : dir ≠ []) (hbelow : Below dir path)
    (h : DuelInv E dir path a b lockType x) (locks locks' : List Path) :
    ¬ (x.prog a = .ret (true, locks) ∧ x.prog b = .ret (true, locks')) := by
  rintro ⟨ha, hb⟩
  have hdecided : ∃ f, Decided E dir a b lockType f x := by
    rcases h.sides with ⟨f, -, hdec⟩ | ⟨lead, hundec⟩
    · exact ⟨f, hdec⟩
    · cases lead with
      | ret f => exact ⟨f, (hundec.decided hab hdir hbelow).2⟩
      | call c k => cases hundec.prog.symm.trans hb
      | stuck => cases hundec.prog.symm.trans hb
  obtain ⟨f, pc, pc', hgoes, hfollows⟩ := hdecided
  have hwon := hgoes.follows
  rw [ha] at hwon
  rw [hb] at hfollows
  exact hgoes.inv.not_both_won ⟨hwon rfl, hfollows rfl⟩

end

/-- The two owners before their first step. -/
def duelStart (E : PathLockEngine) (a b : ι) (lockType : LockType) (dir path : Path) (s : Sys ι) :
    Pool ι (Reply ι) (Sys ι) (Bool × List Path) where
  state := s
  prog i :=
    if i = a then E.acquireTree a [] dir
    else if i = b then E.acquire b lockType [] path
    else .ret (false, [])

theorem duelInv_start (hab : a ≠ b) (hbelow : Below dir path) {s : Sys ι} (hclock : 0 < s.clock)
    (hisDir : s.fs.isDir dir) (htoken : ∀ f, s.token f = none) :
    DuelInv E dir path a b lockType (duelStart E a b lockType dir path s) := by
  refine ⟨fun i hia hib => ⟨(false, []), by simp [duelStart, hia, hib]⟩, .inr ?_⟩
  refine ⟨findLockPath E lockType path, ?_, findLockPath_quiet, findLockPath_rets, fun f hf => ?_⟩
  · simp only [duelStart, if_neg hab.symm, if_true]
    exact acquire_nil b lockType path
  · refine ⟨.pre, ⟨hclock, hisDir, fun g t ht => ?_⟩, ?_, ?_⟩
    · exact absurd (ht.symm.trans (htoken g)) (by simp)
    · simp only [Side.party, Sys.register, duelStart, htoken]
      exact inv_start
    · simp only [duelStart, if_true]
      exact acquireTree_follows hab hbelow hf

end Run

/-- **A tree lock excludes the locks below it.**  Owner `a` acquires the tree of an existing directory
and owner `b` acquires a path strictly below it, in any interleaving and with any number of rounds.
Where no lock file becomes stale, they do not both return `True`. -/
theorem tree_excludes_below (E : PathLockEngine) (a b : ι) (hab : a ≠ b) (lockType : LockType)
    (dir path : Path) (hdir : dir ≠ []) (hbelow : Below dir path) (s : Sys ι)
    (hclock : 0 < s.clock) (hisDir : s.fs.isDir dir) (htoken : ∀ f, s.token f = none)
    (x : Pool ι (Reply ι) (Sys ι) (Bool × List Path))
    (hrun : Reaches (Pool.step Sys.exec) (Pool.Meets fun _ => Fresh E)
      (duelStart E a b lockType dir path s) x) (locks locks' : List Path) :
    ¬ (x.prog a = .ret (true, locks) ∧ x.prog b = .ret (true, locks')) := by
  have hinv : DuelInv E dir path a b lockType x :=
    hrun.invariant (duelInv_start hab hbelow hclock hisDir htoken)
      fun _ _ _ h hfresh hstep => h.step hab hdir hbelow hfresh hstep
  exact hinv.not_both hab hdir hbelow locks locks'

/-- An engine for one path below another, with the digest of its text. -/
def duelEngine (digest : String) : PathLockEngine := ⟨fun _ => digest, 300000000000, 4⟩

/-- The directory `/p` with a directory in it. -/
def duelSys (name : String) : Sys (Fin 2) := .ofFs ((Fs.empty.makeDir ["p"]).makeDir [name, "p"]) 1

/-- Owner 1 acquires `/p/q`, then owner 0 finds its token and its deadline passes. -/
def excludedActs : List (Fin 2 × ℕ) :=
  List.replicate 11 (1, 0) ++ List.replicate 8 (0, 0) ++ [(0, 1)]

theorem below_p_q : Below ["p"] ["q", "p"] := by
  refine ⟨["q"], by simp, fun name hname => ?_, rfl⟩
  obtain rfl : name = "q" := by simpa using hname
  exact ⟨by decide, by decide, by decide, by decide⟩

theorem tree_excludes_below_excludedActs :
    ∃ x, Reaches (Pool.step Sys.exec) (Pool.Meets fun _ => Fresh (duelEngine "81f107d91404c3a0"))
        (duelStart (duelEngine "81f107d91404c3a0") 0 1 .exact ["p"] ["q", "p"] (duelSys "q")) x ∧
      x.prog 1 = .ret (true, [[".path.ovlock", "q", "p"]]) ∧
      ¬ (x.prog 0 = .ret (true, [[".path.ovlock", "p"]]) ∧
        x.prog 1 = .ret (true, [[".path.ovlock", "q", "p"]])) := by
  have hmeets : ActsMeet (Pool.step Sys.exec)
      (Pool.Meets fun _ => Fresh (duelEngine "81f107d91404c3a0"))
      (duelStart (duelEngine "81f107d91404c3a0") 0 1 .exact ["p"] ["q", "p"] (duelSys "q"))
      excludedActs := by
    decide +kernel
  have hrun := Reaches.of_runActs hmeets rfl
  have htoken : ∀ f, (duelSys "q").token f = none := by
    intro f
    rw [duelSys, Sys.token, Sys.ofFs, Fs.token_makeDir, Fs.token_makeDir, Fs.token_empty]
  exact ⟨_, hrun, rfl, tree_excludes_below _ 0 1 (by decide) .exact ["p"] ["q", "p"] (by decide)
    below_p_q (duelSys "q") (by decide) (by decide +kernel) htoken _ hrun _ _⟩

/-- Owner 1 acquires `/p/.exact.ovlock.d/x`, then owner 0 acquires the tree `/p`. -/
def hiddenActs : List (Fin 2 × ℕ) := List.replicate 14 (1, 0) ++ List.replicate 16 (0, 0)

/-- The scan of `/p` takes the directory `.exact.ovlock.d` for a lock file and does not look into it:
both owners have got `True`, though no lock file was ever stale. -/
theorem tree_excludes_below_hiddenActs :
    ActsMeet (Pool.step Sys.exec) (Pool.Meets fun _ => Fresh (duelEngine "b44682a911ea82fc"))
        (duelStart (duelEngine "b44682a911ea82fc") 0 1 .exact ["p"] ["x", ".exact.ovlock.d", "p"]
          (duelSys ".exact.ovlock.d")) hiddenActs ∧
      ∃ x, runActs (Pool.step Sys.exec)
          (duelStart (duelEngine "b44682a911ea82fc") 0 1 .exact ["p"] ["x", ".exact.ovlock.d", "p"]
            (duelSys ".exact.ovlock.d")) hiddenActs = some x ∧
        x.prog 0 = .ret (true, [[".path.ovlock", "p"]]) ∧
        x.prog 1 = .ret (true, [[".exact.ovlock.x.b44682a911ea82fc", ".exact.ovlock.d", "p"]]) :=
  ⟨by decide +kernel, _, rfl, rfl, rfl⟩

end OpenViking.Transaction
