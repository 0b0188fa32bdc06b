import OpenViking.Common.System
import OpenViking.Git.CommitSnapshot

/-!
# Runs of commits with the stat cache

A branch over which files are written and commits are made, with the stat cache and without it
(`GitService::commit_impl`, `crates/ragfs/src/git/service.rs`, 156-715; `LocalIndexStore`,
`backends/local.rs`, 316-369).

The clock is a tick that never goes back; a write stamps its file with it, and a save its index.  An
entry of the index is trusted when it is older than the index.  A partial commit carries the entries of
the paths that it does not look at over to an index with a newer stamp.  Results:

* `commit_agrees`: with right entries, a commit with the cache answers as one without it;
* `trees_agree`: so do whole runs, if no partial commit makes a wrong entry look old.
-/

namespace OpenViking.Git

variable {B O : Type*}

/-! ## Branches -/

/-- A branch: the working tree, the clock, the head with its tree, how many commits there are, and the
index as stored. -/
structure Branch (B O : Type*) where
  disk : Disk B
  now : ℤ
  head : Option (ℕ × Tree O)
  commits : ℕ
  index : Option (CommitIndex O)

/-- What can happen: a write, a directory made, a file or an empty directory removed, the clock moving on,
and a commit with whether its index could be saved. -/
inductive BranchOp (B : Type*) where
  | write (dirs : Path) (name : String) (bytes : B)
  | mkdirs (path : Path)
  | remove (path : Path)
  | wait (ticks : ℕ)
  | commit (paths : Option (List Path)) (saved : Bool)

namespace Branch

/-- The tree of the head. -/
def tree (s : Branch B O) : Option (Tree O) := s.head.map Prod.snd

/-- The index as loaded (199-213): that of the head. -/
def loaded (s : Branch B O) : Option (CommitIndex O) :=
  match s.head, s.index with
  | some (head, _), some idx => if idx.parent = head then some idx else none
  | _, _ => none

/-- `systemtime_to_ns` of the tick at which the index is saved. -/
def stamp (s : Branch B O) : Option ℤ := if 0 ≤ s.now then some s.now else none

variable [DecidableEq O]

/-- A commit of the branch, with the index that it is to save. -/
def answer (useIndex : Bool) (env : Env B O) (s : Branch B O) (paths : Option (List Path)) :
    Except CommitError (CommitResponse O × Dict Path (IndexEntry O)) :=
  Git.commit env s.disk s.tree paths useIndex (if useIndex then s.loaded else none)

/-- What a commit leaves (672-749). -/
def commit (useIndex : Bool) (env : Env B O) (s : Branch B O) (paths : Option (List Path))
    (saved : Bool) : Branch B O :=
  match s.answer useIndex env paths with
  | .error _ => s
  | .ok (.noop _, entries) =>
    match s.head with
    | some (head, _) =>
      if useIndex && saved then { s with index := some ⟨head, entries, s.stamp⟩ } else s
    | none => s
  | .ok (.created tree _ _, entries) =>
    { s with
      head := some (s.commits, tree)
      commits := s.commits + 1
      index := if useIndex && saved then some ⟨s.commits, entries, s.stamp⟩ else s.index }

/-- A call that fails leaves the branch. -/
def step (useIndex : Bool) (env : Env B O) (s : Branch B O) : BranchOp B → Branch B O
  | .write dirs name bytes => { s with disk := (s.disk.write dirs name bytes s.now).getD s.disk }
  | .mkdirs path => { s with disk := (s.disk.mkdirs [] path).getD s.disk }
  | .remove path => { s with disk := (s.disk.remove path).toOption.getD s.disk }
  | .wait ticks => { s with now := s.now + ticks }
  | .commit paths saved => s.commit useIndex env paths saved

/-- The trees that the commits of a run produce, none for one that fails. -/
def trees (useIndex : Bool) (env : Env B O) : Branch B O → List (BranchOp B) → List (Option (Tree O))
  | _, [] => []
  | s, .commit paths saved :: ops =>
    ((s.answer useIndex env paths).toOption.map fun r => r.1.tree s.tree) ::
      trees useIndex env (s.step useIndex env (.commit paths saved)) ops
  | s, op :: ops => trees useIndex env (s.step useIndex env op) ops

end Branch

/-! ## Entries -/

/-- An entry is right about a file with its signature. -/
def IndexEntry.Right (env : Env B O) (disk : Disk B) (p : Path) (e : IndexEntry O) : Prop :=
  ∀ bytes, disk.stat p = some (.file bytes e.mtime) → env.size bytes = e.size → e.oid = env.hash bytes

/-- The entries of an index that are older than it are right. -/
def Trusted (env : Env B O) (disk : Disk B) (idx : CommitIndex O) : Prop :=
  ∀ saved ∈ idx.savedAt, ∀ p e, idx.entries.get p = some e → e.mtime < saved → e.Right env disk p

/-- The entries older than `now` are right. -/
def RightBefore (env : Env B O) (disk : Disk B) (now : ℤ) (entries : Dict Path (IndexEntry O)) : Prop :=
  ∀ p e, entries.get p = some e → e.mtime < now → e.Right env disk p

section Entries

variable {env : Env B O} {m : Path → Bool} {disk : Disk B} {prev : Option (Tree O)} {now : ℤ}
  {prevIndex : Option (CommitIndex O)} {paths : Option (List Path)} {p : Path}

theorem statSignature_eq_some {bytes : B} {mtime mtime' : ℤ} {size : ℕ}
    (h : statSignature env bytes mtime = some (size, mtime')) : env.size bytes = size ∧ mtime = mtime' := by
  rw [statSignature] at h
  split at h
  · exact Prod.mk.inj (Option.some.inj h)
  · cases h

/-- With a trusted index, the id of a file is the hash of its bytes. -/
theorem blobOid_eq (hidx : ∀ idx ∈ prevIndex, Trusted env disk idx) {bytes : B} {mtime : ℤ}
    (hstat : disk.stat p = some (.file bytes mtime)) :
    blobOid env prevIndex p bytes mtime = env.hash bytes := by
  rw [blobOid]
  split
  · rename_i e saved size mtime' hcached hsig
    split
    · rename_i hif
      obtain ⟨hsize, hmtime, hlt⟩ := hif
      obtain ⟨idx, hmem, hmap⟩ := Option.bind_eq_some_iff.1 hcached
      obtain ⟨e', he', hpair⟩ := Option.map_eq_some_iff.1 hmap
      obtain ⟨rfl, hsaved⟩ := Prod.mk.inj hpair
      obtain ⟨rfl, rfl⟩ := statSignature_eq_some hsig
      rw [← hmtime] at hlt hstat
      exact hidx idx hmem saved hsaved p e' he' hlt bytes hstat hsize.symm
    · rfl
  · rfl

variable {entries : Dict Path (IndexEntry O)}

theorem rightBefore_set (h : RightBefore env disk now entries)
    {bytes : B} {mtime : ℤ} (hstat : disk.stat p = some (.file bytes mtime)) :
    RightBefore env disk now (entries.set p ⟨env.size bytes, mtime, env.hash bytes⟩) := by
  intro q e hget hlt
  rw [Dict.get_set] at hget
  split at hget
  · rename_i heq
    obtain rfl := Option.some.inj hget
    intro bytes' hstat' _
    rw [heq, hstat] at hstat'
    obtain ⟨rfl, -⟩ : bytes = bytes' ∧ mtime = mtime := by simpa using hstat'
    rfl
  · exact h q e hget hlt

theorem rightBefore_erase (h : RightBefore env disk now entries) :
    RightBefore env disk now (entries.erase p) := by
  intro q e hget hlt
  rw [Dict.get_erase] at hget
  split at hget
  · cases hget
  · exact h q e hget hlt

variable [DecidableEq O] {r r' : Progress O}

/-- One candidate comes to the same with a trusted index and without one. -/
theorem candidate_agrees (hidx : ∀ idx ∈ prevIndex, Trusted env disk idx)
    (hed : r.editor = r'.editor) (hch : r.changed = r'.changed) (now : ℤ) (p : Path) :
    (∃ e, candidate env disk prev true prevIndex r p = .error e ∧
      candidate env disk prev false none r' p = .error e) ∨
    ∃ s s', candidate env disk prev true prevIndex r p = .ok s ∧
      candidate env disk prev false none r' p = .ok s' ∧ s.editor = s'.editor ∧
      s.changed = s'.changed ∧
      (RightBefore env disk now r.index → RightBefore env disk now s.index) := by
  rcases hstat : disk.stat p with _ | ⟨bytes, mtime⟩ | _
  · refine .inr ⟨_, _, by rw [candidate, hstat], by rw [candidate, hstat], ?_⟩
    simp only [if_true]
    split
    · exact ⟨by simp [hed], by simp [hch], rightBefore_erase⟩
    · exact ⟨hed, hch, rightBefore_erase⟩
  · refine .inr ⟨_, _, by rw [candidate, hstat], by rw [candidate, hstat], ?_⟩
    have hnone : ∀ idx ∈ (none : Option (CommitIndex O)), Trusted env disk idx :=
      fun _ hidx => by cases hidx
    simp only [blobOid_eq hidx hstat, blobOid_eq hnone hstat, Bool.not_true, Bool.not_false,
      Bool.false_eq_true, if_false, if_true]
    by_cases hprev : prevEntry prev p = some (.blob (env.hash bytes))
    · simp only [if_pos hprev]
      rcases hsig : statSignature env bytes mtime with _ | ⟨size, mtime'⟩
      · exact ⟨hed, hch, rightBefore_erase⟩
      · obtain ⟨rfl, rfl⟩ := statSignature_eq_some hsig
        exact ⟨hed, hch, fun hr => rightBefore_set hr hstat⟩
    · simp only [if_neg hprev]
      rcases hsig : statSignature env bytes mtime with _ | ⟨size, mtime'⟩
      · exact ⟨by rw [hed], by rw [hch], rightBefore_erase⟩
      · obtain ⟨rfl, rfl⟩ := statSignature_eq_some hsig
        exact ⟨by rw [hed], by rw [hch], fun hr => rightBefore_set hr hstat⟩
  · exact .inl ⟨.isADirectory p, by rw [candidate, hstat], by rw [candidate, hstat]⟩

theorem candidates_agree (prev : Option (Tree O))
    (hidx : ∀ idx ∈ prevIndex, Trusted env disk idx) (l : List Path)
    (r r' : Progress O) (hed : r.editor = r'.editor) (hch : r.changed = r'.changed) (now : ℤ) :
    (∃ e, l.foldlM (candidate env disk prev true prevIndex) r = .error e ∧
      l.foldlM (candidate env disk prev false none) r' = .error e) ∨
    ∃ s s', l.foldlM (candidate env disk prev true prevIndex) r = .ok s ∧
      l.foldlM (candidate env disk prev false none) r' = .ok s' ∧ s.editor = s'.editor ∧
      s.changed = s'.changed ∧
      (RightBefore env disk now r.index → RightBefore env disk now s.index) := by
  induction l generalizing r r' with
  | nil => exact .inr ⟨r, r', rfl, rfl, hed, hch, id⟩
  | cons p l ih =>
    simp only [List.foldlM_cons]
    rcases candidate_agrees hidx hed hch now p with ⟨e, h, h'⟩ | ⟨s, s', h, h', hed, hch, hright⟩
    · exact .inl ⟨e, by rw [h]; rfl, by rw [h']; rfl⟩
    · rw [h, h']
      rcases ih _ _ hed hch with ⟨e, h1, h2⟩ | ⟨t, t', h1, h2, h3, h4, h5⟩
      · exact .inl ⟨e, h1, h2⟩
      · exact .inr ⟨t, t', h1, h2, h3, h4, fun hr => h5 (hright hr)⟩

end Entries

/-! ## What a commit forgets -/

namespace Scan

section Cleanup

variable {m : Path → Bool} {disk : Disk B} {prevFiles : List (Path × O)} {s s' : Scan O} {g p : Path}

/-- The same paths are forgotten. -/
def SameCleanup (s s' : Scan O) : Prop :=
  s'.cleanupExact = s.cleanupExact ∧ s'.cleanupUnder = s.cleanupUnder

theorem sameCleanup_includePath (m : Path → Bool) (s : Scan O) (p : Path) : SameCleanup s (s.includePath m p).2 := by
  rw [includePath]
  split
  · exact ⟨rfl, rfl⟩
  · split
    · exact ⟨rfl, rfl⟩
    · exact ⟨rfl, rfl⟩

theorem sameCleanup_listed (m : Path → Bool) (s : Scan O) (p : Path) : SameCleanup s (listed m s p) := by
  have h := sameCleanup_includePath m s p
  rw [listed]
  split
  · rename_i heq
    rw [heq] at h
    exact h
  · rename_i heq
    rw [heq] at h
    exact h

theorem sameCleanup_previous (m : Path → Bool) (s : Scan O) (p : Path) : SameCleanup s (previous m s p) := by
  rw [previous]
  split
  · exact ⟨rfl, rfl⟩
  · exact ⟨rfl, rfl⟩

theorem sameCleanup_exactly (m : Path → Bool) (prevFiles : List (Path × O)) (s : Scan O) (p : Path) :
    SameCleanup s (exactly m prevFiles s p) := by
  have h := sameCleanup_includePath m s p
  rw [exactly]
  split
  · rename_i heq
    rw [heq] at h
    exact h
  · rename_i heq
    rw [heq] at h
    split
    · exact h
    · exact h

theorem sameCleanup_foldl {β : Type*} {f : Scan O → β → Scan O} (hf : ∀ s b, SameCleanup s (f s b))
    (l : List β) (s : Scan O) : SameCleanup s (l.foldl f s) := by
  induction l generalizing s with
  | nil => exact ⟨rfl, rfl⟩
  | cons b l ih =>
    obtain ⟨h1, h2⟩ := hf s b
    obtain ⟨h3, h4⟩ := ih (f s b)
    exact ⟨h3.trans h1, h4.trans h2⟩

theorem sameCleanup_previousUnder (m : Path → Bool) (prevFiles : List (Path × O)) (s : Scan O)
    (p : Path) : SameCleanup s (previousUnder m prevFiles s p) :=
  sameCleanup_foldl (fun s (e : Path × O) => sameCleanup_previous m s e.1) _ s

theorem sameCleanup_directory (m : Path → Bool) (disk : Disk B) (prevFiles : List (Path × O))
    (s : Scan O) (p : Path) : SameCleanup s (directory m disk prevFiles s p) := by
  obtain ⟨h1, h2⟩ := sameCleanup_foldl (sameCleanup_listed m)
    ((disk.listUnder p).filter fun q => !prunePath q) s
  obtain ⟨h3, h4⟩ := sameCleanup_previousUnder m prevFiles
    (((disk.listUnder p).filter fun q => !prunePath q).foldl (listed m) s) p
  exact ⟨h3.trans h1, h4.trans h2⟩

/-- What is forgotten of a path on disk: itself, or what is below it. -/
def Forgets (disk : Disk B) (s : Scan O) (g : Path) : Prop :=
  (disk.stat g = some .dir → g ∈ s.cleanupUnder) ∧
    ∀ bytes t, disk.stat g = some (.file bytes t) → g ∈ s.cleanupExact

theorem forgets_path (s : Scan O) (g : Path) : (s.path m disk prevFiles g).Forgets disk g := by
  rw [path]
  rcases hstat : disk.stat g with _ | ⟨bytes, t⟩ | _ <;> dsimp only
  · rw [Forgets, hstat]
    exact ⟨(fun hd => by cases hd), fun _ _ hf => by cases hf⟩
  · obtain ⟨h, -⟩ := sameCleanup_exactly m prevFiles
      { s with cleanupExact := g :: s.cleanupExact } g
    rw [Forgets, hstat, h]
    exact ⟨(fun hd => by cases hd), fun _ _ _ => List.mem_cons_self ..⟩
  · obtain ⟨-, h⟩ := sameCleanup_directory m disk prevFiles
      { s with cleanupUnder := g :: s.cleanupUnder } g
    rw [Forgets, hstat, h]
    exact ⟨fun _ => List.mem_cons_self .., fun _ _ hf => by cases hf⟩

theorem Forgets.path (h : s.Forgets disk g) (p : Path) : (s.path m disk prevFiles p).Forgets disk g := by
  obtain ⟨h1, h2⟩ := h
  rw [Scan.path]
  split
  · obtain ⟨he, hu⟩ := sameCleanup_directory m disk prevFiles
      { s with cleanupUnder := p :: s.cleanupUnder } p
    refine ⟨fun hg => ?_, fun b t hg => ?_⟩
    · rw [hu]
      exact List.mem_cons_of_mem _ (h1 hg)
    · rw [he]
      exact h2 b t hg
  · obtain ⟨he, hu⟩ := sameCleanup_exactly m prevFiles
      { s with cleanupExact := p :: s.cleanupExact } p
    refine ⟨fun hg => ?_, fun b t hg => ?_⟩
    · rw [hu]
      exact h1 hg
    · rw [he]
      exact List.mem_cons_of_mem _ (h2 b t hg)
  · obtain ⟨he, hu⟩ := sameCleanup_exactly m prevFiles
      { s with cleanupExact := p :: s.cleanupExact, cleanupUnder := p :: s.cleanupUnder } p
    obtain ⟨he', hu'⟩ := sameCleanup_previousUnder m prevFiles
      (exactly m prevFiles
        { s with cleanupExact := p :: s.cleanupExact, cleanupUnder := p :: s.cleanupUnder } p) p
    refine ⟨fun hg => ?_, fun b t hg => ?_⟩
    · rw [hu', hu]
      exact List.mem_cons_of_mem _ (h1 hg)
    · rw [he', he]
      exact List.mem_cons_of_mem _ (h2 b t hg)

theorem forgets_foldl {ps : List Path} (h : g ∈ ps ∨ s.Forgets disk g) :
    (ps.foldl (Scan.path m disk prevFiles) s).Forgets disk g := by
  induction ps generalizing s with
  | nil => exact h.resolve_left (List.not_mem_nil)
  | cons p ps ih =>
    refine ih ?_
    rcases h with h | h
    · rcases List.mem_cons.1 h with rfl | h
      · exact .inr (forgets_path s g)
      · exact .inl h
    · exact .inr (h.path p)

end Cleanup

end Scan

/-- What a partial commit carries over of the files on disk: what is not at or below a listed path. -/
theorem carried_of_indexSeed {m : Path → Bool} {disk : Disk B} {prev : Option (Tree O)}
    {paths : Option (List Path)} {prevIndex : Option (CommitIndex O)} {p : Path} {e : IndexEntry O}
    (h : (indexSeed m true prevIndex paths (scan m disk prev paths)).get p = some e) {bytes : B}
    {t : ℤ} (hstat : disk.stat p = some (.file bytes t)) :
    ∃ ps ∈ paths, (∀ g ∈ ps, ¬ g <+: p) ∧ shouldTrackPath m p = true ∧
      ∃ idx ∈ prevIndex, idx.entries.get p = some e := by
  unfold indexSeed at h
  rw [Bool.not_true, if_neg Bool.false_ne_true, Dict.get_filter] at h
  obtain ⟨hget, hkeep⟩ := Option.filter_eq_some_iff.1 h
  simp only [Bool.and_eq_true, decide_eq_true_eq, Bool.not_eq_true', List.any_eq_false] at hkeep
  obtain ⟨⟨hexact, hunder⟩, htrack⟩ := hkeep
  rcases paths with _ | ps
  · rcases prevIndex with _ | idx <;> cases hget
  rcases prevIndex with _ | idx
  · cases hget
  refine ⟨ps, rfl, fun g hg hpre => ?_, htrack, idx, rfl, hget⟩
  obtain ⟨h1, h2⟩ : (scan m disk prev (some ps)).Forgets disk g := Scan.forgets_foldl (.inl hg)
  by_cases heq : g = p
  · subst heq
    exact hexact (h2 bytes t hstat)
  · exact hunder g (h1 (Disk.stat_above hstat ⟨hpre, heq⟩)) ⟨hpre, heq⟩

/-! ## Runs -/

namespace Branch

/-- A partial commit that saves its index does not carry an entry over that its own index did not trust,
that the new one does, and that is wrong about its file. -/
def CarriesRight (env : Env B O) (s : Branch B O) : BranchOp B → Prop
  | .commit (some ps) true => ∀ m, loadIgnoreMatcher env s.disk = .ok m → ∀ idx ∈ s.loaded, ∀ p e,
    idx.entries.get p = some e → (∀ g ∈ ps, ¬ g <+: p) → shouldTrackPath m p = true →
      (∀ saved ∈ idx.savedAt, saved ≤ e.mtime) → e.mtime < s.now → e.Right env s.disk p
  | _ => True

/-- The stored index is no younger than the clock, and what it trusts is right. -/
structure Inv (env : Env B O) (s : Branch B O) : Prop where
  stamped : ∀ idx ∈ s.index, ∀ saved ∈ idx.savedAt, saved ≤ s.now
  trusted : ∀ idx ∈ s.index, Trusted env s.disk idx

/-- The same branch but for the index. -/
structure Same (s s' : Branch B O) : Prop where
  disk : s'.disk = s.disk
  now : s'.now = s.now
  head : s'.head = s.head
  commits : s'.commits = s.commits

section Steps

variable {env : Env B O} {s s' : Branch B O} {paths : Option (List Path)} {saved : Bool}

theorem mem_loaded {idx : CommitIndex O} (h : idx ∈ s.loaded) : idx ∈ s.index := by
  rw [loaded] at h
  split at h
  · rename_i hindex
    split at h
    · rw [hindex]
      exact h
    · cases h
  · cases h

/-- The seed of the new index is right before now. -/
theorem rightBefore_seed (h : s.Inv env) {m : Path → Bool} (hm : loadIgnoreMatcher env s.disk = .ok m)
    (hc : CarriesRight env s (.commit paths true)) :
    RightBefore env s.disk s.now
      (indexSeed m true s.loaded paths (scan m s.disk s.tree paths)) := by
  intro p e hget hlt bytes hstat hsize
  obtain ⟨ps, hps, hoff, htrack, idx, hidx, he⟩ := carried_of_indexSeed hget hstat
  obtain rfl : paths = some ps := hps
  by_cases hold : ∃ saved ∈ idx.savedAt, e.mtime < saved
  · obtain ⟨saved, hsaved, hlt'⟩ := hold
    exact h.trusted idx (mem_loaded hidx) saved hsaved p e he hlt' bytes hstat hsize
  · refine hc m hm idx hidx p e he hoff htrack (fun saved hsaved => ?_) hlt bytes hstat hsize
    exact not_lt.1 fun hlt' => hold ⟨saved, hsaved, hlt'⟩

/-- The index that a commit saves is trusted. -/
theorem trusted_save {entries : Dict Path (IndexEntry O)} (head : ℕ)
    (h : RightBefore env s.disk s.now entries) :
    (∀ saved ∈ (⟨head, entries, s.stamp⟩ : CommitIndex O).savedAt, saved ≤ s.now) ∧
      Trusted env s.disk ⟨head, entries, s.stamp⟩ := by
  have hstamp : ∀ saved ∈ s.stamp, saved = s.now := by
    intro saved hsaved
    rw [stamp] at hsaved
    split at hsaved
    · exact (Option.some.inj hsaved).symm
    · cases hsaved
  refine ⟨fun saved hsaved => (hstamp saved hsaved).le, fun saved hsaved p e he hlt => ?_⟩
  rw [hstamp saved hsaved] at hlt
  exact h p e he hlt

variable {d : Disk B}

theorem file_write_cases {dirs : Path} {name : String} {bytes : B} {now : ℤ} (p : Path)
    (b : B) (t : ℤ) (h : ((d.write dirs name bytes now).getD d).stat p = some (.file b t)) :
    d.stat p = some (.file b t) ∨ t = now := by
  rcases hd : d.write dirs name bytes now with _ | d'
  · rw [hd] at h
    exact .inl h
  · rw [hd, Option.getD_some, Disk.stat_write hd] at h
    split at h
    · obtain ⟨-, rfl⟩ : bytes = b ∧ now = t := by simpa using h
      exact .inr rfl
    · exact .inl h

theorem file_mkdirs {path : Path} (p : Path) (b : B) (t : ℤ)
    (h : ((d.mkdirs [] path).getD d).stat p = some (.file b t)) : d.stat p = some (.file b t) := by
  rcases hd : d.mkdirs [] path with _ | d'
  · rw [hd] at h
    exact h
  · rw [hd, Option.getD_some] at h
    rcases Disk.stat_mkdirs hd p with heq | ⟨-, hdir, -⟩
    · rwa [heq] at h
    · rw [hdir] at h
      cases h

theorem file_remove_path {path : Path} (p : Path) (b : B) (t : ℤ)
    (h : ((d.remove path).toOption.getD d).stat p = some (.file b t)) : d.stat p = some (.file b t) := by
  rcases hd : d.remove path with e | d'
  · rw [hd] at h
    exact h
  · rw [hd] at h
    have h : d'.stat p = some (.file b t) := h
    by_cases hp : p = []
    · subst hp
      rw [Disk.stat, if_pos rfl] at h
      cases h
    · rw [Disk.stat_remove hd p hp] at h
      split at h
      · cases h
      · exact h

/-- What changes on disk changes at the tick of now, so the index stays trusted. -/
theorem Inv.change (h : s.Inv env) {disk : Disk B} (hdisk : ∀ p bytes t,
    disk.stat p = some (.file bytes t) → s.disk.stat p = some (.file bytes t) ∨ t = s.now) :
    Inv env { s with disk := disk } where
  stamped := h.stamped
  trusted idx hidx saved hsaved p e he hlt bytes hstat hsize := by
    rcases hdisk p bytes _ hstat with hold | hnow
    · exact h.trusted idx hidx saved hsaved p e he hlt bytes hold hsize
    · have := h.stamped idx hidx saved hsaved
      omega

variable [DecidableEq O]

/-- **A commit with a trusted index answers as one without an index.** -/
theorem commit_agrees (h : s.Inv env) (paths : Option (List Path)) :
    (∃ e, s.answer true env paths = .error e ∧ s.answer false env paths = .error e) ∨
    ∃ resp entries entries', s.answer true env paths = .ok (resp, entries) ∧
      s.answer false env paths = .ok (resp, entries') ∧
      (CarriesRight env s (.commit paths true) → RightBefore env s.disk s.now entries) := by
  rw [answer, answer, Git.commit, Git.commit]
  rcases hm : loadIgnoreMatcher env s.disk with e | m
  · exact .inl ⟨e, rfl, rfl⟩
  · dsimp only
    rw [commitWith, commitWith, if_pos rfl, if_neg Bool.false_ne_true]
    have hidx : ∀ idx ∈ s.loaded, Trusted env s.disk idx := fun idx hidx =>
      h.trusted idx (mem_loaded hidx)
    rcases candidates_agree s.tree hidx (scan m s.disk s.tree paths).candidates
      ⟨(scan m s.disk s.tree paths).editor, (scan m s.disk s.tree paths).changed,
        indexSeed m true s.loaded paths (scan m s.disk s.tree paths)⟩
      ⟨(scan m s.disk s.tree paths).editor, (scan m s.disk s.tree paths).changed,
        indexSeed m false none paths (scan m s.disk s.tree paths)⟩ rfl rfl s.now with
      ⟨e, h1, h2⟩ | ⟨t, t', h1, h2, hed, hch, hright⟩
    · simp only [h1, h2]
      exact .inl ⟨e, rfl, rfl⟩
    · simp only [h1, h2]
      have hentries : CarriesRight env s (.commit paths true) →
          RightBefore env s.disk s.now t.index := fun hc => hright (rightBefore_seed h hm hc)
      refine .inr ?_
      by_cases hzero : t.changed = 0
      · refine ⟨.noop (scan m s.disk s.tree paths).ignored.length, t.index, t'.index, ?_, ?_, hentries⟩
        · show (if t.changed = 0 then _ else _) = _
          rw [if_pos hzero]
          rfl
        · show (if t'.changed = 0 then _ else _) = _
          rw [if_pos (hch ▸ hzero)]
          rfl
      · refine ⟨.created t.editor.write t.changed (scan m s.disk s.tree paths).ignored.length,
          t.index, t'.index, ?_, ?_, hentries⟩
        · show (if t.changed = 0 then _ else _) = _
          rw [if_neg hzero]
          rfl
        · show (if t'.changed = 0 then _ else _) = _
          rw [if_neg (hch ▸ hzero), hed, hch]
          rfl

/-- A commit keeps the two branches the same and the index trusted. -/
theorem commit_same (h : s.Inv env) (hs : Same s s') (hc : CarriesRight env s (.commit paths saved)) :
    ((s.answer true env paths).toOption.map fun r => r.1.tree s.tree) =
        ((s'.answer false env paths).toOption.map fun r => r.1.tree s'.tree) ∧
      Same (s.commit true env paths saved) (s'.commit false env paths saved) ∧
      (s.commit true env paths saved).Inv env := by
  have htree : s'.tree = s.tree := by rw [tree, tree, hs.head]
  have hans : s'.answer false env paths = s.answer false env paths := by
    rw [answer, answer, hs.disk, htree]
    rfl
  have hsave : ∀ head entries, (CarriesRight env s (.commit paths true) →
      RightBefore env s.disk s.now entries) → saved = true →
      (∀ saved ∈ (⟨head, entries, s.stamp⟩ : CommitIndex O).savedAt, saved ≤ s.now) ∧
        Trusted env s.disk ⟨head, entries, s.stamp⟩ := by
    intro head entries hentries hsaved
    subst hsaved
    exact trusted_save head (hentries hc)
  rw [commit, commit, hans, htree]
  rcases commit_agrees h paths with ⟨e, h1, h2⟩ | ⟨resp, entries, entries', h1, h2, hentries⟩
  · rw [h1, h2]
    exact ⟨rfl, hs, h⟩
  rw [h1, h2]
  refine ⟨rfl, ?_⟩
  cases resp with
  | noop ignored =>
    dsimp only
    rw [hs.head]
    rcases hhead : s.head with _ | ⟨head, t⟩
    · exact ⟨hs, h⟩
    · simp only [Bool.false_and, Bool.false_eq_true, if_false, Bool.true_and]
      split
      · rename_i hsaved
        obtain ⟨h3, h4⟩ := hsave head entries hentries hsaved
        refine ⟨⟨hs.disk, hs.now, hs.head.trans hhead, hs.commits⟩, ?_, ?_⟩
        · rintro idx ⟨⟩
          exact h3
        · rintro idx ⟨⟩
          exact h4
      · exact ⟨hs, h⟩
  | created t changed ignored =>
    dsimp only
    rw [hs.commits]
    refine ⟨⟨hs.disk, hs.now, rfl, rfl⟩, ?_⟩
    rw [Bool.true_and]
    split
    · rename_i hsaved
      obtain ⟨h3, h4⟩ := hsave s.commits entries hentries hsaved
      constructor
      · rintro idx ⟨⟩
        exact h3
      · rintro idx ⟨⟩
        exact h4
    · exact ⟨h.stamped, h.trusted⟩

/-- **The stat cache is invisible**: a run in which no partial commit makes a wrong entry look old
produces the trees that it produces without the cache. -/
theorem trees_agree (env : Env B O) (start : Branch B O) (hstart : start.index = none)
    (ops : List (BranchOp B))
    (hc : ActsMeet (fun s op => some (step true env s op)) (CarriesRight env) start ops) :
    trees true env start ops = trees false env start ops := by
  suffices hsim : ∀ s s' : Branch B O, s.Inv env → Same s s' →
      ActsMeet (fun s op => some (step true env s op)) (CarriesRight env) s ops →
      trees true env s ops = trees false env s' ops by
    refine hsim start start ⟨?_, ?_⟩ ⟨rfl, rfl, rfl, rfl⟩ hc
    · rw [hstart]
      nofun
    · rw [hstart]
      nofun
  clear hc hstart
  induction ops with
  | nil => exact fun _ _ _ _ _ => rfl
  | cons op ops ih =>
    intro s s' h hs ⟨hop, hrest⟩
    have hrest := hrest _ rfl
    cases op with
    | write dirs name bytes =>
      refine ih _ _ (h.change fun p b t => file_write_cases p b t) ⟨?_, hs.now, hs.head, hs.commits⟩ hrest
      show (s'.disk.write dirs name bytes s'.now).getD s'.disk = _
      rw [hs.disk, hs.now]
      rfl
    | mkdirs path =>
      refine ih _ _ (h.change fun p b t hp => .inl (file_mkdirs p b t hp))
        ⟨?_, hs.now, hs.head, hs.commits⟩ hrest
      show (s'.disk.mkdirs [] path).getD s'.disk = _
      rw [hs.disk]
      rfl
    | remove path =>
      refine ih _ _ (h.change fun p b t hp => .inl (file_remove_path p b t hp))
        ⟨?_, hs.now, hs.head, hs.commits⟩ hrest
      show (s'.disk.remove path).toOption.getD s'.disk = _
      rw [hs.disk]
      rfl
    | wait ticks =>
      refine ih _ _ ⟨fun idx hidx saved hsaved => ?_, h.trusted⟩ ⟨hs.disk, ?_, hs.head, hs.commits⟩ hrest
      · have := h.stamped idx hidx saved hsaved
        show saved ≤ s.now + ticks
        omega
      · show s'.now + ticks = s.now + ticks
        rw [hs.now]
    | commit paths saved =>
      obtain ⟨heq, hsame, hinv⟩ := commit_same h hs hop
      exact congrArg₂ List.cons heq (ih _ _ hinv hsame hrest)

end Steps

end Branch

/-! ### A rewrite in the tick of a commit -/

instance (env : Env B O) [DecidableEq O] (disk : Disk B) (p : Path) (e : IndexEntry O) :
    Decidable (e.Right env disk p) :=
  match h : disk.stat p with
  | some (.file bytes t) =>
    decidable_of_iff (t = e.mtime → env.size bytes = e.size → e.oid = env.hash bytes) (by
      rw [IndexEntry.Right, h]
      constructor
      · rintro himp b hb hsize
        obtain ⟨rfl, rfl⟩ : bytes = b ∧ t = e.mtime := by simpa using hb
        exact himp rfl hsize
      · rintro himp rfl
        exact himp bytes rfl)
  | some .dir => isTrue (by rw [IndexEntry.Right, h]; nofun)
  | none => isTrue (by rw [IndexEntry.Right, h]; nofun)

namespace Branch

/-- Every entry of the loaded index is right. -/
def AllRight (env : Env B O) (s : Branch B O) : Prop :=
  ∀ idx ∈ s.loaded, ∀ x ∈ idx.entries.entries, x.2.Right env s.disk x.1

instance (env : Env B O) [DecidableEq O] (s : Branch B O) : Decidable (AllRight env s) :=
  inferInstanceAs (Decidable (∀ idx ∈ s.loaded, _))

theorem carriesRight_of_allRight {env : Env B O} (s : Branch B O) (op : BranchOp B)
    (h : AllRight env s) : CarriesRight env s op := by
  rw [CarriesRight.eq_def]
  split
  · intro m _ idx hidx p e he _ _ _ _
    exact h idx hidx (p, e) (Dict.get_eq_some_iff.1 he)
  · trivial

/-- Nothing on disk, and no commits. -/
def fresh : Branch ℕ ℕ := ⟨.empty, 0, none, 0, none⟩

/-- The file `a` is written, committed and written again, a tick before a commit of the missing path `b`
that only refreshes the index; then comes a full commit.  The clock moves `ticks` on before the rewrite. -/
def rewriteRun (ticks : ℕ) : List (BranchOp ℕ) :=
  [.write [] "a" 1, .commit none true, .wait ticks, .write [] "a" 2, .wait 1,
    .commit (some [["b"]]) true, .commit none true]

/-- A rewrite in the tick of the first commit is missed by the last one. -/
theorem not_trees_agree_rewriteRun :
    ¬ ∀ (start : Branch ℕ ℕ) (ops : List (BranchOp ℕ)), start.index = none →
      trees true plainEnv start ops = trees false plainEnv start ops := by
  intro h
  have := h fresh (rewriteRun 0) rfl
  revert this
  decide +kernel

/-- A rewrite in a later tick is not. -/
theorem trees_agree_rewriteRun : trees true plainEnv fresh (rewriteRun 1) =
      trees false plainEnv fresh (rewriteRun 1) ∧
    trees true plainEnv fresh (rewriteRun 1) =
      [some (.blob "a" 1 .nil), some (.blob "a" 1 .nil), some (.blob "a" 2 .nil)] := by
  have hright : ActsMeet (fun s op => some (step true plainEnv s op)) (fun s _ => AllRight plainEnv s)
      fresh (rewriteRun 1) := by decide +kernel
  exact ⟨trees_agree plainEnv fresh rfl (rewriteRun 1)
    (hright.mono fun s op => carriesRight_of_allRight s op), by decide +kernel⟩

end Branch

end OpenViking.Git
