import OpenViking.Git.CommitRun

/-!
# What a commit snapshots

A commit without a stat cache against the files on disk (`crates/ragfs/src/git/service.rs`, 156-715).

A listed path that is missing on disk goes through the main loop, where an entry of the previous tree
counts as a change also when it is a directory.  Where that directory holds no file (`write_subtree` can
leave such directories) the commit is none of the files, and is created nevertheless.  Results:

* `file_tree_iff`: when a path in the scope is right after a commit, on any disk;
* `snapshots_iff`: when a commit is the snapshot of its scope, where no path changes its kind.
-/

namespace OpenViking.Git

variable {B O : Type*}

/-- What a commit should record at a path: the hash of the file on disk, if it is tracked. -/
def snapshot (env : Env B O) (m : Path → Bool) (disk : Disk B) (q : Path) : Option O :=
  if shouldTrackPath m q then (disk.file q).map env.hash else none

/-- The path is equal to a listed one or under it. -/
def InScope (paths : Option (List Path)) (q : Path) : Prop := ∃ g ∈ scopeOf paths, g <+: q

/-- No path is a file in the previous tree and a directory on disk, or the reverse. -/
def SameKinds (disk : Disk B) (prev : Option (Tree O)) : Prop :=
  ∀ p, ((prevFile prev p).isSome = true → disk.stat p ≠ some .dir) ∧
    ∀ t, prevEntry prev p = some (.tree t) → disk.file p = none

/-- The previous tree has an entry at a path that it has a file below. -/
theorem prevEntry_above {prev : Option (Tree O)} {p q : Path} (h : (prevFile prev q).isSome = true)
    (hu : Under p q) (hp : p ≠ []) : ∃ t, prevEntry prev p = some (.tree t) := by
  obtain ⟨s, hs, rfl⟩ := under_iff.1 hu
  rcases prev with _ | t
  · cases h
  · have hentry : ∀ x, (TreeEditor.fromTree t).entry x = prevEntry (some t) x := fun x =>
      TreeEditor.entryAt_load fun _ _ => rfl
    have hdir : (TreeEditor.fromTree t).IsDir p := by
      by_contra hdir
      have hnone := TreeEditor.entry_of_not_isDir hdir hs
      rw [hentry] at hnone
      rw [prevFile, hnone] at h
      cases h
    obtain ⟨c, hc⟩ := hdir.resolve_left hp
    exact ⟨c, (hentry p).symm.trans hc⟩

section Scope

variable {env : Env B O} {m : Path → Bool} {disk : Disk B} {prev : Option (Tree O)}
  {paths : Option (List Path)} {resp : CommitResponse O} {g p q : Path}

section

variable (hprev : ∀ t ∈ prev, t.Ordered)

include hprev

theorem inScope_of_candidate (h : p ∈ (scan m disk prev paths).candidates) : InScope paths p := by
  obtain ⟨-, g, hg, ht, -⟩ := ((Scan.adds_scan m disk hprev paths).1 p).1 h
  exact ⟨g, hg, prefix_of_touched ht⟩

theorem inScope_of_removed (h : p ∈ (scan m disk prev paths).removed) : InScope paths p := by
  obtain ⟨-, -, g, hg, ht⟩ := ((Scan.adds_scan m disk hprev paths).2 p).1 h
  exact ⟨g, hg, prefix_of_touched ht⟩

/-- A tracked file on disk in the scope is a candidate. -/
theorem mem_candidates_of_file (hq : InScope paths q)
    (htrack : shouldTrackPath m q = true) {bytes : B} (hfile : disk.file q = some bytes) :
    q ∈ (scan m disk prev paths).candidates := by
  obtain ⟨g, hg, hpre⟩ := hq
  obtain ⟨t, hstat⟩ := Disk.stat_of_file hfile
  refine ((Scan.adds_scan m disk hprev paths).1 q).2 ⟨htrack, g, hg, ?_, .inr (.inl ?_)⟩
  · by_cases heq : g = q
    · exact (touched_file (heq ▸ hstat)).2 heq.symm
    · exact (touched_dir (Disk.stat_above hstat ⟨hpre, heq⟩)).2 ⟨hpre, heq⟩
  · rw [hfile]
    rfl

/-- **A path in the scope is right after a commit** unless the previous tree has a file there that the
snapshot has not, and nothing drops it. -/
theorem file_tree_iff (h : Committed env m disk prev paths resp)
    (hq : InScope paths q) : (resp.tree prev).file q = snapshot env m disk q ↔
      ((prevFile prev q).isSome = true → snapshot env m disk q = none →
        q ∈ (scan m disk prev paths).removed ∨
          ∃ p ∈ (scan m disk prev paths).candidates, Changes env disk prev p ∧ Drops disk p q) := by
  have hcand := (Scan.adds_scan m disk hprev paths).1
  cases hsnap : snapshot env m disk q with
  | some oid =>
    refine iff_of_true ?_ nofun
    rw [snapshot] at hsnap
    split at hsnap
    · rename_i htrack
      obtain ⟨bytes, hbytes, rfl⟩ := Option.map_eq_some_iff.1 hsnap
      exact h.written q (mem_candidates_of_file hprev hq htrack hbytes) bytes hbytes
    · cases hsnap
  | none =>
    have hnot : q ∈ (scan m disk prev paths).candidates → disk.file q = none := by
      intro hmem
      rw [snapshot, if_pos ((hcand q).1 hmem).1] at hsnap
      exact Option.map_eq_none_iff.1 hsnap
    by_cases hdrop : ∃ p ∈ (scan m disk prev paths).candidates,
        Changes env disk prev p ∧ Drops disk p q
    · exact iff_of_true (h.dropped q hnot hdrop) fun _ _ => .inr hdrop
    · rw [h.same q hnot fun p hp hch hd => hdrop ⟨p, hp, hch, hd⟩]
      by_cases hr : q ∈ (scan m disk prev paths).removed
      · rw [if_pos hr]
        exact iff_of_true rfl fun _ _ => .inl hr
      · rw [if_neg hr]
        constructor
        · intro hnone hsome
          rw [hnone] at hsome
          cases hsome
        · intro himp
          cases hfile : prevFile prev q with
          | none => rfl
          | some oid =>
            rw [hfile] at himp
            exact ((himp rfl rfl).elim hr hdrop).elim

end

end Scope

/-! ## Without changes of kind -/

/-- The commit succeeds; its tree flattens, each path once, to the snapshot of the scope and the previous
tree elsewhere; and the answer is `Noop` exactly when the flattened tree did not change. -/
def Snapshots [DecidableEq O] (env : Env B O) (m : Path → Bool) (disk : Disk B)
    (prev : Option (Tree O)) (paths : Option (List Path)) : Prop :=
  ∃ resp index, commitWith env m disk prev paths false none = .ok (resp, index) ∧
    ((resp.tree prev).flatten.map Prod.fst).Nodup ∧
    (∀ q, InScope paths q → ∀ oid,
      (q, oid) ∈ (resp.tree prev).flatten ↔ snapshot env m disk q = some oid) ∧
    (∀ q, ¬ InScope paths q → ∀ oid,
      (q, oid) ∈ (resp.tree prev).flatten ↔ (q, oid) ∈ (prev.getD .nil).flatten) ∧
    (resp.isNoop = true ↔
      ∀ q oid, (q, oid) ∈ (resp.tree prev).flatten ↔ (q, oid) ∈ (prev.getD .nil).flatten)

/-- A change of a file in the scope, or no listed path that is missing on disk but a directory of the
previous tree. -/
def NoHollow (env : Env B O) (m : Path → Bool) (disk : Disk B) (prev : Option (Tree O))
    (paths : Option (List Path)) : Prop :=
  (∃ q, InScope paths q ∧ prevFile prev q ≠ snapshot env m disk q) ∨
    ∀ g ∈ scopeOf paths, shouldTrackPath m g = true → disk.stat g = none →
      ∀ t, prevEntry prev g ≠ some (.tree t)

section Kinds

variable {env : Env B O} {m : Path → Bool} {disk : Disk B} {prev : Option (Tree O)}
  {paths : Option (List Path)} {resp : CommitResponse O} {p q : Path}

/-- A file of the previous tree in the scope is looked at. -/
theorem touched_of_sameKinds (hkind : SameKinds disk prev) (hq : InScope paths q)
    (hfile : (prevFile prev q).isSome = true) : ∃ g ∈ scopeOf paths, Touched disk g q := by
  obtain ⟨g, hg, hpre⟩ := hq
  refine ⟨g, hg, ?_⟩
  by_cases heq : g = q
  · subst heq
    rcases hstat : disk.stat g with _ | ⟨bytes, t⟩ | _
    · exact (touched_none hstat).2 hpre
    · exact (touched_file hstat).2 rfl
    · exact absurd hstat ((hkind g).1 hfile)
  · rcases hstat : disk.stat g with _ | ⟨bytes, t⟩ | _
    · exact (touched_none hstat).2 hpre
    · have hne : g ≠ [] := by
        rintro rfl
        rw [Disk.stat, if_pos rfl] at hstat
        cases hstat
      obtain ⟨c, hc⟩ := prevEntry_above hfile ⟨hpre, heq⟩ hne
      have := (hkind g).2 c hc
      rw [Disk.file_of_stat hstat] at this
      cases this
    · exact (touched_dir hstat).2 ⟨hpre, heq⟩

theorem scope_of_sameKinds (hprev : ∀ t ∈ prev, t.Ordered) (hkind : SameKinds disk prev)
    (h : Committed env m disk prev paths resp) (hq : InScope paths q) :
    (resp.tree prev).file q = snapshot env m disk q := by
  refine (file_tree_iff hprev h hq).2 fun hfile hsnap => ?_
  obtain ⟨hcand, hremoved⟩ := Scan.adds_scan m disk hprev paths
  obtain ⟨g, hg, ht⟩ := touched_of_sameKinds hkind hq hfile
  cases htrack : shouldTrackPath m q with
  | false => exact .inl ((hremoved q).2 ⟨htrack, hfile, g, hg, ht⟩)
  | true =>
    rw [snapshot, if_pos htrack, Option.map_eq_none_iff] at hsnap
    have hstat : disk.stat q = none := by
      rcases hstat : disk.stat q with _ | ⟨bytes, t⟩ | _
      · rfl
      · rw [Disk.file_of_stat hstat] at hsnap
        cases hsnap
      · exact absurd hstat ((hkind q).1 hfile)
    obtain ⟨oid, hoid⟩ := Option.isSome_iff_exists.1 hfile
    refine .inr ⟨q, (hcand q).2 ⟨htrack, g, hg, ht, .inr (.inr hfile)⟩, ?_, ?_⟩
    · rw [Changes, hstat, Scan.entry_of_prevFile hoid]
      rfl
    · simp only [Drops, hstat]
      exact List.prefix_rfl

theorem elsewhere_of_sameKinds (hprev : ∀ t ∈ prev, t.Ordered) (hkind : SameKinds disk prev)
    (h : Committed env m disk prev paths resp) (hq : ¬ InScope paths q) :
    (resp.tree prev).file q = prevFile prev q := by
  have hnot : q ∈ (scan m disk prev paths).candidates → disk.file q = none := fun hmem =>
    absurd (inScope_of_candidate hprev hmem) hq
  have hbelow : ∀ p ∈ (scan m disk prev paths).candidates, ¬ p <+: q := fun p hp hpre => by
    obtain ⟨g, hg, hpre'⟩ := inScope_of_candidate hprev hp
    exact hq ⟨g, hg, hpre'.trans hpre⟩
  by_cases hdrop : ∃ p ∈ (scan m disk prev paths).candidates,
      Changes env disk prev p ∧ Drops disk p q
  · rw [h.dropped q hnot hdrop]
    obtain ⟨p, hp, -, hd⟩ := hdrop
    rw [Drops] at hd
    split at hd
    · exact absurd hd (hbelow p hp)
    · rename_i bytes t hstat
      obtain ⟨hne, hpre | hpre⟩ := hd
      · have hdir := Disk.stat_above hstat ⟨hpre, hne.symm⟩
        cases hfile : prevFile prev q with
        | none => rfl
        | some oid => exact absurd hdir ((hkind q).1 (by rw [hfile]; rfl))
      · exact absurd hpre (hbelow p hp)
    · exact hd.elim
  · rw [h.same q hnot fun p hp hch hd => hdrop ⟨p, hp, hch, hd⟩, if_neg]
    exact fun hr => hq (inScope_of_removed hprev hr)

/-- Without a change no file changes. -/
theorem file_of_unchanged (h : Committed env m disk prev paths resp)
    (hr : (scan m disk prev paths).removed = [])
    (hch : ∀ p ∈ (scan m disk prev paths).candidates, ¬ Changes env disk prev p) (q : Path) :
    (resp.tree prev).file q = prevFile prev q := by
  by_cases hmem : q ∈ (scan m disk prev paths).candidates ∧ ∃ bytes, disk.file q = some bytes
  · obtain ⟨hmem, bytes, hbytes⟩ := hmem
    obtain ⟨t, hstat⟩ := Disk.stat_of_file hbytes
    have hunchanged := hch q hmem
    rw [Changes, hstat] at hunchanged
    rw [h.written q hmem bytes hbytes, prevFile, not_not.1 hunchanged, Entry.oid?_blob]
  · rw [h.same q _ fun p hp hc => absurd hc (hch p hp), hr, if_neg List.not_mem_nil]
    intro hq
    by_contra hfile
    exact hmem ⟨hq, Option.ne_none_iff_exists'.1 hfile⟩

theorem noop_of_same (hprev : ∀ t ∈ prev, t.Ordered) (hkind : SameKinds disk prev)
    (h : Committed env m disk prev paths resp) (hhollow : NoHollow env m disk prev paths)
    (hsame : ∀ q, (resp.tree prev).file q = prevFile prev q) : resp.isNoop = true := by
  obtain ⟨hcand, hremoved⟩ := Scan.adds_scan m disk hprev paths
  have hscope : ∀ q, InScope paths q → prevFile prev q = snapshot env m disk q := fun q hq =>
    (hsame q).symm.trans (scope_of_sameKinds hprev hkind h hq)
  refine h.noop.2 ⟨List.eq_nil_iff_forall_not_mem.2 fun r hr => ?_, fun p hp hch => ?_⟩
  · obtain ⟨htrack, hfile, -⟩ := (hremoved r).1 hr
    rw [hscope r (inScope_of_removed hprev hr), snapshot, htrack] at hfile
    cases hfile
  · obtain ⟨htrack, g, hg, -, hself⟩ := (hcand p).1 hp
    have hsnap := hscope p (inScope_of_candidate hprev hp)
    rw [snapshot, if_pos htrack] at hsnap
    rw [Changes] at hch
    split at hch
    · rename_i hstat
      have hnone := Disk.file_eq_none_of_stat hstat
      rw [hnone, Option.map_none] at hsnap
      rw [hnone, hsnap] at hself
      obtain rfl : p = g := by simpa using hself
      obtain ⟨e, he⟩ := Option.isSome_iff_exists.1 hch
      cases e with
      | blob oid =>
        rw [prevFile, he] at hsnap
        cases hsnap
      | tree t =>
        rcases hhollow with ⟨q, hq, hne⟩ | hhollow
        · exact hne (hscope q hq)
        · exact hhollow p hg htrack hstat t he
    · rename_i bytes t hstat
      rw [Disk.file_of_stat hstat] at hsnap
      exact hch (Scan.entry_of_prevFile hsnap)
    · exact hch

/-- No candidate is a directory. -/
theorem stat_candidate_of_sameKinds (hprev : ∀ t ∈ prev, t.Ordered) (hkind : SameKinds disk prev)
    (hp : p ∈ (scan m disk prev paths).candidates) : disk.stat p ≠ some .dir := by
  obtain ⟨-, g, -, ht, hself | hfile | hfile⟩ := ((Scan.adds_scan m disk hprev paths).1 p).1 hp
  · intro hstat
    subst hself
    exact ((touched_dir hstat).1 ht).2 rfl
  · intro hstat
    rw [Disk.file, hstat] at hfile
    cases hfile
  · exact (hkind p).1 hfile

/-- **Where no path changes between file and directory, a commit snapshots exactly its scope**, and
answers `Noop` exactly when no file changed, if and only if a file in the scope changed or no listed path
that is missing on disk is a directory of the previous tree. -/
theorem snapshots_iff [DecidableEq O] (env : Env B O) (m : Path → Bool) (disk : Disk B)
    (prev : Option (Tree O)) (paths : Option (List Path)) (hprev : ∀ t ∈ prev, t.Ordered)
    (hkind : SameKinds disk prev) : Snapshots env m disk prev paths ↔ NoHollow env m disk prev paths := by
  have hold := ordered_getD_nil hprev
  obtain ⟨resp, index, hresp, h⟩ := commitWith_spec env hprev paths fun p hp =>
    stat_candidate_of_sameKinds hprev hkind hp
  have hscope : ∀ q, InScope paths q → (resp.tree prev).file q = snapshot env m disk q :=
    fun q hq => scope_of_sameKinds hprev hkind h hq
  have hflat : (∀ q oid, (q, oid) ∈ (resp.tree prev).flatten ↔ (q, oid) ∈ (prev.getD .nil).flatten) ↔
      ∀ q, (resp.tree prev).file q = prevFile prev q := by
    simp only [Tree.mem_flatten h.ordered, Tree.mem_flatten hold, file_getD_nil]
    exact forall_congr' fun q => ⟨fun heq => Option.ext heq, fun heq oid => by rw [heq]⟩
  constructor
  · rintro ⟨resp', index', hresp', -, -, -, hnoop⟩
    obtain ⟨rfl, -⟩ : resp = resp' ∧ index = index' := by
      simpa using hresp.symm.trans hresp'
    rw [NoHollow, or_iff_not_imp_left]
    intro hall g hg htrack hstat t ht
    have hsame : ∀ q, (resp.tree prev).file q = prevFile prev q := by
      intro q
      by_cases hq : InScope paths q
      · rw [hscope q hq]
        by_contra hne
        exact hall ⟨q, hq, Ne.symm hne⟩
      · exact elsewhere_of_sameKinds hprev hkind h hq
    have hno := (h.noop.1 (hnoop.2 (hflat.2 hsame))).2 g
      (((Scan.adds_scan m disk hprev paths).1 g).2
        ⟨htrack, g, hg, (touched_none hstat).2 List.prefix_rfl, .inl rfl⟩)
    rw [Changes, hstat, ht] at hno
    exact hno rfl
  · intro hhollow
    refine ⟨resp, index, hresp, Tree.nodup_flatten h.ordered, fun q hq oid => ?_,
      fun q hq oid => ?_, ?_⟩
    · rw [Tree.mem_flatten h.ordered, hscope q hq]
    · rw [Tree.mem_flatten h.ordered, Tree.mem_flatten hold, file_getD_nil,
        elsewhere_of_sameKinds hprev hkind h hq]
    · rw [hflat]
      constructor
      · intro hno
        obtain ⟨hr, hch⟩ := h.noop.1 hno
        exact file_of_unchanged h hr hch
      · exact noop_of_same hprev hkind h hhollow

end Kinds

/-! ### An empty directory in the previous tree -/

/-- Contents are numbers, and each is its own hash. -/
def plainEnv : Env ℕ ℕ := ⟨id, fun _ => 1, fun _ => some fun _ => false⟩

/-- The file `a/b/x`, on disk. -/
def deepDisk : Disk ℕ :=
  ((Disk.empty.mkdirs [] ["a", "b"]).bind fun d => d.write ["a", "b"] "x" 1 0).getD .empty

/-- What a run of full commits makes of the tree, one for each state of the disk. -/
def fullCommits : List (Disk ℕ) → Option (Tree ℕ) → Option (Tree ℕ)
  | [], prev => prev
  | disk :: disks, prev =>
    match commitWith plainEnv (fun _ => false) disk prev none false none with
    | .ok (resp, _) => fullCommits disks (some (resp.tree prev))
    | .error _ => none

/-- The empty directory `a`. -/
def hollow : Tree ℕ := .sub "a" .nil .nil

/-- A commit of `a/b/x`, then one after it is gone, leave an empty directory `a` in the tree. -/
theorem fullCommits_deep : fullCommits [deepDisk, .empty] none = some hollow := by
  decide +kernel

theorem hollow_ordered : hollow.Ordered := by
  simp [hollow, Tree.Ordered, Tree.entries]

theorem prevEntry_hollow {p : Path} {e : Entry ℕ} (h : prevEntry (some hollow) p = some e) :
    p = ["a"] ∧ e = .tree .nil := by
  have hget : ∀ n, hollow.load.get n = if "a" = n then some (.tree .nil) else none := fun _ => rfl
  cases p with
  | nil => cases h
  | cons n p =>
    by_cases hn : "a" = n
    · subst hn
      cases p with
      | nil =>
        obtain rfl := Option.some.inj ((hget "a").symm.trans h)
        exact ⟨rfl, rfl⟩
      | cons n' p =>
        have hfalse : (Tree.nil : Tree ℕ).lookup (n' :: p) = none := by
          cases p <;> rfl
        have : prevEntry (some hollow) ("a" :: n' :: p) = (Tree.nil : Tree ℕ).lookup (n' :: p) := rfl
        rw [this, hfalse] at h
        cases h
    · have : hollow.lookup (n :: p) = none := by
        cases p with
        | nil => rw [Tree.lookup, hget, if_neg hn]
        | cons n' p =>
          rw [Tree.lookup, hget, if_neg hn]
          intro hf
          cases hf
      rw [prevEntry, Option.bind_some, this] at h
      cases h

theorem prevFile_hollow (p : Path) : prevFile (some hollow) p = none := by
  cases h : prevEntry (some hollow) p with
  | none => rw [prevFile, h, Entry.oid?_none]
  | some e =>
    obtain ⟨-, rfl⟩ := prevEntry_hollow h
    rw [prevFile, h, Entry.oid?_tree]

theorem sameKinds_hollow {disk : Disk ℕ} (h : disk.file ["a"] = none) : SameKinds disk (some hollow) := by
  intro p
  constructor
  · rw [prevFile_hollow]
    nofun
  · intro t ht
    obtain ⟨rfl, -⟩ := prevEntry_hollow ht
    exact h

/-- A third commit, of the missing directory `a`, is created though no file changed. -/
theorem not_snapshots_hollow : fullCommits [deepDisk, .empty] none = some hollow ∧
    ¬ ∀ (disk : Disk ℕ) (prev : Option (Tree ℕ)) (paths : Option (List Path)),
      (∀ t ∈ prev, t.Ordered) → SameKinds disk prev →
        Snapshots plainEnv (fun _ => false) disk prev paths := by
  refine ⟨fullCommits_deep, fun hall => ?_⟩
  obtain ⟨resp, index, hresp, -, -, -, hnoop⟩ := hall .empty (some hollow) (some [["a"]])
    (by rintro t ⟨⟩; exact hollow_ordered) (sameKinds_hollow rfl)
  have heval : (commitWith plainEnv (fun _ => false) .empty (some hollow) (some [["a"]]) false
      none).toOption.map (fun r => (r.1.isNoop, r.1.tree (some hollow))) = some (false, .nil) := by
    decide +kernel
  rw [hresp] at heval
  obtain ⟨hfalse, htree⟩ := Prod.mk.inj (Option.some.inj heval)
  have hnil : resp.tree (some hollow) = .nil := htree
  have htrue := hnoop.2 fun q oid => by
    have hnone : (q, oid) ∉ hollow.flatten := by
      rw [Tree.mem_flatten hollow_ordered]
      intro h
      have := (prevFile_hollow q).symm.trans h
      cases this
    refine iff_of_false ?_ hnone
    rw [hnil]
    simp [Tree.flatten, Tree.leaves]
  rw [hfalse] at htrue
  cases htrue

/-- The file `y` on disk. -/
def besides : Disk ℕ := (Disk.empty.write [] "y" 2 0).getD .empty

/-- A commit of the missing directory `a` and of the new file `y`. -/
theorem snapshots_iff_besides :
    Snapshots plainEnv (fun _ => false) besides (some hollow) (some [["a"], ["y"]]) :=
  (snapshots_iff plainEnv (fun _ => false) besides (some hollow) (some [["a"], ["y"]])
    (by rintro t ⟨⟩; exact hollow_ordered) (sameKinds_hollow (by decide +kernel))).2
    (.inl ⟨["y"], ⟨["y"], by decide, List.prefix_rfl⟩, by
      rw [prevFile_hollow]
      decide +kernel⟩)

end OpenViking.Git
