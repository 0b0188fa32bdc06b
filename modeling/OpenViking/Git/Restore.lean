import OpenViking.Git.EditorRuns
import OpenViking.Git.EditorSplice
import OpenViking.Git.Writeback

/-!
# Restore

A model of `GitService::restore_impl` (`crates/ragfs/src/git/service.rs`, 980-1341) on a working tree that
nothing else changes, with every object in the store and no other commit in the way.  Results:

* `written_of_fits`: what is on disk after a restore of a clean working tree;
* `restores_source`: the working tree and the new commit of a restore.
-/

namespace OpenViking.Git

variable {B O : Type*}

local instance Path.lawfulBEq : LawfulBEq Path := inferInstance

/-! ## The diff -/

/-- `RestoreDiff`. -/
structure RestoreDiff (O : Type*) where
  toWrite : List (Path × O)
  toDelete : List Path
  unchanged : List Path

/-- `compute_subtree_diff` (1781-1813). -/
def computeSubtreeDiff [DecidableEq O] (source head : List (Path × O)) : RestoreDiff O where
  toWrite := (source.filter fun e => decide (head.lookup e.1 ≠ some e.2)).mergeSort
    fun a b => pathLe a.1 b.1
  toDelete := ((head.filter fun e => (source.lookup e.1).isNone).map Prod.fst).mergeSort pathLe
  unchanged := ((source.filter fun e => decide (head.lookup e.1 = some e.2)).map
    Prod.fst).mergeSort pathLe

/-! ## The restore -/

/-- A commit object: its tree and its parents, by their numbers. -/
structure CommitObject (O : Type*) where
  tree : Tree O
  parents : List ℕ

/-- `RestoreRequest`, with the commits that it names. -/
structure RestoreRequest (O : Type*) where
  headId : ℕ
  head : Tree O
  source : Tree O
  projectDir : Option Path
  dryRun : Bool

inductive RestoreResponse (O : Type*) where
  | dryRun (diff : RestoreDiff O)
  | noop
  | applied (written deleted : List Path) (unchanged : ℕ)

/-- The paths that were written and deleted. -/
def RestoreResponse.paths : RestoreResponse O → List Path × List Path
  | .applied written deleted _ => (written, deleted)
  | _ => ([], [])

inductive RestoreError where
  | subtreeNotFoundInCommit
  | writebackPartial (written deleted failedWrites failedDeletes : List Path)

namespace RestoreRequest

/-- The path below which the restore works. -/
def base (req : RestoreRequest O) : Path := req.projectDir.getD []

/-- The subtrees of the source and of the head (1004-1044). -/
def subtrees (req : RestoreRequest O) : Option (Tree O × Option (Tree O)) :=
  match req.projectDir with
  | none => some (req.source, some req.head)
  | some dir =>
    match req.source.lookup dir with
    | some (.tree source) =>
      match req.head.lookup dir with
      | some (.tree head) => some (source, some head)
      | _ => some (source, none)
    | _ => none

/-- The diff of the subtrees (1048-1064). -/
def diff [DecidableEq O] (sub : Tree O × Option (Tree O)) : RestoreDiff O :=
  computeSubtreeDiff sub.1.flatten (sub.2.elim [] Tree.flatten)

/-- The tree of the new commit (1098-1121). -/
def newTree (req : RestoreRequest O) (source : Tree O) : Tree O :=
  match req.projectDir with
  | none => req.source
  | some dir =>
    match dir.getLast? with
    | some name => ((TreeEditor.fromTree req.head).upsertSubtree dir.dropLast name source).write
    | none => req.head

/-- What the restore answers after the write-back (1279-1339). -/
def answer (base : Path) (d : RestoreDiff O) (phase : Path → WritePhase) (failedDeletes : List Path) :
    Except RestoreError (RestoreResponse O) :=
  let written := (d.toWrite.filter fun e => decide (phase e.1 = .written)).map fun e => base ++ e.1
  let failed := (d.toWrite.filter fun e => decide (phase e.1 ≠ .written)).map fun e => base ++ e.1
  let deleted := (d.toDelete.filter fun rel => decide (rel ∉ failedDeletes)).map (base ++ ·)
  if failed = [] ∧ failedDeletes = [] then .ok (.applied written deleted d.unchanged.length)
  else .error (.writebackPartial written deleted failed (failedDeletes.map (base ++ ·)))

variable [DecidableEq O]

/-- The bytes that are to be written, by their paths below the project. -/
def content (blob : O → B) (sub : Tree O × Option (Tree O)) (rel : Path) : Option B :=
  ((diff sub).toWrite.lookup rel).map blob

/-- `restore_impl` (980-1341): a request can end with a response, a disk and a new commit. -/
inductive Restores (blob : O → B) (now : ℤ) (disk : Disk B) (req : RestoreRequest O) :
    Except RestoreError (RestoreResponse O) → Disk B → Option (CommitObject O) → Prop
  | missing (hsub : req.subtrees = none) :
    Restores blob now disk req (.error .subtreeNotFoundInCommit) disk none
  | dryRun {sub : Tree O × Option (Tree O)} (hsub : req.subtrees = some sub)
    (hdry : req.dryRun = true) : Restores blob now disk req (.ok (.dryRun (diff sub))) disk none
  | noop {sub : Tree O × Option (Tree O)} (hsub : req.subtrees = some sub)
    (hdry : req.dryRun = false) (hwrite : (diff sub).toWrite = [])
    (hdelete : (diff sub).toDelete = []) : Restores blob now disk req (.ok .noop) disk none
  | applied {sub : Tree O × Option (Tree O)} (hsub : req.subtrees = some sub)
    (hdry : req.dryRun = false) (hdiff : ¬ ((diff sub).toWrite = [] ∧ (diff sub).toDelete = []))
    {w : Writeback B} (hrun : Reaches (Writeback.step req.base (content blob sub) now)
      (fun _ _ => True) ⟨disk, fun _ => .waiting⟩ w)
    (hdone : ∀ e ∈ (diff sub).toWrite, w.Finished e.1)
    {dels : List Path} (hdels : dels.Perm (diff sub).toDelete) {r : Disk B × List Path}
    (hr : dels.foldl (deleteFile req.base) (w.disk, []) = r) :
    Restores blob now disk req (answer req.base (diff sub) w.phase r.2)
      ((pruneCandidates (diff sub).toDelete).foldl (pruneDir req.base) r.1)
      (some ⟨req.newTree sub.1, [req.headId]⟩)

end RestoreRequest

/-! ## The diff of two trees -/

section Diff

variable [DecidableEq O] {t : Tree O} {head : List (Path × O)} {rel : Path} {oid : O}

theorem mem_toWrite (h : t.Ordered) : (rel, oid) ∈ (computeSubtreeDiff t.flatten head).toWrite ↔
    t.file rel = some oid ∧ head.lookup rel ≠ some oid := by
  rw [computeSubtreeDiff, List.mem_mergeSort, List.mem_filter, Tree.mem_flatten h, decide_eq_true_eq]

/-- What is written: the source files that the head has not. -/
theorem lookup_toWrite (h : t.Ordered) (head : List (Path × O)) (rel : Path) :
    (computeSubtreeDiff t.flatten head).toWrite.lookup rel =
      if head.lookup rel = t.file rel then none else t.file rel := by
  refine Tree.lookup_eq_of_mem (f := fun rel =>
    if head.lookup rel = t.file rel then none else t.file rel) (fun p b => ?_) rel
  rw [mem_toWrite h]
  split
  · rename_i heq
    exact iff_of_false (fun ⟨h1, h2⟩ => h2 (heq.trans h1)) nofun
  · rename_i hne
    exact and_iff_left_of_imp fun h1 h2 => hne (h2.trans h1.symm)

/-- What is deleted: the head files that the source has not. -/
theorem mem_toDelete (h : t.Ordered) : rel ∈ (computeSubtreeDiff t.flatten head).toDelete ↔
    (head.lookup rel).isSome = true ∧ t.file rel = none := by
  rw [computeSubtreeDiff, List.mem_mergeSort, List.mem_map]
  simp only [List.mem_filter, Tree.lookup_flatten h, Option.isNone_iff_eq_none]
  constructor
  · rintro ⟨⟨p, b⟩, ⟨hmem, hnone⟩, rfl⟩
    obtain ⟨b', hb'⟩ := Tree.exists_lookup hmem
    exact ⟨by rw [hb']; rfl, hnone⟩
  · rintro ⟨hsome, hnone⟩
    obtain ⟨b, hb⟩ := Option.isSome_iff_exists.1 hsome
    exact ⟨(rel, b), ⟨Tree.mem_of_lookup hb, hnone⟩, rfl⟩

end Diff

/-! ## Clean working trees -/

/-- The files on disk at and below a path are those of a tree. -/
def Disk.Holds (disk : Disk B) (blob : O → B) (base : Path) (t : Tree O) : Prop :=
  ∀ q, base <+: q → disk.file q = (t.file q).map blob

namespace RestoreRequest

section Subtrees

variable {blob : O → B} {disk : Disk B} {req : RestoreRequest O} {sub : Tree O × Option (Tree O)}
  {rel : Path}

/-- The files of the head subtree. -/
def headFiles (sub : Tree O × Option (Tree O)) : List (Path × O) := sub.2.elim [] Tree.flatten

theorem subtrees_source (hsub : req.subtrees = some sub) (hsource : req.source.Ordered) :
    sub.1.Ordered ∧ req.source.file req.base = none ∧
      ∀ rel, req.source.file (req.base ++ rel) = sub.1.file rel := by
  rw [subtrees] at hsub
  rw [base]
  rcases hdir : req.projectDir with _ | dir
  · rw [hdir] at hsub
    obtain rfl := Option.some.inj hsub
    exact ⟨hsource, rfl, fun _ => rfl⟩
  · rw [hdir] at hsub
    dsimp only at hsub
    split at hsub
    · rename_i source hlookup
      have hfst : sub.1 = source := by
        split at hsub
        · rw [← Option.some.inj hsub]
        · rw [← Option.some.inj hsub]
      rw [Option.getD_some, hfst]
      refine ⟨Tree.ordered_of_lookup hsource hlookup, ?_, Tree.file_append hlookup⟩
      rw [Tree.file, hlookup]
      rfl
    · cases hsub

/-- The head subtree has the files of the head, unless the project is a file there. -/
theorem subtrees_head (hsub : req.subtrees = some sub) (hhead : req.head.Ordered)
    (hbase : req.head.file req.base = none) (rel : Path) :
    (headFiles sub).lookup rel = req.head.file (req.base ++ rel) := by
  rw [subtrees] at hsub
  rw [base] at hbase ⊢
  rcases hdir : req.projectDir with _ | dir
  · rw [hdir] at hsub
    obtain rfl := Option.some.inj hsub
    exact Tree.lookup_flatten hhead rel
  · rw [hdir] at hsub hbase
    dsimp only at hsub
    rw [Option.getD_some] at hbase ⊢
    split at hsub
    · have hdirne : dir ≠ [] := by
        rintro rfl
        rename_i hlookup
        cases hlookup
      split at hsub
      · rename_i head hlookup
        rw [← Option.some.inj hsub, Tree.file_append hlookup]
        exact Tree.lookup_flatten (Tree.ordered_of_lookup hhead hlookup) rel
      · rename_i hnot
        rw [← Option.some.inj hsub]
        by_cases hrel : rel = []
        · rw [hrel, List.append_nil, hbase]
          rfl
        · rw [Tree.file_append_of_ne hdirne hnot hrel]
          rfl
    · cases hsub

/-- A head that has a file at the project has no subtree there. -/
theorem headFiles_eq_nil (hsub : req.subtrees = some sub) {oid : O}
    (hbase : req.head.file req.base = some oid) : headFiles sub = [] := by
  rw [subtrees] at hsub
  rw [base] at hbase
  rcases hdir : req.projectDir with _ | dir
  · rw [hdir] at hbase
    cases hbase
  · rw [hdir] at hsub hbase
    dsimp only at hsub
    rw [Option.getD_some] at hbase
    split at hsub
    · split at hsub
      · rename_i head hlookup
        rw [Tree.file, hlookup] at hbase
        cases hbase
      · rw [← Option.some.inj hsub]
        rfl
    · cases hsub

theorem base_append_ne_nil {t : Tree O} {oid : O} (h : t.file rel = some oid) (base : Path) :
    base ++ rel ≠ [] := by
  refine List.append_ne_nil_of_right_ne_nil _ ?_
  rintro rfl
  cases h

theorem disk_file (hsub : req.subtrees = some sub) (hhead : req.head.Ordered)
    (hclean : disk.Holds blob req.base req.head) (hroot : disk.file req.base = none) (rel : Path) :
    disk.file (req.base ++ rel) = ((headFiles sub).lookup rel).map blob := by
  have hbase : req.head.file req.base = none := by
    have := hclean req.base List.prefix_rfl
    rw [hroot] at this
    exact Option.map_eq_none_iff.1 this.symm
  rw [subtrees_head hsub hhead hbase]
  exact hclean _ (List.prefix_append _ _)

end Subtrees

/-! ## What a restore does -/

/-- A disk after the writes and deletes of a diff, and no others. -/
structure Performs (blob : O → B) (now : ℤ) (base : Path) (d : RestoreDiff O) (disk disk' : Disk B) :
    Prop where
  written : ∀ e ∈ d.toWrite, disk'.stat (base ++ e.1) = some (.file (blob e.2) now)
  deleted : ∀ rel ∈ d.toDelete, disk'.file (base ++ rel) = none
  others : ∀ q, (∀ e ∈ d.toWrite, q ≠ base ++ e.1) → (∀ rel ∈ d.toDelete, q ≠ base ++ rel) →
    disk.SameFile disk' q

section Runs

variable [DecidableEq O] {blob : O → B} {now : ℤ} {disk disk' : Disk B} {req : RestoreRequest O}
  {sub : Tree O × Option (Tree O)} {rel : Path} {w : Writeback B}

section

variable (h : sub.1.Ordered)

include h

theorem diff_toWrite (e : Path × O) : e ∈ (diff sub).toWrite ↔
    sub.1.file e.1 = some e.2 ∧ (headFiles sub).lookup e.1 ≠ some e.2 := mem_toWrite h

theorem diff_toDelete : rel ∈ (diff sub).toDelete ↔
    ((headFiles sub).lookup rel).isSome = true ∧ sub.1.file rel = none := mem_toDelete h

theorem content_eq_some {bytes : B} : content blob sub rel = some bytes ↔
    ∃ oid, (rel, oid) ∈ (diff sub).toWrite ∧ blob oid = bytes := by
  have hlookup : (diff sub).toWrite.lookup rel =
      if (headFiles sub).lookup rel = sub.1.file rel then none else sub.1.file rel :=
    lookup_toWrite h _ rel
  simp only [content, Option.map_eq_some_iff]
  refine exists_congr fun oid => and_congr_left fun _ => ?_
  rw [diff_toWrite h, hlookup]
  dsimp only
  split
  · rename_i heq
    exact iff_of_false nofun fun ⟨h1, h2⟩ => h2 (heq.trans h1)
  · rename_i hne
    exact (and_iff_left_of_imp fun h1 h2 => hne (h2.trans h1.symm)).symm

theorem content_ne_nil (base : Path) (rel : Path)
    (hc : (content blob sub rel).isSome = true) : base ++ rel ≠ [] := by
  obtain ⟨bytes, hbytes⟩ := Option.isSome_iff_exists.1 hc
  obtain ⟨oid, hmem, -⟩ := (content_eq_some h).1 hbytes
  exact base_append_ne_nil ((diff_toWrite h _).1 hmem).1 base

/-- No file of the diff is above another. -/
theorem content_not_under (r r' : Path) (hr : (content blob sub r).isSome = true)
    (hr' : (content blob sub r').isSome = true) : ¬ Under r r' := by
  rintro ⟨hpre, hne⟩
  obtain ⟨b, hb⟩ := Option.isSome_iff_exists.1 hr
  obtain ⟨b', hb'⟩ := Option.isSome_iff_exists.1 hr'
  obtain ⟨oid, hmem, -⟩ := (content_eq_some h).1 hb
  obtain ⟨oid', hmem', -⟩ := (content_eq_some h).1 hb'
  exact hne (Tree.eq_of_prefix ((diff_toWrite h _).1 hmem).1 ((diff_toWrite h _).1 hmem').1 hpre)

end

/-- A write-back changes no file but its targets. -/
theorem sameFile_writeback (hord : sub.1.Ordered)
    (hinv : Writeback.Inv disk req.base (content blob sub) now w) {q : Path}
    (hq : ∀ e ∈ (diff sub).toWrite, q ≠ req.base ++ e.1) : disk.SameFile w.disk q := by
  rcases hinv.atPath q with hs | ⟨hnone, hdir, -⟩ | ⟨r, bytes, rfl, hc, -, -, -⟩
  · exact Disk.sameFile_of_stat hs
  · intro b t
    rw [hnone, hdir]
    exact iff_of_false nofun nofun
  · obtain ⟨oid, hmem, -⟩ := (content_eq_some hord).1 hc
    exact absurd rfl (hq _ hmem)

/-- What a finished write-back without failures, the deletes and the pruning leave. -/
theorem performs_of_written (hfiles : ∀ rel, disk.file (req.base ++ rel) =
      ((headFiles sub).lookup rel).map blob) (hord : sub.1.Ordered)
    (hinv : Writeback.Inv disk req.base (content blob sub) now w)
    (hall : ∀ e ∈ (diff sub).toWrite, w.phase e.1 = .written) {dels : List Path}
    (hdels : dels.Perm (diff sub).toDelete) (cands : List Path) :
    (dels.foldl (deleteFile req.base) (w.disk, [])).2 = [] ∧
      Performs blob now req.base (diff sub) disk
        (cands.foldl (pruneDir req.base) (dels.foldl (deleteFile req.base) (w.disk, [])).1) := by
  have hsame : ∀ q, (∀ e ∈ (diff sub).toWrite, q ≠ req.base ++ e.1) → disk.SameFile w.disk q :=
    fun q hq => sameFile_writeback hord hinv hq
  have hdisjoint : ∀ r ∈ (diff sub).toDelete, ∀ e ∈ (diff sub).toWrite,
      req.base ++ r ≠ req.base ++ e.1 := by
    intro r hr e he heq
    have hnone := ((diff_toDelete hord).1 hr).2
    rw [List.append_cancel_left heq, ((diff_toWrite hord e).1 he).1] at hnone
    cases hnone
  have hsome : ∀ r ∈ (diff sub).toDelete, (w.disk.file (req.base ++ r)).isSome = true := by
    intro r hr
    rw [(hsame _ (hdisjoint r hr)).file, hfiles, Option.isSome_map]
    exact ((diff_toDelete hord).1 hr).1
  have hne : ∀ r ∈ (diff sub).toDelete, req.base ++ r ≠ [] := by
    intro r hr hnil
    have := hsome r hr
    rw [hnil, Disk.file, Disk.stat, if_pos rfl] at this
    cases this
  obtain ⟨hfailed, hstat⟩ := deleteFile_foldl (d := w.disk) [] (fun r hr => hne r (hdels.mem_iff.1 hr))
    fun r hr => .inr (hsome r (hdels.mem_iff.1 hr))
  refine ⟨hfailed, fun e he => ?_, fun r hr => ?_, fun q hw hd => ?_⟩
  · refine (sameFile_prune cands (req.base ++ e.1) _ _).2 ?_
    have hc : content blob sub e.1 = some (blob e.2) := (content_eq_some hord).2 ⟨e.2, he, rfl⟩
    rw [hstat _ (content_ne_nil hord _ _ (by rw [hc]; rfl)), if_neg]
    · exact hinv.written e.1 _ hc (hall e he)
    · rintro ⟨r, hr, heq⟩
      exact hdisjoint r (hdels.mem_iff.1 hr) e he heq.symm
  · rw [(sameFile_prune cands (req.base ++ r)).file]
    apply Disk.file_eq_none_of_stat
    rw [hstat _ (hne r hr), if_pos ⟨r, hdels.mem_iff.2 hr, rfl⟩]
  · refine (hsame q hw).trans (Disk.SameFile.trans ?_ (sameFile_prune cands q))
    by_cases hq : q = []
    · subst hq
      exact Disk.sameFile_of_stat (by rw [Disk.stat, Disk.stat, if_pos rfl, if_pos rfl])
    · refine Disk.sameFile_of_stat ?_
      rw [hstat q hq, if_neg]
      rintro ⟨r, hr, heq⟩
      exact hd r (hdels.mem_iff.1 hr) heq

/-- The head has a file as the source has it, unless the diff names it. -/
theorem lookup_eq_of_not_mem (hord : sub.1.Ordered) (hw : ∀ oid, (rel, oid) ∉ (diff sub).toWrite)
    (hd : rel ∉ (diff sub).toDelete) : (headFiles sub).lookup rel = sub.1.file rel := by
  rcases hs : sub.1.file rel with _ | oid
  · rw [diff_toDelete hord] at hd
    by_contra hne
    exact hd ⟨Option.isSome_iff_ne_none.2 hne, hs⟩
  · by_contra hne
    exact hw oid ((diff_toWrite hord _).2 ⟨hs, hne⟩)

/-- After the writes and deletes, the working tree is that of the source. -/
theorem holds_of_performs (hsub : req.subtrees = some sub) (hsource : req.source.Ordered)
    (hfiles : ∀ rel, disk.file (req.base ++ rel) = ((headFiles sub).lookup rel).map blob)
    (h : Performs blob now req.base (diff sub) disk disk') : disk'.Holds blob req.base req.source := by
  obtain ⟨hord, -, hfile⟩ := subtrees_source hsub hsource
  rintro q ⟨rel, rfl⟩
  rw [hfile]
  by_cases hw : ∃ oid, (rel, oid) ∈ (diff sub).toWrite
  · obtain ⟨oid, hmem⟩ := hw
    rw [Disk.file_of_stat (h.written _ hmem), ((diff_toWrite hord _).1 hmem).1]
    rfl
  by_cases hd : rel ∈ (diff sub).toDelete
  · rw [h.deleted rel hd, ((diff_toDelete hord).1 hd).2]
    rfl
  have hsame : disk.SameFile disk' (req.base ++ rel) := by
    refine h.others _ (fun e he heq => hw ⟨e.2, ?_⟩) fun r hr heq => hd ?_
    · rw [List.append_cancel_left heq]
      exact he
    · rw [List.append_cancel_left heq]
      exact hr
  rw [hsame.file, hfiles, lookup_eq_of_not_mem hord (fun oid hmem => hw ⟨oid, hmem⟩) hd]

theorem sameFile_of_performs (h : Performs blob now req.base (diff sub) disk disk') {q : Path}
    (hq : ¬ req.base <+: q) : disk.SameFile disk' q :=
  h.others q (fun _ _ heq => hq ⟨_, heq.symm⟩) fun _ _ heq => hq ⟨_, heq.symm⟩

theorem content_isSome (blob : O → B) (sub : Tree O × Option (Tree O)) :
    ∀ rel ∈ (diff sub).toWrite.map Prod.fst, (content blob sub rel).isSome = true := by
  intro rel hrel
  obtain ⟨e, he, rfl⟩ := List.mem_map.1 hrel
  obtain ⟨oid, hl⟩ := Tree.exists_lookup he
  rw [content, hl]
  rfl

/-- A restore can always be finished. -/
theorem exists_restores (blob : O → B) (now : ℤ) (disk : Disk B) (req : RestoreRequest O) :
    ∃ res disk' commit, Restores blob now disk req res disk' commit := by
  rcases hsub : req.subtrees with _ | sub
  · exact ⟨_, _, _, .missing hsub⟩
  cases hdry : req.dryRun with
  | true => exact ⟨_, _, _, .dryRun hsub hdry⟩
  | false =>
    by_cases hdiff : (diff sub).toWrite = [] ∧ (diff sub).toDelete = []
    · exact ⟨_, _, _, .noop hsub hdry hdiff.1 hdiff.2⟩
    · obtain ⟨w, hrun, hdone, -⟩ := Writeback.exists_finished req.base now
        ⟨disk, fun _ => .waiting⟩ ((diff sub).toWrite.map Prod.fst) (content_isSome blob sub)
      exact ⟨_, _, _, .applied hsub hdry hdiff hrun
        (fun e he => hdone _ (List.mem_map_of_mem he)) (List.Perm.refl _) rfl⟩

end Runs

/-! ## Restores of clean working trees -/

/-- No path changes its kind: none on the way to the project is a file of the head, and nothing on disk is
in the way of a file of the source. -/
structure KeepsKinds (req : RestoreRequest O) (disk : Disk B) : Prop where
  head : ∀ p, p <+: req.base → req.head.file p = none
  source : ∀ q, req.base <+: q → (req.source.file q).isSome = true → disk.Fits q

section NewTree

variable {req : RestoreRequest O} {sub : Tree O × Option (Tree O)}

/-- The tree of the new commit is that of the head with the project of the source. -/
theorem newTree_spec (hsub : req.subtrees = some sub) (hhead : req.head.Ordered)
    (hsource : req.source.Ordered) (hkinds : ∀ p, p <+: req.base → req.head.file p = none) :
    (req.newTree sub.1).Ordered ∧ ∀ q, (req.newTree sub.1).file q =
      if req.base <+: q then req.source.file q else req.head.file q := by
  obtain ⟨hord, -, hfile⟩ := subtrees_source hsub hsource
  rw [newTree]
  rw [base] at hfile hkinds ⊢
  rcases hdir : req.projectDir with _ | dir
  · exact ⟨hsource, fun q => (if_pos List.nil_prefix).symm⟩
  · rw [hdir, Option.getD_some] at hfile hkinds
    obtain ⟨name, hname⟩ : ∃ name, dir.getLast? = some name := by
      refine Option.ne_none_iff_exists'.1 fun h => ?_
      rw [List.getLast?_eq_none_iff] at h
      rw [subtrees, hdir, h] at hsub
      cases hsub
    have hsplit : dir.dropLast ++ [name] = dir := List.dropLast_append_getLast? name hname
    have htrees : TreeEditor.Trees (fun _ t => t.Ordered) (TreeEditor.fromTree req.head) := by
      intro d hd n c hn
      obtain rfl : d = [] := hd.resolve_right nofun
      exact Tree.ordered_of_get_load hhead hn
    have hclosed : (TreeEditor.fromTree req.head).Closed := nofun
    have hclear : (TreeEditor.fromTree req.head).Clear dir.dropLast := fun _ _ h => by cases h
    obtain ⟨hclosed', htrees', hat, hoff⟩ :=
      TreeEditor.upsertSubtree_spec hclosed hclear htrees name hord
    dsimp only
    rw [hname, Option.getD_some]
    refine ⟨TreeEditor.ordered_write htrees', fun q => ?_⟩
    rw [TreeEditor.file_write hclosed' htrees']
    rw [hsplit] at hat hoff
    split
    · rename_i hpre
      obtain ⟨rel, rfl⟩ := hpre
      rw [hat, hfile]
    · rename_i hpre
      rw [hoff q hpre, TreeEditor.file_fromTree]
      split
      · rename_i hq
        exact (hkinds q (hq.trans (List.dropLast_prefix _))).symm
      · rfl

end NewTree

/-- The outcome of a restore that makes the working tree equal the source. -/
structure Restored [DecidableEq O] (blob : O → B) (now : ℤ) (disk : Disk B) (req : RestoreRequest O)
    (resp : RestoreResponse O) (disk' : Disk B) (commit : Option (CommitObject O)) : Prop where
  answer : (resp = .noop ∧ commit = none) ∨
    (∃ written deleted unchanged, resp = .applied written deleted unchanged) ∧ commit.isSome = true
  source : disk'.Holds blob req.base req.source
  others : ∀ q, ¬ req.base <+: q → disk.SameFile disk' q
  tree : ∀ q oid, (q, oid) ∈ (commit.elim req.head CommitObject.tree).flatten ↔
    (q, oid) ∈ (if req.base <+: q then req.source else req.head).flatten
  parents : ∀ c ∈ commit, c.parents = [req.headId]
  dryRun : ∃ d, (∀ res disk₀ commit₀,
      Restores blob now disk { req with dryRun := true } res disk₀ commit₀ ↔
        res = .ok (.dryRun d) ∧ disk₀ = disk ∧ commit₀ = none) ∧
    resp.paths.1.Perm (d.toWrite.map fun e => req.base ++ e.1) ∧
    resp.paths.2.Perm (d.toDelete.map (req.base ++ ·)) ∧
    Performs blob now req.base d disk disk'

/-- The answer when nothing failed. -/
theorem answer_of_written {base : Path} {d : RestoreDiff O} {phase : Path → WritePhase}
    (hall : ∀ e ∈ d.toWrite, phase e.1 = .written) : answer base d phase [] =
      .ok (.applied (d.toWrite.map fun e => base ++ e.1) (d.toDelete.map (base ++ ·))
        d.unchanged.length) := by
  have hwritten : (d.toWrite.filter fun e => decide (phase e.1 = .written)) = d.toWrite :=
    List.filter_eq_self.2 fun e he => decide_eq_true (hall e he)
  have hfailed : (d.toWrite.filter fun e => decide (phase e.1 ≠ .written)) = [] :=
    List.filter_eq_nil_iff.2 fun e he => by simp [hall e he]
  have hdeleted : (d.toDelete.filter fun rel => decide (rel ∉ ([] : List Path))) = d.toDelete :=
    List.filter_eq_self.2 fun _ _ => rfl
  rw [answer, hwritten, hfailed, hdeleted]
  exact if_pos ⟨rfl, rfl⟩

section Clean

variable [DecidableEq O] {blob : O → B} {now : ℤ} {disk disk' : Disk B} {req : RestoreRequest O}
  {sub : Tree O × Option (Tree O)} {res : Except RestoreError (RestoreResponse O)}
  {commit : Option (CommitObject O)}

/-- A dry run says what is to be written and deleted, and does nothing. -/
theorem restores_dryRun (hsub : req.subtrees = some sub) (hdry : req.dryRun = true) :
    Restores blob now disk req res disk' commit ↔
      res = .ok (.dryRun (diff sub)) ∧ disk' = disk ∧ commit = none := by
  constructor
  · rintro (h | ⟨h, -⟩ | ⟨-, h, -, -⟩ | ⟨-, h, -, -, -, -, -⟩)
    · rw [hsub] at h
      cases h
    · rw [hsub] at h
      obtain rfl := Option.some.inj h
      exact ⟨rfl, rfl, rfl⟩
    · rw [hdry] at h
      cases h
    · rw [hdry] at h
      cases h
  · rintro ⟨rfl, rfl, rfl⟩
    exact .dryRun hsub hdry

/-- An empty diff performs nothing. -/
theorem performs_noop (now : ℤ) (hwrite : (diff sub).toWrite = [])
    (hdelete : (diff sub).toDelete = []) (base : Path) : Performs blob now base (diff sub) disk disk where
  written e he := by
    rw [hwrite] at he
    cases he
  deleted rel hrel := by
    rw [hdelete] at hrel
    cases hrel
  others _ _ _ := Disk.sameFile_of_stat rfl

/-- Where nothing is in the way of any file of the source, every task of the write-back ends well. -/
theorem written_of_fits (hord : sub.1.Ordered)
    (hfits : ∀ rel, (sub.1.file rel).isSome = true → disk.Fits (req.base ++ rel)) {w : Writeback B}
    (hrun : Reaches (Writeback.step req.base (content blob sub) now) (fun _ _ => True)
      ⟨disk, fun _ => .waiting⟩ w) (hdone : ∀ e ∈ (diff sub).toWrite, w.Finished e.1) :
    ∀ e ∈ (diff sub).toWrite, w.phase e.1 = .written := by
  intro e he
  refine (hdone e he).resolve_right (Writeback.ne_failed_of_reaches (content_ne_nil hord req.base)
    (fun rel hrel => hfits rel ?_) (content_not_under hord) hrun e.1)
  obtain ⟨bytes, hbytes⟩ := Option.isSome_iff_exists.1 hrel
  obtain ⟨oid, hmem, -⟩ := (content_eq_some hord).1 hbytes
  rw [((diff_toWrite hord _).1 hmem).1]
  rfl

/-- **A restore makes the working tree equal the source**: of a project that the source has, on a clean
working tree where no path changes its kind. -/
theorem restores_source (blob : O → B) (now : ℤ) (disk : Disk B) (req : RestoreRequest O)
    (hhead : req.head.Ordered) (hsource : req.source.Ordered) (hdry : req.dryRun = false)
    (hsub : req.subtrees.isSome = true) (hclean : disk.Holds blob req.base req.head)
    (hkinds : req.KeepsKinds disk) :
    (∃ res disk' commit, Restores blob now disk req res disk' commit) ∧
      ∀ res disk' commit, Restores blob now disk req res disk' commit →
        ∃ resp, res = .ok resp ∧ Restored blob now disk req resp disk' commit := by
  refine ⟨exists_restores blob now disk req, fun res disk' commit h => ?_⟩
  obtain ⟨sub, hsub⟩ := Option.isSome_iff_exists.1 hsub
  obtain ⟨hord, -, hfile⟩ := subtrees_source hsub hsource
  have hbase := hkinds.head _ List.prefix_rfl
  have hroot : disk.file req.base = none := by
    rw [hclean _ List.prefix_rfl, hbase]
    rfl
  have hfiles := disk_file hsub hhead hclean hroot
  have hdryRun : ∀ res disk₀ commit₀,
      Restores blob now disk { req with dryRun := true } res disk₀ commit₀ ↔
        res = .ok (.dryRun (diff sub)) ∧ disk₀ = disk ∧ commit₀ = none := fun _ _ _ =>
    restores_dryRun hsub rfl
  have hsplit : ∀ {t : Tree O}, t.Ordered → (∀ q, t.file q =
      if req.base <+: q then req.source.file q else req.head.file q) → ∀ q oid,
      (q, oid) ∈ t.flatten ↔ (q, oid) ∈ (if req.base <+: q then req.source else req.head).flatten := by
    intro t ht heq q oid
    rw [Tree.mem_flatten ht, heq]
    split
    · rw [Tree.mem_flatten hsource]
    · rw [Tree.mem_flatten hhead]
  cases h with
  | missing h =>
    rw [hsub] at h
    cases h
  | dryRun _ h =>
    rw [hdry] at h
    cases h
  | noop h _ hwrite hdelete =>
    obtain rfl := Option.some.inj (hsub.symm.trans h)
    have hperf : Performs blob now req.base (diff sub) disk disk :=
      performs_noop now hwrite hdelete req.base
    refine ⟨.noop, rfl, .inl ⟨rfl, rfl⟩, holds_of_performs hsub hsource hfiles hperf,
      fun q _ => Disk.sameFile_of_stat rfl, hsplit hhead fun q => ?_, nofun,
      diff sub, hdryRun, ?_, ?_, hperf⟩
    · split
      · rename_i hpre
        obtain ⟨rel, rfl⟩ := hpre
        show req.head.file _ = _
        rw [hfile, ← subtrees_head hsub hhead hbase]
        refine lookup_eq_of_not_mem hord (fun oid hmem => ?_) fun hmem => ?_
        · rw [hwrite] at hmem
          cases hmem
        · rw [hdelete] at hmem
          cases hmem
      · rfl
    · rw [hwrite]
      exact List.Perm.refl _
    · rw [hdelete]
      exact List.Perm.refl _
  | applied h _ _ hrun hdone hdels hr =>
    obtain rfl := Option.some.inj (hsub.symm.trans h)
    have hall := written_of_fits hord (fun rel hrel => hkinds.source _ (List.prefix_append _ _)
      (by rwa [hfile])) hrun hdone
    have hinv := Writeback.inv_of_reaches (content_ne_nil hord req.base) hrun
    obtain ⟨hfailed, hperf⟩ := performs_of_written hfiles hord hinv hall hdels
      (pruneCandidates (diff sub).toDelete)
    rw [hr] at hfailed hperf
    rw [hfailed, answer_of_written hall]
    obtain ⟨hnew, htree⟩ := newTree_spec hsub hhead hsource hkinds.head
    refine ⟨_, rfl, .inr ⟨⟨_, _, _, rfl⟩, rfl⟩, holds_of_performs hsub hsource hfiles hperf,
      fun q hq => sameFile_of_performs hperf hq, hsplit hnew htree, ?_,
      diff sub, hdryRun, List.Perm.refl _, List.Perm.refl _, hperf⟩
    rintro c ⟨⟩
    rfl

end Clean

/-! ### Checks -/

instance (disk : Disk B) (p : Path) : Decidable (disk.Fits p) :=
  decidable_of_iff (disk.isDir p = false ∧ ∀ f ∈ p.inits, f ≠ p → (disk.file f).isNone = true) (by
    simp only [List.mem_inits, Option.isNone_iff_eq_none]
    exact and_congr_right fun _ =>
      ⟨fun h f hu => h f hu.1 hu.2, fun h f hpre hne => h f ⟨hpre, hne⟩⟩)

/-- The files on disk can be compared with a tree one by one. -/
theorem holds_iff {disk : Disk B} {blob : O → B} {base : Path} {t : Tree O} (ht : t.Ordered) :
    disk.Holds blob base t ↔
      (∀ e ∈ disk.nodes.entries, base <+: e.1 → disk.file e.1 = (t.file e.1).map blob) ∧
      ∀ e ∈ Tree.leaves [] t, base <+: e.1 → disk.file e.1 = some (blob e.2) := by
  have hleaf : ∀ q oid, (q, oid) ∈ Tree.leaves [] t ↔ t.file q = some oid := fun q oid => by
    rw [← Tree.mem_flatten ht, Tree.flatten, List.mem_mergeSort]
  constructor
  · refine fun h => ⟨fun e _ hpre => h e.1 hpre, fun e he hpre => ?_⟩
    rw [h e.1 hpre, (hleaf e.1 e.2).1 he]
    rfl
  · rintro ⟨hentries, hleaves⟩ q hpre
    rcases ht' : t.file q with _ | oid
    · by_contra hfile
      obtain ⟨b, hb⟩ := Option.ne_none_iff_exists'.1 hfile
      obtain ⟨m, hstat⟩ := Disk.stat_of_file hb
      have hq : q ≠ [] := by
        rintro rfl
        rw [Disk.stat, if_pos rfl] at hstat
        cases hstat
      rw [Disk.stat, if_neg hq, Dict.get_eq_some_iff] at hstat
      have := hentries _ hstat hpre
      rw [ht', hb] at this
      cases this
    · exact hleaves (q, oid) ((hleaf q oid).2 ht') hpre

theorem keepsKinds_iff {req : RestoreRequest O} {disk : Disk B} (hsource : req.source.Ordered) :
    req.KeepsKinds disk ↔ (∀ p ∈ req.base.inits, (req.head.file p).isNone = true) ∧
      ∀ e ∈ Tree.leaves [] req.source, req.base <+: e.1 → disk.Fits e.1 := by
  have hleaf : ∀ q oid, (q, oid) ∈ Tree.leaves [] req.source ↔ req.source.file q = some oid :=
    fun q oid => by rw [← Tree.mem_flatten hsource, Tree.flatten, List.mem_mergeSort]
  simp only [List.mem_inits, Option.isNone_iff_eq_none]
  constructor
  · rintro ⟨h1, h2⟩
    refine ⟨h1, fun e he hpre => h2 e.1 hpre ?_⟩
    rw [(hleaf e.1 e.2).1 he]
    rfl
  · rintro ⟨h1, h2⟩
    refine ⟨h1, fun q hpre hsome => ?_⟩
    obtain ⟨oid, hoid⟩ := Option.isSome_iff_exists.1 hsome
    exact h2 (q, oid) ((hleaf q oid).2 hoid) hpre

/-- The files `p/f`, `p/k` and `z` on disk. -/
def threeFiles : Disk ℕ :=
  ((((Disk.empty.mkdirs [] ["p"]).bind fun d => d.write ["p"] "f" 1 0).bind fun d =>
    d.write ["p"] "k" 3 0).bind fun d => d.write [] "z" 9 0).getD .empty

/-- The project `p` with the files `f` and `k`, to be restored to one with another `f` and a `g`. -/
def oneProject : RestoreRequest ℕ where
  headId := 7
  head := .sub "p" (.blob "f" 1 (.blob "k" 3 .nil)) .nil
  source := .sub "p" (.blob "f" 2 (.blob "g" 4 .nil)) .nil
  projectDir := some ["p"]
  dryRun := false

/-- A restore of a project with a file to change, one to add and one to delete. -/
theorem restores_source_oneProject :
    (∃ res disk' commit, Restores id 5 threeFiles oneProject res disk' commit) ∧
      ∀ res disk' commit, Restores id 5 threeFiles oneProject res disk' commit →
        ∃ resp, res = .ok resp ∧ Restored id 5 threeFiles oneProject resp disk' commit :=
  have hhead : oneProject.head.Ordered := by decide +kernel
  have hsource : oneProject.source.Ordered := by decide +kernel
  restores_source id 5 threeFiles oneProject hhead hsource rfl rfl
    ((holds_iff hhead).2 (by decide +kernel)) ((keepsKinds_iff hsource).2 (by decide +kernel))

/-- The source has no project `p`. -/
def noProject : RestoreRequest ℕ := { oneProject with source := .blob "y" 2 .nil }

/-- A project that the source has not cannot be restored. -/
theorem not_restores_noProject :
    ¬ ∀ (disk : Disk ℕ) (req : RestoreRequest ℕ), req.head.Ordered → req.source.Ordered →
      req.dryRun = false → disk.Holds id req.base req.head → req.KeepsKinds disk →
      ∀ res disk' commit, Restores id 5 disk req res disk' commit →
        ∃ resp, res = .ok resp ∧ Restored id 5 disk req resp disk' commit := by
  intro h
  have hhead : noProject.head.Ordered := by decide +kernel
  have hsource : noProject.source.Ordered := by decide +kernel
  obtain ⟨resp, hresp, -⟩ := h threeFiles noProject hhead hsource rfl
    ((holds_iff hhead).2 (by decide +kernel)) ((keepsKinds_iff hsource).2 (by decide +kernel))
    _ _ _ (.missing rfl)
  cases hresp

end RestoreRequest

end OpenViking.Git
