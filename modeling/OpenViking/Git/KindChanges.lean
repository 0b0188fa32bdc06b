import OpenViking.Git.CommitKinds
import OpenViking.Git.Restore

/-!
# Restores of paths that change kind

A restore of a clean working tree when files of the source are directories on disk, or the reverse
(`crates/ragfs/src/git/service.rs`, 980-1341), next to what `CommitKinds` has of commits.

The write-back comes before the deletes, so that a file of the head is still on disk when the directory
of that name is to be made, and a directory when the file is.  Results:

* `restoresClean_iff`: exactly when a restore succeeds and leaves the source on disk;
* `kinds_iff`: the same of commits and restores.
-/

namespace OpenViking.Git

namespace RestoreRequest

variable {B O : Type*}

/-- An applied answer means that every file was written. -/
theorem written_of_applied {base : Path} {d : RestoreDiff O} {phase : Path → WritePhase}
    {failed : List Path} {resp : RestoreResponse O} (h : answer base d phase failed = .ok resp) :
    ∀ e ∈ d.toWrite, phase e.1 = .written := by
  intro e he
  rw [answer] at h
  split at h
  · rename_i hif
    by_contra hne
    have hmem : base ++ e.1 ∈ (d.toWrite.filter fun e => decide (phase e.1 ≠ .written)).map
        fun e => base ++ e.1 :=
      List.mem_map.2 ⟨e, List.mem_filter.2 ⟨he, decide_eq_true hne⟩, rfl⟩
    rw [hif.1] at hmem
    cases hmem
  · cases h

variable [DecidableEq O]

/-- Every run of a restore is applied, or finds nothing to do, and leaves the source on disk. -/
def RestoresClean (blob : O → B) (now : ℤ) (disk : Disk B) (req : RestoreRequest O) : Prop :=
  (∃ res disk' commit, Restores blob now disk req res disk' commit) ∧
    ∀ res disk' commit, Restores blob now disk req res disk' commit →
      disk'.Holds blob req.base req.source ∧
        ((∃ written deleted unchanged, res = .ok (.applied written deleted unchanged)) ∨
          (res = .ok .noop ∧ disk.Holds blob req.base req.source))

/-- The source has the project, which is no file on disk, and nothing on disk is in the way of any file
of the source. -/
def FilesFit (disk : Disk B) (req : RestoreRequest O) : Prop :=
  req.subtrees.isSome = true ∧ disk.file req.base = none ∧
    ∀ q, req.base <+: q → (req.source.file q).isSome = true → disk.Fits q

section Clean

variable {blob : O → B} {now : ℤ} {disk disk' : Disk B} {req : RestoreRequest O}
  {sub : Tree O × Option (Tree O)} {w : Writeback B}

theorem fits_of_file {p : Path} {b : B} (h : disk.file p = some b) : disk.Fits p := by
  obtain ⟨t, hstat⟩ := Disk.stat_of_file h
  refine ⟨by rw [Disk.isDir, hstat], fun f hu => ?_⟩
  rw [Disk.file, Disk.stat_above hstat hu]

/-- A restore whose runs all succeed has nothing in its way. -/
theorem filesFit_of_restoresClean (hhead : req.head.Ordered) (hsource : req.source.Ordered)
    (hdry : req.dryRun = false) (hclean : disk.Holds blob req.base req.head)
    (h : RestoresClean blob now disk req) : FilesFit disk req := by
  obtain ⟨⟨res, disk', commit, hrun⟩, hall⟩ := h
  obtain ⟨hholds, hres⟩ := hall res disk' commit hrun
  cases hrun with
  | missing hsub => rcases hres with ⟨_, _, _, h⟩ | ⟨h, -⟩ <;> cases h
  | dryRun _ h =>
    rw [hdry] at h
    cases h
  | noop hsub _ hwrite hdelete =>
    obtain ⟨-, hnone, -⟩ := subtrees_source hsub hsource
    refine ⟨by rw [hsub]; rfl, ?_, fun q hpre hsome => ?_⟩
    · rw [hholds _ List.prefix_rfl, hnone]
      rfl
    · obtain ⟨oid, hoid⟩ := Option.isSome_iff_exists.1 hsome
      have hfile := hholds q hpre
      rw [hoid] at hfile
      exact fits_of_file hfile
  | @applied sub hsub _ hdiff w hreach hdone dels hdels r hr =>
    obtain ⟨hord, hnone, hfile⟩ := subtrees_source hsub hsource
    have hwritten : ∀ e ∈ (diff sub).toWrite, w.phase e.1 = .written := by
      rcases hres with ⟨_, _, _, h⟩ | ⟨h, -⟩
      · exact written_of_applied h
      · exact written_of_applied h
    have hinv := Writeback.inv_of_reaches (content_ne_nil hord req.base) hreach
    have hfits : ∀ e ∈ (diff sub).toWrite, disk.Fits (req.base ++ e.1) := fun e he =>
      Writeback.fits_of_written hinv ((content_eq_some hord).2 ⟨e.2, he, rfl⟩) (hwritten e he)
    -- the project is no file on disk, or there would be nothing to delete and no way to write
    have hroot : disk.file req.base = none := by
      by_contra hbase
      have hhead' := hclean _ List.prefix_rfl
      obtain ⟨oid, hoid⟩ : ∃ oid, req.head.file req.base = some oid := by
        rcases h : req.head.file req.base with _ | oid
        · rw [h] at hhead'
          exact absurd hhead' hbase
        · exact ⟨oid, rfl⟩
      have hnil := headFiles_eq_nil hsub hoid
      refine hdiff ⟨List.eq_nil_iff_forall_not_mem.2 fun e he => ?_,
        List.eq_nil_iff_forall_not_mem.2 fun rel hrel => ?_⟩
      · have hne : e.1 ≠ [] := by
          intro heq
          have := ((diff_toWrite hord e).1 he).1
          rw [heq] at this
          cases this
        exact hbase ((hfits e he).2 _ (under_iff.2 ⟨e.1, hne, rfl⟩))
      · have := ((diff_toDelete hord).1 hrel).1
        rw [hnil] at this
        cases this
    refine ⟨by rw [hsub]; rfl, hroot, ?_⟩
    rintro q ⟨rel, rfl⟩ hsome
    obtain ⟨oid, hoid⟩ := Option.isSome_iff_exists.1 hsome
    rw [hfile] at hoid
    by_cases hmem : (rel, oid) ∈ (diff sub).toWrite
    · exact hfits _ hmem
    · have hlookup : (headFiles sub).lookup rel = some oid := by
        by_contra hne
        exact hmem ((diff_toWrite hord _).2 ⟨hoid, hne⟩)
      have := disk_file hsub hhead hclean hroot rel
      rw [hlookup] at this
      exact fits_of_file this

/-- **A restore of a clean working tree succeeds and leaves the source on disk** if and only if the source
has the project and nothing is in the way of its files. -/
theorem restoresClean_iff (hhead : req.head.Ordered) (hsource : req.source.Ordered)
    (hdry : req.dryRun = false) (hclean : disk.Holds blob req.base req.head) :
    RestoresClean blob now disk req ↔ FilesFit disk req := by
  refine ⟨filesFit_of_restoresClean hhead hsource hdry hclean, fun ⟨hsome, hroot, hfits⟩ => ?_⟩
  refine ⟨exists_restores blob now disk req, fun res disk' commit h => ?_⟩
  obtain ⟨sub, hsub⟩ := Option.isSome_iff_exists.1 hsome
  obtain ⟨hord, -, hfile⟩ := subtrees_source hsub hsource
  have hfiles := disk_file hsub hhead hclean hroot
  cases h with
  | missing h =>
    rw [hsub] at h
    cases h
  | dryRun _ h =>
    rw [hdry] at h
    cases h
  | noop h _ hwrite hdelete =>
    obtain rfl := Option.some.inj (hsub.symm.trans h)
    have hholds := holds_of_performs hsub hsource hfiles
      (performs_noop now hwrite hdelete req.base)
    exact ⟨hholds, .inr ⟨rfl, hholds⟩⟩
  | applied h _ _ hrun hdone hdels hr =>
    obtain rfl := Option.some.inj (hsub.symm.trans h)
    have hall := written_of_fits hord (fun rel hrel => hfits _ (List.prefix_append _ _)
      (by rwa [hfile])) hrun hdone
    have hinv := Writeback.inv_of_reaches (content_ne_nil hord req.base) hrun
    obtain ⟨hfailed, hperf⟩ := performs_of_written hfiles hord hinv hall hdels
      (pruneCandidates (diff sub).toDelete)
    rw [hr] at hfailed hperf
    rw [hfailed, answer_of_written hall]
    exact ⟨holds_of_performs hsub hsource hfiles hperf, .inl ⟨_, _, _, rfl⟩⟩

end Clean

end RestoreRequest

section Kinds

variable {B O : Type*} [DecidableEq O]

/-- **Snapshots of paths that change kind**: a commit records the tracked files of its scope exactly when
the kinds fit, and a restore of a clean working tree succeeds exactly when nothing is in its way. -/
theorem kinds_iff (env : Env B O) (disk : Disk B) (prev : Option (Tree O)) (paths : Option (List Path))
    (hprev : ∀ t ∈ prev, t.Ordered) (blob : O → B) (now : ℤ) (disk' : Disk B) (req : RestoreRequest O)
    (hhead : req.head.Ordered) (hsource : req.source.Ordered) (hdry : req.dryRun = false)
    (hclean : disk'.Holds blob req.base req.head) :
    (CommitsScope env disk prev paths ↔ KindsFit env disk prev paths) ∧
      (req.RestoresClean blob now disk' ↔ req.FilesFit disk') :=
  ⟨commitsScope_iff hprev, RestoreRequest.restoresClean_iff hhead hsource hdry hclean⟩

end Kinds

/-! ### A file that becomes a directory -/

/-- The file `a`. -/
def fileA : Tree ℕ := .blob "a" 1 .nil

/-- The file `a` on disk. -/
def diskA : Disk ℕ := (Disk.empty.write [] "a" 1 0).getD .empty

/-- The head has the file `a`, the source a directory `a` with the file `x`. -/
def fileToDirectory : RestoreRequest ℕ where
  headId := 7
  head := fileA
  source := .sub "a" (.blob "x" 2 .nil) .nil
  projectDir := none
  dryRun := false

/-- A full commit fails when the file `a` has become a directory, and so does the restore of such a
change. -/
theorem not_kinds_fileA :
    ¬ CommitsScope plainEnv deepDisk (some fileA) none ∧
      diskA.Holds id fileToDirectory.base fileToDirectory.head ∧
      ¬ fileToDirectory.RestoresClean id 5 diskA := by
  have hhead : fileToDirectory.head.Ordered := by decide +kernel
  have hsource : fileToDirectory.source.Ordered := by decide +kernel
  have hclean : diskA.Holds id fileToDirectory.base fileToDirectory.head :=
    (RestoreRequest.holds_iff hhead).2 (by decide +kernel)
  refine ⟨?_, hclean, fun h => ?_⟩
  · rintro ⟨m, resp, index, -, hresp, -⟩
    have heval : (commit plainEnv deepDisk (some fileA) none false none).toOption.isNone = true := by
      decide +kernel
    rw [hresp] at heval
    cases heval
  · obtain ⟨-, -, hfits⟩ := (RestoreRequest.restoresClean_iff hhead hsource rfl hclean).1 h
    have := (hfits ["a", "x"] List.nil_prefix (by decide +kernel)).2 ["a"] (by decide)
    revert this
    decide +kernel

/-- A commit of the path `a` alone, now a directory with a file, and a restore without kind changes. -/
theorem kinds_iff_fileA : CommitsScope plainEnv deepDisk (some fileA) (some [["a"]]) ∧
    RestoreRequest.oneProject.RestoresClean id 5 RestoreRequest.threeFiles := by
  have hord : fileA.Ordered := by decide +kernel
  have hhead : RestoreRequest.oneProject.head.Ordered := by decide +kernel
  have hsource : RestoreRequest.oneProject.source.Ordered := by decide +kernel
  obtain ⟨hcommit, hrestore⟩ := kinds_iff plainEnv deepDisk (some fileA) (some [["a"]])
    (by rintro t ⟨⟩; exact hord) id 5 RestoreRequest.threeFiles RestoreRequest.oneProject
    hhead hsource rfl ((RestoreRequest.holds_iff hhead).2 (by decide +kernel))
  have hkinds : RestoreRequest.oneProject.KeepsKinds RestoreRequest.threeFiles :=
    (RestoreRequest.keepsKinds_iff hsource).2 (by decide +kernel)
  refine ⟨hcommit.2 ⟨fun _ => false, rfl, fun q _ hfile => ?_⟩,
    hrestore.2 ⟨rfl, by decide +kernel, hkinds.source⟩⟩
  obtain ⟨oid, hoid⟩ := Option.isSome_iff_exists.1 hfile
  have hmem : (q, oid) ∈ Tree.leaves [] fileA := by
    rw [Tree.mem_leaves hord]
    exact ⟨q, rfl, hoid⟩
  obtain ⟨rfl, -⟩ : q = ["a"] ∧ oid = 1 := by simpa [fileA, Tree.leaves] using hmem
  refine ⟨fun _ => ⟨?_, fun _ => ⟨["a", "b", "x"], by decide, by decide +kernel, by decide +kernel⟩⟩,
    fun f hu hf => ?_⟩
  · rintro ⟨g, hg, hu⟩
    obtain rfl : g = ["a"] := by simpa [scopeOf] using hg
    exact absurd rfl hu.2
  · have hf' : f ∈ (["a"] : Path).inits := (List.mem_inits _ _).2 hu.1
    have hne := hu.2
    obtain rfl : f = [] := by
      rcases List.mem_cons.1 hf' with h | h
      · exact h
      · exact absurd (by simpa using h) hne
    cases hf

end OpenViking.Git
