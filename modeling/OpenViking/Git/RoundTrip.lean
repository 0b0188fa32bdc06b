import OpenViking.Git.Changes
import OpenViking.Git.KindChanges

/-!
# Commits and restores together

Full commits without a stat cache, where no path changes between file and directory, and restores.

Results:

* `commit_again`: a second commit of the same files changes nothing;
* `restore_of_commits`: a restore brings back the files of an earlier commit.
-/

namespace OpenViking.Git

theorem sameKinds_none {B O : Type*} {disk : Disk B} : SameKinds disk (none : Option (Tree O)) :=
  fun _ => ⟨(by cases ·), fun _ => (by cases ·)⟩

theorem sameKinds_empty {B O : Type*} (prev : Option (Tree O)) : SameKinds (.empty : Disk B) prev := fun p =>
  ⟨fun hp => by rw [Disk.stat, if_neg (Scan.ne_nil_of_prevFile hp)]; simp [Disk.empty], fun _ _ => by cases p <;> rfl⟩

section Commits

variable {B O : Type*} [DecidableEq O] {env : Env B O} {m : Path → Bool} {disk : Disk B} {prev : Option (Tree O)}
  {resp : CommitResponse O} {index : Dict Path (IndexEntry O)}

/-- What a full commit leaves. -/
theorem file_of_commit (hprev : ∀ t ∈ prev, t.Ordered) (hkind : SameKinds disk prev)
    (h : commitWith env m disk prev none false none = .ok (resp, index)) :
    (resp.tree prev).Ordered ∧ ∀ q, (resp.tree prev).file q = snapshot env m disk q := by
  obtain ⟨resp', index', h', hc⟩ := commitWith_spec env hprev none fun p hp =>
    stat_candidate_of_sameKinds hprev hkind hp
  obtain ⟨rfl, -⟩ := Prod.mk.inj (Except.ok.inj (h'.symm.trans h))
  exact ⟨hc.ordered, fun q => scope_of_sameKinds hprev hkind hc ⟨[], List.mem_singleton.2 rfl, List.nil_prefix⟩⟩

variable {t : Tree O}

/-- A commit of the files of the head is a `Noop`. -/
theorem commit_noop (ht : t.Ordered) (hfile : ∀ q, t.file q = snapshot env m disk q) :
    ∃ ignored index', commitWith env m disk (some t) none false none = .ok (.noop ignored, index') := by
  have hprev : ∀ t' ∈ some t, t'.Ordered := by
    rintro t' ⟨⟩
    exact ht
  have hon : ∀ q, (prevFile (some t) q).isSome = true →
      shouldTrackPath m q = true ∧ (disk.file q).isSome = true := by
    intro q hq
    rw [show prevFile (some t) q = _ from hfile q, snapshot] at hq
    split_ifs at hq with htrack
    · exact ⟨htrack, by simpa using hq⟩
    · cases hq
  obtain ⟨hcand, hremoved⟩ := Scan.adds_scan m disk hprev none
  -- a candidate is on disk, and the tree has its hash
  have hfiles : ∀ p ∈ (scan m disk (some t) none).candidates, ∃ bytes time,
      disk.stat p = some (.file bytes time) ∧ t.file p = some (env.hash bytes) := by
    intro p hp
    obtain ⟨htrack, g, hg, ht, hor⟩ := (hcand p).1 hp
    obtain rfl := List.mem_singleton.1 hg
    have hne := ((touched_dir rfl).1 ht).2.symm
    have hsome := (hor.resolve_left hne).elim id fun hq => (hon p hq).2
    obtain ⟨bytes, hbytes⟩ := Option.isSome_iff_exists.1 hsome
    obtain ⟨time, hstat⟩ := Disk.stat_of_file hbytes
    refine ⟨bytes, time, hstat, ?_⟩
    rw [hfile, snapshot, if_pos htrack, hbytes]
    rfl
  obtain ⟨resp', index', h', hc⟩ := commitWith_spec env hprev none fun p hp => by
    obtain ⟨bytes, time, hstat, -⟩ := hfiles p hp
    simp [hstat]
  have hnoop : resp'.isNoop = true := by
    refine hc.noop.2 ⟨List.eq_nil_iff_forall_not_mem.2 fun q hq => ?_, fun p hp hch => ?_⟩
    · obtain ⟨htrack, hq, -⟩ := (hremoved q).1 hq
      rw [(hon q hq).1] at htrack
      cases htrack
    · obtain ⟨bytes, time, hstat, hoid⟩ := hfiles p hp
      rw [Changes, hstat] at hch
      exact hch (Scan.entry_of_prevFile hoid)
  cases resp' with
  | noop ignored => exact ⟨ignored, index', h'⟩
  | created => cases hnoop

/-- **A second commit of the same files is a `Noop`.** -/
theorem commit_again (hprev : ∀ t ∈ prev, t.Ordered) (hkind : SameKinds disk prev)
    (h : commitWith env m disk prev none false none = .ok (resp, index)) :
    ∃ ignored index', commitWith env m disk (some (resp.tree prev)) none false none = .ok (.noop ignored, index') :=
  have ⟨hord, hfile⟩ := file_of_commit hprev hkind h
  commit_noop hord hfile

/-- A first commit of the file `y`. -/
theorem commit_besides : ∃ resp index, commitWith plainEnv (fun _ => false) besides none none false none =
    .ok (resp, index) ∧ Committed plainEnv (fun _ => false) besides none none resp :=
  have hprev : ∀ t ∈ (none : Option (Tree ℕ)), t.Ordered := nofun
  commitWith_spec plainEnv hprev none fun _ hp => stat_candidate_of_sameKinds hprev sameKinds_none hp

theorem commit_again_besides : ∃ resp index,
    commitWith plainEnv (fun _ => false) besides none none false none = .ok (resp, index) ∧ ∃ ignored index',
      commitWith plainEnv (fun _ => false) besides (some (resp.tree none)) none false none =
        .ok (.noop ignored, index') := by
  obtain ⟨resp, index, h, -⟩ := commit_besides
  exact ⟨resp, index, h, commit_again nofun sameKinds_none h⟩

/-- **A restore brings back the files of an earlier commit.**  The first files are committed, then the
second, all tracked; where nothing of the second is in the way of a file of the first, every restore of the
first commit succeeds and leaves the first files. -/
theorem restore_of_commits {first second : Disk B} {resp' : CommitResponse O} {index' : Dict Path (IndexEntry O)}
    {blob : O → B} (hblob : ∀ b, blob (env.hash b) = b) (hprev : ∀ t ∈ prev, t.Ordered)
    (hkind : SameKinds first prev) (h : commitWith env m first prev none false none = .ok (resp, index))
    (hkind' : SameKinds second (some (resp.tree prev)))
    (h' : commitWith env m second (some (resp.tree prev)) none false none = .ok (resp', index'))
    (htrack : ∀ q, (first.file q).isSome = true → shouldTrackPath m q = true)
    (htrack' : ∀ q, (second.file q).isSome = true → shouldTrackPath m q = true)
    (hfits : ∀ q, (first.file q).isSome = true → second.Fits q) (now : ℤ) (headId : ℕ) :
    let req : RestoreRequest O := ⟨headId, resp'.tree (some (resp.tree prev)), resp.tree prev, none, false⟩
    (∃ res disk' commit, req.Restores blob now second res disk' commit) ∧
      ∀ res disk' commit, req.Restores blob now second res disk' commit →
        (∃ resp, res = .ok resp) ∧ ∀ q, disk'.file q = first.file q := by
  intro req
  obtain ⟨hord, hfile⟩ := file_of_commit hprev hkind h
  obtain ⟨hord', hfile'⟩ := file_of_commit (by rintro t ⟨⟩; exact hord) hkind' h'
  have hback : ∀ (d : Disk B) q, ((d.file q).isSome = true → shouldTrackPath m q = true) →
      (snapshot env m d q).map blob = d.file q := by
    intro d q hq
    rw [snapshot]
    cases hd : d.file q with
    | none => simp
    | some b => rw [if_pos (hq (by rw [hd]; rfl))]; exact congrArg some (hblob b)
  have hclean : second.Holds blob req.base req.head := fun q _ => by
    rw [hfile', hback second q (htrack' q)]
  obtain ⟨hexists, hall⟩ := (RestoreRequest.restoresClean_iff hord' hord rfl hclean).2
    ⟨rfl, rfl, fun q _ hq => hfits q (by rw [← hback first q (htrack q), ← hfile]; simpa using hq)⟩
  refine ⟨hexists, fun res disk' commit hrun => ?_⟩
  obtain ⟨hholds, hres⟩ := hall res disk' commit hrun
  refine ⟨?_, fun q => ?_⟩
  · rcases hres with ⟨_, _, _, rfl⟩ | ⟨rfl, -⟩ <;> exact ⟨_, rfl⟩
  · rw [hholds q List.nil_prefix, hfile, hback first q (htrack q)]

/-- The file `y` is committed, removed, and restored. -/
theorem restore_of_commits_besides : ∃ req : RestoreRequest ℕ,
    (∃ res disk' commit, req.Restores id 5 .empty res disk' commit) ∧
      ∀ res disk' commit, req.Restores id 5 .empty res disk' commit →
        (∃ resp, res = .ok resp) ∧ ∀ q, disk'.file q = besides.file q := by
  obtain ⟨resp, index, h, hc⟩ := commit_besides
  have hord : ∀ t ∈ some (resp.tree none), t.Ordered := by
    rintro t ⟨⟩
    exact hc.ordered
  have hkind' : SameKinds (.empty : Disk ℕ) (some (resp.tree none)) := sameKinds_empty _
  obtain ⟨resp', index', h', -⟩ := commitWith_spec plainEnv hord none fun p hp =>
    stat_candidate_of_sameKinds hord hkind' hp
  have hy : ∀ q, (besides.file q).isSome = true → q = ["y"] := fun q hq => by
    by_cases hne : q = []
    · rw [hne] at hq
      cases hq
    · exact List.mem_singleton.1 (Disk.mem_listUnder.2 ⟨⟨List.nil_prefix, Ne.symm hne⟩, hq⟩ : q ∈ besides.listUnder [])
  exact ⟨_, restore_of_commits (fun _ => rfl) (fun _ => (by cases ·)) sameKinds_none h hkind' h' (fun q hq => hy q hq ▸ by decide +kernel)
    (fun q hq => by cases q <;> cases hq) (fun q hq => hy q hq ▸ by decide +kernel) 5 0⟩

end Commits

end OpenViking.Git
