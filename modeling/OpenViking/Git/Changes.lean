import OpenViking.Git.Restore

/-!
# What a restore changes

A restore (`crates/ragfs/src/git/service.rs`, 980-1341) on a working tree that need not be the one of the
head.  Results:

* `sameFile_of_restores`: a restore touches only files that its source and its head do not share;
* `exists_changes`: there is a working tree on which it touches each of them.
-/

namespace OpenViking.Git

variable {B O : Type*}

/-! ## Deletes -/

section Deletes

variable {base : Path} {s : Disk B × List Path}

/-- A delete that is answered takes the file away, and any other leaves the disk as it is. -/
theorem deleteFile_cases (base : Path) (s : Disk B × List Path) (rel : Path) :
    (deleteFile base s rel).1 = s.1 ∨
      ∀ q, q ≠ [] → (deleteFile base s rel).1.stat q =
        if q = base ++ rel then none else s.1.stat q := by
  rw [deleteFile]
  cases hremove : s.1.remove (base ++ rel) with
  | ok d' => exact .inr fun q hq => Disk.stat_remove hremove q hq
  | error e =>
    left
    cases e with
    | notFound => rfl
    | notEmpty => rfl

theorem sameFile_root (d d' : Disk B) : d.SameFile d' [] :=
  Disk.sameFile_of_stat (by rw [Disk.stat, Disk.stat, if_pos rfl, if_pos rfl])

/-- Deletes leave the files that they do not name. -/
theorem sameFile_deletes {q : Path} {dels : List Path} (hq : ∀ rel ∈ dels, q ≠ base ++ rel) :
    s.1.SameFile (dels.foldl (deleteFile base) s).1 q := by
  induction dels generalizing s with
  | nil => exact Disk.sameFile_of_stat rfl
  | cons rel dels ih =>
    rw [List.foldl_cons]
    refine Disk.SameFile.trans ?_ (ih fun r hr => hq r (List.mem_cons_of_mem _ hr))
    by_cases hroot : q = []
    · subst hroot
      exact sameFile_root s.1 _
    · rcases deleteFile_cases base s rel with hsame | hstat
      · exact Disk.sameFile_of_stat (by rw [hsame])
      · refine Disk.sameFile_of_stat ?_
        rw [hstat q hroot, if_neg (hq rel List.mem_cons_self)]

/-- Deletes make no files. -/
theorem file_deletes {q : Path} (hq : q ≠ []) (dels : List Path) (hnone : s.1.file q = none) :
    (dels.foldl (deleteFile base) s).1.file q = none := by
  induction dels generalizing s with
  | nil => exact hnone
  | cons rel dels ih =>
    rw [List.foldl_cons]
    apply ih
    rcases deleteFile_cases base s rel with hsame | hstat
    · rw [hsame, hnone]
    · rw [Disk.file, hstat q hq]
      split_ifs
      · rfl
      · exact hnone

/-- A file that a delete names is gone. -/
theorem file_deleted {rel : Path} {dels : List Path} (hmem : rel ∈ dels) (hne : base ++ rel ≠ [])
    (hfile : (s.1.file (base ++ rel)).isSome = true) :
    (dels.foldl (deleteFile base) s).1.file (base ++ rel) = none := by
  induction dels generalizing s with
  | nil => cases hmem
  | cons r dels ih =>
    rw [List.foldl_cons]
    by_cases hr : r = rel
    · apply file_deletes hne
      obtain ⟨b, hb⟩ := Option.isSome_iff_exists.1 hfile
      obtain ⟨d', hremove⟩ := Disk.remove_file hb
      rw [hr, deleteFile, hremove]
      apply Disk.file_eq_none_of_stat
      rw [Disk.stat_remove hremove _ hne, if_pos rfl]
    · apply ih ((List.mem_cons.1 hmem).resolve_left (Ne.symm hr))
      rcases deleteFile_cases base s r with hsame | hstat
      · rw [hsame, hfile]
      · have hother : base ++ rel ≠ base ++ r := fun heq => hr (List.append_cancel_left heq).symm
        rw [Disk.file, hstat _ hne, if_neg hother, ← Disk.file]
        exact hfile

end Deletes

/-! ## Disks with one file -/

theorem Disk.fits_empty {p : Path} (hp : p ≠ []) : (Disk.empty : Disk B).Fits p := by
  have hstat : ∀ q : Path, q ≠ [] → (Disk.empty : Disk B).stat q = none := fun q hq => by
    rw [Disk.stat, if_neg hq]
    rfl
  refine ⟨by rw [Disk.isDir, hstat p hp], fun q _ => ?_⟩
  by_cases hq : q = []
  · rw [Disk.file, Disk.stat, if_pos hq]
  · exact Disk.file_eq_none_of_stat (hstat q hq)

theorem Disk.exists_file {p : Path} (hp : p ≠ []) (bytes : B) : ∃ d : Disk B, d.file p = some bytes := by
  have hroot : (Disk.empty : Disk B).isDir [] = true := by rw [Disk.isDir, Disk.stat, if_pos rfl]
  have hshort : ¬ p <+: [] ++ p.dropLast := by
    intro hpre
    have hlen := hpre.length_le
    rw [List.nil_append, List.length_dropLast] at hlen
    have := List.length_pos_iff.2 hp
    omega
  obtain ⟨d, hd⟩ : ∃ d : Disk B, Disk.empty.mkdirs [] p.dropLast = some d := by
    refine Option.isSome_iff_exists.1 ((Disk.mkdirs_isSome_iff hroot).2 fun q _ hq => ?_)
    refine (Disk.fits_empty hp).2 q ⟨hq.trans (List.dropLast_prefix p), ?_⟩
    rintro rfl
    exact hshort hq
  have hnd : d.isDir p = false := by
    rcases Disk.stat_mkdirs hd p with hs | ⟨-, -, hpre⟩
    · rw [Disk.isDir, hs]
      exact (Disk.fits_empty hp).1
    · exact absurd hpre hshort
  obtain ⟨d', hd'⟩ := Option.isSome_iff_exists.1 (Writeback.writePath_isSome hp
    (Disk.isDir_mkdirs hd hroot) hnd : (d.writePath p bytes 0).isSome = true)
  refine ⟨d', Disk.file_of_stat (t := 0) ?_⟩
  rw [(Writeback.writePath_eq_some hd').2, if_pos rfl]

namespace RestoreRequest

variable [DecidableEq O] {blob : O → B} {now : ℤ} {disk disk' : Disk B} {req : RestoreRequest O}
  {sub : Tree O × Option (Tree O)} {rel q : Path} {res : Except RestoreError (RestoreResponse O)}
  {commit : Option (CommitObject O)}

/-! ## What the diff names -/

/-- A file below the project that the source and the head do not share, of a project that the source
has. -/
def Differs (req : RestoreRequest O) (q : Path) : Prop :=
  req.subtrees.isSome = true ∧ Under req.base q ∧ req.source.file q ≠ req.head.file q

/-- A file that the diff names. -/
def Named (sub : Tree O × Option (Tree O)) (rel : Path) : Prop :=
  (∃ oid, (rel, oid) ∈ (diff sub).toWrite) ∨ rel ∈ (diff sub).toDelete

theorem named_iff (hord : sub.1.Ordered) : Named sub rel ↔ (headFiles sub).lookup rel ≠ sub.1.file rel := by
  constructor
  · rintro (⟨oid, hw⟩ | hd)
    · obtain ⟨hsource, hhead⟩ := (diff_toWrite hord _).1 hw
      rwa [hsource]
    · obtain ⟨hhead, hsource⟩ := (diff_toDelete hord).1 hd
      rw [hsource]
      exact Option.isSome_iff_ne_none.1 hhead
  · intro hne
    by_contra hnot
    rw [Named, not_or] at hnot
    exact hne (lookup_eq_of_not_mem hord (fun oid hmem => hnot.1 ⟨oid, hmem⟩) hnot.2)

/-- The diff names the files that differ. -/
theorem named_iff_differs (hsub : req.subtrees = some sub) (hsource : req.source.Ordered)
    (hhead : req.head.Ordered) : Named sub rel ↔ req.Differs (req.base ++ rel) := by
  obtain ⟨hord, hbase, hfile⟩ := subtrees_source hsub hsource
  have hunder : Under req.base (req.base ++ rel) ↔ rel ≠ [] := by
    rw [Under, and_iff_right (List.prefix_append _ _)]
    refine not_congr ⟨fun h => ?_, fun h => by rw [h, List.append_nil]⟩
    exact List.append_cancel_left ((List.append_nil req.base).trans h).symm
  rw [named_iff hord, Differs, and_iff_right (by rw [hsub]; rfl), hunder, hfile]
  have hnil : sub.1.file [] = none := by rw [← hfile, List.append_nil, hbase]
  rcases hroot : req.head.file req.base with _ | oid
  · rw [subtrees_head hsub hhead hroot]
    refine ⟨fun hne => ⟨?_, hne.symm⟩, fun h => h.2.symm⟩
    rintro rfl
    rw [List.append_nil, hroot, hnil] at hne
    exact hne rfl
  · -- a head with a file at the project has nothing below it
    rw [headFiles_eq_nil hsub hroot, List.lookup_nil]
    have hbelow : rel ≠ [] → req.head.file (req.base ++ rel) = none := by
      intro hrel
      by_contra hsome
      obtain ⟨oid', hoid'⟩ := Option.ne_none_iff_exists'.1 hsome
      have heq := Tree.eq_of_prefix hroot hoid' (List.prefix_append _ _)
      exact hrel (List.append_cancel_left ((List.append_nil req.base).trans heq)).symm
    constructor
    · intro hne
      have hrel : rel ≠ [] := by
        rintro rfl
        exact hne hnil.symm
      exact ⟨hrel, by rw [hbelow hrel]; exact hne.symm⟩
    · rintro ⟨hrel, hne⟩
      rw [hbelow hrel] at hne
      exact hne.symm

/-! ## What a run touches -/

/-- A run leaves the files that its diff does not name. -/
theorem sameFile_of_not_named (hsub : req.subtrees = some sub) (hord : sub.1.Ordered)
    (h : Restores blob now disk req res disk' commit)
    (hq : ∀ rel, q = req.base ++ rel → ¬ Named sub rel) : disk.SameFile disk' q := by
  cases h with
  | missing | dryRun | noop => exact Disk.sameFile_of_stat rfl
  | applied h _ _ hrun _ hdels hr =>
    obtain rfl := Option.some.inj (hsub.symm.trans h)
    have hinv := Writeback.inv_of_reaches (content_ne_nil hord req.base) hrun
    have hwrites := sameFile_writeback hord hinv (q := q)
      fun e he heq => hq e.1 heq (.inl ⟨e.2, he⟩)
    refine hwrites.trans (Disk.SameFile.trans ?_ (sameFile_prune _ q))
    rw [← hr]
    exact sameFile_deletes fun rel hrel heq => hq rel heq (.inr (hdels.mem_iff.1 hrel))

/-- **A restore touches only files that differ.** -/
theorem sameFile_of_restores (hsource : req.source.Ordered) (hhead : req.head.Ordered)
    (h : Restores blob now disk req res disk' commit) (hq : ¬ req.Differs q) : disk.SameFile disk' q := by
  rcases hsub : req.subtrees with _ | sub
  · cases h with
    | missing => exact Disk.sameFile_of_stat rfl
    | dryRun h | noop h | applied h => rw [hsub] at h; cases h
  · refine sameFile_of_not_named hsub (subtrees_source hsub hsource).1 h fun rel heq hnamed => hq ?_
    rw [heq]
    exact (named_iff_differs hsub hsource hhead).1 hnamed

/-- A file that is to be written is on disk after a run on the empty disk. -/
theorem written_on_empty (hsub : req.subtrees = some sub) (hord : sub.1.Ordered)
    (hdry : req.dryRun = false) (h : Restores blob now .empty req res disk' commit) {oid : O}
    (hw : (rel, oid) ∈ (diff sub).toWrite) :
    disk'.stat (req.base ++ rel) = some (.file (blob oid) now) := by
  cases h with
  | missing h =>
    rw [hsub] at h
    cases h
  | dryRun _ h =>
    rw [hdry] at h
    cases h
  | noop h _ hwrite =>
    obtain rfl := Option.some.inj (hsub.symm.trans h)
    rw [hwrite] at hw
    cases hw
  | applied h _ _ hrun hdone hdels hr =>
    obtain rfl := Option.some.inj (hsub.symm.trans h)
    have hall := written_of_fits hord (fun r hr => Disk.fits_empty ?_) hrun hdone
    · have hinv := Writeback.inv_of_reaches (content_ne_nil hord req.base) hrun
      refine (sameFile_prune _ (req.base ++ rel) _ _).2 ?_
      rw [← hr]
      refine (sameFile_deletes (fun r hr heq => ?_) _ _).2
        (hinv.written rel _ ((content_eq_some hord).2 ⟨oid, hw, rfl⟩) (hall _ hw))
      have hnone := ((diff_toDelete hord).1 (hdels.mem_iff.1 hr)).2
      rw [← List.append_cancel_left heq, ((diff_toWrite hord _).1 hw).1] at hnone
      cases hnone
    · obtain ⟨o, ho⟩ := Option.isSome_iff_exists.1 hr
      exact base_append_ne_nil ho req.base

/-- A file that is to be deleted is gone after a run on any disk. -/
theorem deleted_of_restores (hsub : req.subtrees = some sub) (hord : sub.1.Ordered)
    (hdry : req.dryRun = false) (h : Restores blob now disk req res disk' commit)
    (hd : rel ∈ (diff sub).toDelete) (hne : req.base ++ rel ≠ [])
    (hfile : (disk.file (req.base ++ rel)).isSome = true) : disk'.file (req.base ++ rel) = none := by
  cases h with
  | missing h =>
    rw [hsub] at h
    cases h
  | dryRun _ h =>
    rw [hdry] at h
    cases h
  | noop h _ _ hdelete =>
    obtain rfl := Option.some.inj (hsub.symm.trans h)
    rw [hdelete] at hd
    cases hd
  | applied h _ _ hrun _ hdels hr =>
    obtain rfl := Option.some.inj (hsub.symm.trans h)
    have hinv := Writeback.inv_of_reaches (content_ne_nil hord req.base) hrun
    have hwrites := sameFile_writeback hord hinv (q := req.base ++ rel) fun e he heq => by
      have hnone := ((diff_toDelete hord).1 hd).2
      rw [List.append_cancel_left heq, ((diff_toWrite hord e).1 he).1] at hnone
      cases hnone
    rw [(sameFile_prune _ (req.base ++ rel)).file, ← hr]
    exact file_deleted (hdels.mem_iff.2 hd) hne (by rwa [hwrites.file])

/-- **Each file that differs is touched** by a run on some working tree. -/
theorem exists_changes (blob : O → B) (now : ℤ) (hsource : req.source.Ordered)
    (hhead : req.head.Ordered) (hdry : req.dryRun = false) (hq : req.Differs q) :
    ∃ disk res disk' commit, Restores blob now disk req res disk' commit ∧
      ¬ disk.SameFile disk' q := by
  obtain ⟨sub, hsub⟩ := Option.isSome_iff_exists.1 hq.1
  obtain ⟨hord, -, -⟩ := subtrees_source hsub hsource
  obtain ⟨rel, rfl⟩ := hq.2.1.1
  have hne : req.base ++ rel ≠ [] := by
    intro hnil
    have := hq.2.1.2
    rw [hnil, List.append_eq_nil_iff.1 hnil |>.1] at this
    exact this rfl
  rcases (named_iff_differs hsub hsource hhead).2 hq with ⟨oid, hw⟩ | hd
  · obtain ⟨res, disk', commit, h⟩ := exists_restores blob now .empty req
    refine ⟨_, _, _, _, h, fun hsame => ?_⟩
    have hstat := (hsame _ _).1 (written_on_empty hsub hord hdry h hw)
    rw [Disk.stat, if_neg hne] at hstat
    cases hstat
  · obtain ⟨oid, -⟩ := Option.isSome_iff_exists.1 ((diff_toDelete hord).1 hd).1
    obtain ⟨disk, hfile⟩ := Disk.exists_file hne (blob oid)
    obtain ⟨res, disk', commit, h⟩ := exists_restores blob now disk req
    refine ⟨_, _, _, _, h, fun hsame => ?_⟩
    have hnone := deleted_of_restores hsub hord hdry h hd hne (by rw [hfile]; rfl)
    rw [hsame.file, hfile] at hnone
    cases hnone

end RestoreRequest

end OpenViking.Git
