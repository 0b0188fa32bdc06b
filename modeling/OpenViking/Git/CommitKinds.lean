import OpenViking.Git.CommitSnapshot

/-!
# Commits of paths that change kind

A commit without a stat cache when files of the previous tree have become directories on disk, or the
reverse (`crates/ragfs/src/git/service.rs`, 156-715).

A file of the previous tree is a candidate by its name, and the main loop reads what stands there now: a
directory makes the commit fail.  A listed directory takes up what is below it, but not the file that the
previous tree has in its place.  Results:

* `commitsScope_iff`: exactly when the commit succeeds and records the tracked files of its scope.
-/

namespace OpenViking.Git

variable {B O : Type*}

/-- The commit succeeds and its tree has, in the scope, exactly the tracked files on disk. -/
def CommitsScope [DecidableEq O] (env : Env B O) (disk : Disk B) (prev : Option (Tree O))
    (paths : Option (List Path)) : Prop :=
  ∃ m resp index, loadIgnoreMatcher env disk = .ok m ∧
    commit env disk prev paths false none = .ok (resp, index) ∧
    ∀ q, InScope paths q → ∀ oid,
      (q, oid) ∈ (resp.tree prev).flatten ↔ snapshot env m disk q = some oid

/-- A file of the previous tree that is a directory on disk is not tracked, if a listed path is above it,
and has a tracked file on disk below it, if none is. -/
def DirectoryFits (m : Path → Bool) (disk : Disk B) (paths : Option (List Path)) (q : Path) : Prop :=
  disk.stat q = some .dir →
    ((∃ g ∈ scopeOf paths, Under g q) → shouldTrackPath m q = false) ∧
    ((∀ g ∈ scopeOf paths, ¬ Under g q) →
      ∃ f, Under q f ∧ shouldTrackPath m f = true ∧ (disk.file f).isSome = true)

/-- A file on disk above a file of the previous tree is tracked, or is not the only listed path there. -/
def FileFits (m : Path → Bool) (disk : Disk B) (paths : Option (List Path)) (q : Path) : Prop :=
  ∀ f, Under f q → (disk.file f).isSome = true →
    shouldTrackPath m f = true ∨ ∃ g ∈ scopeOf paths, g <+: q ∧ g ≠ f

/-- The ignore file can be read, and every file of the previous tree in the scope fits. -/
def KindsFit (env : Env B O) (disk : Disk B) (prev : Option (Tree O)) (paths : Option (List Path)) :
    Prop :=
  ∃ m, loadIgnoreMatcher env disk = .ok m ∧
    ∀ q, InScope paths q → (prevFile prev q).isSome = true →
      DirectoryFits m disk paths q ∧ FileFits m disk paths q

section Fits

variable {env : Env B O} {m : Path → Bool} {disk : Disk B} {prev : Option (Tree O)}
  {paths : Option (List Path)} {resp : CommitResponse O} {f g p q : Path}

theorem isSome_file_of_stat {bytes : B} {t : ℤ} (h : disk.stat p = some (.file bytes t)) :
    (disk.file p).isSome = true := by
  rw [Disk.file_of_stat h]
  rfl

section

variable (hprev : ∀ t ∈ prev, t.Ordered)

include hprev

/-- A candidate is a directory only where the previous tree has a tracked file below a listed path. -/
theorem under_of_candidate_dir
    (hp : p ∈ (scan m disk prev paths).candidates) (hstat : disk.stat p = some .dir) :
    (prevFile prev p).isSome = true ∧ shouldTrackPath m p = true ∧
      ∃ g ∈ scopeOf paths, Under g p := by
  obtain ⟨htrack, g, hg, ht, hself⟩ := ((Scan.adds_scan m disk hprev paths).1 p).1 hp
  have hne : g ≠ p := by
    rintro rfl
    exact ((touched_dir hstat).1 ht).2 rfl
  have hnone : disk.file p = none := by rw [Disk.file, hstat]
  rw [hnone] at hself
  refine ⟨?_, htrack, g, hg, prefix_of_touched ht, hne⟩
  rcases hself with heq | hf | hfile
  · exact absurd heq.symm hne
  · cases hf
  · exact hfile

/-- A missing path that the commit looks at is dropped with what is below it. -/
theorem dropped_of_touched (hg : g ∈ scopeOf paths)
    (ht : Touched disk g q) (hfile : (prevFile prev q).isSome = true) (hstat : disk.stat q = none) :
    q ∈ (scan m disk prev paths).removed ∨
      ∃ p ∈ (scan m disk prev paths).candidates, Changes env disk prev p ∧ Drops disk p q := by
  obtain ⟨hcand, hremoved⟩ := Scan.adds_scan m disk hprev paths
  cases htrack : shouldTrackPath m q with
  | false => exact .inl ((hremoved q).2 ⟨htrack, hfile, g, hg, ht⟩)
  | true =>
    obtain ⟨oid, hoid⟩ := Option.isSome_iff_exists.1 hfile
    refine .inr ⟨q, (hcand q).2 ⟨htrack, g, hg, ht, .inr (.inr hfile)⟩, ?_, ?_⟩
    · rw [Changes, hstat, Scan.entry_of_prevFile hoid]
      rfl
    · simp only [Drops, hstat]
      exact List.prefix_rfl

/-- Where the kinds fit, a file of the previous tree that the snapshot has not is dropped. -/
theorem dropped_of_fits (hq : InScope paths q)
    (hfile : (prevFile prev q).isSome = true) (hsnap : snapshot env m disk q = none)
    (hdir : DirectoryFits m disk paths q) (hfiles : FileFits m disk paths q) :
    q ∈ (scan m disk prev paths).removed ∨
      ∃ p ∈ (scan m disk prev paths).candidates, Changes env disk prev p ∧ Drops disk p q := by
  obtain ⟨hcand, hremoved⟩ := Scan.adds_scan m disk hprev paths
  obtain ⟨g, hg, hpre⟩ := hq
  rcases hstat : disk.stat q with _ | ⟨bytes, t⟩ | _
  · by_cases htouched : ∃ g ∈ scopeOf paths, Touched disk g q
    · obtain ⟨g, hg, ht⟩ := htouched
      exact dropped_of_touched hprev hg ht hfile hstat
    · -- every listed path above is a file on disk, so there is one
      have hall : ∀ g ∈ scopeOf paths, g <+: q → (disk.file g).isSome = true ∧ Under g q := by
        intro g hg hpre
        rcases hg' : disk.stat g with _ | ⟨b, t⟩ | _
        · exact absurd ⟨g, hg, (touched_none hg').2 hpre⟩ htouched
        · refine ⟨isSome_file_of_stat hg', hpre, ?_⟩
          rintro rfl
          rw [hstat] at hg'
          cases hg'
        · refine absurd ⟨g, hg, (touched_dir hg').2 ⟨hpre, ?_⟩⟩ htouched
          rintro rfl
          rw [hstat] at hg'
          cases hg'
      obtain ⟨hgfile, hgu⟩ := hall g hg hpre
      obtain ⟨b, hb⟩ := Option.isSome_iff_exists.1 hgfile
      obtain ⟨t, hgstat⟩ := Disk.stat_of_file hb
      rcases hfiles g hgu hgfile with htrack | ⟨g', hg', hpre', hne⟩
      · have hgne : g ≠ [] := by
          rintro rfl
          rw [Disk.stat, if_pos rfl] at hgstat
          cases hgstat
        obtain ⟨c, hc⟩ := prevEntry_above hfile hgu hgne
        refine .inr ⟨g, (hcand g).2 ⟨htrack, g, hg, (touched_file hgstat).2 rfl, .inl rfl⟩, ?_, ?_⟩
        · rw [Changes, hgstat, hc]
          intro hf
          cases hf
        · rw [Drops, hgstat]
          exact ⟨hgu.2, .inr hgu.1⟩
      · obtain ⟨b', hb'⟩ := Option.isSome_iff_exists.1 (hall g' hg' hpre').1
        rcases List.prefix_or_prefix_of_prefix hpre hpre' with h | h
        · exact absurd (Disk.eq_of_prefix hb hb' h).symm hne
        · exact absurd (Disk.eq_of_prefix hb' hb h) hne
  · have htrack : shouldTrackPath m q = false := by
      rw [snapshot, Disk.file_of_stat hstat] at hsnap
      cases htrack : shouldTrackPath m q with
      | false => rfl
      | true =>
        rw [htrack] at hsnap
        cases hsnap
    refine .inl ((hremoved q).2 ⟨htrack, hfile, g, hg, ?_⟩)
    by_cases heq : g = q
    · exact (touched_file (heq ▸ hstat)).2 heq.symm
    · exact (touched_dir (Disk.stat_above hstat ⟨hpre, heq⟩)).2 ⟨hpre, heq⟩
  · obtain ⟨hfit, hfit'⟩ := hdir hstat
    by_cases hu : ∃ g ∈ scopeOf paths, Under g q
    · have htrack := hfit hu
      obtain ⟨g, hg, hu⟩ := hu
      exact .inl ((hremoved q).2 ⟨htrack, hfile, g, hg, (touched_dir (Disk.stat_above hstat hu)).2 hu⟩)
    · obtain ⟨f, huf, htrack, hf⟩ := hfit' fun g hg h => hu ⟨g, hg, h⟩
      obtain ⟨b, hb⟩ := Option.isSome_iff_exists.1 hf
      obtain ⟨t, hfstat⟩ := Disk.stat_of_file hb
      refine .inr ⟨f, mem_candidates_of_file hprev ⟨g, hg, hpre.trans huf.1⟩ htrack hb, ?_, ?_⟩
      · rw [Changes, hfstat, prevEntry_below hfile huf]
        intro hf
        cases hf
      · rw [Drops, hfstat]
        exact ⟨huf.2.symm, .inl huf.1⟩

/-- What is dropped shows that the kinds fit. -/
theorem fits_of_dropped (hcandDir : ∀ p ∈ (scan m disk prev paths).candidates, disk.stat p ≠ some .dir)
    (hfile : (prevFile prev q).isSome = true)
    (hdrop : snapshot env m disk q = none → q ∈ (scan m disk prev paths).removed ∨
      ∃ p ∈ (scan m disk prev paths).candidates, Changes env disk prev p ∧ Drops disk p q) :
    DirectoryFits m disk paths q ∧ FileFits m disk paths q := by
  obtain ⟨hcand, hremoved⟩ := Scan.adds_scan m disk hprev paths
  have hsnap : disk.file q = none → snapshot env m disk q = none := by
    intro h
    rw [snapshot, h]
    split <;> rfl
  constructor
  · intro hstat
    have hnone : disk.file q = none := by rw [Disk.file, hstat]
    refine ⟨fun hex => ?_, fun hno => ?_⟩
    · obtain ⟨g, hg, hu⟩ := hex
      by_contra htrack
      rw [Bool.not_eq_false] at htrack
      exact hcandDir q ((hcand q).2 ⟨htrack, g, hg, (touched_dir (Disk.stat_above hstat hu)).2 hu,
        .inr (.inr hfile)⟩) hstat
    · rcases hdrop (hsnap hnone) with hr | ⟨p, hp, -, hd⟩
      · obtain ⟨-, -, g, hg, ht⟩ := (hremoved q).1 hr
        by_cases heq : g = q
        · subst heq
          exact absurd rfl ((touched_dir hstat).1 ht).2
        · exact absurd ⟨prefix_of_touched ht, heq⟩ (hno g hg)
      · rw [Drops] at hd
        split at hd
        · rename_i hpstat
          have hpd : disk.isDir p = false := by rw [Disk.isDir, hpstat]
          exact absurd hd (Disk.not_prefix_of_isDir hpd (Disk.isDir_iff.2 hstat))
        · rename_i b t hpstat
          obtain ⟨hne, hpre | hpre⟩ := hd
          · exact ⟨p, ⟨hpre, hne.symm⟩, ((hcand p).1 hp).1, isSome_file_of_stat hpstat⟩
          · have hpd : disk.isDir p = false := by rw [Disk.isDir, hpstat]
            exact absurd hpre (Disk.not_prefix_of_isDir hpd (Disk.isDir_iff.2 hstat))
        · exact hd.elim
  · intro f hu hf
    obtain ⟨b, hb⟩ := Option.isSome_iff_exists.1 hf
    obtain ⟨t, hfstat⟩ := Disk.stat_of_file hb
    have hstat : disk.stat q = none := Disk.stat_below (by rw [hfstat]; intro hf; cases hf) hu
    rw [or_iff_not_imp_right]
    intro hno
    have hall : ∀ g ∈ scopeOf paths, g <+: q → g = f := fun g hg hpre => by
      by_contra hne
      exact hno ⟨g, hg, hpre, hne⟩
    rcases hdrop (hsnap (Disk.file_eq_none_of_stat hstat)) with hr | ⟨p, hp, -, hd⟩
    · obtain ⟨-, -, g, hg, ht⟩ := (hremoved q).1 hr
      obtain rfl := hall g hg (prefix_of_touched ht)
      exact absurd ((touched_file hfstat).1 ht).symm hu.2
    · rw [Drops] at hd
      split at hd
      · rename_i hpstat
        obtain ⟨-, g, hg, ht, -⟩ := (hcand p).1 hp
        obtain rfl := hall g hg ((prefix_of_touched ht).trans hd)
        obtain rfl := (touched_file hfstat).1 ht
        rw [hfstat] at hpstat
        cases hpstat
      · rename_i b' t' hpstat
        have hpfile := Disk.file_of_stat hpstat
        obtain ⟨hne, hpre | hpre⟩ := hd
        · have := Disk.stat_above hpstat ⟨hpre, hne.symm⟩
          rw [hstat] at this
          cases this
        · have heq : p = f := by
            rcases List.prefix_or_prefix_of_prefix hpre hu.1 with h | h
            · exact Disk.eq_of_prefix hpfile hb h
            · exact (Disk.eq_of_prefix hb hpfile h).symm
          exact heq ▸ ((hcand p).1 hp).1
      · exact hd.elim

/-- **A commit succeeds and records exactly the tracked files of its scope** if and only if the ignore
file can be read and every file of the previous tree in the scope fits. -/
theorem commitsScope_iff [DecidableEq O] :
    CommitsScope env disk prev paths ↔ KindsFit env disk prev paths := by
  constructor
  · rintro ⟨m, resp, index, hm, hresp, hexact⟩
    rw [commit, hm] at hresp
    dsimp only at hresp
    have hcandDir : ∀ p ∈ (scan m disk prev paths).candidates, disk.stat p ≠ some .dir := by
      intro p hp hstat
      obtain ⟨e, he⟩ := commitWith_error env paths ⟨p, hp, hstat⟩
      rw [he] at hresp
      cases hresp
    obtain ⟨resp', index', hresp', h⟩ := commitWith_spec env hprev paths hcandDir
    obtain ⟨rfl, -⟩ : resp = resp' ∧ index = index' := by
      simpa using hresp.symm.trans hresp'
    refine ⟨m, hm, fun q hq hfile =>
      fits_of_dropped hprev hcandDir hfile ((file_tree_iff hprev h hq).1 ?_ hfile)⟩
    apply Option.ext
    intro oid
    rw [← Tree.mem_flatten h.ordered]
    exact hexact q hq oid
  · rintro ⟨m, hm, hfits⟩
    have hcandDir : ∀ p ∈ (scan m disk prev paths).candidates, disk.stat p ≠ some .dir := by
      intro p hp hstat
      obtain ⟨hfile, htrack, hu⟩ := under_of_candidate_dir hprev hp hstat
      have := ((hfits p (inScope_of_candidate hprev hp) hfile).1 hstat).1 hu
      rw [htrack] at this
      cases this
    obtain ⟨resp, index, hresp, h⟩ := commitWith_spec env hprev paths hcandDir
    refine ⟨m, resp, index, hm, ?_, fun q hq oid => ?_⟩
    · rw [commit, hm]
      exact hresp
    · rw [Tree.mem_flatten h.ordered, (file_tree_iff hprev h hq).2 fun hfile hsnap => ?_]
      obtain ⟨hdir, hfiles⟩ := hfits q hq hfile
      exact dropped_of_fits hprev hq hfile hsnap hdir hfiles

end

end Fits

end OpenViking.Git
