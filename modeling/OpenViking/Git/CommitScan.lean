import OpenViking.Git.Commit
import OpenViking.Git.EditorUpdates
import OpenViking.Git.EditorWrite

/-!
# The candidates of a commit

What the assembly of the candidates (`crates/ragfs/src/git/service.rs`, 257-497) comes to, whatever the
order and the repetitions of the listed paths.  Results:

* `adds_scan`: the candidates, and the files of the previous tree that are dropped at once;
* `good_scan`: the editor shows the previous tree without those.
-/

namespace OpenViking.Git

variable {B O : Type*}

/-! ## Whole paths -/

namespace TreeEditor

variable {ed : TreeEditor O} {p q : Path} {oid : O} {P : Bool → Tree O → Prop}

/-- The directories of the side table among those that `S` picks are shown. -/
def Shown (S : Path → Prop) (ed : TreeEditor O) : Prop :=
  ∀ d, S d → ed.subtrees.contains d = true → ed.IsDir d

theorem upsertPath_concat (dirs : Path) (name : String) :
    ed.upsertPath (dirs ++ [name]) oid = ed.upsert dirs name oid := by
  simp [upsertPath]

theorem removePath_concat (dirs : Path) (name : String) :
    ed.removePath (dirs ++ [name]) = ed.remove dirs name := by
  simp [removePath]

variable {name : String}

variable {parent dirs : Path} {S : Path → Prop}

theorem shown_load {t : Tree O} (hS : ∀ d n, S (d ++ [n]) → S d) (h : ed.Shown S) (hload : ed.Loaded parent)
    (hget : (ed.entriesAt parent).get name = some (.tree t))
    (hnew : ed.subtrees.contains (parent ++ [name]) = false) :
    ({ ed with subtrees := ed.subtrees.set (parent ++ [name]) t.load } : TreeEditor O).Shown S := by
  intro d hd hc
  rw [IsDir, entry_load hload hget hnew, ← IsDir]
  rw [contains_set, Bool.or_eq_true, decide_eq_true_eq] at hc
  rcases hc with rfl | hc
  · have hparent : ed.IsDir parent := by
      rcases hload with rfl | hc
      · exact isDir_nil
      · exact h parent (hS _ _ hd) hc
    exact .inr ⟨t, (entry_child hparent hload name).trans hget⟩
  · exact h d hd hc

theorem shown_ensure_false (rest : Path)
    (hS : ∀ d n, S (d ++ [n]) → S d) (h : ed.Shown S) (hload : ed.Loaded parent) :
    (ensurePathLoaded false ed parent rest).2.Shown S := by
  induction rest generalizing ed parent with
  | nil => exact h
  | cons name rest ih =>
    rcases ensurePathLoaded_cons ed parent name rest false
      with ⟨hc, heq⟩ | ⟨hc, t, hget, heq⟩ | ⟨-, -, heq⟩
    · rw [heq]
      exact ih h (.inr hc)
    · rw [heq]
      exact ih (shown_load hS h hload hget hc) (loaded_set_self _)
    · rw [heq]
      exact h

/-- A removal keeps the directories shown that it does not drop. -/
theorem shown_remove (hS : ∀ d n, S (d ++ [n]) → S d) (h : ed.Shown S) (hclosed : ed.Closed)
    (hkeep : ∀ d, S d → ed.IsDir d → ¬ dirs ++ [name] <+: d) : (ed.remove dirs name).Shown S := by
  obtain ⟨-, h2, h3, -⟩ := ensure_false [] dirs hclosed loaded_nil
  have h1 := shown_ensure_false dirs hS h loaded_nil
  rw [List.nil_append] at h3
  have hspec := (remove_spec hclosed dirs name).2
  intro d hd hc
  have hdir : ed.IsDir d := by
    have hc1 : (ensurePathLoaded false ed [] dirs).2.subtrees.contains d = true := by
      rw [remove] at hc
      generalize ensurePathLoaded false ed [] dirs = r at hc h3
      obtain ⟨flag, ed1⟩ := r
      cases flag with
      | false => exact hc
      | true =>
        have hload : ed1.Loaded dirs := h3 rfl
        exact (contains_setEntries hload d).symm.trans hc
    have := h1 d hd hc1
    rwa [IsDir, h2, ← IsDir] at this
  rw [IsDir, hspec, if_neg (hkeep d hd hdir)]
  exact hdir

/-- An upsert keeps the directories shown that are not below it. -/
theorem shown_upsert (h : ed.Shown S) (hclosed : ed.Closed) (hclear : ed.Clear dirs)
    (hkeep : ∀ d, S d → ¬ dirs ++ [name] <+: d) : (ed.upsert dirs name oid).Shown S := by
  obtain ⟨-, hdirs, -, hoff, htable⟩ := upsert_spec name oid hclosed hclear
  intro d hd hc
  by_cases hpre : d <+: dirs
  · obtain ⟨s, rfl⟩ := hpre
    exact isDir_of_append hdirs
  · rw [(htable d hpre).2] at hc
    rw [IsDir, hoff d hpre (hkeep d hd)]
    exact h d hd hc

/-- What the editor keeps through a commit. -/
structure Steady (S : Path → Prop) (ed : TreeEditor O) : Prop where
  closed : ed.Closed
  trees : Trees (fun _ t => t.Ordered) ed
  shown : ed.Shown S

theorem Steady.removePath (hS : ∀ d n, S (d ++ [n]) → S d) (h : ed.Steady S)
    (hp : p ≠ []) (hkeep : ∀ d, S d → ed.IsDir d → ¬ p <+: d) :
    (ed.removePath p).Steady S ∧
      ∀ q, (ed.removePath p).entry q = if p <+: q then none else ed.entry q := by
  obtain ⟨dirs, name, rfl⟩ := (List.eq_nil_or_concat' p).resolve_left hp
  rw [removePath_concat]
  exact ⟨⟨(remove_spec h.closed dirs name).1, trees_remove hereditary_ordered h.trees h.closed,
    shown_remove hS h.shown h.closed hkeep⟩, (remove_spec h.closed dirs name).2⟩

theorem Steady.upsertPath (oid : O) (h : ed.Steady S) (hp : p ≠ [])
    (habove : ∀ d, Under d p → S d) (hkeep : ∀ d, S d → ¬ p <+: d) :
    (ed.upsertPath p oid).Steady S ∧
      ∀ q, (ed.upsertPath p oid).file q = if q = p then some oid
        else if q <+: p ∨ p <+: q then none else ed.file q := by
  obtain ⟨dirs, name, rfl⟩ := (List.eq_nil_or_concat' p).resolve_left hp
  have hclear : ed.Clear dirs := by
    intro d hd hc
    refine h.shown d (habove d ?_) hc
    obtain ⟨s, rfl⟩ := hd
    exact under_iff.2 ⟨s ++ [name], by simp, List.append_assoc _ _ _⟩
  rw [upsertPath_concat]
  exact ⟨⟨(upsert_spec name oid h.closed hclear).1,
    trees_upsert hereditary_ordered h.trees h.closed hclear,
    shown_upsert h.shown h.closed hclear hkeep⟩, file_upsert h.closed hclear⟩

end TreeEditor

/-! ## Steps of the assembly -/

theorem mem_insertPath {p q : Path} {l : List Path} : q ∈ insertPath p l ↔ q = p ∨ q ∈ l := by
  induction l with
  | nil => simp [insertPath]
  | cons x l ih =>
    rw [insertPath]
    split
    · rename_i h
      subst h
      simp
    · split
      · rw [List.mem_cons]
      · rw [List.mem_cons, ih, List.mem_cons]
        tauto

namespace Scan

variable {m : Path → Bool} {s s' s'' : Scan O} {C C' R R' : Path → Prop} {p : Path}

/-- A step of the assembly adds the candidates `C` and drops the files `R`. -/
structure Adds (s s' : Scan O) (C R : Path → Prop) : Prop where
  candidates : ∀ p, p ∈ s'.candidates ↔ p ∈ s.candidates ∨ C p
  removed : ∀ p, p ∈ s'.removed ↔ p ∈ s.removed ∨ R p

theorem Adds.refl : Adds s s (fun _ => False) fun _ => False where
  candidates p := by rw [or_false]
  removed p := by rw [or_false]

theorem Adds.trans (h : Adds s s' C R) (h' : Adds s' s'' C' R') :
    Adds s s'' (fun p => C p ∨ C' p) fun p => R p ∨ R' p where
  candidates p := by rw [h'.candidates, h.candidates, or_assoc]
  removed p := by rw [h'.removed, h.removed, or_assoc]

theorem Adds.congr (h : Adds s s' C R) (hC : ∀ p, C p ↔ C' p) (hR : ∀ p, R p ↔ R' p) :
    Adds s s' C' R' where
  candidates p := by rw [h.candidates, hC]
  removed p := by rw [h.removed, hR]

/-- A loop of steps. -/
theorem adds_foldl {α : Type*} {f : Scan O → α → Scan O} {C R : α → Path → Prop} {l : List α}
    (hstep : ∀ s, ∀ x ∈ l, Adds s (f s x) (C x) (R x)) (s : Scan O) :
    Adds s (l.foldl f s) (fun p => ∃ x ∈ l, C x p) fun p => ∃ x ∈ l, R x p := by
  induction l generalizing s with
  | nil => simpa using Adds.refl
  | cons x l ih =>
    rw [List.foldl_cons]
    refine ((hstep s x List.mem_cons_self).trans (ih (fun s x hx => hstep s x (List.mem_cons_of_mem _ hx))
      _)).congr (fun p => ?_) fun p => ?_
    · simp
    · simp

theorem includePath_eq (m : Path → Bool) (s : Scan O) (p : Path) :
    (s.includePath m p).1 = shouldTrackPath m p ∧
      (s.includePath m p).2.candidates = s.candidates ∧
      (s.includePath m p).2.removed = s.removed ∧
      (s.includePath m p).2.editor = s.editor ∧ (s.includePath m p).2.changed = s.changed := by
  rw [includePath]
  by_cases hprune : prunePath p = true
  · have hne : p ≠ ovgitignorePath := by
      rintro rfl
      revert hprune
      decide +kernel
    rw [if_pos hprune, shouldTrackPath, if_neg hne, hprune]
    exact ⟨rfl, rfl, rfl, rfl, rfl⟩
  · rw [if_neg hprune]
    cases htrack : shouldTrackPath m p
    · exact ⟨rfl, rfl, rfl, rfl, rfl⟩
    · exact ⟨rfl, rfl, rfl, rfl, rfl⟩

theorem adds_addCandidate (s : Scan O) (p : Path) :
    Adds s (s.addCandidate p) (· = p) fun _ => False where
  candidates q := by rw [addCandidate, mem_insertPath, or_comm]
  removed q := by rw [addCandidate, or_false]

theorem adds_drop (s : Scan O) (p : Path) : Adds s (s.drop p) (fun _ => False) (· = p) where
  candidates q := by rw [drop, or_false]
  removed q := by
    rw [drop]
    by_cases h : p ∈ s.removed
    · simp only [if_pos h]
      exact ⟨.inl, fun hq => hq.elim id fun heq => heq ▸ h⟩
    · simp only [if_neg h, List.mem_cons, or_comm]

theorem adds_of_eq (hc : s'.candidates = s.candidates) (hr : s'.removed = s.removed) :
    Adds s s' (fun _ => False) fun _ => False where
  candidates p := by rw [hc, or_false]
  removed p := by rw [hr, or_false]

theorem adds_cleanup (s : Scan O) (exact under : List Path) :
    Adds s { s with cleanupExact := exact, cleanupUnder := under } (fun _ => False)
      fun _ => False := adds_of_eq rfl rfl

theorem adds_listed (s : Scan O) (p : Path) :
    Adds s (listed m s p) (fun q => q = p ∧ shouldTrackPath m p = true) fun _ => False := by
  obtain ⟨hb, hc, hr, -, -⟩ := includePath_eq m s p
  rw [listed]
  generalize s.includePath m p = r at hb hc hr
  obtain ⟨b, s1⟩ := r
  have hbase := adds_of_eq hc hr
  cases b with
  | true =>
    refine (hbase.trans (adds_addCandidate s1 p)).congr (fun q => ?_) fun q => by simp
    rw [← hb]
    simp
  | false =>
    refine hbase.congr (fun q => ?_) fun q => Iff.rfl
    rw [← hb]
    simp

theorem adds_previous (s : Scan O) (p : Path) :
    Adds s (previous m s p) (fun q => q = p ∧ shouldTrackPath m p = true)
      fun q => q = p ∧ shouldTrackPath m p = false := by
  rw [previous]
  cases htrack : shouldTrackPath m p with
  | true =>
    rw [if_pos rfl]
    exact (adds_addCandidate s p).congr (by simp) (by simp)
  | false =>
    rw [if_neg (by simp)]
    exact (adds_drop s p).congr (by simp) (by simp)

theorem adds_exactly {prevFiles : List (Path × O)} (s : Scan O) (p : Path) :
    Adds s (exactly m prevFiles s p) (fun q => q = p ∧ shouldTrackPath m p = true)
      fun q => q = p ∧ shouldTrackPath m p = false ∧ ∃ e ∈ prevFiles, e.1 = p := by
  obtain ⟨hb, hc, hr, -, -⟩ := includePath_eq m s p
  rw [exactly]
  generalize s.includePath m p = r at hb hc hr
  obtain ⟨b, s1⟩ := r
  have hbase := adds_of_eq hc hr
  cases b with
  | true =>
    refine (hbase.trans (adds_addCandidate s1 p)).congr (fun q => ?_) fun q => ?_
    · rw [← hb]
      simp
    · rw [← hb]
      simp
  | false =>
    have hany : ((prevFiles.any fun e => decide (e.1 = p)) = true) ↔ ∃ e ∈ prevFiles, e.1 = p := by
      simp only [List.any_eq_true, decide_eq_true_eq]
    dsimp only
    split
    · rename_i hdrop
      rw [Bool.and_eq_true, hany] at hdrop
      refine (hbase.trans (adds_drop s1 p)).congr (fun q => ?_) fun q => ?_
      · rw [← hb]
        simp
      · rw [← hb]
        simpa using fun _ => hdrop.1
    · rename_i hdrop
      rw [Bool.and_eq_true, hany, decide_eq_true_eq, not_and, not_not] at hdrop
      refine ⟨fun q => ?_, fun q => ?_⟩
      · rw [hc, ← hb]
        simp
      · rw [hr, ← hb]
        constructor
        · exact .inl
        · rintro (hq | ⟨rfl, -, hprev⟩)
          · exact hq
          · rw [← hr]
            exact hdrop hprev

end Scan

/-! ## The scope -/

/-- The file of the previous tree at a path. -/
def prevFile (prev : Option (Tree O)) (p : Path) : Option O := Entry.oid? (prevEntry prev p)

/-- The listed paths; a full commit lists the root. -/
def scopeOf (paths : Option (List Path)) : List Path := paths.getD [[]]

/-- The paths that a listed path makes the commit look at. -/
def Touched (disk : Disk B) (g q : Path) : Prop :=
  match disk.stat g with
  | some .dir => Under g q
  | some (.file _ _) => q = g
  | none => g <+: q

section Scope

variable {m : Path → Bool} {disk : Disk B} {prev : Option (Tree O)} {s : Scan O} {g p q : Path}

theorem touched_dir (h : disk.stat g = some .dir) : Touched disk g q ↔ Under g q := by
  rw [Touched, h]

theorem touched_file {bytes : B} {mtime : ℤ} (h : disk.stat g = some (.file bytes mtime)) :
    Touched disk g q ↔ q = g := by
  rw [Touched, h]

theorem touched_none (h : disk.stat g = none) : Touched disk g q ↔ g <+: q := by
  rw [Touched, h]

theorem prefix_of_touched (h : Touched disk g q) : g <+: q := by
  rw [Touched] at h
  split at h
  · exact h.1
  · exact h ▸ List.prefix_rfl
  · exact h

theorem prevFile_nil : prevFile prev [] = none := by
  rcases prev with _ | t
  · rfl
  · rw [prevFile, prevEntry, Option.bind_some, Tree.lookup]
    rfl

theorem mem_prevFiles (hprev : ∀ t ∈ prev, t.Ordered) :
    (∃ e ∈ prev.elim [] Tree.flatten, e.1 = p) ↔ (prevFile prev p).isSome = true := by
  rcases prev with _ | t
  · simp [prevFile, prevEntry]
  · rw [Option.isSome_iff_exists]
    constructor
    · rintro ⟨⟨q, oid⟩, hmem, rfl⟩
      exact ⟨oid, (Tree.mem_flatten (hprev t rfl)).1 hmem⟩
    · rintro ⟨oid, hoid⟩
      exact ⟨(p, oid), (Tree.mem_flatten (hprev t rfl)).2 hoid, rfl⟩

theorem not_prune_of_track (h : shouldTrackPath m p = true) : prunePath p = false := by
  rw [shouldTrackPath] at h
  split at h
  · rename_i heq
    rw [heq]
    decide +kernel
  · rw [Bool.and_eq_true, Bool.not_eq_true'] at h
    exact h.1

namespace Scan

theorem adds_previousUnder (hprev : ∀ t ∈ prev, t.Ordered) (s : Scan O) (g : Path) :
    Adds s (s.previousUnder m (prev.elim [] Tree.flatten) g)
      (fun q => shouldTrackPath m q = true ∧ Under g q ∧ (prevFile prev q).isSome = true)
      fun q => shouldTrackPath m q = false ∧ Under g q ∧ (prevFile prev q).isSome = true := by
  have hmem : ∀ (b : Bool) q,
      (∃ e ∈ (prev.elim [] Tree.flatten).filter fun e => decide (Under g e.1),
        q = e.1 ∧ shouldTrackPath m e.1 = b) ↔
      shouldTrackPath m q = b ∧ Under g q ∧ (prevFile prev q).isSome = true := by
    intro b q
    rw [← mem_prevFiles hprev]
    constructor
    · rintro ⟨e, he, rfl, hb⟩
      rw [List.mem_filter, decide_eq_true_eq] at he
      exact ⟨hb, he.2, e, he.1, rfl⟩
    · rintro ⟨hb, hu, e, he, rfl⟩
      exact ⟨e, List.mem_filter.2 ⟨he, decide_eq_true hu⟩, rfl, hb⟩
  exact (adds_foldl (fun s e _ => adds_previous s e.1) s).congr (hmem true) (hmem false)

theorem adds_directory (m : Path → Bool) (disk : Disk B) (hprev : ∀ t ∈ prev, t.Ordered) (s : Scan O) (g : Path) :
    Adds s (s.directory m disk (prev.elim [] Tree.flatten) g)
      (fun q => shouldTrackPath m q = true ∧ Under g q ∧
        ((disk.file q).isSome = true ∨ (prevFile prev q).isSome = true))
      fun q => shouldTrackPath m q = false ∧ Under g q ∧ (prevFile prev q).isSome = true := by
  refine ((adds_foldl (fun s q _ => adds_listed (m := m) s q) s).trans
    (adds_previousUnder hprev _ g)).congr (fun q => ?_) fun q => by simp
  have hlist : (∃ x ∈ (disk.listUnder g).filter fun q => !prunePath q,
      q = x ∧ shouldTrackPath m x = true) ↔
      shouldTrackPath m q = true ∧ Under g q ∧ (disk.file q).isSome = true := by
    constructor
    · rintro ⟨x, hx, rfl, htrack⟩
      obtain ⟨hu, hfile⟩ := Disk.mem_listUnder.1 (List.mem_filter.1 hx).1
      exact ⟨htrack, hu, hfile⟩
    · rintro ⟨htrack, hu, hfile⟩
      refine ⟨q, List.mem_filter.2 ⟨Disk.mem_listUnder.2 ⟨hu, hfile⟩, ?_⟩, rfl, htrack⟩
      rw [not_prune_of_track htrack]
      rfl
  rw [hlist, ← and_or_left, ← and_or_left]

/-- What one listed path adds. -/
theorem adds_path (m : Path → Bool) (disk : Disk B) (hprev : ∀ t ∈ prev, t.Ordered) (s : Scan O) (g : Path) :
    Adds s (s.path m disk (prev.elim [] Tree.flatten) g)
      (fun q => shouldTrackPath m q = true ∧ Touched disk g q ∧
        (q = g ∨ (disk.file q).isSome = true ∨ (prevFile prev q).isSome = true))
      fun q => shouldTrackPath m q = false ∧ Touched disk g q ∧ (prevFile prev q).isSome = true := by
  rw [path]
  rcases hstat : disk.stat g with _ | ⟨bytes, mtime⟩ | _ <;> dsimp only
  · refine (((adds_cleanup s _ _).trans (adds_exactly _ g)).trans
      (adds_previousUnder hprev _ g)).congr (fun q => ?_) fun q => ?_
    · rw [touched_none hstat]
      constructor
      · rintro ((hf | ⟨rfl, htrack⟩) | ⟨htrack, hu, hfile⟩)
        · exact hf.elim
        · exact ⟨htrack, List.prefix_rfl, .inl rfl⟩
        · exact ⟨htrack, hu.1, .inr (.inr hfile)⟩
      · rintro ⟨htrack, hpre, heq | hfile | hfile⟩
        · exact .inl (.inr ⟨heq, heq ▸ htrack⟩)
        · by_cases heq : g = q
          · exact .inl (.inr ⟨heq.symm, heq ▸ htrack⟩)
          · have hnone := Disk.stat_below (by rw [hstat]; nofun) ⟨hpre, heq⟩
            rw [Disk.file, hnone] at hfile
            cases hfile
        · by_cases heq : g = q
          · exact .inl (.inr ⟨heq.symm, heq ▸ htrack⟩)
          · exact .inr ⟨htrack, ⟨hpre, heq⟩, hfile⟩
    · rw [touched_none hstat, mem_prevFiles hprev]
      constructor
      · rintro ((hf | ⟨rfl, htrack, hfile⟩) | ⟨htrack, hu, hfile⟩)
        · exact hf.elim
        · exact ⟨htrack, List.prefix_rfl, hfile⟩
        · exact ⟨htrack, hu.1, hfile⟩
      · rintro ⟨htrack, hpre, hfile⟩
        by_cases heq : g = q
        · subst heq
          exact .inl (.inr ⟨rfl, htrack, hfile⟩)
        · exact .inr ⟨htrack, ⟨hpre, heq⟩, hfile⟩
  · refine ((adds_cleanup s _ _).trans (adds_exactly _ g)).congr (fun q => ?_) fun q => ?_
    · rw [touched_file hstat]
      constructor
      · rintro (hf | ⟨rfl, htrack⟩)
        · exact hf.elim
        · exact ⟨htrack, rfl, .inl rfl⟩
      · rintro ⟨htrack, rfl, -⟩
        exact .inr ⟨rfl, htrack⟩
    · rw [touched_file hstat, mem_prevFiles hprev]
      constructor
      · rintro (hf | ⟨rfl, htrack, hfile⟩)
        · exact hf.elim
        · exact ⟨htrack, rfl, hfile⟩
      · rintro ⟨htrack, rfl, hfile⟩
        exact .inr ⟨rfl, htrack, hfile⟩
  · refine ((adds_cleanup s _ _).trans (adds_directory m disk hprev _ g)).congr (fun q => ?_) fun q => ?_
    · rw [touched_dir hstat, false_or]
      constructor
      · rintro ⟨htrack, hu, hfile⟩
        exact ⟨htrack, hu, .inr hfile⟩
      · rintro ⟨htrack, hu, heq | hfile⟩
        · exact absurd heq.symm hu.2
        · exact ⟨htrack, hu, hfile⟩
    · rw [touched_dir hstat, false_or]

/-- What the assembly adds. -/
theorem adds_scan (m : Path → Bool) (disk : Disk B) (hprev : ∀ t ∈ prev, t.Ordered) (paths : Option (List Path)) :
    (∀ q, q ∈ (scan m disk prev paths).candidates ↔ shouldTrackPath m q = true ∧
      ∃ g ∈ scopeOf paths, Touched disk g q ∧
        (q = g ∨ (disk.file q).isSome = true ∨ (prevFile prev q).isSome = true)) ∧
    ∀ q, q ∈ (scan m disk prev paths).removed ↔ shouldTrackPath m q = false ∧
      (prevFile prev q).isSome = true ∧ ∃ g ∈ scopeOf paths, Touched disk g q := by
  cases paths with
  | some ps =>
    have h := adds_foldl (fun s g _ => adds_path m disk hprev s g) (l := ps)
      ⟨prev.elim .empty .fromTree, [], [], [], 0, [], []⟩
    refine ⟨fun q => Iff.trans (h.candidates q) ?_, fun q => Iff.trans (h.removed q) ?_⟩
    · simp only [List.not_mem_nil, false_or, scopeOf, Option.getD_some]
      constructor
      · rintro ⟨g, hg, htrack, h⟩
        exact ⟨htrack, g, hg, h⟩
      · rintro ⟨htrack, g, hg, h⟩
        exact ⟨g, hg, htrack, h⟩
    · simp only [List.not_mem_nil, false_or, scopeOf, Option.getD_some]
      constructor
      · rintro ⟨g, hg, htrack, h, hfile⟩
        exact ⟨htrack, hfile, g, hg, h⟩
      · rintro ⟨htrack, hfile, g, hg, h⟩
        exact ⟨g, hg, htrack, h, hfile⟩
  | none =>
    have h := adds_directory m disk hprev
      ⟨prev.elim .empty .fromTree, [], [], [], 0, [], []⟩ []
    have hroot : Touched disk [] = Under [] := rfl
    refine ⟨fun q => Iff.trans (h.candidates q) ?_, fun q => Iff.trans (h.removed q) ?_⟩
    · simp only [List.not_mem_nil, false_or, scopeOf, Option.getD_none, List.mem_singleton,
        exists_eq_left, hroot]
      constructor
      · rintro ⟨htrack, hu, hfile⟩
        exact ⟨htrack, hu, .inr hfile⟩
      · rintro ⟨htrack, hu, heq | hfile⟩
        · exact absurd heq.symm hu.2
        · exact ⟨htrack, hu, hfile⟩
    · simp only [List.not_mem_nil, false_or, scopeOf, Option.getD_none, List.mem_singleton,
        exists_eq_left, hroot]
      constructor
      · rintro ⟨htrack, hu, hfile⟩
        exact ⟨htrack, hfile, hu⟩
      · rintro ⟨htrack, hfile, hu⟩
        exact ⟨htrack, hu, hfile⟩

/-! ## The editor meanwhile -/

/-- The editor shows the previous tree without the files dropped, every directory of its side table is
shown, and each file dropped counts as one change. -/
structure Good (prev : Option (Tree O)) (s : Scan O) : Prop where
  steady : s.editor.Steady fun _ => True
  entry : ∀ q, s.editor.entry q = if ∃ r ∈ s.removed, r <+: q then none else prevEntry prev q
  changed : s.changed = s.removed.length

section Good

variable {m : Path → Bool} {disk : Disk B} {prev : Option (Tree O)} {s : Scan O} {p : Path}

theorem good_of_eq {s' : Scan O} (h : s.Good prev) (hed : s'.editor = s.editor)
    (hr : s'.removed = s.removed) (hch : s'.changed = s.changed) : s'.Good prev where
  steady := hed ▸ h.steady
  entry q := by rw [hed, hr, h.entry]
  changed := by rw [hch, hr, h.changed]

theorem good_cleanup (h : s.Good prev) (exact under : List Path) :
    ({ s with cleanupExact := exact, cleanupUnder := under } : Scan O).Good prev :=
  good_of_eq h rfl rfl rfl

theorem entry_of_prevFile {oid : O} (h : prevFile prev p = some oid) :
    prevEntry prev p = some (.blob oid) := Entry.eq_of_oid? h

theorem ne_nil_of_prevFile (h : (prevFile prev p).isSome = true) : p ≠ [] := by
  rintro rfl
  rw [prevFile_nil] at h
  cases h

/-- A file of the previous tree is dropped. -/
theorem good_drop (h : s.Good prev) (hp : (prevFile prev p).isSome = true) : (s.drop p).Good prev := by
  obtain ⟨oid, hoid⟩ := Option.isSome_iff_exists.1 hp
  have hne := ne_nil_of_prevFile hp
  have hkeep : ∀ d, True → s.editor.IsDir d → ¬ p <+: d := by
    rintro d - hd ⟨r, rfl⟩
    obtain ⟨t, ht⟩ := (TreeEditor.isDir_of_append hd).resolve_left hne
    rw [h.entry, entry_of_prevFile hoid] at ht
    split at ht <;> cases ht
  obtain ⟨hsteady, hentry⟩ := h.steady.removePath (fun _ _ _ => trivial) hne hkeep
  refine ⟨hsteady, fun q => ?_, ?_⟩
  · have hiff : (∃ r ∈ (s.drop p).removed, r <+: q) ↔ p <+: q ∨ ∃ r ∈ s.removed, r <+: q := by
      have hmem := (adds_drop s p).removed
      constructor
      · rintro ⟨r, hr, hq⟩
        rcases (hmem r).1 hr with hr | rfl
        · exact .inr ⟨r, hr, hq⟩
        · exact .inl hq
      · rintro (hq | ⟨r, hr, hq⟩)
        · exact ⟨p, (hmem p).2 (.inr rfl), hq⟩
        · exact ⟨r, (hmem r).2 (.inl hr), hq⟩
    refine (hentry q).trans ?_
    simp only [hiff]
    by_cases hq : p <+: q
    · rw [if_pos hq, if_pos (.inl hq)]
    · rw [if_neg hq, h.entry]
      simp only [hq, false_or]
  · rw [drop]
    by_cases hr : p ∈ s.removed
    · simp only [if_pos hr]
      exact h.changed
    · simp only [if_neg hr, List.length_cons, h.changed]

theorem good_foldl {α : Type*} {f : Scan O → α → Scan O} {l : List α}
    (hstep : ∀ s, ∀ x ∈ l, s.Good prev → (f s x).Good prev) (h : s.Good prev) :
    (l.foldl f s).Good prev := by
  induction l generalizing s with
  | nil => exact h
  | cons x l ih =>
    exact ih (fun s x hx => hstep s x (List.mem_cons_of_mem _ hx)) (hstep s x List.mem_cons_self h)

theorem good_listed (h : s.Good prev) (p : Path) : (listed m s p).Good prev := by
  obtain ⟨-, -, hr, hed, hch⟩ := includePath_eq m s p
  rw [listed]
  generalize s.includePath m p = r at hr hed hch
  obtain ⟨b, s1⟩ := r
  have h1 : s1.Good prev := good_of_eq h hed hr hch
  cases b with
  | true => exact good_of_eq h1 rfl rfl rfl
  | false => exact h1

theorem good_previous (h : s.Good prev) (hp : (prevFile prev p).isSome = true) :
    (previous m s p).Good prev := by
  rw [previous]
  split
  · exact good_of_eq h rfl rfl rfl
  · exact good_drop h hp

section

variable (hprev : ∀ t ∈ prev, t.Ordered)

include hprev

theorem good_exactly (h : s.Good prev) (p : Path) :
    (exactly m (prev.elim [] Tree.flatten) s p).Good prev := by
  obtain ⟨-, -, hr, hed, hch⟩ := includePath_eq m s p
  rw [exactly]
  generalize s.includePath m p = r at hr hed hch
  obtain ⟨b, s1⟩ := r
  have h1 : s1.Good prev := good_of_eq h hed hr hch
  cases b with
  | true => exact good_of_eq h1 rfl rfl rfl
  | false =>
    dsimp only
    split
    · rename_i hdrop
      rw [Bool.and_eq_true] at hdrop
      refine good_drop h1 ((mem_prevFiles hprev).1 ?_)
      simpa only [List.any_eq_true, decide_eq_true_eq] using hdrop.1
    · exact h1

theorem good_previousUnder (h : s.Good prev) (g : Path) :
    (s.previousUnder m (prev.elim [] Tree.flatten) g).Good prev := by
  refine good_foldl (fun s e he hs => good_previous hs ?_) h
  exact (mem_prevFiles hprev).1 ⟨e, (List.mem_filter.1 he).1, rfl⟩

theorem good_directory (h : s.Good prev) (g : Path) :
    (s.directory m disk (prev.elim [] Tree.flatten) g).Good prev :=
  good_previousUnder hprev (good_foldl (fun _ q _ hs => good_listed hs q) h) g

theorem good_path (h : s.Good prev) (g : Path) :
    (s.path m disk (prev.elim [] Tree.flatten) g).Good prev := by
  rw [path]
  split
  · exact good_directory hprev (good_cleanup h _ _) g
  · exact good_exactly hprev (good_cleanup h _ _) g
  · exact good_previousUnder hprev (good_exactly hprev (good_cleanup h _ _) g) g

end

/-- **After the assembly the editor shows the previous tree without the files dropped.** -/
theorem good_scan (m : Path → Bool) (disk : Disk B) (hprev : ∀ t ∈ prev, t.Ordered) (paths : Option (List Path)) :
    (scan m disk prev paths).Good prev := by
  have hstart : (⟨prev.elim .empty .fromTree, [], [], [], 0, [], []⟩ : Scan O).Good prev := by
    refine ⟨⟨?_, ?_, ?_⟩, fun q => ?_, rfl⟩
    · rcases prev with _ | t <;> exact nofun
    · rcases prev with _ | t
      · intro d hd n c hc
        obtain rfl : d = [] := hd.resolve_right nofun
        cases hc
      · intro d hd n c hc
        obtain rfl : d = [] := hd.resolve_right nofun
        exact Tree.ordered_of_get_load (hprev t rfl) hc
    · rcases prev with _ | t <;> exact nofun
    · rw [if_neg (by simp)]
      rcases prev with _ | t
      · exact TreeEditor.entryAt_of_entries_nil rfl
      · exact TreeEditor.entryAt_load fun _ _ => rfl
  cases paths with
  | some ps => exact good_foldl (fun _ g _ hs => good_path hprev hs g) hstart
  | none => exact good_directory hprev hstart []

end Good

end Scan

end Scope

end OpenViking.Git
