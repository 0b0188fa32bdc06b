import OpenViking.Queue.TreeSync

/-!
# What a sync reports

Each list of the `DiffResult` of `_sync_topdown_recursive` has what the two passes report at the
names, each path once.

Results:

* `syncDir_list`: what a list has;
* `syncDir_nodup`: no list has a path twice.
-/

namespace OpenViking.Queue.TreeSync

open NamedTree KeyedPass

/-! ## What is reported -/

namespace Passes

variable {E : Env} {F : Failing} {depth : ℕ} {path : Path} {root target : Dir} {m m' : Merge}

/-- What the pass over the directories reports at a name. -/
def dirsReport (E : Env) (F : Failing) (depth : ℕ) (path : Path) (m : Merge) (c : Change) :
    String → List Path :=
  emitted Merge.slot
    (fun name => syncSubdir F (syncDir E F depth (path ++ [name])) (path ++ [name]))
    (fun d : DiffResult => d.list c) m

/-- What the pass over the files reports at a name. -/
def filesReport (E : Env) (F : Failing) (path : Path) (m : Merge) (c : Change) (name : String) :
    List Path :=
  (syncFile E F (path ++ [name]) (m.slot name)).2.list c

theorem list_eq (h : Passes E F depth path root target m m') (c : Change) :
    m'.diff.list c =
      (sortedNames (Merge.start root target).rootFiles (Merge.start root target).targetFiles).flatMap
          (filesReport E F path (.start root target) c) ++
        (sortedNames m.rootDirs m.targetDirs).flatMap (dirsReport E F depth path m c) := by
  have hlog : ∀ (m : Merge) (name : String) (s : Slot) (d : DiffResult),
      (m.set name s d).diff.list c = m.diff.list c ++ d.list c := fun m name s d =>
    DiffResult.list_append m.diff d c
  have hfiles := pass_log (files_isLocal E F path) (·.diff.list c) (·.list c) hlog
    (nodup_sortedNames _ _) h.files
  have hdirs := pass_log (dirs_isLocal F (syncDir E F depth) path) (·.diff.list c) (·.list c) hlog
    (nodup_sortedNames _ _) h.dirs
  rw [hdirs, hfiles]
  show ({} : DiffResult).list c ++ _ ++ _ = _
  rw [DiffResult.list_empty, List.nil_append]
  rfl

variable {name : String}

/-- The two reports at a name are that of its outcome. -/
theorem report_eq (h : Passes E F depth path root target m m') (hname : listed name = true) :
    ∃ d, outcome E F (syncDir E F depth (path ++ [name])) (path ++ [name]) (root.find name)
        (target.find name) = some ((m'.root.find name, m'.target.find name), d) ∧
      ∀ c, filesReport E F path (.start root target) c name ++ dirsReport E F depth path m c name =
        d.list c := by
  obtain ⟨d, hd⟩ := h.dir_slot name
  refine ⟨(syncFile E F (path ++ [name]) ((Merge.start root target).slot name)).2.append d, ?_,
    fun c => ?_⟩
  · rw [file_slot h.files name, slot_start hname] at hd
    rw [← syncName_outcome, slot_start hname]
    unfold syncName
    dsimp only
    rw [hd]
    rfl
  · unfold dirsReport emitted
    dsimp only
    rw [hd, DiffResult.list_append]
    rfl

theorem filesReport_eq_nil {c : Change}
    (h : name ∉ sortedNames (Merge.start root target).rootFiles (Merge.start root target).targetFiles) :
    filesReport E F path (.start root target) c name = [] := by
  rw [mem_sortedNames, not_or] at h
  unfold filesReport
  rw [syncFile_absent E F _ (decide_eq_false h.1) (decide_eq_false h.2), DiffResult.list_empty]

theorem dirsReport_eq_nil {c : Change} (h : name ∉ sortedNames m.rootDirs m.targetDirs) :
    dirsReport E F depth path m c name = [] := by
  rw [mem_sortedNames, not_or] at h
  unfold dirsReport emitted
  dsimp only
  rw [syncSubdir_absent F _ _ (decide_eq_false h.1) (decide_eq_false h.2)]
  exact DiffResult.list_empty c

end Passes

variable {F : Failing} {path : Path} {E : Env} {depth : ℕ}

theorem Passes.report_hidden {root target : Dir}
    {m m' : Merge} (h : Passes E F depth path root target m m') {name : String}
    (hname : listed name = false) (c : Change) :
    filesReport E F path (.start root target) c name = [] ∧
      dirsReport E F depth path m c name = [] := by
  have hnot := not_mem_listChildren hname
  obtain ⟨-, hroot, htarget⟩ := file_hidden h.files hname
  refine ⟨filesReport_eq_nil ?_, dirsReport_eq_nil ?_⟩
  · rw [mem_sortedNames, not_or]
    exact ⟨hnot _ _, hnot _ _⟩
  · rw [mem_sortedNames, not_or]
    exact ⟨of_decide_eq_false hroot, of_decide_eq_false htarget⟩

/-- **What a list has.** -/
theorem syncDir_list {root target root' target' : Dir} {diff : DiffResult}
    (h : syncDir E F (depth + 1) path root target = some (root', target', diff)) {c : Change}
    {p : Path} : p ∈ diff.list c ↔ ∃ name, listed name = true ∧ ∃ r d,
      outcome E F (syncDir E F depth (path ++ [name])) (path ++ [name]) (root.find name)
        (target.find name) = some (r, d) ∧ p ∈ d.list c := by
  obtain ⟨m, m', hpasses, heq⟩ := syncDir_eq_some.1 h
  cases heq
  rw [hpasses.list_eq c, List.mem_append, List.mem_flatMap, List.mem_flatMap]
  -- a name is listed where something is reported
  have hlisted : ∀ name, p ∈ Passes.filesReport E F path (.start root target) c name ++
      Passes.dirsReport E F depth path m c name → listed name = true := by
    intro name hp
    by_contra hname
    obtain ⟨hf, hd⟩ := hpasses.report_hidden (Bool.eq_false_iff.2 hname) c
    rw [hf, hd] at hp
    cases hp
  constructor
  · intro hp
    obtain ⟨name, hp⟩ : ∃ name, p ∈ Passes.filesReport E F path (.start root target) c name ++
        Passes.dirsReport E F depth path m c name := by
      rcases hp with ⟨name, -, hp⟩ | ⟨name, -, hp⟩
      · exact ⟨name, List.mem_append_left _ hp⟩
      · exact ⟨name, List.mem_append_right _ hp⟩
    obtain ⟨d, hd, hreport⟩ := hpasses.report_eq (hlisted name hp)
    exact ⟨name, hlisted name hp, _, d, hd, hreport c ▸ hp⟩
  · rintro ⟨name, hname, r, d, hd, hp⟩
    obtain ⟨d', hd', hreport⟩ := hpasses.report_eq hname
    obtain rfl : d' = d := (Prod.mk.inj (Option.some.inj (hd'.symm.trans hd))).2
    rw [← hreport c, List.mem_append] at hp
    rcases hp with hp | hp
    · refine .inl ⟨name, ?_, hp⟩
      by_contra hnot
      rw [Passes.filesReport_eq_nil hnot] at hp
      cases hp
    · refine .inr ⟨name, ?_, hp⟩
      by_contra hnot
      rw [Passes.dirsReport_eq_nil hnot] at hp
      cases hp

/-! ## Each path once -/

/-- What is reported at a name is the name, or below it, and is reported once. -/
theorem outcome_report {sub : Dir → Dir → Option (Dir × Dir × DiffResult)}
    {root target : Option Item} {r : Option Item × Option Item} {d : DiffResult}
    (hsub : ∀ root target r, sub root target = some r → ∀ c,
      (r.2.2.list c).Nodup ∧ ∀ p ∈ r.2.2.list c, path <+: p)
    (h : outcome E F sub path root target = some (r, d)) (c : Change) :
    (d.list c).Nodup ∧ ∀ p ∈ d.list c, path <+: p := by
  have hone : ∀ d : DiffResult, (d.list c = [] ∨ d.list c = [path]) →
      (d.list c).Nodup ∧ ∀ p ∈ d.list c, path <+: p := by
    rintro d (h | h)
    · simp [h]
    · simp [h]
  rcases root with _ | current | rootSubdir
  · rcases target with _ | target | targetSubdir <;> rw [outcome] at h <;>
      (try split_ifs at h) <;> cases h <;> exact hone _ (by cases c <;> simp [DiffResult.list])
  · rcases target with _ | target | targetSubdir <;> rw [outcome] at h <;>
      (try split_ifs at h) <;> cases h <;> exact hone _ (by cases c <;> simp [DiffResult.list])
  · rcases target with _ | target | targetSubdir
    · cases h
      exact hone _ (by cases c <;> simp [DiffResult.list])
    · rw [outcome] at h
      split_ifs at h <;> cases h <;> exact hone _ (by cases c <;> simp [DiffResult.list])
    · obtain ⟨x, hx, heq⟩ := Option.map_eq_some_iff.1 h
      cases heq
      exact hsub rootSubdir targetSubdir x hx c

/-- **No list has a path twice.** -/
theorem syncDir_nodup {root target : Dir}
    {r : Dir × Dir × DiffResult} (h : syncDir E F depth path root target = some r) (c : Change) :
    (r.2.2.list c).Nodup ∧ ∀ p ∈ r.2.2.list c, path <+: p := by
  induction depth generalizing path root target r c with
  | zero => cases h
  | succ depth ih =>
    obtain ⟨m, m', hpasses, rfl⟩ := syncDir_eq_some.1 h
    -- at each name: once, and below the name
    have hname : ∀ name, (Passes.filesReport E F path (.start root target) c name ++
          Passes.dirsReport E F depth path m c name).Nodup ∧
        ∀ p ∈ Passes.filesReport E F path (.start root target) c name ++
          Passes.dirsReport E F depth path m c name, path ++ [name] <+: p := by
      intro name
      by_cases hlisted : listed name = true
      · obtain ⟨d, hd, hreport⟩ := hpasses.report_eq hlisted
        rw [hreport c]
        exact outcome_report (fun _ _ _ hr c => ih hr c) hd c
      · obtain ⟨hf, hd⟩ := hpasses.report_hidden (Bool.eq_false_iff.2 hlisted) c
        rw [hf, hd]
        simp
    dsimp only
    rw [hpasses.list_eq c]
    constructor
    · refine nodup_flatMap_append (nodup_sortedNames _ _) (nodup_sortedNames _ _)
        (fun name => (hname name).1) fun name name' p hp hp' => ?_
      have hlast := List.prefix_of_prefix_length_le ((hname name).2 p hp) ((hname name').2 p hp')
        (by simp)
      have heq := hlast.eq_of_length (by simp)
      exact (List.append_inj' heq rfl).2 |> List.singleton_inj.1
    · intro p hp
      rw [List.mem_append, List.mem_flatMap, List.mem_flatMap] at hp
      have hbelow : ∃ name, path ++ [name] <+: p := by
        rcases hp with ⟨name, -, hp⟩ | ⟨name, -, hp⟩
        · exact ⟨name, (hname name).2 p (List.mem_append_left _ hp)⟩
        · exact ⟨name, (hname name).2 p (List.mem_append_right _ hp)⟩
      obtain ⟨name, hp⟩ := hbelow
      exact (List.prefix_append path [name]).trans hp

end OpenViking.Queue.TreeSync
