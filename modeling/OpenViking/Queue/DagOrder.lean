import OpenViking.Queue.DagFinish
import Mathlib.Data.Finset.Card

/-!
# The order of the semantic DAG

In every run over a finite tree each task runs once, a directory's overview after the summaries of
its files and the overviews of its directories, and the run comes to its end.

* `progress_step`, `progress_le`: every step moves an item on, and there are only so many items;
* `runs_bottomUp`: all runs.
-/

namespace OpenViking.Queue

open DagConfig

namespace Dag

variable {cfg : DagConfig} {root : Uri} {s t : Dag}

/-! ## Runs -/

theorem inv_step (T : cfg.DirTree root) (h : Inv cfg root s) {a : DagAct}
    (hs : step cfg s a = some t) : Inv cfg root t := by
  cases a with
  | start work =>
    obtain ⟨⟨hq, -⟩, hs⟩ := Option.ite_none_right_eq_some.1 hs
    obtain rfl := Option.some_inj.1 hs
    exact inv_start h hq
  | finish work outcome =>
    obtain ⟨hw, hs⟩ := Option.ite_none_right_eq_some.1 hs
    obtain rfl := Option.some_inj.1 hs
    exact inv_finish T h hw outcome

theorem inv_of_reaches (T : cfg.DirTree root) {C : Dag → DagAct → Prop}
    (h : Reaches (step cfg) C (init root) s) : Inv cfg root s :=
  h.invariant (inv_init T) fun _ _ _ hinv _ hs => inv_step T hinv hs

/-! ## What holds in every state -/

/-- Each task is there once; an overview has all that it waits for behind it; the root is done with
its overview, and nothing is left then; the nodes add up; and when nothing is left every file has its
summary and every directory its overview. -/
structure BottomUp (cfg : DagConfig) (root : Uri) (s : Dag) : Prop where
  once : s.all.Nodup
  after : ∀ uri, .overview uri ∈ s.running ++ s.finished →
    (∀ path ∈ cfg.files uri, .file uri path ∈ s.finished) ∧
      ∀ child ∈ cfg.dirs uri, .overview child ∈ s.finished
  root_done : s.rootDone = true ↔ .overview root ∈ s.finished
  root_last : s.rootDone = true → s.queue = [] ∧ s.running = []
  total : s.stats.totalNodes =
    s.stats.pendingNodes + s.stats.inProgressNodes + s.stats.doneNodes
  complete : s.queue = [] → s.running = [] → s.rootDone = true ∧ ∀ uri, cfg.InTree root uri →
    .overview uri ∈ s.finished ∧ ∀ path ∈ cfg.files uri, .file uri path ∈ s.finished

namespace Inv

theorem overview_of_root (h : Inv cfg root s) (hroot : .overview root ∈ s.finished) {uri : Uri}
    (hin : cfg.InTree root uri) : .overview uri ∈ s.finished := by
  induction hin with
  | root => exact hroot
  | child hin hchild ih =>
    exact (h.overview_mem.1 (mem_all_of_finished ih)).2 _ (mem_awaits.2 (.inr ⟨_, hchild, rfl⟩))

/-- After the overview of the root there is nothing left. -/
theorem finished_of_root (h : Inv cfg root s) (hroot : .overview root ∈ s.finished)
    {work : DagWork} (hw : work ∈ s.all) : work ∈ s.finished := by
  have hdir : ∀ uri p, .dir uri p ∈ s.all → .overview uri ∈ s.finished →
      DagWork.dir uri p ∈ s.finished := by
    intro uri p hall hover
    obtain ⟨p', hp'⟩ := (h.overview_mem.1 (mem_all_of_finished hover)).1
    rw [h.dir_unique hall (mem_all_of_finished hp')]
    exact hp'
  cases work with
  | dir uri p => exact hdir uri p hw (h.overview_of_root hroot (h.inTree uri p hw))
  | file q path =>
    obtain ⟨hq, hpath⟩ := h.file_mem hw
    have hover := h.overview_of_root hroot (h.inTree_of_listed hq)
    exact (h.overview_mem.1 (mem_all_of_finished hover)).2 _ (mem_awaits.2 (.inl ⟨path, hpath, rfl⟩))
  | overview uri =>
    exact h.overview_of_root hroot (h.inTree_of_listed (h.overview_mem.1 hw).1)

/-- Where nothing is left everything has been done: the directories are listed from the root down, and
the overviews made from the deepest ones up. -/
theorem complete (T : cfg.DirTree root) (h : Inv cfg root s) (hqueue : s.queue = [])
    (hrunning : s.running = []) {uri : Uri} (hin : cfg.InTree root uri) :
    .overview uri ∈ s.finished ∧ ∀ path ∈ cfg.files uri, .file uri path ∈ s.finished := by
  have hall : s.all = s.finished := by
    rw [all, hqueue, hrunning]
    rfl
  have hmem := h.mem_all
  simp only [hall] at hmem
  have hlisted : ∀ u, cfg.InTree root u → s.Listed u := by
    intro u hu
    induction hu with
    | root => exact ⟨none, (hmem _).2 (.inl rfl)⟩
    | child _ hchild ih =>
      exact ⟨_, (hmem _).2 (.inr (.inl ⟨_, ih, mem_spawns.2 (.inr ⟨_, hchild, rfl⟩)⟩))⟩
  have hfiles : ∀ u, cfg.InTree root u → ∀ path ∈ cfg.files u, .file u path ∈ s.finished :=
    fun u hu path hpath =>
      (hmem _).2 (.inr (.inl ⟨u, hlisted u hu, mem_spawns.2 (.inl ⟨path, hpath, rfl⟩)⟩))
  let depth := T.finite.toFinset.sup List.length
  have hdepth : ∀ u, cfg.InTree root u → u.length ≤ depth := fun u hu =>
    Finset.le_sup (T.finite.mem_toFinset.2 hu)
  have hover : ∀ n u, cfg.InTree root u → depth < u.length + n → .overview u ∈ s.finished := by
    intro n
    induction n with
    | zero =>
      intro u hu hlt
      have := hdepth u hu
      omega
    | succ n ih =>
      intro u hu hlt
      refine (hmem _).2 (.inr (.inr ⟨u, rfl, hlisted u hu, fun w hw => ?_⟩))
      rcases mem_awaits.1 hw with ⟨path, hpath, rfl⟩ | ⟨child, hchild, rfl⟩
      · exact hfiles u hu path hpath
      · refine ih child (hu.child hchild) ?_
        obtain ⟨name, rfl⟩ := mem_dirs hchild
        rw [List.length_cons]
        omega
  exact ⟨hover (depth + 1) uri hin (by omega), hfiles uri hin⟩

theorem bottomUp (T : cfg.DirTree root) (h : Inv cfg root s) : BottomUp cfg root s where
  once := h.nodup
  after uri hmem := by
    have hall : .overview uri ∈ s.all := by
      rw [all, List.append_assoc]
      exact List.mem_append_right _ hmem
    have hready := (h.overview_mem.1 hall).2
    exact ⟨fun path hpath => hready _ (mem_awaits.2 (.inl ⟨path, hpath, rfl⟩)),
      fun child hchild => hready _ (mem_awaits.2 (.inr ⟨child, hchild, rfl⟩))⟩
  root_done := h.rootDone
  root_last hdone := by
    have hroot := h.rootDone.1 hdone
    constructor
    · refine List.eq_nil_iff_forall_not_mem.2 fun w hw => ?_
      exact h.not_finished_of_queue hw (h.finished_of_root hroot (mem_all_of_queue hw))
    · refine List.eq_nil_iff_forall_not_mem.2 fun w hw => ?_
      exact h.not_finished_of_running hw (h.finished_of_root hroot (mem_all_of_running hw))
  total := by
    have hlen : s.all.length = s.queue.length + s.running.length + s.finished.length := by
      rw [all, List.length_append, List.length_append]
    have hpending := h.pendingNodes
    have hrunning := h.inProgressNodes
    have hdone := h.doneNodes
    have htotal := h.totalNodes
    omega
  complete hqueue hrunning :=
    ⟨h.rootDone.2 (h.complete T hqueue hrunning .root).1, fun _ hin => h.complete T hqueue hrunning hin⟩

end Inv

/-! ## Runs come to their end -/

theorem scheduleOverview_running (s : Dag) (q : Uri) :
    (s.scheduleOverview q).running = s.running ∧ (s.scheduleOverview q).finished = s.finished := by
  unfold scheduleOverview
  split
  · exact ⟨rfl, rfl⟩
  · split_ifs
    · exact ⟨rfl, rfl⟩
    · exact ⟨rfl, rfl⟩

theorem onDone_running (s : Dag) (q : Uri) (record : DirNode → DirNode) :
    (s.onDone q record).running = s.running ∧ (s.onDone q record).finished = s.finished := by
  unfold onDone
  split
  · exact ⟨rfl, rfl⟩
  · dsimp only
    split_ifs
    · exact scheduleOverview_running _ q
    · exact ⟨rfl, rfl⟩

theorem addVectorizeTask_running (cfg : DagConfig) (s : Dag) (needVectorize : Bool) (task : VectorizeTask) :
    (s.addVectorizeTask cfg needVectorize task).running = s.running ∧
      (s.addVectorizeTask cfg needVectorize task).finished = s.finished := by
  unfold addVectorizeTask
  split_ifs <;> exact ⟨rfl, rfl⟩

/-- Whatever comes of an item, it moves on. -/
theorem finishWork_running (cfg : DagConfig) (s : Dag) (work : DagWork) (outcome : TaskOutcome) :
    (s.finishWork cfg work outcome).running = s.running.erase work ∧
      (s.finishWork cfg work outcome).finished = s.finished ++ [work] := by
  cases work with
  | dir u p =>
    show (finishDir cfg _ u p).running = _ ∧ (finishDir cfg _ u p).finished = _
    unfold finishDir
    split
    · cases p with
      | none => exact ⟨rfl, rfl⟩
      | some q => exact onDone_running _ q _
    · dsimp only
      split_ifs
      all_goals first | exact scheduleOverview_running _ u | exact ⟨rfl, rfl⟩
  | file q path =>
    obtain ⟨hrun, hfin⟩ := addVectorizeTask_running cfg { s with
      running := s.running.erase (.file q path)
      finished := s.finished ++ [.file q path]
      stats := s.stats.done } outcome.needVectorize (.file path)
    obtain ⟨hrun', hfin'⟩ := onDone_running (addVectorizeTask cfg { s with
      running := s.running.erase (.file q path)
      finished := s.finished ++ [.file q path]
      stats := s.stats.done } outcome.needVectorize (.file path)) q fun node =>
        if path ∈ node.filePaths then { node with
          fileSummaries := Function.update node.fileSummaries path (some (outcome.text.getD "")) }
        else node
    exact ⟨hrun'.trans hrun, hfin'.trans hfin⟩
  | overview u =>
    obtain ⟨hrun, hfin⟩ := addVectorizeTask_running cfg { s with
      running := s.running.erase (.overview u)
      finished := s.finished ++ [.overview u]
      stats := s.stats.done } outcome.needVectorize (.directory u)
    show (finishOverview cfg _ u outcome).running = _ ∧ (finishOverview cfg _ u outcome).finished = _
    unfold finishOverview
    dsimp only
    split
    · exact ⟨hrun, hfin⟩
    · obtain ⟨hrun', hfin'⟩ := onDone_running (addVectorizeTask cfg _ outcome.needVectorize _) _ _
      exact ⟨hrun'.trans hrun, hfin'.trans hfin⟩

/-- How far the items have come. -/
def progress (s : Dag) : ℕ := s.running.length + 2 * s.finished.length

theorem progress_step (h : Inv cfg root s) {a : DagAct} (hs : step cfg s a = some t) :
    t.progress = s.progress + 1 := by
  cases a with
  | start work =>
    obtain ⟨⟨hq, -⟩, hs⟩ := Option.ite_none_right_eq_some.1 hs
    obtain rfl := Option.some_inj.1 hs
    rw [startWork_eq h hq]
    show (s.running ++ [work]).length + 2 * s.finished.length = s.progress + 1
    rw [List.length_append, List.length_singleton, progress]
    omega
  | finish work outcome =>
    obtain ⟨hw, hs⟩ := Option.ite_none_right_eq_some.1 hs
    obtain rfl := Option.some_inj.1 hs
    obtain ⟨hrun, hfin⟩ := finishWork_running cfg s work outcome
    have hpos := List.length_pos_of_mem hw
    rw [progress, progress, hrun, hfin, List.length_erase_of_mem hw, List.length_append,
      List.length_singleton]
    omega

theorem progress_run (T : cfg.DirTree root) {acts : List DagAct} (h : Inv cfg root s)
    (hrun : runActs (step cfg) s acts = some t) :
    Inv cfg root t ∧ t.progress = s.progress + acts.length := by
  induction acts generalizing s with
  | nil =>
    obtain rfl := Option.some_inj.1 hrun
    exact ⟨h, rfl⟩
  | cons a acts ih =>
    obtain ⟨u, hu, hrest⟩ := Option.bind_eq_some_iff.1 hrun
    obtain ⟨ht, hprogress⟩ := ih (inv_step T h hu) hrest
    have hstep := progress_step h hu
    rw [List.length_cons]
    exact ⟨ht, by omega⟩

/-- All items that a tree gives rise to. -/
noncomputable def works (T : cfg.DirTree root) : List DagWork :=
  .dir root none :: T.finite.toFinset.toList.flatMap fun uri => .overview uri :: cfg.spawns uri

theorem progress_le (T : cfg.DirTree root) (h : Inv cfg root s) : s.progress ≤ 2 * (works T).length := by
  have hsub : s.all ⊆ works T := by
    intro w hw
    have hmem : ∀ uri, s.Listed uri → uri ∈ T.finite.toFinset.toList := fun uri hl =>
      Finset.mem_toList.2 (T.finite.mem_toFinset.2 (h.inTree_of_listed hl))
    rcases (h.mem_all w).1 hw with rfl | ⟨uri, hl, hspawn⟩ | ⟨uri, rfl, hready⟩
    · exact List.mem_cons_self
    · exact List.mem_cons_of_mem _ (List.mem_flatMap.2
        ⟨uri, hmem uri hl, List.mem_cons_of_mem _ hspawn⟩)
    · exact List.mem_cons_of_mem _ (List.mem_flatMap.2
        ⟨uri, hmem uri hready.1, List.mem_cons_self⟩)
  have hle := (List.subperm_of_subset h.nodup hsub).length_le
  rw [all, List.length_append, List.length_append] at hle
  unfold progress
  omega

/-- A run goes on until nothing is left. -/
theorem exists_step (h : s.queue ≠ [] ∨ s.running ≠ []) : ∃ a t, step cfg s a = some t := by
  by_cases hrun : s.running = []
  · obtain ⟨work, rest, hqueue⟩ := List.exists_cons_of_ne_nil (h.resolve_right fun hne => hne hrun)
    refine ⟨.start work, _, if_pos ⟨?_, ?_⟩⟩
    · rw [hqueue]
      exact List.mem_cons_self
    · rw [hrun, List.length_nil]
      exact Nat.lt_of_lt_of_le Nat.one_pos (Nat.le_max_left _ _)
  · obtain ⟨work, rest, hrunning⟩ := List.exists_cons_of_ne_nil hrun
    refine ⟨.finish work ⟨none, false⟩, _, if_pos ?_⟩
    rw [hrunning]
    exact List.mem_cons_self

/-- **The semantic DAG runs bottom-up, each node once.**  In every state of every run over a finite
tree; and a run is not longer than a bound, and stops only where nothing is left. -/
theorem runs_bottomUp (T : cfg.DirTree root) :
    (∀ s, Reaches (step cfg) (fun _ _ => True) (init root) s → BottomUp cfg root s ∧
      (s.queue ≠ [] ∨ s.running ≠ [] → ∃ a t, step cfg s a = some t)) ∧
      ∃ n, ∀ acts s, runActs (step cfg) (init root) acts = some s → acts.length ≤ n := by
  refine ⟨fun s hs => ⟨(inv_of_reaches T hs).bottomUp T, exists_step⟩, 2 * (works T).length, ?_⟩
  intro acts s hrun
  obtain ⟨hinv, hprogress⟩ := progress_run T (inv_init T) hrun
  have hle := progress_le T hinv
  omega

/-- A directory with a file, a directory with one more, and a hidden file. -/
def docsConfig : DagConfig where
  recursive := true
  maxWorkers := 2
  skipVectorization := false
  ls uri :=
    if uri = ["docs", "resources"] then
      some [⟨"a.md", false⟩, ⟨".abstract.md", false⟩, ⟨"sub", true⟩]
    else if uri = ["sub", "docs", "resources"] then some [⟨"b.md", false⟩]
    else none

theorem inTree_docs {uri : Uri} (h : docsConfig.InTree ["docs", "resources"] uri) :
    uri = ["docs", "resources"] ∨ uri = ["sub", "docs", "resources"] := by
  induction h with
  | root => exact .inl rfl
  | child _ hchild ih =>
    rcases ih with rfl | rfl
    · have hdirs : docsConfig.dirs ["docs", "resources"] = [["sub", "docs", "resources"]] := by
        decide +kernel
      rw [hdirs] at hchild
      exact .inr (List.mem_singleton.1 hchild)
    · have hdirs : docsConfig.dirs ["sub", "docs", "resources"] = [] := by
        decide +kernel
      rw [hdirs] at hchild
      cases hchild

theorem dirTree_docs : docsConfig.DirTree ["docs", "resources"] where
  uris uri h := by
    rcases inTree_docs h with rfl | rfl <;> decide +kernel
  distinct uri h := by
    rcases inTree_docs h with rfl | rfl <;> decide +kernel
  finite := (Set.toFinite {["docs", "resources"], ["sub", "docs", "resources"]}).subset
    fun _ h => inTree_docs h

theorem runs_bottomUp_docs :
    (∀ s, Reaches (step docsConfig) (fun _ _ => True) (init ["docs", "resources"]) s →
      BottomUp docsConfig ["docs", "resources"] s ∧
        (s.queue ≠ [] ∨ s.running ≠ [] → ∃ a t, step docsConfig s a = some t)) ∧
      ∃ n, ∀ acts s, runActs (step docsConfig) (init ["docs", "resources"]) acts = some s →
        acts.length ≤ n :=
  runs_bottomUp dirTree_docs

end Dag

end OpenViking.Queue
