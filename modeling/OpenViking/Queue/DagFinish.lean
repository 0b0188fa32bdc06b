import OpenViking.Queue.DagInvariant

/-!
# Work items of the semantic DAG that come to their end

* `inv_finish_dir`: a listing;
* `inv_finish`: the invariant is kept when an item ends.
-/

namespace OpenViking.Queue

open DagConfig

namespace Dag

variable {cfg : DagConfig} {root : Uri} {s t : Dag}

/-! ## The end of an item -/

/-- An item comes to its end, and others are scheduled. -/
structure Moves (s t : Dag) (work : DagWork) (scheduled : List DagWork) : Prop where
  mem : work ∈ s.running
  queue : t.queue = s.queue ++ scheduled
  running : t.running = s.running.erase work
  finished : t.finished = s.finished ++ [work]

namespace Moves

variable {work : DagWork} {scheduled : List DagWork}

theorem perm (m : Moves s t work scheduled) : t.all.Perm (s.all ++ scheduled) := by
  have hmove : s.running.Perm (s.running.erase work ++ [work]) :=
    (List.perm_cons_erase m.mem).trans (List.perm_append_singleton _ _).symm
  refine List.perm_iff_count.2 fun a => ?_
  have hcount := hmove.count_eq a
  rw [all, all, m.queue, m.running, m.finished]
  simp only [List.count_append] at hcount ⊢
  omega

variable {w : DagWork}

theorem mem_finished (m : Moves s t work scheduled) : w ∈ t.finished ↔ w ∈ s.finished ∨ w = work := by
  rw [m.finished, List.mem_append, List.mem_singleton]

theorem mem_all (m : Moves s t work scheduled) : w ∈ t.all ↔ w ∈ s.all ∨ w ∈ scheduled := by
  rw [m.perm.mem_iff, List.mem_append]

theorem mem_run (m : Moves s t work scheduled)
    (hw : w ∈ t.running ++ t.finished) : w ∈ s.running ++ s.finished := by
  rw [m.running, List.mem_append, m.mem_finished] at hw
  rcases hw with hw | hw | rfl
  · exact List.mem_append_left _ (List.mem_of_mem_erase hw)
  · exact List.mem_append_right _ hw
  · exact List.mem_append_left _ m.mem

/-- An item that is not a directory leaves it as it is which ones are listed. -/
theorem listed (m : Moves s t work scheduled) (hdir : isDir work = false) (uri : Uri) :
    t.Listed uri ↔ s.Listed uri := by
  refine exists_congr fun p => ?_
  rw [m.mem_finished, or_iff_left]
  rintro rfl
  cases hdir

end Moves

variable {work : DagWork}

/-- One awaited item fewer. -/
theorem countP_finished {l finished : List DagWork} (hl : l.Nodup) (hw : work ∈ l) (hf : work ∉ finished) :
    l.countP (· ∉ finished ++ [work]) + 1 = l.countP (· ∉ finished) := by
  have hperm := List.perm_cons_erase hw
  have hnot : work ∉ l.erase work := hl.not_mem_erase
  have hrest : (l.erase work).countP (· ∉ finished ++ [work]) =
      (l.erase work).countP (· ∉ finished) := by
    refine List.countP_congr fun a ha => ?_
    have hne : a ≠ work := fun heq => hnot (heq ▸ ha)
    simp [hne]
  rw [hperm.countP_eq, hperm.countP_eq, List.countP_cons_of_neg (by simp),
    List.countP_cons_of_pos (by simpa using hf), hrest]

/-- What a callback leaves in the node: the result of the item, one pending item fewer, and the
overview scheduled when there is none left. -/
structure Recorded (work : DagWork) (node node' : DirNode) : Prop where
  filePaths : node'.filePaths = node.filePaths
  childrenDirs : node'.childrenDirs = node.childrenDirs
  pending : node'.pending = node.pending - 1
  scheduled : node'.overviewScheduled = decide (node.pending = 1)
  summaries : ∀ path, (node.fileSummaries path).isSome → (node'.fileSummaries path).isSome
  summary : ∀ q path, work = .file q path → path ∈ node.filePaths → (node'.fileSummaries path).isSome
  abstracts : ∀ child, (node.childrenAbstracts child).isSome →
    (node'.childrenAbstracts child).isSome
  abstract : ∀ child, work = .overview child → child ∈ node.childrenDirs →
    (node'.childrenAbstracts child).isSome

theorem recorded_file (q path : Uri) (node : DirNode) (summary : String) :
    Recorded (.file q path) node { node with
      fileSummaries := Function.update node.fileSummaries path (some summary)
      pending := node.pending - 1
      overviewScheduled := decide (node.pending = 1) } where
  filePaths := rfl
  childrenDirs := rfl
  pending := rfl
  scheduled := rfl
  summaries path' h := by
    show (Function.update node.fileSummaries path _ path').isSome
    rw [Function.update_apply]
    split_ifs
    · rfl
    · exact h
  summary q' path' heq _ := by
    obtain ⟨-, rfl⟩ := DagWork.file.inj heq
    show (Function.update node.fileSummaries path _ path).isSome
    rw [Function.update_self]
    rfl
  abstracts _ h := h
  abstract := nofun

theorem recorded_overview (child : Uri) (node : DirNode) (abstract : Option String) :
    Recorded (.overview child) node { node with
      childrenAbstracts := Function.update node.childrenAbstracts child (some abstract)
      pending := node.pending - 1
      overviewScheduled := decide (node.pending = 1) } where
  filePaths := rfl
  childrenDirs := rfl
  pending := rfl
  scheduled := rfl
  summaries _ h := h
  summary := nofun
  abstracts child' h := by
    show (Function.update node.childrenAbstracts child _ child').isSome
    rw [Function.update_apply]
    split_ifs
    · rfl
    · exact h
  abstract child' heq _ := by
    obtain rfl := DagWork.overview.inj heq
    show (Function.update node.childrenAbstracts child _ child).isSome
    rw [Function.update_self]
    rfl

variable {uri child u : Uri}

theorem dirs_subset (h : child ∈ cfg.dirs uri) : child ∈ (cfg.listing uri).1 := by
  unfold DagConfig.dirs at h
  split_ifs at h
  · exact h
  · cases h

variable {q : Uri}

/-- A node is kept where the items that it waits for are finished as before. -/
theorem NodeOk.congr {n : DirNode} (h : NodeOk cfg s u n)
    (hkeep : ∀ a ∈ cfg.awaits u, (a ∈ t.finished ↔ a ∈ s.finished)) : NodeOk cfg t u n where
  filePaths := h.filePaths
  childrenDirs := h.childrenDirs
  pending := by
    rw [h.pending]
    congr 1
    refine List.countP_congr fun a ha => ?_
    simp only [decide_eq_true_iff, hkeep a ha]
  scheduled := h.scheduled
  summaries path hpath hmem :=
    h.summaries path hpath ((hkeep _ (mem_awaits.2 (.inl ⟨path, hpath, rfl⟩))).1 hmem)
  abstracts child hchild hmem :=
    h.abstracts child hchild ((hkeep _ (mem_awaits.2 (.inr ⟨child, hchild, rfl⟩))).1 hmem)

/-- The end of a summary, or of the overview of a directory that is not the root. -/
theorem inv_finish_awaited (T : cfg.DirTree root) (h : Inv cfg root s)
    {node node' : DirNode} (hw : work ∈ cfg.awaits q) (hnode : s.nodes q = some node)
    (m : Moves s t work (if node.pending = 1 then [.overview q] else [])) (hrec : Recorded work node node')
    (hnodes : ∀ u, t.nodes u =
      if work = .overview u then none else if u = q then some node' else s.nodes u)
    (hparent : ∀ u, t.parent u = if work = .overview u then none else s.parent u)
    (hroot : t.rootDone = s.rootDone) (hstats : t.stats = s.stats.done) : Inv cfg root t := by
  have hok := h.node_ok q node hnode
  obtain ⟨hlisted, hnotover⟩ := (h.nodes q).1 (by rw [hnode]; rfl)
  have hinTree := h.inTree_of_listed hlisted
  have hnotdir : isDir work = false := by
    rcases mem_awaits.1 hw with ⟨path, -, rfl⟩ | ⟨child, -, rfl⟩ <;> rfl
  have hnotroot : work ≠ .overview root := by
    rintro rfl
    rcases mem_awaits.1 hw with ⟨path, -, heq⟩ | ⟨child, hchild, heq⟩
    · cases heq
    · obtain rfl := DagWork.overview.inj heq
      exact root_not_mem_dirs hinTree hchild
  have hnotself : work ≠ .overview q := by
    rintro rfl
    rcases mem_awaits.1 hw with ⟨path, -, heq⟩ | ⟨child, hchild, heq⟩
    · cases heq
    · obtain rfl := DagWork.overview.inj heq
      obtain ⟨name, hname⟩ := mem_dirs hchild
      exact absurd (congrArg List.length hname) (by rw [List.length_cons]; omega)
  have hnew := h.not_finished_of_running m.mem
  have hcount := countP_finished (nodup_awaits T hinTree) hw hnew
  have hlist := m.listed hnotdir
  -- the overview of `q` is ready when this was the last item that it waits for
  have hreadyq : t.Ready cfg q ↔ node.pending = 1 := by
    rw [Ready, hlist, and_iff_right hlisted, hok.pending, ← hcount, m.finished]
    constructor
    · intro hall
      have hzero : (cfg.awaits q).countP (· ∉ s.finished ++ [work]) = 0 :=
        List.countP_eq_zero.2 fun a ha => by
          simpa only [decide_eq_true_iff, not_not] using hall a ha
      rw [hzero]
      rfl
    · intro hone a ha
      have hzero : (cfg.awaits q).countP (· ∉ s.finished ++ [work]) = 0 := by omega
      simpa only [decide_eq_true_iff, not_not] using List.countP_eq_zero.1 hzero a ha
  have hready : ∀ u, u ≠ q → (t.Ready cfg u ↔ s.Ready cfg u) := by
    intro u hu
    rw [Ready, Ready, hlist]
    refine and_congr_right fun _ => forall₂_congr fun a ha => ?_
    rw [m.mem_finished, or_iff_left]
    rintro rfl
    exact hu (eq_of_mem_awaits ha hw)
  have hnotready : ¬ s.Ready cfg q := fun hr => hnew (hr.2 work hw)
  have hfresh : .overview q ∉ s.all := fun hmem => hnotready (h.overview_mem.1 hmem)
  have hsched : ∀ w, w ∈ (if node.pending = 1 then [DagWork.overview q] else []) ↔
      w = .overview q ∧ node.pending = 1 := by
    intro w
    split_ifs with hone <;> simp [hone]
  have hover : (if node.pending = 1 then [DagWork.overview q] else []).countP isOverview =
      (if node.pending = 1 then [DagWork.overview q] else []).length := by
    split_ifs <;> rfl
  refine ⟨?_, ?_, ?_, ?_, ?_, ?_, ?_, ?_, ?_, ?_, ?_⟩
  · rw [m.perm.nodup_iff, List.nodup_append]
    refine ⟨h.nodup, by split_ifs <;> simp, fun a ha b hb => ?_⟩
    rintro rfl
    rw [(hsched _).1 hb |>.1] at ha
    exact hfresh ha
  · intro w
    rw [m.mem_all, h.mem_all, hsched]
    simp only [hlist]
    rw [or_assoc, or_assoc]
    refine or_congr_right (or_congr_right ?_)
    constructor
    · rintro (⟨u, rfl, hr⟩ | ⟨rfl, hone⟩)
      · exact ⟨u, rfl, (hready u fun heq => hnotready (heq ▸ hr)).2 hr⟩
      · exact ⟨q, rfl, hreadyq.2 hone⟩
    · rintro ⟨u, rfl, hr⟩
      by_cases hu : u = q
      · subst hu
        exact .inr ⟨rfl, hreadyq.1 hr⟩
      · exact .inl ⟨u, rfl, (hready u hu).1 hr⟩
  · intro u p hmem
    rw [m.mem_all, hsched] at hmem
    rcases hmem with hmem | ⟨heq, -⟩
    · exact h.inTree u p hmem
    · cases heq
  · intro u
    rw [hnodes, hlist, m.mem_finished, not_or]
    split_ifs with hwu huq
    · exact iff_of_false (fun hf => by cases hf) fun hc => hc.2.2 hwu.symm
    · subst huq
      exact iff_of_true rfl ⟨hlisted, hnotover, fun heq => hwu heq.symm⟩
    · rw [h.nodes u]
      exact ⟨fun hc => ⟨hc.1, hc.2, fun heq => hwu heq.symm⟩, fun hc => ⟨hc.1, hc.2.1⟩⟩
  · intro u n hn
    rw [hnodes] at hn
    split_ifs at hn with hwu huq
    · subst huq
      obtain rfl := Option.some_inj.1 hn
      refine ⟨hrec.filePaths.trans hok.filePaths, hrec.childrenDirs.trans hok.childrenDirs, ?_, ?_,
        fun path hpath hmem => ?_, fun child hchild hmem => ?_⟩
      · rw [hrec.pending, hok.pending, ← hcount, m.finished]
        omega
      · rw [hrec.scheduled, hrec.pending, decide_eq_true_iff]
        omega
      · rcases m.mem_finished.1 hmem with hmem | heq
        · exact hrec.summaries path (hok.summaries path hpath hmem)
        · exact hrec.summary u path heq.symm (hok.filePaths ▸ hpath)
      · rcases m.mem_finished.1 hmem with hmem | heq
        · exact hrec.abstracts child (hok.abstracts child hchild hmem)
        · exact hrec.abstract child heq.symm (hok.childrenDirs ▸ dirs_subset hchild)
    · have hoku := h.node_ok u n hn
      have hkeep : ∀ a ∈ cfg.awaits u, (a ∈ t.finished ↔ a ∈ s.finished) := by
        intro a ha
        rw [m.mem_finished, or_iff_left]
        rintro rfl
        exact huq (eq_of_mem_awaits ha hw)
      exact hoku.congr hkeep
  · intro u p hmem hnot
    rw [m.mem_finished, not_or] at hnot
    rw [hparent, if_neg fun heq => hnot.2 heq.symm]
    exact h.parent u p (m.mem_run hmem) hnot.1
  · rw [hroot, h.rootDone, m.mem_finished, or_iff_left fun heq => hnotroot heq.symm]
  · rw [hstats, m.perm.countP_eq, m.finished, m.queue, List.countP_append, List.countP_append,
      List.length_append, hover, List.countP_singleton, hnotdir]
    have hpending := h.pendingNodes
    show s.stats.pendingNodes + _ = _
    simp only [Bool.false_eq_true, if_false]
    omega
  · rw [hstats, m.running, List.length_erase_of_mem m.mem, ← h.inProgressNodes]
    rfl
  · rw [hstats, m.finished, List.countP_append, List.length_append, List.countP_singleton, hnotdir]
    have hdone := h.doneNodes
    show s.stats.doneNodes + 1 + _ = _
    simp only [Bool.false_eq_true, if_false, List.length_singleton]
    omega
  · rw [hstats, m.perm.countP_eq, m.perm.length_eq, List.countP_append, List.length_append, hover]
    have htotal := h.totalNodes
    show s.stats.totalNodes + _ = _
    omega

/-- The end of the overview of the root. -/
theorem inv_finish_root (h : Inv cfg root s) (m : Moves s t (.overview root) [])
    (hnodes : ∀ u, t.nodes u = if u = root then none else s.nodes u)
    (hparent : ∀ u, t.parent u = if u = root then none else s.parent u)
    (hroot : t.rootDone = true) (hstats : t.stats = s.stats.done) : Inv cfg root t := by
  have hlist := m.listed rfl
  have hready_root := h.overview_mem.1 (Inv.mem_all_of_running m.mem)
  have hkeep : ∀ u, cfg.InTree root u → ∀ a ∈ cfg.awaits u, (a ∈ t.finished ↔ a ∈ s.finished) := by
    intro u hu a ha
    rw [m.mem_finished, or_iff_left]
    rintro rfl
    rcases mem_awaits.1 ha with ⟨path, -, heq⟩ | ⟨child, hchild, heq⟩
    · cases heq
    · obtain rfl := DagWork.overview.inj heq
      exact root_not_mem_dirs hu hchild
  have hready : ∀ u, t.Ready cfg u ↔ s.Ready cfg u := by
    intro u
    rw [Ready, Ready, hlist]
    exact and_congr_right fun hl => forall₂_congr fun a ha => hkeep u (h.inTree_of_listed hl) a ha
  have hall : ∀ w, w ∈ t.all ↔ w ∈ s.all := fun w => by
    rw [m.mem_all, or_iff_left List.not_mem_nil]
  have hperm : t.all.Perm s.all := by simpa using m.perm
  refine ⟨?_, ?_, ?_, ?_, ?_, ?_, ?_, ?_, ?_, ?_, ?_⟩
  · exact hperm.nodup_iff.2 h.nodup
  · intro w
    rw [hall, h.mem_all]
    simp only [hlist, hready]
  · intro u p hmem
    exact h.inTree u p ((hall _).1 hmem)
  · intro u
    rw [hnodes, hlist, m.mem_finished, not_or]
    split_ifs with hu
    · subst hu
      exact iff_of_false (fun hf => by cases hf) fun hc => hc.2.2 rfl
    · rw [h.nodes u]
      exact ⟨fun hc => ⟨hc.1, hc.2, fun heq => hu (DagWork.overview.inj heq)⟩,
        fun hc => ⟨hc.1, hc.2.1⟩⟩
  · intro u n hn
    rw [hnodes] at hn
    split_ifs at hn with hu
    have hoku := h.node_ok u n hn
    have hin := h.inTree_of_listed ((h.nodes u).1 (by rw [hn]; rfl)).1
    exact hoku.congr (hkeep u hin)
  · intro u p hmem hnot
    rw [m.mem_finished, not_or] at hnot
    rw [hparent, if_neg fun heq => hnot.2 (by rw [heq])]
    exact h.parent u p (m.mem_run hmem) hnot.1
  · exact iff_of_true hroot (m.mem_finished.2 (.inr rfl))
  · rw [hstats, hperm.countP_eq, m.finished, m.queue, List.append_nil, List.countP_append]
    exact h.pendingNodes
  · rw [hstats, m.running, List.length_erase_of_mem m.mem, ← h.inProgressNodes]
    rfl
  · rw [hstats, m.finished, List.countP_append, List.length_append]
    have hdone := h.doneNodes
    show s.stats.doneNodes + 1 + (_ + 0) = _ + 1
    omega
  · rw [hstats, hperm.countP_eq, hperm.length_eq]
    exact h.totalNodes

/-- What a directory schedules when it is listed. -/
def firstItems (cfg : DagConfig) (uri : Uri) : List DagWork :=
  if cfg.spawns uri = [] then [.overview uri] else cfg.spawns uri

theorem awaits_eq_nil_iff : cfg.awaits uri = [] ↔ cfg.spawns uri = [] := by
  simp only [DagConfig.awaits, DagConfig.spawns, List.append_eq_nil_iff, List.map_eq_nil_iff]

theorem length_awaits (uri : Uri) : (cfg.awaits uri).length = (cfg.spawns uri).length := by
  simp only [DagConfig.awaits, DagConfig.spawns, List.length_append, List.length_map]

theorem mem_firstItems {w : DagWork} : w ∈ firstItems cfg uri ↔
    w ∈ cfg.spawns uri ∨ w = .overview uri ∧ cfg.spawns uri = [] := by
  unfold firstItems
  split_ifs with hnil <;> simp [hnil]

variable {node : DirNode}

/-- The end of a listing. -/
theorem inv_finish_dir (T : cfg.DirTree root) (h : Inv cfg root s) {p : Option Uri}
    (m : Moves s t (.dir u p) (firstItems cfg u))
    (hnode : node.filePaths = cfg.files u ∧ node.childrenDirs = (cfg.listing u).1 ∧
      node.pending = (cfg.spawns u).length ∧ node.overviewScheduled = decide (cfg.spawns u = []))
    (hnodes : t.nodes = Function.update s.nodes u (some node)) (hparent : t.parent = s.parent)
    (hroot : t.rootDone = s.rootDone)
    (hstats : t.stats = (s.stats.scheduled (cfg.spawns u).length).waiting) : Inv cfg root t := by
  have hall := Inv.mem_all_of_running m.mem
  have hin := h.inTree u p hall
  have hnew : ¬ s.Listed u := by
    rintro ⟨p', hp'⟩
    have heq := h.dir_unique hall (Inv.mem_all_of_finished hp')
    exact h.not_finished_of_running m.mem (heq ▸ hp')
  have hlist : ∀ v, t.Listed v ↔ s.Listed v ∨ v = u := by
    intro v
    constructor
    · rintro ⟨p', hp'⟩
      rcases m.mem_finished.1 hp' with hp' | heq
      · exact .inl ⟨p', hp'⟩
      · exact .inr (DagWork.dir.inj heq).1
    · rintro (⟨p', hp'⟩ | rfl)
      · exact ⟨p', m.mem_finished.2 (.inl hp')⟩
      · exact ⟨p, m.mem_finished.2 (.inr rfl)⟩
  have hkeep : ∀ a, isDir a = false → (a ∈ t.finished ↔ a ∈ s.finished) := by
    intro a ha
    rw [m.mem_finished, or_iff_left]
    rintro rfl
    cases ha
  have hawaits : ∀ v, ∀ a ∈ cfg.awaits v, isDir a = false := by
    intro v a ha
    rcases mem_awaits.1 ha with ⟨path, -, rfl⟩ | ⟨child, -, rfl⟩ <;> rfl
  -- nothing in the directory has been scheduled
  have hfile : ∀ path, .file u path ∉ s.all := fun path hmem => hnew (h.file_mem hmem).1
  have hdir : ∀ child, .dir child (some u) ∉ s.all := by
    intro child hmem
    rcases h.dir_mem hmem with ⟨-, heq⟩ | ⟨q, heq, hq, -⟩
    · cases heq
    · obtain rfl := Option.some_inj.1 heq
      exact hnew hq
  have hover : .overview u ∉ s.all := fun hmem => hnew (h.overview_mem.1 hmem).1
  have hchild : ∀ child ∈ cfg.dirs u, .overview child ∉ s.all := by
    intro child hmem hc
    obtain ⟨p', hp'⟩ := (h.overview_mem.1 hc).1
    rcases h.dir_mem (Inv.mem_all_of_finished hp') with ⟨rfl, -⟩ | ⟨q, rfl, hq, hmemq⟩
    · exact root_not_mem_dirs hin hmem
    · obtain ⟨name, rfl⟩ := mem_dirs hmem
      obtain ⟨name', heq⟩ := mem_dirs hmemq
      rw [← (List.cons.inj heq).2] at hq
      exact hnew hq
  have hpending : ∀ a ∈ cfg.awaits u, a ∉ t.finished := by
    intro a ha hmem
    rw [hkeep a (hawaits u a ha)] at hmem
    rcases mem_awaits.1 ha with ⟨path, -, rfl⟩ | ⟨child, hc, rfl⟩
    · exact hfile path (Inv.mem_all_of_finished hmem)
    · exact hchild child hc (Inv.mem_all_of_finished hmem)
  have hreadyu : t.Ready cfg u ↔ cfg.spawns u = [] := by
    rw [Ready, and_iff_right ((hlist u).2 (.inr rfl)), ← awaits_eq_nil_iff,
      List.eq_nil_iff_forall_not_mem]
    exact ⟨fun hr a ha => hpending a ha (hr a ha), fun hnil a ha => absurd ha (hnil a)⟩
  have hready : ∀ v, v ≠ u → (t.Ready cfg v ↔ s.Ready cfg v) := by
    intro v hv
    rw [Ready, Ready, hlist, or_iff_left hv]
    exact and_congr_right fun _ => forall₂_congr fun a ha => hkeep a (hawaits v a ha)
  have hfresh : ∀ w ∈ firstItems cfg u, w ∉ s.all := by
    intro w hw
    rcases mem_firstItems.1 hw with hw | ⟨rfl, -⟩
    · rcases mem_spawns.1 hw with ⟨path, -, rfl⟩ | ⟨child, -, rfl⟩
      · exact hfile path
      · exact hdir child
    · exact hover
  have hcount : (firstItems cfg u).countP isOverview + (cfg.spawns u).length =
      (firstItems cfg u).length := by
    unfold firstItems
    split_ifs with hnil
    · rw [hnil]
      rfl
    · rw [List.countP_eq_zero.2, Nat.zero_add]
      intro w hw
      rcases mem_spawns.1 hw with ⟨path, -, rfl⟩ | ⟨child, -, rfl⟩ <;>
        (intro hf; cases hf)
  refine ⟨?_, ?_, ?_, ?_, ?_, ?_, ?_, ?_, ?_, ?_, ?_⟩
  · rw [m.perm.nodup_iff, List.nodup_append]
    refine ⟨h.nodup, ?_, fun a ha b hb heq => hfresh b hb (heq ▸ ha)⟩
    unfold firstItems
    split_ifs
    · exact List.nodup_singleton _
    · exact nodup_spawns T hin
  · intro w
    rw [m.mem_all, h.mem_all, mem_firstItems]
    constructor
    · rintro ((rfl | ⟨v, hv, hspawn⟩ | ⟨v, rfl, hr⟩) | hspawn | ⟨rfl, hnil⟩)
      · exact .inl rfl
      · exact .inr (.inl ⟨v, (hlist v).2 (.inl hv), hspawn⟩)
      · exact .inr (.inr ⟨v, rfl, (hready v fun heq => hnew (heq ▸ hr.1)).2 hr⟩)
      · exact .inr (.inl ⟨u, (hlist u).2 (.inr rfl), hspawn⟩)
      · exact .inr (.inr ⟨u, rfl, hreadyu.2 hnil⟩)
    · rintro (rfl | ⟨v, hv, hspawn⟩ | ⟨v, rfl, hr⟩)
      · exact .inl (.inl rfl)
      · rcases (hlist v).1 hv with hv | rfl
        · exact .inl (.inr (.inl ⟨v, hv, hspawn⟩))
        · exact .inr (.inl hspawn)
      · by_cases hv : v = u
        · subst hv
          exact .inr (.inr ⟨rfl, hreadyu.1 hr⟩)
        · exact .inl (.inr (.inr ⟨v, rfl, (hready v hv).1 hr⟩))
  · intro v q hmem
    rcases m.mem_all.1 hmem with hmem | hmem
    · exact h.inTree v q hmem
    · rcases mem_firstItems.1 hmem with hmem | ⟨heq, -⟩
      · rcases mem_spawns.1 hmem with ⟨path, -, heq⟩ | ⟨child, hc, heq⟩
        · cases heq
        · obtain ⟨rfl, -⟩ := DagWork.dir.inj heq
          exact hin.child hc
      · cases heq
  · intro v
    rw [hnodes, Function.update_apply, hlist, hkeep _ rfl]
    split_ifs with hv
    · subst hv
      exact iff_of_true rfl ⟨.inr rfl, fun hmem => hover (Inv.mem_all_of_finished hmem)⟩
    · rw [or_iff_left hv]
      exact h.nodes v
  · intro v n hn
    rw [hnodes, Function.update_apply] at hn
    split_ifs at hn with hv
    · subst hv
      obtain rfl := Option.some_inj.1 hn
      obtain ⟨hfiles, hdirs, hpend, hsched⟩ := hnode
      refine ⟨hfiles, hdirs, ?_, ?_, fun path hpath hmem => ?_, fun child hc hmem => ?_⟩
      · rw [hpend, List.countP_eq_length.2 fun a ha => decide_eq_true (hpending a ha), length_awaits]
      · rw [hsched, hpend, decide_eq_true_iff, ← List.length_eq_zero_iff]
        exact Int.natCast_eq_zero.symm
      · exact absurd hmem (hpending _ (mem_awaits.2 (.inl ⟨path, hpath, rfl⟩)))
      · exact absurd hmem (hpending _ (mem_awaits.2 (.inr ⟨child, hc, rfl⟩)))
    · have hok := h.node_ok v n hn
      exact hok.congr fun a ha => hkeep a (hawaits v a ha)
  · intro v q hmem hnot
    rw [hparent]
    exact h.parent v q (m.mem_run hmem) fun hmem => hnot ((hkeep _ rfl).2 hmem)
  · rw [hroot, h.rootDone, hkeep _ rfl]
  · rw [hstats, m.perm.countP_eq, m.finished, m.queue, List.countP_append, List.countP_append,
      List.length_append]
    have hpendingNodes := h.pendingNodes
    show s.stats.pendingNodes + (cfg.spawns u).length + 1 + _ = _ + (_ + 1)
    omega
  · rw [hstats, m.running, List.length_erase_of_mem m.mem, ← h.inProgressNodes]
    rfl
  · rw [hstats, m.finished, List.countP_append, List.length_append]
    have hdone := h.doneNodes
    show s.stats.doneNodes + (_ + 1) = _ + 1
    omega
  · rw [hstats, m.perm.countP_eq, m.perm.length_eq, List.countP_append, List.length_append]
    have htotal := h.totalNodes
    show s.stats.totalNodes + (cfg.spawns u).length + _ = _
    omega

/-! ## The steps -/

theorem scheduleOverview_eq (hnode : s.nodes q = some node) (hsched : node.overviewScheduled = false) :
    s.scheduleOverview q = { s with
      nodes := Function.update s.nodes q (some { node with overviewScheduled := true })
      queue := s.queue ++ [.overview q] } := by
  simp only [scheduleOverview, hnode, hsched, Bool.false_eq_true, if_false]

/-- A callback on a node that waits for its overview. -/
theorem onDone_eq {node node' : DirNode} {record : DirNode → DirNode}
    (hnode : s.nodes q = some node) (hrecord : record node = node')
    (hpending : node'.pending = node.pending) (hsched : node'.overviewScheduled = false) :
    s.onDone q record = { s with
      nodes := Function.update s.nodes q (some { node' with
        pending := node'.pending - 1
        overviewScheduled := decide (node.pending = 1) })
      queue := s.queue ++ if node.pending = 1 then [.overview q] else [] } := by
  simp only [onDone, hnode, hrecord, hsched, hpending]
  by_cases hone : node.pending = 1
  · rw [if_pos ⟨by omega, trivial⟩, scheduleOverview_eq (Function.update_self _ _ _) rfl]
    simp only [Function.update_idem, hone, decide_true, if_true]
  · rw [if_neg fun hc => hone (by omega)]
    simp only [hone, decide_false, if_false, List.append_nil, ← hsched]

theorem onFileDone_eq {q path : Uri} {summary : String}
    (hmem : path ∈ node.filePaths) (hsched : node.overviewScheduled = false) (hnode : s.nodes q = some node) :
    s.onFileDone q path summary = { s with
      nodes := Function.update s.nodes q (some { node with
        fileSummaries := Function.update node.fileSummaries path (some summary)
        pending := node.pending - 1
        overviewScheduled := decide (node.pending = 1) })
      queue := s.queue ++ if node.pending = 1 then [.overview q] else [] } := by
  unfold onFileDone
  rw [@onDone_eq s q node
    { node with fileSummaries := Function.update node.fileSummaries path (some summary) } _ hnode ?_
    rfl hsched]
  exact if_pos hmem

theorem onChildDone_eq {q : Uri} {abstract : Option String}
    (hmem : child ∈ node.childrenDirs) (hsched : node.overviewScheduled = false)
    (hnode : s.nodes q = some node) :
    s.onChildDone q child abstract = { s with
      nodes := Function.update s.nodes q (some { node with
        childrenAbstracts := Function.update node.childrenAbstracts child (some abstract)
        pending := node.pending - 1
        overviewScheduled := decide (node.pending = 1) })
      queue := s.queue ++ if node.pending = 1 then [.overview q] else [] } := by
  unfold onChildDone
  rw [@onDone_eq s q node
    { node with
      childrenAbstracts := Function.update node.childrenAbstracts child (some abstract) } _ hnode ?_
    rfl hsched]
  exact if_pos hmem

theorem addVectorizeTask_eq (cfg : DagConfig) (s : Dag) (needVectorize : Bool) (task : VectorizeTask) :
    ∃ tasks, s.addVectorizeTask cfg needVectorize task = { s with vectorizeTasks := tasks } := by
  unfold addVectorizeTask
  split_ifs
  · exact ⟨_, rfl⟩
  · exact ⟨_, rfl⟩

theorem finishDir_eq {p : Option Uri} (hlist : (cfg.listDir u).isSome) :
    s.finishDir cfg u p = { s with
      nodes := Function.update s.nodes u (some {
        childrenDirs := (cfg.listing u).1
        filePaths := cfg.files u
        fileSummaries _ := none
        childrenAbstracts _ := none
        pending := (cfg.spawns u).length
        overviewScheduled := decide (cfg.spawns u = []) })
      queue := s.queue ++ firstItems cfg u
      stats := (s.stats.scheduled (cfg.spawns u).length).waiting } := by
  obtain ⟨⟨childrenDirs, filePaths⟩, hfound⟩ := Option.isSome_iff_exists.1 hlist
  have hlisting : cfg.listing u = (childrenDirs, filePaths) := by
    rw [DagConfig.listing, hfound]
    rfl
  have hdirs : cfg.dirs u = if cfg.recursive then childrenDirs else [] := by
    rw [DagConfig.dirs, hlisting]
  have hfiles : cfg.files u = filePaths := by rw [DagConfig.files, hlisting]
  have hlen : ((if cfg.recursive then childrenDirs else []).length + filePaths.length : ℤ) =
      (cfg.spawns u).length := by
    rw [DagConfig.spawns, hdirs, hfiles, List.length_append, List.length_map, List.length_map]
    push_cast
    omega
  have hspawns : filePaths.map (.file u) ++
      (if cfg.recursive then childrenDirs else []).map (.dir · (some u)) = cfg.spawns u := by
    rw [DagConfig.spawns, hdirs, hfiles]
  have hcount : filePaths.length + (if cfg.recursive then childrenDirs else []).length =
      (cfg.spawns u).length := by
    rw [← hspawns, List.length_append, List.length_map, List.length_map]
  simp only [finishDir, hfound, hlen, hspawns, hcount, hlisting, hfiles, firstItems]
  by_cases hnil : cfg.spawns u = []
  · rw [if_pos (by rw [hnil]; rfl), scheduleOverview_eq (Function.update_self _ _ _) rfl, if_pos hnil]
    simp only [Function.update_idem, hnil, decide_true]
    rfl
  · have hne : ((cfg.spawns u).length : ℤ) ≠ 0 := by
      rw [Int.natCast_ne_zero]
      exact fun hzero => hnil (List.length_eq_zero_iff.1 hzero)
    rw [if_neg hne, if_neg hnil]
    simp only [hnil, decide_false]

/-- A directory with an item to wait for has its node, and the overview is not scheduled. -/
theorem Inv.node_of_awaits (h : Inv cfg root s) (hl : s.Listed q)
    (hw : work ∈ cfg.awaits q) (hnew : work ∉ s.finished) :
    ∃ node, s.nodes q = some node ∧ node.overviewScheduled = false := by
  have hnot : .overview q ∉ s.finished := fun hmem =>
    hnew ((h.overview_mem.1 (Inv.mem_all_of_finished hmem)).2 work hw)
  obtain ⟨node, hnode⟩ := Option.isSome_iff_exists.1 ((h.nodes q).2 ⟨hl, hnot⟩)
  have hok := h.node_ok q node hnode
  refine ⟨node, hnode, Bool.eq_false_iff.2 fun hsched => ?_⟩
  have hzero := hok.scheduled.1 hsched
  rw [hok.pending, Int.natCast_eq_zero, List.countP_eq_zero] at hzero
  exact hzero work hw (decide_eq_true hnew)

theorem inv_finish (T : cfg.DirTree root) (h : Inv cfg root s)
    (hw : work ∈ s.running) (outcome : TaskOutcome) : Inv cfg root (s.finishWork cfg work outcome) := by
  have hall := Inv.mem_all_of_running hw
  have hnew := h.not_finished_of_running hw
  cases work with
  | dir u p =>
    have hlist := T.uris u (h.inTree u p hall)
    show Inv cfg root (finishDir cfg _ u p)
    rw [finishDir_eq hlist]
    exact inv_finish_dir T h ⟨hw, rfl, rfl, rfl⟩ ⟨rfl, rfl, rfl, rfl⟩ rfl rfl rfl rfl
  | file q path =>
    obtain ⟨hlisted, hpath⟩ := h.file_mem hall
    have hawaits : DagWork.file q path ∈ cfg.awaits q := mem_awaits.2 (.inl ⟨path, hpath, rfl⟩)
    obtain ⟨node, hnode, hsched⟩ := h.node_of_awaits hlisted hawaits hnew
    have hok := h.node_ok q node hnode
    have hmem : path ∈ node.filePaths := hok.filePaths ▸ hpath
    have hne : ∀ u, DagWork.file q path ≠ .overview u := fun u => by nofun
    obtain ⟨tasks, htasks⟩ := addVectorizeTask_eq cfg { s with
      running := s.running.erase (.file q path)
      finished := s.finished ++ [.file q path]
      stats := s.stats.done } outcome.needVectorize (.file path)
    show Inv cfg root (onFileDone (addVectorizeTask cfg _ _ _) q path _)
    rw [htasks, onFileDone_eq hmem hsched (by exact hnode)]
    refine inv_finish_awaited T h hawaits hnode ⟨hw, rfl, rfl, rfl⟩
      (recorded_file q path node (outcome.text.getD ""))
      (fun u => ?_) (fun u => ?_) rfl rfl
    · rw [if_neg (hne u)]
      exact Function.update_apply _ _ _ _
    · rw [if_neg (hne u)]
  | overview u =>
    obtain ⟨⟨p, hp⟩, -⟩ := h.overview_mem.1 hall
    have hparent := h.parent u p (List.mem_append_right _ hp) hnew
    obtain ⟨tasks, htasks⟩ := addVectorizeTask_eq cfg { s with
      running := s.running.erase (.overview u)
      finished := s.finished ++ [.overview u]
      stats := s.stats.done } outcome.needVectorize (.directory u)
    show Inv cfg root (finishOverview cfg _ u outcome)
    unfold finishOverview
    rw [htasks]
    rcases h.dir_mem (Inv.mem_all_of_finished hp) with ⟨rfl, rfl⟩ | ⟨q, rfl, hlisted, hchild⟩
    · simp only [hparent]
      refine inv_finish_root h ⟨hw, (List.append_nil _).symm, rfl, rfl⟩ (fun v => ?_) (fun v => ?_) rfl rfl
      · exact Function.update_apply _ _ _ _
      · exact Function.update_apply _ _ _ _
    · have hawaits : DagWork.overview u ∈ cfg.awaits q := mem_awaits.2 (.inr ⟨u, hchild, rfl⟩)
      obtain ⟨node, hnode, hsched⟩ := h.node_of_awaits hlisted hawaits hnew
      have hok := h.node_ok q node hnode
      have hmem : u ∈ node.childrenDirs := hok.childrenDirs ▸ dirs_subset hchild
      simp only [hparent]
      rw [onChildDone_eq hmem hsched (by exact hnode)]
      refine inv_finish_awaited T h hawaits hnode ⟨hw, rfl, rfl, rfl⟩
        (recorded_overview u node outcome.text)
        (fun v => ?_) (fun v => ?_) rfl rfl
      · show Function.update (Function.update s.nodes q _) u none v = _
        rw [Function.update_apply, Function.update_apply]
        simp only [DagWork.overview.injEq, eq_comm]
      · show Function.update s.parent u none v = _
        rw [Function.update_apply]
        simp only [DagWork.overview.injEq, eq_comm]

end Dag

end OpenViking.Queue
