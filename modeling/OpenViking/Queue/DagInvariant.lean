import OpenViking.Common.MapM
import OpenViking.Queue.SemanticDag
import Mathlib.Data.List.Perm.Subperm

/-!
# The invariant of the semantic DAG

The work items so far are those that the finished ones give rise to: the listing of a directory
schedules what is in it, and its overview comes when all that it waits for is finished.  The counter
of a node is the number of items that it still waits for.

* `Inv`: the invariant;
* `inv_init`, `inv_start`: it holds at the start, and is kept when an item starts.
-/

namespace OpenViking.Queue

open DagConfig

namespace Dag

/-! ## The invariant -/

/-- The work items so far. -/
def all (s : Dag) : List DagWork := s.queue ++ s.running ++ s.finished

/-- The directory has been listed. -/
def Listed (s : Dag) (uri : Uri) : Prop := ∃ parentUri, .dir uri parentUri ∈ s.finished

/-- All that the overview waits for is finished. -/
def Ready (cfg : DagConfig) (s : Dag) (uri : Uri) : Prop :=
  s.Listed uri ∧ ∀ work ∈ cfg.awaits uri, work ∈ s.finished

def isDir : DagWork → Bool
  | .dir _ _ => true
  | _ => false

def isOverview : DagWork → Bool
  | .overview _ => true
  | _ => false

/-- The node of a directory that waits for its overview. -/
structure NodeOk (cfg : DagConfig) (s : Dag) (uri : Uri) (node : DirNode) : Prop where
  filePaths : node.filePaths = cfg.files uri
  childrenDirs : node.childrenDirs = (cfg.listing uri).1
  pending : node.pending = ((cfg.awaits uri).countP (· ∉ s.finished) : ℕ)
  scheduled : node.overviewScheduled = true ↔ node.pending = 0
  summaries : ∀ path ∈ cfg.files uri, .file uri path ∈ s.finished → (node.fileSummaries path).isSome
  abstracts : ∀ child ∈ cfg.dirs uri, .overview child ∈ s.finished →
    (node.childrenAbstracts child).isSome

structure Inv (cfg : DagConfig) (root : Uri) (s : Dag) : Prop where
  nodup : s.all.Nodup
  mem_all : ∀ work, work ∈ s.all ↔ work = .dir root none ∨
    (∃ uri, s.Listed uri ∧ work ∈ cfg.spawns uri) ∨ ∃ uri, work = .overview uri ∧ s.Ready cfg uri
  inTree : ∀ uri parentUri, .dir uri parentUri ∈ s.all → cfg.InTree root uri
  nodes : ∀ uri, (s.nodes uri).isSome ↔ s.Listed uri ∧ .overview uri ∉ s.finished
  node_ok : ∀ uri node, s.nodes uri = some node → NodeOk cfg s uri node
  parent : ∀ uri parentUri, .dir uri parentUri ∈ s.running ++ s.finished →
    .overview uri ∉ s.finished → s.parent uri = parentUri
  rootDone : s.rootDone = true ↔ .overview root ∈ s.finished
  pendingNodes : s.stats.pendingNodes + s.all.countP isOverview =
    s.queue.length + s.finished.countP isDir
  inProgressNodes : s.stats.inProgressNodes = s.running.length
  doneNodes : s.stats.doneNodes + s.finished.countP isDir = s.finished.length
  totalNodes : s.stats.totalNodes + s.all.countP isOverview = s.all.length

variable {cfg : DagConfig} {root : Uri} {s t : Dag}

/-! ## URIs of the tree -/

variable {uri child : Uri}

theorem join_eq_some {name : String} (h : uri.join name = some child) :
    child = name :: uri :=
  (Option.some_inj.1 (Option.ite_none_right_eq_some.1 h).2).symm

theorem mem_listing
    (h : child ∈ (cfg.listing uri).1 ∨ child ∈ (cfg.listing uri).2) : ∃ name, child = name :: uri := by
  unfold DagConfig.listing at h
  cases hlist : cfg.listDir uri with
  | none =>
    rw [hlist] at h
    rcases h with h | h <;> cases h
  | some found =>
    obtain ⟨childrenDirs, filePaths⟩ := found
    rw [hlist] at h
    unfold DagConfig.listDir at hlist
    split at hlist
    · obtain ⟨rfl, rfl⟩ := Prod.mk.inj (Option.some_inj.1 hlist)
      rcases h with h | h <;> cases h
    · obtain ⟨ds, hds, hlist⟩ := Option.bind_eq_some_iff.1 hlist
      obtain ⟨fs, hfs, heq⟩ := Option.map_eq_some_iff.1 hlist
      obtain ⟨rfl, rfl⟩ := Prod.mk.inj heq
      rcases h with h | h
      · obtain ⟨entry, -, hjoin⟩ := exists_of_forall₂ (mapM_eq_some.1 hds).flip h
        exact ⟨_, join_eq_some hjoin⟩
      · obtain ⟨entry, -, hjoin⟩ := exists_of_forall₂ (mapM_eq_some.1 hfs).flip h
        exact ⟨_, join_eq_some hjoin⟩

theorem mem_dirs (h : child ∈ cfg.dirs uri) : ∃ name, child = name :: uri := by
  unfold DagConfig.dirs at h
  split_ifs at h
  · exact mem_listing (.inl h)
  · cases h

theorem suffix_of_inTree (h : cfg.InTree root uri) : root <:+ uri := by
  induction h with
  | root => exact List.suffix_rfl
  | child h hchild ih =>
    obtain ⟨name, rfl⟩ := mem_dirs hchild
    exact ih.trans (List.suffix_cons name _)

theorem root_not_mem_dirs (h : cfg.InTree root uri) : root ∉ cfg.dirs uri := by
  intro hmem
  obtain ⟨name, hroot⟩ := mem_dirs hmem
  have hle := (suffix_of_inTree h).length_le
  rw [hroot, List.length_cons] at hle
  omega

variable {work : DagWork}

theorem mem_awaits : work ∈ cfg.awaits uri ↔
    (∃ path ∈ cfg.files uri, work = .file uri path) ∨
      ∃ child ∈ cfg.dirs uri, work = .overview child := by
  simp only [DagConfig.awaits, List.mem_append, List.mem_map, eq_comm]

theorem mem_spawns : work ∈ cfg.spawns uri ↔
    (∃ path ∈ cfg.files uri, work = .file uri path) ∨
      ∃ child ∈ cfg.dirs uri, work = .dir child (some uri) := by
  simp only [DagConfig.spawns, List.mem_append, List.mem_map, eq_comm]

/-- Each item is awaited by one overview. -/
theorem eq_of_mem_awaits {p q : Uri} (hp : work ∈ cfg.awaits p) (hq : work ∈ cfg.awaits q) : p = q := by
  rcases mem_awaits.1 hp with ⟨path, -, rfl⟩ | ⟨child, hchild, rfl⟩
  · rcases mem_awaits.1 hq with ⟨path', -, heq⟩ | ⟨child', -, heq⟩
    · exact (DagWork.file.inj heq).1
    · cases heq
  · rcases mem_awaits.1 hq with ⟨path', -, heq⟩ | ⟨child', hchild', heq⟩
    · cases heq
    · obtain rfl := DagWork.overview.inj heq
      obtain ⟨name, rfl⟩ := mem_dirs hchild
      obtain ⟨name', heq⟩ := mem_dirs hchild'
      exact (List.cons.inj heq).2

theorem nodup_files_dirs (T : cfg.DirTree root) (h : cfg.InTree root uri) :
    (cfg.files uri).Nodup ∧ (cfg.dirs uri).Nodup := by
  have hnodup := List.nodup_append.1 (T.distinct uri h)
  refine ⟨hnodup.2.1, ?_⟩
  unfold DagConfig.dirs
  split_ifs
  · exact hnodup.1
  · exact List.nodup_nil

theorem nodup_awaits (T : cfg.DirTree root) (h : cfg.InTree root uri) : (cfg.awaits uri).Nodup := by
  obtain ⟨hfiles, hdirs⟩ := nodup_files_dirs T h
  refine List.nodup_append.2 ⟨hfiles.map fun _ _ heq => (DagWork.file.inj heq).2,
    hdirs.map fun _ _ heq => DagWork.overview.inj heq, fun a ha b hb => ?_⟩
  obtain ⟨path, -, rfl⟩ := List.mem_map.1 ha
  obtain ⟨child, -, rfl⟩ := List.mem_map.1 hb
  nofun

theorem nodup_spawns (T : cfg.DirTree root) (h : cfg.InTree root uri) : (cfg.spawns uri).Nodup := by
  obtain ⟨hfiles, hdirs⟩ := nodup_files_dirs T h
  refine List.nodup_append.2 ⟨hfiles.map fun _ _ heq => (DagWork.file.inj heq).2,
    hdirs.map fun _ _ heq => (DagWork.dir.inj heq).1, fun a ha b hb => ?_⟩
  obtain ⟨path, -, rfl⟩ := List.mem_map.1 ha
  obtain ⟨child, -, rfl⟩ := List.mem_map.1 hb
  nofun

/-! ## What the invariant says of an item -/

namespace Inv

variable {work : DagWork}

theorem mem_all_of_finished (hw : work ∈ s.finished) : work ∈ s.all :=
  List.mem_append_right _ hw

theorem mem_all_of_running (hw : work ∈ s.running) : work ∈ s.all :=
  List.mem_append_left _ (List.mem_append_right _ hw)

theorem mem_all_of_queue (hw : work ∈ s.queue) : work ∈ s.all :=
  List.mem_append_left _ (List.mem_append_left _ hw)

theorem inTree_of_listed (h : Inv cfg root s) {uri : Uri} (hl : s.Listed uri) : cfg.InTree root uri := by
  obtain ⟨parentUri, hdir⟩ := hl
  exact h.inTree uri parentUri (mem_all_of_finished hdir)

/-- A directory that is not the root was scheduled by the one that it is in. -/
theorem dir_mem (h : Inv cfg root s) {uri : Uri} {parentUri : Option Uri}
    (hw : .dir uri parentUri ∈ s.all) : (uri = root ∧ parentUri = none) ∨
      ∃ q, parentUri = some q ∧ s.Listed q ∧ uri ∈ cfg.dirs q := by
  rcases (h.mem_all _).1 hw with heq | ⟨q, hq, hspawn⟩ | ⟨q, heq, -⟩
  · exact .inl (DagWork.dir.inj heq)
  · rcases mem_spawns.1 hspawn with ⟨path, -, heq⟩ | ⟨child, hchild, heq⟩
    · cases heq
    · obtain ⟨rfl, rfl⟩ := DagWork.dir.inj heq
      exact .inr ⟨q, rfl, hq, hchild⟩
  · cases heq

theorem file_mem (h : Inv cfg root s) {q path : Uri} (hw : .file q path ∈ s.all) :
    s.Listed q ∧ path ∈ cfg.files q := by
  rcases (h.mem_all _).1 hw with heq | ⟨u, hu, hspawn⟩ | ⟨u, heq, -⟩
  · cases heq
  · rcases mem_spawns.1 hspawn with ⟨path', hpath, heq⟩ | ⟨child, -, heq⟩
    · obtain ⟨rfl, rfl⟩ := DagWork.file.inj heq
      exact ⟨hu, hpath⟩
    · cases heq
  · cases heq

theorem overview_mem (h : Inv cfg root s) {uri : Uri} : .overview uri ∈ s.all ↔ s.Ready cfg uri := by
  rw [h.mem_all]
  constructor
  · rintro (heq | ⟨u, -, hspawn⟩ | ⟨u, heq, hready⟩)
    · cases heq
    · rcases mem_spawns.1 hspawn with ⟨path, -, heq⟩ | ⟨child, -, heq⟩ <;> cases heq
    · obtain rfl := DagWork.overview.inj heq
      exact hready
  · exact fun hready => .inr (.inr ⟨uri, rfl, hready⟩)

theorem dir_unique (h : Inv cfg root s) {uri : Uri} {p p' : Option Uri}
    (hp : .dir uri p ∈ s.all) (hp' : .dir uri p' ∈ s.all) : p = p' := by
  rcases h.dir_mem hp with ⟨rfl, rfl⟩ | ⟨q, rfl, hq, hmem⟩
  · rcases h.dir_mem hp' with ⟨-, rfl⟩ | ⟨q, rfl, hq, hmem⟩
    · rfl
    · exact absurd hmem (root_not_mem_dirs (h.inTree_of_listed hq))
  · rcases h.dir_mem hp' with ⟨rfl, rfl⟩ | ⟨q', rfl, -, hmem'⟩
    · exact absurd hmem (root_not_mem_dirs (h.inTree_of_listed hq))
    · obtain ⟨name, rfl⟩ := mem_dirs hmem
      obtain ⟨name', heq⟩ := mem_dirs hmem'
      rw [(List.cons.inj heq).2]

theorem not_finished_of_running (h : Inv cfg root s) (hw : work ∈ s.running) : work ∉ s.finished := by
  intro hf
  have hnodup := h.nodup
  rw [all, List.append_assoc] at hnodup
  exact (List.nodup_append.1 hnodup.of_append_right).2.2 work hw work hf rfl

theorem not_finished_of_queue (h : Inv cfg root s) (hw : work ∈ s.queue) : work ∉ s.finished := by
  intro hf
  exact (List.nodup_append.1 h.nodup).2.2 work (List.mem_append_left _ hw) work hf rfl

/-- The directory or file that a piece of work is about. -/
private def uriOf : DagWork → Uri
  | .dir uri _ => uri
  | .file uri _ => uri
  | .overview uri => uri

/-- The overviews are of directories that are listed. -/
theorem countP_isOverview_le (h : Inv cfg root s) : s.all.countP isOverview ≤ s.finished.countP isDir := by
  have hnodup : ((s.all.filter isOverview).map uriOf).Nodup := by
    refine (h.nodup.filter _).map_on fun a ha b hb heq => ?_
    obtain ⟨-, ha⟩ := List.mem_filter.1 ha
    obtain ⟨-, hb⟩ := List.mem_filter.1 hb
    cases a <;> cases ha
    cases b <;> cases hb
    exact congrArg _ heq
  have hsub : (s.all.filter isOverview).map uriOf ⊆ (s.finished.filter isDir).map uriOf := by
    intro uri hmem
    obtain ⟨work, hwork, rfl⟩ := List.mem_map.1 hmem
    obtain ⟨hall, hover⟩ := List.mem_filter.1 hwork
    cases work <;> cases hover
    obtain ⟨parentUri, hdir⟩ := (h.overview_mem.1 hall).1
    exact List.mem_map.2 ⟨_, List.mem_filter.2 ⟨hdir, rfl⟩, rfl⟩
  have hle := (List.subperm_of_subset hnodup hsub).length_le
  rwa [List.length_map, List.length_map, ← List.countP_eq_length_filter,
    ← List.countP_eq_length_filter] at hle

end Inv

theorem inv_init (T : cfg.DirTree root) : Inv cfg root (init root) := by
  have hall : (init root).all = [.dir root none] := rfl
  have hnot : ∀ uri, ¬ (init root).Listed uri := fun uri => by
    rintro ⟨p, hp⟩
    cases hp
  refine ⟨?_, ?_, ?_, ?_, nofun, nofun, ?_, rfl, rfl, rfl, rfl⟩
  · rw [hall]
    exact List.nodup_singleton _
  · intro work
    rw [hall, List.mem_singleton]
    constructor
    · exact .inl
    · rintro (rfl | ⟨uri, hl, -⟩ | ⟨uri, -, hready⟩)
      · rfl
      · exact absurd hl (hnot uri)
      · exact absurd hready.1 (hnot uri)
  · intro uri parentUri hmem
    rw [hall, List.mem_singleton] at hmem
    obtain ⟨rfl, -⟩ := DagWork.dir.inj hmem
    exact .root
  · intro uri
    exact iff_of_false nofun fun hl => hnot uri hl.1
  · exact iff_of_false nofun List.not_mem_nil

/-! ## The start of an item -/

/-- The parents when an item has started. -/
def parentStarted (s : Dag) : DagWork → Uri → Option Uri
  | .dir uri parentUri => Function.update s.parent uri parentUri
  | _ => s.parent

/-- No item ends where it starts: the node of a directory is made when it is listed, and that of an
overview before it is scheduled. -/
theorem startWork_eq (h : Inv cfg root s) (hq : work ∈ s.queue) :
    s.startWork work = { s with
      queue := s.queue.erase work
      running := s.running ++ [work]
      stats := s.stats.started
      parent := s.parentStarted work } := by
  have hfinished := fun hf => h.not_finished_of_queue hq hf
  cases work with
  | dir uri parentUri =>
    have hnone : ¬ (s.nodes uri).isSome = true := by
      intro hsome
      obtain ⟨p, hp⟩ := ((h.nodes uri).1 hsome).1
      have heq := h.dir_unique (Inv.mem_all_of_queue hq) (Inv.mem_all_of_finished hp)
      exact hfinished (heq ▸ hp)
    simp only [startWork, if_neg hnone, parentStarted]
  | file q path => rfl
  | overview uri =>
    have hsome : (s.nodes uri).isSome = true :=
      (h.nodes uri).2 ⟨(h.overview_mem.1 (Inv.mem_all_of_queue hq)).1, hfinished⟩
    simp only [startWork, if_pos hsome, parentStarted]

theorem inv_start (h : Inv cfg root s) (hq : work ∈ s.queue) : Inv cfg root (s.startWork work) := by
  have hstart : (s.startWork work).running = s.running ++ [work] ∧
      (s.startWork work).finished = s.finished ∧ (s.startWork work).nodes = s.nodes ∧
      (s.startWork work).queue = s.queue.erase work ∧ (s.startWork work).rootDone = s.rootDone ∧
      (s.startWork work).stats = s.stats.started ∧
      (s.startWork work).parent = s.parentStarted work := by
    rw [startWork_eq h hq]
    exact ⟨rfl, rfl, rfl, rfl, rfl, rfl, rfl⟩
  obtain ⟨hrun, hfin, hnodes, hqueue, hroot, hstats, hparent⟩ := hstart
  generalize s.startWork work = t at *
  have hperm : t.all.Perm s.all := by
    rw [all, all, hrun, hfin, hqueue]
    refine List.Perm.append_right _ ?_
    have hmove := (List.perm_cons_erase hq).append_right s.running
    refine List.Perm.trans ?_ hmove.symm
    rw [← List.append_assoc]
    exact List.perm_append_singleton _ _
  have hlisted : ∀ uri, t.Listed uri ↔ s.Listed uri := fun uri => by
    rw [Listed, Listed, hfin]
  have hready : ∀ uri, t.Ready cfg uri ↔ s.Ready cfg uri := fun uri => by
    rw [Ready, Ready, hlisted, hfin]
  have hpos : 0 < s.stats.pendingNodes := by
    have hle := h.countP_isOverview_le
    have hpending := h.pendingNodes
    have hlen := List.length_pos_of_mem hq
    omega
  refine ⟨?_, ?_, ?_, ?_, ?_, ?_, ?_, ?_, ?_, ?_, ?_⟩
  · exact hperm.nodup_iff.2 h.nodup
  · intro w
    rw [hperm.mem_iff, h.mem_all]
    simp only [hlisted, hready]
  · intro uri p hmem
    exact h.inTree uri p (hperm.mem_iff.1 hmem)
  · intro uri
    rw [hnodes, hlisted, hfin]
    exact h.nodes uri
  · intro uri node hnode
    rw [hnodes] at hnode
    have hok := h.node_ok uri node hnode
    exact ⟨hok.filePaths, hok.childrenDirs, by rw [hfin]; exact hok.pending, hok.scheduled,
      by rw [hfin]; exact hok.summaries, by rw [hfin]; exact hok.abstracts⟩
  · intro uri p hmem hover
    rw [hrun, hfin, List.append_assoc, List.mem_append, List.mem_append, List.mem_singleton] at hmem
    rw [hfin] at hover
    have hkept : .dir uri p ∈ s.running ++ s.finished → t.parent uri = p := by
      intro hold
      rw [hparent, ← h.parent uri p hold hover]
      have hall : DagWork.dir uri p ∈ s.all := by
        rw [all, List.append_assoc]
        exact List.mem_append_right _ hold
      cases work with
      | dir u parentUri =>
        show Function.update s.parent u parentUri uri = s.parent uri
        rw [Function.update_apply, h.parent uri p hold hover]
        split_ifs with hu
        · subst hu
          exact h.dir_unique (Inv.mem_all_of_queue hq) hall
        · rfl
      | file q path => rfl
      | overview u => rfl
    rcases hmem with hmem | rfl | hmem
    · exact hkept (List.mem_append_left _ hmem)
    · rw [hparent]
      exact Function.update_self uri p s.parent
    · exact hkept (List.mem_append_right _ hmem)
  · rw [hroot, hfin]
    exact h.rootDone
  · rw [hstats, hperm.countP_eq, hfin, hqueue, List.length_erase_of_mem hq]
    have hpending := h.pendingNodes
    show s.stats.pendingNodes - 1 + _ = _
    have hlen := List.length_pos_of_mem hq
    omega
  · rw [hstats, hrun, List.length_append, List.length_singleton, ← h.inProgressNodes]
    rfl
  · rw [hstats, hfin]
    exact h.doneNodes
  · rw [hstats, hperm.countP_eq, hperm.length_eq]
    exact h.totalNodes

end Dag

end OpenViking.Queue
