import OpenViking.Common.System
import Mathlib.Data.Set.Finite.Basic

/-!
# The semantic DAG

A model of `SemanticDagExecutor` (`storage/queuefs/semantic_dag.py`): directories are listed when
their work item runs, files are summarised, and the overview of a directory is scheduled when a
counter of its pending items is down to zero.

A work item starts, and ends at a later step; what it does in between has no effect on the executor.
The locks of the nodes and of the vectorize tasks are never awaited: no one holds them over a
suspension but the overview task of a node, which starts after the last of its callbacks.

* `Dag.step`: the start and the end of a work item;
* `DirTree`: a finite tree of directories with distinct URIs.
-/

namespace OpenViking.Queue

/-! ## Directories -/

/-- A `VikingURI`: its segments, the last one first. -/
abbrev Uri := List String

local instance Uri.lawfulBEq : LawfulBEq Uri := inferInstance

/-- `VISITABLE_SCOPES` (`utils/uri.py`). -/
def visitableScopes : List String :=
  ["resources", "wiki", "user", "agent", "session", "temp", "queue", "upload"]

/-- `VikingURI.join` for a name without slashes; `none` when `_parse` raises. -/
def Uri.join (uri : Uri) (name : String) : Option Uri :=
  if ∃ scope ∈ visitableScopes, (name :: uri).getLast? = some scope then some (name :: uri) else none

/-- An entry of a listing. -/
structure DirEntry where
  name : String
  isDir : Bool
  deriving DecidableEq, Repr

/-- The entries that `_list_dir` leaves out. -/
def DirEntry.skipped (entry : DirEntry) : Bool :=
  decide (entry.name = "") || decide (entry.name.toList.head? = some '.') ||
    decide (entry.name ∈ ["messages.jsonl"])

/-- `recursive`, the workers of the scheduler, `skip_vectorization`, and `viking_fs.ls`. -/
structure DagConfig where
  recursive : Bool
  maxWorkers : ℕ
  skipVectorization : Bool
  ls : Uri → Option (List DirEntry)

/-- `_list_dir` (470-496): the directories and the files; `none` when a URI cannot be built. -/
def DagConfig.listDir (cfg : DagConfig) (uri : Uri) : Option (List Uri × List Uri) :=
  match cfg.ls uri with
  | none => some ([], [])
  | some entries =>
    let shown := entries.filter fun entry => !entry.skipped
    ((shown.filter (·.isDir)).mapM fun entry => uri.join entry.name).bind fun childrenDirs =>
      ((shown.filter (!·.isDir)).mapM fun entry => uri.join entry.name).map fun filePaths =>
        (childrenDirs, filePaths)

/-! ## State -/

/-- `DagWork`; what is vectorized comes after the DAG. -/
inductive DagWork where
  | dir (uri : Uri) (parentUri : Option Uri)
  | file (parentUri path : Uri)
  | overview (uri : Uri)
  deriving DecidableEq, Repr

/-- `DagStats`. -/
structure DagStats where
  totalNodes : ℕ
  pendingNodes : ℕ
  inProgressNodes : ℕ
  doneNodes : ℕ
  deriving DecidableEq, Repr

/-- `DirNode`, with the summaries and abstracts under the URIs that the indices are for. -/
structure DirNode where
  childrenDirs : List Uri
  filePaths : List Uri
  fileSummaries : Uri → Option String
  childrenAbstracts : Uri → Option (Option String)
  pending : ℤ
  overviewScheduled : Bool

/-- `VectorizeTask`. -/
inductive VectorizeTask where
  | file (path : Uri)
  | directory (uri : Uri)
  deriving DecidableEq, Repr

/-- What a task makes: the text, or `none` for an exception, and `need_vectorize`. -/
structure TaskOutcome where
  text : Option String
  needVectorize : Bool
  deriving DecidableEq, Repr

/-- An executor with its work items: those queued, and those that run.  `finished` is the history. -/
structure Dag where
  queue : List DagWork
  running : List DagWork
  nodes : Uri → Option DirNode
  parent : Uri → Option Uri
  stats : DagStats
  rootDone : Bool
  vectorizeTasks : List VectorizeTask
  finished : List DagWork

inductive DagAct where
  | start (work : DagWork)
  | finish (work : DagWork) (outcome : TaskOutcome)
  deriving DecidableEq, Repr

namespace DagStats

/-- `_schedule_dir`, `_schedule_file` (285-298), for so many nodes. -/
def scheduled (stats : DagStats) (n : ℕ) : DagStats :=
  { stats with totalNodes := stats.totalNodes + n, pendingNodes := stats.pendingNodes + n }

/-- `_mark_node_started` (299-301). -/
def started (stats : DagStats) : DagStats :=
  { stats with
    pendingNodes := stats.pendingNodes - 1
    inProgressNodes := stats.inProgressNodes + 1 }

/-- `_mark_node_waiting` (303-305). -/
def waiting (stats : DagStats) : DagStats :=
  { stats with
    inProgressNodes := stats.inProgressNodes - 1
    pendingNodes := stats.pendingNodes + 1 }

/-- `_mark_node_done` (307-309). -/
def done (stats : DagStats) : DagStats :=
  { stats with
    doneNodes := stats.doneNodes + 1
    inProgressNodes := stats.inProgressNodes - 1 }

end DagStats

/-! ## Steps -/

namespace Dag

variable (cfg : DagConfig)

/-- `run` (229-236) up to the wait for `_root_done`. -/
def init (rootUri : Uri) : Dag where
  queue := [.dir rootUri none]
  running := []
  nodes _ := none
  parent _ := none
  stats := (DagStats.mk 0 0 0 0).scheduled 1
  rootDone := false
  vectorizeTasks := []
  finished := []

/-- `_schedule_overview` (705-710). -/
def scheduleOverview (s : Dag) (dirUri : Uri) : Dag :=
  match s.nodes dirUri with
  | none => s
  | some node =>
    if node.overviewScheduled then s
    else
      { s with
        nodes := Function.update s.nodes dirUri (some { node with overviewScheduled := true })
        queue := s.queue ++ [.overview dirUri] }

/-- `_add_vectorize_task` (846-860). -/
def addVectorizeTask (s : Dag) (needVectorize : Bool) (task : VectorizeTask) : Dag :=
  if needVectorize = true ∧ cfg.skipVectorization = false then
    { s with vectorizeTasks := s.vectorizeTasks ++ [task] }
  else s

/-- What `_on_file_done` and `_on_child_done` do with the node of the parent. -/
def onDone (s : Dag) (parentUri : Uri) (record : DirNode → DirNode) : Dag :=
  match s.nodes parentUri with
  | none => s
  | some node =>
    let node := record node
    let node := { node with pending := node.pending - 1 }
    let s := { s with nodes := Function.update s.nodes parentUri (some node) }
    if node.pending = 0 ∧ node.overviewScheduled = false then s.scheduleOverview parentUri else s

/-- `_on_file_done` (676-689). -/
def onFileDone (s : Dag) (parentUri path : Uri) (summary : String) : Dag :=
  s.onDone parentUri fun node =>
    if path ∈ node.filePaths then
      { node with fileSummaries := Function.update node.fileSummaries path (some summary) }
    else node

/-- `_on_child_done` (691-703). -/
def onChildDone (s : Dag) (parentUri childUri : Uri) (abstract : Option String) : Dag :=
  s.onDone parentUri fun node =>
    if childUri ∈ node.childrenDirs then
      { node with
        childrenAbstracts := Function.update node.childrenAbstracts childUri (some abstract) }
    else node

/-- `_release_dir_node` (311-313). -/
def releaseDirNode (s : Dag) (dirUri : Uri) : Dag :=
  { s with
    nodes := Function.update s.nodes dirUri none
    parent := Function.update s.parent dirUri none }

/-- The end of `_dispatch_dir` (429-468), from the listing on, with what `_run_work` does after it. -/
def finishDir (s : Dag) (dirUri : Uri) (parentUri : Option Uri) : Dag :=
  match cfg.listDir dirUri with
  | none =>
    let s :=
      match parentUri with
      | some parentUri => s.onChildDone parentUri dirUri (some "")
      | none => { s with rootDone := true }
    { s with stats := s.stats.done }
  | some (childrenDirs, filePaths) =>
    let children := if cfg.recursive then childrenDirs else []
    let node : DirNode := {
      childrenDirs := childrenDirs
      filePaths := filePaths
      fileSummaries _ := none
      childrenAbstracts _ := none
      pending := children.length + filePaths.length
      overviewScheduled := false }
    let s := { s with nodes := Function.update s.nodes dirUri (some node) }
    let s :=
      if node.pending = 0 then s.scheduleOverview dirUri
      else
        { s with
          queue := s.queue ++ (filePaths.map (.file dirUri) ++
            children.map (.dir · (some dirUri)))
          stats := s.stats.scheduled (filePaths.length + children.length) }
    { s with stats := s.stats.waiting }

/-- The end of `_file_summary_task` (649-674). -/
def finishFile (s : Dag) (parentUri path : Uri) (outcome : TaskOutcome) : Dag :=
  (({ s with stats := s.stats.done }.addVectorizeTask cfg outcome.needVectorize (.file path)).onFileDone
    parentUri path (outcome.text.getD ""))

/-- The end of `_overview_task` (823-844). -/
def finishOverview (s : Dag) (dirUri : Uri) (outcome : TaskOutcome) : Dag :=
  let s := { s with stats := s.stats.done }.addVectorizeTask cfg outcome.needVectorize
    (.directory dirUri)
  match s.parent dirUri with
  | none => { s.releaseDirNode dirUri with rootDone := true }
  | some parentUri => (s.onChildDone parentUri dirUri outcome.text).releaseDirNode dirUri

/-- `_run_work` (341-373) up to the first suspension of the item, or to its end when there is none. -/
def startWork (s : Dag) (work : DagWork) : Dag :=
  let s := { s with queue := s.queue.erase work, stats := s.stats.started }
  match work with
  | .dir dirUri parentUri =>
    if (s.nodes dirUri).isSome then
      { s with stats := s.stats.done, finished := s.finished ++ [work] }
    else
      { s with
        parent := Function.update s.parent dirUri parentUri
        running := s.running ++ [work] }
  | .file _ _ => { s with running := s.running ++ [work] }
  | .overview dirUri =>
    if (s.nodes dirUri).isSome then { s with running := s.running ++ [work] }
    else { s with finished := s.finished ++ [work] }

/-- The rest of a work item. -/
def finishWork (s : Dag) (work : DagWork) (outcome : TaskOutcome) : Dag :=
  let s := { s with running := s.running.erase work, finished := s.finished ++ [work] }
  match work with
  | .dir dirUri parentUri => s.finishDir cfg dirUri parentUri
  | .file parentUri path => s.finishFile cfg parentUri path outcome
  | .overview dirUri => s.finishOverview cfg dirUri outcome

/-- One step: a worker takes any queued item, or an item that runs comes to its end. -/
def step (s : Dag) : DagAct → Option Dag
  | .start work =>
    if work ∈ s.queue ∧ s.running.length < max 1 cfg.maxWorkers then some (s.startWork work)
    else none
  | .finish work outcome =>
    if work ∈ s.running then some (s.finishWork cfg work outcome) else none

end Dag

/-! ## Trees -/

namespace DagConfig

variable (cfg : DagConfig)

def listing (uri : Uri) : List Uri × List Uri := (cfg.listDir uri).getD ([], [])

/-- The files of a directory. -/
def files (uri : Uri) : List Uri := (cfg.listing uri).2

/-- The directories in a directory that are visited. -/
def dirs (uri : Uri) : List Uri := if cfg.recursive then (cfg.listing uri).1 else []

/-- The directories of the tree. -/
inductive InTree (root : Uri) : Uri → Prop
  | root : InTree root root
  | child {uri child : Uri} (h : InTree root uri) (hchild : child ∈ cfg.dirs uri) :
      InTree root child

/-- A finite tree of directories: every entry has a URI, and no two in a listing have the same. -/
structure DirTree (root : Uri) : Prop where
  uris : ∀ uri, cfg.InTree root uri → (cfg.listDir uri).isSome
  distinct : ∀ uri, cfg.InTree root uri → ((cfg.listing uri).1 ++ (cfg.listing uri).2).Nodup
  finite : {uri | cfg.InTree root uri}.Finite

/-- What the overview of a directory waits for. -/
def awaits (uri : Uri) : List DagWork :=
  (cfg.files uri).map (.file uri) ++ (cfg.dirs uri).map .overview

/-- What the listing of a directory schedules. -/
def spawns (uri : Uri) : List DagWork :=
  (cfg.files uri).map (.file uri) ++ (cfg.dirs uri).map (.dir · (some uri))

end DagConfig

end OpenViking.Queue
