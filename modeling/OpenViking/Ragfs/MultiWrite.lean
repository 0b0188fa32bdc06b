import Mathlib.Logic.Function.Basic
import OpenViking.Ragfs.Mounts

/-!
# Writes of a file system with several backends

`Inner::execute_write` (`crates/ragfs/src/core/multibackend_wrapper.rs`, 729-825): it records what it
is about to do in the sync log of the directory, writes to the primary backend, and then marks the
record as committed and hands the operation on to the backups.  Reads and writes of the metadata
succeed, and one call runs at a time.

Deviation: the record takes the place of the one that the name had before, and a failure of the
primary removes it.  What an earlier operation on the name still owed to a backup is lost.

Results:

* `executeWrite_rejected`: what a rejected write leaves;
* `restored_iff`: when this is what there was;
* `not_owed_of_rejected`: nothing is owed for the name any more.
-/

namespace OpenViking.Ragfs

/-! ## Model -/

/-- `SyncOp` (`core/types.rs`, 550-579). -/
inductive SyncOp where
  | create
  | syncFile (size : ℕ)
  | mkdir (mode : ℕ)
  | chmod (mode : ℕ)
  | remove
  | removeAll
  | rename (target : Path)
  deriving DecidableEq

/-- `BackendSyncState` (581-591). -/
structure BackendSyncState where
  ackedSeq : ℕ
  retryFailures : ℕ
  quarantined : Bool
  deriving DecidableEq

/-- `SyncLogEntry` (620-630). -/
structure SyncLogEntry where
  latestSeq : ℕ
  primaryCommitted : Bool
  op : SyncOp
  backends : String → Option BackendSyncState

namespace SyncLogEntry

/-- `SyncLogEntry::new` (638-645). -/
def new (latestSeq : ℕ) (op : SyncOp) : SyncLogEntry := ⟨latestSeq, false, op, fun _ => none⟩

/-- `acked_seq` (673-677). -/
def ackedSeq (entry : SyncLogEntry) (backend : String) : ℕ :=
  ((entry.backends backend).map BackendSyncState.ackedSeq).getD 0

/-- `is_in_sync` (687-689). -/
def isInSync (entry : SyncLogEntry) (backend : String) : Bool :=
  decide (entry.latestSeq ≤ entry.ackedSeq backend)

end SyncLogEntry

/-- What a directory holds: `RedirectMeta` and `SyncLogMeta`, by the names in it. -/
structure DirMeta where
  redirect : Path → Option (List String)
  syncLog : Path → Option SyncLogEntry

/-- The state of the wrapper: the sequence number that comes next, the metadata of the directories,
and those that have work pending. -/
structure MultiWrite where
  nextSeq : UInt64
  dirs : Path → DirMeta
  pendingDirs : List Path

/-- `file_name` (`multibackend/meta.rs`, 518-523). -/
def fileName (path : Path) : Path := (path.reverse.takeWhile (· ≠ '/')).reverse

namespace MultiWrite

/-- `next_seq` (meta.rs, 402-409): it stays at the last number. -/
def takeSeq (s : MultiWrite) : UInt64 × MultiWrite :=
  (s.nextSeq, { s with nextSeq := if s.nextSeq.toNat + 1 < 2 ^ 64 then s.nextSeq + 1 else s.nextSeq })

/-- `update_dir_meta` (meta.rs, 286-310): nothing is written when the change fails. -/
def updateDirMeta (s : MultiWrite) (dir : Path) (op : DirMeta → Except Error DirMeta) :
    Except Error MultiWrite :=
  (op (s.dirs dir)).map fun changed => { s with dirs := Function.update s.dirs dir changed }

/-- `mark_pending_dir`. -/
def markPendingDir (s : MultiWrite) (dir : Path) : MultiWrite :=
  { s with pendingDirs := dir :: s.pendingDirs }

end MultiWrite

/-- The insertion of the prepared entry (752-757). -/
def prepare (name : Path) (seq : UInt64) (op : SyncOp) (dir : DirMeta) : Except Error DirMeta :=
  .ok { dir with syncLog := Function.update dir.syncLog name (some (.new seq.toNat op)) }

/-- What is done when the primary fails (778-790). -/
def withdraw (name : Path) (seq : UInt64) (dir : DirMeta) : Except Error DirMeta :=
  let shouldRemove := (dir.syncLog name).any fun entry =>
    decide (entry.latestSeq = seq.toNat) && !entry.primaryCommitted
  .ok (if shouldRemove then { dir with syncLog := Function.update dir.syncLog name none } else dir)

/-- What is done when the primary is done (799-813). -/
def commit (name : Path) (seq : UInt64) (dir : DirMeta) : Except Error DirMeta :=
  match dir.syncLog name with
  | none => .error (.internal ("prepared sync log entry missing while committing '" ++ String.ofList name ++ "'"))
  | some entry =>
    if entry.latestSeq ≠ seq.toNat then
      .error (.internal
        ("prepared sync log entry seq mismatch while committing '" ++ String.ofList name ++ "'"))
    else
      let committed := { entry with primaryCommitted := true }
      .ok { dir with syncLog := Function.update dir.syncLog name (some committed) }

/-- What the wrapper does with a write that is done: `fanout_write`, where there are backups, and
then `refresh_pending_dir` (817-823). -/
abbrev Finish := MultiWrite → Except Error Unit × MultiWrite

/-- The second half of `execute_write` (767-824), with the sequence number of what was prepared. -/
def settle {R : Type} (finish : Finish) (s : MultiWrite) (dir name : Path) (seq : Option UInt64) :
    Except Error R → Except Error R × MultiWrite
  | .error e =>
    match seq with
    | none => (.error e, s)
    | some seq => (.error e, (s.updateDirMeta dir (withdraw name seq)).toOption.getD s)
  | .ok result =>
    let committed : Except Error MultiWrite := match seq with
      | none => .ok s
      | some seq => (s.updateDirMeta dir (commit name seq)).map fun s => s.markPendingDir dir
    match committed with
    | .error e => (.error e, s)
    | .ok s => ((finish s).1.map fun _ => result, (finish s).2)

/-- `execute_write` (729-825), with what the primary answers. -/
def executeWrite {R : Type} (finish : Finish) (s : MultiWrite) (path : Path) (syncOp : Option SyncOp)
    (primary : Except Error R) : Except Error R × MultiWrite :=
  let dir := parentDir path
  let name := fileName path
  match syncOp with
  | none => settle finish s dir name none primary
  | some op =>
    let (seq, s) := s.takeSeq
    match s.updateDirMeta dir (prepare name seq op) with
    | .error e => (.error e, s)
    | .ok s => settle finish s dir name (some seq) primary

/-- The methods of the wrapper that call `execute_write` (1292-1331, 1433-1465). -/
inductive PathWrite where
  | create
  | mkdir (mode : ℕ)
  | write (dataLen : ℕ)
  | truncate (size : ℕ)
  | chmod (mode : ℕ)
  | remove
  | removeAll
  | ensureParentDirs (mode : ℕ)

/-- The operation that each of them records. -/
def PathWrite.syncOp : PathWrite → Option SyncOp
  | .create => some .create
  | .mkdir mode => some (.mkdir mode)
  | .write dataLen => some (.syncFile dataLen)
  | .truncate size => some (.syncFile size)
  | .chmod mode => some (.chmod mode)
  | .remove => some .remove
  | .removeAll => some .removeAll
  | .ensureParentDirs _ => none

/-- An operation on a name that a backup has not acknowledged. -/
def DirMeta.Owed (dir : DirMeta) (name : Path) (backend : String) : Prop :=
  ∃ entry, dir.syncLog name = some entry ∧ entry.isInSync backend = false

/-! ## Rejected writes -/

variable {R : Type} {finish : Finish} {s : MultiWrite} {path : Path} {op : SyncOp} {e : Error}

/-- The prepared entry is the one that a failure removes. -/
theorem withdraw_prepare (name : Path) (seq : UInt64) (op : SyncOp) (dir : DirMeta) :
    (prepare name seq op dir).bind (withdraw name seq) =
      .ok { dir with syncLog := Function.update dir.syncLog name none } := by
  show withdraw name seq _ = _
  unfold withdraw
  simp [SyncLogEntry.new]

/-- A rejected write answers the error of the primary, and leaves the directory without an entry for
the name. -/
theorem executeWrite_rejected (op : SyncOp) :
    executeWrite finish s path (some op) (.error e : Except Error R) =
      (.error e, { s.takeSeq.2 with
        dirs := Function.update s.dirs (parentDir path)
          { s.dirs (parentDir path) with
            syncLog := Function.update (s.dirs (parentDir path)).syncLog (fileName path) none } }) := by
  have hwithdraw := withdraw_prepare (fileName path) s.takeSeq.1 op (s.dirs (parentDir path))
  simp only [prepare, Except.bind] at hwithdraw
  simp only [executeWrite, settle, MultiWrite.updateDirMeta, prepare, Except.map, MultiWrite.takeSeq,
    Function.update_self, Function.update_idem] at hwithdraw ⊢
  rw [hwithdraw]
  rfl

theorem update_none_eq_iff (f : Path → Option SyncLogEntry) (name : Path) :
    Function.update f name none = f ↔ f name = none :=
  ⟨fun h => by rw [← h, Function.update_self], fun h => by rw [← h, Function.update_eq_self]⟩

/-- After the write no directory has changed. -/
def Restored (s t : MultiWrite) : Prop := ∀ dir, t.dirs dir = s.dirs dir

theorem restored_of_dir {dir : Path} {changed : DirMeta} {t : MultiWrite}
    (h : t.dirs = Function.update s.dirs dir changed) : Restored s t ↔ changed = s.dirs dir := by
  refine ⟨fun hsame => ?_, fun heq d => ?_⟩
  · rw [← hsame dir, h, Function.update_self]
  · rw [h, heq, Function.update_eq_self]

/-- A write that the primary rejects fails with its error, and leaves redirects and sync logs as they
were exactly when it records nothing or the sync log of its directory had no entry for its name. -/
theorem restored_iff (R : Type) (finish : Finish) (s : MultiWrite) (path : Path) (call : PathWrite)
    (e : Error) :
    (executeWrite finish s path call.syncOp (.error e : Except Error R)).1 = .error e ∧
    (Restored s (executeWrite finish s path call.syncOp (.error e : Except Error R)).2 ↔
      call.syncOp = none ∨ (s.dirs (parentDir path)).syncLog (fileName path) = none) := by
  cases hop : call.syncOp with
  | none => exact ⟨rfl, iff_of_true (fun _ => rfl) (Or.inl rfl)⟩
  | some op =>
    rw [executeWrite_rejected op]
    refine ⟨rfl, ?_⟩
    rw [restored_of_dir rfl, or_iff_right (Option.some_ne_none op), ← update_none_eq_iff]
    exact ⟨fun h => congrArg DirMeta.syncLog h, fun h => by rw [h]⟩

/-- What was owed to a backup for the name is not owed any more. -/
theorem not_owed_of_rejected (op : SyncOp) (backend : String) :
    ¬ ((executeWrite finish s path (some op) (.error e : Except Error R)).2.dirs
      (parentDir path)).Owed (fileName path) backend := by
  rw [executeWrite_rejected op]
  rintro ⟨entry, hentry, _⟩
  simp at hentry

/-- A file was removed and backup `b` has not followed; then `chmod` of the removed file fails. -/
def removedFile : MultiWrite where
  nextSeq := 2
  dirs _ := ⟨fun _ => none, fun name => if name = ['f'] then some ⟨1, true, .remove, fun _ => none⟩ else none⟩
  pendingDirs := [['/']]

theorem restored_fails :
    ((removedFile.dirs ['/']).Owed ['f'] "b") ∧
    (executeWrite (fun t => (.ok (), t)) removedFile ['/', 'f'] (PathWrite.chmod 0o600).syncOp
      (.error (.notFound ['/', 'f']) : Except Error Unit)).1 = .error (.notFound ['/', 'f']) ∧
    ¬ ((executeWrite (fun t => (.ok (), t)) removedFile ['/', 'f'] (PathWrite.chmod 0o600).syncOp
      (.error (.notFound ['/', 'f']) : Except Error Unit)).2.dirs ['/']).Owed ['f'] "b" :=
  ⟨⟨_, rfl, by decide⟩, rfl, not_owed_of_rejected (.chmod 0o600) "b"⟩

end OpenViking.Ragfs
