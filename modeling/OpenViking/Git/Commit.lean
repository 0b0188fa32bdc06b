import OpenViking.Git.TreeEditor
import OpenViking.Git.WorkTree

/-!
# Commits

A model of `GitService::commit_impl` (`crates/ragfs/src/git/service.rs`, 156-715) on a disk that does
not change meanwhile, with `prune_path` and `collect_under` (`enumerate.rs`), `should_track_path`
(`ignore.rs`) and the stat cache.

The hash of a blob, its length and the ignore patterns that a `.ovgitignore` file means are
parameters.  A commit is named by the number that it got; the index is stamped with the time of its
save by whoever saves it.  A full commit lists the root, so its scope is the empty path.
-/

namespace OpenViking.Git

/-! ## Which paths are tracked -/

/-- `INTERNAL_FIRST_SEGMENTS` (enumerate.rs, 29). -/
def internalFirstSegments : List String := ["_system", "tasks", "temp", "queue", "upload"]

/-- `prune_path` (enumerate.rs, 39-77). -/
def prunePath (rel : Path) : Bool :=
  match rel, rel.getLast? with
  | first :: _, some last =>
    internalFirstSegments.contains first ||
      rel.any (fun seg => ".path.ovlock".toList.isPrefixOf seg.toList) ||
      rel.dropLast.contains "embedding_cache" ||
      (".faiss".toList.isSuffixOf last.toList || ".index".toList.isSuffixOf last.toList)
  | _, _ => true

/-- `OVGITIGNORE_PATH`. -/
def ovgitignorePath : Path := [".ovgitignore"]

/-- `should_track_path` (ignore.rs, 132-137). -/
def shouldTrackPath (ignored : Path → Bool) (rel : Path) : Bool :=
  if rel = ovgitignorePath then true else !prunePath rel && !ignored rel

/-! ## The stat cache -/

/-- `IndexEntry`. -/
structure IndexEntry (O : Type*) where
  size : ℕ
  mtime : ℤ
  oid : O
  deriving DecidableEq

/-- `CommitIndex` (index_store.rs, 67-82); `saved_at_ns` is none for a time before the epoch. -/
structure CommitIndex (O : Type*) where
  parent : ℕ
  entries : Dict Path (IndexEntry O)
  savedAt : Option ℤ

/-! ## Requests -/

variable {B O : Type*}

/-- The hash that names a blob, its length, and `IgnoreMatcher::parse`, none for an invalid file. -/
structure Env (B O : Type*) where
  hash : B → O
  size : B → ℕ
  parse : B → Option (Path → Bool)

/-- What `commit` answers; the tree is the one that the new commit names. -/
inductive CommitResponse (O : Type*) where
  | noop (ignored : ℕ)
  | created (tree : Tree O) (changed ignored : ℕ)

inductive CommitError where
  | invalidIgnoreFile
  | isADirectory (path : Path)
  deriving DecidableEq

/-! ## Candidates -/

/-- `BTreeSet::insert` of a path, which is a text there. -/
def insertPath (p : Path) : List Path → List Path
  | [] => [p]
  | q :: qs =>
    if p = q then q :: qs
    else if "/".intercalate p < "/".intercalate q then p :: q :: qs
    else q :: insertPath p qs

/-- `TreeEditor::upsert` on a whole path. -/
def TreeEditor.upsertPath (ed : TreeEditor O) (p : Path) (oid : O) : TreeEditor O :=
  match p.getLast? with
  | some name => ed.upsert p.dropLast name oid
  | none => ed

/-- `TreeEditor::remove` on a whole path. -/
def TreeEditor.removePath (ed : TreeEditor O) (p : Path) : TreeEditor O :=
  match p.getLast? with
  | some name => ed.remove p.dropLast name
  | none => ed

/-- What the assembly of the candidates (257-497) has come to: the editor, the candidates, the paths
credited as ignored and as removed, the changes, and what the index forgets. -/
structure Scan (O : Type*) where
  editor : TreeEditor O
  candidates : List Path
  ignored : List Path
  removed : List Path
  changed : ℕ
  cleanupExact : List Path
  cleanupUnder : List Path

namespace Scan

/-- `include_path` (174-185). -/
def includePath (m : Path → Bool) (s : Scan O) (p : Path) : Bool × Scan O :=
  if prunePath p then (false, s)
  else if !shouldTrackPath m p then
    (false, { s with ignored := if p ∈ s.ignored then s.ignored else p :: s.ignored })
  else (true, s)

def addCandidate (s : Scan O) (p : Path) : Scan O :=
  { s with candidates := insertPath p s.candidates }

/-- A path that the listing found (270-277, 454-459). -/
def listed (m : Path → Bool) (s : Scan O) (p : Path) : Scan O :=
  match s.includePath m p with
  | (true, s) => s.addCandidate p
  | (false, s) => s

/-- A path is dropped from the snapshot and credited once. -/
def drop (s : Scan O) (p : Path) : Scan O :=
  { s with
    editor := s.editor.removePath p
    changed := if p ∈ s.removed then s.changed else s.changed + 1
    removed := if p ∈ s.removed then s.removed else p :: s.removed }

/-- A file of the previous tree in the scope (288-313, 417-442, 468-486). -/
def previous (m : Path → Bool) (s : Scan O) (p : Path) : Scan O :=
  if shouldTrackPath m p then s.addCandidate p else s.drop p

/-- A listed path that is no directory (317-361, 377-404): a candidate, unless it is not tracked, when
it is dropped if the previous tree has it. -/
def exactly (m : Path → Bool) (prevFiles : List (Path × O)) (s : Scan O) (p : Path) : Scan O :=
  match s.includePath m p with
  | (true, s) => s.addCandidate p
  | (false, s) =>
    if (prevFiles.any fun e => decide (e.1 = p)) && decide (p ∉ s.removed) then s.drop p else s

/-- The files of the previous tree below a path. -/
def previousUnder (m : Path → Bool) (prevFiles : List (Path × O)) (s : Scan O) (p : Path) : Scan O :=
  (prevFiles.filter fun e => decide (Under p e.1)).foldl (fun s e => s.previous m e.1) s

/-- The files of a directory on disk and in the previous tree. -/
def directory (m : Path → Bool) (disk : Disk B) (prevFiles : List (Path × O)) (s : Scan O)
    (p : Path) : Scan O :=
  let listing := (disk.listUnder p).filter fun q => !prunePath q
  (listing.foldl (listed m) s).previousUnder m prevFiles p

/-- A listed path (261-446). -/
def path (m : Path → Bool) (disk : Disk B) (prevFiles : List (Path × O)) (s : Scan O) (p : Path) :
    Scan O :=
  match disk.stat p with
  | some .dir => ({ s with cleanupUnder := p :: s.cleanupUnder }).directory m disk prevFiles p
  | some (.file _ _) => ({ s with cleanupExact := p :: s.cleanupExact }).exactly m prevFiles p
  | none =>
    (({ s with cleanupExact := p :: s.cleanupExact, cleanupUnder := p :: s.cleanupUnder }).exactly m
      prevFiles p).previousUnder m prevFiles p

end Scan

/-- The assembly of the candidates (257-497). -/
def scan (m : Path → Bool) (disk : Disk B) (prev : Option (Tree O)) (paths : Option (List Path)) :
    Scan O :=
  let start : Scan O := ⟨prev.elim .empty .fromTree, [], [], [], 0, [], []⟩
  let prevFiles := prev.elim [] Tree.flatten
  match paths with
  | some ps => ps.foldl (Scan.path m disk prevFiles) start
  | none => start.directory m disk prevFiles []

/-! ## Candidates in turn -/

/-- What the main loop (550-669) has come to. -/
structure Progress (O : Type*) where
  editor : TreeEditor O
  changed : ℕ
  index : Dict Path (IndexEntry O)

/-- `stat_signature` (1642-1646). -/
def statSignature (env : Env B O) (bytes : B) (mtime : ℤ) : Option (ℕ × ℤ) :=
  if 0 ≤ mtime then some (env.size bytes, mtime) else none

/-- The blob id of a file: the cached one where the signature matches and is older than the index, else
the hash of the bytes read (566-606). -/
def blobOid (env : Env B O) (prevIndex : Option (CommitIndex O)) (p : Path) (bytes : B)
    (mtime : ℤ) : O :=
  match prevIndex.bind fun idx => (idx.entries.get p).map (·, idx.savedAt),
      statSignature env bytes mtime with
  | some (entry, some saved), some (size, mtime) =>
    if entry.size = size ∧ entry.mtime = mtime ∧ mtime < saved then entry.oid else env.hash bytes
  | _, _ => env.hash bytes

/-- The entry of the previous tree at a path. -/
def prevEntry (prev : Option (Tree O)) (p : Path) : Option (Entry O) := prev.bind (·.lookup p)

/-- One candidate (551-668). -/
def candidate [DecidableEq O] (env : Env B O) (disk : Disk B) (prev : Option (Tree O))
    (useIndex : Bool) (prevIndex : Option (CommitIndex O)) (s : Progress O) (p : Path) :
    Except CommitError (Progress O) :=
  match disk.stat p with
  | some .dir => .error (.isADirectory p)
  | some (.file bytes mtime) =>
    let oid := blobOid env prevIndex p bytes mtime
    let s := if prevEntry prev p = some (.blob oid) then s
      else { s with editor := s.editor.upsertPath p oid, changed := s.changed + 1 }
    let s := if !useIndex then s
      else match statSignature env bytes mtime with
        | some (size, mtime) => { s with index := s.index.set p ⟨size, mtime, oid⟩ }
        | none => { s with index := s.index.erase p }
    .ok s
  | none =>
    let s := if (prevEntry prev p).isSome
      then { s with editor := s.editor.removePath p, changed := s.changed + 1 } else s
    .ok (if useIndex then { s with index := s.index.erase p } else s)

/-- The seed of the new index (499-527). -/
def indexSeed (m : Path → Bool) (useIndex : Bool) (prevIndex : Option (CommitIndex O))
    (paths : Option (List Path)) (s : Scan O) : Dict Path (IndexEntry O) :=
  if !useIndex then .empty
  else
    let seed := match paths, prevIndex with
      | some _, some idx => idx.entries
      | _, _ => .empty
    seed.filter fun p _ => decide (p ∉ s.cleanupExact) &&
      !(s.cleanupUnder.any fun dir => decide (Under dir p)) && shouldTrackPath m p

/-! ## Commits -/

/-- `commit_impl` after the ignore file has been read: the response and the new index. -/
def commitWith [DecidableEq O] (env : Env B O) (m : Path → Bool) (disk : Disk B)
    (prev : Option (Tree O)) (paths : Option (List Path)) (useIndex : Bool)
    (prevIndex : Option (CommitIndex O)) :
    Except CommitError (CommitResponse O × Dict Path (IndexEntry O)) := do
  let s := scan m disk prev paths
  let r ← s.candidates.foldlM (candidate env disk prev useIndex prevIndex)
    ⟨s.editor, s.changed, indexSeed m useIndex prevIndex paths s⟩
  if r.changed = 0 then return (.noop s.ignored.length, r.index)
  return (.created r.editor.write r.changed s.ignored.length, r.index)

/-- `load_ignore_matcher` (1624-1634). -/
def loadIgnoreMatcher (env : Env B O) (disk : Disk B) : Except CommitError (Path → Bool) :=
  match disk.stat ovgitignorePath with
  | none => .ok fun _ => false
  | some .dir => .error (.isADirectory ovgitignorePath)
  | some (.file bytes _) =>
    match env.parse bytes with
    | some m => .ok m
    | none => .error .invalidIgnoreFile

/-- `commit_impl` (156-715). -/
def commit [DecidableEq O] (env : Env B O) (disk : Disk B) (prev : Option (Tree O))
    (paths : Option (List Path)) (useIndex : Bool) (prevIndex : Option (CommitIndex O)) :
    Except CommitError (CommitResponse O × Dict Path (IndexEntry O)) :=
  match loadIgnoreMatcher env disk with
  | .error e => .error e
  | .ok m => commitWith env m disk prev paths useIndex prevIndex

end OpenViking.Git
