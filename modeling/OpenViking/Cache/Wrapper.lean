import OpenViking.Common.StateSpec
import Mathlib.Logic.Function.Basic
import Mathlib.Data.Int.Notation
import Mathlib.Data.List.Infix
import Mathlib.Algebra.Ring.Nat

/-!
# The read-through cache

A model of `CachedFileSystem` (`crates/ragfs/src/cache/wrapper.rs`, 430-1177) with its policy
(`policy.rs`) and its envelopes (`envelope.rs`), for requests that come one after another.

A normalised path is the list of its components.  The hash of a path, which names its keys, is a
parameter, so two paths may share their keys.  The cache provider follows a script of faults: before each
call it drops what it likes, and any call can fail; a value whose `put` failed may have arrived or not,
and a failed `delete` leaves the old one.  Generations are 64-bit numbers that wrap around.  What a value
is after `serde_json` has written and read it is taken to be itself.
-/

namespace OpenViking.Cache

/-- The components of a normalised path. -/
abbrev Path := List String

abbrev Bytes := List UInt8

/-! ## Values -/

/-- `FileInfo` (`core/types.rs`). -/
structure FileInfo where
  name : String
  size : ℕ
  mode : ℕ
  modTime : ℤ
  isDir : Bool
  deriving DecidableEq

inductive WriteFlag where
  | create
  | append
  | truncate
  | none
  deriving DecidableEq

/-- `CacheObjectKind`. -/
inductive CacheObjectKind where
  | file
  | directory
  deriving DecidableEq

/-- The keys of the provider, by the hash of their path (`object_key`, 961-969). -/
inductive Key (H : Type) where
  | file (hash : H)
  | dir (hash : H)
  | subtree (hash : H)
  deriving DecidableEq

/-- `GenerationSnapshot`; the key is that of a subtree. -/
structure GenerationSnapshot (H : Type) where
  key : H
  value : UInt64
  deriving DecidableEq

/-- `CachePayload`. -/
inductive CachePayload where
  | file (data : Bytes)
  | directory (entries : List FileInfo)
  deriving DecidableEq

/-- `CacheEnvelope`, without its constant version. -/
structure CacheEnvelope (H : Type) where
  kind : CacheObjectKind
  path : Path
  generations : List (GenerationSnapshot H)
  payload : CachePayload
  deriving DecidableEq

/-- What the provider holds: eight bytes of a generation, or an encoded envelope. -/
inductive Value (H : Type) where
  | generation (value : UInt64)
  | envelope (envelope : CacheEnvelope H)
  deriving DecidableEq

/-! ## Policy -/

structure CachePolicy where
  maxFileSize : ℕ
  maxCachedDirEntries : ℕ
  bypassPrefixes : List Path

namespace CachePolicy

/-- `cache_path` (policy.rs, 127-159). -/
def cachePath (policy : CachePolicy) (path : Path) : Bool :=
  let name := path.getLast?.getD ""
  !(policy.bypassPrefixes.any fun pre => decide (pre <+: path)) &&
    !(name == ".path.ovlock" || ".lock".toList.isSuffixOf name.toList ||
      ".lck".toList.isSuffixOf name.toList ||
      ["enqueue", "dequeue", "peek", "ack", "heartbeat", "lease", "cursor", "offset", "pid"].contains
        name)

/-- `cache_file`. -/
def cacheFile (policy : CachePolicy) (path : Path) (size : ℕ) : Bool :=
  decide (size ≤ policy.maxFileSize) && policy.cachePath path

/-- `cache_directory`. -/
def cacheDirectory (policy : CachePolicy) (path : Path) : Bool := policy.cachePath path

/-- `cache_directory_entries`. -/
def cacheDirectoryEntries (policy : CachePolicy) (path : Path) (count : ℕ) : Bool :=
  policy.cacheDirectory path && decide (count ≤ policy.maxCachedDirEntries)

end CachePolicy

/-! ## State -/

/-- What the provider does at a call. -/
structure Fault (H : Type) where
  drops : Key H → Bool
  fails : Bool
  arrives : Key H → Bool

/-- What stays the same: the hash of a path, the policy, the first generation and the capabilities of the
provider. -/
structure CacheConfig (H : Type) where
  hash : Path → H
  policy : CachePolicy
  generationEpoch : UInt64
  batchGet : Bool
  batchPut : Bool

/-- The provider with its script, what `CachedFileSystem` keeps itself, and the generation cache of a
`grep` while there is one. -/
structure Wrapper (H : Type) where
  values : Key H → Option (Value H)
  faults : ℕ → Fault H
  calls : ℕ
  bypassScopes : List Path
  generations : H → Option UInt64
  generationCache : Option (H → Option UInt64)

abbrev CacheM (H : Type) := StateM (Wrapper H)

variable {H : Type} [DecidableEq H]

/-- The key of an object. -/
def CacheConfig.key (cfg : CacheConfig H) (kind : CacheObjectKind) (path : Path) : Key H :=
  match kind with
  | .file => .file (cfg.hash path)
  | .directory => .dir (cfg.hash path)

/-! ## Provider calls -/

/-- A call of the provider. -/
def call : CacheM H (Fault H) := do
  let s ← get
  let f := s.faults s.calls
  set { s with calls := s.calls + 1, values := fun k => if f.drops k then none else s.values k }
  return f

/-- `cache_get` (369-374); none for a failure. -/
def cacheGet (key : Key H) : CacheM H (Option (Option (Value H))) := do
  let f ← call
  let s ← get
  return if f.fails then none else some (s.values key)

/-- The values that a `put` of these entries stores. -/
def stored (entries : List (Key H × Value H)) (s : Wrapper H) : Wrapper H :=
  { s with values := entries.foldl (fun values e => Function.update values e.1 (some e.2)) s.values }

/-- `CacheProvider::put` and `batch_put`. -/
def providerPut (entries : List (Key H × Value H)) : CacheM H Bool := do
  let f ← call
  modify (stored (entries.filter fun e => !f.fails || f.arrives e.1))
  return !f.fails

/-- `mark_bypass` (430-441). -/
def markBypass (path : Path) : CacheM H Unit := do
  let s ← get
  if s.bypassScopes.any fun scope => decide (scope <+: path) then return ()
  set { s with bypassScopes := (s.bypassScopes.filter fun scope => !decide (path <+: scope)) ++ [path] }

/-- `is_runtime_bypassed` (443-450). -/
def Wrapper.isRuntimeBypassed (s : Wrapper H) (path : Path) : Bool :=
  s.bypassScopes.any fun scope => decide (scope <+: path)

/-- `cache_put` (403-415). -/
def cachePut (key : Key H) (value : Value H) (affected : Path) : CacheM H Unit := do
  if ← providerPut [(key, value)] then return ()
  markBypass affected

/-- `cache_delete` (417-428). -/
def cacheDelete (key : Key H) (affected : Path) : CacheM H Unit := do
  let f ← call
  if f.fails then markBypass affected
  else modify fun s => { s with values := Function.update s.values key none }

/-! ## Generations -/

/-- The keys one by one, until one fails. -/
def cacheGetAll : List (Key H) → CacheM H (Option (List (Option (Value H))))
  | [] => return some []
  | key :: keys => do
    match ← cacheGet key with
    | none => return none
    | some value =>
      match ← cacheGetAll keys with
      | none => return none
      | some values => return some (value :: values)

/-- `cache_batch_get` (376-401). -/
def cacheBatchGet (cfg : CacheConfig H) (keys : List (Key H)) :
    CacheM H (Option (List (Option (Value H)))) := do
  if keys = [] then return some []
  if keys.length = 1 || !cfg.batchGet then cacheGetAll keys
  else
    let f ← call
    let s ← get
    return if f.fails then none else some (keys.map s.values)

/-- The generation of a subtree from what the provider answered (463-485); none for invalid data. -/
def Wrapper.generationOf (cfg : CacheConfig H) (s : Wrapper H) (key : H) :
    Option (Value H) → Option UInt64
  | none => some ((s.generations key).getD cfg.generationEpoch)
  | some (.generation value) => some value
  | some (.envelope _) => none

/-- `put_missing_generations` (538-568). -/
def putMissingGenerations (cfg : CacheConfig H) (missing : List (H × UInt64)) : CacheM H Unit := do
  let entries := missing.map fun e => (Key.subtree e.1, Value.generation e.2)
  if missing = [] then return ()
  if 1 < missing.length && cfg.batchPut then
    let _ ← providerPut entries
  else
    entries.forM fun e => do
      let _ ← providerPut [e]

/-- The local generations after these, in turn. -/
def recorded (entries : List (H × UInt64)) (generations : H → Option UInt64) : H → Option UInt64 :=
  entries.foldl (fun g e => Function.update g e.1 (some e.2)) generations

/-- `current_generations` (457-498). -/
def currentGenerations (cfg : CacheConfig H) (keys : List H) : CacheM H (Option (List UInt64)) := do
  match ← cacheBatchGet cfg (keys.map .subtree) with
  | none => return none
  | some answers =>
    let s ← get
    match (keys.zip answers).mapM fun e => s.generationOf cfg e.1 e.2 with
    | none => return none
    | some values =>
      set { s with generations := recorded (keys.zip values) s.generations }
      putMissingGenerations cfg (((keys.zip values).zip answers).filterMap fun e =>
        if e.2.isNone then some e.1 else none)
      return some values

/-- `generation_snapshots` (570-581). -/
def generationSnapshots (cfg : CacheConfig H) (path : Path) :
    CacheM H (Option (List (GenerationSnapshot H))) := do
  let keys := path.inits.map cfg.hash
  match ← currentGenerations cfg keys with
  | none => return none
  | some values => return some ((keys.zip values).map fun e => ⟨e.1, e.2⟩)

/-- The generations of the keys, cached or else found missing, in their places. -/
def inPlace (cache : H → Option UInt64) : List H → List UInt64 → Option (List UInt64)
  | [], _ => some []
  | key :: keys, missing =>
    match cache key, missing with
    | some value, _ => (inPlace cache keys missing).map (value :: ·)
    | none, value :: missing => (inPlace cache keys missing).map (value :: ·)
    | none, [] => none

/-- `current_generations_memoized` (500-536). -/
def currentGenerationsMemoized (cfg : CacheConfig H) (keys : List H) (cache : H → Option UInt64) :
    CacheM H (Option (List UInt64)) := do
  let missing := keys.filter fun key => (cache key).isNone
  match ← currentGenerations cfg missing with
  | none => return none
  | some values =>
    modify fun s => { s with generationCache := some (recorded (missing.zip values) cache) }
    return inPlace cache keys values

/-- `generations_match_with_cache` (583-607). -/
def generationsMatch (cfg : CacheConfig H) (envelope : CacheEnvelope H) : CacheM H (Option Bool) := do
  let keys := envelope.generations.map GenerationSnapshot.key
  let s ← get
  let values ← match s.generationCache with
    | some cache => currentGenerationsMemoized cfg keys cache
    | none => currentGenerations cfg keys
  match values with
  | none => return none
  | some values => return some ((envelope.generations.zip values).all fun e => e.1.value == e.2)

/-- `bump_generation` (609-627). -/
def bumpGeneration (cfg : CacheConfig H) (path : Path) : CacheM H Unit := do
  let key := cfg.hash path
  match ← currentGenerations cfg [key] with
  | some (current :: _) =>
    modify fun s => { s with generations := Function.update s.generations key (some (current + 1)) }
    cachePut (.subtree key) (.generation (current + 1)) path
  | _ => markBypass path

/-! ## Probes and fills -/

section Objects

variable {α : Type}

/-- `probe_file` and `probe_directory` (629-754): what the cache has of an object, as `accept` takes it. -/
def probe (cfg : CacheConfig H) (kind : CacheObjectKind) (path : Path)
    (accept : CachePayload → Option α) : CacheM H (Option α) := do
  let key := cfg.key kind path
  match ← cacheGet key with
  | none => do
    markBypass path
    return none
  | some none => return none
  | some (some (.generation _)) => do
    cacheDelete key path
    return none
  | some (some (.envelope envelope)) =>
    if envelope.kind = kind ∧ envelope.path = path then
      match ← generationsMatch cfg envelope with
      | none => do
        markBypass path
        return none
      | some false => do
        cacheDelete key path
        return none
      | some true =>
        match accept envelope.payload with
        | some a => return some a
        | none => do
          cacheDelete key path
          return none
    else do
      cacheDelete key path
      return none

/-- `probe_file`. -/
def probeFile (cfg : CacheConfig H) (path : Path) : CacheM H (Option Bytes) :=
  probe cfg .file path fun
    | .file data => some data
    | .directory _ => none

/-- `probe_directory`, which also drops a listing that has grown too long for the policy. -/
def probeDirectory (cfg : CacheConfig H) (path : Path) : CacheM H (Option (List FileInfo)) :=
  probe cfg .directory path fun
    | .directory entries =>
      if cfg.policy.cacheDirectoryEntries path entries.length then some entries else none
    | .file _ => none

/-- An envelope with the generations of now. -/
def fill (cfg : CacheConfig H) (kind : CacheObjectKind) (path : Path) (payload : CachePayload) :
    CacheM H Unit := do
  match ← generationSnapshots cfg path with
  | none => return ()
  | some generations => cachePut (cfg.key kind path) (.envelope ⟨kind, path, generations, payload⟩) path

/-- `fill_file` (900-917). -/
def fillFile (cfg : CacheConfig H) (path : Path) (data : Bytes) : CacheM H Unit := do
  if cfg.policy.cacheFile path data.length then fill cfg .file path (.file data)

/-- `fill_directory` (919-936). -/
def fillDirectory (cfg : CacheConfig H) (path : Path) (entries : List FileInfo) : CacheM H Unit := do
  if cfg.policy.cacheDirectoryEntries path entries.length then
    fill cfg .directory path (.directory entries)

end Objects

/-! ## Requests -/

/-- The mutations of `FileSystem`. -/
inductive Mutation where
  | create (path : Path)
  | mkdir (path : Path) (mode : ℕ)
  | remove (path : Path)
  | removeAll (path : Path)
  | write (path : Path) (data : Bytes) (offset : ℕ) (flags : WriteFlag)
  | rename (oldPath newPath : Path)
  | replace (srcPath dstPath : Path)
  | chmod (path : Path) (mode : ℕ)
  | truncate (path : Path) (size : ℕ)
  | ensureParentDirs (path : Path) (mode : ℕ)

/-- A backend: what a mutation does to it, and what it answers to reads. -/
structure Backend (σ E : Type) where
  run : Mutation → σ → Except E Unit × σ
  read : σ → Path → ℕ → ℕ → Except E Bytes
  readDir : σ → Path → Except E (List FileInfo)

/-- `invalidate_path_objects` (938-941). -/
def invalidatePathObjects (cfg : CacheConfig H) (path : Path) : CacheM H Unit := do
  cacheDelete (cfg.key .file path) path
  cacheDelete (cfg.key .directory path) path

/-- `invalidate_parent_directory` (943-947). -/
def invalidateParentDirectory (cfg : CacheConfig H) (path : Path) : CacheM H Unit :=
  cacheDelete (cfg.key .directory path.dropLast) path.dropLast

/-- What `rename` and `replace` do after the backend (1126-1148). -/
def invalidateMove (cfg : CacheConfig H) (oldPath newPath : Path) : CacheM H Unit := do
  bumpGeneration cfg oldPath
  bumpGeneration cfg newPath
  invalidatePathObjects cfg oldPath
  invalidatePathObjects cfg newPath
  invalidateParentDirectory cfg oldPath
  invalidateParentDirectory cfg newPath

/-- What `remove` and `remove_all` do after the backend (991-1007). -/
def invalidateRemoved (cfg : CacheConfig H) (path : Path) : CacheM H Unit := do
  bumpGeneration cfg path
  invalidatePathObjects cfg path
  invalidateParentDirectory cfg path

/-- What a mutation does after the backend (974-1177). -/
def invalidate (cfg : CacheConfig H) : Mutation → CacheM H Unit
  | .create path => do
    invalidatePathObjects cfg path
    invalidateParentDirectory cfg path
  | .mkdir path _ => do
    bumpGeneration cfg path
    cacheDelete (cfg.key .directory path) path
    invalidateParentDirectory cfg path
  | .remove path => invalidateRemoved cfg path
  | .removeAll path => invalidateRemoved cfg path
  | .write path data offset flags => do
    cacheDelete (cfg.key .file path) path
    let s ← get
    if offset = 0 ∧ (flags = .create ∨ flags = .truncate) ∧
        cfg.policy.cacheFile path data.length = true ∧ s.isRuntimeBypassed path = false then
      fillFile cfg path data
    invalidateParentDirectory cfg path
  | .rename oldPath newPath => invalidateMove cfg oldPath newPath
  | .replace srcPath dstPath => invalidateMove cfg srcPath dstPath
  | .chmod path _ => do
    invalidatePathObjects cfg path
    invalidateParentDirectory cfg path
  | .truncate path _ => do
    cacheDelete (cfg.key .file path) path
    invalidateParentDirectory cfg path
  | .ensureParentDirs path _ =>
    path.dropLast.inits.forM fun scope => cacheDelete (cfg.key .directory scope) scope

/-- `read` (1009-1057), where `backend` is what the backend answers. -/
def read {E : Type} (cfg : CacheConfig H) (path : Path) (offset size : ℕ)
    (backend : ℕ → ℕ → Except E Bytes) : CacheM H (Except E Bytes) := do
  let s ← get
  if offset ≠ 0 ∨ size ≠ 0 ∨ cfg.policy.cacheFile path 0 = false ∨
      s.isRuntimeBypassed path = true then
    return backend offset size
  match ← probeFile cfg path with
  | some data => return .ok data
  | none =>
    match backend 0 0 with
    | .ok data => do
      fillFile cfg path data
      return .ok data
    | .error e => return .error e

/-- `read_dir` (1076-1120). -/
def readDir {E : Type} (cfg : CacheConfig H) (path : Path) (backend : Except E (List FileInfo)) :
    CacheM H (Except E (List FileInfo)) := do
  let s ← get
  if cfg.policy.cacheDirectory path = false ∨ s.isRuntimeBypassed path = true then return backend
  match ← probeDirectory cfg path with
  | some entries => return .ok entries
  | none =>
    match backend with
    | .ok entries => do
      fillDirectory cfg path entries
      return .ok entries
    | .error e => return .error e

/-- What a `grep` reads. -/
inductive Visit where
  | file (path : Path)
  | directory (path : Path)

/-- The requests.  A `grep` that traverses the cache visits files and directories in turn, with one
generation cache for all of them; the other traversals are `read_dir`s, or the backend's. -/
inductive Request where
  | mutate (m : Mutation)
  | read (path : Path) (offset size : ℕ)
  | readDir (path : Path)
  | grep (visits : List Visit)

inductive Answer (E : Type) where
  | done (result : Except E Unit)
  | bytes (result : Except E Bytes)
  | entries (result : Except E (List FileInfo))
  deriving DecidableEq

/-- The wrapper and the backend. -/
structure Session (σ H : Type) where
  wrapper : Wrapper H
  backend : σ

section Sessions

variable {σ E : Type} (cfg : CacheConfig H) (b : Backend σ E)

/-- `read_with_generation_cache` and `read_dir_with_generation_cache`, for each visit. -/
def visit (backend : σ) : List Visit → CacheM H (List (Answer E))
  | [] => return []
  | .file path :: visits => do
    let answer ← read cfg path 0 0 (b.read backend path)
    return .bytes answer :: (← visit backend visits)
  | .directory path :: visits => do
    let answer ← readDir cfg path (b.readDir backend path)
    return .entries answer :: (← visit backend visits)

/-- A `grep` over the cache (165-261). -/
def grep (backend : σ) (visits : List Visit) : CacheM H (List (Answer E)) := do
  modify fun s => { s with generationCache := some fun _ => none }
  let answers ← visit cfg b backend visits
  modify fun s => { s with generationCache := none }
  return answers

/-- A request through the cache: a mutation goes to the backend first and, if it succeeds, drops what it
touches from the cache. -/
def handle (s : Session σ H) : Request → List (Answer E) × Session σ H
  | .mutate m =>
    match b.run m s.backend with
    | (.ok _, backend) => ([.done (.ok ())], ⟨(invalidate cfg m s.wrapper).2, backend⟩)
    | (.error e, backend) => ([.done (.error e)], ⟨s.wrapper, backend⟩)
  | .read path offset size =>
    let r := read cfg path offset size (b.read s.backend path) s.wrapper
    ([.bytes r.1], ⟨r.2, s.backend⟩)
  | .readDir path =>
    let r := readDir cfg path (b.readDir s.backend path) s.wrapper
    ([.entries r.1], ⟨r.2, s.backend⟩)
  | .grep visits =>
    let r := grep cfg b s.backend visits s.wrapper
    (r.1, ⟨r.2, s.backend⟩)

/-- The answers to a run of requests. -/
def answers : Session σ H → List Request → List (Answer E)
  | _, [] => []
  | s, r :: rs => (handle cfg b s r).1 ++ answers (handle cfg b s r).2 rs

/-- What the backend alone answers to a visit. -/
def plainVisit (s : σ) : Visit → Answer E
  | .file path => .bytes (b.read s path 0 0)
  | .directory path => .entries (b.readDir s path)

/-- What the backend alone answers to a request. -/
def plainHandle (s : σ) : Request → List (Answer E) × σ
  | .mutate m => ([.done (b.run m s).1], (b.run m s).2)
  | .read path offset size => ([.bytes (b.read s path offset size)], s)
  | .readDir path => ([.entries (b.readDir s path)], s)
  | .grep visits => (visits.map (plainVisit b s), s)

def plainAnswers : σ → List Request → List (Answer E)
  | _, [] => []
  | s, r :: rs => (plainHandle b s r).1 ++ plainAnswers (plainHandle b s r).2 rs

end Sessions

/-- A new wrapper over a provider that is empty and follows a script. -/
def fresh (faults : ℕ → Fault H) : Wrapper H := ⟨fun _ => none, faults, 0, [], fun _ => none, none⟩

end OpenViking.Cache
