import OpenViking.Fs.Guards
import OpenViking.Git.Changes

/-!
# Snapshots through the guards

The snapshot operations of `VikingFS` (`storage/viking_fs.py`, 3654-4212) on the commits of an account:
`show`, `show_blob_raw`, `diff` and `restore`, over `git_show` (`crates/ragfs/src/git/service.rs`,
769-856) and the restore of `Git.Restore`.  Only `diff` asks `_ensure_access` about its path.

* `diff_accessible`: a diff is of a file that the caller may read;
* `isolated_iff`: when what a caller reads and changes through the snapshots is its own.
-/

namespace OpenViking.Fs

local instance Str.lawfulBEqSnapshots : LawfulBEq Str := inferInstance

/-! ## Paths in a tree -/

/-- `_GIT_INTERNAL_FIRST_SEGMENTS` (3662-3671). -/
def gitInternalFirstSegments : List Str :=
  ["_system", "tasks", "temp", "queue", "upload", ".path.ovlock"].map String.toList

/-- `_uri_to_tree_path` (3687-3707). -/
def uriToTreePath (env : Env) (uri : Str) (ctx : RequestContext) : Except AccessError Str :=
  match canonicalizeUri uri ctx with
  | .error message => .error (.shape message)
  | .ok canonical =>
    match normalizedUriParts env canonical with
    | .error e => .error e
    | .ok [] =>
      .error (.shape ("git tree path cannot be the account root: '" ++ String.ofList uri ++ "'"))
    | .ok (first :: rest) =>
      if first ∈ gitInternalFirstSegments then
        .error (.shape ("git tree path rejects internal scope/segment '" ++ String.ofList first ++
          "': '" ++ String.ofList uri ++ "'"))
      else .ok (joinSlash (first :: rest))

/-- `_tree_path_to_uri` (3709-3717). -/
def treePathToUri (treePath : Str) : Except AccessError Str :=
  let cleaned := rstripSlash (lstripSlash treePath)
  if cleaned = [] then .error (.shape "tree path must not be empty") else .ok (scheme ++ cleaned)

/-- `validate_relative_path` and `validate_project_dir` (1697-1774), which differ in the name they give
the path: the error, if there is one. -/
def validateTreePath (what : String) (path : Str) : Option String :=
  let shown := "\"" ++ String.ofList path ++ "\""
  if path = [] then some (what ++ " must be non-empty")
  else if path.head? = some '/' ∨ path.getLast? = some '/' then
    some (what ++ " must not start or end with '/': " ++ shown)
  else if [] ∈ path.splitOn '/' then some (what ++ " contains empty segment: " ++ shown)
  else if ['.'] ∈ path.splitOn '/' ∨ ['.', '.'] ∈ path.splitOn '/' then
    some (what ++ " contains '.' or '..' segment: " ++ shown)
  else if '\\' ∈ path then some (what ++ " must not contain backslash: " ++ shown)
  else if path.any fun c => decide (c.toNat < 0x20) || decide (c.toNat = 0x7f) then
    some (what ++ " contains control character: " ++ shown)
  else none

/-- The components of a path, as the trees have them. -/
def components (treePath : Str) : Git.Path := (treePath.splitOn '/').map String.ofList

/-! ## The commits of an account -/

/-- The commits by their numbers, with the trees that commits write; `resolve` is `resolve_ref`
(1381-1406), which takes the text of an object id for that object, and `branch` reads a ref. -/
structure Repository (O : Type*) where
  tree : ℕ → Git.Tree O
  tree_ordered : ∀ id, (tree id).Ordered
  blob : O → Bytes
  resolve : Str → Option ℕ
  branch : Str → Option ℕ
  oidText : ℕ → Str
  resolve_oidText : ∀ id, resolve (oidText id) = some id

/-- The errors of the snapshot service. -/
inductive GitError where
  | invalidPath (message : String)
  | invalidProjectDir (message : String)
  | refNotFound (target : Str)
  | pathNotFound (path : Str)
  | pathIsDirectory (path : Str)
  | blobTooLarge (size limit : ℕ)
  | restore (e : Git.RestoreError)

/-- What the snapshot operations of `VikingFS` raise. -/
inductive SnapshotError where
  | access (e : AccessError)
  | git (e : GitError)
  | notFound (resource : Str) (kind : String)
  | resourceExhausted (message : String)
  | invalidArgument (message : String)
  | resourceBusy (message : String) (uri : Str)

/-- The envelope of a blob. -/
structure ShownBlob (O : Type*) where
  oid : O
  size : ℕ
  bytes : Bytes

namespace Repository

variable {O : Type*}

/-- `show_with_limit` (769-856) for a path. -/
def gitShow (repo : Repository O) (targetRef path : Str) (limit : Option ℕ) :
    Except GitError (ShownBlob O) :=
  match validateTreePath "path" path with
  | some message => .error (.invalidPath message)
  | none =>
    match repo.resolve targetRef with
    | none => .error (.refNotFound targetRef)
    | some id =>
      match (repo.tree id).lookup (components path) with
      | none => .error (.pathNotFound path)
      | some (.tree _) => .error (.pathIsDirectory path)
      | some (.blob oid) =>
        let bytes := repo.blob oid
        match limit with
        | some limit =>
          if limit < bytes.length then .error (.blobTooLarge bytes.length limit)
          else .ok ⟨oid, bytes.length, bytes⟩
        | none => .ok ⟨oid, bytes.length, bytes⟩

/-- `show_with_limit` without a path: the commit. -/
def gitShowCommit (repo : Repository O) (targetRef : Str) : Except GitError ℕ :=
  match repo.resolve targetRef with
  | none => .error (.refNotFound targetRef)
  | some id => .ok id

/-- The request of `git_restore` (970-1001): the checks of `restore`, and the commits. -/
def restoreRequest (repo : Repository O) (branch : Str) (projectDir : Option Str) (sourceCommit : Str)
    (dryRun : Bool) : Except GitError (Git.RestoreRequest O) :=
  match projectDir.bind (validateTreePath "project_dir") with
  | some message => .error (.invalidProjectDir message)
  | none =>
    match repo.resolve sourceCommit with
    | none => .error (.refNotFound sourceCommit)
    | some source =>
      match repo.branch branch with
      | none => .error (.refNotFound branch)
      | some head =>
        .ok ⟨head, repo.tree head, repo.tree source, projectDir.map components, dryRun⟩

end Repository

/-! ## The operations -/

section Operations

variable {O : Type*} (env : Env) (repo : Repository O)

/-- What `show` answers. -/
inductive Shown where
  | commit (id : ℕ)
  | blob (bytes : Bytes)

/-- `show` (4065-4093). -/
def «show» (targetRef : Str) (path : Option Str) (maxBlobBytes : Option ℕ) (ctx : RequestContext) :
    Except SnapshotError Shown :=
  match path.filter (· ≠ []) with
  | none =>
    match repo.gitShowCommit targetRef with
    | .error e => .error (.git e)
    | .ok id => .ok (.commit id)
  | some path =>
    match uriToTreePath env path ctx with
    | .error e => .error (.access e)
    | .ok treePath =>
      match repo.gitShow targetRef treePath maxBlobBytes with
      | .error e => .error (.git e)
      | .ok shown => .ok (.blob shown.bytes)

/-- `show_blob_raw` (4095-4121). -/
def showBlobRaw (targetRef path : Str) (ctx : RequestContext) :
    Except SnapshotError (ShownBlob O) :=
  match uriToTreePath env path ctx with
  | .error e => .error (.access e)
  | .ok treePath =>
    match repo.gitShow targetRef treePath none with
    | .error e => .error (.git e)
    | .ok shown => .ok shown

/-- `bytes.decode("utf-8")`, and `git_diff_text`, which has a limit. -/
structure Differ where
  decode : Bytes → Option Str
  diffText : (before after fromFile toFile : Str) → Option Str

/-- The line breaks of `_snapshot_line_count`. -/
def lineBreaks : Str :=
  ['\n', '\r', '\x0b', '\x0c', '\x1c', '\x1d', '\x1e', '\x85', '\u2028', '\u2029']

/-- The number of `\r\n` in a text. -/
def countCrLf : Str → ℕ
  | '\r' :: '\n' :: t => countCrLf t + 1
  | _ :: t => countCrLf t
  | [] => 0

/-- `_snapshot_line_count` (93-110). -/
def snapshotLineCount (text : Str) : ℕ :=
  if text = [] then 0
  else
    let count := text.countP (decide <| · ∈ lineBreaks) - countCrLf text
    if (text.getLast?.any (decide <| · ∈ lineBreaks)) then count else count + 1

/-- `SNAPSHOT_DIFF_MAX_FILE_BYTES`. -/
def snapshotDiffMaxFileBytes : ℕ := 10 * 1024 * 1024

/-- `SNAPSHOT_DIFF_MAX_OUTPUT_BYTES`. -/
def snapshotDiffMaxOutputBytes : ℕ := 20 * 1024 * 1024

/-- `SNAPSHOT_DIFF_MAX_LINES`. -/
def snapshotDiffMaxLines : ℕ := 100000

/-- `_prepare_snapshot_diff` (113-143): the type of the change and the two texts. -/
def prepareSnapshotDiff (differ : Differ) (beforeBytes afterBytes : Option Bytes) (maxLines : ℕ) :
    Except SnapshotError (String × Str × Str) :=
  let text := fun bytes : Option Bytes => bytes.elim (some []) differ.decode
  match text beforeBytes, text afterBytes with
  | some before, some after =>
    if maxLines < snapshotLineCount before ∨ maxLines < snapshotLineCount after then
      .error (.resourceExhausted
        s!"snapshot diff line count limit exceeded ({maxLines} lines per file)")
    else
      let changeType :=
        if beforeBytes = none then "added"
        else if afterBytes = none then "deleted"
        else if beforeBytes = afterBytes then "unchanged"
        else "modified"
      .ok (changeType, before, after)
  | _, _ => .error (.invalidArgument "snapshot diff only supports UTF-8 text files")

/-- The answer of `diff`. -/
structure SnapshotDiff where
  path : Str
  fromCommit : Str
  toCommit : Str
  changeType : String
  diffText : Str

/-- `show` of a commit in `diff`: a ref that is not there is `NotFoundError`. -/
def diffMeta (targetRef : Str) (ctx : RequestContext) : Except SnapshotError Str :=
  match «show» env repo targetRef none none ctx with
  | .ok (.commit id) => .ok (repo.oidText id)
  | .ok (.blob _) => .ok targetRef
  | .error (.git (.refNotFound _)) => .error (.notFound targetRef "git_ref")
  | .error e => .error e

/-- `read_optional` (4149-4169). -/
def readOptional (targetRef path : Str) (ctx : RequestContext) :
    Except SnapshotError (Option Bytes) :=
  match «show» env repo targetRef (some path) (some snapshotDiffMaxFileBytes) ctx with
  | .ok (.blob bytes) => .ok (some bytes)
  | .ok (.commit _) => .error (.invalidArgument "git_show returned unexpected blob type: dict")
  | .error (.git (.pathNotFound _)) => .ok none
  | .error (.git (.blobTooLarge _ _)) =>
    .error (.resourceExhausted
      s!"snapshot diff file size limit exceeded ({snapshotDiffMaxFileBytes} bytes)")
  | .error e => .error e

/-- `diff` (4123-4212). -/
def diff (differ : Differ) (path : Str) (fromRef : Option Str) (toRef : Str) (ctx : RequestContext) :
    Except SnapshotError SnapshotDiff := do
  let path ← (canonicalizeUri path ctx).mapError fun message => .access (.shape message)
  (ensureAccess env path ctx).mapError .access
  let fromRef := fromRef.filter (· ≠ [])
  let fromOid ←
    match fromRef with
    | some ref => diffMeta env repo ref ctx
    | none => .ok []
  let toOid ← diffMeta env repo toRef ctx
  let beforeBytes ←
    match fromRef with
    | some _ => readOptional env repo fromOid path ctx
    | none => .ok none
  let afterBytes ← readOptional env repo toOid path ctx
  if beforeBytes = none ∧ afterBytes = none then .error (.notFound path "git_blob")
  else
    let (changeType, before, after) ←
      prepareSnapshotDiff differ beforeBytes afterBytes snapshotDiffMaxLines
    match differ.diffText before after (path ++ '@' :: fromOid) (path ++ '@' :: toOid) with
    | some diffText => .ok ⟨path, fromOid, toOid, changeType, diffText⟩
    | none =>
      .error (.resourceExhausted
        s!"snapshot diff output size limit exceeded ({snapshotDiffMaxOutputBytes} bytes)")

/-- The subtree of `restore` (3926-3933). -/
def restoreTreeDir (projectDir : Option Str) (ctx : RequestContext) :
    Except AccessError (Option Str) :=
  match projectDir with
  | none => .ok none
  | some projectDir =>
    match uriToTreePath env projectDir ctx with
    | .error e => .error e
    | .ok treePath =>
      if rstripSlash treePath = [] then
        .error (.shape ("project_dir must not be empty: '" ++ String.ofList projectDir ++ "'"))
      else .ok (some (rstripSlash treePath))

/-- The path that `restore` locks (3961-3965); a dry run locks none. -/
def restoreLockPath (projectDir : Option Str) (dryRun : Bool) (ctx : RequestContext) :
    Except AccessError (Option Path) :=
  if dryRun then .ok none
  else
    match projectDir with
    | none => .ok (some (accountRoot ctx))
    | some projectDir => (uriToPath env projectDir ctx).map some

/-- `restore` (3871-4012) on the working tree of an account: a call can end with an answer and a disk. -/
inductive Restores [DecidableEq O] (now : ℤ) (branch sourceCommit : Str) (projectDir : Option Str)
    (dryRun : Bool) (ctx : RequestContext) (disk : Git.Disk Bytes) :
    Except SnapshotError (Git.RestoreResponse O) → Git.Disk Bytes → Prop
  | refused {e : AccessError} (hdir : restoreTreeDir env projectDir ctx = .error e) :
    Restores now branch sourceCommit projectDir dryRun ctx disk (.error (.access e)) disk
  | unlockable {e : AccessError} {dir : Option Str}
    (hdir : restoreTreeDir env projectDir ctx = .ok dir)
    (hlock : restoreLockPath env projectDir dryRun ctx = .error e) :
    Restores now branch sourceCommit projectDir dryRun ctx disk (.error (.access e)) disk
  | busy {dir : Option Str} {path : Path} (hdir : restoreTreeDir env projectDir ctx = .ok dir)
    (hlock : restoreLockPath env projectDir dryRun ctx = .ok (some path)) :
    Restores now branch sourceCommit projectDir dryRun ctx disk
      (.error (.resourceBusy
        ("Resource is being processed: " ++ String.ofList (projectDir.getD "*".toList))
        (projectDir.getD "*".toList))) disk
  | invalid {dir : Option Str} {path : Option Path} {e : GitError}
    (hdir : restoreTreeDir env projectDir ctx = .ok dir)
    (hlock : restoreLockPath env projectDir dryRun ctx = .ok path)
    (hreq : repo.restoreRequest branch dir sourceCommit dryRun = .error e) :
    Restores now branch sourceCommit projectDir dryRun ctx disk (.error (.git e)) disk
  | ran {dir : Option Str} {path : Option Path} {req : Git.RestoreRequest O}
    {res : Except Git.RestoreError (Git.RestoreResponse O)} {disk' : Git.Disk Bytes}
    {commit : Option (Git.CommitObject O)} (hdir : restoreTreeDir env projectDir ctx = .ok dir)
    (hlock : restoreLockPath env projectDir dryRun ctx = .ok path)
    (hreq : repo.restoreRequest branch dir sourceCommit dryRun = .ok req)
    (hrun : req.Restores repo.blob now disk res disk' commit) :
    Restores now branch sourceCommit projectDir dryRun ctx disk
      (res.mapError fun e => .git (.restore e)) disk'

end Operations

/-! ## What a caller reads and changes -/

section Isolation

variable {O : Type*} {env : Env} {repo : Repository O} {ctx : RequestContext}
  {targetRef path : Str}

/-- The caller may read the canonical URI of a path. -/
def Readable (env : Env) (ctx : RequestContext) (path : Str) : Prop :=
  ∃ canonical, canonicalizeUri path ctx = .ok canonical ∧ isAccessible env canonical ctx = .ok true

/-- The caller may change the file at a path of the account. -/
def MayChange (env : Env) (ctx : RequestContext) (q : Git.Path) : Prop :=
  ∃ uri, treePathToUri (joinSlash (q.map String.toList)) = .ok uri ∧
    ensureMutableAccess env uri ctx = .ok ()

/-- The commit of a ref has this file at a path. -/
def Shows (env : Env) (repo : Repository O) (ctx : RequestContext) (targetRef path : Str) (oid : O) :
    Prop :=
  ∃ treePath id, uriToTreePath env path ctx = .ok treePath ∧ validateTreePath "path" treePath = none ∧
    repo.resolve targetRef = some id ∧ (repo.tree id).file (components treePath) = some oid

/-- A restore of the project starts with these trees. -/
def Starts (env : Env) (repo : Repository O) (ctx : RequestContext)
    (branch sourceCommit projectDir : Str) (req : Git.RestoreRequest O) : Prop :=
  ∃ dir path, restoreTreeDir env (some projectDir) ctx = .ok dir ∧
    restoreLockPath env (some projectDir) false ctx = .ok path ∧
    repo.restoreRequest branch dir sourceCommit false = .ok req

variable {limit : Option ℕ} {shown : ShownBlob O}

theorem gitShow_ok (h : repo.gitShow targetRef path limit = .ok shown) :
    validateTreePath "path" path = none ∧ ∃ id, repo.resolve targetRef = some id ∧
      (repo.tree id).file (components path) = some shown.oid := by
  rw [Repository.gitShow] at h
  cases hvalid : validateTreePath "path" path with
  | some message =>
    rw [hvalid] at h
    cases h
  | none =>
    rw [hvalid] at h
    dsimp only at h
    cases hid : repo.resolve targetRef with
    | none =>
      rw [hid] at h
      cases h
    | some id =>
      rw [hid] at h
      dsimp only at h
      refine ⟨rfl, id, rfl, ?_⟩
      rw [Git.Tree.file]
      rcases hentry : (repo.tree id).lookup (components path) with _ | oid | t
      · rw [hentry] at h
        cases h
      · rw [hentry] at h
        dsimp only at h
        split at h
        · split_ifs at h
          rw [← Except.ok.inj h]
          rfl
        · rw [← Except.ok.inj h]
          rfl
      · rw [hentry] at h
        cases h

theorem shows_of_gitShow {treePath : Str} (hpath : uriToTreePath env path ctx = .ok treePath)
    (h : repo.gitShow targetRef treePath limit = .ok shown) :
    Shows env repo ctx targetRef path shown.oid := by
  obtain ⟨hvalid, id, hid, hfile⟩ := gitShow_ok h
  exact ⟨treePath, id, hpath, hvalid, hid, hfile⟩

theorem shows_of_show {bytes : Bytes}
    (h : «show» env repo targetRef (some path) limit ctx = .ok (.blob bytes)) :
    ∃ oid, Shows env repo ctx targetRef path oid := by
  rw [«show»] at h
  split at h
  · split at h
    · cases h
    · cases h
  · rename_i given hgiven
    obtain rfl := Option.some_inj.1 (Option.filter_eq_some_iff.1 hgiven).1
    split at h
    · cases h
    · rename_i treePath hpath
      split at h
      · cases h
      · rename_i shown hshown
        exact ⟨_, shows_of_gitShow hpath hshown⟩

theorem shows_of_showBlobRaw (h : showBlobRaw env repo targetRef path ctx = .ok shown) :
    Shows env repo ctx targetRef path shown.oid := by
  rw [showBlobRaw] at h
  split at h
  · cases h
  · rename_i treePath hpath
    split at h
    · cases h
    · rename_i blob hblob
      rw [← Except.ok.inj h]
      exact shows_of_gitShow hpath hblob

/-- What the commit has at the path is shown. -/
theorem showBlobRaw_of_shows {oid : O} (h : Shows env repo ctx targetRef path oid) :
    showBlobRaw env repo targetRef path ctx =
      .ok ⟨oid, (repo.blob oid).length, repo.blob oid⟩ := by
  obtain ⟨treePath, id, hpath, hvalid, hid, hfile⟩ := h
  rw [showBlobRaw, hpath]
  dsimp only
  rw [Repository.gitShow, hvalid, hid]
  dsimp only
  rw [Git.Entry.eq_of_oid? hfile]

theorem isAccessible_of_access {uri : Str} (h : ensureAccess env uri ctx = .ok ()) :
    isAccessible env uri ctx = .ok true := by
  rw [ensureAccess] at h
  split at h
  · cases h
  · assumption
  · cases h

/-- **A diff is of a file that the caller may read.** -/
theorem diff_accessible {differ : Differ} {fromRef : Option Str} {toRef : Str} {result : SnapshotDiff}
    (h : diff env repo differ path fromRef toRef ctx = .ok result) : Readable env ctx path := by
  unfold diff at h
  cases hcanonical : canonicalizeUri path ctx with
  | error message =>
    rw [hcanonical] at h
    cases h
  | ok canonical =>
    refine ⟨canonical, hcanonical, isAccessible_of_access ?_⟩
    rw [hcanonical] at h
    cases haccess : ensureAccess env canonical ctx with
    | error e =>
      simp only [haccess, Except.mapError, bind, Except.bind] at h
      cases h
    | ok u => rfl

variable [DecidableEq O] {branch sourceCommit projectDir : Str}

/-- What the snapshots promise of a path and of a project: a caller is shown only files that it may
read, and a restore touches only files that it may change. -/
structure Isolated (env : Env) (repo : Repository O) (ctx : RequestContext)
    (targetRef path branch sourceCommit projectDir : Str) : Prop where
  «show» : ∀ limit bytes, «show» env repo targetRef (some path) limit ctx = .ok (.blob bytes) →
    Readable env ctx path
  showBlobRaw : ∀ shown, showBlobRaw env repo targetRef path ctx = .ok shown →
    Readable env ctx path
  diff : ∀ differ fromRef result, diff env repo differ path fromRef targetRef ctx = .ok result →
    Readable env ctx path
  restore : ∀ now disk res disk' q,
    Restores env repo now branch sourceCommit (some projectDir) false ctx disk res disk' →
      ¬ disk.SameFile disk' q → MayChange env ctx q

omit [DecidableEq O] in
theorem restoreRequest_ok {dir : Option Str} {req : Git.RestoreRequest O}
    (h : repo.restoreRequest branch dir sourceCommit false = .ok req) :
    req.source.Ordered ∧ req.head.Ordered ∧ req.dryRun = false := by
  rw [Repository.restoreRequest] at h
  split at h
  · cases h
  · split at h
    · cases h
    · split at h
      · cases h
      · rw [← Except.ok.inj h]
        exact ⟨repo.tree_ordered _, repo.tree_ordered _, rfl⟩

/-- **Snapshots respect the guards of the live files** exactly when the commit has no file at the path, or
one that the caller may read, and the commits of the restore differ only in files that it may change. -/
theorem isolated_iff :
    Isolated env repo ctx targetRef path branch sourceCommit projectDir ↔
      (∀ oid, Shows env repo ctx targetRef path oid → Readable env ctx path) ∧
        ∀ req q, Starts env repo ctx branch sourceCommit projectDir req → req.Differs q →
          MayChange env ctx q := by
  constructor
  · intro h
    refine ⟨fun oid hshows => h.showBlobRaw _ (showBlobRaw_of_shows hshows), ?_⟩
    rintro req q ⟨dir, lock, hdir, hlock, hreq⟩ hq
    obtain ⟨hsource, hhead, hdry⟩ := restoreRequest_ok hreq
    obtain ⟨disk, res, disk', commit, hrun, hchanged⟩ :=
      Git.RestoreRequest.exists_changes repo.blob 0 hsource hhead hdry hq
    exact h.restore 0 disk _ disk' q (.ran hdir hlock hreq hrun) hchanged
  · rintro ⟨hread, hchange⟩
    constructor
    · intro limit bytes hshow
      obtain ⟨oid, hshows⟩ := shows_of_show hshow
      exact hread oid hshows
    · intro shown hshown
      exact hread _ (shows_of_showBlobRaw hshown)
    · intro differ fromRef result hdiff
      exact diff_accessible hdiff
    · intro now disk res disk' q hrun hchanged
      have hsame : disk.SameFile disk q := Git.Disk.sameFile_of_stat rfl
      cases hrun with
      | refused => exact absurd hsame hchanged
      | unlockable => exact absurd hsame hchanged
      | busy => exact absurd hsame hchanged
      | invalid => exact absurd hsame hchanged
      | ran hdir hlock hreq hrun =>
        obtain ⟨hsource, hhead, -⟩ := restoreRequest_ok hreq
        refine hchange _ q ⟨_, _, hdir, hlock, hreq⟩ ?_
        by_contra hq
        exact hchanged (Git.RestoreRequest.sameFile_of_restores hsource hhead hrun hq)

end Isolation

/-! ## A file of another user -/

/-- One commit, of one file that is not alice's. -/
def oneSecret : Repository ℕ where
  tree _ := .sub "user" (.sub "bob" (.blob "secret.md" 7 .nil) .nil) .nil
  tree_ordered _ := by decide
  blob _ := [112, 119]
  resolve ref := if ref.head? = some '0' then some (ref.length - 1) else some 0
  branch _ := some 0
  oidText id := List.replicate (id + 1) '0'
  resolve_oidText id := by simp [List.replicate_succ]

/-- The file of another user is shown, which the guard of the live files refuses. -/
theorem not_isolated_oneSecret :
    «show» asciiEnv oneSecret "main".toList (some "viking://user/bob/secret.md".toList) none alice =
        .ok (.blob [112, 119]) ∧
      ensureAccess asciiEnv "viking://user/bob/secret.md".toList alice =
        .error (accessDenied "viking://user/bob/secret.md".toList) ∧
      ¬ Isolated asciiEnv oneSecret alice "main".toList "viking://user/bob/secret.md".toList
        "main".toList "main".toList "viking://user/alice".toList := by
  have hshow : «show» asciiEnv oneSecret "main".toList (some "viking://user/bob/secret.md".toList) none
      alice = .ok (.blob [112, 119]) := by rfl
  refine ⟨hshow, by rfl, fun h => ?_⟩
  obtain ⟨canonical, hcanonical, haccess⟩ := h.show none _ hshow
  have hbob : canonicalizeUri "viking://user/bob/secret.md".toList alice =
      .ok "viking://user/bob/secret.md".toList := by decide +kernel
  rw [hbob] at hcanonical
  obtain rfl := Except.ok.inj hcanonical
  have hdenied : isAccessible asciiEnv "viking://user/bob/secret.md".toList alice = .ok false := by
    rfl
  rw [hdenied] at haccess
  cases haccess

end OpenViking.Fs
