import OpenViking.Transaction.Agfs
import Mathlib.Order.Lattice

/-!
# The path-lock engine

`PathLockEngine` (`storage/transaction/path_lock.py`) as programs over the calls of `Agfs`: an acquire
checks for conflicting lock files, writes its fencing token and checks again, in rounds until it
succeeds, fails or its deadline passes.  Logging is left out.

`owner.locks` is passed along explicitly: a program gets the list and returns the new one.  The
rounds of an acquire and the depth of a directory scan are bounded by `fuel`, and a program that
runs out of it is `stuck`; every result about the programs holds for every `fuel`.
-/

namespace OpenViking.Transaction

/-- The path as the source writes it. -/
def pathText : Path → String
  | [] => "/"
  | [name] => "/" ++ name
  | name :: q => pathText q ++ "/" ++ name

/-! ## Names of lock files -/

/-- `LOCK_FILE_NAME` -/
def lockFileName : String := ".path.ovlock"

/-- `EXACT_LOCK_FILE_PREFIX` -/
def exactLockFilePrefix : String := ".exact.ovlock."

/-- `name.startswith(EXACT_LOCK_FILE_PREFIX)` -/
def isReserved (name : String) : Bool := exactLockFilePrefix.toList.isPrefixOf name.toList

/-- `_get_lock_path` (83-87) -/
def getLockPath (path : Path) : Path := lockFileName :: path

/-- `_get_parent_path` (180-185): there is none for `/` and for the entries of `/`. -/
def getParentPath : Path → Option Path
  | _ :: b :: q => some (b :: q)
  | _ => none

/-- `[A-Za-z0-9._-]` -/
def isSafeChar (c : Char) : Bool :=
  c.isAlphanum || c == '.' || c == '_' || c == '-'

/-- `re.sub(r"[^A-Za-z0-9._-]+", "_", name)`; the flag says that the run of unsafe characters goes
on. -/
def collapseUnsafe : Bool → List Char → List Char
  | _, [] => []
  | inRun, c :: cs =>
    if isSafeChar c then c :: collapseUnsafe false cs
    else if inRun then collapseUnsafe true cs
    else '_' :: collapseUnsafe true cs

/-- `.strip("._")` -/
def stripDots (cs : List Char) : List Char :=
  let drop := List.dropWhile fun c => c == '.' || c == '_'
  (drop (drop cs).reverse).reverse

/-- `safe_name` (117-118) -/
def safeName (name : String) : String :=
  let stripped := stripDots (collapseUnsafe false name.toList)
  let whole := if stripped = [] then "path".toList else stripped
  String.ofList (whole.take 80)

/-- A `PathLockEngine`; `digest` is the `hashlib.sha1(..).hexdigest()[:16]` of a path's text. -/
structure PathLockEngine where
  digest : String → String
  /-- in nanoseconds -/
  lockExpire : ℕ
  fuel : ℕ

namespace PathLockEngine

/-- `_get_prefixed_exact_lock_path` (111-120) -/
def getPrefixedExactLockPath (E : PathLockEngine) : Path → Path
  | name :: b :: q =>
    (exactLockFilePrefix ++ safeName name ++ "." ++ E.digest (pathText (name :: b :: q))) :: b :: q
  | path => getLockPath path

/-! ## Checks -/

variable {ι : Type} [LinearOrder ι] (E : PathLockEngine) (me : ι)

/-- `_is_existing_directory_async` (97-104) -/
def isExistingDirectory (path : Path) : Locking ι Bool := do
  let r ← Agfs.stat path
  pure (r == some true)

/-- `_is_existing_path_async` (106-111) -/
def isExistingPath (path : Path) : Locking ι Bool := do
  let r ← Agfs.stat path
  pure r.isSome

/-- `_get_exact_lock_path_async` (138-142) -/
def getExactLockPath (path : Path) : Locking ι Path := do
  if ← isExistingDirectory path then pure (getLockPath path)
  else pure (E.getPrefixedExactLockPath path)

/-- `_ensure_directory_exists_async` (151-169); what it returns for the parent is not looked at. -/
def ensureDirectoryExists : Path → Locking ι Bool
  | [] => pure true
  | name :: q => do
    if ← isExistingPath (name :: q) then pure true
    else
      if (getParentPath (name :: q)).isSome then
        let _ ← ensureDirectoryExists q
      if ← Agfs.mkdir (name :: q) then pure true
      else isExistingDirectory (name :: q)

/-- The lock file, if it names another owner. -/
def lockedByOther (lockPath : Path) : Locking ι (Option Path) := do
  let token ← Agfs.read lockPath
  pure (match token with
    | some t => if t.owner = me then none else some lockPath
    | none => none)

/-- The lock file, if it is a tree lock of another owner. -/
def treeLockedByOther (lockPath : Path) : Locking ι (Option Path) := do
  let token ← Agfs.read lockPath
  pure (match token with
    | some t => if t.owner ≠ me ∧ t.lockType = .tree then some lockPath else none
    | none => none)

/-- The first conflict of two checks. -/
def orElse (p q : Locking ι (Option Path)) : Locking ι (Option Path) := do
  match ← p with
  | some conflict => pure (some conflict)
  | none => q

/-- `_is_lock_owned_by_async` (231-232) -/
def isLockOwnedBy (lockPath : Path) : Locking ι Bool := do
  let token ← Agfs.read lockPath
  pure (token.map Token.owner == some me)

/-- `_create_lock_file` (337-341): whether it raises no exception. -/
def createLockFile (lockPath : Path) (lockType : LockType) : Locking ι Bool := do
  let ts ← Agfs.timeNs
  Agfs.write lockPath ts lockType

/-- `_owned_lock_type_for_lock_path` (347-358) -/
def ownedLockTypeForLockPath (locks : List Path) (lockPath : Path) :
    Locking ι (Option LockType) := do
  if lockPath ∈ locks then
    let token ← Agfs.read lockPath
    pure (token.bind fun t => if t.owner = me then some t.lockType else none)
  else pure none

/-- `_has_owned_ancestor_tree` (360-366) -/
def hasOwnedAncestorTree (locks : List Path) : Path → Locking ι Bool
  | [] => pure false
  | name :: q => do
    if (← ownedLockTypeForLockPath me locks (getLockPath (name :: q))) = some .tree then pure true
    else hasOwnedAncestorTree locks q

/-- `_remove_lock_file` (368-375) -/
def removeLockFile (lockPath : Path) : Locking ι Unit := Agfs.rm lockPath

/-- `_is_lock_stale_async` (387-395) -/
def isLockStale (lockPath : Path) : Locking ι Bool := do
  let r ← Agfs.readAt lockPath
  pure (match r.1 with
    | none => true
    | some t => t.ts = 0 || E.lockExpire < r.2 - t.ts)

/-- `_check_ancestors_for_tree` (397-407) -/
def checkAncestorsForTree : Path → Locking ι (Option Path)
  | _ :: b :: q =>
    orElse (treeLockedByOther me (getLockPath (b :: q))) (checkAncestorsForTree (b :: q))
  | _ => pure none

/-- `_check_path_lock` (409-417) -/
def checkPathLock (path : Path) : Locking ι (Option Path) := lockedByOther me (getLockPath path)

/-- `_check_exact_path_lock` (419-427), with `_get_exact_lock_paths_async` (144-149). -/
def checkExactPathLock (path : Path) : Locking ι (Option Path) := do
  let primary ← E.getExactLockPath path
  let prefixed := E.getPrefixedExactLockPath path
  if primary = prefixed then lockedByOther me primary
  else orElse (lockedByOther me primary) (lockedByOther me prefixed)

/-- The entries of a directory in turn, until one of them has a conflict (440-467); `scan` is the scan
of a directory below. -/
def scanEntries (scan : Path → Locking ι (Option Path)) (path : Path) :
    List (String × Bool) → Locking ι (Option Path)
  | [] => pure none
  | (name, isDir) :: entries =>
    if name = "" ∨ name = "." ∨ name = ".." then scanEntries scan path entries
    else if isReserved name then
      orElse (lockedByOther me (name :: path)) (scanEntries scan path entries)
    else if isDir then
      orElse (lockedByOther me (getLockPath (name :: path)))
        (orElse (scan (name :: path)) (scanEntries scan path entries))
    else scanEntries scan path entries

/-- `_scan_descendants_for_locks` (429-470), to a depth. -/
def scanDescendants : ℕ → Path → Locking ι (Option Path)
  | 0, _ => .stuck
  | depth + 1, path => do
    if ← isExistingDirectory path then
      let entries ← Agfs.ls path
      scanEntries me (scanDescendants depth) path entries
    else pure none

def scanDescendantsForLocks (path : Path) : Locking ι (Option Path) :=
  scanDescendants me E.fuel path

/-! ## Acquiring -/

/-- The round ends with `False` when the deadline has passed, and with another round otherwise. -/
def waitRound (wait : Wait) : Locking ι (Option Bool) := do
  if ← Agfs.deadline wait then pure (some false) else pure none

/-- What both acquires do about a lock file in the way: remove it when it is stale, else wait. -/
def awaitConflict (conflict : Path) : Locking ι (Option Bool) := do
  if ← E.isLockStale conflict then
    removeLockFile conflict
    pure none
  else waitRound .before

/-- What both acquires do at the end of a round: the token has to be there still. -/
def verify (lockPath : Path) : Locking ι (Option Bool) := do
  if ← isLockOwnedBy me lockPath then pure (some true) else waitRound .lost

/-- The livelock guard: the token in the way is older than this owner's (583-588, 739-745). -/
def mustBackOff (lockPath conflict : Path) : Locking ι Bool := do
  match ← Agfs.read conflict with
  | none => pure false
  | some their =>
    let my ← Agfs.read lockPath
    let myTs := (my.map Token.ts).getD 0
    pure (decide (their.ts < myTs ∨ their.ts = myTs ∧ their.owner < me))

/-- Remove the lock file where it still names this owner. -/
def removeOwned (lockPath : Path) : Locking ι Unit := do
  if ← isLockOwnedBy me lockPath then removeLockFile lockPath

/-- The checks of `acquire_exact_path` before it writes (500-556).  The token in `same_path_lock` is
read only when that is another file than the lock's own. -/
def exactConflictBefore (path lockPath : Path) : Locking ι (Option Path) :=
  orElse (E.checkExactPathLock me path)
    (orElse (if getLockPath path = lockPath then pure none else lockedByOther me (getLockPath path))
      (checkAncestorsForTree me path))

/-- The checks of `acquire_exact_path` after it has written (577-581). -/
def exactConflictAfter (path lockPath : Path) : Locking ι (Option Path) :=
  orElse (do
      let conflict ← checkPathLock me path
      pure (if conflict = some lockPath then none else conflict))
    (checkAncestorsForTree me path)

/-- `acquire_exact_path` after a conflict with its token written (582-605). -/
def exactBackOff (lockPath conflict : Path) : Locking ι (Option Bool) := do
  if ← mustBackOff me lockPath conflict then removeOwned me lockPath
  if ← Agfs.deadline (.conflict lockPath) then
    removeOwned me lockPath
    pure (some false)
  else pure none

/-- The parent of the prefixed lock file is made where it is missing (558-565). -/
def ensureParent (path lockPath : Path) : Locking ι Bool :=
  match getParentPath path with
  | none => pure true
  | some parent => if lockPath = getLockPath path then pure true else ensureDirectoryExists parent

/-- `acquire_exact_path` from its write on (567-628). -/
def exactWrite (path lockPath : Path) : Locking ι (Option Bool) := do
  if ← createLockFile lockPath .exact then
    if ← isLockOwnedBy me lockPath then
      match ← exactConflictAfter me path lockPath with
      | some conflict => exactBackOff me lockPath conflict
      | none => verify me lockPath
    else waitRound .lost
  else pure (some false)

/-- A round of `acquire_exact_path` (499-628). -/
def exactRound (path lockPath : Path) : Locking ι (Option Bool) := do
  match ← E.exactConflictBefore me path lockPath with
  | some conflict => E.awaitConflict conflict
  | none =>
    if ← ensureParent path lockPath then exactWrite me path lockPath
    else pure (some false)

/-- `LockHandle.add_lock` -/
def addLock (locks : List Path) (lockPath : Path) : List Path :=
  if lockPath ∈ locks then locks else locks ++ [lockPath]

/-- The rounds of an acquire, and `owner.add_lock` once it succeeds. -/
def rounds (locks : List Path) (lockPath : Path) (round : Locking ι (Option Bool)) :
    Locking ι (Bool × List Path) := do
  if ← Prog.spin E.fuel round then pure (true, addLock locks lockPath)
  else pure (false, locks)

/-- `acquire_exact_path` (472-628) -/
def acquireExactPath (locks : List Path) (path : Path) : Locking ι (Bool × List Path) := do
  let lockPath ← E.getExactLockPath path
  let reuse ← if lockPath ∈ locks then isLockOwnedBy me lockPath else pure false
  if reuse then pure (true, addLock locks lockPath)
  else if ← hasOwnedAncestorTree me locks path then pure (true, locks)
  else E.rounds locks lockPath (E.exactRound me path lockPath)

/-- The checks of `acquire_tree` before it writes (655-722). -/
def treeConflictBefore (path lockPath : Path) : Locking ι (Option Path) :=
  orElse (lockedByOther me lockPath)
    (orElse (checkAncestorsForTree me path)
      (orElse (E.checkExactPathLock me path) (E.scanDescendantsForLocks me path)))

/-- The checks of `acquire_tree` after it has written (734-738). -/
def treeConflictAfter (path : Path) : Locking ι (Option Path) :=
  orElse (E.scanDescendantsForLocks me path)
    (orElse (E.checkExactPathLock me path) (checkAncestorsForTree me path))

/-- `acquire_tree` after a conflict with its token written (739-765).  It removes the lock file
without looking whose token is in it. -/
def treeBackOff (lockPath conflict : Path) : Locking ι (Option Bool) := do
  let backedOff ← mustBackOff me lockPath conflict
  if backedOff then removeLockFile lockPath
  if ← Agfs.deadline (.conflict lockPath) then
    if !backedOff then removeLockFile lockPath
    pure (some false)
  else pure none

/-- `acquire_tree` from its write on (727-785). -/
def treeWrite (path lockPath : Path) : Locking ι (Option Bool) := do
  if ← createLockFile lockPath .tree then
    match ← E.treeConflictAfter me path with
    | some conflict => treeBackOff me lockPath conflict
    | none => verify me lockPath
  else pure (some false)

/-- A round of `acquire_tree` (654-785). -/
def treeRound (path lockPath : Path) : Locking ι (Option Bool) := do
  match ← E.treeConflictBefore me path lockPath with
  | some conflict => E.awaitConflict conflict
  | none =>
    if ← ensureDirectoryExists path then E.treeWrite me path lockPath
    else pure (some false)

/-- The lock file of `acquire_tree` (634-637). -/
def getTreeLockPath (path : Path) : Locking ι Path := do
  let lockPath ← E.getExactLockPath path
  if lockPath = getLockPath path then pure lockPath
  else if ← isExistingPath path then pure lockPath
  else pure (getLockPath path)

/-- `acquire_tree` (630-785) -/
def acquireTree (locks : List Path) (path : Path) : Locking ι (Bool × List Path) := do
  let lockPath ← E.getTreeLockPath path
  if (← ownedLockTypeForLockPath me locks lockPath) = some .tree then
    pure (true, addLock locks lockPath)
  else if ← hasOwnedAncestorTree me locks path then pure (true, locks)
  else E.rounds locks lockPath (E.treeRound me path lockPath)

/-- Release the lock files of a list, in its order. -/
def releaseEach (locks : List Path) : List Path → Locking ι (List Path)
  | [] => pure locks
  | lockPath :: rest => do
    removeOwned me lockPath
    releaseEach (locks.erase lockPath) rest

/-- `release` (842-851) -/
def release (locks : List Path) : Locking ι (List Path) := releaseEach me locks locks.reverse

/-- Release those lock files of a list that the owner has, in its order. -/
def releaseEachSelected (locks : List Path) : List Path → Locking ι (List Path)
  | [] => pure locks
  | lockPath :: rest =>
    if lockPath ∈ locks then do
      removeOwned me lockPath
      releaseEachSelected (locks.erase lockPath) rest
    else releaseEachSelected locks rest

/-- `release_selected` (853-859) -/
def releaseSelected (locks lockPaths : List Path) : Locking ι (List Path) :=
  releaseEachSelected me locks lockPaths.reverse

/-- `acquire_mv` once the source is acquired: the destination, or the release of the owner. -/
def acquireMvDst (locks : List Path) (dst : Path) : Locking ι (Bool × List Path) := do
  let r ← E.acquireExactPath me locks dst
  if r.1 then pure r
  else
    let locks' ← release me r.2
    pure (false, locks')

/-- `acquire_mv` (787-823) -/
def acquireMv (locks : List Path) (src dst : Path) (srcIsDir : Bool) :
    Locking ι (Bool × List Path) := do
  let r ← if srcIsDir then E.acquireTree me locks src else E.acquireExactPath me locks src
  if r.1 then E.acquireMvDst me r.2 dst else pure r

/-- `acquire_exact_path` or `acquire_tree`. -/
def acquire : LockType → List Path → Path → Locking ι (Bool × List Path)
  | .exact => E.acquireExactPath me
  | .tree => E.acquireTree me

/-! ## What leaves the lock files alone -/

/-- The call changes no lock file. -/
def Quiet : Call → Prop
  | .write _ _ _ => False
  | .rm _ => False
  | _ => True

omit [LinearOrder ι] in
theorem timeNs_quiet : (Agfs.timeNs : Locking ι ℕ).All Quiet := .perform trivial

omit [LinearOrder ι] in
theorem deadline_quiet (wait : Wait) : (Agfs.deadline wait : Locking ι Bool).All Quiet :=
  .perform trivial

variable (path : Path)

omit [LinearOrder ι] in
theorem isExistingDirectory_quiet :
    (isExistingDirectory path : Locking ι Bool).All Quiet :=
  Prog.All.bind (.perform trivial) fun _ => trivial

omit [LinearOrder ι] in
theorem isExistingPath_quiet : (isExistingPath path : Locking ι Bool).All Quiet :=
  Prog.All.bind (.perform trivial) fun _ => trivial

omit [LinearOrder ι] in
theorem getExactLockPath_quiet : (E.getExactLockPath path : Locking ι Path).All Quiet := by
  refine (isExistingDirectory_quiet path).bind fun b => ?_
  split <;> trivial

omit [LinearOrder ι] in
theorem ensureDirectoryExists_quiet : (ensureDirectoryExists path : Locking ι Bool).All Quiet := by
  induction path with
  | nil => trivial
  | cons name q ih =>
    have hmk : (do
        if ← Agfs.mkdir (name :: q) then pure true
        else isExistingDirectory (name :: q) : Locking ι Bool).All Quiet := by
      refine Prog.All.bind (.perform trivial) fun b => ?_
      split
      · trivial
      · exact isExistingDirectory_quiet _
    refine (isExistingPath_quiet _).bind fun b => ?_
    split
    · trivial
    · split
      · exact ih.bind fun _ => hmk
      · exact hmk

variable (f : Path)

theorem lockedByOther_quiet : (lockedByOther me f).All Quiet :=
  Prog.All.bind (.perform trivial) fun _ => trivial

theorem treeLockedByOther_quiet : (treeLockedByOther me f).All Quiet :=
  Prog.All.bind (.perform trivial) fun _ => trivial

omit [LinearOrder ι] in
theorem orElse_quiet {p q : Locking ι (Option Path)} (hp : p.All Quiet) (hq : q.All Quiet) :
    (orElse p q).All Quiet := by
  refine hp.bind fun r => ?_
  cases r with
  | none => exact hq
  | some c => trivial

theorem isLockOwnedBy_quiet : (isLockOwnedBy me f).All Quiet :=
  Prog.All.bind (.perform trivial) fun _ => trivial

theorem ownedLockTypeForLockPath_quiet (locks : List Path) (f : Path) :
    (ownedLockTypeForLockPath me locks f).All Quiet := by
  unfold ownedLockTypeForLockPath
  split
  · exact Prog.All.bind (.perform trivial) fun _ => trivial
  · trivial

theorem hasOwnedAncestorTree_quiet (locks : List Path) (path : Path) :
    (hasOwnedAncestorTree me locks path).All Quiet := by
  induction path with
  | nil => trivial
  | cons name q ih =>
    refine (ownedLockTypeForLockPath_quiet me locks _).bind fun r => ?_
    split
    · trivial
    · exact ih

omit [LinearOrder ι] in
theorem isLockStale_quiet : (E.isLockStale f : Locking ι Bool).All Quiet :=
  Prog.All.bind (.perform trivial) fun _ => trivial

theorem mustBackOff_quiet (lockPath conflict : Path) : (mustBackOff me lockPath conflict).All Quiet := by
  refine Prog.All.bind (.perform trivial) fun r => ?_
  split
  · trivial
  · exact Prog.All.bind (.perform trivial) fun _ => trivial

omit [LinearOrder ι] in
theorem getTreeLockPath_quiet : (E.getTreeLockPath path : Locking ι Path).All Quiet := by
  refine (E.getExactLockPath_quiet path).bind fun lockPath => ?_
  split
  · trivial
  · refine (isExistingPath_quiet path).bind fun b => ?_
    split <;> trivial

omit [LinearOrder ι] in
theorem ensureParent_quiet (path lockPath : Path) :
    (ensureParent path lockPath : Locking ι Bool).All Quiet := by
  unfold ensureParent
  split
  · trivial
  · split
    · trivial
    · exact ensureDirectoryExists_quiet _

end PathLockEngine

end OpenViking.Transaction
