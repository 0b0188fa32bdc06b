import OpenViking.Common.Decimal
import OpenViking.Memory.FieldsComment
import OpenViking.Transaction.Secure

/-!
# Lock files as text

`PathLockEngine.is_locked` and `acquire_exact_path` (`storage/transaction/path_lock.py`) for one
caller alone on the file tree, at one time of the clock.  Here a lock file has any content, and its
fencing token is parsed out of it.

No call on the file tree fails: what is written is there afterwards.

Results:

* `TextEngine.parseFencingToken_makeFencingToken`: a token names the owner it was made for;
* `TextEngine.isLocked_iff`: the lock files that `is_locked` looks for.
-/

namespace OpenViking.Transaction

open Memory (isSpace strip)

/-! ## Fencing tokens -/

/-- A file of the tree; its content is `none` where it is no UTF-8. -/
inductive TextNode where
  | dir
  | file (content : Option (List Char))
  deriving DecidableEq

/-- The tree of files. -/
abbrev TextTree := SortedMap Path TextNode

/-- An owner of locks.  The `id` of a `LockHandle` is the text of a UUID (`lock_handle.py`, 11-12); it
does not begin with white space. -/
structure LockOwner where
  id : List Char
  locks : List Path
  id_head : ∀ c ∈ id.head?, isSpace c = false

/-- A `PathLockEngine` at a time of the clock. -/
structure TextEngine extends PathLockEngine where
  /-- `time.time_ns()` -/
  now : ℤ
  /-- `int` of a text; `none` for a `ValueError`. -/
  int : List Char → Option ℤ
  /-- `int(str(now))` is `now`. -/
  int_now : int (toString now).toList = some now
  /-- `age / 1e9 > expire` for an age and an expiry in nanoseconds; `none` where the division raises
  an `OverflowError`. -/
  exceeds : ℤ → ℕ → Option Bool

/-- `known_types` (47), with what the legacy tokens stand for. -/
def knownType : Char → Option LockType
  | 'E' => some .exact
  | 'T' => some .tree
  | 'P' => some .tree
  | 'S' => some .tree
  | _ => none

/-- A text cut at its last colon (`rest.rfind(":")`), the parts in the order of the text. -/
def cutLastColon (text : List Char) : Option (List Char × List Char) :=
  let after := text.reverse.takeWhile (· ≠ ':')
  match text.reverse.drop after.length with
  | _ :: before => some (before.reverse, after.reverse)
  | [] => none

/-- The owner, time and type of a token. -/
structure ParsedToken where
  owner : List Char
  ts : ℤ
  lockType : LockType
  deriving DecidableEq

namespace TextEngine

variable (E : TextEngine)

/-- `_parse_fencing_token` (46-61) -/
def parseFencingToken (token : List Char) : ParsedToken :=
  match token.reverse with
  | k :: ':' :: before =>
    match knownType k with
    | some lockType =>
      match cutLastColon before.reverse with
      | some (owner, ts) =>
        match E.int ts with
        | some n => ⟨owner, n, lockType⟩
        | none => ⟨before.reverse, 0, lockType⟩
      | none => ⟨before.reverse, 0, lockType⟩
    | none => ⟨token, 0, .exact⟩
  | _ => ⟨token, 0, .exact⟩

/-- `_make_fencing_token` of an exact lock (42-43). -/
def makeFencingToken (id : List Char) : List Char :=
  id ++ ':' :: (toString E.now).toList ++ [':', 'E']

/-- `_read_token` (187-197) -/
def readToken (tree : TextTree) (lockPath : Path) : Option (List Char) :=
  match tree.get lockPath with
  | some (.file (some content)) => if strip content = [] then none else some (strip content)
  | _ => none

/-- `is_lock_stale` (377-385); `none` where it raises. -/
def isLockStale (tree : TextTree) (lockPath : Path) : Option Bool :=
  match readToken tree lockPath with
  | none => some true
  | some token =>
    if (E.parseFencingToken token).ts = 0 then some true
    else E.exceeds (E.now - (E.parseFencingToken token).ts) E.lockExpire

/-! ## `is_locked` -/

/-- `_is_existing_directory` (89-96); the root is one. -/
def isExistingDirectory (tree : TextTree) (path : Path) : Bool :=
  path = [] || tree.get path = some .dir

/-- `_get_exact_lock_path` (122-126) -/
def getExactLockPath (tree : TextTree) (path : Path) : Path :=
  if isExistingDirectory tree path then getLockPath path else E.getPrefixedExactLockPath path

/-- `_get_exact_lock_paths` (128-134) -/
def getExactLockPaths (tree : TextTree) (path : Path) : List Path :=
  if E.getExactLockPath tree path = E.getPrefixedExactLockPath path then
    [E.getExactLockPath tree path]
  else [E.getExactLockPath tree path, E.getPrefixedExactLockPath path]

/-- `not (ignore_stale and self.is_lock_stale(lock_path, self._lock_expire))`, for a lock file with a
token; there is no lock in one without. -/
def holds (ignoreStale : Bool) (tree : TextTree) (lockPath : Path) : Option Bool :=
  match readToken tree lockPath with
  | none => some false
  | some _ => if ignoreStale then (E.isLockStale tree lockPath).map (!·) else some true

/-- The lock file of an ancestor, which counts where it is a tree lock. -/
def holdsTree (ignoreStale : Bool) (tree : TextTree) (lockPath : Path) : Option Bool :=
  match readToken tree lockPath with
  | none => some false
  | some token =>
    if (E.parseFencingToken token).lockType = .tree then E.holds ignoreStale tree lockPath
    else some false

/-- The first check that says yes or raises. -/
def firstHeld (check : Path → Option Bool) : List Path → Option Bool
  | [] => some false
  | lockPath :: lockPaths => do if ← check lockPath then some true else firstHeld check lockPaths

/-- The lock files of the ancestors, from the nearest on. -/
def ancestorLockPaths : Path → List Path
  | _ :: b :: q => getLockPath (b :: q) :: ancestorLockPaths (b :: q)
  | _ => []

/-- `is_locked` (234-278); `none` where it raises. -/
def isLocked (tree : TextTree) (path : Path) (ignoreStale : Bool) : Option Bool := do
  let ownLockPath := getLockPath path
  if ← E.holds ignoreStale tree ownLockPath then some true
  else if ← firstHeld (E.holds ignoreStale tree)
      ((E.getExactLockPaths tree path).filter (· ≠ ownLockPath)) then some true
  else firstHeld (E.holdsTree ignoreStale tree) (ancestorLockPaths path)

/-! ## `acquire_exact_path` -/

variable (owner : LockOwner)

/-- The owner that a lock file names. -/
def tokenOwner (tree : TextTree) (lockPath : Path) : Option (List Char) :=
  (readToken tree lockPath).map fun token => (E.parseFencingToken token).owner

/-- The lock file names another owner. -/
def lockedByOther (tree : TextTree) (lockPath : Path) : Bool :=
  (E.tokenOwner tree lockPath).any (· ≠ owner.id)

/-- The lock file is a tree lock of another owner. -/
def treeLockedByOther (tree : TextTree) (lockPath : Path) : Bool :=
  (readToken tree lockPath).any fun token =>
    (E.parseFencingToken token).owner ≠ owner.id ∧ (E.parseFencingToken token).lockType = .tree

/-- `_is_lock_owned_by_async` (231-232) -/
def isLockOwnedBy (tree : TextTree) (lockPath : Path) : Bool :=
  E.tokenOwner tree lockPath = some owner.id

/-- `_check_ancestors_for_tree` (397-407) -/
def checkAncestorsForTree (tree : TextTree) (path : Path) : Option Path :=
  (ancestorLockPaths path).find? (E.treeLockedByOther owner tree)

/-- `_check_exact_path_lock` (419-427) -/
def checkExactPathLock (tree : TextTree) (path : Path) : Option Path :=
  (E.getExactLockPaths tree path).find? (E.lockedByOther owner tree)

/-- `_check_path_lock` (409-417) -/
def checkPathLock (tree : TextTree) (path : Path) : Option Path :=
  if E.lockedByOther owner tree (getLockPath path) then some (getLockPath path) else none

/-- `_has_owned_ancestor_tree` (360-366), from the path itself up. -/
def hasOwnedAncestorTree (tree : TextTree) : Path → Bool
  | [] => false
  | name :: q =>
    (getLockPath (name :: q) ∈ owner.locks ∧ E.isLockOwnedBy owner tree (getLockPath (name :: q)) ∧
      (readToken tree (getLockPath (name :: q))).any
        fun token => (E.parseFencingToken token).lockType = .tree) ||
    hasOwnedAncestorTree tree q

/-- The checks of a round of `acquire_exact_path` before it writes (500-555): all three are dealt
with alike where the deadline has passed. -/
def conflictBefore (tree : TextTree) (path lockPath : Path) : Option Path :=
  (E.checkExactPathLock owner tree path).or
    ((if getLockPath path ≠ lockPath then E.checkPathLock owner tree path else none).or
      (E.checkAncestorsForTree owner tree path))

/-- `_ensure_directory_exists_async` (151-169) -/
def ensureDirectoryExists (tree : TextTree) : Path → TextTree
  | [] => tree
  | name :: q =>
    if (tree.get (name :: q)).isSome then tree
    else (if (getParentPath (name :: q)).isSome then ensureDirectoryExists tree q else tree).put
      (name :: q) .dir

/-- The parent of the prefixed lock file is made where it is missing (558-565). -/
def ensureParent (tree : TextTree) (path lockPath : Path) : TextTree :=
  if lockPath ≠ getLockPath path then
    match getParentPath path with
    | some parent => ensureDirectoryExists tree parent
    | none => tree
  else tree

/-- What a call leaves: the tree, the locks of the owner, and the answer, `none` for an exception. -/
structure Outcome where
  tree : TextTree
  locks : List Path
  answer : Option Bool

/-- A round of `acquire_exact_path` from its write on (567-628), the deadline passed.  After a conflict
the lock file is removed where it is still the owner's, whichever token is the older. -/
def exactWrite (tree : TextTree) (path lockPath : Path) : Outcome :=
  let tree := (ensureParent tree path lockPath).put lockPath
    (.file (some (E.makeFencingToken owner.id)))
  if E.isLockOwnedBy owner tree lockPath then
    let conflictAfter :=
      ((E.checkPathLock owner tree path).filter (· ≠ lockPath)).or
        (E.checkAncestorsForTree owner tree path)
    match conflictAfter with
    | some _ =>
      ⟨if E.isLockOwnedBy owner tree lockPath then tree.erase lockPath else tree, owner.locks,
        some false⟩
    | none =>
      if E.isLockOwnedBy owner tree lockPath then
        ⟨tree, PathLockEngine.addLock owner.locks lockPath, some true⟩
      else ⟨tree, owner.locks, some false⟩
  else ⟨tree, owner.locks, some false⟩

/-- A round with a lock file in the way: where it is stale it is removed, and the next round begins. -/
def reclaim (tree : TextTree) (conflict : Path) (next : TextTree → Option Outcome) : Option Outcome :=
  match E.isLockStale tree conflict with
  | none => some ⟨tree, owner.locks, none⟩
  | some true => next (tree.erase conflict)
  | some false => some ⟨tree, owner.locks, some false⟩

/-- The rounds of `acquire_exact_path`; `none` where there are more than `fuel`. -/
def acquireLoop (path lockPath : Path) : ℕ → TextTree → Option Outcome
  | 0, _ => none
  | fuel + 1, tree =>
    match E.conflictBefore owner tree path lockPath with
    | some conflict => E.reclaim owner tree conflict (acquireLoop path lockPath fuel)
    | none => some (E.exactWrite owner tree path lockPath)

/-- `acquire_exact_path` with `timeout=0` (472-628). -/
def acquireExactPath (tree : TextTree) (path : Path) : Option Outcome :=
  let lockPath := E.getExactLockPath tree path
  if lockPath ∈ owner.locks ∧ E.isLockOwnedBy owner tree lockPath then
    some ⟨tree, PathLockEngine.addLock owner.locks lockPath, some true⟩
  else if E.hasOwnedAncestorTree owner tree path then some ⟨tree, owner.locks, some true⟩
  else E.acquireLoop owner path lockPath E.fuel tree

/-! ## Tokens -/

variable {E owner}

theorem cutLastColon_append {before after : List Char} (h : ':' ∉ after) :
    cutLastColon (before ++ ':' :: after) = some (before, after) := by
  have hrev : (before ++ ':' :: after).reverse = after.reverse ++ ':' :: before.reverse := by simp
  have hall : ∀ c ∈ after.reverse, decide (c ≠ ':') = true := by
    intro c hc
    refine decide_eq_true ?_
    rintro rfl
    exact h (List.mem_reverse.1 hc)
  have htake : (after.reverse ++ ':' :: before.reverse).takeWhile (· ≠ ':') = after.reverse := by
    rw [List.takeWhile_append_of_pos hall]
    simp
  unfold cutLastColon
  simp only [hrev, htake, List.drop_left, List.reverse_reverse]

/-- A token names the owner it was made for. -/
theorem parseFencingToken_makeFencingToken (id : List Char) :
    E.parseFencingToken (E.makeFencingToken id) = ⟨id, E.now, .exact⟩ := by
  have hrev : (E.makeFencingToken id).reverse =
      'E' :: ':' :: (id ++ ':' :: (toString E.now).toList).reverse := by
    simp [makeFencingToken]
  unfold parseFencingToken
  rw [hrev]
  simp only [knownType, List.reverse_reverse, cutLastColon_append (Decimal.notMem_toString_int (by decide) (by decide) E.now),
    E.int_now]

/-- Reading a token strips nothing off. -/
theorem strip_makeFencingToken (E : TextEngine) (owner : LockOwner) :
    strip (E.makeFencingToken owner.id) = E.makeFencingToken owner.id := by
  have hhead : ∀ c ∈ (E.makeFencingToken owner.id).head?, isSpace c = false := by
    intro c hc
    have hid := owner.id_head
    unfold makeFencingToken at hc
    cases hi : owner.id with
    | nil =>
      rw [hi] at hc
      obtain rfl : ':' = c := by simpa using hc
      decide
    | cons d rest =>
      rw [hi] at hc hid
      exact hid c (by simpa using hc)
  have hfront : (E.makeFencingToken owner.id).dropWhile isSpace = E.makeFencingToken owner.id := by
    cases ht : E.makeFencingToken owner.id with
    | nil => rfl
    | cons c rest =>
      rw [ht] at hhead
      rw [List.dropWhile_cons, if_neg (by simp [hhead c rfl])]
  unfold strip
  rw [hfront]
  unfold makeFencingToken
  rw [show owner.id ++ ':' :: (toString E.now).toList ++ [':', 'E'] =
    (owner.id ++ ':' :: (toString E.now).toList ++ [':']) ++ ['E'] by simp,
    List.rdropWhile_concat_neg _ _ _ (by decide)]

/-- What the owner has written is a lock of the owner. -/
theorem isLockOwnedBy_put (E : TextEngine) (owner : LockOwner) (tree : TextTree) (lockPath : Path) :
    E.isLockOwnedBy owner (tree.put lockPath (.file (some (E.makeFencingToken owner.id)))) lockPath =
      true := by
  have hne : E.makeFencingToken owner.id ≠ [] := by simp [makeFencingToken]
  unfold isLockOwnedBy tokenOwner readToken
  rw [SortedMap.get_put_self]
  simp [strip_makeFencingToken, parseFencingToken_makeFencingToken, hne]

/-! ## What `is_locked` looks for -/

/-- Two checks in turn say no where both do. -/
theorem bind_eq_false {p q : Option Bool} :
    (do if ← p then some true else q) = some false ↔ p = some false ∧ q = some false := by
  cases p with
  | none => exact iff_of_false (by simp) (by simp)
  | some held =>
    cases held with
    | true => exact iff_of_false (by simp) (by simp)
    | false => exact ⟨fun h => ⟨rfl, h⟩, fun h => h.2⟩

theorem firstHeld_eq_false {check : Path → Option Bool} {lockPaths : List Path} :
    firstHeld check lockPaths = some false ↔ ∀ f ∈ lockPaths, check f = some false := by
  induction lockPaths with
  | nil => simp [firstHeld]
  | cons f lockPaths ih =>
    rw [List.forall_mem_cons, ← ih]
    exact bind_eq_false

theorem holds_eq_false {tree : TextTree} {lockPath : Path} :
    E.holds true tree lockPath = some false ↔ E.isLockStale tree lockPath = some true := by
  unfold holds
  cases htoken : readToken tree lockPath with
  | none => simp [isLockStale, htoken]
  | some token => simp

/-- A lock file with a token that stands in the way of the path: its own lock file, one of its exact
locks, or a tree lock of an ancestor. -/
def Guards (E : TextEngine) (tree : TextTree) (path lockPath : Path) : Prop :=
  (readToken tree lockPath).isSome ∧
    (lockPath = getLockPath path ∨ lockPath ∈ E.getExactLockPaths tree path ∨
      lockPath ∈ ancestorLockPaths path ∧
        ∀ token ∈ readToken tree lockPath, (E.parseFencingToken token).lockType = .tree)

theorem isLockStale_of_none {tree : TextTree} {lockPath : Path} (h : readToken tree lockPath = none) :
    E.isLockStale tree lockPath = some true := by
  unfold isLockStale
  rw [h]

/-- `is_locked` says no exactly when every lock file in the way is stale. -/
theorem isLocked_iff {tree : TextTree} {path : Path} :
    E.isLocked tree path true = some false ↔
      ∀ f, E.Guards tree path f → E.isLockStale tree f = some true := by
  have hsplit : E.isLocked tree path true = some false ↔
      E.holds true tree (getLockPath path) = some false ∧
      (∀ f ∈ E.getExactLockPaths tree path, f ≠ getLockPath path → E.holds true tree f = some false) ∧
      ∀ f ∈ ancestorLockPaths path, E.holdsTree true tree f = some false := by
    rw [← firstHeld_eq_false]
    have hexact := @firstHeld_eq_false (E.holds true tree)
      ((E.getExactLockPaths tree path).filter (· ≠ getLockPath path))
    simp only [List.mem_filter, decide_eq_true_eq, and_imp] at hexact
    rw [← hexact]
    exact bind_eq_false.trans (and_congr_right fun _ => bind_eq_false)
  rw [hsplit]
  constructor
  · rintro ⟨hown, hexact, hancestors⟩ f ⟨hsome, hf⟩
    rcases hf with rfl | hf | ⟨hf, htree⟩
    · exact holds_eq_false.1 hown
    · by_cases heq : f = getLockPath path
      · rw [heq]
        exact holds_eq_false.1 hown
      · exact holds_eq_false.1 (hexact f hf heq)
    · have hheld := hancestors f hf
      obtain ⟨token, htoken⟩ := Option.isSome_iff_exists.1 hsome
      unfold holdsTree at hheld
      rw [htoken] at hheld
      exact holds_eq_false.1 (by simpa [htree token htoken] using hheld)
  · intro hall
    have hstale : ∀ f, (f = getLockPath path ∨ f ∈ E.getExactLockPaths tree path) →
        E.holds true tree f = some false := by
      intro f hf
      rw [holds_eq_false]
      cases htoken : readToken tree f with
      | none => exact isLockStale_of_none htoken
      | some token =>
        refine hall f ⟨by rw [htoken]; rfl, ?_⟩
        rcases hf with hf | hf
        · exact .inl hf
        · exact .inr (.inl hf)
    refine ⟨hstale _ (.inl rfl), fun f hf _ => hstale f (.inr hf), fun f hf => ?_⟩
    unfold holdsTree
    cases htoken : readToken tree f with
    | none => rfl
    | some token =>
      by_cases htype : (E.parseFencingToken token).lockType = .tree
      · show (if _ then _ else _) = _
        rw [if_pos htype, holds_eq_false]
        refine hall f ⟨by rw [htoken]; rfl, .inr (.inr ⟨hf, fun t ht => ?_⟩)⟩
        rw [htoken] at ht
        rwa [← Option.some.inj ht]
      · exact if_neg htype

end TextEngine

end OpenViking.Transaction
