import OpenViking.Common.Batches
import OpenViking.Ragfs.Listing

/-!
# Searching a directory tree

`FileSystem::grep` (`crates/ragfs/src/core/filesystem.rs`, 308-448) is a recursion that searches one file
after another; `CachedFileSystem::grep_via_cache` (`crates/ragfs/src/cache/wrapper.rs`, 176-367) is a loop
over a stack that collects files into batches, reads all of a batch and then adds what was found in order.
The file system under both, the lines of a file (`String::from_utf8_lossy` and `str::lines`) and the regex
are parameters.

Results:

* `grepViaCacheReturns_iff`: the loop is a pass over the same steps in batches;
* `grepViaCache_iff`: when they return the same.
-/

namespace OpenViking.Ragfs

open Room Batches

/-- `GrepMatch` (`core/types.rs`, 14-24). -/
structure GrepMatch where
  file : Path
  line : ℕ
  content : List Char
  deriving DecidableEq

/-- `GrepResult` (`core/types.rs`, 28-36). -/
structure GrepResult where
  matched : List GrepMatch
  count : ℕ
  deriving DecidableEq

/-- `from_matches` (`core/types.rs`, 102-105). -/
def GrepResult.fromMatches (found : List GrepMatch) : GrepResult := ⟨found, found.length⟩

/-- `add_match` (`core/types.rs`, 108-115). -/
def GrepResult.addMatch (result : GrepResult) (item : GrepMatch) : GrepResult :=
  ⟨result.matched ++ [item], result.count + 1⟩

/-- The file system that is searched, the lines of what is read, and the regex. -/
structure GrepSource (E : Type*) where
  stat : Path → Except E FileInfo
  readDir : Path → Except E (List FileInfo)
  read : Path → Except E Bytes
  lines : Bytes → List (List Char)
  isMatch : List Char → Bool

/-- The arguments of a search. -/
structure GrepQuery where
  path : Path
  recursive : Bool
  nodeLimit : Option ℕ
  excludePath : Option Path
  levelLimit : Option ℕ

namespace GrepQuery

def basePath (q : GrepQuery) : Path := normalizePrefixPath q.path

/-- The path is under the excluded one. -/
def excludes (q : GrepQuery) (path : Path) : Bool :=
  (q.excludePath.map normalizePrefixPath).any fun exclude => isExcludedPath path exclude

/-- A directory is not searched, for it is not the root of a flat search or it is at the limit of levels. -/
def shut (q : GrepQuery) (path : Path) : Bool :=
  (!q.recursive && decide (path ≠ q.basePath)) || atLevel q.levelLimit q.basePath path

/-- A file is below the limit of levels. -/
def tooDeep (q : GrepQuery) (path : Path) : Bool :=
  q.levelLimit.any fun limit => decide (limit < relativeDepth (relativeMatchFile q.basePath path))

end GrepQuery

/-- The kinds in a listing are those that `stat` gives. -/
def GrepSource.KindsAgree {E : Type*} (src : GrepSource E) : Prop :=
  ∀ path entries, src.readDir path = .ok entries → ∀ entry ∈ entries,
    ∃ info, src.stat (entryPath path entry.name) = .ok info ∧ info.isDir = entry.isDir

section Model

variable {E : Type*} (src : GrepSource E) (q : GrepQuery)

/-! ## The recursion -/

/-- The loop over the lines of a file in `grep_file` (436-444). -/
def grepLines (relFile : Path) : ℕ → List (List Char) → GrepResult → GrepResult
  | _, [], result => result
  | lineNum, line :: lines, result =>
    if reached q.nodeLimit result.count then result
    else
      grepLines relFile (lineNum + 1) lines
        (if src.isMatch line then result.addMatch ⟨relFile, lineNum + 1, line⟩ else result)

/-- `grep_file` (418-448). -/
def grepFile (path : Path) (result : GrepResult) : Except E GrepResult :=
  if reached q.nodeLimit result.count then .ok result
  else
    match src.read path with
    | .error err => .error err
    | .ok content => .ok (grepLines src q (relativeMatchFile q.basePath path) 0 (src.lines content) result)

/-- The loop over the entries of a directory in `grep_internal` (379-401). -/
def grepEntries (visit : Path → GrepResult → Option (Except E GrepResult)) (currentPath : Path) :
    List FileInfo → GrepResult → Option (Except E GrepResult)
  | [], result => some (.ok result)
  | entry :: entries, result =>
    if reached q.nodeLimit result.count then some (.ok result)
    else
      match visit (entryPath currentPath entry.name) result with
      | some (.ok result) => grepEntries visit currentPath entries result
      | stop => stop

/-- `grep_internal` (343-416), at most `fuel` calls deep. -/
def grepInternal : ℕ → Path → GrepResult → Option (Except E GrepResult)
  | 0, _, _ => none
  | fuel + 1, currentPath, result =>
    if reached q.nodeLimit result.count then some (.ok result)
    else if q.excludes currentPath then some (.ok result)
    else
      match src.stat currentPath with
      | .error err => some (.error err)
      | .ok stat =>
        if stat.isDir then
          if q.shut currentPath then some (.ok result)
          else
            match src.readDir currentPath with
            | .error err => some (.error err)
            | .ok entries => grepEntries q (grepInternal fuel) currentPath entries result
        else if q.tooDeep currentPath then some (.ok result)
        else some (grepFile src q currentPath result)

/-- `grep` (308-341) returns. -/
def GrepReturns (r : Except E GrepResult) : Prop :=
  ∃ fuel, grepInternal src q fuel q.basePath (.fromMatches []) = some r

/-! ## The loop -/

/-- The loop over the lines of a file in `grep_cached_file` (355-365). -/
def cachedLines (relFile : Path) (remaining : Option ℕ) :
    ℕ → List (List Char) → List GrepMatch → List GrepMatch
  | _, [], found => found
  | lineNum, line :: lines, found =>
    if reached remaining found.length then found
    else
      cachedLines relFile remaining (lineNum + 1) lines
        (if src.isMatch line then found ++ [⟨relFile, lineNum + 1, line⟩] else found)

/-- `grep_cached_file` (342-367); with no limit `remaining` is the largest number there is. -/
def grepCachedFile (path : Path) (remaining : Option ℕ) : Except E (List GrepMatch) :=
  match src.read path with
  | .error err => .error err
  | .ok content =>
    .ok (cachedLines src (relativeMatchFile q.basePath path) remaining 0 (src.lines content) [])

/-- The inner loop of `flush_grep_file_batch` (330-336), and whether it returned. -/
def pushItems : List GrepMatch → GrepResult → GrepResult × Bool
  | [], result => (result, false)
  | item :: items, result =>
    if reached q.nodeLimit result.count then (result, true) else pushItems items (result.addMatch item)

/-- The outer loop of `flush_grep_file_batch` (329-337). -/
def pushMatches : List (Except E (List GrepMatch)) → GrepResult → Except E GrepResult
  | [], result => .ok result
  | .error err :: _, _ => .error err
  | .ok items :: indexed, result =>
    match pushItems q items result with
    | (result, true) => .ok result
    | (result, false) => pushMatches indexed result

/-- `flush_grep_file_batch` (289-340). -/
def flushGrepFileBatch (fileBatch : List Path) (result : GrepResult) : Except E GrepResult :=
  if fileBatch = [] ∨ reached q.nodeLimit result.count then .ok result
  else
    pushMatches q (fileBatch.map fun path => grepCachedFile src q path (spend q.nodeLimit result.count)) result

/-- `GREP_CACHE_FILE_CONCURRENCY`. -/
def grepCacheFileConcurrency : ℕ := 8

/-- The loop of `grep_via_cache` (205-286), of at most `fuel` tasks. -/
def grepLoop : ℕ → List (Path × Option Bool) → List Path → GrepResult → Option (Except E GrepResult)
  | _, [], fileBatch, result => some (flushGrepFileBatch src q fileBatch result)
  | 0, _ :: _, _, _ => none
  | fuel + 1, (currentPath, isDir) :: stack, fileBatch, result =>
    if reached q.nodeLimit result.count then some (flushGrepFileBatch src q fileBatch result)
    else if q.excludes currentPath then grepLoop fuel stack fileBatch result
    else
      match isDir.elim ((src.stat currentPath).map FileInfo.isDir) .ok with
      | .error err => some (.error err)
      | .ok true =>
        match flushGrepFileBatch src q fileBatch result with
        | .error err => some (.error err)
        | .ok result =>
          if reached q.nodeLimit result.count then some (flushGrepFileBatch src q [] result)
          else if q.shut currentPath then grepLoop fuel stack [] result
          else
            match src.readDir currentPath with
            | .error err => some (.error err)
            | .ok entries =>
              grepLoop fuel (entries.reverse.foldl (fun stack entry =>
                (entryPath currentPath entry.name, some entry.isDir) :: stack) stack) [] result
      | .ok false =>
        if q.tooDeep currentPath then grepLoop fuel stack fileBatch result
        else if grepCacheFileConcurrency ≤ (fileBatch ++ [currentPath]).length then
          match flushGrepFileBatch src q (fileBatch ++ [currentPath]) result with
          | .error err => some (.error err)
          | .ok result => grepLoop fuel stack [] result
        else grepLoop fuel stack (fileBatch ++ [currentPath]) result

/-- `grep_via_cache` (176-287) returns. -/
def GrepViaCacheReturns (r : Except E GrepResult) : Prop :=
  ∃ fuel, grepLoop src q fuel [(q.basePath, none)] [] (.fromMatches []) = some r

/-! ## Steps -/

/-- The matches in the lines of a file. -/
def matchesFrom (relFile : Path) : ℕ → List (List Char) → List GrepMatch
  | _, [] => []
  | lineNum, line :: lines =>
    if src.isMatch line then ⟨relFile, lineNum + 1, line⟩ :: matchesFrom relFile (lineNum + 1) lines
    else matchesFrom relFile (lineNum + 1) lines

/-- What is found in a file, or the error of reading it. -/
def foundIn (path : Path) : Except E (List GrepMatch) :=
  (src.read path).map fun content =>
    matchesFrom src (relativeMatchFile q.basePath path) 0 (src.lines content)

/-- The steps of a search below a path: files, and `none` where a directory begins. -/
def grepSteps : ℕ → Path → Bool → List (Option (Except E (List GrepMatch)))
  | _, path, false => if q.excludes path || q.tooDeep path then [] else [some (foundIn src q path)]
  | 0, _, true => []
  | depth + 1, path, true =>
    if q.excludes path then []
    else if q.shut path then [none]
    else
      match src.readDir path with
      | .error err => [none, some (.error err)]
      | .ok entries =>
        none :: entries.flatMap fun entry => grepSteps depth (entryPath path entry.name) entry.isDir

/-- The steps of a search. -/
def searchSteps (depth : ℕ) : List (Option (Except E (List GrepMatch))) :=
  match src.stat q.basePath with
  | .error err => if q.excludes q.basePath then [] else [some (.error err)]
  | .ok info => grepSteps src q depth q.basePath info.isDir

/-- The files of a search as they are read together. -/
def fileBatches (depth : ℕ) : List (List (Except E (List GrepMatch))) :=
  batches grepCacheFileConcurrency (searchSteps src q depth) []

end Model

/-! ## What the loops over lines and matches do -/

section Lines

variable {E : Type*} {src : GrepSource E} {q : GrepQuery}

theorem addMatch_fromMatches (found : List GrepMatch) (item : GrepMatch) :
    (GrepResult.fromMatches found).addMatch item = .fromMatches (found ++ [item]) := by
  unfold GrepResult.addMatch GrepResult.fromMatches
  rw [List.length_append, List.length_singleton]

theorem takeRoom_of_reached {limit : Option ℕ} {count : ℕ} (h : reached limit count = true)
    (found : List GrepMatch) : takeRoom (spend limit count) found = [] := by
  rw [(reached_iff _ _).1 h, takeRoom_zero]

theorem takeRoom_step {limit : Option ℕ} {found : List GrepMatch}
    (h : ¬ reached limit found.length = true) (item : GrepMatch) (items : List GrepMatch) :
    found ++ takeRoom (spend limit found.length) (item :: items) =
      found ++ [item] ++ takeRoom (spend limit (found ++ [item]).length) items := by
  rw [takeRoom_cons (fun h0 => h ((reached_iff _ _).2 h0)), spend_spend, List.length_append,
    List.length_singleton, List.append_assoc, List.singleton_append]

theorem grepLines_eq (relFile : Path) (lineNum : ℕ) (lines : List (List Char)) (found : List GrepMatch) :
    grepLines src q relFile lineNum lines (.fromMatches found) =
      .fromMatches (found ++ takeRoom (spend q.nodeLimit found.length)
        (matchesFrom src relFile lineNum lines)) := by
  induction lines generalizing lineNum found with
  | nil => rw [grepLines, matchesFrom, takeRoom_nil, List.append_nil]
  | cons line lines ih =>
    rw [grepLines, matchesFrom]
    show (if reached q.nodeLimit found.length = true then _ else _) = _
    by_cases h : reached q.nodeLimit found.length = true
    · rw [if_pos h, takeRoom_of_reached h, List.append_nil]
    · rw [if_neg h]
      by_cases hmatch : src.isMatch line = true
      · rw [if_pos hmatch, if_pos hmatch, addMatch_fromMatches, ih, takeRoom_step h]
      · rw [if_neg hmatch, if_neg hmatch, ih]

theorem cachedLines_eq (relFile : Path) (remaining : Option ℕ) (lineNum : ℕ) (lines : List (List Char))
    (found : List GrepMatch) :
    cachedLines src relFile remaining lineNum lines found =
      found ++ takeRoom (spend remaining found.length) (matchesFrom src relFile lineNum lines) := by
  induction lines generalizing lineNum found with
  | nil => rw [cachedLines, matchesFrom, takeRoom_nil, List.append_nil]
  | cons line lines ih =>
    rw [cachedLines, matchesFrom]
    by_cases h : reached remaining found.length = true
    · rw [if_pos h, takeRoom_of_reached h, List.append_nil]
    · rw [if_neg h]
      by_cases hmatch : src.isMatch line = true
      · rw [if_pos hmatch, if_pos hmatch, ih, takeRoom_step h]
      · rw [if_neg hmatch, if_neg hmatch, ih]

theorem grepFile_eq (path : Path) (found : List GrepMatch) :
    grepFile src q path (.fromMatches found) =
      (runSteps q.nodeLimit [foundIn src q path] found).map .fromMatches := by
  unfold grepFile foundIn
  show (if reached q.nodeLimit found.length = true then _ else _) = _
  by_cases h : reached q.nodeLimit found.length = true
  · rw [if_pos h, runSteps_of_reached h]
    rfl
  · rw [if_neg h]
    cases src.read path with
    | error err =>
      show _ = (runSteps q.nodeLimit [.error err] found).map GrepResult.fromMatches
      rw [runSteps, if_neg h]
      rfl
    | ok content =>
      show _ = (runSteps q.nodeLimit [.ok (matchesFrom src _ 0 (src.lines content))] found).map
        GrepResult.fromMatches
      rw [runSteps, if_neg h, runSteps]
      exact congrArg Except.ok (grepLines_eq _ 0 _ found)

theorem grepCachedFile_eq (path : Path) (remaining : Option ℕ) :
    grepCachedFile src q path remaining = clip remaining (foundIn src q path) := by
  unfold grepCachedFile foundIn clip
  cases src.read path with
  | error err => rfl
  | ok content =>
    refine congrArg Except.ok ?_
    dsimp only
    rw [cachedLines_eq, List.length_nil, spend_zero, List.nil_append]

theorem pushItems_eq (items found : List GrepMatch) :
    pushItems q items (.fromMatches found) =
      (.fromMatches (found ++ takeRoom (spend q.nodeLimit found.length) items),
        decide ((takeRoom (spend q.nodeLimit found.length) items).length < items.length)) := by
  induction items generalizing found with
  | nil => simp [pushItems]
  | cons item items ih =>
    rw [pushItems]
    show (if reached q.nodeLimit found.length = true then _ else _) = _
    by_cases h : reached q.nodeLimit found.length = true
    · rw [if_pos h, takeRoom_of_reached h]
      simp
    · rw [if_neg h, addMatch_fromMatches, ih, takeRoom_step h,
        takeRoom_cons (fun h0 => h ((reached_iff _ _).2 h0)), spend_spend]
      simp

theorem pushMatches_eq (indexed : List (Except E (List GrepMatch))) (found : List GrepMatch) :
    pushMatches q indexed (.fromMatches found) = (pushAll q.nodeLimit indexed found).map .fromMatches := by
  induction indexed generalizing found with
  | nil => rfl
  | cons step indexed ih =>
    cases step with
    | error err => rfl
    | ok items =>
      rw [pushMatches, pushAll, pushItems_eq]
      by_cases h : (takeRoom (spend q.nodeLimit found.length) items).length < items.length
      · rw [if_pos h, decide_eq_true h]
        rfl
      · rw [if_neg h, decide_eq_false h]
        have hall : takeRoom (spend q.nodeLimit found.length) items = items := by
          cases hlimit : q.nodeLimit with
          | none => rfl
          | some limit =>
            rw [hlimit] at h
            have hle : ¬ (items.take (limit - found.length)).length < items.length := h
            rw [List.length_take] at hle
            have hfits : items.length ≤ limit - found.length := by omega
            exact List.take_of_length_le hfits
        rw [hall]
        exact ih _

theorem flushGrepFileBatch_eq (fileBatch : List Path) (found : List GrepMatch) :
    flushGrepFileBatch src q fileBatch (.fromMatches found) =
      (flush q.nodeLimit (fileBatch.map (foundIn src q)) found).map .fromMatches := by
  unfold flushGrepFileBatch flush
  show (if fileBatch = [] ∨ reached q.nodeLimit found.length = true then _ else _) = _
  by_cases h : reached q.nodeLimit found.length = true
  · rw [if_pos (.inr h), if_pos h]
    rfl
  · rw [if_neg h]
    by_cases hnil : fileBatch = []
    · rw [if_pos (.inl hnil), hnil]
      rfl
    · rw [if_neg (fun hor => hor.elim hnil h), List.map_map]
      have hclip : (fileBatch.map fun path =>
          grepCachedFile src q path (spend q.nodeLimit (GrepResult.fromMatches found).count)) =
          fileBatch.map (clip (spend q.nodeLimit found.length) ∘ foundIn src q) :=
        List.map_congr_left fun path _ => grepCachedFile_eq path _
      rw [hclip, pushMatches_eq]

end Lines

/-! ## The recursion -/

section Recursion

variable {E : Type*} {src : GrepSource E} {q : GrepQuery}

/-- A search that has enough fuel ends as it should; one that has not does not end. -/
def EndsAs (x : Option (Except E GrepResult)) (fuel enough : ℕ) (r : Except E (List GrepMatch)) : Prop :=
  x = some (r.map .fromMatches) ∨ (fuel < enough ∧ x = none)

theorem grepEntries_eq {visit : Path → GrepResult → Option (Except E GrepResult)} (fuel : ℕ) {depth : ℕ}
    {path : Path} (entries : List FileInfo)
    (hvisit : ∀ entry ∈ entries, ∀ found, EndsAs (visit (entryPath path entry.name) (.fromMatches found))
      fuel (depth + 1) (runSteps q.nodeLimit
        (grepSteps src q depth (entryPath path entry.name) entry.isDir).reduceOption found))
    (found : List GrepMatch) :
    EndsAs (grepEntries q visit path entries (.fromMatches found)) fuel (depth + 1)
      (runSteps q.nodeLimit (entries.flatMap fun entry =>
        grepSteps src q depth (entryPath path entry.name) entry.isDir).reduceOption found) := by
  induction entries generalizing found with
  | nil => exact .inl rfl
  | cons entry entries ih =>
    have hrest := fun found => ih (fun entry hentry => hvisit entry (List.mem_cons_of_mem _ hentry)) found
    rw [grepEntries, List.flatMap_cons, List.reduceOption_append]
    show EndsAs (if reached q.nodeLimit found.length = true then _ else _) _ _ _
    by_cases h : reached q.nodeLimit found.length = true
    · rw [if_pos h, runSteps_of_reached h]
      exact .inl rfl
    · rw [if_neg h, runSteps_append]
      rcases hvisit entry List.mem_cons_self found with hone | ⟨hfuel, hone⟩
      · rw [hone]
        cases runSteps q.nodeLimit
            (grepSteps src q depth (entryPath path entry.name) entry.isDir).reduceOption found with
        | error err => exact .inl rfl
        | ok found' => exact hrest found'
      · rw [hone]
        exact .inr ⟨hfuel, rfl⟩

theorem runSteps_error {limit : Option ℕ} {found : List GrepMatch} (h : ¬ reached limit found.length = true)
    (err : E) (steps : List (Except E (List GrepMatch))) :
    runSteps limit (.error err :: steps) found = .error err := by
  rw [runSteps, if_neg h]

theorem grepInternal_eq (hkinds : src.KindsAgree) (fuel depth : ℕ) (path : Path) (info : FileInfo)
    (hstat : src.stat path = .ok info) (htree : info.isDir = true → DirTree src.readDir depth path)
    (found : List GrepMatch) :
    EndsAs (grepInternal src q fuel path (.fromMatches found)) fuel (depth + 1)
      (runSteps q.nodeLimit (grepSteps src q depth path info.isDir).reduceOption found) := by
  induction fuel generalizing depth path info found with
  | zero => exact .inr ⟨Nat.succ_pos depth, rfl⟩
  | succ fuel ih =>
    rw [grepInternal]
    show EndsAs (if reached q.nodeLimit found.length = true then _ else _) _ _ _
    by_cases h : reached q.nodeLimit found.length = true
    · rw [if_pos h, runSteps_of_reached h]
      exact .inl rfl
    rw [if_neg h]
    by_cases hexcluded : q.excludes path = true
    · have hsteps : grepSteps src q depth path info.isDir = [] := by
        cases info.isDir with
        | false => rw [grepSteps, hexcluded, Bool.true_or, if_pos rfl]
        | true =>
          cases depth with
          | zero => rfl
          | succ depth => rw [grepSteps, if_pos hexcluded]
      rw [if_pos hexcluded, hsteps]
      exact .inl rfl
    rw [if_neg hexcluded, hstat]
    dsimp only
    cases hdir : info.isDir with
    | false =>
      rw [if_neg Bool.false_ne_true, grepSteps, eq_false_of_ne_true hexcluded, Bool.false_or]
      by_cases hdeep : q.tooDeep path = true
      · rw [if_pos hdeep, if_pos hdeep]
        exact .inl rfl
      · rw [if_neg hdeep, if_neg hdeep]
        exact .inl (congrArg some (grepFile_eq path found))
    | true =>
      rw [if_pos rfl]
      cases depth with
      | zero => exact (htree hdir).elim
      | succ depth =>
        rw [grepSteps, if_neg hexcluded]
        by_cases hshut : q.shut path = true
        · rw [if_pos hshut, if_pos hshut]
          exact .inl rfl
        rw [if_neg hshut, if_neg hshut]
        cases hread : src.readDir path with
        | error err =>
          show EndsAs _ _ _ (runSteps q.nodeLimit [.error err] found)
          rw [runSteps_error h]
          exact .inl rfl
        | ok entries =>
          have hentries := grepEntries_eq fuel entries (fun entry hentry found => by
            obtain ⟨info', hstat', hkind⟩ := hkinds path entries hread entry hentry
            rw [← hkind]
            refine ih depth _ info' hstat' (fun hdir' => ?_) found
            rw [hkind] at hdir'
            exact htree hdir entries hread entry hentry hdir') found
          rcases hentries with heq | ⟨hfuel, heq⟩
          · exact .inl heq
          · exact .inr ⟨by omega, heq⟩

end Recursion

/-! ## The loop -/

/-- A path on the stack, with a bound on the depth below it. -/
structure Pending where
  depth : ℕ
  path : Path
  isDir : Bool

section Loop

variable {E : Type*}

/-- The number of tasks that a path on the stack can lead to. -/
def weight (src : GrepSource E) : ℕ → Path → Bool → ℕ
  | _, _, false => 1
  | 0, _, true => 1
  | depth + 1, path, true =>
    1 +
      match src.readDir path with
      | .error _ => 0
      | .ok entries => (entries.map fun entry => weight src depth (entryPath path entry.name) entry.isDir).sum

/-- The steps of what is on the stack. -/
def pendingSteps (src : GrepSource E) (q : GrepQuery) (pending : List Pending) :
    List (Option (Except E (List GrepMatch))) :=
  pending.flatMap fun p => grepSteps src q p.depth p.path p.isDir

def pendingWeight (src : GrepSource E) (pending : List Pending) : ℕ :=
  (pending.map fun p => weight src p.depth p.path p.isDir).sum

variable {src : GrepSource E} {q : GrepQuery}

theorem weight_pos (src : GrepSource E) (depth : ℕ) (path : Path) (isDir : Bool) : 0 < weight src depth path isDir := by
  cases isDir with
  | false =>
    rw [weight]
    exact Nat.one_pos
  | true =>
    cases depth with
    | zero => exact Nat.one_pos
    | succ depth =>
      rw [weight]
      omega

theorem pendingWeight_cons (p : Pending) (pending : List Pending) :
    pendingWeight src (p :: pending) = weight src p.depth p.path p.isDir + pendingWeight src pending := by
  unfold pendingWeight
  rw [List.map_cons, List.sum_cons]

theorem pushTasks_eq (path : Path) (entries : List FileInfo) (stack : List (Path × Option Bool)) :
    entries.reverse.foldl (fun stack entry => (entryPath path entry.name, some entry.isDir) :: stack) stack =
      (entries.map fun entry => (entryPath path entry.name, some entry.isDir)) ++ stack := by
  rw [List.foldl_reverse]
  induction entries with
  | nil => rfl
  | cons entry entries ih => rw [List.foldr_cons, ih, List.map_cons, List.cons_append]

/-- A batch that starts with a failing step fails. -/
theorem runBatches_error {limit : Option ℕ} {size : ℕ} {found : List GrepMatch}
    (h : ¬ reached limit found.length = true) (err : E) (steps : List (Option (Except E (List GrepMatch))))
    (batch : List (Except E (List GrepMatch))) :
    runBatches limit (batches size steps (.error err :: batch)) found = .error err := by
  have hflush : ∀ batch : List (Except E (List GrepMatch)),
      flush limit (.error err :: batch) found = .error err := by
    intro batch
    rw [flush, if_neg h]
    rfl
  induction steps generalizing batch with
  | nil => rw [batches, runBatches, hflush]
  | cons step steps ih =>
    cases step with
    | none => rw [batches, runBatches, hflush]
    | some step =>
      rw [batches, List.cons_append]
      split_ifs
      · rw [runBatches, hflush]
      · exact ih _

theorem EndsAs.more {x : Option (Except E GrepResult)} {fuel enough more : ℕ}
    {r : Except E (List GrepMatch)} (h : EndsAs x fuel enough r) (hmore : 0 < more) :
    EndsAs x (fuel + 1) (more + enough) r :=
  h.imp id fun ⟨hfuel, hnone⟩ => ⟨by omega, hnone⟩

theorem pendingSteps_cons (p : Pending) (pending : List Pending) :
    pendingSteps src q (p :: pending) =
      grepSteps src q p.depth p.path p.isDir ++ pendingSteps src q pending := List.flatMap_cons

theorem grepLoop_nil (fuel : ℕ) (fileBatch : List Path) (found : List GrepMatch) :
    grepLoop src q fuel [] fileBatch (.fromMatches found) =
      some ((runBatches q.nodeLimit [fileBatch.map (foundIn src q)] found).map .fromMatches) := by
  have hloop : grepLoop src q fuel [] fileBatch (.fromMatches found) =
      some (flushGrepFileBatch src q fileBatch (.fromMatches found)) := by
    cases fuel with
    | zero => rfl
    | succ fuel => rfl
  rw [hloop, flushGrepFileBatch_eq, runBatches]
  cases flush q.nodeLimit (fileBatch.map (foundIn src q)) found with
  | error err => rfl
  | ok found => rfl

variable (depth : ℕ)

/-- What the loop goes on with for the entries of a directory. -/
theorem pending_entries (path : Path) (entries : List FileInfo) (pending : List Pending) :
    (entries.map fun entry => (entryPath path entry.name, some entry.isDir)) ++
        pending.map (fun p => (p.path, some p.isDir)) =
      ((entries.map fun entry => Pending.mk depth (entryPath path entry.name) entry.isDir) ++ pending).map
        fun p => (p.path, some p.isDir) := by
  rw [List.map_append, List.map_map]
  rfl

theorem pendingSteps_entries (path : Path) (entries : List FileInfo) (pending : List Pending) :
    pendingSteps src q ((entries.map fun entry => Pending.mk depth (entryPath path entry.name) entry.isDir) ++
        pending) =
      (entries.flatMap fun entry => grepSteps src q depth (entryPath path entry.name) entry.isDir) ++
        pendingSteps src q pending := by
  unfold pendingSteps
  rw [List.flatMap_append, List.flatMap_map]

theorem pendingWeight_entries (path : Path) (entries : List FileInfo) (pending : List Pending) :
    pendingWeight src ((entries.map fun entry => Pending.mk depth (entryPath path entry.name) entry.isDir) ++
        pending) =
      (entries.map fun entry => weight src depth (entryPath path entry.name) entry.isDir).sum +
        pendingWeight src pending := by
  unfold pendingWeight
  rw [List.map_append, List.sum_append, List.map_map]
  rfl

/-- A directory that is not excluded begins a new batch. -/
theorem exists_grepSteps_dir (src : GrepSource E) {path : Path} (h : ¬ q.excludes path = true) (depth : ℕ) :
    ∃ more, grepSteps src q (depth + 1) path true = none :: more := by
  rw [grepSteps, if_neg h]
  by_cases hshut : q.shut path = true
  · exact ⟨_, if_pos hshut⟩
  · rw [if_neg hshut]
    cases src.readDir path with
    | error err => exact ⟨_, rfl⟩
    | ok entries => exact ⟨_, rfl⟩

/-- The loop is a pass over the steps of what is on the stack, in batches. -/
theorem grepLoop_eq (fuel : ℕ) (pending : List Pending)
    (htree : ∀ p ∈ pending, p.isDir = true → DirTree src.readDir p.depth p.path) (fileBatch : List Path)
    (found : List GrepMatch) :
    EndsAs (grepLoop src q fuel (pending.map fun p => (p.path, some p.isDir)) fileBatch (.fromMatches found))
      fuel (pendingWeight src pending)
      (runBatches q.nodeLimit (batches grepCacheFileConcurrency (pendingSteps src q pending)
        (fileBatch.map (foundIn src q))) found) := by
  induction fuel generalizing pending fileBatch found with
  | zero =>
    cases pending with
    | nil => exact .inl (grepLoop_nil 0 fileBatch found)
    | cons p pending =>
      refine .inr ⟨?_, rfl⟩
      rw [pendingWeight_cons]
      exact Nat.add_pos_left (weight_pos _ _ _ _) _
  | succ fuel ih =>
    cases pending with
    | nil => exact .inl (grepLoop_nil (fuel + 1) fileBatch found)
    | cons p pending =>
      obtain ⟨depth, path, isDir⟩ := p
      have hrest := fun fileBatch found =>
        (ih pending (fun p hp => htree p (List.mem_cons_of_mem _ hp)) fileBatch found).more
          (weight_pos src depth path isDir)
      rw [pendingWeight_cons, pendingSteps_cons, List.map_cons, grepLoop]
      dsimp only [Option.elim_some] at hrest ⊢
      show EndsAs (if reached q.nodeLimit found.length = true then _ else _) _ _ _
      by_cases h : reached q.nodeLimit found.length = true
      · rw [if_pos h, flushGrepFileBatch_eq, flush, if_pos h, runBatches_of_reached h]
        exact .inl rfl
      rw [if_neg h]
      by_cases hexcluded : q.excludes path = true
      · have hsteps : grepSteps src q depth path isDir = [] := by
          cases isDir with
          | false => rw [grepSteps, hexcluded, Bool.true_or, if_pos rfl]
          | true =>
            cases depth with
            | zero => rfl
            | succ depth => rw [grepSteps, if_pos hexcluded]
        rw [if_pos hexcluded, hsteps, List.nil_append]
        exact hrest fileBatch found
      rw [if_neg hexcluded]
      cases isDir with
      | false =>
        dsimp only
        rw [grepSteps, eq_false_of_ne_true hexcluded, Bool.false_or]
        by_cases hdeep : q.tooDeep path = true
        · rw [if_pos hdeep, if_pos hdeep, List.nil_append]
          exact hrest fileBatch found
        rw [if_neg hdeep, if_neg hdeep, List.singleton_append, batches]
        have hbatch : (fileBatch ++ [path]).map (foundIn src q) =
            fileBatch.map (foundIn src q) ++ [foundIn src q path] := by
          rw [List.map_append, List.map_singleton]
        have hlen : ((fileBatch.map (foundIn src q)) ++ [foundIn src q path]).length =
            (fileBatch ++ [path]).length := by
          rw [← hbatch, List.length_map]
        rw [hlen, ← hbatch]
        by_cases hfull : grepCacheFileConcurrency ≤ (fileBatch ++ [path]).length
        · rw [if_pos hfull, if_pos hfull, flushGrepFileBatch_eq, runBatches]
          cases flush q.nodeLimit ((fileBatch ++ [path]).map (foundIn src q)) found with
          | error err => exact .inl rfl
          | ok found => exact hrest [] found
        · rw [if_neg hfull, if_neg hfull]
          exact hrest (fileBatch ++ [path]) found
      | true =>
        have hdirs := htree _ List.mem_cons_self rfl
        cases depth with
        | zero => exact hdirs.elim
        | succ depth =>
          obtain ⟨more, hmore⟩ := exists_grepSteps_dir src hexcluded depth
          dsimp only
          rw [flushGrepFileBatch_eq]
          cases hflush : flush q.nodeLimit (fileBatch.map (foundIn src q)) found with
          | error err =>
            rw [hmore, List.cons_append, batches, runBatches_of_flush_error hflush]
            exact .inl rfl
          | ok found =>
            show EndsAs (if reached q.nodeLimit found.length = true then _ else _) _ _ _
            by_cases h' : reached q.nodeLimit found.length = true
            · rw [if_pos h', hmore, List.cons_append, batches, runBatches_of_flush_ok hflush,
                runBatches_of_reached h', flushGrepFileBatch_eq, flush, if_pos h']
              exact .inl rfl
            rw [if_neg h', grepSteps, if_neg hexcluded]
            by_cases hshut : q.shut path = true
            · rw [if_pos hshut, if_pos hshut, List.singleton_append, batches, runBatches_of_flush_ok hflush]
              exact hrest [] found
            rw [if_neg hshut, if_neg hshut]
            cases hread : src.readDir path with
            | error err =>
              dsimp only
              rw [List.cons_append, batches, runBatches_of_flush_ok hflush, List.singleton_append, batches,
                List.nil_append, if_neg (by simp [grepCacheFileConcurrency]), runBatches_error h']
              exact .inl rfl
            | ok entries =>
              dsimp only
              rw [List.cons_append, batches, runBatches_of_flush_ok hflush, pushTasks_eq,
                pending_entries depth, ← pendingSteps_entries]
              have hnext := ih ((entries.map fun entry =>
                Pending.mk depth (entryPath path entry.name) entry.isDir) ++ pending) (fun p hp hdir => by
                  rcases List.mem_append.1 hp with hp | hp
                  · obtain ⟨entry, hentry, rfl⟩ := List.mem_map.1 hp
                    exact hdirs entries hread entry hentry hdir
                  · exact htree p (List.mem_cons_of_mem _ hp) hdir) [] found
              have hweight : weight src (depth + 1) path true =
                  1 + (entries.map fun entry =>
                    weight src depth (entryPath path entry.name) entry.isDir).sum := by
                rw [weight, hread]
              rw [hweight, Nat.add_assoc, ← pendingWeight_entries]
              exact hnext.more Nat.one_pos

end Loop

/-! ## Both searches -/

section Results

variable {E : Type*} {src : GrepSource E} {q : GrepQuery} {depth : ℕ}

theorem EndsAs.returns_iff {f : ℕ → Option (Except E GrepResult)} (enough : ℕ)
    {r : Except E (List GrepMatch)} (h : ∀ fuel, EndsAs (f fuel) fuel enough r) (x : Except E GrepResult) :
    (∃ fuel, f fuel = some x) ↔ x = r.map .fromMatches := by
  constructor
  · rintro ⟨fuel, hx⟩
    rcases h fuel with heq | ⟨-, heq⟩
    · exact Option.some.inj (hx.symm.trans heq)
    · cases hx.symm.trans heq
  · rintro rfl
    rcases h enough with heq | ⟨hlt, -⟩
    · exact ⟨enough, heq⟩
    · exact absurd hlt (lt_irrefl _)

theorem searchSteps_error {err : E} (h : src.stat q.basePath = .error err) :
    searchSteps src q depth = if q.excludes q.basePath = true then [] else [some (.error err)] := by
  rw [searchSteps, h]

/-- The kind of the first path is what `stat` gives. -/
theorem grepLoop_stat {path : Path} {info : FileInfo} (h : src.stat path = .ok info) (fuel : ℕ)
    (stack : List (Path × Option Bool)) (fileBatch : List Path) (result : GrepResult) :
    grepLoop src q fuel ((path, none) :: stack) fileBatch result =
      grepLoop src q fuel ((path, some info.isDir) :: stack) fileBatch result := by
  have hkind : (none : Option Bool).elim ((src.stat path).map FileInfo.isDir) .ok =
      (some info.isDir).elim ((src.stat path).map FileInfo.isDir) .ok := by
    rw [h]
    rfl
  cases fuel with
  | zero => rfl
  | succ fuel => simp only [grepLoop, hkind]

/-- The recursion is one pass over the steps of the search. -/
theorem grepReturns_iff (hkinds : src.KindsAgree)
    (htree : ∀ info, src.stat q.basePath = .ok info → info.isDir = true →
      DirTree src.readDir depth q.basePath) (r : Except E GrepResult) :
    GrepReturns src q r ↔
      r = (runSteps q.nodeLimit (searchSteps src q depth).reduceOption []).map .fromMatches := by
  refine EndsAs.returns_iff (depth + 1) (fun fuel => ?_) r
  cases hstat : src.stat q.basePath with
  | ok info =>
    have hsteps : searchSteps src q depth = grepSteps src q depth q.basePath info.isDir := by
      rw [searchSteps, hstat]
    rw [hsteps]
    exact grepInternal_eq hkinds fuel depth q.basePath info hstat (htree info hstat) []
  | error err =>
    cases fuel with
    | zero => exact .inr ⟨Nat.succ_pos depth, rfl⟩
    | succ fuel =>
      refine .inl ?_
      rw [grepInternal, searchSteps_error hstat, hstat]
      show (if reached q.nodeLimit ([] : List GrepMatch).length = true then _ else _) = _
      by_cases h : reached q.nodeLimit ([] : List GrepMatch).length = true
      · rw [if_pos h, runSteps_of_reached h]
        rfl
      · rw [if_neg h]
        by_cases hexcluded : q.excludes q.basePath = true
        · rw [if_pos hexcluded, if_pos hexcluded]
          rfl
        · rw [if_neg hexcluded, if_neg hexcluded]
          show _ = some ((runSteps q.nodeLimit [.error err] []).map GrepResult.fromMatches)
          rw [runSteps_error h]
          rfl

/-- The loop is a pass over the steps of the search in batches. -/
theorem grepViaCacheReturns_iff (htree : ∀ info, src.stat q.basePath = .ok info → info.isDir = true →
      DirTree src.readDir depth q.basePath) (r : Except E GrepResult) :
    GrepViaCacheReturns src q r ↔
      r = (runBatches q.nodeLimit (fileBatches src q depth) []).map .fromMatches := by
  cases hstat : src.stat q.basePath with
  | ok info =>
    have hsteps : searchSteps src q depth = pendingSteps src q [⟨depth, q.basePath, info.isDir⟩] := by
      rw [searchSteps, hstat]
      exact (List.flatMap_singleton _ _).symm
    unfold GrepViaCacheReturns fileBatches
    simp only [grepLoop_stat hstat, hsteps]
    refine EndsAs.returns_iff (pendingWeight src [⟨depth, q.basePath, info.isDir⟩]) (fun fuel => ?_) r
    exact grepLoop_eq fuel [⟨depth, q.basePath, info.isDir⟩] (fun p hp hdir => by
      obtain rfl := List.mem_singleton.1 hp
      exact htree info hstat hdir) [] []
  | error err =>
    refine EndsAs.returns_iff 1 (fun fuel => ?_) r
    cases fuel with
    | zero => exact .inr ⟨Nat.one_pos, rfl⟩
    | succ fuel =>
      refine .inl ?_
      rw [grepLoop, fileBatches, searchSteps_error hstat, hstat]
      show (if reached q.nodeLimit ([] : List GrepMatch).length = true then _ else _) = _
      by_cases h : reached q.nodeLimit ([] : List GrepMatch).length = true
      · rw [if_pos h, runBatches_of_reached h, flushGrepFileBatch_eq, flush, if_pos h]
      · rw [if_neg h]
        by_cases hexcluded : q.excludes q.basePath = true
        · rw [if_pos hexcluded, if_pos hexcluded, grepLoop_nil]
          rfl
        · have hsize : ¬ grepCacheFileConcurrency ≤
              (([] : List (Except E (List GrepMatch))) ++ [Except.error err]).length := by
            simp [grepCacheFileConcurrency]
          have hfails : runBatches q.nodeLimit (batches grepCacheFileConcurrency []
              (([] : List (Except E (List GrepMatch))) ++ [Except.error err])) [] = .error err :=
            runBatches_error h err [] []
          rw [if_neg hexcluded, if_neg hexcluded, batches, if_neg hsize, hfails]
          rfl

end Results

/-- **When a cached search is the plain one.**  Both return; they return the same, a result or an error,
exactly when no file fails that stands, with nothing found between, after the place where the limit is
reached and in the same batch. -/
theorem grepViaCache_iff {E : Type*} (src : GrepSource E) (q : GrepQuery) {depth : ℕ}
    (hkinds : src.KindsAgree) (htree : ∀ info, src.stat q.basePath = .ok info → info.isDir = true →
      DirTree src.readDir depth q.basePath) :
    (∃ r, GrepViaCacheReturns src q r) ∧ (∃ r, GrepReturns src q r) ∧
      ((∀ r, GrepViaCacheReturns src q r ↔ GrepReturns src q r) ↔
        ∀ limit, q.nodeLimit = some limit → ¬ Overrun limit (fileBatches src q depth) 0) := by
  have hcache := grepViaCacheReturns_iff htree
  have hplain := grepReturns_iff hkinds htree
  refine ⟨⟨_, (hcache _).2 rfl⟩, ⟨_, (hplain _).2 rfl⟩, ?_⟩
  have hflatten : (searchSteps src q depth).reduceOption = (fileBatches src q depth).flatten := by
    rw [fileBatches, flatten_batches, List.nil_append]
  simp only [hcache, hplain, hflatten]
  constructor
  · intro hall limit hlimit hover
    obtain ⟨⟨err, herr⟩, found, hok⟩ := runBatches_of_overrun (fileBatches src q depth) [] hover
    rw [hlimit, herr, hok] at hall
    cases (hall _).1 rfl
  · intro hnot r
    cases hlimit : q.nodeLimit with
    | none => rw [runBatches_none]
    | some limit => rw [runBatches_of_not_overrun _ [] (hnot limit hlimit)]

/-- A root with two files; the second cannot be read. -/
def twoFiles : GrepSource Unit where
  stat path := .ok ⟨path, 0, 0o644, decide (path = ['/'])⟩
  readDir path := if path = ['/'] then .ok [⟨['a'], 1, 0o644, false⟩, ⟨['b'], 1, 0o644, false⟩] else .ok []
  read path := if path = ['/', 'a'] then .ok [0x78] else .error ()
  lines content := [content.map fun byte => Char.ofNat byte.toNat]
  isMatch line := line.contains 'x'

/-- A search of all of it. -/
def searchAll (nodeLimit : ℕ) : GrepQuery := ⟨['/'], true, some nodeLimit, none, none⟩

theorem kindsAgree_twoFiles : twoFiles.KindsAgree := by
  intro path entries hentries entry hentry
  refine ⟨_, rfl, ?_⟩
  unfold twoFiles at hentries
  dsimp only at hentries
  split_ifs at hentries with hroot
  · obtain rfl := Except.ok.inj hentries
    rw [hroot]
    simp only [List.mem_cons, List.not_mem_nil, or_false] at hentry
    rcases hentry with rfl | rfl
    · rfl
    · rfl
  · obtain rfl := Except.ok.inj hentries
    exact absurd hentry List.not_mem_nil

theorem dirTree_twoFiles : DirTree twoFiles.readDir 1 ['/'] := by
  intro entries hentries entry hentry hdir
  obtain rfl := Except.ok.inj hentries
  simp only [List.mem_cons, List.not_mem_nil, or_false] at hentry
  rcases hentry with rfl | rfl
  · cases hdir
  · cases hdir

/-- With room for two matches both searches fail. -/
theorem grepViaCache_roomForTwo :
    {r | GrepViaCacheReturns twoFiles (searchAll 2) r} = {r | GrepReturns twoFiles (searchAll 2) r} := by
  refine Set.ext ((grepViaCache_iff twoFiles (searchAll 2) kindsAgree_twoFiles fun _ _ _ => dirTree_twoFiles).2.2.2
    fun limit hlimit => ?_)
  obtain rfl := Option.some.inj hlimit
  have hbatches : fileBatches twoFiles (searchAll 2) 1 =
      [[], [.ok [⟨['a'], 1, ['x']⟩], .error ()]] := by decide
  rw [hbatches]
  simp [Overrun, not_spoils_nil, spoils_ok_iff, spoils_error_iff]

/-- With room for one, the plain search stops before the file that cannot be read. -/
theorem grepViaCache_fails :
    GrepReturns twoFiles (searchAll 1) (.ok ⟨[⟨['a'], 1, ['x']⟩], 1⟩) ∧
      GrepViaCacheReturns twoFiles (searchAll 1) (.error ()) ∧
      ¬ GrepReturns twoFiles (searchAll 1) (.error ()) := by
  refine ⟨⟨2, by decide⟩, ⟨3, by decide⟩, fun h => ?_⟩
  have hplain := (grepReturns_iff kindsAgree_twoFiles fun _ _ _ => dirTree_twoFiles) (.error ()) |>.1 h
  exact absurd hplain (by decide)

end OpenViking.Ragfs
