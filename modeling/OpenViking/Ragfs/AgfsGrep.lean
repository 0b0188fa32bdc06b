import OpenViking.Fs.UriPaths
import OpenViking.Ragfs.Grep
import OpenViking.Ragfs.Mounts
import OpenViking.Ragfs.VisibleTree

/-!
# The matches that a caller may see

`VikingFS._grep_with_agfs` (`openviking/storage/viking_fs.py`, 1279-1378) has `MountableFS::grep`
(`crates/ragfs/src/core/mountable.rs`, 820-873) search with the caller's limit, and then leaves out the matches
in files that the caller may not see.  The binding (`crates/ragfs-python/src/lib.rs`, 1585-1610) converts the
limits to 32 bits before, or raises.

Deviation: the limit counts what is left out.  `_iter_visible_tree_entries` asks for more for that reason.

Results:

* `grepReturns_take`: a limited search gives the first matches of the unlimited one;
* `grepWithAgfs_iff`: when those that are left are the first that the caller may see.
-/

namespace OpenViking.Ragfs

open Room Batches

/-! ## Model -/

/-- Why a search fails: a guard, a limit that is not an `i32`, the mounts or the file system. -/
inductive AgfsGrepError (E : Type*) where
  | access (e : Fs.AccessError)
  | overflow
  | mount (e : Error)
  | backend (e : E)
  deriving DecidableEq

/-- What is searched: the path of the URI, the path below its mount, and the excluded one below the same. -/
structure GrepTarget where
  path : Path
  relPath : Path
  excludeRel : Option Path
  deriving DecidableEq

/-- The arguments of the search below the mount. -/
def GrepTarget.query (g : GrepTarget) (nodeLimit : Option ℕ) (levelLimit : ℕ) : GrepQuery :=
  ⟨g.relPath, true, nodeLimit, g.excludeRel, some levelLimit⟩

/-- An entry of `results` (1356-1362). -/
structure UriMatch where
  line : ℕ
  uri : Fs.Str
  content : List Char
  deriving DecidableEq

/-- What is returned; the file system gives no number of files. -/
structure GrepAnswer where
  found : List UriMatch
  filesScanned : ℕ
  deriving DecidableEq

def GrepAnswer.of (found : List UriMatch) : GrepAnswer := ⟨found, (found.map UriMatch.uri).dedup.length⟩

section Model

variable (env : Fs.Env) (ctx : Fs.RequestContext)

/-- The text of a path. -/
def pathText (path : Fs.Path) : Path := '/' :: Fs.joinSlash path

/-- The path of `exclude_uri` (1312-1316). -/
def excludedPath : Option Fs.Str → Except Fs.AccessError (Option Path)
  | none => .ok none
  | some [] => .ok none
  | some uri =>
    match Fs.ensureAccess env (Fs.rstripSlash uri) ctx with
    | .error e => .error e
    | .ok () => (Fs.uriToPath env (Fs.rstripSlash uri) ctx).map fun path => some (pathText path)

/-- The paths and the mount of a search (1310-1316; `mountable.rs`, 834-849). -/
def grepTarget {E : Type*} (t : MountTable) (uri : Fs.Str) (excludeUri : Option Fs.Str) :
    Except (AgfsGrepError E) GrepTarget :=
  match Fs.uriToPath env uri ctx with
  | .error e => .error (.access e)
  | .ok path =>
    match excludedPath env ctx excludeUri with
    | .error e => .error (.access e)
    | .ok excluded =>
      match t.findMount (pathText path) with
      | .error e => .error (.mount e)
      | .ok (mount, relPath) =>
        .ok ⟨pathText path, relPath, excluded.bind fun excluded =>
          match t.findMount excluded with
          | .ok (other, excludeRel) => if other = mount then some excludeRel else none
          | .error _ => none⟩

/-- The last part of a path is not that of a lock marker. -/
def notLockFile (file : Path) : Bool := decide ((file.reverse.takeWhile (· ≠ '/')).reverse ≠ pathLockFile)

/-- `_resolve_grep_match_agfs_path` (1540-1544). -/
def resolveGrepMatchAgfsPath (basePath matchFile : Path) : Path :=
  if matchFile = ['.'] then basePath else Fs.rstripSlash basePath ++ '/' :: Fs.lstripSlash matchFile

/-- The URI of a match (1350). -/
def matchUri (path file : Path) : Fs.Str :=
  Fs.pathToUri (Fs.segments (resolveGrepMatchAgfsPath path file)) ctx

/-- The checks of a match (1344-1352). -/
def checkMatch (path file : Path) : Except Fs.AccessError Bool :=
  if file = [] then .ok false else Fs.isAccessible env (matchUri ctx path file) ctx

def uriMatch (path : Path) (item : GrepMatch) : UriMatch := ⟨item.line, matchUri ctx path item.file, item.content⟩

/-- The loop over the matches (1343-1365). -/
def collectMatches (path : Path) (nodeLimit : Option ℕ) :
    List GrepMatch → List UriMatch → Except Fs.AccessError (List UriMatch)
  | [], results => .ok results
  | item :: items, results =>
    match checkMatch env ctx path item.file with
    | .error e => .error e
    | .ok false => collectMatches path nodeLimit items results
    | .ok true =>
      let results := results ++ [uriMatch ctx path item]
      if nodeLimit.any fun limit => decide (0 < limit ∧ limit ≤ results.length) then .ok results
      else collectMatches path nodeLimit items results

/-- What becomes of the result of the file system. -/
def answerOf {E : Type*} (path : Path) (nodeLimit : Option ℕ) :
    Except E GrepResult → Except (AgfsGrepError E) GrepAnswer
  | .error e => .error (.backend e)
  | .ok result =>
    match collectMatches env ctx path nodeLimit (result.matched.filter fun item => notLockFile item.file) [] with
    | .error e => .error (.access e)
    | .ok results => .ok (.of results)

/-- `_grep_with_agfs` (1279-1378) returns or raises. -/
def GrepAgfsReturns {E : Type*} (t : MountTable) (src : GrepSource E) (uri : Fs.Str) (excludeUri : Option Fs.Str)
    (nodeLimit : Option ℕ) (levelLimit : ℕ) (r : Except (AgfsGrepError E) GrepAnswer) : Prop :=
  match grepTarget env ctx t uri excludeUri with
  | .error (.access e) => r = .error (.access e)
  | target =>
    -- the limits are converted before the mount is looked up
    if fitsI32 nodeLimit && fitsI32 (some levelLimit) then
      match target with
      | .error e => r = .error e
      | .ok g => ∃ b, GrepReturns src (g.query nodeLimit levelLimit) b ∧ r = answerOf env ctx g.path nodeLimit b
    else r = .error .overflow

/-- The caller may see a file. -/
def accessible (path file : Path) : Bool := (checkMatch env ctx path file).toOption.getD false

/-- The caller sees the matches in a file. -/
def shows (path file : Path) : Bool := accessible env ctx path file && notLockFile file

/-- The first matches that the caller may see. -/
def firstShown (path : Path) (all : List GrepMatch) (n : ℕ) : GrepAnswer :=
  .of (((all.filter fun item => shows env ctx path item.file).take n).map (uriMatch ctx path))

/-- No check of the first matches raises, and all of them are shown or none after them is. -/
def CutsNothing (path : Path) (all : List GrepMatch) (n : ℕ) : Prop :=
  (∀ item ∈ all.take n, notLockFile item.file = true → ∃ b, checkMatch env ctx path item.file = .ok b) ∧
    ((∀ item ∈ all.take n, shows env ctx path item.file = true) ∨
      ∀ item ∈ all.drop n, shows env ctx path item.file = false)

end Model

/-- The kinds of a file system agree, and what is searched is a tree. -/
structure Searchable {E : Type*} (src : GrepSource E) (root : Path) (depth : ℕ) : Prop where
  kinds : src.KindsAgree
  tree : ∀ info, src.stat root = .ok info → info.isDir = true → DirTree src.readDir depth root

/-- Two file systems differ only in the files that a caller does not see, and in their sizes. -/
structure SameFor {E : Type*} (see : Path → Bool) (src src' : GrepSource E) : Prop where
  stat : ∀ path, (src'.stat path).map FileInfo.isDir = (src.stat path).map FileInfo.isDir
  readDir : ∀ path, (src'.readDir path).map (List.map fun entry => (entry.name, entry.isDir)) =
    (src.readDir path).map (List.map fun entry => (entry.name, entry.isDir))
  lines : src'.lines = src.lines
  isMatch : src'.isMatch = src.isMatch
  read : ∀ path, see path = true → src'.read path = src.read path

/-! ## Searches under a limit -/

section Searches

variable {E : Type*} {src src' : GrepSource E} {g : GrepTarget} {levelLimit depth : ℕ} {all : GrepResult}

theorem grepSteps_query (nodeLimit : Option ℕ) (depth : ℕ) (path : Path) (isDir : Bool) :
    grepSteps src (g.query nodeLimit levelLimit) depth path isDir =
      grepSteps src (g.query none levelLimit) depth path isDir := by
  induction depth generalizing path isDir with
  | zero => cases isDir <;> rfl
  | succ depth ih =>
    cases isDir with
    | false => rfl
    | true =>
      rw [grepSteps, grepSteps]
      simp only [ih]
      rfl

theorem searchSteps_query (nodeLimit : Option ℕ) :
    searchSteps src (g.query nodeLimit levelLimit) depth = searchSteps src (g.query none levelLimit) depth := by
  unfold searchSteps
  simp only [grepSteps_query nodeLimit]
  rfl

/-- A search that ends without a limit gives its first matches with one. -/
theorem grepReturns_take (hsrc : Searchable src (normalizePrefixPath g.relPath) depth)
    (hall : GrepReturns src (g.query none levelLimit) (.ok all)) (n : ℕ) (b : Except E GrepResult) :
    GrepReturns src (g.query (some n) levelLimit) b ↔ b = .ok (.fromMatches (all.matched.take n)) := by
  have hplain := fun nodeLimit => grepReturns_iff (q := g.query nodeLimit levelLimit) hsrc.kinds hsrc.tree
  rw [hplain] at hall ⊢
  cases hrun : runSteps none (searchSteps src (g.query none levelLimit) depth).reduceOption [] with
  | error err =>
    rw [show (g.query none levelLimit).nodeLimit = none from rfl, hrun] at hall
    cases hall
  | ok found =>
    rw [show (g.query none levelLimit).nodeLimit = none from rfl, hrun] at hall
    obtain rfl := Except.ok.inj hall
    have htake := runSteps_take hrun n
    rw [List.take_nil] at htake
    rw [searchSteps_query, show (g.query (some n) levelLimit).nodeLimit = some n from rfl, htake]
    rfl

/-- What the steps of a search find of one kind. -/
def found (p : GrepMatch → Bool) (steps : List (Option (Except E (List GrepMatch)))) : List GrepMatch :=
  steps.reduceOption.flatMap (foundOf p)

theorem found_flatMap {β : Type*} (p : GrepMatch → Bool) (entries : List β)
    (steps : β → List (Option (Except E (List GrepMatch)))) :
    found p (entries.flatMap steps) = entries.flatMap fun entry => found p (steps entry) := by
  unfold found List.reduceOption
  rw [List.filterMap_flatMap, List.flatMap_assoc]

theorem matchesFrom_congr (h : src'.isMatch = src.isMatch) (relFile : Path) (lineNum : ℕ)
    (lines : List (List Char)) : matchesFrom src' relFile lineNum lines = matchesFrom src relFile lineNum lines := by
  induction lines generalizing lineNum with
  | nil => rfl
  | cons line lines ih => rw [matchesFrom, matchesFrom, h, ih]

theorem file_of_mem {item : GrepMatch} {relFile : Path} {lineNum : ℕ} {lines : List (List Char)}
    (h : item ∈ matchesFrom src relFile lineNum lines) : item.file = relFile := by
  induction lines generalizing lineNum with
  | nil => cases h
  | cons line lines ih =>
    rw [matchesFrom] at h
    split_ifs at h
    · rcases List.mem_cons.1 h with rfl | h
      · rfl
      · exact ih h
    · exact ih h

variable {q : GrepQuery} {see : Path → Bool}

theorem foundIn_same (h : SameFor (fun path => see (relativeMatchFile q.basePath path)) src src') (path : Path) :
    foundOf (fun item => see item.file) (foundIn src' q path) =
      foundOf (fun item => see item.file) (foundIn src q path) := by
  by_cases hsee : see (relativeMatchFile q.basePath path) = true
  · rw [foundIn, foundIn, h.read path hsee, h.lines]
    simp only [matchesFrom_congr h.isMatch]
  · have hnone : ∀ src : GrepSource E, foundOf (fun item => see item.file) (foundIn src q path) = [] := by
      intro src
      rw [foundIn]
      cases src.read path with
      | error err => rfl
      | ok content => exact List.filter_eq_nil_iff.2 fun item hitem => by rwa [file_of_mem hitem]
    rw [hnone, hnone]

theorem found_file (h : SameFor (fun path => see (relativeMatchFile q.basePath path)) src src') (depth : ℕ)
    (path : Path) :
    found (fun item => see item.file) (grepSteps src' q depth path false) =
      found (fun item => see item.file) (grepSteps src q depth path false) := by
  rw [grepSteps, grepSteps]
  split_ifs
  · rfl
  · show foundOf _ (foundIn src' q path) ++ [] = foundOf _ (foundIn src q path) ++ []
    rw [foundIn_same h]

theorem found_same (h : SameFor (fun path => see (relativeMatchFile q.basePath path)) src src') (depth : ℕ)
    (path : Path) (isDir : Bool) :
    found (fun item => see item.file) (grepSteps src' q depth path isDir) =
      found (fun item => see item.file) (grepSteps src q depth path isDir) := by
  induction depth generalizing path isDir with
  | zero =>
    cases isDir with
    | false => exact found_file h 0 path
    | true => rfl
  | succ depth ih =>
    cases isDir with
    | false => exact found_file h (depth + 1) path
    | true =>
      rw [grepSteps, grepSteps]
      split_ifs
      · rfl
      · rfl
      · have hdir := h.readDir path
        cases hread : src.readDir path with
        | error err =>
          rw [hread] at hdir
          cases hread' : src'.readDir path with
          | error err' => rfl
          | ok entries =>
            rw [hread'] at hdir
            cases hdir
        | ok entries =>
          rw [hread] at hdir
          cases hread' : src'.readDir path with
          | error err =>
            rw [hread'] at hdir
            cases hdir
          | ok entries' =>
            rw [hread'] at hdir
            have hsame := Except.ok.inj hdir
            show found _ (entries'.flatMap _) = found _ (entries.flatMap _)
            rw [found_flatMap, found_flatMap]
            calc (entries'.flatMap fun entry => found _ (grepSteps src' q depth (entryPath path entry.name) entry.isDir))
              _ = (entries'.map fun entry => (entry.name, entry.isDir)).flatMap fun entry =>
                    found (fun item => see item.file) (grepSteps src q depth (entryPath path entry.1) entry.2) := by
                rw [List.flatMap_map]
                exact List.flatMap_congr fun entry _ => ih _ _
              _ = _ := by rw [hsame, List.flatMap_map]

/-- What a caller sees of an unlimited search depends only on the files that the caller sees. -/
theorem filter_same (h : SameFor (fun path => see (relativeMatchFile q.basePath path)) src src')
    (hlimit : q.nodeLimit = none) (hsrc : Searchable src q.basePath depth) (hsrc' : Searchable src' q.basePath depth)
    {all' : GrepResult} (hall : GrepReturns src q (.ok all)) (hall' : GrepReturns src' q (.ok all')) :
    all'.matched.filter (fun item => see item.file) = all.matched.filter fun item => see item.file := by
  have hfound : ∀ {src : GrepSource E} {all : GrepResult}, Searchable src q.basePath depth →
      GrepReturns src q (.ok all) → all.matched.filter (fun item => see item.file) =
        found (fun item => see item.file) (searchSteps src q depth) := by
    intro src all hsrc hall
    rw [grepReturns_iff hsrc.kinds hsrc.tree, hlimit] at hall
    cases hrun : runSteps none (searchSteps src q depth).reduceOption [] with
    | error err =>
      rw [hrun] at hall
      cases hall
    | ok out =>
      rw [hrun] at hall
      obtain rfl := Except.ok.inj hall
      exact runSteps_none_filter hrun _
  rw [hfound hsrc hall, hfound hsrc' hall', searchSteps, searchSteps]
  have hstat := h.stat q.basePath
  cases hstat' : src'.stat q.basePath with
  | error err' =>
    rw [hstat'] at hstat
    cases hstat₀ : src.stat q.basePath with
    | error err =>
      dsimp only
      split_ifs <;> rfl
    | ok info =>
      rw [hstat₀] at hstat
      cases hstat
  | ok info' =>
    rw [hstat'] at hstat
    cases hstat₀ : src.stat q.basePath with
    | error err =>
      rw [hstat₀] at hstat
      cases hstat
    | ok info =>
      rw [hstat₀] at hstat
      have hkind : info'.isDir = info.isDir := Except.ok.inj hstat
      dsimp only
      rw [hkind]
      exact found_same h depth q.basePath info.isDir

end Searches

/-! ## What the loop leaves -/

section Loop

variable {env : Fs.Env} {ctx : Fs.RequestContext} {path : Path} {n : ℕ}

theorem collectMatches_eq_ok_iff (hn : 0 < n) (items : List GrepMatch) (results out : List UriMatch)
    (hlen : results.length + items.length ≤ n) :
    collectMatches env ctx path (some n) items results = .ok out ↔
      (∀ item ∈ items, ∃ b, checkMatch env ctx path item.file = .ok b) ∧
        out = results ++ (items.filter fun item => accessible env ctx path item.file).map (uriMatch ctx path) := by
  induction items generalizing results with
  | nil => simp [collectMatches, eq_comm]
  | cons item items ih =>
    rw [List.length_cons] at hlen
    rw [collectMatches, List.forall_mem_cons]
    cases hcheck : checkMatch env ctx path item.file with
    | error e => simp
    | ok seen =>
      cases seen with
      | false =>
        have hskip : ¬ accessible env ctx path item.file = true := by simp [accessible, hcheck, Except.toOption]
        simpa [hskip] using ih results (by omega)
      | true =>
        have hkeep : accessible env ctx path item.file = true := by simp [accessible, hcheck, Except.toOption]
        by_cases hfull : n ≤ results.length + 1
        · -- the limit is reached with the last match
          obtain rfl := List.length_eq_zero_iff.1 (show items.length = 0 by omega)
          simp [hkeep, hn, hfull, eq_comm]
        · have hrest := ih (results ++ [uriMatch ctx path item]) (by
            rw [List.length_append, List.length_singleton]
            omega)
          simpa [hkeep, hfull] using hrest

/-- What a cut before a filter loses: nothing, if all or none of it is on one side of the cut. -/
theorem map_filter_take_iff {α β : Type*} (p : α → Bool) (f : α → β) (entries : List α) (n : ℕ) :
    ((entries.take n).filter p).map f = ((entries.filter p).take n).map f ↔
      (∀ entry ∈ entries.take n, p entry = true) ∨ ∀ entry ∈ entries.drop n, p entry = false := by
  have hle : ((entries.take n).filter p).length ≤ n :=
    (List.length_filter_le ..).trans (List.length_take_le ..)
  have hstart : (entries.take n).filter p <+: (entries.filter p).take n :=
    List.prefix_take_iff.2 ⟨(List.take_prefix n entries).filter p, hle⟩
  have hcut := take_filter_take_iff p entries n n
  rw [List.take_of_length_le hle] at hcut
  constructor
  · intro h
    have hlen := congrArg List.length h
    rw [List.length_map, List.length_map] at hlen
    refine (hcut.1 (hstart.eq_of_length hlen)).imp_left fun hfull => List.length_filter_eq_length_iff.1 ?_
    exact le_antisymm (List.length_filter_le ..) ((List.length_take_le ..).trans hfull)
  · intro h
    rw [hcut.2]
    by_cases hshort : entries.length < n
    · rw [List.drop_eq_nil_of_le hshort.le]
      exact .inr fun entry hentry => absurd hentry List.not_mem_nil
    · refine h.imp_left fun hall => ?_
      rw [List.filter_eq_self.2 hall, List.length_take]
      omega

end Loop

/-! ## The search -/

section Search

variable {E : Type*} {env : Fs.Env} {ctx : Fs.RequestContext} {t : MountTable} {src : GrepSource E}
  {uri : Fs.Str} {excludeUri : Option Fs.Str} {n levelLimit depth : ℕ} {g : GrepTarget} {all : GrepResult}

theorem grepAgfsReturns_iff (htarget : grepTarget env ctx t uri excludeUri = (.ok g : Except (AgfsGrepError E) _))
    (hsrc : Searchable src (normalizePrefixPath g.relPath) depth)
    (hall : GrepReturns src (g.query none levelLimit) (.ok all)) (r : Except (AgfsGrepError E) GrepAnswer) :
    GrepAgfsReturns env ctx t src uri excludeUri (some n) levelLimit r ↔
      r = if n < 2 ^ 31 ∧ levelLimit < 2 ^ 31 then
        answerOf env ctx g.path (some n) (.ok (.fromMatches (all.matched.take n)) : Except E GrepResult)
      else .error .overflow := by
  rw [GrepAgfsReturns, htarget]
  simp only [grepReturns_take hsrc hall, Bool.and_eq_true, fitsI32_some]
  split_ifs
  · exact ⟨fun ⟨b, hb, hr⟩ => hb ▸ hr, fun hr => ⟨_, rfl, hr⟩⟩
  · exact Iff.rfl

theorem answerOf_iff (hn : 0 < n) (path : Path) (all : List GrepMatch) :
    answerOf env ctx path (some n) (.ok (.fromMatches (all.take n)) : Except E GrepResult) =
        .ok (firstShown env ctx path all n) ↔ CutsNothing env ctx path all n := by
  have hlen : ([] : List UriMatch).length +
      ((all.take n).filter fun item => notLockFile item.file).length ≤ n := by
    rw [List.length_nil, Nat.zero_add]
    exact (List.length_filter_le ..).trans (List.length_take_le ..)
  have hloop : ∀ out, collectMatches env ctx path (some n)
      ((all.take n).filter fun item => notLockFile item.file) [] = .ok out ↔
        (∀ item ∈ all.take n, notLockFile item.file = true → ∃ b, checkMatch env ctx path item.file = .ok b) ∧
          out = ((all.take n).filter fun item => shows env ctx path item.file).map (uriMatch ctx path) := by
    intro out
    rw [collectMatches_eq_ok_iff hn _ [] out hlen, List.filter_filter, List.nil_append]
    simp only [List.mem_filter, and_imp]
    rfl
  have hanswer : ∀ (result : Except Fs.AccessError (List UriMatch)) (found : List UriMatch),
      (match result with
        | .error e => .error (.access e)
        | .ok results => .ok (.of results) : Except (AgfsGrepError E) GrepAnswer) = .ok (.of found) ↔
      result = .ok found := by
    intro result found
    cases result with
    | error e => simp
    | ok results => exact ⟨fun h => congrArg Except.ok (congrArg GrepAnswer.found (Except.ok.inj h)), by rintro ⟨⟩; rfl⟩
  refine (hanswer _ _).trans ((hloop _).trans (and_congr_right' ?_))
  exact eq_comm.trans (map_filter_take_iff (fun item : GrepMatch => shows env ctx path item.file) _ all n)

/-- **When a limited search gives the first matches that the caller may see.**  Where the unlimited search
ends, the limited one returns or raises.  It returns the first that the caller sees exactly when the limits can
be converted, no check of the first matches raises, and all of these are shown or none that comes after; and
then what is in files that the caller does not see makes no difference. -/
theorem grepWithAgfs_iff (htarget : grepTarget env ctx t uri excludeUri = (.ok g : Except (AgfsGrepError E) _))
    (hsrc : Searchable src (normalizePrefixPath g.relPath) depth)
    (hall : GrepReturns src (g.query none levelLimit) (.ok all)) (hn : 0 < n) :
    (∃ r, GrepAgfsReturns env ctx t src uri excludeUri (some n) levelLimit r) ∧
    ((∀ r, GrepAgfsReturns env ctx t src uri excludeUri (some n) levelLimit r →
        r = .ok (firstShown env ctx g.path all.matched n)) ↔
      n < 2 ^ 31 ∧ levelLimit < 2 ^ 31 ∧ CutsNothing env ctx g.path all.matched n) ∧
    (CutsNothing env ctx g.path all.matched n →
      ∀ (src' : GrepSource E) (all' : GrepResult),
        SameFor (fun path => shows env ctx g.path (relativeMatchFile (normalizePrefixPath g.relPath) path)) src src' →
        Searchable src' (normalizePrefixPath g.relPath) depth →
        GrepReturns src' (g.query none levelLimit) (.ok all') →
        CutsNothing env ctx g.path all'.matched n →
        ∀ r, GrepAgfsReturns env ctx t src' uri excludeUri (some n) levelLimit r ↔
          GrepAgfsReturns env ctx t src uri excludeUri (some n) levelLimit r) := by
  have hreturns := grepAgfsReturns_iff (n := n) htarget hsrc hall
  refine ⟨⟨_, (hreturns _).2 rfl⟩, ?_, fun hcut src' all' hsame hsrc' hall' hcut' r => ?_⟩
  · simp only [hreturns, forall_eq]
    rw [← and_assoc]
    split_ifs with hfits
    · rw [and_iff_right hfits]
      exact answerOf_iff hn g.path all.matched
    · exact iff_of_false (fun h => by cases h) fun h => hfits h.1
  · have hshown := filter_same (q := g.query none levelLimit) hsame rfl hsrc hsrc' hall hall'
    rw [hreturns, grepAgfsReturns_iff htarget hsrc' hall', (answerOf_iff hn _ _).2 hcut,
      (answerOf_iff hn _ _).2 hcut', firstShown, firstShown, hshown]

end Search

/-- The table with a mount at `/local`. -/
def localTable : MountTable := localMount.toOption.getD .empty

/-- The resources of an account: the control file of the watch tasks and a file, which has a match. -/
def watchedResources (tasks : Bytes) : GrepSource Unit where
  stat path := .ok ⟨path, 0, 0o644, decide (path = "/acme/resources".toList)⟩
  readDir path := .ok (if path = "/acme/resources".toList then
    [⟨".watch_tasks.json".toList, 0, 0o644, false⟩, ⟨['b'], 0, 0o644, false⟩] else [])
  read path := .ok (if path = "/acme/resources/b".toList then [0x78] else tasks)
  lines content := [content.map fun byte => Char.ofNat byte.toNat]
  isMatch line := line.contains 'x'

/-- A search of them. -/
def resourcesTarget : GrepTarget := ⟨"/local/acme/resources".toList, "/acme/resources".toList, none⟩

theorem grepTarget_resources : grepTarget Fs.asciiEnv Fs.alice localTable "viking://resources".toList none =
    (.ok resourcesTarget : Except (AgfsGrepError Unit) _) := by decide +kernel

theorem searchable_resources (tasks : Bytes) : Searchable (watchedResources tasks) "/acme/resources".toList 1 where
  kinds := by
    intro path entries hentries entry hentry
    refine ⟨_, rfl, ?_⟩
    obtain rfl := Except.ok.inj hentries
    split_ifs at hentry with hroot
    · rw [hroot]
      simp only [List.mem_cons, List.not_mem_nil, or_false] at hentry
      rcases hentry with rfl | rfl
      · decide +kernel
      · decide +kernel
    · exact absurd hentry List.not_mem_nil
  tree := by
    intro info hinfo hdir entries hentries entry hentry hkind
    obtain rfl := Except.ok.inj hentries
    rw [if_pos rfl] at hentry
    simp only [List.mem_cons, List.not_mem_nil, or_false] at hentry
    rcases hentry with rfl | rfl
    · cases hkind
    · cases hkind

theorem grepReturns_resources :
    GrepReturns (watchedResources []) (resourcesTarget.query none 10) (.ok ⟨[⟨['b'], 1, ['x']⟩], 1⟩) :=
  ⟨2, by decide +kernel⟩

/-- Where the control file has no match, the match in the other file is returned. -/
theorem grepWithAgfs_resources : CutsNothing Fs.asciiEnv Fs.alice resourcesTarget.path [⟨['b'], 1, ['x']⟩] 1 ∧
    ∀ r, GrepAgfsReturns Fs.asciiEnv Fs.alice localTable (watchedResources []) "viking://resources".toList none
      (some 1) 10 r → r = .ok (firstShown Fs.asciiEnv Fs.alice resourcesTarget.path [⟨['b'], 1, ['x']⟩] 1) := by
  have hcuts : CutsNothing Fs.asciiEnv Fs.alice resourcesTarget.path [⟨['b'], 1, ['x']⟩] 1 :=
    ⟨by decide +kernel, .inl (by decide +kernel)⟩
  exact ⟨hcuts, (grepWithAgfs_iff grepTarget_resources (searchable_resources []) grepReturns_resources
    one_pos).2.1.2 ⟨by decide, by decide, hcuts⟩⟩

/-- Where the control file has one, it is counted, and the match in the other file is not returned. -/
theorem grepWithAgfs_fails :
    Fs.isAccessible Fs.asciiEnv "viking://resources/.watch_tasks.json".toList Fs.alice = .ok false ∧
    GrepAgfsReturns Fs.asciiEnv Fs.alice localTable (watchedResources [0x78]) "viking://resources".toList none
      (some 1) 10 (.ok ⟨[], 0⟩) ∧
    GrepAgfsReturns Fs.asciiEnv Fs.alice localTable (watchedResources [0x78]) "viking://resources".toList none
      none 10 (.ok ⟨[⟨1, "viking://resources/b".toList, ['x']⟩], 1⟩) := by
  refine ⟨by decide +kernel, ?_, ?_⟩
  · rw [GrepAgfsReturns, grepTarget_resources]
    exact ⟨.ok ⟨[⟨".watch_tasks.json".toList, 1, ['x']⟩], 1⟩, ⟨2, by decide +kernel⟩, by decide +kernel⟩
  · rw [GrepAgfsReturns, grepTarget_resources]
    exact ⟨.ok ⟨[⟨".watch_tasks.json".toList, 1, ['x']⟩, ⟨['b'], 1, ['x']⟩], 2⟩, ⟨2, by decide +kernel⟩,
      by decide +kernel⟩

end OpenViking.Ragfs
