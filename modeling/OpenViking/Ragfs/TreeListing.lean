import OpenViking.Common.BoundedWalk
import OpenViking.Ragfs.Listing

/-!
# Listing a directory tree

`FileSystem::tree_directory` (`crates/ragfs/src/core/filesystem.rs`, 463-484 and 554-621) is a recursion that
sorts every listing; `CachedFileSystem::tree_directory_via_cache` (`crates/ragfs/src/cache/wrapper.rs`,
112-174) is a loop over a stack of tasks that takes every listing as `read_dir` gives it.  Both read through
the same `read_dir`, which is a parameter.

Results:

* `treeDirectoryInternal_eq`, `treeViaCache_eq`: both are walks of one tree, in two orders;
* `treeDirectoryViaCache_iff`: when they return the same entries.
-/

namespace OpenViking.Ragfs

open Room BoundedWalk

/-- `TreeEntry` (`core/types.rs`, 42-61) without its extra data, which is empty. -/
structure TreeEntry where
  path : Path
  relPath : Path
  info : FileInfo
  deriving DecidableEq

/-- The entry of a directory in the result. -/
def treeEntry (basePath currentPath : Path) (entry : FileInfo) : TreeEntry :=
  { path := entryPath currentPath entry.name
    relPath := relativeMatchFile basePath (entryPath currentPath entry.name)
    info := entry }

/-- A hidden file that is not shown. -/
def skipped (showHidden : Bool) (entry : FileInfo) : Bool :=
  (!entry.isDir && decide (entry.name.head? = some '.')) && !showHidden

section Model

variable {E : Type*} (readDir : Path → Except E (List FileInfo)) (lower : Path → Path)
  (basePath : Path) (showHidden : Bool) (nodeLimit levelLimit : Option ℕ)

/-! ## The recursion -/

/-- The loop of `tree_directory_internal` (582-617). -/
def treeEntries (visit : Path → List TreeEntry → Option (Except E (List TreeEntry))) (currentPath : Path) :
    List FileInfo → List TreeEntry → Option (Except E (List TreeEntry))
  | [], result => some (.ok result)
  | entry :: entries, result =>
    if reached nodeLimit result.length then some (.ok result)
    else if skipped showHidden entry then treeEntries visit currentPath entries result
    else
      let result := result ++ [treeEntry basePath currentPath entry]
      if entry.isDir then
        match visit (entryPath currentPath entry.name) result with
        | some (.ok result) => treeEntries visit currentPath entries result
        | stop => stop
      else treeEntries visit currentPath entries result

/-- `tree_directory_internal` (554-621), at most `fuel` directories deep. -/
def treeDirectoryInternal : ℕ → Path → List TreeEntry → Option (Except E (List TreeEntry))
  | 0, _, _ => none
  | fuel + 1, currentPath, result =>
    if reached nodeLimit result.length then some (.ok result)
    else if atLevel levelLimit basePath currentPath then some (.ok result)
    else
      match readDir currentPath with
      | .error err => some (.error err)
      | .ok entries =>
        treeEntries basePath showHidden nodeLimit (treeDirectoryInternal fuel) currentPath
          (sortDirectoryEntries lower entries) result

/-- `tree_directory` (463-484) returns. -/
def TreeReturns (path : Path) (r : Except E (List TreeEntry)) : Prop :=
  ∃ fuel, treeDirectoryInternal readDir lower (normalizePrefixPath path) showHidden nodeLimit levelLimit
    fuel (normalizePrefixPath path) [] = some r

/-! ## The loop -/

/-- What is pushed on the stack for the entries of a directory, the last one first (143-167). -/
def pushEntries (currentPath : Path) (stack : List (Task Path TreeEntry)) (entries : List FileInfo) :
    List (Task Path TreeEntry) :=
  entries.reverse.foldl (fun stack entry =>
    if skipped showHidden entry then stack
    else
      .emit (treeEntry basePath currentPath entry) ::
        (if entry.isDir then .visit (entryPath currentPath entry.name) :: stack else stack)) stack

/-- The loop of `tree_directory_via_cache` (128-171), of at most `fuel` tasks. -/
def treeViaCache : ℕ → List (Task Path TreeEntry) → List TreeEntry → Option (Except E (List TreeEntry))
  | _, [], result => some (.ok result)
  | 0, _ :: _, _ => none
  | fuel + 1, task :: stack, result =>
    if reached nodeLimit result.length then some (.ok result)
    else
      match task with
      | .emit entry => treeViaCache fuel stack (result ++ [entry])
      | .visit currentPath =>
        if atLevel levelLimit basePath currentPath then treeViaCache fuel stack result
        else
          match readDir currentPath with
          | .error err => some (.error err)
          | .ok entries =>
            treeViaCache fuel (pushEntries basePath showHidden currentPath stack entries) result

/-- `tree_directory_via_cache` returns. -/
def TreeViaCacheReturns (path : Path) (r : Except E (List TreeEntry)) : Prop :=
  ∃ fuel, treeViaCache readDir (normalizePrefixPath path) showHidden nodeLimit levelLimit fuel
    [.visit (normalizePrefixPath path)] [] = some r

/-! ## One tree -/

/-- What both go over, with the listings in an order. -/
def listingTree (order : List FileInfo → List FileInfo) : Tree Path FileInfo TreeEntry E where
  list currentPath :=
    if atLevel levelLimit basePath currentPath then .ok []
    else (readDir currentPath).map fun entries => (order entries).filter fun entry => !skipped showHidden entry
  sub currentPath entry := if entry.isDir then some (entryPath currentPath entry.name) else none
  emit := treeEntry basePath

/-- As far as the node limit reaches, every directory lists what is shown of it in the sorted order. -/
def ListsInOrder (depth : ℕ) (path : Path) : Prop :=
  InOrder (listingTree readDir (normalizePrefixPath path) showHidden levelLimit id)
    (listingTree readDir (normalizePrefixPath path) showHidden levelLimit (sortDirectoryEntries lower))
    depth nodeLimit (normalizePrefixPath path)

/-- A directory that cannot be read comes before the node limit, in an order of the listings. -/
def FailsInside (order : List FileInfo → List FileInfo) (depth : ℕ) (path : Path) : Prop :=
  Blocked (listingTree readDir (normalizePrefixPath path) showHidden levelLimit order) depth nodeLimit
    (normalizePrefixPath path)

end Model

section Results

variable {E : Type*} {readDir : Path → Except E (List FileInfo)} {lower : Path → Path}
  {basePath : Path} {showHidden : Bool} {nodeLimit levelLimit : Option ℕ}

theorem treeEntries_eq (order : List FileInfo → List FileInfo)
    (visit : Path → List TreeEntry → Option (Except E (List TreeEntry))) (currentPath : Path)
    (entries : List FileInfo) (result : List TreeEntry) :
    treeEntries basePath showHidden nodeLimit visit currentPath entries result =
      walkItems (listingTree readDir basePath showHidden levelLimit order) nodeLimit visit currentPath
        (entries.filter fun entry => !skipped showHidden entry) result := by
  induction entries generalizing result with
  | nil => rfl
  | cons entry entries ih =>
    rw [treeEntries]
    by_cases hskip : skipped showHidden entry = true
    · rw [List.filter_cons_of_neg (by rw [hskip]; decide), if_pos hskip]
      split_ifs with hreached
      · cases entries.filter fun entry => !skipped showHidden entry with
        | nil => rfl
        | cons entry entries => rw [walkItems, if_pos hreached]
      · exact ih result
    · rw [List.filter_cons_of_pos (by simpa using hskip), walkItems, if_neg hskip]
      refine if_congr Iff.rfl rfl ?_
      by_cases hdir : entry.isDir = true
      · have hsub : (listingTree readDir basePath showHidden levelLimit order).sub currentPath entry =
            some (entryPath currentPath entry.name) := if_pos hdir
        have hemit : (listingTree readDir basePath showHidden levelLimit order).emit currentPath entry =
            treeEntry basePath currentPath entry := rfl
        rw [hsub, hemit]
        dsimp only
        rw [if_pos hdir]
        cases visit (entryPath currentPath entry.name) (result ++ [treeEntry basePath currentPath entry]) with
        | none => rfl
        | some r =>
          cases r with
          | error err => rfl
          | ok result => exact ih result
      · have hsub : (listingTree readDir basePath showHidden levelLimit order).sub currentPath entry =
            none := if_neg hdir
        rw [hsub]
        dsimp only
        rw [if_neg hdir]
        exact ih _

/-- The recursion is the walk in the sorted order. -/
theorem treeDirectoryInternal_eq (fuel : ℕ) (currentPath : Path) (result : List TreeEntry) :
    treeDirectoryInternal readDir lower basePath showHidden nodeLimit levelLimit fuel currentPath result =
      walk (listingTree readDir basePath showHidden levelLimit (sortDirectoryEntries lower)) nodeLimit fuel
        currentPath result := by
  induction fuel generalizing currentPath result with
  | zero => rfl
  | succ fuel ih =>
    have hvisit : treeDirectoryInternal readDir lower basePath showHidden nodeLimit levelLimit fuel =
        walk (listingTree readDir basePath showHidden levelLimit (sortDirectoryEntries lower)) nodeLimit
          fuel := by
      funext currentPath result
      exact ih currentPath result
    rw [treeDirectoryInternal, walk]
    refine if_congr Iff.rfl rfl ?_
    by_cases hlevel : atLevel levelLimit basePath currentPath = true
    · have hlist : (listingTree readDir basePath showHidden levelLimit (sortDirectoryEntries lower)).list
          currentPath = .ok [] := if_pos hlevel
      rw [if_pos hlevel, hlist]
      rfl
    · have hlist : (listingTree readDir basePath showHidden levelLimit (sortDirectoryEntries lower)).list
          currentPath = (readDir currentPath).map fun entries =>
            (sortDirectoryEntries lower entries).filter fun entry => !skipped showHidden entry :=
        if_neg hlevel
      rw [if_neg hlevel, hlist]
      cases readDir currentPath with
      | error err => rfl
      | ok entries =>
        rw [hvisit]
        exact treeEntries_eq _ _ currentPath _ result

theorem pushEntries_eq (readDir : Path → Except E (List FileInfo)) (levelLimit : Option ℕ) (currentPath : Path) (stack : List (Task Path TreeEntry)) (entries : List FileInfo) :
    pushEntries basePath showHidden currentPath stack entries =
      tasks (listingTree readDir basePath showHidden levelLimit id) currentPath
        (entries.filter fun entry => !skipped showHidden entry) ++ stack := by
  unfold pushEntries
  rw [List.foldl_reverse]
  induction entries with
  | nil => rfl
  | cons entry entries ih =>
    rw [List.foldr_cons, ih]
    by_cases hskip : skipped showHidden entry = true
    · rw [if_pos hskip, List.filter_cons_of_neg (by rw [hskip]; decide)]
    · rw [if_neg hskip, List.filter_cons_of_pos (by simpa using hskip)]
      unfold tasks
      rw [List.flatMap_cons]
      by_cases hdir : entry.isDir = true
      · simp [listingTree, hdir]
      · simp [listingTree, hdir]

/-- The loop is the loop in the order of `read_dir`. -/
theorem treeViaCache_eq (fuel : ℕ) (stack : List (Task Path TreeEntry)) (result : List TreeEntry) :
    treeViaCache readDir basePath showHidden nodeLimit levelLimit fuel stack result =
      loop (listingTree readDir basePath showHidden levelLimit id) nodeLimit fuel stack result := by
  induction fuel generalizing stack result with
  | zero =>
    cases stack with
    | nil => rfl
    | cons task stack => rfl
  | succ fuel ih =>
    cases stack with
    | nil => rfl
    | cons task stack =>
      cases task with
      | emit entry =>
        rw [treeViaCache, loop]
        exact if_congr Iff.rfl rfl (ih _ _)
      | visit currentPath =>
        rw [treeViaCache, loop]
        refine if_congr Iff.rfl rfl ?_
        by_cases hlevel : atLevel levelLimit basePath currentPath = true
        · have hlist : (listingTree readDir basePath showHidden levelLimit id).list currentPath =
              .ok [] := if_pos hlevel
          rw [if_pos hlevel, hlist]
          exact ih _ _
        · have hlist : (listingTree readDir basePath showHidden levelLimit id).list currentPath =
              (readDir currentPath).map fun entries =>
                entries.filter fun entry => !skipped showHidden entry := if_neg hlevel
          rw [if_neg hlevel, hlist]
          cases readDir currentPath with
          | error err => rfl
          | ok entries =>
            show treeViaCache _ _ _ _ _ fuel _ result = _
            rw [ih, pushEntries_eq readDir levelLimit]
            rfl

theorem listingTree_reorders :
    Reorders (listingTree readDir basePath showHidden levelLimit id)
      (listingTree readDir basePath showHidden levelLimit (sortDirectoryEntries lower)) where
  sub := rfl
  emit := rfl
  perm currentPath items h := by
    unfold listingTree at h ⊢
    dsimp only at h ⊢
    split_ifs at h ⊢ with hlevel
    · obtain rfl := Except.ok.inj h
      exact ⟨[], rfl, List.Perm.refl _⟩
    · cases hread : readDir currentPath with
      | error err =>
        rw [hread] at h
        cases h
      | ok entries =>
        rw [hread] at h
        obtain rfl := Except.ok.inj h
        exact ⟨_, rfl, (sortDirectoryEntries_perm lower entries).filter _⟩
  error currentPath err h := by
    unfold listingTree at h ⊢
    dsimp only at h ⊢
    split_ifs at h ⊢ with hlevel
    cases hread : readDir currentPath with
    | error err' =>
      rw [hread] at h
      exact h
    | ok entries =>
      rw [hread] at h
      cases h

theorem DirTree.fits {depth : ℕ} {path : Path} (h : DirTree readDir depth path) :
    Fits (listingTree readDir basePath showHidden levelLimit id) depth path := by
  induction depth generalizing path with
  | zero => exact h
  | succ depth ih =>
    intro items hlist item hitem below hsub
    unfold listingTree at hlist hsub
    dsimp only at hlist hsub
    split_ifs at hsub with hdir
    split_ifs at hlist with hlevel
    · obtain rfl := Except.ok.inj hlist
      exact absurd hitem List.not_mem_nil
    · cases hread : readDir path with
      | error err =>
        rw [hread] at hlist
        cases hlist
      | ok entries =>
        rw [hread] at hlist
        obtain rfl := Except.ok.inj hlist
        obtain rfl := Option.some.inj hsub
        exact ih (h entries hread item (List.mem_of_mem_filter hitem) hdir)

end Results

/-- **When a cached listing is the plain one.**  Both return; they return the same entries exactly when, as
far as the node limit reaches, every directory lists what is shown of it in the sorted order, or a directory
that cannot be read comes before the node limit in both orders. -/
theorem treeDirectoryViaCache_iff {E : Type*} (readDir : Path → Except E (List FileInfo))
    (lower : Path → Path) (path : Path) (showHidden : Bool) (nodeLimit levelLimit : Option ℕ) {depth : ℕ}
    (htree : DirTree readDir depth (normalizePrefixPath path)) :
    (∃ r, TreeViaCacheReturns readDir showHidden nodeLimit levelLimit path r) ∧
      (∃ r, TreeReturns readDir lower showHidden nodeLimit levelLimit path r) ∧
      ((∀ entries, TreeViaCacheReturns readDir showHidden nodeLimit levelLimit path (.ok entries) ↔
          TreeReturns readDir lower showHidden nodeLimit levelLimit path (.ok entries)) ↔
        ListsInOrder readDir lower showHidden nodeLimit levelLimit depth path ∨
          (FailsInside readDir showHidden nodeLimit levelLimit id depth path ∧
            FailsInside readDir showHidden nodeLimit levelLimit (sortDirectoryEntries lower) depth path)) := by
  have hreorders : Reorders (listingTree readDir (normalizePrefixPath path) showHidden levelLimit id)
      (listingTree readDir (normalizePrefixPath path) showHidden levelLimit (sortDirectoryEntries lower)) :=
    listingTree_reorders
  have hfits : Fits (listingTree readDir (normalizePrefixPath path) showHidden levelLimit id) depth
      (normalizePrefixPath path) := htree.fits
  have hemit : ∀ place, Function.Injective
      ((listingTree readDir (normalizePrefixPath path) showHidden levelLimit id).emit place) :=
    fun place a b h => congrArg TreeEntry.info h
  obtain ⟨r, hr⟩ := walk_returns nodeLimit hfits
  obtain ⟨r', hr'⟩ := walk_returns nodeLimit (hreorders.fits hfits)
  have hcache : ∀ x, TreeViaCacheReturns readDir showHidden nodeLimit levelLimit path x ↔
      walk (listingTree readDir (normalizePrefixPath path) showHidden levelLimit id) nodeLimit depth
        (normalizePrefixPath path) [] = some x := by
    intro x
    unfold TreeViaCacheReturns
    simp only [treeViaCache_eq]
    exact loop_returns_iff hr x
  have hplain : ∀ x, TreeReturns readDir lower showHidden nodeLimit levelLimit path x ↔
      walk (listingTree readDir (normalizePrefixPath path) showHidden levelLimit (sortDirectoryEntries lower))
        nodeLimit depth (normalizePrefixPath path) [] = some x := by
    intro x
    unfold TreeReturns
    simp only [treeDirectoryInternal_eq]
    exact walk_returns_iff hr' x
  refine ⟨⟨r, (hcache r).2 hr⟩, ⟨r', (hplain r').2 hr'⟩, ?_⟩
  simp only [hcache, hplain]
  exact agree_iff hreorders hemit hfits

/-- A root with a directory and a file, in this order or the other, and a file in the directory. -/
def twoLevels (dirFirst : Bool) (path : Path) : Except Unit (List FileInfo) :=
  let dir : FileInfo := ⟨['d'], 0, 0o755, true⟩
  let file : FileInfo := ⟨['F'], 0, 0o644, false⟩
  if path = ['/'] then .ok (if dirFirst then [dir, file] else [file, dir])
  else if path = ['/', 'd'] then .ok [⟨['x'], 0, 0o644, false⟩]
  else .error ()

theorem dirTree_twoLevels (dirFirst : Bool) : DirTree (twoLevels dirFirst) 2 ['/'] := by
  intro entries hentries entry hentry hdir
  have hname : entry.name = ['d'] := by
    obtain rfl := Except.ok.inj hentries
    cases dirFirst with
    | true =>
      simp only [if_true, List.mem_cons, List.not_mem_nil, or_false] at hentry
      rcases hentry with rfl | rfl
      · rfl
      · cases hdir
    | false =>
      simp only [Bool.false_eq_true, if_false, List.mem_cons, List.not_mem_nil, or_false] at hentry
      rcases hentry with rfl | rfl
      · cases hdir
      · rfl
  rw [hname]
  intro below hbelow item hitem hdir'
  obtain rfl := Except.ok.inj hbelow
  obtain rfl := List.mem_singleton.1 hitem
  cases hdir'

/-- With the directory first, and room for all. -/
theorem treeDirectoryViaCache_dirFirst :
    {entries | TreeViaCacheReturns (twoLevels true) false none none ['/'] (.ok entries)} =
      {entries | TreeReturns (twoLevels true) (List.map Char.toLower) false none none ['/'] (.ok entries)} := by
  refine Set.ext ((treeDirectoryViaCache_iff (twoLevels true) (List.map Char.toLower) ['/'] false none none
    (dirTree_twoLevels true)).2.2.2 (.inl ?_))
  refine inOrder_of_list_eq listingTree_reorders (fun place => ?_) _ _ _
  unfold listingTree twoLevels
  simp only [if_true]
  split_ifs
  · rfl
  · rfl
  · rfl
  · rfl

/-- With the file first, the cached listing starts with it. -/
theorem treeDirectoryViaCache_fileFirst :
    ¬ ∀ entries, TreeViaCacheReturns (twoLevels false) false none none ['/'] (.ok entries) ↔
      TreeReturns (twoLevels false) (List.map Char.toLower) false none none ['/'] (.ok entries) := by
  intro hall
  let file : TreeEntry := ⟨['/', 'F'], ['F'], ⟨['F'], 0, 0o644, false⟩⟩
  let dir : TreeEntry := ⟨['/', 'd'], ['d'], ⟨['d'], 0, 0o755, true⟩⟩
  let below : TreeEntry := ⟨['/', 'd', '/', 'x'], ['d', '/', 'x'], ⟨['x'], 0, 0o644, false⟩⟩
  have hcache : TreeViaCacheReturns (twoLevels false) false none none ['/'] (.ok [file, dir, below]) :=
    ⟨6, by decide⟩
  obtain ⟨fuel, hplain⟩ := (hall _).1 hcache
  have hsorted : treeDirectoryInternal (twoLevels false) (List.map Char.toLower) ['/'] false none none 2
      ['/'] [] = some (.ok [dir, below, file]) := by decide
  rw [treeDirectoryInternal_eq] at hsorted hplain
  have hsame := returns_unique (f := fun fuel => walk _ none fuel ['/'] []) (fun _ _ => walk_succ) hsorted
    hplain
  exact absurd hsame (by decide)

end OpenViking.Ragfs
