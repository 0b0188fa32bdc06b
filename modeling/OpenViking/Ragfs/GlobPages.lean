import OpenViking.Ragfs.GlobWalk

/-!
# Glob pages partition the matches

`glob_directory` pages by the place in the sorted matches, `glob_via_walk` by the place in its walk.

Results:

* `globViaWalk_eq`, `globViaWalk_pages`: pages by the place in the walk;
* `globPages_partition`: the pages of both ways hold the matches, each once and in order.
-/

namespace OpenViking.Ragfs

open Room BoundedWalk

/-! ## Pages of the sorted matches -/

section Sorted

variable {tools : GlobTools} {q : GlobQuery} {readDir : Path → Except Error (List FileInfo)}
  {lower : Path → Path} {matcher : Path → Bool} {depth : ℕ}

/-- What `glob_directory` sorts is what the walk finds. -/
theorem matched_eq (hshallow : Shallow q matcher) (htree : GlobTree readDir depth q.basePath) :
    sortMatched ((((((treeWalk readDir (sortDirectoryEntries lower) q.levelLimit depth 0 q.basePath).filter
        fun x => !skipped q.showHidden x.2).map (treeEntryAt q.basePath [])).filter
          fun entry => matcher entry.relPath)).map globEntry) =
      allMatches readDir q matcher depth := by
  rw [List.filter_map, List.map_map, List.filter_filter]
  have hentry : globEntry ∘ treeEntryAt q.basePath [] = entryAt q.basePath := by
    funext x
    rfl
  have hwanted : (fun x : List Path × FileInfo =>
      ((fun entry : TreeEntry => matcher entry.relPath) ∘ treeEntryAt q.basePath []) x &&
        !skipped q.showHidden x.2) = wanted q matcher := by
    funext x
    exact Bool.and_comm _ _
  rw [hentry, hwanted]
  exact sortMatched_eq ((filter_treeWalk hshallow htree).map _) (allMatches_sorted htree)

theorem globDirectory_eq (hglob : tools.preparedGlob q.pattern = .ok matcher) (hshallow : Shallow q matcher)
    (htree : GlobTree readDir depth q.basePath) {pageSize : Option ℕ} (hsize : pageSize ≠ some 0)
    (token : Option Token) :
    globDirectory tools q pageSize readDir lower depth token =
      some (matchedPage tools q pageSize (allMatches readDir q matcher depth) token) := by
  have hbase : normalizePrefixPath q.basePath = q.basePath := normalizePrefixPath_idem q.path
  unfold globDirectory
  rw [hglob]
  dsimp only
  rw [if_neg hsize, treeDirectory_eq hbase htree, Option.map_some]
  dsimp only
  rw [matched_eq hshallow htree]

variable {matched : List GlobEntry}

theorem matchedPage_last {pageSize : Option ℕ} {token : Option Token} {start : ℕ}
    (htoken : decodeOffsetToken tools q token = .ok start) (hstart : start ≤ matched.length)
    (hlast : ∀ limit, pageSize = some limit → matched.length ≤ start + limit) :
    matchedPage tools q pageSize matched token = .ok ⟨matched.drop start, none⟩ := by
  have hstop : min ((pageSize.map fun limit => start + limit).getD matched.length) matched.length =
      matched.length := by
    cases pageSize with
    | none => exact Nat.min_self _
    | some limit => exact Nat.min_eq_right (hlast limit rfl)
  unfold matchedPage
  rw [htoken]
  dsimp only
  rw [if_neg (by omega), hstop, List.take_length, if_neg (lt_irrefl _)]

theorem matchedPage_more {limit : ℕ} {token : Option Token} {start : ℕ}
    (htoken : decodeOffsetToken tools q token = .ok start) (hmore : start + limit < matched.length) :
    matchedPage tools q (some limit) matched token =
      .ok ⟨(matched.drop start).take limit, some (encodeOffsetToken tools q (start + limit))⟩ := by
  have hstop : min (((some limit).map fun limit => start + limit).getD matched.length) matched.length =
      start + limit := Nat.min_eq_left (le_of_lt hmore)
  unfold matchedPage
  rw [htoken]
  dsimp only
  rw [if_neg (by omega), hstop, if_pos hmore, List.drop_take, Nat.add_sub_cancel_left]

theorem globDirectory_pages (hhex : ∀ text, ':' ∉ tools.hexDigest text)
    (hglob : tools.preparedGlob q.pattern = .ok matcher) (hshallow : Shallow q matcher)
    (htree : GlobTree readDir depth q.basePath) {limit : ℕ} (hlimit : 1 ≤ limit) :
    Pages (fun token page => globDirectory tools q (some limit) readDir lower depth token = some (.ok page)) none
      (allMatches readDir q matcher depth) := by
  have hsize : some limit ≠ some 0 := by
    rw [ne_eq, Option.some.injEq]
    omega
  refine Pages.of_cursor
    (fun token place => decodeOffsetToken tools q token = .ok place ∧
      place ≤ (allMatches readDir q matcher depth).length)
    (allMatches readDir q matcher depth).drop (allMatches readDir q matcher depth).length ?_
    (show decodeOffsetToken tools q none = .ok 0 ∧ _ from ⟨rfl, Nat.zero_le _⟩)
  rintro token place ⟨htoken, hplace⟩
  rw [globDirectory_eq hglob hshallow htree hsize]
  by_cases hmore : place + limit < (allMatches readDir q matcher depth).length
  · right
    refine ⟨_, _, place + limit, congrArg some (matchedPage_more htoken hmore),
      ⟨decodeOffsetToken_encodeOffsetToken hhex _, le_of_lt hmore⟩, by omega, le_of_lt hmore, ?_⟩
    rw [← List.drop_drop]
    exact (List.take_append_drop _ _).symm
  · left
    refine congrArg some (matchedPage_last htoken hplace fun limit' heq => ?_)
    obtain rfl := Option.some.inj heq
    omega

end Sorted

/-! ## Pages of the walk -/

section Walked

variable {tools : GlobTools} {q : GlobQuery} {readDir : Path → Except Error (List FileInfo)}
  {matcher : Path → Bool} {depth : ℕ}

variable {start : ℕ}

/-- The entries before the start are passed over. -/
theorem walkEntries_skip (q : GlobQuery) (matcher : Path → Bool) {pageSize : Option ℕ}
    (hsize : pageSize ≠ some 0) (walker : List Dent) {rawSeen : ℕ} (hle : rawSeen ≤ start)
    (hstart : start ≤ rawSeen + walker.length) :
    walkEntries q pageSize matcher start (walker.map .ok) rawSeen [] =
      walkEntries q pageSize matcher start ((walker.drop (start - rawSeen)).map .ok) start [] := by
  have hroom : ¬ reached pageSize 0 = true := by
    rw [reached_iff, spend_zero]
    exact hsize
  induction walker generalizing rawSeen with
  | nil =>
    rw [List.drop_nil]
    rfl
  | cons dent walker ih =>
    rw [List.length_cons] at hstart
    by_cases heq : rawSeen = start
    · rw [heq, Nat.sub_self]
      rfl
    · have hgap : start - rawSeen = start - (rawSeen + 1) + 1 := by omega
      rw [hgap, List.drop_succ_cons, ← ih (by omega) (by omega), List.map_cons, walkEntries]
      rw [List.length_nil, if_neg hroom, if_pos (by omega)]

/-- From the start on a part of the walk is taken, and where it ends the page is full. -/
theorem walkEntries_scan (q : GlobQuery) (matcher : Path → Bool) (pageSize : Option ℕ)
    (walker : List Dent) {rawSeen : ℕ} (hle : start ≤ rawSeen) (entries : List GlobEntry) :
    ∃ taken ≤ walker.length,
      walkEntries q pageSize matcher start (walker.map .ok) rawSeen entries =
        .ok (entries ++ (walker.take taken).filterMap (dentEntry q matcher),
          if taken < walker.length then some (rawSeen + taken) else none) ∧
      (taken < walker.length →
        reached pageSize (entries ++ (walker.take taken).filterMap (dentEntry q matcher)).length = true) := by
  induction walker generalizing rawSeen entries with
  | nil => exact ⟨0, le_refl 0, by simp [walkEntries], fun h => absurd h (lt_irrefl 0)⟩
  | cons dent walker ih =>
    rw [List.map_cons, walkEntries]
    by_cases hreached : reached pageSize entries.length = true
    · refine ⟨0, Nat.zero_le _, ?_, fun _ => ?_⟩
      · rw [if_pos hreached, if_pos (by simp)]
        simp
      · simpa using hreached
    · rw [if_neg hreached, if_neg (by omega)]
      obtain ⟨taken, htaken, hrun, hfull⟩ := ih (show start ≤ rawSeen + 1 by omega)
        (entries ++ (dentEntry q matcher dent).toList)
      have hsplit : entries ++ (dentEntry q matcher dent).toList ++
          (walker.take taken).filterMap (dentEntry q matcher) =
          entries ++ ((dent :: walker).take (taken + 1)).filterMap (dentEntry q matcher) := by
        rw [List.take_succ_cons, List.append_assoc]
        congr 1
        cases hentry : dentEntry q matcher dent with
        | none => rw [List.filterMap_cons_none hentry]; rfl
        | some entry => rw [List.filterMap_cons_some hentry]; rfl
      rw [hsplit] at hrun hfull
      refine ⟨taken + 1, by rw [List.length_cons]; omega, ?_, fun hlt => ?_⟩
      · rw [hrun]
        by_cases hlt : taken < walker.length
        · rw [if_pos hlt, if_pos (by rw [List.length_cons]; omega), Nat.add_assoc, Nat.add_comm 1 taken]
        · rw [if_neg hlt, if_neg (by rw [List.length_cons]; omega)]
      · rw [List.length_cons] at hlt
        exact hfull (by omega)

/-- The entries of the walk of a tree. -/
def walked (readDir : Path → Except Error (List FileInfo)) (q : GlobQuery) (depth : ℕ) : List Dent :=
  ⟨[], true⟩ :: (treeWalk readDir sortByName q.effectiveGlobMaxDepth depth 0 q.basePath).map fun x =>
    ⟨x.1, x.2.isDir⟩

theorem walkOf_eq : walkOf readDir depth q.basePath q.effectiveGlobMaxDepth =
    (walked readDir q depth).map .ok := by
  rw [walkOf, walked, List.map_cons, List.map_map]
  rfl

theorem localGlobEntryPath_eq {components : List Path} (hne : components ≠ []) :
    localGlobEntryPath q.path (relativeAt components) = pathAt q.basePath components := by
  rw [pathAt_of_ne_nil hne, absolute_eq_cons hne]
  unfold localGlobEntryPath GlobQuery.basePath normalizePrefixPath
  by_cases hroot : q.path = ['/']
  · rw [if_pos hroot, if_pos hroot, if_pos rfl]
    rfl
  · rw [if_neg hroot, if_neg hroot]
    have hnot : q.path.rdropWhile (· == '/') ≠ ['/'] := by
      intro heq
      have hlast := List.rdropWhile_last_not (fun c : Char => c == '/') q.path
        (by rw [heq]; exact List.cons_ne_nil _ _)
      simp [heq] at hlast
    rw [if_neg hnot]

theorem dentEntry_eq {components : List Path} {info : FileInfo} (htree : GlobTree readDir depth q.basePath)
    (h : Holds readDir q.basePath components info) :
    dentEntry q matcher ⟨components, info.isDir⟩ =
      if wanted q matcher (components, info) then some (entryAt q.basePath (components, info)) else none := by
  have hrel : localToQueryRelativePath components = relativeAt components := if_neg h.ne_nil
  unfold dentEntry
  dsimp only
  rw [hrel, if_neg (relativeAt_ne_dot h.ne_nil (htree.names h)), h.getLast?, Option.getD_some,
    localGlobEntryPath_eq h.ne_nil]
  unfold wanted skipped entryAt
  dsimp only
  cases q.showHidden <;> cases info.isDir <;> cases matcher (relativeAt components) <;>
    simp

theorem filterMap_walked (htree : GlobTree readDir depth q.basePath) :
    (walked readDir q depth).filterMap (dentEntry q matcher) = allMatches readDir q matcher depth := by
  have hroot : dentEntry q matcher ⟨[], true⟩ = none := rfl
  rw [walked, List.filterMap_cons_none hroot, List.filterMap_map, allMatches, ← List.filterMap_eq_map,
    ← List.filterMap_eq_filter, List.filterMap_filterMap]
  refine List.filterMap_congr fun x hx => ?_
  refine (dentEntry_eq htree ((mem_treeWalk sortByName_perm 0 htree x).1 hx).1).trans ?_
  by_cases hwanted : wanted q matcher x = true
  · simp [Option.guard, hwanted]
  · simp [Option.guard, hwanted]

/-- The root that is searched is a directory, and the walk of it is the walk of the tree. -/
structure LocalRoot.Walks (root : LocalRoot) (readDir : Path → Except Error (List FileInfo)) (depth : ℕ)
    (path : Path) : Prop where
  present : root.present = true
  isDir : root.isDir = true
  walk : root.walk = walkOf readDir depth path

variable {root : LocalRoot}

theorem globViaWalk_eq (hglob : tools.preparedGlob q.pattern = .ok matcher)
    (hroot : root.Walks readDir depth q.basePath) {pageSize : Option ℕ} (hsize : pageSize ≠ some 0)
    {token : Option Token} (htoken : decodeOffsetToken tools q token = .ok start)
    (hstart : start ≤ (walked readDir q depth).length) :
    ∃ taken ≤ ((walked readDir q depth).drop start).length,
      globViaWalk tools q pageSize root token =
        .ok ⟨(((walked readDir q depth).drop start).take taken).filterMap (dentEntry q matcher),
          ((if taken < ((walked readDir q depth).drop start).length then some (start + taken) else none).filter
            fun _ => pageSize.isSome).map (encodeOffsetToken tools q)⟩ ∧
      (taken < ((walked readDir q depth).drop start).length →
        reached pageSize (((walked readDir q depth).drop start).take taken |>.filterMap
          (dentEntry q matcher)).length = true) := by
  obtain ⟨taken, htaken, hrun, hfull⟩ := walkEntries_scan q matcher pageSize
    ((walked readDir q depth).drop start) (le_refl start) []
  rw [List.nil_append] at hrun hfull
  refine ⟨taken, htaken, ?_, hfull⟩
  have hskip := walkEntries_skip q matcher hsize (walked readDir q depth) (Nat.zero_le start) (by omega)
  rw [Nat.sub_zero] at hskip
  unfold globViaWalk
  rw [hglob]
  dsimp only
  rw [if_neg hsize, hroot.present, hroot.isDir, if_neg (by decide), if_neg (by decide), htoken, hroot.walk,
    walkOf_eq]
  dsimp only
  rw [hskip, hrun]

/-- A search without a page size gives everything at once. -/
theorem globViaWalk_none (hglob : tools.preparedGlob q.pattern = .ok matcher)
    (hroot : root.Walks readDir depth q.basePath) (htree : GlobTree readDir depth q.basePath) :
    globViaWalk tools q none root none = .ok ⟨allMatches readDir q matcher depth, none⟩ := by
  obtain ⟨taken, htaken, hrun, hfull⟩ := globViaWalk_eq hglob hroot (show none ≠ some 0 from nofun)
    (show decodeOffsetToken tools q none = .ok 0 from rfl) (Nat.zero_le _)
  have hall : taken = (walked readDir q depth).length := by
    by_contra hne
    have := hfull (by rw [List.drop_zero] at htaken ⊢; omega)
    cases this
  rw [hrun, List.drop_zero, hall, List.take_length, filterMap_walked htree, if_neg (lt_irrefl _)]
  rfl

theorem globViaWalk_pages (hhex : ∀ text, ':' ∉ tools.hexDigest text)
    (hglob : tools.preparedGlob q.pattern = .ok matcher)
    (hroot : root.Walks readDir depth q.basePath) (htree : GlobTree readDir depth q.basePath) {limit : ℕ}
    (hlimit : 1 ≤ limit) :
    Pages (fun token page => globViaWalk tools q (some limit) root token = .ok page) none
      (allMatches readDir q matcher depth) := by
  have hsize : some limit ≠ some 0 := by
    rw [ne_eq, Option.some.injEq]
    omega
  rw [← filterMap_walked htree, ← List.drop_zero (l := walked readDir q depth)]
  refine Pages.of_cursor
    (fun token place => decodeOffsetToken tools q token = .ok place ∧ place ≤ (walked readDir q depth).length)
    (fun place => ((walked readDir q depth).drop place).filterMap (dentEntry q matcher))
    (walked readDir q depth).length ?_
    (show decodeOffsetToken tools q none = .ok 0 ∧ _ from ⟨rfl, Nat.zero_le _⟩)
  rintro token place ⟨htoken, hplace⟩
  obtain ⟨taken, htaken, hrun, hfull⟩ := globViaWalk_eq hglob hroot hsize htoken hplace
  rw [hrun]
  by_cases hmore : taken < ((walked readDir q depth).drop place).length
  · right
    have hpos : 0 < taken := by
      have hreached := hfull hmore
      -- a full page holds an entry, so that some of the walk was taken
      by_contra hzero
      have htaken0 : taken = 0 := by omega
      rw [htaken0, List.take_zero, reached_iff, List.filterMap_nil, List.length_nil, spend_zero] at hreached
      exact hsize hreached
    rw [List.length_drop] at htaken hmore
    refine ⟨_, _, place + taken, by rw [if_pos (by rwa [List.length_drop])]; rfl,
      ⟨decodeOffsetToken_encodeOffsetToken hhex _, by omega⟩, by omega, by omega, ?_⟩
    rw [← List.filterMap_append, ← List.drop_drop, List.take_append_drop]
  · left
    have hall : taken = ((walked readDir q depth).drop place).length := by omega
    rw [if_neg hmore, hall, List.take_length]
    rfl

end Walked

/-! ## Both -/

/-- What a search asks for. -/
def Matches (readDir : Path → Except Error (List FileInfo)) (q : GlobQuery) (matcher : Path → Bool)
    (entry : GlobEntry) : Prop :=
  ∃ components info, Holds readDir q.basePath components info ∧
    (∀ level, q.levelLimit = some level → components.length ≤ level) ∧
    (info.isDir = true ∨ q.showHidden = true ∨ info.name.head? ≠ some '.') ∧
    matcher (relativeAt components) = true ∧ entry = entryAt q.basePath (components, info)

variable {matcher : Path → Bool}

theorem wanted_iff {q : GlobQuery} (components : List Path) (info : FileInfo) :
    wanted q matcher (components, info) = true ↔
      (info.isDir = true ∨ q.showHidden = true ∨ info.name.head? ≠ some '.') ∧
        matcher (relativeAt components) = true := by
  unfold wanted skipped
  cases info.isDir <;> cases q.showHidden <;> simp

theorem mem_allMatches {readDir : Path → Except Error (List FileInfo)} {q : GlobQuery}
    {depth : ℕ} (hshallow : Shallow q matcher) (htree : GlobTree readDir depth q.basePath) (entry : GlobEntry) :
    entry ∈ allMatches readDir q matcher depth ↔ Matches readDir q matcher entry := by
  unfold allMatches Matches
  rw [List.mem_map]
  constructor
  · rintro ⟨⟨components, info⟩, hx, rfl⟩
    obtain ⟨hholds, hlevel, hwanted⟩ := (mem_walk_wanted hshallow htree _).1 hx
    obtain ⟨hshown, hmatch⟩ := (wanted_iff components info).1 hwanted
    exact ⟨components, info, hholds, hlevel, hshown, hmatch, rfl⟩
  · rintro ⟨components, info, hholds, hlevel, hshown, hmatch, rfl⟩
    exact ⟨(components, info), (mem_walk_wanted hshallow htree _).2
      ⟨hholds, hlevel, (wanted_iff components info).2 ⟨hshown, hmatch⟩⟩, rfl⟩

/-- The pages of both come to an end, and together they hold what one page without a size holds: the matches
of the tree, each once, in the order of their components. -/
theorem globPages_partition (tools : GlobTools) (q : GlobQuery) (readDir : Path → Except Error (List FileInfo))
    (lower : Path → Path) (matcher : Path → Bool) (depth : ℕ) (root : LocalRoot)
    (hhex : ∀ text, ':' ∉ tools.hexDigest text) (hglob : tools.preparedGlob q.pattern = .ok matcher)
    (hshallow : Shallow q matcher) (htree : GlobTree readDir depth q.basePath)
    (hroot : root.Walks readDir depth q.basePath) :
    ∃ entries,
      globDirectory tools q none readDir lower depth none = some (.ok ⟨entries, none⟩) ∧
      globViaWalk tools q none root none = .ok ⟨entries, none⟩ ∧
      (∀ pageSize, 1 ≤ pageSize →
        Pages (fun token page => globDirectory tools q (some pageSize) readDir lower depth token = some (.ok page))
          none entries ∧
        Pages (fun token page => globViaWalk tools q (some pageSize) root token = .ok page) none entries) ∧
      (entries.Pairwise fun left right => compareRelPaths left.relPath right.relPath = .lt) ∧
      ∀ entry, entry ∈ entries ↔ Matches readDir q matcher entry := by
  refine ⟨allMatches readDir q matcher depth, ?_, globViaWalk_none hglob hroot htree,
    fun pageSize hsize => ⟨?_, ?_⟩, allMatches_sorted htree, mem_allMatches hshallow htree⟩
  · have hsize : (none : Option ℕ) ≠ some 0 := nofun
    rw [globDirectory_eq hglob hshallow htree hsize]
    exact congrArg some (matchedPage_last rfl (Nat.zero_le _) fun limit h => by cases h)
  · exact globDirectory_pages hhex hglob hshallow htree hsize
  · exact globViaWalk_pages hhex hglob hroot htree hsize

/-- A directory with a file, a hidden file and a directory with a file. -/
def docsDir : Path → Except Error (List FileInfo) := fun path =>
  if path = "/docs".toList then
    .ok [⟨"sub".toList, 0, 493, true⟩, ⟨"b.md".toList, 1, 420, false⟩, ⟨".a".toList, 1, 420, false⟩]
  else if path = "/docs/sub".toList then .ok [⟨"c.md".toList, 1, 420, false⟩]
  else .error (.notFound path)

def starsQuery : GlobQuery := ⟨"/docs".toList, ['*', '*'], false, none⟩

/-- The digest and the matcher for a search with `**`. -/
def starsTools : GlobTools where
  hexDigest _ := "34bc8d7c250da684597781ef33353bd56f2e055a20a017487276f33acfc389ea".toList
  globset _ := .ok fun _ => true

theorem docsDir_globTree : GlobTree docsDir 2 starsQuery.basePath := by
  have hsub : GlobTree docsDir 1 "/docs/sub".toList := by
    refine ⟨_, rfl, by decide, fun entry hentry => ?_⟩
    rw [List.mem_singleton.1 hentry]
    exact ⟨⟨by decide, by decide⟩, by decide, nofun⟩
  refine ⟨_, rfl, by decide, fun entry hentry => ?_⟩
  rcases List.mem_cons.1 hentry with rfl | hentry
  · exact ⟨⟨by decide, by decide⟩, by decide, fun _ => hsub⟩
  · rcases List.mem_pair.1 hentry with rfl | rfl
    · exact ⟨⟨by decide, by decide⟩, by decide, nofun⟩
    · exact ⟨⟨by decide, by decide⟩, by decide, nofun⟩

theorem starsQuery_shallow : Shallow starsQuery fun _ => true := by
  intro relPath _ depth hdepth
  have hnone : globStaticMaxDepth starsQuery.pattern = none := by decide
  rw [hnone] at hdepth
  cases hdepth

theorem globPages_partition_docs :
    ∃ entries : List GlobEntry,
      entries.map GlobEntry.relPath = ["b.md".toList, "sub".toList, "sub/c.md".toList] ∧
      Pages (fun token page =>
        globDirectory starsTools starsQuery (some 1) docsDir id 2 token = some (.ok page)) none entries ∧
      Pages (fun token page => globViaWalk starsTools starsQuery (some 1)
        ⟨true, true, walkOf docsDir 2 starsQuery.basePath⟩ token = .ok page) none entries := by
  obtain ⟨entries, hall, -, hpages, -⟩ := globPages_partition starsTools starsQuery docsDir id _ 2
    ⟨true, true, walkOf docsDir 2 starsQuery.basePath⟩ (fun _ => of_decide_eq_true rfl) rfl
    starsQuery_shallow docsDir_globTree ⟨rfl, rfl, rfl⟩
  have hfound : (globDirectory starsTools starsQuery none docsDir id 2 none).map (fun result =>
      result.toOption.map fun page => page.entries.map GlobEntry.relPath) =
        some (some ["b.md".toList, "sub".toList, "sub/c.md".toList]) := by decide +kernel
  rw [hall] at hfound
  exact ⟨entries, Option.some.inj (Option.some.inj hfound), hpages 1 (le_refl 1)⟩

end OpenViking.Ragfs
