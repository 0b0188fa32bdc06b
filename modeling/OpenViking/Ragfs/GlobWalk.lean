import OpenViking.Ragfs.Glob

/-!
# The matches of a tree

Both ways of paging go over one tree: `glob_directory` sorts what matches of it; `glob_via_walk` goes through
a walk that visits every directory in the order of its names, parents first, and is cut at the depth of the
pattern.

Results:

* `treeDirectory_eq`: the tree listing is a walk without the hidden files;
* `allMatches_sorted`, `sortMatched_eq`: the matches of the walk are sorted.
-/

namespace OpenViking.Ragfs

open Room BoundedWalk

/-! ## Sorting by a key -/

section Sorting

variable {α κ : Type*} [Ord κ] [Std.TransOrd κ]

theorem insertionSort_sorted (key : α → κ) (l : List α) :
    (l.insertionSort fun a b => compare (key a) (key b) ≠ .gt).Pairwise fun a b =>
      compare (key a) (key b) ≠ .gt := by
  have htotal : Std.Total fun a b => compare (key a) (key b) ≠ .gt := by
    refine ⟨fun a b => ?_⟩
    by_cases h : compare (key a) (key b) = .gt
    · right
      rw [Std.OrientedCmp.gt_iff_lt.1 h]
      exact nofun
    · exact .inl h
  have htrans : IsTrans α fun a b => compare (key a) (key b) ≠ .gt := by
    refine ⟨fun a b c hab hbc => ?_⟩
    rw [ne_eq, Ordering.ne_gt_iff_isLE] at hab hbc ⊢
    exact Std.TransCmp.isLE_trans hab hbc
  exact List.pairwise_insertionSort _ l

end Sorting

/-! ## The tree -/

/-- The names of the entries in a listing are different names, and the directories are at most so deep. -/
def GlobTree (readDir : Path → Except Error (List FileInfo)) : ℕ → Path → Prop
  | 0, _ => False
  | depth + 1, path => ∃ entries, readDir path = .ok entries ∧ (entries.map FileInfo.name).Nodup ∧
    ∀ entry ∈ entries, IsComponent entry.name ∧ entry.name ≠ ['.'] ∧
      (entry.isDir = true → GlobTree readDir depth (entryPath path entry.name))

/-- There is an entry below a path, with these components. -/
inductive Holds (readDir : Path → Except Error (List FileInfo)) : Path → List Path → FileInfo → Prop
  | here {path : Path} {entries : List FileInfo} {entry : FileInfo} (h : readDir path = .ok entries)
      (hentry : entry ∈ entries) : Holds readDir path [entry.name] entry
  | inside {path : Path} {entries : List FileInfo} {entry info : FileInfo} {components : List Path}
      (h : readDir path = .ok entries) (hentry : entry ∈ entries) (hdir : entry.isDir = true)
      (hbelow : Holds readDir (entryPath path entry.name) components info) :
      Holds readDir path (entry.name :: components) info

/-- The order of `sort_by_file_path` in a directory. -/
def sortByName (entries : List FileInfo) : List FileInfo :=
  entries.insertionSort fun left right => compare left.name right.name ≠ .gt

/-- The entries below a path that is `level` deep, parents first, down to a depth. -/
def treeWalk (readDir : Path → Except Error (List FileInfo)) (order : List FileInfo → List FileInfo)
    (maxDepth : Option ℕ) : ℕ → ℕ → Path → List (List Path × FileInfo)
  | 0, _, _ => []
  | fuel + 1, level, path =>
    if maxDepth.any fun depth => decide (depth ≤ level) then []
    else
      match readDir path with
      | .error _ => []
      | .ok entries =>
        (order entries).flatMap fun entry =>
          ([entry.name], entry) ::
            if entry.isDir then
              (treeWalk readDir order maxDepth fuel (level + 1) (entryPath path entry.name)).map fun x =>
                (entry.name :: x.1, x.2)
            else []

/-- The walk of a directory as `ignore` gives it: the directory itself, then what is below it. -/
def walkOf (readDir : Path → Except Error (List FileInfo)) (depth : ℕ) (path : Path) (maxDepth : Option ℕ) :
    List (Except Error Dent) :=
  .ok ⟨[], true⟩ :: (treeWalk readDir sortByName maxDepth depth 0 path).map fun x => .ok ⟨x.1, x.2.isDir⟩

/-- The path of what is below a root. -/
def pathAt (base : Path) (components : List Path) : Path :=
  if components = [] then base else (if base = ['/'] then [] else base) ++ absolute components

/-- The relative path of what is below a root. -/
def relativeAt (components : List Path) : Path := ['/'].intercalate components

/-- What a search returns for an entry. -/
def entryAt (base : Path) (x : List Path × FileInfo) : GlobEntry :=
  ⟨pathAt base x.1, relativeAt x.1, x.2.name, x.2.isDir⟩

/-- An entry is shown and matches. -/
def wanted (q : GlobQuery) (matcher : Path → Bool) (x : List Path × FileInfo) : Bool :=
  !skipped q.showHidden x.2 && matcher (relativeAt x.1)

/-- The names on the way to an entry. -/
def IsName (name : Path) : Prop := IsComponent name ∧ name ≠ ['.']

section Walk

variable {readDir : Path → Except Error (List FileInfo)} {order : List FileInfo → List FileInfo}
  {maxDepth : Option ℕ}

variable {components : List Path} {path : Path} {info : FileInfo}

theorem Holds.ne_nil (h : Holds readDir path components info) : components ≠ [] := by
  cases h with
  | here h hentry => exact List.cons_ne_nil _ _
  | inside h hentry hdir hbelow => exact List.cons_ne_nil _ _

theorem Holds.getLast? (h : Holds readDir path components info) : components.getLast? = some info.name := by
  induction h with
  | here h hentry => rfl
  | inside h hentry hdir hbelow ih =>
    obtain ⟨first, rest, rfl⟩ := List.exists_cons_of_ne_nil hbelow.ne_nil
    rw [List.getLast?_cons_cons]
    exact ih

variable {entries : List FileInfo}

theorem holds_iff (hread : readDir path = .ok entries) :
    Holds readDir path components info ↔
      (info ∈ entries ∧ components = [info.name]) ∨
        ∃ entry ∈ entries, entry.isDir = true ∧ ∃ rest, components = entry.name :: rest ∧
          Holds readDir (entryPath path entry.name) rest info := by
  constructor
  · intro h
    cases h with
    | here h hentry =>
      obtain rfl := Except.ok.inj (hread.symm.trans h)
      exact .inl ⟨hentry, rfl⟩
    | inside h hentry hdir hbelow =>
      obtain rfl := Except.ok.inj (hread.symm.trans h)
      exact .inr ⟨_, hentry, hdir, _, rfl, hbelow⟩
  · rintro (⟨hentry, rfl⟩ | ⟨entry, hentry, hdir, rest, rfl, hbelow⟩)
    · exact .here hread hentry
    · exact .inside hread hentry hdir hbelow

variable {depth : ℕ}

theorem GlobTree.names (htree : GlobTree readDir depth path) (h : Holds readDir path components info) :
    ∀ name ∈ components, IsName name := by
  induction h generalizing depth with
  | here h hentry =>
    cases depth with
    | zero => exact htree.elim
    | succ depth =>
      obtain ⟨entries, hread, -, hall⟩ := htree
      obtain rfl := Except.ok.inj (hread.symm.trans h)
      intro name hname
      rw [List.mem_singleton.1 hname]
      exact ⟨(hall _ hentry).1, (hall _ hentry).2.1⟩
  | inside h hentry hdir hbelow ih =>
    cases depth with
    | zero => exact htree.elim
    | succ depth =>
      obtain ⟨entries, hread, -, hall⟩ := htree
      obtain rfl := Except.ok.inj (hread.symm.trans h)
      obtain ⟨hcomponent, hdot, hsub⟩ := hall _ hentry
      intro name hname
      rcases List.mem_cons.1 hname with rfl | hname
      · exact ⟨hcomponent, hdot⟩
      · exact ih (hsub hdir) name hname

theorem GlobTree.dirTree (htree : GlobTree readDir depth path) : DirTree readDir depth path := by
  induction depth generalizing path with
  | zero => exact htree
  | succ depth ih =>
    obtain ⟨entries, hread, -, hall⟩ := htree
    intro entries' hread' entry hentry hdir
    obtain rfl := Except.ok.inj (hread.symm.trans hread')
    exact ih ((hall entry hentry).2.2 hdir)

theorem any_le_eq_true {level : ℕ} :
    (maxDepth.any fun depth => decide (depth ≤ level)) = true ↔ ∃ depth, maxDepth = some depth ∧ depth ≤ level := by
  cases maxDepth with
  | none => simp
  | some depth => simp

/-- What is in the walk of a tree. -/
theorem mem_treeWalk (horder : ∀ entries, (order entries).Perm entries) (level : ℕ)
    (htree : GlobTree readDir depth path) (x : List Path × FileInfo) :
    x ∈ treeWalk readDir order maxDepth depth level path ↔
      Holds readDir path x.1 x.2 ∧ ∀ d, maxDepth = some d → level + x.1.length ≤ d := by
  induction depth generalizing level path x with
  | zero => exact htree.elim
  | succ depth ih =>
    obtain ⟨entries, hread, -, hall⟩ := htree
    rw [treeWalk]
    by_cases hcut : (maxDepth.any fun depth => decide (depth ≤ level)) = true
    · rw [if_pos hcut]
      refine iff_of_false List.not_mem_nil ?_
      rintro ⟨hholds, hdepth⟩
      obtain ⟨d, hd, hle⟩ := any_le_eq_true.1 hcut
      have hlen := hdepth d hd
      have hpos := List.length_pos_of_ne_nil hholds.ne_nil
      omega
    · have hlevel : ∀ d, maxDepth = some d → level + 1 ≤ d := by
        intro d hd
        by_contra hle
        exact hcut (any_le_eq_true.2 ⟨d, hd, by omega⟩)
      rw [if_neg hcut, hread]
      dsimp only
      rw [List.mem_flatMap]
      constructor
      · rintro ⟨entry, hentry, hx⟩
        have hentry' := (horder entries).mem_iff.1 hentry
        rcases List.mem_cons.1 hx with rfl | hx
        · exact ⟨.here hread hentry', fun d hd => hlevel d hd⟩
        · split_ifs at hx with hdir
          · obtain ⟨y, hy, rfl⟩ := List.mem_map.1 hx
            obtain ⟨hholds, hdepth⟩ := (ih (level + 1) ((hall entry hentry').2.2 hdir) y).1 hy
            refine ⟨.inside hread hentry' hdir hholds, fun d hd => ?_⟩
            have := hdepth d hd
            rw [List.length_cons]
            omega
          · exact absurd hx List.not_mem_nil
      · rintro ⟨hholds, hdepth⟩
        rcases (holds_iff hread).1 hholds with ⟨hentry, hx⟩ | ⟨entry, hentry, hdir, rest, hx, hbelow⟩
        · refine ⟨x.2, (horder _).mem_iff.2 hentry, ?_⟩
          rw [← hx]
          exact List.mem_cons_self
        · refine ⟨entry, (horder _).mem_iff.2 hentry, List.mem_cons_of_mem _ ?_⟩
          rw [if_pos hdir]
          refine List.mem_map.2 ⟨(rest, x.2), ?_, by rw [← hx]⟩
          refine (ih (level + 1) ((hall entry hentry).2.2 hdir) (rest, x.2)).2 ⟨hbelow, fun d hd => ?_⟩
          have := hdepth d hd
          rw [hx, List.length_cons] at this
          dsimp only
          omega

/-- The walks of a tree in two orders hold the same. -/
theorem treeWalk_perm {order' : List FileInfo → List FileInfo} (horder : ∀ entries, (order entries).Perm entries)
    (horder' : ∀ entries, (order' entries).Perm entries) (depth level : ℕ) (path : Path) :
    (treeWalk readDir order maxDepth depth level path).Perm
      (treeWalk readDir order' maxDepth depth level path) := by
  induction depth generalizing level path with
  | zero => exact List.Perm.refl _
  | succ depth ih =>
    rw [treeWalk, treeWalk]
    split_ifs with hcut
    · exact List.Perm.refl _
    · cases readDir path with
      | error err => exact List.Perm.refl _
      | ok entries =>
        refine (((horder entries).trans (horder' entries).symm).flatMap_right _).trans ?_
        refine List.Perm.flatMap_left _ fun entry _ => List.Perm.cons _ ?_
        split_ifs with hdir
        · exact (ih (level + 1) _).map _
        · exact List.Perm.refl _

theorem sortByName_perm (entries : List FileInfo) : (sortByName entries).Perm entries :=
  List.perm_insertionSort _ entries

theorem sortByName_sorted (h : (entries.map FileInfo.name).Nodup) :
    (sortByName entries).Pairwise fun left right => compare left.name right.name = .lt := by
  have hnodup : ((sortByName entries).map FileInfo.name).Nodup :=
    ((sortByName_perm entries).map _).nodup_iff.2 h
  refine (insertionSort_sorted FileInfo.name entries).imp₂ ?_ (List.pairwise_map.1 hnodup)
  intro left right hle hne
  have hneq : compare left.name right.name ≠ .eq := fun heq => hne (Std.compare_eq_iff_eq.1 heq)
  cases hcmp : compare left.name right.name with
  | lt => rfl
  | eq => exact absurd hcmp hneq
  | gt => exact absurd hcmp hle

/-- The walk in the order of the names goes up in the order of the components. -/
theorem treeWalk_sorted (level : ℕ) (htree : GlobTree readDir depth path) :
    (treeWalk readDir sortByName maxDepth depth level path).Pairwise fun x y => compare x.1 y.1 = .lt := by
  induction depth generalizing level path with
  | zero => exact htree.elim
  | succ depth ih =>
    obtain ⟨entries, hread, hnodup, hall⟩ := htree
    rw [treeWalk]
    split_ifs with hcut
    · exact List.Pairwise.nil
    · rw [hread]
      dsimp only
      rw [List.pairwise_flatMap]
      constructor
      · intro entry hentry
        have hentry' := (sortByName_perm entries).mem_iff.1 hentry
        rw [List.pairwise_cons]
        split_ifs with hdir
        · have hsub := (hall entry hentry').2.2 hdir
          constructor
          · intro y hy
            obtain ⟨z, hz, rfl⟩ := List.mem_map.1 hy
            obtain ⟨first, rest, hcons⟩ := List.exists_cons_of_ne_nil
              ((mem_treeWalk sortByName_perm (level + 1) hsub z).1 hz).1.ne_nil
            rw [List.compare_cons_cons, Std.ReflOrd.compare_self, hcons]
            rfl
          · rw [List.pairwise_map]
            refine (ih (level + 1) hsub).imp fun {x y} hxy => ?_
            rw [List.compare_cons_cons, Std.ReflOrd.compare_self]
            exact hxy
        · exact ⟨fun y hy => absurd hy List.not_mem_nil, List.Pairwise.nil⟩
      · refine (sortByName_sorted hnodup).imp fun {left right} hlt x hx y hy => ?_
        have hfirst : ∀ (entry : FileInfo) (z : List Path × FileInfo),
            z ∈ (([entry.name], entry) :: if entry.isDir then
              (treeWalk readDir sortByName maxDepth depth (level + 1) (entryPath path entry.name)).map fun x =>
                (entry.name :: x.1, x.2) else []) → ∃ rest, z.1 = entry.name :: rest := by
          intro entry z hz
          rcases List.mem_cons.1 hz with rfl | hz
          · exact ⟨[], rfl⟩
          · split_ifs at hz with hdir
            · obtain ⟨w, -, rfl⟩ := List.mem_map.1 hz
              exact ⟨w.1, rfl⟩
            · exact absurd hz List.not_mem_nil
        obtain ⟨rest, hrest⟩ := hfirst left x hx
        obtain ⟨rest', hrest'⟩ := hfirst right y hy
        rw [hrest, hrest', List.compare_cons_cons, hlt]
        rfl

end Walk

/-! ## Paths below a root -/

section Paths

variable {base : Path} {components : List Path}

theorem absolute_eq_cons (h : components ≠ []) : absolute components = '/' :: relativeAt components := by
  rw [absolute_eq_intercalate, relativeAt]
  obtain ⟨first, rest, rfl⟩ := List.exists_cons_of_ne_nil h
  rw [List.intercalate_cons_cons]
  rfl

theorem splitOn_relativeAt (hne : components ≠ []) (h : ∀ name ∈ components, IsName name) :
    (relativeAt components).splitOn '/' = components := by
  have hsplit := splitOn_absolute fun name hname => (h name hname).1.2
  rw [absolute_eq_cons hne, ← List.nil_append ('/' :: _), List.splitOn_append_cons_self] at hsplit
  exact (List.cons.inj hsplit).2

theorem relativeAt_ne_nil (hne : components ≠ []) (h : ∀ name ∈ components, IsName name) :
    relativeAt components ≠ [] := by
  intro hnil
  have hsplit := splitOn_relativeAt hne h
  rw [hnil, List.splitOn_nil] at hsplit
  exact (h [] (by rw [← hsplit]; exact List.mem_singleton_self _)).1.1 rfl

theorem relativeAt_ne_dot (hne : components ≠ []) (h : ∀ name ∈ components, IsName name) :
    relativeAt components ≠ ['.'] := by
  intro hdot
  have hsplit := splitOn_relativeAt hne h
  have hone : (['.'] : Path).splitOn '/' = [['.']] := by decide
  rw [hdot, hone] at hsplit
  exact (h ['.'] (by rw [← hsplit]; exact List.mem_singleton_self _)).2 rfl

theorem splitSegments_relativeAt (h : ∀ name ∈ components, IsName name) :
    splitSegments (relativeAt components) = components := by
  by_cases hne : components = []
  · subst hne
    decide
  · rw [splitSegments, splitOn_relativeAt hne h, List.filter_eq_self]
    exact fun name hname => decide_eq_true ⟨(h name hname).1.1, (h name hname).2⟩

theorem compareRelPaths_relativeAt {components' : List Path} (h : ∀ name ∈ components, IsName name)
    (h' : ∀ name ∈ components', IsName name) :
    compareRelPaths (relativeAt components) (relativeAt components') = compare components components' := by
  rw [compareRelPaths, splitSegments_relativeAt h, splitSegments_relativeAt h']

section

variable (hne : components ≠ [])

include hne

theorem relativeDepth_relativeAt (h : ∀ name ∈ components, IsName name) :
    relativeDepth (relativeAt components) = components.length := by
  rw [relativeDepth, if_neg fun hor => hor.elim (relativeAt_ne_nil hne h) (relativeAt_ne_dot hne h),
    splitOn_relativeAt hne h, List.filter_eq_self.2]
  exact fun name hname => by simpa using (h name hname).1.1

theorem trimStart_absolute (h : ∀ name ∈ components, IsName name) :
    trimStart (absolute components) = relativeAt components := by
  rw [absolute_eq_cons hne, trimStart, List.dropWhile_cons_of_pos (by decide)]
  obtain ⟨first, rest, rfl⟩ := List.exists_cons_of_ne_nil hne
  obtain ⟨⟨hfirst, hslash⟩, -⟩ := h first List.mem_cons_self
  obtain ⟨c, cs, rfl⟩ := List.exists_cons_of_ne_nil hfirst
  have hc : c ≠ '/' := fun heq => hslash (by rw [heq]; exact List.mem_cons_self)
  have hcons : ∃ more, relativeAt ((c :: cs) :: rest) = c :: more := by
    unfold relativeAt
    cases rest with
    | nil => exact ⟨cs, List.intercalate_singleton⟩
    | cons next rest => exact ⟨_, by rw [List.intercalate_cons_cons]; rfl⟩
  obtain ⟨more, hmore⟩ := hcons
  rw [hmore, List.dropWhile_cons_of_neg (by simpa using hc)]

theorem pathAt_of_ne_nil :
    pathAt base components = (if base = ['/'] then [] else base) ++ absolute components := if_neg hne

theorem pathAt_ne_root (h : ∀ name ∈ components, IsName name) : pathAt base components ≠ ['/'] := by
  rw [pathAt_of_ne_nil hne, absolute_eq_cons hne]
  intro heq
  have hlen := congrArg List.length heq
  rw [List.length_append, List.length_cons, List.length_singleton] at hlen
  have hpos := List.length_pos_of_ne_nil (relativeAt_ne_nil hne h)
  omega

end

theorem entryPath_pathAt (h : ∀ name ∈ components, IsName name) (name : Path) :
    entryPath (pathAt base components) name = pathAt base (components ++ [name]) := by
  have hconcat : pathAt base (components ++ [name]) =
      (if base = ['/'] then [] else base) ++ (absolute components ++ '/' :: name) := by
    rw [pathAt_of_ne_nil (by simp), absolute_concat]
  rw [hconcat]
  by_cases hne : components = []
  · subst hne
    show entryPath base name = _
    unfold entryPath
    split_ifs with hroot
    · rfl
    · rfl
  · rw [entryPath, if_neg (pathAt_ne_root hne h), pathAt_of_ne_nil hne, List.append_assoc]

theorem normalizePrefixPath_idem (path : Path) :
    normalizePrefixPath (normalizePrefixPath path) = normalizePrefixPath path := by
  unfold normalizePrefixPath
  by_cases hroot : path = ['/']
  · rw [if_pos hroot, if_pos rfl]
  · rw [if_neg hroot, List.rdropWhile_idempotent]
    split_ifs with h
    · exact h.symm
    · rfl

theorem relativeMatchFile_pathAt (hbase : normalizePrefixPath base = base) (hne : components ≠ [])
    (h : ∀ name ∈ components, IsName name) :
    relativeMatchFile base (pathAt base components) = relativeAt components := by
  unfold relativeMatchFile
  dsimp only
  rw [hbase]
  by_cases hroot : base = ['/']
  · rw [if_neg, if_pos hroot, pathAt_of_ne_nil hne, if_pos hroot, List.nil_append, trimStart_absolute hne h]
    rw [hroot]
    exact pathAt_ne_root hne h
  · have hpath : pathAt base components = base ++ absolute components := by
      rw [pathAt_of_ne_nil hne, if_neg hroot]
    have hnot : base ++ absolute components ≠ base := by
      rw [absolute_eq_cons hne]
      intro heq
      exact List.cons_ne_nil _ _ (List.append_right_eq_self.1 heq)
    rw [hpath, if_neg hnot, if_neg hroot, if_pos (List.isPrefixOf_iff_prefix.2 (List.prefix_append _ _)),
      List.drop_left, trimStart_absolute hne h, if_neg (relativeAt_ne_nil hne h)]

theorem atLevel_pathAt (hbase : normalizePrefixPath base = base) (h : ∀ name ∈ components, IsName name)
    (levelLimit : Option ℕ) :
    atLevel levelLimit base (pathAt base components) =
      levelLimit.any fun limit => decide (limit ≤ components.length) := by
  have hdepth : relativeDepth (relativeMatchFile base (pathAt base components)) = components.length := by
    by_cases hne : components = []
    · subst hne
      have hself : relativeMatchFile base (pathAt base []) = ['.'] := by
        unfold relativeMatchFile
        exact if_pos hbase.symm
      rw [hself]
      rfl
    · rw [relativeMatchFile_pathAt hbase hne h, relativeDepth_relativeAt hne h]
  rw [atLevel, hdepth]

end Paths

/-! ## The sorted matches -/

section Matches

variable {readDir : Path → Except Error (List FileInfo)} {lower : Path → Path} {base : Path}
  {showHidden : Bool} {levelLimit : Option ℕ}

/-- The entry of the tree listing for an entry below the root. -/
def treeEntryAt (base : Path) (before : List Path) (x : List Path × FileInfo) : TreeEntry :=
  ⟨pathAt base (before ++ x.1), relativeAt (before ++ x.1), x.2⟩

theorem treeEntry_pathAt (hbase : normalizePrefixPath base = base) {before : List Path}
    (hbefore : ∀ name ∈ before, IsName name) {entry : FileInfo} (hentry : IsName entry.name) :
    treeEntry base (pathAt base before) entry = treeEntryAt base before ([entry.name], entry) := by
  have hall : ∀ name ∈ before ++ [entry.name], IsName name := by
    intro name hname
    rcases List.mem_append.1 hname with hname | hname
    · exact hbefore name hname
    · rw [List.mem_singleton.1 hname]
      exact hentry
  rw [treeEntry, entryPath_pathAt hbefore, relativeMatchFile_pathAt hbase (by simp) hall]
  rfl

variable {depth : ℕ}

/-- The tree listing is the walk in its order without the hidden files. -/
theorem preorder_listingTree (hbase : normalizePrefixPath base = base) {before : List Path}
    (hbefore : ∀ name ∈ before, IsName name) (htree : GlobTree readDir depth (pathAt base before)) :
    preorder (listingTree readDir base showHidden levelLimit (sortDirectoryEntries lower)) depth
        (pathAt base before) =
      ((treeWalk readDir (sortDirectoryEntries lower) levelLimit depth before.length (pathAt base before)).filter
        fun x => !skipped showHidden x.2).map (treeEntryAt base before) := by
  induction depth generalizing before with
  | zero => exact htree.elim
  | succ depth ih =>
    obtain ⟨entries, hread, -, hall⟩ := htree
    rw [treeWalk]
    by_cases hlevel : atLevel levelLimit base (pathAt base before) = true
    · have hlist : (listingTree readDir base showHidden levelLimit (sortDirectoryEntries lower)).list
          (pathAt base before) = .ok [] := if_pos hlevel
      rw [preorder_ok hlist, if_pos (by rwa [atLevel_pathAt hbase hbefore] at hlevel)]
      rfl
    · have hlist : (listingTree readDir base showHidden levelLimit (sortDirectoryEntries lower)).list
          (pathAt base before) = .ok ((sortDirectoryEntries lower entries).filter fun entry =>
            !skipped showHidden entry) := by
        refine (if_neg hlevel).trans ?_
        rw [hread]
        rfl
      rw [preorder_ok hlist, if_neg (by rwa [atLevel_pathAt hbase hbefore] at hlevel), hread]
      dsimp only
      have hsorted : ∀ entry ∈ sortDirectoryEntries lower entries, IsName entry.name ∧
          (entry.isDir = true → GlobTree readDir depth (entryPath (pathAt base before) entry.name)) := by
        intro entry hentry
        obtain ⟨hcomponent, hdot, hsub⟩ := hall entry ((sortDirectoryEntries_perm lower entries).mem_iff.1 hentry)
        exact ⟨⟨hcomponent, hdot⟩, hsub⟩
      generalize sortDirectoryEntries lower entries = sorted at hsorted
      induction sorted with
      | nil => rfl
      | cons entry sorted ihSorted =>
        obtain ⟨hname, hsub⟩ := hsorted entry List.mem_cons_self
        have hrest := ihSorted fun entry hentry => hsorted entry (List.mem_cons_of_mem _ hentry)
        rw [List.flatMap_cons, List.filter_append, List.map_append, ← hrest]
        by_cases hskip : skipped showHidden entry = true
        · have hfile : entry.isDir = false := by
            unfold skipped at hskip
            cases hdir : entry.isDir with
            | false => rfl
            | true =>
              rw [hdir] at hskip
              cases hskip
          rw [List.filter_cons_of_neg (by rw [hskip]; decide), hfile, if_neg Bool.false_ne_true,
            List.filter_cons_of_neg (by dsimp only; rw [hskip]; decide)]
          rfl
        · rw [List.filter_cons_of_pos (by simpa using hskip), List.flatMap_cons]
          congr 1
          have hemit : (listingTree readDir base showHidden levelLimit (sortDirectoryEntries lower)).emit
              (pathAt base before) entry = treeEntryAt base before ([entry.name], entry) :=
            treeEntry_pathAt hbase hbefore hname
          rw [block, hemit, List.filter_cons_of_pos (by simpa using hskip), List.map_cons]
          congr 1
          by_cases hdir : entry.isDir = true
          · have hsub' : (listingTree readDir base showHidden levelLimit (sortDirectoryEntries lower)).sub
                (pathAt base before) entry = some (entryPath (pathAt base before) entry.name) := if_pos hdir
            have hbefore' : ∀ name ∈ before ++ [entry.name], IsName name := by
              intro name hmem
              rcases List.mem_append.1 hmem with hmem | hmem
              · exact hbefore name hmem
              · rw [List.mem_singleton.1 hmem]
                exact hname
            have htree' := hsub hdir
            rw [entryPath_pathAt hbefore] at htree'
            rw [hsub', Option.elim_some, if_pos hdir, entryPath_pathAt hbefore, ih hbefore' htree',
              List.filter_map, List.map_map, List.length_append, List.length_singleton]
            refine List.map_congr_left fun x _ => ?_
            show treeEntryAt base (before ++ [entry.name]) x = treeEntryAt base before (entry.name :: x.1, x.2)
            unfold treeEntryAt
            dsimp only
            rw [List.append_assoc, List.singleton_append]
          · have hsub' : (listingTree readDir base showHidden levelLimit (sortDirectoryEntries lower)).sub
                (pathAt base before) entry = none := if_neg hdir
            rw [hsub', Option.elim_none, if_neg hdir]
            rfl

/-- Every directory of a tree can be read. -/
theorem GlobTree.not_blocked {path : Path} (htree : GlobTree readDir depth path) (room : Option ℕ) :
    ¬ Blocked (listingTree readDir base showHidden levelLimit (sortDirectoryEntries lower)) depth room path := by
  induction depth generalizing room path with
  | zero => exact htree.elim
  | succ depth ih =>
    obtain ⟨entries, hread, -, hall⟩ := htree
    by_cases hlevel : atLevel levelLimit base path = true
    · have hlist : (listingTree readDir base showHidden levelLimit (sortDirectoryEntries lower)).list path =
          .ok [] := if_pos hlevel
      rw [blocked_ok hlist]
      exact fun h => h.2
    · have hlist : (listingTree readDir base showHidden levelLimit (sortDirectoryEntries lower)).list path =
          .ok ((sortDirectoryEntries lower entries).filter fun entry => !skipped showHidden entry) := by
        refine (if_neg hlevel).trans ?_
        rw [hread]
        rfl
      rw [blocked_ok hlist]
      rintro ⟨-, hblocked⟩
      have hsorted : ∀ entry ∈ (sortDirectoryEntries lower entries).filter fun entry =>
          !skipped showHidden entry, entry.isDir = true → GlobTree readDir depth (entryPath path entry.name) :=
        fun entry hentry => (hall entry
          ((sortDirectoryEntries_perm lower entries).mem_iff.1 (List.mem_of_mem_filter hentry))).2.2
      generalize ((sortDirectoryEntries lower entries).filter fun entry => !skipped showHidden entry) = items
        at hsorted hblocked
      induction items generalizing room with
      | nil => exact hblocked
      | cons item items ihItems =>
        rw [BlockedItems] at hblocked
        rcases hblocked with ⟨m, hm, hblocked⟩ | hblocked
        · have hm' : (if item.isDir then some (entryPath path item.name) else none) = some m := hm
          split_ifs at hm' with hdir
          obtain rfl := Option.some.inj hm'
          exact ih (hsorted item List.mem_cons_self hdir) _ hblocked
        · exact ihItems _ (fun entry hentry => hsorted entry (List.mem_cons_of_mem _ hentry)) hblocked

theorem treeDirectory_eq (hbase : normalizePrefixPath base = base) (htree : GlobTree readDir depth base) :
    treeDirectoryInternal readDir lower base showHidden none levelLimit depth base [] =
      some (.ok (((treeWalk readDir (sortDirectoryEntries lower) levelLimit depth 0 base).filter
        fun x => !skipped showHidden x.2).map (treeEntryAt base []))) := by
  have hfits : Fits (listingTree readDir base showHidden levelLimit id) depth base := htree.dirTree.fits
  have hreorders : Reorders (listingTree readDir base showHidden levelLimit id)
      (listingTree readDir base showHidden levelLimit (sortDirectoryEntries lower)) := listingTree_reorders
  have hpre : preorder (listingTree readDir base showHidden levelLimit (sortDirectoryEntries lower)) depth base =
      ((treeWalk readDir (sortDirectoryEntries lower) levelLimit depth 0 base).filter
        fun x => !skipped showHidden x.2).map (treeEntryAt base []) :=
    preorder_listingTree hbase (fun _ h => absurd h List.not_mem_nil) htree
  rw [treeDirectoryInternal_eq]
  rcases walk_spec none (hreorders.fits hfits) [] with ⟨hblocked, -⟩ | ⟨-, hok⟩
  · exact absurd hblocked (htree.not_blocked _)
  · rw [hok]
    exact congrArg (fun entries => some (Except.ok entries)) hpre

end Matches

/-! ## One list -/

section Lists

variable {readDir : Path → Except Error (List FileInfo)} {lower : Path → Path} {q : GlobQuery}
  {matcher : Path → Bool} {depth : ℕ}

/-- What both ways of paging give out. -/
def allMatches (readDir : Path → Except Error (List FileInfo)) (q : GlobQuery) (matcher : Path → Bool)
    (depth : ℕ) : List GlobEntry :=
  ((treeWalk readDir sortByName q.effectiveGlobMaxDepth depth 0 q.basePath).filter (wanted q matcher)).map
    (entryAt q.basePath)

/-- The matcher accepts nothing deeper than its pattern. -/
def Shallow (q : GlobQuery) (matcher : Path → Bool) : Prop :=
  ∀ relPath, matcher relPath = true → ∀ depth, globStaticMaxDepth q.pattern = some depth →
    (splitSegments relPath).length ≤ depth

theorem mem_walk_wanted (hshallow : Shallow q matcher) (htree : GlobTree readDir depth q.basePath)
    (x : List Path × FileInfo) :
    x ∈ (treeWalk readDir sortByName q.effectiveGlobMaxDepth depth 0 q.basePath).filter (wanted q matcher) ↔
      Holds readDir q.basePath x.1 x.2 ∧ (∀ level, q.levelLimit = some level → x.1.length ≤ level) ∧
        wanted q matcher x = true := by
  rw [List.mem_filter, mem_treeWalk sortByName_perm 0 htree, and_assoc]
  refine and_congr_right fun hholds => and_congr_left fun hwanted => ?_
  simp only [Nat.zero_add]
  have hpattern : ∀ d, globStaticMaxDepth q.pattern = some d → x.1.length ≤ d := by
    intro d hd
    have hmatch : matcher (relativeAt x.1) = true := by
      unfold wanted at hwanted
      rw [Bool.and_eq_true] at hwanted
      exact hwanted.2
    have hle := hshallow _ hmatch d hd
    rwa [splitSegments_relativeAt (htree.names hholds)] at hle
  unfold GlobQuery.effectiveGlobMaxDepth
  cases hstatic : globStaticMaxDepth q.pattern with
  | none =>
    cases q.levelLimit with
    | none => simp
    | some level => simp
  | some d =>
    have hd := hpattern d hstatic
    cases q.levelLimit with
    | none => simpa using hd
    | some level => simpa using fun _ => hd

theorem nodup_of_sorted {l : List (List Path × FileInfo)}
    (h : l.Pairwise fun x y => compare x.1 y.1 = .lt) : l.Nodup := by
  refine h.imp fun {x y} hlt heq => ?_
  rw [heq, Std.ReflOrd.compare_self] at hlt
  cases hlt

/-- Down to the level limit or down to the depth of the pattern, the same entries match. -/
theorem filter_treeWalk (hshallow : Shallow q matcher) (htree : GlobTree readDir depth q.basePath) :
    ((treeWalk readDir (sortDirectoryEntries lower) q.levelLimit depth 0 q.basePath).filter
        (wanted q matcher)).Perm
      ((treeWalk readDir sortByName q.effectiveGlobMaxDepth depth 0 q.basePath).filter (wanted q matcher)) := by
  refine ((treeWalk_perm (sortDirectoryEntries_perm lower) sortByName_perm depth 0 q.basePath).filter _).trans ?_
  refine (List.perm_ext_iff_of_nodup ((nodup_of_sorted (treeWalk_sorted 0 htree)).filter _)
    ((nodup_of_sorted (treeWalk_sorted 0 htree)).filter _)).2 fun x => ?_
  rw [mem_walk_wanted hshallow htree, List.mem_filter, mem_treeWalk sortByName_perm 0 htree, and_assoc]
  simp only [Nat.zero_add]

theorem allMatches_sorted (htree : GlobTree readDir depth q.basePath) :
    (allMatches readDir q matcher depth).Pairwise fun left right =>
      compareRelPaths left.relPath right.relPath = .lt := by
  unfold allMatches
  rw [List.pairwise_map]
  refine ((treeWalk_sorted 0 htree).filter _).imp_of_mem fun {x y} hx hy hlt => ?_
  have hnames : ∀ z ∈ (treeWalk readDir sortByName q.effectiveGlobMaxDepth depth 0 q.basePath).filter
      (wanted q matcher), ∀ name ∈ z.1, IsName name := fun z hz =>
    htree.names ((mem_treeWalk sortByName_perm 0 htree z).1 (List.mem_of_mem_filter hz)).1
  show compareRelPaths (relativeAt x.1) (relativeAt y.1) = .lt
  rw [compareRelPaths_relativeAt (hnames x hx) (hnames y hy)]
  exact hlt

theorem compareRelPaths_eq_symm {left right : Path} (h : compareRelPaths left right = .eq) :
    compareRelPaths right left = .eq := by
  unfold compareRelPaths at h ⊢
  exact Std.OrientedCmp.eq_symm h

/-- A list that goes up is what sorting makes of it in any order. -/
theorem sortMatched_eq {matched sorted : List GlobEntry} (hperm : matched.Perm sorted)
    (hsorted : sorted.Pairwise fun left right => compareRelPaths left.relPath right.relPath = .lt) :
    sortMatched matched = sorted := by
  have hle := insertionSort_sorted (fun entry : GlobEntry => splitSegments entry.relPath) matched
  have hsame : (sortMatched matched).Perm sorted := (List.perm_insertionSort _ _).trans hperm
  refine List.Perm.eq_of_pairwise (fun a b ha hb hab hba => ?_) hle (hsorted.imp fun {a b} hlt => ?_) hsame
  · -- two that are not apart are one
    by_contra hne
    have happart : sorted.Pairwise fun left right => compareRelPaths left.relPath right.relPath ≠ .eq :=
      hsorted.imp fun {left right} hlt heq => by
        rw [hlt] at heq
        cases heq
    have hsymm : Std.Symm fun left right : GlobEntry => compareRelPaths left.relPath right.relPath ≠ .eq :=
      ⟨fun left right h heq => h (compareRelPaths_eq_symm heq)⟩
    refine happart.forall (hsame.mem_iff.1 ha) hb hne ?_
    rw [ne_eq, Ordering.ne_gt_iff_isLE] at hab hba
    show compare (splitSegments a.relPath) (splitSegments b.relPath) = .eq
    exact Std.OrientedCmp.isLE_antisymm hab hba
  · rw [show compare (splitSegments a.relPath) (splitSegments b.relPath) = .lt from hlt]
    exact nofun

end Lists

end OpenViking.Ragfs
