import OpenViking.Ragfs.TreeListing

/-!
# The visible entries of a tree

`VikingFS._iter_visible_tree_entries` (`openviking/storage/viking_fs.py`, 2437-2519) asks
`MountableFS::tree_directory` (`crates/ragfs/src/core/mountable.rs`, 875-914) through the binding
(`crates/ragfs-python/src/lib.rs`, 1642-1656) for a page that is larger than its limit, keeps what the caller
may see, and asks again for twice as much if that was too little and the page was full.

Deviation: the mounts take the lock markers out of a page that the file system has already cut, so that a page
with a marker is never full, and what comes after it is not asked for.  The binding takes limits of 32 bits,
and a call with a larger one raises.

Results:

* `listedOn_take`: a page is the beginning of the listing, without the markers in it;
* `iterVisible_iff`: when a limited listing is the beginning of the unlimited one.
-/

namespace OpenViking.Ragfs

open Room BoundedWalk

/-! ## Model -/

/-- `PATH_LOCK_FILE`. -/
def pathLockFile : Path := ".path.ovlock".toList

/-- The path of an entry, under its mount (898-905). -/
def mounted (mountPath : Path) (entry : TreeEntry) : TreeEntry :=
  if mountPath = ['/'] then entry
  else { entry with path := if entry.path = ['/'] then mountPath else mountPath ++ entry.path }

/-- The last part of the path is not that of a lock marker (908-911). -/
def notMarker (entry : TreeEntry) : Bool :=
  decide ((entry.path.reverse.takeWhile (· ≠ '/')).reverse ≠ pathLockFile)

/-- The entries that a mount shows of those its file system gives (894-913). -/
def shown (mountPath : Path) (entries : List TreeEntry) : List TreeEntry :=
  (entries.map (mounted mountPath)).filter notMarker

/-- The body of the loop over a page (2490-2503); the URI of an entry goes with it and is left out. -/
def collectVisible (visible : TreeEntry → Bool) (nodeLimit : Option ℕ) :
    List TreeEntry → List TreeEntry → List TreeEntry
  | [], seen => seen
  | entry :: raw, seen =>
    if reached nodeLimit seen.length then seen
    else if visible entry then collectVisible visible nodeLimit raw (seen ++ [entry])
    else collectVisible visible nodeLimit raw seen

/-- `_TREE_OVERFETCH_FACTOR`. -/
def treeOverfetchFactor : ℕ := 4

/-- The limit of the first page (2476-2479). -/
def firstRawLimit (nodeLimit : Option ℕ) : Option ℕ :=
  nodeLimit.map fun limit => max (limit * treeOverfetchFactor) limit

/-- An argument that the binding takes as `Option<i32>` can be converted. -/
def fitsI32 (limit : Option ℕ) : Bool := limit.all fun n => decide (n < 2 ^ 31)

theorem fitsI32_some {n : ℕ} : fitsI32 (some n) = true ↔ n < 2 ^ 31 := decide_eq_true_iff

/-- What a call of the binding raises: `OverflowError`, or what the file system does. -/
inductive BindingError (E : Type*) where
  | overflow
  | backend (err : E)
  deriving DecidableEq

section Model

variable {E : Type*} (readDir : Path → Except E (List FileInfo)) (lower : Path → Path)
  (mountPath relPath : Path) (showHidden : Bool) (levelLimit : Option ℕ)

/-- `MountableFS::tree_directory` (875-914), for a path of a mount, of a tree at most so deep. -/
def mountTreeDirectory (depth : ℕ) (nodeLimit : Option ℕ) : Option (Except E (List TreeEntry)) :=
  (treeDirectoryInternal readDir lower (normalizePrefixPath relPath) showHidden nodeLimit levelLimit depth
    (normalizePrefixPath relPath) []).map fun listed => listed.map (shown mountPath)

/-- `tree_directory` of the binding. -/
def bindingTreeDirectory (depth : ℕ) (nodeLimit : Option ℕ) : Option (Except (BindingError E) (List TreeEntry)) :=
  if fitsI32 nodeLimit && fitsI32 levelLimit then
    (mountTreeDirectory readDir lower mountPath relPath showHidden levelLimit depth nodeLimit).map
      (Except.mapError .backend)
  else some (.error .overflow)

end Model

/-- The loop of `_iter_visible_tree_entries` (2481-2519), at most so many pages. -/
def iterVisibleTreeEntries {E : Type*} (page : Option ℕ → Option (Except E (List TreeEntry)))
    (visible : TreeEntry → Bool) (nodeLimit : Option ℕ) : ℕ → Option ℕ → Option (Except E (List TreeEntry))
  | 0, _ => none
  | pages + 1, rawLimit =>
    match page rawLimit with
    | some (.ok raw) =>
      let seen := collectVisible visible nodeLimit raw []
      let needMore := nodeLimit.any (fun limit => decide (seen.length < limit)) &&
        rawLimit.any fun limit => decide (limit ≤ raw.length)
      if needMore then
        iterVisibleTreeEntries page visible nodeLimit pages (rawLimit.map fun limit => limit * 2)
      else some (.ok seen)
    | stop => stop

/-! ## One page -/

theorem collectVisible_eq (visible : TreeEntry → Bool) (nodeLimit : Option ℕ) (raw seen : List TreeEntry) :
    collectVisible visible nodeLimit raw seen =
      seen ++ takeRoom (spend nodeLimit seen.length) (raw.filter visible) := by
  induction raw generalizing seen with
  | nil => rw [collectVisible, List.filter_nil, takeRoom_nil, List.append_nil]
  | cons entry raw ih =>
    rw [collectVisible]
    by_cases hreached : reached nodeLimit seen.length = true
    · rw [if_pos hreached, (reached_iff _ _).1 hreached, takeRoom_zero, List.append_nil]
    · have hroom : spend nodeLimit seen.length ≠ some 0 := fun h => hreached ((reached_iff _ _).2 h)
      rw [if_neg hreached, ih, ih]
      by_cases hvisible : visible entry = true
      · rw [if_pos hvisible, List.filter_cons_of_pos hvisible, takeRoom_cons hroom, spend_spend,
          List.length_append, List.append_assoc]
        rfl
      · rw [if_neg hvisible, List.filter_cons_of_neg hvisible]

section Binding

variable {E : Type*} {readDir : Path → Except E (List FileInfo)} {lower : Path → Path}
  {mountPath relPath : Path} {showHidden : Bool} {levelLimit limit : Option ℕ} {depth : ℕ} {all : List TreeEntry}

theorem bindingTreeDirectory_overflow (h : (fitsI32 limit && fitsI32 levelLimit) = false) :
    bindingTreeDirectory readDir lower mountPath relPath showHidden levelLimit depth limit =
      some (.error .overflow) := by
  rw [bindingTreeDirectory, h]
  rfl

/-- Where the whole tree can be listed, a page is its beginning, without the markers in it. -/
theorem listedOn_take (mountPath : Path) (htree : DirTree readDir depth (normalizePrefixPath relPath))
    (hall : treeDirectoryInternal readDir lower (normalizePrefixPath relPath) showHidden none levelLimit depth
      (normalizePrefixPath relPath) [] = some (.ok all)) (hlevel : fitsI32 levelLimit = true)
    (hlimit : fitsI32 limit = true) :
    bindingTreeDirectory readDir lower mountPath relPath showHidden levelLimit depth limit =
      some (.ok ((takeRoom limit (all.map (mounted mountPath))).filter notMarker)) := by
  have hfits : Fits (listingTree readDir (normalizePrefixPath relPath) showHidden levelLimit
      (sortDirectoryEntries lower)) depth (normalizePrefixPath relPath) :=
    listingTree_reorders.fits htree.fits
  rw [treeDirectoryInternal_eq] at hall
  rw [bindingTreeDirectory, hlimit, hlevel, mountTreeDirectory, treeDirectoryInternal_eq,
    walk_take hfits hall limit]
  cases limit with
  | none => rfl
  | some limit =>
    show some (Except.ok (shown mountPath (all.take limit))) = _
    rw [shown, List.map_take]
    rfl

end Binding

/-! ## The pages -/

section Pages

variable {E : Type*} {page : Option ℕ → Option (Except E (List TreeEntry))} {visible : TreeEntry → Bool}
  {entries : List TreeEntry} {n k : ℕ}

/-- The limit of each page. -/
def rawLimitAt (n k : ℕ) : ℕ := n * treeOverfetchFactor * 2 ^ k

/-- An entry is yielded. -/
def yielded (visible : TreeEntry → Bool) (entry : TreeEntry) : Bool := visible entry && notMarker entry

/-- A page that is full of entries, too few of which are visible. -/
def NeedMore (visible : TreeEntry → Bool) (entries : List TreeEntry) (n k : ℕ) : Prop :=
  ((entries.take (rawLimitAt n k)).filter (yielded visible)).length < n ∧
    rawLimitAt n k ≤ ((entries.take (rawLimitAt n k)).filter notMarker).length

theorem iterVisible_none (visible : TreeEntry → Bool) (hpage : page none = some (.ok (entries.filter notMarker))) :
    iterVisibleTreeEntries page visible none 1 none = some (.ok (entries.filter (yielded visible))) := by
  rw [iterVisibleTreeEntries, hpage]
  simp only [collectVisible_eq, List.filter_filter]
  rfl

theorem iterVisible_page
    (hpage : page (some (rawLimitAt n k)) = some (.ok ((entries.take (rawLimitAt n k)).filter notMarker)))
    (pages : ℕ) :
    (NeedMore visible entries n k → iterVisibleTreeEntries page visible (some n) (pages + 1)
        (some (rawLimitAt n k)) =
      iterVisibleTreeEntries page visible (some n) pages (some (rawLimitAt n (k + 1)))) ∧
    (¬ NeedMore visible entries n k → iterVisibleTreeEntries page visible (some n) (pages + 1)
        (some (rawLimitAt n k)) =
      some (.ok (((entries.take (rawLimitAt n k)).filter (yielded visible)).take n))) := by
  have hdouble : rawLimitAt n (k + 1) = rawLimitAt n k * 2 := by
    rw [rawLimitAt, rawLimitAt, pow_succ, mul_assoc, mul_assoc, mul_assoc]
  have hseen : ∀ raw : List TreeEntry, collectVisible visible (some n) (raw.filter notMarker) [] =
      (raw.filter (yielded visible)).take n := by
    intro raw
    rw [collectVisible_eq, List.filter_filter]
    rfl
  have hneed : (decide ((((entries.take (rawLimitAt n k)).filter (yielded visible)).take n).length < n) &&
      decide (rawLimitAt n k ≤ ((entries.take (rawLimitAt n k)).filter notMarker).length)) = true ↔
        NeedMore visible entries n k := by
    rw [Bool.and_eq_true, decide_eq_true_eq, decide_eq_true_eq, List.length_take, NeedMore, min_lt_iff,
      or_iff_right (lt_irrefl n)]
  rw [iterVisibleTreeEntries, hpage, hdouble]
  dsimp only [Option.any_some, Option.map_some]
  rw [hseen]
  exact ⟨fun h => if_pos (hneed.2 h), fun h => if_neg (hneed.not.2 h)⟩

theorem iterVisible_pages
    (hpage : ∀ j < k, page (some (rawLimitAt n j)) =
      some (.ok ((entries.take (rawLimitAt n j)).filter notMarker)))
    (hneed : ∀ j < k, NeedMore visible entries n j) (pages : ℕ) :
    iterVisibleTreeEntries page visible (some n) (k + pages) (some (rawLimitAt n 0)) =
      iterVisibleTreeEntries page visible (some n) pages (some (rawLimitAt n k)) := by
  induction k generalizing pages with
  | zero => rw [Nat.zero_add]
  | succ k ih =>
    rw [Nat.add_right_comm, Nat.add_assoc, ih (fun j hj => hpage j (by omega)) (fun j hj => hneed j (by omega))]
    exact (iterVisible_page (hpage k k.lt_succ_self) pages).1 (hneed k k.lt_succ_self)

theorem rawLimitAt_le {j : ℕ} (h : j ≤ k) : rawLimitAt n j ≤ rawLimitAt n k :=
  Nat.mul_le_mul_left _ (Nat.pow_le_pow_right (by decide) h)

/-- Some page is the last one. -/
theorem exists_last (visible : TreeEntry → Bool) (entries : List TreeEntry) (hn : 0 < n) :
    ∃ k, ¬ NeedMore visible entries n k ∧ ∀ j < k, NeedMore visible entries n j := by
  classical
  have hstop : ∃ k, ¬ NeedMore visible entries n k := by
    refine ⟨entries.length, fun h => ?_⟩
    have hle := h.2.trans (List.length_filter_le ..)
    have hlt : entries.length < rawLimitAt n entries.length := calc
      entries.length < 2 ^ entries.length := Nat.lt_two_pow_self
      _ ≤ rawLimitAt n entries.length := Nat.le_mul_of_pos_left _ (Nat.mul_pos hn (by decide))
    rw [List.length_take] at hle
    omega
  exact ⟨Nat.find hstop, Nat.find_spec hstop, fun j hj => not_not.1 (Nat.find_min hstop hj)⟩

/-- Of the listing, the pages give what is asked for or all that is visible. -/
def Suffices (visible : TreeEntry → Bool) (entries : List TreeEntry) (n k : ℕ) : Prop :=
  n ≤ ((entries.take (rawLimitAt n k)).filter (yielded visible)).length ∨
    ∀ entry ∈ entries.drop (rawLimitAt n k), yielded visible entry = false

/-- The first page in which there is a lock marker holds enough visible entries, or no visible entry
comes after it. -/
def MarkersHideNone (visible : TreeEntry → Bool) (entries : List TreeEntry) (n : ℕ) : Prop :=
  ∀ k, (∃ entry ∈ entries.take (rawLimitAt n k), notMarker entry = false) →
    (∀ j < k, ∀ entry ∈ entries.take (rawLimitAt n j), notMarker entry = true) →
    Suffices visible entries n k

/-- A page is full exactly if it is not the rest of the listing and has no marker. -/
theorem full_iff : rawLimitAt n k ≤ ((entries.take (rawLimitAt n k)).filter notMarker).length ↔
    rawLimitAt n k ≤ entries.length ∧ ∀ entry ∈ entries.take (rawLimitAt n k), notMarker entry = true := by
  have hle := List.length_filter_le notMarker (entries.take (rawLimitAt n k))
  rw [← List.length_filter_eq_length_iff]
  rw [List.length_take] at hle ⊢
  omega

/-- Some page whose limit the binding takes is enough, or is not full. -/
def LimitsFit (visible : TreeEntry → Bool) (entries : List TreeEntry) (n : ℕ) : Prop :=
  ∃ k, rawLimitAt n k < 2 ^ 31 ∧
    (n ≤ ((entries.take (rawLimitAt n k)).filter (yielded visible)).length ∨
      entries.length < rawLimitAt n k ∨ ∃ entry ∈ entries.take (rawLimitAt n k), notMarker entry = false)

theorem limitsFit_iff (hlast : ¬ NeedMore visible entries n k) (hneed : ∀ j < k, NeedMore visible entries n j) :
    LimitsFit visible entries n ↔ rawLimitAt n k < 2 ^ 31 := by
  have hstop : ∀ j, ¬ NeedMore visible entries n j ↔
      n ≤ ((entries.take (rawLimitAt n j)).filter (yielded visible)).length ∨
        entries.length < rawLimitAt n j ∨ ∃ entry ∈ entries.take (rawLimitAt n j), notMarker entry = false := by
    intro j
    rw [NeedMore, full_iff, not_and_or, not_and_or, not_lt, not_le]
    simp
  refine ⟨fun ⟨j, hlimit, hj⟩ => ?_, fun hlimit => ⟨k, hlimit, (hstop k).1 hlast⟩⟩
  have hkj : k ≤ j := not_lt.1 fun hjk => (hstop j).2 hj (hneed j hjk)
  exact (rawLimitAt_le hkj).trans_lt hlimit

theorem markersHideNone_iff (hlast : ¬ NeedMore visible entries n k)
    (hneed : ∀ j < k, NeedMore visible entries n j) :
    MarkersHideNone visible entries n ↔ Suffices visible entries n k := by
  refine ⟨fun h => ?_, fun h i hmarker hfree => ?_⟩
  · by_cases hall : ∀ entry ∈ entries.take (rawLimitAt n k), notMarker entry = true
    · -- without a marker the last page is not full because the listing is at its end
      refine or_iff_not_imp_left.2 fun hfew => ?_
      have hend : ¬ rawLimitAt n k ≤ entries.length :=
        fun hle => hlast ⟨Nat.not_le.1 hfew, full_iff.2 ⟨hle, hall⟩⟩
      rw [List.drop_eq_nil_of_le (by omega)]
      exact fun entry hentry => absurd hentry List.not_mem_nil
    · push Not at hall
      refine h k ?_ fun j hj => (full_iff.1 (hneed j hj).2).2
      simpa using hall
  · rcases Nat.lt_trichotomy i k with hlt | rfl | hgt
    · obtain ⟨entry, hentry, hfalse⟩ := hmarker
      rw [(full_iff.1 (hneed i hlt).2).2 entry hentry] at hfalse
      cases hfalse
    · exact h
    · -- the last page had no marker, so it was enough or the end
      rcases h with henough | hrest
      · exact .inl (henough.trans ((List.take_sublist_take_left (rawLimitAt_le hgt.le)).filter _).length_le)
      · exact .inr fun entry hentry => hrest entry ((List.drop_sublist_drop_left _ (rawLimitAt_le hgt.le)).mem hentry)

theorem iterVisible_succ {nodeLimit rawLimit : Option ℕ} {pages : ℕ} {r : Except E (List TreeEntry)}
    (h : iterVisibleTreeEntries page visible nodeLimit pages rawLimit = some r) :
    iterVisibleTreeEntries page visible nodeLimit (pages + 1) rawLimit = some r := by
  induction pages generalizing rawLimit with
  | zero => cases h
  | succ pages ih =>
    rw [iterVisibleTreeEntries] at h ⊢
    split at h
    · dsimp only at h ⊢
      split_ifs at h ⊢
      · exact ih h
      · exact h
    · exact h

end Pages

/-! ## The whole listing -/

section Yields

variable {E : Type*} (readDir : Path → Except E (List FileInfo)) (lower : Path → Path)
  (mountPath relPath : Path) (showHidden : Bool) (levelLimit : Option ℕ) (depth : ℕ)
  (visible : TreeEntry → Bool)

/-- What `_iter_visible_tree_entries` yields over a mount, or raises. -/
def YieldsVisible (nodeLimit : Option ℕ) (r : Except (BindingError E) (List TreeEntry)) : Prop :=
  ∃ pages, iterVisibleTreeEntries
    (bindingTreeDirectory readDir lower mountPath relPath showHidden levelLimit depth) visible nodeLimit pages
    (firstRawLimit nodeLimit) = some r

section Once

variable {readDir lower mountPath relPath showHidden levelLimit depth visible} {nodeLimit : Option ℕ}
  {all : List TreeEntry} {n k : ℕ}

/-- What is yielded, or raised, is determined. -/
theorem yieldsVisible_iff {r : Except (BindingError E) (List TreeEntry)}
    (hr : YieldsVisible readDir lower mountPath relPath showHidden levelLimit depth visible nodeLimit r)
    (r' : Except (BindingError E) (List TreeEntry)) :
    YieldsVisible readDir lower mountPath relPath showHidden levelLimit depth visible nodeLimit r' ↔ r' = r := by
  refine ⟨fun hr' => ?_, fun h => h ▸ hr⟩
  obtain ⟨pages, h⟩ := hr
  obtain ⟨pages', h'⟩ := hr'
  exact returns_unique (f := fun pages => iterVisibleTreeEntries _ visible nodeLimit pages _)
    (fun _ _ => iterVisible_succ) h' h

/-- Where the limits of the pages fit, the last page is yielded; otherwise the first that does not raises. -/
theorem yields_limited (hpage : ∀ {limit}, fitsI32 limit = true →
      bindingTreeDirectory readDir lower mountPath relPath showHidden levelLimit depth limit =
        some (.ok ((takeRoom limit all).filter notMarker)))
    (hlast : ¬ NeedMore visible all n k) (hneed : ∀ j < k, NeedMore visible all n j) :
    YieldsVisible readDir lower mountPath relPath showHidden levelLimit depth visible (some n)
      (if rawLimitAt n k < 2 ^ 31 then .ok (((all.take (rawLimitAt n k)).filter (yielded visible)).take n)
        else .error .overflow) := by
  have hfirst : firstRawLimit (some n) = some (rawLimitAt n 0) := by
    show some (max (n * 4) n) = some (n * 4 * 2 ^ 0)
    rw [max_eq_left (by omega), pow_zero, mul_one]
  rw [YieldsVisible, hfirst]
  split_ifs with hfits
  · refine ⟨k + 1, ?_⟩
    rw [iterVisible_pages
      (fun j hj => hpage (fitsI32_some.2 ((rawLimitAt_le hj.le).trans_lt hfits))) hneed 1]
    exact (iterVisible_page (hpage (fitsI32_some.2 hfits)) 0).2 hlast
  · classical
    have hlarge : ∃ j, ¬ rawLimitAt n j < 2 ^ 31 := ⟨k, hfits⟩
    have hle : Nat.find hlarge ≤ k := Nat.find_min' hlarge hfits
    refine ⟨Nat.find hlarge + 1, ?_⟩
    rw [iterVisible_pages (fun j hj => hpage (fitsI32_some.2 (not_not.1 (Nat.find_min hlarge hj))))
      (fun j hj => hneed j (hj.trans_le hle)) 1, iterVisibleTreeEntries, bindingTreeDirectory_overflow]
    rw [Bool.and_eq_false_iff]
    exact .inl (decide_eq_false (Nat.find_spec hlarge))

end Once

/-- **When a limited listing is the beginning of the unlimited one.**  Over a tree that can be listed both
end, and the limited one yields the first entries of the other exactly when the limits can be converted and no
visible entry is hidden by a page with a lock marker. -/
theorem iterVisible_iff (htree : DirTree readDir depth (normalizePrefixPath relPath)) {all : List TreeEntry}
    (hall : treeDirectoryInternal readDir lower (normalizePrefixPath relPath) showHidden none levelLimit depth
      (normalizePrefixPath relPath) [] = some (.ok all)) {n : ℕ} (hn : 0 < n) :
    let yields := YieldsVisible readDir lower mountPath relPath showHidden levelLimit depth visible
    (∃ r, yields (some n) r) ∧ (∃ r, yields none r) ∧
    ((∃ unlimited, yields none (.ok unlimited) ∧ ∀ r, yields (some n) r → r = .ok (unlimited.take n)) ↔
      fitsI32 levelLimit = true ∧ LimitsFit visible (all.map (mounted mountPath)) n ∧
        MarkersHideNone visible (all.map (mounted mountPath)) n) := by
  intro yields
  by_cases hlevel : fitsI32 levelLimit = true
  · have hpage {limit} (hlimit : fitsI32 limit = true) := listedOn_take mountPath htree hall hlevel hlimit
    obtain ⟨k, hlast, hneed⟩ := exists_last visible (all.map (mounted mountPath)) hn
    have hlimited : yields (some n) _ := yields_limited hpage hlast hneed
    have hunlimited : yields none _ := ⟨1, iterVisible_none visible (hpage rfl)⟩
    refine ⟨⟨_, hlimited⟩, ⟨_, hunlimited⟩, ?_⟩
    simp only [yields, yieldsVisible_iff hlimited, yieldsVisible_iff hunlimited, Except.ok.injEq,
      exists_eq_left, forall_eq]
    rw [limitsFit_iff hlast hneed, markersHideNone_iff hlast hneed, Suffices, ← take_filter_take_iff]
    split_ifs with hfits
    · rw [Except.ok.injEq, and_iff_right hlevel, and_iff_right hfits]
      exact Iff.rfl
    · exact iff_of_false (fun h => by cases h) fun h => hfits h.2.1
  · -- the first page raises already
    have hoverflow : ∀ nodeLimit, yields nodeLimit (.error .overflow) := fun nodeLimit => by
      refine ⟨1, ?_⟩
      rw [iterVisibleTreeEntries, bindingTreeDirectory_overflow]
      rw [Bool.eq_false_iff.2 hlevel, Bool.and_false]
    refine ⟨⟨_, hoverflow _⟩, ⟨_, hoverflow _⟩, iff_of_false ?_ fun h => hlevel h.1⟩
    rintro ⟨unlimited, hunlimited, -⟩
    cases (yieldsVisible_iff (hoverflow none) _).1 hunlimited

end Yields

/-- A lock marker, three files and a fourth. -/
def lockedRoot (path : Path) : Except Unit (List FileInfo) :=
  if path = ['/'] then .ok ([pathLockFile, ['a'], ['b'], ['c'], ['d']].map fun name => ⟨name, 0, 0o644, false⟩)
  else .error ()

/-- The visible file is the one with this name. -/
def named (name : Path) (entry : TreeEntry) : Bool := decide (entry.info.name = name)

theorem dirTree_lockedRoot : DirTree lockedRoot 1 ['/'] := by
  intro entries hentries entry hentry hdir
  obtain rfl := Except.ok.inj hentries
  obtain ⟨name, _, rfl⟩ := List.mem_map.1 hentry
  cases hdir

/-- One visible entry is asked for, of a root whose first file is visible. -/
theorem iterVisible_lockedRoot :
    ∃ unlimited, YieldsVisible lockedRoot id ['/'] ['/'] true none 1 (named ['a']) none (.ok unlimited) ∧
      ∀ r, YieldsVisible lockedRoot id ['/'] ['/'] true none 1 (named ['a']) (some 1) r →
        r = .ok (unlimited.take 1) := by
  refine (iterVisible_iff lockedRoot id ['/'] ['/'] true none 1 (named ['a']) dirTree_lockedRoot rfl one_pos).2.2.2
    ⟨rfl, ⟨0, by decide, .inl (by decide)⟩, fun k _ _ => .inl ?_⟩
  exact le_trans (by decide)
    ((List.take_sublist_take_left (rawLimitAt_le (Nat.zero_le k))).filter _).length_le

/-- If only the last file is visible, it is not found: the marker is one of the first four entries. -/
theorem iterVisible_fails :
    YieldsVisible lockedRoot id ['/'] ['/'] true none 1 (named ['d']) (some 1) (.ok []) ∧
    YieldsVisible lockedRoot id ['/'] ['/'] true none 1 (named ['d']) none
      (.ok [⟨['/', 'd'], ['d'], ⟨['d'], 0, 0o644, false⟩⟩]) :=
  ⟨⟨1, by decide⟩, ⟨1, by decide⟩⟩

end OpenViking.Ragfs
