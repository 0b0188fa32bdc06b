import OpenViking.Common.System
import OpenViking.Git.EditorUpdates
import OpenViking.Git.EditorWrite

/-!
# The tree editor as a path map

Sequences of `upsert` and `remove` calls on `TreeEditor` (`crates/ragfs/src/git/tree_builder.rs`),
compared with the same updates of a map from paths to files.

Two things go wrong.  A directory that another entry replaced, or that was removed, stays in the side
table, and a later `upsert` below it takes it for the directory it means.  And `write_subtree` decides
that a directory is empty before it has written what is below it, so that a directory whose last file
went from below a directory of it is written as an empty tree.  Results:

* `Inv.upsert`, `Inv.remove`: what one call keeps when neither happens;
* `writes_pathMap`: then the written tree is that of the path map.
-/

namespace OpenViking.Git

variable {O : Type*}

/-! ## Path maps -/

/-- A map from paths to files. -/
abbrev PathMap (O : Type*) := List String → Option O

/-- A call that updates the tree, with the directories above the path and its last component. -/
inductive TreeOp (O : Type*) where
  | upsert (dirs : List String) (name : String) (oid : O)
  | remove (dirs : List String) (name : String)

/-- The update of a path map: `upsert` drops what is above and below the path, `remove` the path and
what is below it. -/
def PathMap.apply (m : PathMap O) : TreeOp O → PathMap O
  | .upsert dirs name oid => fun q =>
    if q = dirs ++ [name] then some oid
    else if q <+: dirs ++ [name] ∨ dirs ++ [name] <+: q then none else m q
  | .remove dirs name => fun q => if dirs ++ [name] <+: q then none else m q

namespace TreeEditor

/-! ## Calls -/

def apply (ed : TreeEditor O) : TreeOp O → TreeEditor O
  | .upsert dirs name oid => ed.upsert dirs name oid
  | .remove dirs name => ed.remove dirs name

def step (ed : TreeEditor O) (op : TreeOp O) : Option (TreeEditor O) := some (ed.apply op)

/-- The calls in order. -/
def applyAll (ed : TreeEditor O) (ops : List (TreeOp O)) : TreeEditor O := ops.foldl apply ed

/-- An `upsert` finds no directory left over above its path.  A `remove` leaves every directory above
its path a file, or takes no file, or takes the last entry of that directory. -/
def Fits (ed : TreeEditor O) : TreeOp O → Prop
  | .upsert dirs _ _ => ed.Clear dirs
  | .remove dirs name => ∀ d, d <+: dirs → d ≠ [] →
    (∃ s oid, ¬ dirs ++ [name] <+: d ++ s ∧ ed.file (d ++ s) = some oid) ∨
      (∀ q, dirs ++ [name] <+: q → ed.file q = none) ∨
      (d = dirs ∧ ∀ n, n ≠ name → ed.entry (dirs ++ [n]) = none)

/-- Whether a path is the root or a directory is decided by its entry. -/
instance (ed : TreeEditor O) (d : List String) : Decidable (ed.IsDir d) :=
  match h : ed.entry d with
  | some (.tree t) => isTrue (.inr ⟨t, h⟩)
  | some (.blob _) => decidable_of_iff (d = [])
    ⟨.inl, fun hd => hd.resolve_right fun ⟨t, ht⟩ => by rw [h] at ht; cases ht⟩
  | none => decidable_of_iff (d = [])
    ⟨.inl, fun hd => hd.resolve_right fun ⟨t, ht⟩ => by rw [h] at ht; cases ht⟩

instance (ed : TreeEditor O) (dirs : List String) : Decidable (ed.Clear dirs) :=
  decidable_of_iff (∀ d ∈ dirs.inits, ed.subtrees.contains d = true → ed.IsDir d)
    (by simp only [List.mem_inits]; rfl)

/-- What holds between the calls. -/
structure Inv (ed : TreeEditor O) : Prop where
  closed : ed.Closed
  trees : Trees Kept ed
  filled : ed.Filled

section Inv

variable {ed : TreeEditor O} {parent rest dirs : List String} {name : String} {oid : O}

variable {t : Tree O}

theorem inv_fromTree (h : t.Ordered) (hp : t.Pruned) : (fromTree t).Inv where
  closed := nofun
  trees := by
    intro d hd n c hn
    obtain rfl : d = [] := hd.resolve_right nofun
    have hmem := (Tree.get_load h).1 hn
    obtain ⟨hne, hcp⟩ := Tree.pruned_iff.1 hp n c hmem
    exact ⟨Tree.ordered_of_get_load h hn, hcp, fun _ => hne⟩
  filled := nofun

theorem file_fromTree (t : Tree O) (path : List String) : (fromTree t).file path = t.file path := by
  rw [file, entry, Tree.file]
  exact congrArg _ (entryAt_load fun _ _ => rfl)

/-- Loading a directory keeps the directories filled: it was written without empty subtrees. -/
theorem filled_load (h : ed.Inv) (hload : ed.Loaded parent)
    (hget : (ed.entriesAt parent).get name = some (.tree t))
    (hnew : ed.subtrees.contains (parent ++ [name]) = false) :
    ({ ed with subtrees := ed.subtrees.set (parent ++ [name]) t.load } : TreeEditor O).Filled := by
  have hentry := entry_load hload hget hnew
  have hfile : ∀ q, ({ ed with subtrees := ed.subtrees.set (parent ++ [name]) t.load } :
      TreeEditor O).file q = ed.file q := fun q => by rw [file, hentry, file]
  intro d hne hdir hc hes
  rw [contains_set, Bool.or_eq_true, decide_eq_true_eq] at hc
  rw [IsDir, hentry, ← IsDir] at hdir
  simp only [hfile]
  by_cases heq : d = parent ++ [name]
  · subst heq
    have hparent := isDir_of_append hdir
    obtain ⟨hord, hp, hnil⟩ := h.trees parent hload name t hget
    obtain ⟨path, oid, hpath⟩ := Tree.exists_file hord hp (hnil hnew)
    refine ⟨path, oid, ?_⟩
    have hpne : path ≠ [] := by
      rintro rfl
      cases hpath
    have hchild : entryAt ed.subtrees [] ed.root (parent ++ [name]) = some (.tree t) :=
      (entry_child hparent hload name).trans hget
    have hnone := contains_eq_false_iff.1 hnew
    rw [file, entry, entryAt_append _ _ _ (by simp) hpne, hchild]
    simp only [List.nil_append, hnone, Option.getD_none]
    rw [entryAt_load fun s _ => get_below_eq_none h.closed (by simp) hnone s]
    exact hpath
  · refine h.filled d hne hdir (hc.resolve_left heq) ?_
    rwa [entriesAt_set _ _ (by simp), if_neg heq] at hes

theorem inv_load (h : ed.Inv) (hload : ed.Loaded parent)
    (hget : (ed.entriesAt parent).get name = some (.tree t))
    (hnew : ed.subtrees.contains (parent ++ [name]) = false) :
    ({ ed with subtrees := ed.subtrees.set (parent ++ [name]) t.load } : TreeEditor O).Inv where
  closed := closed_set h.closed hload t.load
  trees := trees_load hereditary_kept h.trees hload hget
  filled := filled_load h hload hget hnew

theorem inv_ensure_false (rest : List String) (h : ed.Inv) (hload : ed.Loaded parent) :
    (ensurePathLoaded false ed parent rest).2.Inv := by
  induction rest generalizing ed parent with
  | nil => exact h
  | cons name rest ih =>
    rcases ensurePathLoaded_cons ed parent name rest false
      with ⟨hc, heq⟩ | ⟨hc, t, hget, heq⟩ | ⟨-, -, heq⟩
    · rw [heq]
      exact ih h (.inr hc)
    · rw [heq]
      exact ih (inv_load h hload hget hc) (loaded_set_self _)
    · rw [heq]
      exact h

theorem entries_ne_nil_of_erase {es : Entries O} (h : (es.erase name).entries ≠ []) : es.entries ≠ [] := by
  intro hnil
  have hfilter : (es.entries.filter fun e => e.1 ≠ name) = [] := by
    rw [hnil]
    rfl
  exact h hfilter

theorem not_prefix_of_append {d s : List String} (hd : ¬ d <+: dirs) (hpd : ¬ dirs ++ [name] <+: d) :
    ¬ dirs ++ [name] <+: d ++ s := by
  intro hq
  rcases List.prefix_or_prefix_of_prefix hq (List.prefix_append d s) with hpre | hpre
  · exact hpd hpre
  · rcases List.prefix_concat_iff.1 hpre with heq | hpre
    · exact hpd (heq ▸ List.prefix_rfl)
    · exact hd hpre

/-- **An `upsert` that finds no directory left over keeps the invariant.** -/
theorem Inv.upsert (h : ed.Inv) (hclear : ed.Clear dirs) : (ed.upsert dirs name oid).Inv where
  closed := (upsert_spec name oid h.closed hclear).1
  trees := trees_upsert hereditary_kept h.trees h.closed hclear
  filled := by
    obtain ⟨-, -, hentry, hoff, htable⟩ := upsert_spec name oid h.closed hclear
    intro d hne hdir hc hes
    by_cases hd : d <+: dirs
    · obtain ⟨s, rfl⟩ := hd
      refine ⟨s ++ [name], oid, ?_⟩
      rw [← List.append_assoc, file, hentry, Entry.oid?_blob]
    · obtain ⟨hpd, hdir⟩ := (isDir_upsert h.closed hclear hdir).resolve_left hd
      rw [(htable d hd).1] at hes
      rw [(htable d hd).2] at hc
      obtain ⟨s, oid', hs⟩ := h.filled d hne hdir hc hes
      refine ⟨s, oid', ?_⟩
      rw [← hs, file, hoff, file]
      · exact fun hq => hd ((List.prefix_append d s).trans hq)
      · exact not_prefix_of_append hd hpd

/-- Taking an entry away keeps the directories filled, when the call fits. -/
theorem filled_erase (h : ed.Inv) (hload : ed.Loaded dirs) (hfits : ed.Fits (.remove dirs name))
    (hentry : ∀ q, (ed.setEntries dirs ((ed.entriesAt dirs).erase name)).entry q =
      if dirs ++ [name] <+: q then none else ed.entry q) :
    (ed.setEntries dirs ((ed.entriesAt dirs).erase name)).Filled := by
  intro d hne hdir hc hes
  rw [contains_setEntries hload] at hc
  have hpd : ¬ dirs ++ [name] <+: d := by
    intro hpd
    obtain ⟨t, ht⟩ := hdir.resolve_left hne
    rw [hentry, if_pos hpd] at ht
    cases ht
  rw [IsDir, hentry, if_neg hpd, ← IsDir] at hdir
  have hes' : (ed.entriesAt d).entries ≠ [] := by
    by_cases heq : d = dirs
    · rw [heq, entriesAt_setEntries_self] at hes
      exact heq ▸ entries_ne_nil_of_erase hes
    · rwa [entriesAt_setEntries_of_ne heq] at hes
  -- it is enough to find a file outside the path
  suffices hout : ∃ s oid, ¬ dirs ++ [name] <+: d ++ s ∧ ed.file (d ++ s) = some oid by
    obtain ⟨s, oid, hs, hfile⟩ := hout
    exact ⟨s, oid, by rw [file, hentry, if_neg hs]; exact hfile⟩
  obtain ⟨s, oid, hfile⟩ := h.filled d hne hdir hc hes'
  by_cases hd : d <+: dirs
  · rcases hfits d hd hne with hout | hnone | ⟨rfl, hlast⟩
    · exact hout
    · refine ⟨s, oid, fun hq => ?_, hfile⟩
      rw [hnone _ hq] at hfile
      cases hfile
    · rw [entriesAt_setEntries_self] at hes
      refine absurd (List.eq_nil_iff_forall_not_mem.2 fun e he => ?_) hes
      obtain ⟨hmem, hn⟩ := SortedMap.mem_entries_erase.1 he
      have hget := SortedMap.mem_entries_iff.1 hmem
      rw [← entry_child hdir hload, hlast e.1 hn] at hget
      cases hget
  · exact ⟨s, oid, not_prefix_of_append hd hpd, hfile⟩

/-- **A `remove` that fits keeps the invariant.** -/
theorem Inv.remove (h : ed.Inv) (hfits : ed.Fits (.remove dirs name)) :
    (ed.remove dirs name).Inv where
  closed := (remove_spec h.closed dirs name).1
  trees := trees_remove hereditary_kept h.trees h.closed
  filled := by
    obtain ⟨-, h2, h3, -⟩ := ensure_false [] dirs h.closed loaded_nil
    have hInv := inv_ensure_false dirs h loaded_nil
    have hspec := (remove_spec h.closed dirs name).2
    have hfits' : (ensurePathLoaded false ed [] dirs).2.Fits (.remove dirs name) := by
      simp only [Fits, file, h2]
      exact hfits
    rw [TreeEditor.remove] at hspec ⊢
    simp only [← h2] at hspec
    rw [List.nil_append] at h3
    generalize ensurePathLoaded false ed [] dirs = r at hspec h3 hInv hfits'
    obtain ⟨flag, ed1⟩ := r
    cases flag with
    | false => exact hInv.filled
    | true => exact filled_erase hInv (h3 rfl) hfits' hspec

end Inv

/-! ## Runs -/

section Runs

variable {ed : TreeEditor O} {t : Tree O} {ops : List (TreeOp O)}

/-- One call on the editor and on its path map. -/
theorem inv_apply {op : TreeOp O} (h : ed.Inv) (hfits : ed.Fits op) :
    (ed.apply op).Inv ∧ (ed.apply op).file = PathMap.apply ed.file op := by
  cases op with
  | upsert dirs name oid =>
    exact ⟨h.upsert hfits, funext fun q => file_upsert h.closed hfits q⟩
  | remove dirs name => exact ⟨h.remove hfits, funext fun q => file_remove h.closed q⟩

/-- The calls in order, on the editor and on its path map. -/
theorem inv_applyAll (h : ed.Inv) (hfit : ActsMeet step Fits ed ops) :
    (ed.applyAll ops).Inv ∧ (ed.applyAll ops).file = ops.foldl PathMap.apply ed.file := by
  induction ops generalizing ed with
  | nil => exact ⟨h, rfl⟩
  | cons op ops ih =>
    obtain ⟨hInv, hfile⟩ := inv_apply h hfit.1
    obtain ⟨hInv', hfile'⟩ := ih hInv (hfit.2 _ rfl)
    refine ⟨hInv', hfile'.trans ?_⟩
    rw [hfile]
    rfl

/-- The tree that is written holds the files of the path map and no empty subtree. -/
structure Canonical (t : Tree O) (ops : List (TreeOp O)) : Prop where
  files : ∀ path oid, (path, oid) ∈ ((fromTree t).applyAll ops).write.flatten ↔
    ops.foldl PathMap.apply t.file path = some oid
  once : (((fromTree t).applyAll ops).write.flatten.map Prod.fst).Nodup
  ordered : ((fromTree t).applyAll ops).write.Ordered
  pruned : ((fromTree t).applyAll ops).write.Pruned

theorem canonical_of_fits (ht : t.Ordered) (hp : t.Pruned)
    (hfit : ActsMeet step Fits (fromTree t) ops) : Canonical t ops := by
  obtain ⟨hInv, hfile⟩ := inv_applyAll (inv_fromTree ht hp) hfit
  have hord : Trees (fun _ t => t.Ordered) ((fromTree t).applyAll ops) :=
    fun d hd n c hn => (hInv.trees d hd n c hn).1
  have hwrite := ordered_write hord
  refine ⟨fun path oid => ?_, Tree.nodup_flatten hwrite, hwrite,
    pruned_write hInv.closed hInv.trees hInv.filled⟩
  rw [Tree.mem_flatten hwrite, file_write hInv.closed hord, hfile,
    funext (file_fromTree t)]

/-- Two sequences of updates that end in the same path map write the same tree. -/
theorem Canonical.write_eq {t' : Tree O} {ops' : List (TreeOp O)} (h : Canonical t ops)
    (h' : Canonical t' ops') (heq : ops.foldl PathMap.apply t.file = ops'.foldl PathMap.apply t'.file) :
    ((fromTree t).applyAll ops).write = ((fromTree t').applyAll ops').write := by
  refine Tree.eq_of_file_eq h.ordered h.pruned h'.ordered h'.pruned fun path => ?_
  apply Option.ext
  intro oid
  rw [← Tree.mem_flatten h.ordered, ← Tree.mem_flatten h'.ordered, h.files, h'.files, heq]

/-- **Calls that fit make the editor a canonical path map**: the written tree holds the files of the
path map and no empty subtree, and any calls that fit and end in the same path map write the same
tree. -/
theorem writes_pathMap (ht : t.Ordered) (hp : t.Pruned) (hfit : ActsMeet step Fits (fromTree t) ops) :
    Canonical t ops ∧ ∀ (t' : Tree O) (ops' : List (TreeOp O)), t'.Ordered → t'.Pruned →
      ActsMeet step Fits (fromTree t') ops' →
      ops.foldl PathMap.apply t.file = ops'.foldl PathMap.apply t'.file →
      ((fromTree t).applyAll ops).write = ((fromTree t').applyAll ops').write := by
  have h := canonical_of_fits ht hp hfit
  exact ⟨h, fun t' ops' ht' hp' hfit' heq => h.write_eq (canonical_of_fits ht' hp' hfit') heq⟩

theorem actsMeet_cons {op : TreeOp O} :
    ActsMeet step Fits ed (op :: ops) ↔ ed.Fits op ∧ ActsMeet step Fits (ed.apply op) ops := by
  simp [ActsMeet, step]

end Runs

/-! ### Where it fails -/

/-- The file `a/x`. -/
def oneFile : Tree ℕ := .sub "a" (.blob "x" 1 .nil) .nil

/-- The file `a/b/x`. -/
def deepFile : Tree ℕ := .sub "a" (.sub "b" (.blob "x" 1 .nil) .nil) .nil

/-- `a/z` is put into a directory that the file `a` replaced. -/
def replaced : List (TreeOp ℕ) := [.upsert ["a"] "y" 2, .upsert [] "a" 3, .upsert ["a"] "z" 4]

/-- The last file below `a` and below `a/b` goes. -/
def emptied : List (TreeOp ℕ) := [.remove ["a", "b"] "x"]

theorem not_canonical_replaced : ¬ Canonical oneFile replaced := by
  intro h
  have hz := (h.files ["a", "z"] 4).2 (by decide +kernel)
  rw [Tree.mem_flatten h.ordered] at hz
  exact absurd hz (by decide +kernel)

theorem not_canonical_emptied : ¬ Canonical deepFile emptied := by
  intro h
  have hwrite : ((fromTree deepFile).applyAll emptied).write = .sub "a" .nil .nil := by
    decide +kernel
  have hp := h.pruned
  rw [hwrite] at hp
  exact hp.1 rfl

/-- The editor is no canonical path map: an entry below a replaced directory is lost, and a directory
whose last file went from below it is written as an empty tree. -/
theorem not_always_canonical :
    ¬ (∀ (t : Tree ℕ) (ops : List (TreeOp ℕ)), t.Ordered → t.Pruned → Canonical t ops) ∧
      oneFile.Ordered ∧ oneFile.Pruned ∧ ¬ Canonical oneFile replaced ∧
      deepFile.Ordered ∧ deepFile.Pruned ∧ ¬ Canonical deepFile emptied := by
  have hone : oneFile.Ordered ∧ oneFile.Pruned := by
    simp [oneFile, Tree.Ordered, Tree.Pruned, Tree.entries]
  have hdeep : deepFile.Ordered ∧ deepFile.Pruned := by
    simp [deepFile, Tree.Ordered, Tree.Pruned, Tree.entries]
  exact ⟨fun h => not_canonical_replaced (h _ _ hone.1 hone.2), hone.1, hone.2,
    not_canonical_replaced, hdeep.1, hdeep.2, not_canonical_emptied⟩

/-- `a/y` is put and `a/x` removed. -/
def swapped : List (TreeOp ℕ) := [.upsert ["a"] "y" 2, .remove ["a"] "x"]

theorem fits_swapped (ed : TreeEditor ℕ) (hclear : ed.Clear ["a"])
    (hfile : (ed.apply (.upsert ["a"] "y" 2)).file ["a", "y"] = some 2) :
    ActsMeet step Fits ed swapped := by
  rw [swapped, actsMeet_cons, actsMeet_cons]
  refine ⟨hclear, fun d hd hne => .inl ?_, trivial⟩
  obtain rfl : d = ["a"] := by
    have := (List.mem_inits _ _).2 hd
    simp only [List.inits, List.map_cons, List.map_nil, List.mem_cons, List.not_mem_nil,
      or_false] at this
    exact this.resolve_left hne
  exact ⟨["y"], 2, by decide, hfile⟩

theorem writes_pathMap_swapped :
    (Canonical oneFile swapped ∧ ((fromTree oneFile).applyAll swapped).write =
      ((fromTree oneFile).applyAll (.upsert ["a"] "y" 2 :: swapped)).write) ∧
    ((fromTree oneFile).applyAll swapped).write = .sub "a" (.blob "y" 2 .nil) .nil := by
  have hone : oneFile.Ordered ∧ oneFile.Pruned := by
    simp [oneFile, Tree.Ordered, Tree.Pruned, Tree.entries]
  have hfit : ActsMeet step Fits (fromTree oneFile) swapped :=
    fits_swapped _ (by decide +kernel) (by decide +kernel)
  have hfit' : ActsMeet step Fits (fromTree oneFile) (.upsert ["a"] "y" 2 :: swapped) :=
    actsMeet_cons.2 ⟨(by decide +kernel : (fromTree oneFile).Clear ["a"]), fits_swapped _ (by decide +kernel) (by decide +kernel)⟩
  obtain ⟨hcan, hsame⟩ := writes_pathMap hone.1 hone.2 hfit
  refine ⟨⟨hcan, hsame oneFile _ hone.1 hone.2 hfit' ?_⟩, by decide +kernel⟩
  funext q
  simp only [swapped, List.foldl_cons, List.foldl_nil, PathMap.apply]
  split_ifs <;> rfl

end TreeEditor

end OpenViking.Git
