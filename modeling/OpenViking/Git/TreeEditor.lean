import OpenViking.Common.Dict
import OpenViking.Git.Tree

/-!
# The tree editor

A model of `TreeEditor` (`crates/ragfs/src/git/tree_builder.rs`): a root and a side table of the
subtrees that edits have touched, keyed by their paths and filled when a path is first walked.

A path is the list of its components, none of them empty.  A null id stands only for directories that
are in the side table, and is taken as the empty tree.  Results:

* `entry_create`: creating a directory changes its own entry;
* `Trees`, `Hereditary`: what holds of every tree that the editor can still name.
-/

namespace OpenViking.Git

variable {O : Type*}

/-- The side table: the entries of the directories that edits have touched. -/
abbrev Subtrees (O : Type*) := Dict (List String) (Entries O)

/-- `TreeEditor` (19-23). -/
structure TreeEditor (O : Type*) where
  root : Entries O
  subtrees : Subtrees O

namespace TreeEditor

/-! ## Model -/

/-- `TreeEditor::empty` (25-31). -/
def empty : TreeEditor O := ⟨.empty, .empty⟩

/-- `TreeEditor::from_tree` (297-306). -/
def fromTree (t : Tree O) : TreeEditor O := ⟨t.load, .empty⟩

/-- The entries of a directory; the callers have walked to it. -/
def entriesAt (ed : TreeEditor O) (dir : List String) : Entries O :=
  if dir = [] then ed.root else (ed.subtrees.get dir).getD .empty

def setEntries (ed : TreeEditor O) (dir : List String) (es : Entries O) : TreeEditor O :=
  if dir = [] then { ed with root := es } else { ed with subtrees := ed.subtrees.set dir es }

/-- `ensure_path_loaded` (67-154), from the directory `parent` on. -/
def ensurePathLoaded (createMissing : Bool) :
    TreeEditor O → List String → List String → Bool × TreeEditor O
  | ed, _, [] => (true, ed)
  | ed, parent, name :: rest =>
    if ed.subtrees.contains (parent ++ [name]) then
      ensurePathLoaded createMissing ed (parent ++ [name]) rest
    else
      match (ed.entriesAt parent).get name with
      | some (.tree t) =>
        ensurePathLoaded createMissing
          { ed with subtrees := ed.subtrees.set (parent ++ [name]) t.load } (parent ++ [name]) rest
      | _ =>
        if !createMissing then (false, ed)
        else
          let ed := ed.setEntries parent ((ed.entriesAt parent).put name (.tree .nil))
          ensurePathLoaded createMissing
            { ed with subtrees := ed.subtrees.set (parent ++ [name]) .empty } (parent ++ [name]) rest

/-- `TreeEditor::upsert` (157-190) of `name` in the directory `dirs`. -/
def upsert (ed : TreeEditor O) (dirs : List String) (name : String) (oid : O) : TreeEditor O :=
  let ed := (ensurePathLoaded true ed [] dirs).2
  ed.setEntries dirs ((ed.entriesAt dirs).put name (.blob oid))

/-- `TreeEditor::remove` (193-224). -/
def remove (ed : TreeEditor O) (dirs : List String) (name : String) : TreeEditor O :=
  match ensurePathLoaded false ed [] dirs with
  | (false, ed) => ed
  | (true, ed) => ed.setEntries dirs ((ed.entriesAt dirs).erase name)

/-- `TreeEditor::upsert_subtree` (240-290), which drops what the side table has at and below the
path. -/
def upsertSubtree (ed : TreeEditor O) (dirs : List String) (name : String) (t : Tree O) :
    TreeEditor O :=
  let ed := (ensurePathLoaded true ed [] dirs).2
  let ed := ed.setEntries dirs ((ed.entriesAt dirs).put name (.tree t))
  { ed with subtrees := ed.subtrees.filter fun dir _ => !(dirs ++ [name]).isPrefixOf dir }

/-- The longest path in the side table. -/
def depth (ed : TreeEditor O) : ℕ :=
  (ed.subtrees.entries.map fun e => e.1.length).foldr max 0

/-- `write_subtree` (319-386); the fuel counts the levels that the side table can reach. -/
def writeSubtree (m : Subtrees O) : ℕ → List String → Entries O → Tree O
  | 0, _, _ => .nil
  | fuel + 1, dir, es =>
    Tree.ofEntries (es.entries.filterMap fun e =>
      match e.2 with
      | .blob oid => some (e.1, .blob oid)
      | .tree t =>
        match m.get (dir ++ [e.1]) with
        | some child =>
          if child.entries = [] then none
          else some (e.1, .tree (writeSubtree m fuel (dir ++ [e.1]) child))
        | none => some (e.1, .tree t))

/-- `TreeEditor::write` (311-317). -/
def write (ed : TreeEditor O) : Tree O := writeSubtree ed.subtrees (ed.depth + 1) [] ed.root

/-! ## What the editor shows -/

/-- The entry at a path, from the directory `dir` with the entries `es`. -/
def entryAt (m : Subtrees O) : List String → Entries O → List String → Option (Entry O)
  | _, _, [] => none
  | dir, es, name :: path =>
    if path = [] then es.get name
    else
      match es.get name with
      | some (.tree t) =>
        entryAt m (dir ++ [name]) ((m.get (dir ++ [name])).getD t.load) path
      | _ => none

/-- The entry at a path. -/
def entry (ed : TreeEditor O) (path : List String) : Option (Entry O) :=
  entryAt ed.subtrees [] ed.root path

/-- The file at a path. -/
def file (ed : TreeEditor O) (path : List String) : Option O := Entry.oid? (ed.entry path)

/-- The path is the root or a directory. -/
def IsDir (ed : TreeEditor O) (dir : List String) : Prop :=
  dir = [] ∨ ∃ t, ed.entry dir = some (.tree t)

/-- The path is the root or in the side table. -/
def Loaded (ed : TreeEditor O) (dir : List String) : Prop :=
  dir = [] ∨ ed.subtrees.contains dir = true

/-- The side table holds the directories above those it holds. -/
def ClosedKeys (m : Subtrees O) : Prop :=
  ∀ dir name, dir ≠ [] → m.contains (dir ++ [name]) = true → m.contains dir = true

def Closed (ed : TreeEditor O) : Prop := ClosedKeys ed.subtrees

section Entries

variable {m m' : Subtrees O} {dir path q : List String} {es es' : Entries O} {name : String}

theorem entryAt_singleton : entryAt m dir es [name] = es.get name := by
  rw [entryAt, if_pos rfl]

theorem entryAt_cons (h : path ≠ []) :
    entryAt m dir es (name :: path) =
      match es.get name with
      | some (.tree t) => entryAt m (dir ++ [name]) ((m.get (dir ++ [name])).getD t.load) path
      | _ => none := by
  rw [entryAt, if_neg h]

/-- What an editor shows depends on the directories above the path. -/
theorem entryAt_congr (h : ∀ r s, path = r ++ s → r ≠ [] → s ≠ [] → m.get (dir ++ r) = m'.get (dir ++ r)) :
    entryAt m dir es path = entryAt m' dir es path := by
  induction path generalizing dir es with
  | nil => rfl
  | cons name path ih =>
    by_cases hp : path = []
    · rw [hp, entryAt_singleton, entryAt_singleton]
    · rw [entryAt_cons hp, entryAt_cons hp]
      have hkey := h [name] path rfl (List.cons_ne_nil _ _) hp
      rcases es.get name with _ | oid | t
      · rfl
      · rfl
      · simp only [hkey]
        refine ih fun r s hrs hr hs => ?_
        have := h (name :: r) s (by rw [hrs]; rfl) (List.cons_ne_nil _ _) hs
        simpa only [List.append_assoc, List.singleton_append] using this

/-- An entry is found through the directory above it. -/
theorem entryAt_append (m : Subtrees O) (dir : List String) (es : Entries O) (hpath : path ≠ [])
    (hq : q ≠ []) :
    entryAt m dir es (path ++ q) =
      match entryAt m dir es path with
      | some (.tree t) => entryAt m (dir ++ path) ((m.get (dir ++ path)).getD t.load) q
      | _ => none := by
  induction path generalizing dir es with
  | nil => exact absurd rfl hpath
  | cons name path ih =>
    by_cases hp : path = []
    · rw [hp, entryAt_singleton, List.singleton_append, entryAt_cons hq]
    · have happ : path ++ q ≠ [] := List.append_ne_nil_of_left_ne_nil hp _
      rw [List.cons_append, entryAt_cons happ, entryAt_cons hp]
      rcases es.get name with _ | oid | t
      · rfl
      · rfl
      · simp only [ih _ _ hp, List.append_assoc, List.singleton_append]

/-- A change of the side table is seen below its key only. -/
theorem entryAt_set_of_not (dir : List String) (hpath : ∀ s, s ≠ [] → path ≠ q ++ s) :
    entryAt (m.set (dir ++ q) es') dir es path = entryAt m dir es path := by
  refine entryAt_congr fun r s hrs _ hs => ?_
  rw [Dict.get_set, if_neg]
  intro heq
  exact hpath s hs (by rw [hrs, List.append_cancel_left heq])

theorem entryAt_set_append (m : Subtrees O) (dir : List String) (es es' : Entries O)
    (hpath : path ≠ []) (hq : q ≠ []) :
    entryAt (m.set (dir ++ path) es') dir es (path ++ q) =
      match entryAt m dir es path with
      | some (.tree _) => entryAt m (dir ++ path) es' q
      | _ => none := by
  have hself : entryAt (m.set (dir ++ path) es') dir es path = entryAt m dir es path := by
    refine entryAt_set_of_not dir fun s hs heq => hs ?_
    have : path ++ [] = path ++ s := by rw [List.append_nil]; exact heq
    exact (List.append_cancel_left this).symm
  rw [entryAt_append _ _ _ hpath hq, hself]
  rcases entryAt m dir es path with _ | oid | t
  · rfl
  · rfl
  · simp only [Dict.get_set, if_true, Option.getD_some]
    refine entryAt_congr fun r s _ hr _ => ?_
    rw [Dict.get_set, if_neg]
    intro heq
    have : dir ++ path ++ r = dir ++ path ++ [] := by rw [List.append_nil]; exact heq
    exact hr (List.append_cancel_left this)

end Entries

/-! ## Directories -/

section Directories

variable {ed : TreeEditor O} {dir path q : List String} {es : Entries O} {name : String}

theorem isDir_nil : ed.IsDir [] := .inl rfl

theorem loaded_nil : ed.Loaded [] := .inl rfl

variable {m : Subtrees O}

theorem contains_eq_false_iff : m.contains dir = false ↔ m.get dir = none := by
  rw [Dict.contains, Option.isSome_eq_false_iff, Option.isNone_iff_eq_none]

/-- Below what is no directory there is nothing. -/
theorem entry_of_not_isDir (h : ¬ ed.IsDir dir) (hq : q ≠ []) : ed.entry (dir ++ q) = none := by
  have hdir : dir ≠ [] := fun hdir => h (.inl hdir)
  rw [entry, entryAt_append _ _ _ hdir hq]
  split
  · rename_i t ht
    exact absurd (.inr ⟨t, ht⟩) h
  · rfl

/-- A loaded directory is read from its own entries. -/
theorem entry_of_isDir (h : ed.IsDir dir) (hload : ed.Loaded dir) (hq : q ≠ []) :
    ed.entry (dir ++ q) = entryAt ed.subtrees dir (ed.entriesAt dir) q := by
  by_cases hdir : dir = []
  · subst hdir
    rfl
  · obtain ⟨t, ht⟩ := h.resolve_left hdir
    have hc : (ed.subtrees.get dir).isSome = true := hload.resolve_left hdir
    obtain ⟨es, hes⟩ := Option.isSome_iff_exists.1 hc
    rw [entry, entryAt_append _ _ _ hdir hq, ← entry, ht, entriesAt, if_neg hdir]
    simp only [List.nil_append, hes, Option.getD_some]

theorem entry_child (h : ed.IsDir dir) (hload : ed.Loaded dir) (name : String) :
    ed.entry (dir ++ [name]) = (ed.entriesAt dir).get name := by
  rw [entry_of_isDir h hload (List.cons_ne_nil _ _), entryAt_singleton]

theorem isDir_of_append (h : ed.IsDir (dir ++ q)) : ed.IsDir dir := by
  by_cases hq : q = []
  · rwa [hq, List.append_nil] at h
  · by_contra hdir
    have hne : dir ++ q ≠ [] := List.append_ne_nil_of_right_ne_nil _ hq
    obtain ⟨t, ht⟩ := h.resolve_left hne
    rw [entry_of_not_isDir hdir hq] at ht
    cases ht

theorem file_of_isDir (h : ed.IsDir dir) : ed.file dir = none := by
  rcases h with rfl | ⟨t, ht⟩
  · rfl
  · rw [file, ht, Entry.oid?_tree]

/-! ### Changed entries -/

theorem entry_setEntries_of_not (h : ∀ s, s ≠ [] → path ≠ dir ++ s) :
    (ed.setEntries dir es).entry path = ed.entry path := by
  by_cases hdir : dir = []
  · subst hdir
    have hpath : path = [] := by
      by_contra hp
      exact h path hp rfl
    rw [hpath]
    rfl
  · rw [setEntries, if_neg hdir]
    exact entryAt_set_of_not [] h

theorem entry_setEntries_append (h : ed.IsDir dir) (hq : q ≠ []) :
    (ed.setEntries dir es).entry (dir ++ q) = entryAt ed.subtrees dir es q := by
  by_cases hdir : dir = []
  · subst hdir
    rfl
  · obtain ⟨t, ht⟩ := h.resolve_left hdir
    rw [setEntries, if_neg hdir, entry, show (ed.subtrees.set dir es) =
      ed.subtrees.set ([] ++ dir) es from rfl, entryAt_set_append _ _ _ _ hdir hq, ← entry, ht]
    rfl

theorem entry_setEntries_of_not_isDir (h : ¬ ed.IsDir dir) :
    (ed.setEntries dir es).entry path = ed.entry path := by
  have hdir : dir ≠ [] := fun hdir => h (.inl hdir)
  by_cases hpath : ∃ s, s ≠ [] ∧ path = dir ++ s
  · obtain ⟨s, hs, rfl⟩ := hpath
    rw [entry_of_not_isDir h hs, setEntries, if_neg hdir, entry, show (ed.subtrees.set dir es) =
      ed.subtrees.set ([] ++ dir) es from rfl, entryAt_set_append _ _ _ _ hdir hs, ← entry]
    split
    · rename_i t ht
      exact absurd (.inr ⟨t, ht⟩) h
    · rfl
  · exact entry_setEntries_of_not fun s hs heq => hpath ⟨s, hs, heq⟩

@[simp] theorem entriesAt_setEntries_self : (ed.setEntries dir es).entriesAt dir = es := by
  by_cases hdir : dir = []
  · simp only [setEntries, entriesAt, hdir, if_true]
  · simp only [setEntries, entriesAt, hdir, if_false, Dict.get_set, if_true, Option.getD_some]

theorem entriesAt_setEntries_of_ne {dir' : List String} (h : dir' ≠ dir) :
    (ed.setEntries dir es).entriesAt dir' = ed.entriesAt dir' := by
  by_cases hdir : dir = []
  · simp only [setEntries, entriesAt, if_pos hdir, if_neg (hdir ▸ h : dir' ≠ [])]
  · by_cases hdir' : dir' = []
    · simp only [setEntries, entriesAt, if_neg hdir, if_pos hdir']
    · simp only [setEntries, entriesAt, if_neg hdir, if_neg hdir', Dict.get_set, if_neg h]

theorem contains_setEntries (hload : ed.Loaded dir) (dir' : List String) :
    (ed.setEntries dir es).subtrees.contains dir' = ed.subtrees.contains dir' := by
  by_cases hdir : dir = []
  · rw [setEntries, if_pos hdir]
  · rw [setEntries, if_neg hdir, Dict.contains, Dict.contains, Dict.get_set]
    split
    · rename_i heq
      rw [heq]
      exact (hload.resolve_left hdir).symm
    · rfl

/-! ### Loading -/

/-- A directory is put into the side table as it is. -/
theorem entry_load {t : Tree O} (hload : ed.Loaded dir) (hget : (ed.entriesAt dir).get name = some (.tree t))
    (hnew : ed.subtrees.contains (dir ++ [name]) = false) (path : List String) :
    ({ ed with subtrees := ed.subtrees.set (dir ++ [name]) t.load } : TreeEditor O).entry path =
      ed.entry path := by
  have hchild : dir ++ [name] ≠ [] := List.append_ne_nil_of_right_ne_nil _ (List.cons_ne_nil _ _)
  by_cases hpath : ∃ s, s ≠ [] ∧ path = dir ++ [name] ++ s
  · obtain ⟨s, hs, rfl⟩ := hpath
    have hset := entryAt_set_append ed.subtrees [] ed.root t.load hchild hs
    have hold := entryAt_append ed.subtrees [] ed.root hchild hs
    have hnone := contains_eq_false_iff.1 hnew
    simp only [List.nil_append] at hset hold
    rw [entry, entry, hset, hold]
    by_cases hdir : ed.IsDir dir
    · have hentry : entryAt ed.subtrees [] ed.root (dir ++ [name]) = some (.tree t) :=
        (entry_child hdir hload name).trans hget
      rw [hentry, hnone]
      rfl
    · have hentry : entryAt ed.subtrees [] ed.root (dir ++ [name]) = none :=
        entry_of_not_isDir hdir (List.cons_ne_nil _ _)
      rw [hentry]
  · exact entryAt_set_of_not [] fun s hs heq => hpath ⟨s, hs, heq⟩

variable (t : Entries O)

variable (dir' : List String)

theorem entriesAt_set (hdir : dir ≠ []) :
    ({ ed with subtrees := ed.subtrees.set dir t } : TreeEditor O).entriesAt dir' =
      if dir' = dir then t else ed.entriesAt dir' := by
  by_cases hdir' : dir' = []
  · rw [entriesAt, if_pos hdir', if_neg (hdir' ▸ hdir.symm), entriesAt, if_pos hdir']
  · rw [entriesAt, if_neg hdir', Dict.get_set, entriesAt, if_neg hdir']
    split <;> rfl

theorem contains_set :
    (ed.subtrees.set dir t).contains dir' =
      (decide (dir' = dir) || ed.subtrees.contains dir') := by
  rw [Dict.contains, Dict.get_set]
  split <;> simp [*, Dict.contains]

theorem closed_set (hclosed : ed.Closed) (hload : ed.Loaded dir) (t : Entries O) :
    ({ ed with subtrees := ed.subtrees.set (dir ++ [name]) t } : TreeEditor O).Closed := by
  intro d n hd hc
  simp only [contains_set, Bool.or_eq_true, decide_eq_true_eq] at hc ⊢
  rcases hc with heq | hc
  · obtain ⟨rfl, -⟩ := List.append_inj' heq rfl
    exact .inr (hload.resolve_left hd)
  · exact .inr (hclosed d n hd hc)

theorem loaded_set_self :
    ({ ed with subtrees := ed.subtrees.set dir t } : TreeEditor O).Loaded dir :=
  .inr (by rw [contains_set, decide_eq_true rfl, Bool.true_or])

theorem entryAt_put_of_ne {e : Entry O} {name' : String} (h : name' ≠ name) :
    entryAt m dir (es.put name e) (name' :: path) = entryAt m dir es (name' :: path) := by
  by_cases hp : path = []
  · rw [hp, entryAt_singleton, entryAt_singleton, SortedMap.get_put_of_ne _ _ h]
  · rw [entryAt_cons hp, entryAt_cons hp, SortedMap.get_put_of_ne _ _ h]

theorem entryAt_erase {name' : String} :
    entryAt m dir (es.erase name) (name' :: path) =
      if name' = name then none else entryAt m dir es (name' :: path) := by
  by_cases hp : path = []
  · rw [hp, entryAt_singleton, entryAt_singleton, SortedMap.get_erase]
  · rw [entryAt_cons hp, entryAt_cons hp, SortedMap.get_erase]
    by_cases h : name' = name
    · simp only [if_pos h]
    · simp only [if_neg h]

theorem entryAt_of_entries_nil (h : es.entries = []) : entryAt m dir es path = none := by
  cases path with
  | nil => rfl
  | cons name path =>
    have hget : es.get name = none := by rw [SortedMap.get, h, SortedMap.getEntry]
    by_cases hp : path = []
    · rw [hp, entryAt_singleton, hget]
    · rw [entryAt_cons hp, hget]

/-! ### Creating -/

/-- A missing directory, put into the directory above and into the side table. -/
def create (ed : TreeEditor O) (dir : List String) (name : String) : TreeEditor O :=
  let ed := ed.setEntries dir ((ed.entriesAt dir).put name (.tree .nil))
  { ed with subtrees := ed.subtrees.set (dir ++ [name]) .empty }

theorem entry_create (hdir : ed.IsDir dir) (hload : ed.Loaded dir)
    (hget : ∀ t, (ed.entriesAt dir).get name ≠ some (.tree t)) (path : List String) :
    (ed.create dir name).entry path =
      if path = dir ++ [name] then some (.tree .nil) else ed.entry path := by
  have hchild : dir ++ [name] ≠ [] := List.append_ne_nil_of_right_ne_nil _ (List.cons_ne_nil _ _)
  have hself : (ed.setEntries dir ((ed.entriesAt dir).put name (.tree .nil))).entry (dir ++ [name]) =
      some (.tree .nil) := by
    rw [entry_setEntries_append hdir (List.cons_ne_nil _ _), entryAt_singleton,
      SortedMap.get_put_self]
  have hnotDir : ¬ ed.IsDir (dir ++ [name]) := by
    intro h
    obtain ⟨t, ht⟩ := h.resolve_left hchild
    exact hget t ((entry_child hdir hload name).symm.trans ht)
  by_cases hpath : ∃ s, s ≠ [] ∧ path = dir ++ [name] ++ s
  · obtain ⟨s, hs, rfl⟩ := hpath
    have hset := entryAt_set_append
      (ed.setEntries dir ((ed.entriesAt dir).put name (.tree .nil))).subtrees []
      (ed.setEntries dir ((ed.entriesAt dir).put name (.tree .nil))).root .empty hchild hs
    have hentry : entryAt (ed.setEntries dir ((ed.entriesAt dir).put name (.tree .nil))).subtrees []
        (ed.setEntries dir ((ed.entriesAt dir).put name (.tree .nil))).root (dir ++ [name]) =
        some (.tree .nil) := hself
    have hne : dir ++ [name] ++ s ≠ dir ++ [name] := by
      intro heq
      exact hs (List.append_cancel_left (heq.trans (List.append_nil _).symm))
    rw [if_neg hne, entry_of_not_isDir hnotDir hs]
    rw [hentry] at hset
    exact hset.trans (entryAt_of_entries_nil rfl)
  · have hoff : (ed.create dir name).entry path =
        (ed.setEntries dir ((ed.entriesAt dir).put name (.tree .nil))).entry path :=
      entryAt_set_of_not [] fun s hs heq => hpath ⟨s, hs, heq⟩
    rw [hoff]
    split
    · rename_i heq
      rw [heq, hself]
    · rename_i hne
      by_cases hbelow : ∃ s, s ≠ [] ∧ path = dir ++ s
      · obtain ⟨s, hs, rfl⟩ := hbelow
        rw [entry_setEntries_append hdir hs, entry_of_isDir hdir hload hs]
        obtain ⟨name', s, rfl⟩ := List.exists_cons_of_ne_nil hs
        refine entryAt_put_of_ne ?_
        rintro rfl
        by_cases hs' : s = []
        · exact hne (by rw [hs'])
        · exact hpath ⟨s, hs', by rw [List.append_assoc]; rfl⟩
      · exact entry_setEntries_of_not fun s hs heq => hbelow ⟨s, hs, heq⟩

theorem contains_create (hload : ed.Loaded dir) (dir' : List String) :
    (ed.create dir name).subtrees.contains dir' =
      (decide (dir' = dir ++ [name]) || ed.subtrees.contains dir') := by
  rw [create, contains_set, contains_setEntries hload]

theorem entriesAt_create :
    (ed.create dir name).entriesAt dir' =
      if dir' = dir ++ [name] then .empty
      else if dir' = dir then (ed.entriesAt dir).put name (.tree .nil) else ed.entriesAt dir' := by
  have hchild : dir ++ [name] ≠ [] := List.append_ne_nil_of_right_ne_nil _ (List.cons_ne_nil _ _)
  rw [create, entriesAt_set _ _ hchild]
  split
  · rfl
  · split
    · rename_i heq
      rw [heq, entriesAt_setEntries_self]
    · rename_i hne
      exact entriesAt_setEntries_of_ne hne

end Directories

/-! ## The trees that entries name -/

/-- `P` holds of every tree that an entry of a loaded directory names, where it is told whether the
side table has the directory. -/
def Trees (P : Bool → Tree O → Prop) (ed : TreeEditor O) : Prop :=
  ∀ dir, ed.Loaded dir → ∀ name t, (ed.entriesAt dir).get name = some (.tree t) →
    P (ed.subtrees.contains (dir ++ [name])) t

/-- What holds of a tree holds of its subtrees, of a created directory, and when the side table
grows. -/
structure Hereditary (P : Bool → Tree O → Prop) : Prop where
  created : P true .nil
  known : ∀ t, P false t → P true t
  child : ∀ b t name c, P b t → t.load.get name = some (.tree c) → P false c

section Trees

variable {P : Bool → Tree O → Prop} {ed : TreeEditor O} {dir : List String} {name : String}

theorem Hereditary.mono (hP : Hereditary P) {b b' : Bool} {t : Tree O} (h : P b t)
    (hb : b = true → b' = true) : P b' t := by
  cases b with
  | false =>
    cases b' with
    | false => exact h
    | true => exact hP.known t h
  | true => rwa [hb rfl]

theorem trees_load (hP : Hereditary P) (h : Trees P ed) (hload : ed.Loaded dir) {t : Tree O}
    (hget : (ed.entriesAt dir).get name = some (.tree t)) :
    Trees P { ed with subtrees := ed.subtrees.set (dir ++ [name]) t.load } := by
  have hchild : dir ++ [name] ≠ [] := List.append_ne_nil_of_right_ne_nil _ (List.cons_ne_nil _ _)
  intro d hd n c hc
  rw [entriesAt_set _ _ hchild] at hc
  rw [contains_set]
  split at hc
  · exact hP.mono (hP.child _ t n c (h dir hload name t hget) hc) nofun
  · rename_i hne
    refine hP.mono (h d ?_ n c hc) fun hb => by rw [hb, Bool.or_true]
    rcases hd with rfl | hd
    · exact .inl rfl
    · rw [contains_set, decide_eq_false hne, Bool.false_or] at hd
      exact .inr hd

theorem trees_setEntries (h : Trees P ed) (hload : ed.Loaded dir) {es : Entries O}
    (hes : ∀ n t, es.get n = some (.tree t) → P (ed.subtrees.contains (dir ++ [n])) t) :
    Trees P (ed.setEntries dir es) := by
  intro d hd n c hc
  rw [contains_setEntries hload]
  by_cases heq : d = dir
  · subst heq
    rw [entriesAt_setEntries_self] at hc
    exact hes n c hc
  · rw [entriesAt_setEntries_of_ne heq] at hc
    refine h d ?_ n c hc
    rcases hd with rfl | hd
    · exact .inl rfl
    · exact .inr (by rwa [contains_setEntries hload] at hd)

theorem trees_create (hP : Hereditary P) (h : Trees P ed) (hload : ed.Loaded dir) :
    Trees P (ed.create dir name) := by
  intro d hd n c hc
  rw [contains_create hload]
  rw [entriesAt_create] at hc
  split at hc
  · rw [SortedMap.get_empty] at hc
    cases hc
  · rename_i hdchild
    have hdload : ed.Loaded d := by
      rcases hd with rfl | hd
      · exact .inl rfl
      · rw [contains_create hload, decide_eq_false hdchild, Bool.false_or] at hd
        exact .inr hd
    split at hc
    · rename_i heq
      subst heq
      rw [SortedMap.get_put] at hc
      split at hc
      · rename_i hn
        obtain rfl : Tree.nil = c := by simpa using hc
        rw [hn, decide_eq_true rfl, Bool.true_or]
        exact hP.created
      · exact hP.mono (h d hdload n c hc) fun hb => by rw [hb, Bool.or_true]
    · exact hP.mono (h d hdload n c hc) fun hb => by rw [hb, Bool.or_true]

end Trees

end TreeEditor

end OpenViking.Git
