import OpenViking.Git.TreeEditor
import Mathlib.Data.List.Induction

/-!
# Writing the tree editor

What `TreeEditor::write` (`crates/ragfs/src/git/tree_builder.rs`, 311-386) makes of what the editor
shows.  Results:

* `file_write`: the written tree holds the files that the editor shows;
* `pruned_write`: it has no empty subtree when every directory in the side table has a file.
-/

namespace OpenViking.Git

namespace TreeEditor

variable {O : Type*}

/-! ## Writing -/

section Write

variable {m : Subtrees O} {dir : List String} {es : Entries O} {fuel : ℕ} {name : String}

/-- What `write_subtree` makes of an entry. -/
def writtenEntry (m : Subtrees O) (fuel : ℕ) (dir : List String) (e : String × Entry O) :
    Option (String × Entry O) :=
  match e.2 with
  | .blob oid => some (e.1, .blob oid)
  | .tree t =>
    match m.get (dir ++ [e.1]) with
    | some child =>
      if child.entries = [] then none
      else some (e.1, .tree (writeSubtree m fuel (dir ++ [e.1]) child))
    | none => some (e.1, .tree t)

theorem writeSubtree_succ :
    writeSubtree m (fuel + 1) dir es = Tree.ofEntries (es.entries.filterMap (writtenEntry m fuel dir)) :=
  rfl

theorem fst_of_writtenEntry {e e' : String × Entry O} (h : writtenEntry m fuel dir e = some e') :
    e'.1 = e.1 := by
  obtain ⟨n, oid | t⟩ := e
  · obtain rfl := Option.some.inj h
    rfl
  · rw [writtenEntry] at h
    dsimp only at h
    split at h
    · split at h
      · cases h
      · obtain rfl := Option.some.inj h
        rfl
    · obtain rfl := Option.some.inj h
      rfl

theorem sorted_writtenEntries :
    (es.entries.filterMap (writtenEntry m fuel dir)).Pairwise fun x y => x.1 < y.1 := by
  refine es.sorted.filterMap _ fun a b hab a' ha b' hb => ?_
  rw [fst_of_writtenEntry ha, fst_of_writtenEntry hb]
  exact hab

/-- The trees that the entries of a side table name are ordered. -/
def AllOrdered (m : Subtrees O) : Prop :=
  ∀ d child, d ≠ [] → m.get d = some child → ∀ n t, child.get n = some (.tree t) → t.Ordered

theorem ordered_writeSubtree (hm : AllOrdered m) (hes : ∀ n t, es.get n = some (.tree t) → t.Ordered) :
    (writeSubtree m fuel dir es).Ordered := by
  induction fuel generalizing dir es with
  | zero => exact trivial
  | succ fuel ih =>
    rw [writeSubtree_succ, Tree.ordered_iff, Tree.entries_ofEntries]
    refine ⟨sorted_writtenEntries, fun n c hc => ?_⟩
    obtain ⟨⟨n', oid | t⟩, hmem, he⟩ := List.mem_filterMap.1 hc
    · cases he
    · rw [writtenEntry] at he
      dsimp only at he
      split at he
      · rename_i child hchild
        split at he
        · cases he
        · obtain ⟨-, rfl⟩ : n' = n ∧ writeSubtree m fuel (dir ++ [n']) child = c := by
            simpa using he
          exact ih (hm _ child (by simp) hchild)
      · obtain ⟨-, rfl⟩ : n' = n ∧ t = c := by simpa using he
        exact hes n' _ (SortedMap.mem_entries_iff.1 hmem)

/-- The entry of a written directory. -/
theorem get_load_writeSubtree (hm : AllOrdered m) (hes : ∀ n t, es.get n = some (.tree t) → t.Ordered) :
    (writeSubtree m (fuel + 1) dir es).load.get name =
      (es.get name).bind fun e => (writtenEntry m fuel dir (name, e)).map Prod.snd := by
  apply Option.ext
  intro e
  rw [Tree.get_load (ordered_writeSubtree hm hes), writeSubtree_succ, Tree.entries_ofEntries,
    List.mem_filterMap, Option.bind_eq_some_iff]
  constructor
  · rintro ⟨⟨n, e'⟩, hmem, he⟩
    obtain rfl : name = n := fst_of_writtenEntry he
    exact ⟨e', SortedMap.mem_entries_iff.1 hmem, by rw [he]; rfl⟩
  · rintro ⟨e', hget, he⟩
    obtain ⟨⟨n, e''⟩, hw, rfl⟩ := Option.map_eq_some_iff.1 he
    obtain rfl : n = name := fst_of_writtenEntry hw
    exact ⟨(n, e'), SortedMap.mem_entries_iff.2 hget, hw⟩

/-- A directory that has nothing in the side table below it is shown as its tree has it. -/
theorem entryAt_load {t : Tree O} {path : List String}
    (h : ∀ s, s ≠ [] → m.get (dir ++ s) = none) : entryAt m dir t.load path = t.lookup path := by
  induction path generalizing dir t with
  | nil => rw [entryAt, Tree.lookup]
  | cons name path ih =>
    by_cases hp : path = []
    · rw [hp, entryAt_singleton, Tree.lookup]
    · obtain ⟨n, path', rfl⟩ := List.exists_cons_of_ne_nil hp
      rw [entryAt_cons hp, Tree.lookup]
      · rcases t.load.get name with _ | oid | c
        · rfl
        · rfl
        · simp only [h [name] (List.cons_ne_nil _ _), Option.getD_none]
          refine ih fun s hs => ?_
          rw [List.append_assoc]
          exact h _ (List.cons_ne_nil _ _)
      · intro hf
        cases hf

theorem get_below_eq_none (hclosed : ClosedKeys m) (hdir : dir ≠ []) (h : m.get dir = none)
    (s : List String) : m.get (dir ++ s) = none := by
  induction s using List.reverseRecOn with
  | nil => rwa [List.append_nil]
  | append_singleton s n ih =>
    by_contra hne
    have hc : m.contains (dir ++ s ++ [n]) = true := by
      rw [Dict.contains, List.append_assoc]
      exact Option.isSome_iff_ne_none.2 hne
    have := hclosed _ _ (by simp [hdir]) hc
    rw [Dict.contains, ih] at this
    cases this

/-- **The files of a written directory are those that the editor shows below it.** -/
theorem file_writeSubtree (hm : AllOrdered m) (hclosed : ClosedKeys m)
    (hes : ∀ n t, es.get n = some (.tree t) → t.Ordered) (hpos : 0 < fuel)
    (hfuel : ∀ d child, m.get d = some child → dir <+: d → d.length < dir.length + fuel)
    (path : List String) : (writeSubtree m fuel dir es).file path = Entry.oid? (entryAt m dir es path) := by
  induction fuel generalizing dir es path with
  | zero => exact absurd hpos (lt_irrefl 0)
  | succ fuel ih =>
    cases path with
    | nil => rfl
    | cons name path =>
      rw [Tree.file_cons, get_load_writeSubtree hm hes]
      by_cases hp : path = []
      · subst hp
        rw [entryAt_singleton]
        rcases es.get name with _ | oid | t
        · rfl
        · rfl
        · rw [Option.bind_some, writtenEntry]
          rcases m.get (dir ++ [name]) with _ | child
          · rfl
          · by_cases hempty : child.entries = []
            · simp only [if_pos hempty]
              rfl
            · simp only [if_neg hempty]
              rfl
      · rw [entryAt_cons hp]
        rcases hget : es.get name with _ | oid | t
        · rfl
        · simp only [Option.bind_some, writtenEntry, Option.map_some, if_neg hp, Entry.oid?_none]
        · simp only [Option.bind_some, writtenEntry]
          rcases hsub : m.get (dir ++ [name]) with _ | child
          · simp only [Option.map_some, Option.getD_none]
            rw [entryAt_load fun s _ => get_below_eq_none hclosed (by simp) hsub s, Tree.file]
          · by_cases hempty : child.entries = []
            · simp only [if_pos hempty, Option.map_none, Option.getD_some]
              rw [entryAt_of_entries_nil hempty, Entry.oid?_none]
            · simp only [if_neg hempty, Option.map_some, Option.getD_some]
              have hlt := hfuel _ child hsub (List.prefix_append _ _)
              rw [List.length_append, List.length_singleton] at hlt
              refine ih (hm _ child (by simp) hsub) (by omega) (fun d c hc hd => ?_) path
              have := hfuel d c hc ((List.prefix_append _ _).trans hd)
              rw [List.length_append, List.length_singleton]
              omega

/-! ### Empty subtrees -/

/-- A shown directory whose entries are in the side table has a file, unless it is empty. -/
def FilledAt (m : Subtrees O) (dir : List String) (es : Entries O) : Prop :=
  ∀ r t child, r ≠ [] → entryAt m dir es r = some (.tree t) → m.get (dir ++ r) = some child →
    child.entries ≠ [] → ∃ q oid, Entry.oid? (entryAt m (dir ++ r) child q) = some oid

/-- The entry names no empty subtree that would be written as it is. -/
def Whole (m : Subtrees O) (dir : List String) (es : Entries O) : Prop :=
  ∀ n t, es.get n = some (.tree t) → m.get (dir ++ [n]) = none → t ≠ .nil ∧ t.Pruned

theorem FilledAt.child {t : Tree O} {child : Entries O} (h : FilledAt m dir es)
    (hget : es.get name = some (.tree t)) (hsub : m.get (dir ++ [name]) = some child) :
    FilledAt m (dir ++ [name]) child := by
  intro r t' child' hr hentry hc hne
  have hold : entryAt m dir es (name :: r) = some (.tree t') := by
    rw [entryAt_cons hr, hget]
    simp only [hsub, Option.getD_some]
    exact hentry
  have hassoc : dir ++ name :: r = dir ++ [name] ++ r := by simp
  have := h (name :: r) t' child' (List.cons_ne_nil _ _) hold (by rwa [hassoc]) hne
  rwa [hassoc] at this

theorem pruned_writeSubtree (hm : AllOrdered m) (hclosed : ClosedKeys m)
    (hwhole : ∀ d child, d ≠ [] → m.get d = some child → Whole m d child)
    (hes : ∀ n t, es.get n = some (.tree t) → t.Ordered) (heswhole : Whole m dir es)
    (hfilled : FilledAt m dir es)
    (hfuel : ∀ d child, m.get d = some child → dir <+: d → d.length < dir.length + fuel) :
    (writeSubtree m fuel dir es).Pruned := by
  induction fuel generalizing dir es with
  | zero => exact trivial
  | succ fuel ih =>
    rw [writeSubtree_succ, Tree.pruned_iff, Tree.entries_ofEntries]
    intro n c hc
    obtain ⟨⟨n', oid | t⟩, hmem, he⟩ := List.mem_filterMap.1 hc
    · cases he
    · have hget := SortedMap.mem_entries_iff.1 hmem
      rw [writtenEntry] at he
      dsimp only at he
      split at he
      · rename_i child hchild
        split at he
        · cases he
        · rename_i hne
          obtain ⟨-, rfl⟩ : n' = n ∧ writeSubtree m fuel (dir ++ [n']) child = c := by
            simpa using he
          have hlt := hfuel _ child hchild (List.prefix_append _ _)
          rw [List.length_append, List.length_singleton] at hlt
          have hfuel' : ∀ d child, m.get d = some child → dir ++ [n'] <+: d →
              d.length < (dir ++ [n']).length + fuel := by
            intro d c hc hd
            have := hfuel d c hc ((List.prefix_append _ _).trans hd)
            rw [List.length_append, List.length_singleton]
            omega
          refine ⟨?_, ih (hm _ child (by simp) hchild) (hwhole _ child (by simp) hchild) (hfilled.child hget hchild)
            hfuel'⟩
          obtain ⟨q, oid, hq⟩ := hfilled [n'] t child (List.cons_ne_nil _ _)
            (entryAt_singleton.trans hget) hchild hne
          intro hnil
          have hfile := file_writeSubtree hm hclosed (hm _ child (by simp) hchild)
            (by omega : 0 < fuel) hfuel' q
          rw [hq, hnil] at hfile
          cases q with
          | nil => cases hfile
          | cons name q =>
            rw [Tree.file_cons] at hfile
            cases hfile
      · rename_i hnone
        obtain ⟨-, rfl⟩ : n' = n ∧ t = c := by simpa using he
        exact heswhole n' t hget hnone

end Write

/-! ## The written tree -/

section Written

variable {ed : TreeEditor O}

/-- What every tree that an entry names satisfies when the editor starts from a tree without empty
subtrees; those that are not in the side table will be written as they are. -/
def Kept (loaded : Bool) (t : Tree O) : Prop :=
  t.Ordered ∧ t.Pruned ∧ (loaded = false → t ≠ .nil)

theorem hereditary_ordered : Hereditary fun _ (t : Tree O) => t.Ordered where
  created := trivial
  known _ h := h
  child _ _ _ _ h hc := Tree.ordered_of_get_load h hc

theorem hereditary_kept : Hereditary (Kept (O := O)) where
  created := ⟨trivial, trivial, nofun⟩
  known _ h := ⟨h.1, h.2.1, nofun⟩
  child _ t name c h hc := by
    obtain ⟨hne, hp⟩ := Tree.pruned_iff.1 h.2.1 name c ((Tree.get_load h.1).1 hc)
    exact ⟨Tree.ordered_of_get_load h.1 hc, hp, fun _ => hne⟩

/-- Every shown directory in the side table has a file, unless it is empty. -/
def Filled (ed : TreeEditor O) : Prop :=
  ∀ d, d ≠ [] → ed.IsDir d → ed.subtrees.contains d = true → (ed.entriesAt d).entries ≠ [] →
    ∃ s oid, ed.file (d ++ s) = some oid

variable {child : Entries O} {d : List String}

theorem length_le_depth (h : ed.subtrees.get d = some child) : d.length ≤ ed.depth := by
  have hmem : d.length ∈ ed.subtrees.entries.map fun e => e.1.length :=
    List.mem_map.2 ⟨(d, child), Dict.get_eq_some_iff.1 h, rfl⟩
  rw [depth]
  generalize (ed.subtrees.entries.map fun e => e.1.length) = ls at hmem
  induction ls with
  | nil => cases hmem
  | cons l ls ih =>
    rw [List.foldr_cons]
    rcases List.mem_cons.1 hmem with rfl | hmem
    · exact le_max_left _ _
    · exact (ih hmem).trans (le_max_right _ _)

theorem get_of_loaded {P : Bool → Tree O → Prop} (h : Trees P ed)
    (hd : ed.subtrees.get d = some child) (hne : d ≠ []) {n : String}
    {t : Tree O} (hn : child.get n = some (.tree t)) : P (ed.subtrees.contains (d ++ [n])) t := by
  refine h d (.inr (by rw [Dict.contains, hd]; rfl)) n t ?_
  rw [entriesAt, if_neg hne, hd]
  exact hn

theorem allOrdered (h : Trees (fun _ t => t.Ordered) ed) : AllOrdered ed.subtrees :=
  fun _ _ hne hd _ _ hn => get_of_loaded h hd hne hn

theorem lt_of_get (h : ed.subtrees.get d = some child) :
    d.length < ([] : List String).length + (ed.depth + 1) := by
  have := length_le_depth h
  rw [List.length_nil]
  omega

theorem ordered_write (h : Trees (fun _ t => t.Ordered) ed) : ed.write.Ordered :=
  ordered_writeSubtree (allOrdered h) fun n t hn => h [] loaded_nil n t hn

/-- **The written tree holds the files that the editor shows.** -/
theorem file_write (hclosed : ed.Closed) (h : Trees (fun _ t => t.Ordered) ed)
    (path : List String) : ed.write.file path = ed.file path :=
  file_writeSubtree (allOrdered h) hclosed (fun n t hn => h [] loaded_nil n t hn)
    (Nat.succ_pos _) (fun _ _ hd _ => lt_of_get hd) path

theorem filledAt_root (h : ed.Filled) : FilledAt ed.subtrees [] ed.root := by
  intro r t child hr hentry hchild hne
  have hdir : ed.IsDir r := .inr ⟨t, hentry⟩
  have hc : ed.subtrees.contains r = true := by
    rw [Dict.contains, ← List.nil_append r, hchild]
    rfl
  have hat : ed.entriesAt r = child := by
    rw [entriesAt, if_neg hr, ← List.nil_append r, hchild]
    rfl
  obtain ⟨s, oid, hfile⟩ := h r hr hdir hc (by rwa [hat])
  have hs : s ≠ [] := by
    rintro rfl
    rw [List.append_nil, file_of_isDir hdir] at hfile
    cases hfile
  refine ⟨s, oid, ?_⟩
  rw [← hfile, file, entry_of_isDir hdir (.inr hc) hs, hat]
  rfl

/-- **The written tree has no empty subtree** when every directory in the side table has a file. -/
theorem pruned_write (hclosed : ed.Closed) (h : Trees Kept ed) (hfilled : ed.Filled) : ed.write.Pruned := by
  have hord : Trees (fun _ t => t.Ordered) ed := fun d hd n t hn => (h d hd n t hn).1
  have hwhole : ∀ d es, (∀ n t, es.get n = some (.tree t) →
      Kept (ed.subtrees.contains (d ++ [n])) t) → Whole ed.subtrees d es := by
    intro d es hes n t hn hnone
    obtain ⟨-, hp, hne⟩ := hes n t hn
    exact ⟨hne (contains_eq_false_iff.2 hnone), hp⟩
  refine pruned_writeSubtree (allOrdered hord) hclosed
    (fun d child hne hd => hwhole d child fun n t hn => get_of_loaded h hd hne hn)
    (fun n t hn => hord [] loaded_nil n t hn)
    (hwhole [] _ fun n t hn => h [] loaded_nil n t hn) (filledAt_root hfilled)
    fun _ _ hd _ => lt_of_get hd

end Written

end TreeEditor

end OpenViking.Git
