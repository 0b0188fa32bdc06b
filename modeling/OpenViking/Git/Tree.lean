import OpenViking.Common.SortedMap
import Mathlib.Data.String.Basic
import Mathlib.Tactic.Common

/-!
# Tree objects

The tree objects of the snapshots (`crates/ragfs/src/git/tree_builder.rs`): loading, looking a path up
and flattening.

An object id is identified with the tree it names: no object is missing and no two have one id.
Entries stand in the order of their names; git's order, in which a directory sorts as if its name
ended in a slash, is a function of them.  Results:

* `Tree.eq_of_file_eq`: such trees are equal when they hold the same files;
* `Tree.mem_flatten`: what `flatten` lists.
-/

namespace OpenViking.Git

/-- A tree object: its entries, each a blob or another tree. -/
inductive Tree (O : Type*) where
  | nil
  | blob (name : String) (oid : O) (rest : Tree O)
  | sub (name : String) (child rest : Tree O)
  deriving DecidableEq

/-- What a name stands for in a tree. -/
inductive Entry (O : Type*) where
  | blob (oid : O)
  | tree (tree : Tree O)
  deriving DecidableEq

/-- `TreeEntries`: the entries of a tree by name. -/
abbrev Entries (O : Type*) := SortedMap String (Entry O)

variable {O : Type*}

/-- The blob of an entry. -/
def Entry.oid? : Option (Entry O) → Option O
  | some (.blob oid) => some oid
  | _ => none

@[simp] theorem Entry.oid?_none : Entry.oid? (none : Option (Entry O)) = none := rfl

@[simp] theorem Entry.oid?_blob (oid : O) : Entry.oid? (some (.blob oid)) = some oid := rfl

@[simp] theorem Entry.oid?_tree (t : Tree O) : Entry.oid? (some (.tree t)) = none := rfl

theorem Entry.eq_of_oid? {e : Option (Entry O)} {oid : O} (h : Entry.oid? e = some oid) :
    e = some (.blob oid) := by
  rcases e with _ | oid' | t
  · cases h
  · rw [Option.some.inj h]
  · cases h

namespace Tree

/-! ## Entries -/

def entries : Tree O → List (String × Entry O)
  | nil => []
  | blob name oid rest => (name, .blob oid) :: rest.entries
  | sub name child rest => (name, .tree child) :: rest.entries

def ofEntries : List (String × Entry O) → Tree O
  | [] => nil
  | (name, .blob oid) :: es => blob name oid (ofEntries es)
  | (name, .tree child) :: es => sub name child (ofEntries es)

@[simp] theorem entries_ofEntries (es : List (String × Entry O)) : (ofEntries es).entries = es := by
  induction es with
  | nil => rfl
  | cons e es ih =>
    obtain ⟨name, oid | child⟩ := e
    · simp only [ofEntries, entries, ih]
    · simp only [ofEntries, entries, ih]

@[simp] theorem ofEntries_entries (t : Tree O) : ofEntries t.entries = t := by
  induction t with
  | nil => rfl
  | blob name oid rest ih => simp only [entries, ofEntries, ih]
  | sub name child rest _ ih => simp only [entries, ofEntries, ih]

variable {name : String}

theorem sizeOf_lt_of_mem {t c : Tree O} (h : (name, .tree c) ∈ t.entries) : sizeOf c < sizeOf t := by
  induction t with
  | nil => cases h
  | blob n oid rest ih =>
    have hmem : (name, Entry.tree c) ∈ rest.entries := by simpa [entries] using h
    have := ih hmem
    simp only [blob.sizeOf_spec]
    omega
  | sub n child rest _ ih =>
    simp only [sub.sizeOf_spec]
    rcases List.mem_cons.1 h with heq | hmem
    · obtain ⟨-, rfl⟩ : name = n ∧ c = child := by simpa using heq
      omega
    · have := ih hmem
      omega

/-- `load_tree_entries` (415-426). -/
def load (t : Tree O) : Entries O := t.entries.foldl (fun m e => m.put e.1 e.2) .empty

/-- `lookup` (474-483) on the components of a path. -/
def lookup : Tree O → List String → Option (Entry O)
  | _, [] => none
  | t, [name] => t.load.get name
  | t, name :: path =>
    match t.load.get name with
    | some (.tree child) => child.lookup path
    | _ => none

/-- The file at a path. -/
def file (t : Tree O) (path : List String) : Option O := Entry.oid? (t.lookup path)

/-- The blobs of a tree with their paths. -/
def leaves : List String → Tree O → List (List String × O)
  | _, nil => []
  | above, blob name oid rest => (above ++ [name], oid) :: leaves above rest
  | above, sub name child rest => leaves (above ++ [name]) child ++ leaves above rest

/-- `flatten` (428-470) without a filter, which sorts by path. -/
def flatten (t : Tree O) : List (List String × O) :=
  (leaves [] t).mergeSort fun a b => decide ("/".intercalate a.1 ≤ "/".intercalate b.1)

/-! ## Ordered trees -/

/-- The names are distinct and in order. -/
def Ordered : Tree O → Prop
  | nil => True
  | blob name _ rest => (∀ e ∈ rest.entries, name < e.1) ∧ rest.Ordered
  | sub name child rest =>
    child.Ordered ∧ (∀ e ∈ rest.entries, name < e.1) ∧ rest.Ordered

/-- No subtree is empty. -/
def Pruned : Tree O → Prop
  | nil => True
  | blob _ _ rest => rest.Pruned
  | sub _ child rest => child ≠ nil ∧ child.Pruned ∧ rest.Pruned

instance decidableOrdered : (t : Tree O) → Decidable t.Ordered
  | nil => isTrue trivial
  | blob name _ rest =>
    have := decidableOrdered rest
    inferInstanceAs (Decidable ((∀ e ∈ rest.entries, name < e.1) ∧ rest.Ordered))
  | sub name child rest =>
    have := decidableOrdered child
    have := decidableOrdered rest
    inferInstanceAs (Decidable (child.Ordered ∧ (∀ e ∈ rest.entries, name < e.1) ∧ rest.Ordered))

variable {t : Tree O}

theorem ordered_iff :
    t.Ordered ↔ t.entries.Pairwise (fun x y => x.1 < y.1) ∧
      ∀ name c, (name, .tree c) ∈ t.entries → c.Ordered := by
  induction t with
  | nil => simp [Ordered, entries]
  | blob n oid rest ih =>
    rw [Ordered, ih, entries, List.pairwise_cons]
    constructor
    · rintro ⟨hlt, hrest, hsub⟩
      refine ⟨⟨hlt, hrest⟩, fun name c h => hsub name c ?_⟩
      simpa using h
    · rintro ⟨⟨hlt, hrest⟩, hsub⟩
      exact ⟨hlt, hrest, fun name c h => hsub name c (List.mem_cons_of_mem _ h)⟩
  | sub n child rest _ ih =>
    rw [Ordered, ih, entries, List.pairwise_cons]
    constructor
    · rintro ⟨hchild, hlt, hrest, hsub⟩
      refine ⟨⟨hlt, hrest⟩, fun name c h => ?_⟩
      rcases List.mem_cons.1 h with heq | hmem
      · obtain ⟨-, rfl⟩ : name = n ∧ c = child := by simpa using heq
        exact hchild
      · exact hsub name c hmem
    · rintro ⟨⟨hlt, hrest⟩, hsub⟩
      exact ⟨hsub n child List.mem_cons_self, hlt, hrest,
        fun name c h => hsub name c (List.mem_cons_of_mem _ h)⟩

theorem pruned_iff : t.Pruned ↔ ∀ name c, (name, .tree c) ∈ t.entries → c ≠ nil ∧ c.Pruned := by
  induction t with
  | nil => simp [Pruned, entries]
  | blob n oid rest ih =>
    rw [Pruned, ih, entries]
    constructor
    · intro hsub name c h
      refine hsub name c ?_
      simpa using h
    · exact fun hsub name c h => hsub name c (List.mem_cons_of_mem _ h)
  | sub n child rest _ ih =>
    rw [Pruned, ih, entries]
    constructor
    · rintro ⟨hne, hchild, hsub⟩ name c h
      rcases List.mem_cons.1 h with heq | hmem
      · obtain ⟨-, rfl⟩ : name = n ∧ c = child := by simpa using heq
        exact ⟨hne, hchild⟩
      · exact hsub name c hmem
    · intro hsub
      obtain ⟨hne, hchild⟩ := hsub n child List.mem_cons_self
      exact ⟨hne, hchild, fun name c h => hsub name c (List.mem_cons_of_mem _ h)⟩

theorem foldl_put_sorted {es : List (String × Entry O)} {m : Entries O}
    (h : (m.entries ++ es).Pairwise fun x y => x.1 < y.1) :
    (es.foldl (fun m e => m.put e.1 e.2) m).entries = m.entries ++ es := by
  induction es generalizing m with
  | nil => simp
  | cons e es ih =>
    have hlt : ∀ x ∈ m.entries, x.1 < e.1 := fun x hx =>
      (List.pairwise_append.1 h).2.2 x hx e List.mem_cons_self
    have hput := SortedMap.entries_put_of_lt e.2 hlt
    rw [List.foldl_cons, ih, hput, List.append_assoc]
    · rfl
    · rw [hput, List.append_assoc]
      exact h

/-- An ordered tree is loaded as it is. -/
theorem entries_load (h : t.Ordered) : t.load.entries = t.entries :=
  foldl_put_sorted (m := .empty) (by simpa using (ordered_iff.1 h).1)

theorem get_load (h : t.Ordered) {e : Entry O} : t.load.get name = some e ↔ (name, e) ∈ t.entries := by
  rw [← SortedMap.mem_entries_iff, entries_load h]

theorem ordered_of_get_load {t c : Tree O} (h : t.Ordered)
    (hc : t.load.get name = some (.tree c)) : c.Ordered :=
  (ordered_iff.1 h).2 name c ((get_load h).1 hc)

/-! ## Files -/

@[simp] theorem file_nil (t : Tree O) : t.file [] = none := rfl

theorem file_cons (t : Tree O) (name : String) (path : List String) :
    t.file (name :: path) =
      match t.load.get name with
      | some (.blob oid) => if path = [] then some oid else none
      | some (.tree child) => child.file path
      | none => none := by
  cases path with
  | nil =>
    rw [file, lookup]
    rcases t.load.get name with _ | oid | child <;> rfl
  | cons n path =>
    rw [file, lookup]
    · rcases t.load.get name with _ | oid | child <;> rfl
    · nofun

/-- A tree without empty subtrees holds a file unless it is empty. -/
theorem exists_file (h : t.Ordered) (hp : t.Pruned) (hne : t ≠ nil) :
    ∃ path oid, t.file path = some oid := by
  induction t with
  | nil => exact absurd rfl hne
  | blob name oid rest _ =>
    refine ⟨[name], oid, ?_⟩
    rw [file_cons, (get_load h).2 List.mem_cons_self]
    rfl
  | sub name child rest ih _ =>
    obtain ⟨path, oid, hfile⟩ := ih h.1 hp.2.1 hp.1
    refine ⟨name :: path, oid, ?_⟩
    rw [file_cons, (get_load h).2 List.mem_cons_self]
    exact hfile

/-- An entry of a tree is one of a tree that holds the same files, when subtrees that hold the same
files are equal. -/
theorem mem_entries_of_file_eq {t u : Tree O} (ht : t.Ordered) (htp : t.Pruned) (hu : u.Ordered)
    (hup : u.Pruned) (h : ∀ path, t.file path = u.file path)
    (hsub : ∀ c c' : Tree O, sizeOf c < sizeOf t → sizeOf c' < sizeOf u →
      c.Ordered → c.Pruned → c'.Ordered → c'.Pruned → (∀ path, c.file path = c'.file path) → c = c')
    {e : String × Entry O} (he : e ∈ t.entries) : e ∈ u.entries := by
  obtain ⟨name, oid | c⟩ := e
  · have hfile := h [name]
    rw [file_cons t, (get_load ht).2 he] at hfile
    have hblob : u.lookup [name] = some (.blob oid) := Entry.eq_of_oid? hfile.symm
    exact (get_load hu).1 hblob
  · have hc := (ordered_iff.1 ht).2 name c he
    obtain ⟨hne, hcp⟩ := pruned_iff.1 htp name c he
    obtain ⟨path, oid, hpath⟩ := exists_file hc hcp hne
    have hall : ∀ q, c.file q = u.file (name :: q) := fun q => by
      rw [← h, file_cons t, (get_load ht).2 he]
    have hfile : u.file (name :: path) = some oid := (hall path).symm.trans hpath
    have hpne : path ≠ [] := by
      rintro rfl
      cases hpath
    rw [file_cons] at hfile
    cases hget : u.load.get name with
    | none =>
      rw [hget] at hfile
      cases hfile
    | some e' =>
      cases e' with
      | blob oid' =>
        rw [hget] at hfile
        simp only [if_neg hpne] at hfile
        cases hfile
      | tree c' =>
        have hmem := (get_load hu).1 hget
        have heq : c = c' := by
          refine hsub c c' (sizeOf_lt_of_mem he) (sizeOf_lt_of_mem hmem) hc hcp
            (ordered_of_get_load hu hget) (pruned_iff.1 hup name c' hmem).2 fun q => ?_
          rw [hall q, file_cons, hget]
        rw [heq]
        exact hmem

/-- **Trees without empty subtrees that hold the same files are equal.** -/
theorem eq_of_file_eq {t u : Tree O} (ht : t.Ordered) (htp : t.Pruned) (hu : u.Ordered)
    (hup : u.Pruned) (h : ∀ path, t.file path = u.file path) : t = u := by
  induction hn : sizeOf t + sizeOf u using Nat.strong_induction_on generalizing t u with
  | _ n ih =>
    have hentries : t.entries = u.entries := by
      refine SortedMap.entries_ext (ordered_iff.1 ht).1 (ordered_iff.1 hu).1 fun e => ⟨?_, ?_⟩
      · refine mem_entries_of_file_eq ht htp hu hup h
          fun c c' hc hc' hco hcp hco' hcp' hfiles => ?_
        exact ih _ (by omega) hco hcp hco' hcp' hfiles rfl
      · refine mem_entries_of_file_eq hu hup ht htp (fun q => (h q).symm)
          fun c c' hc hc' hco hcp hco' hcp' hfiles => ?_
        exact ih _ (by omega) hco hcp hco' hcp' hfiles rfl
    rw [← ofEntries_entries t, hentries, ofEntries_entries]

/-! ## Flattening -/

variable {oid : O}

variable {path above q p : List String}

/-- What a path of a tree goes through. -/
theorem file_cons_eq_some (h : t.Ordered) : t.file (name :: path) = some oid ↔
      (path = [] ∧ (name, .blob oid) ∈ t.entries) ∨
        ∃ c, (name, .tree c) ∈ t.entries ∧ c.file path = some oid := by
  simp only [← get_load h]
  rw [file_cons]
  cases hget : t.load.get name with
  | none => simp
  | some e =>
    cases e with
    | blob oid' => by_cases hp : path = [] <;> simp [hp]
    | tree c =>
      constructor
      · exact fun hfile => .inr ⟨c, rfl, hfile⟩
      · rintro (⟨-, hblob⟩ | ⟨c', hc, hfile⟩)
        · cases hblob
        · obtain rfl : c = c' := by simpa using hc
          exact hfile

theorem mem_leaves_iff_entries :
    (q, oid) ∈ leaves above t ↔ ∃ name, ((name, .blob oid) ∈ t.entries ∧ q = above ++ [name]) ∨
      ∃ c, (name, .tree c) ∈ t.entries ∧ (q, oid) ∈ leaves (above ++ [name]) c := by
  induction t with
  | nil => simp [leaves, entries]
  | blob n o rest ih =>
    rw [leaves, List.mem_cons, ih, entries]
    constructor
    · rintro (heq | ⟨name, ⟨hmem, hq⟩ | ⟨c, hmem, hq⟩⟩)
      · obtain ⟨rfl, rfl⟩ := Prod.mk.inj heq
        exact ⟨n, .inl ⟨List.mem_cons_self, rfl⟩⟩
      · exact ⟨name, .inl ⟨List.mem_cons_of_mem _ hmem, hq⟩⟩
      · exact ⟨name, .inr ⟨c, List.mem_cons_of_mem _ hmem, hq⟩⟩
    · rintro ⟨name, ⟨hmem, rfl⟩ | ⟨c, hmem, hq⟩⟩
      · rcases List.mem_cons.1 hmem with heq | hmem
        · obtain ⟨rfl, rfl⟩ : name = n ∧ oid = o := by simpa using heq
          exact .inl rfl
        · exact .inr ⟨name, .inl ⟨hmem, rfl⟩⟩
      · exact .inr ⟨name, .inr ⟨c, by simpa using hmem, hq⟩⟩
  | sub n child rest _ ih =>
    rw [leaves, List.mem_append, ih, entries]
    constructor
    · rintro (hq | ⟨name, ⟨hmem, hq⟩ | ⟨c, hmem, hq⟩⟩)
      · exact ⟨n, .inr ⟨child, List.mem_cons_self, hq⟩⟩
      · exact ⟨name, .inl ⟨List.mem_cons_of_mem _ hmem, hq⟩⟩
      · exact ⟨name, .inr ⟨c, List.mem_cons_of_mem _ hmem, hq⟩⟩
    · rintro ⟨name, ⟨hmem, rfl⟩ | ⟨c, hmem, hq⟩⟩
      · exact .inr ⟨name, .inl ⟨by simpa using hmem, rfl⟩⟩
      · rcases List.mem_cons.1 hmem with heq | hmem
        · obtain ⟨rfl, rfl⟩ : name = n ∧ c = child := by simpa using heq
          exact .inl hq
        · exact .inr ⟨name, .inr ⟨c, hmem, hq⟩⟩

theorem mem_leaves (h : t.Ordered) :
    (q, oid) ∈ leaves above t ↔ ∃ path, q = above ++ path ∧ t.file path = some oid := by
  induction hn : sizeOf t using Nat.strong_induction_on generalizing t above with
  | _ n ih =>
    have hchild : ∀ name c, (name, .tree c) ∈ t.entries →
        ((q, oid) ∈ leaves (above ++ [name]) c ↔
          ∃ path, q = above ++ name :: path ∧ c.file path = some oid) := by
      intro name c hmem
      rw [ih _ (hn ▸ sizeOf_lt_of_mem hmem) ((ordered_iff.1 h).2 name c hmem) rfl]
      simp only [List.append_assoc, List.singleton_append]
    rw [mem_leaves_iff_entries]
    constructor
    · rintro ⟨name, ⟨hmem, rfl⟩ | ⟨c, hmem, hq⟩⟩
      · exact ⟨[name], rfl, (file_cons_eq_some h).2 (.inl ⟨rfl, hmem⟩)⟩
      · obtain ⟨path, rfl, hfile⟩ := (hchild name c hmem).1 hq
        exact ⟨name :: path, rfl, (file_cons_eq_some h).2 (.inr ⟨c, hmem, hfile⟩)⟩
    · rintro ⟨path, rfl, hfile⟩
      cases path with
      | nil => cases hfile
      | cons name path =>
        rcases (file_cons_eq_some h).1 hfile with ⟨rfl, hmem⟩ | ⟨c, hmem, hfile⟩
        · exact ⟨name, .inl ⟨hmem, rfl⟩⟩
        · exact ⟨name, .inr ⟨c, hmem, (hchild name c hmem).2 ⟨path, rfl, hfile⟩⟩⟩

/-- **`flatten` lists the files of the tree.** -/
theorem mem_flatten (h : t.Ordered) : (path, oid) ∈ t.flatten ↔ t.file path = some oid := by
  rw [flatten, List.mem_mergeSort, mem_leaves h]
  constructor
  · rintro ⟨p, rfl, hfile⟩
    exact hfile
  · intro hfile
    exact ⟨path, rfl, hfile⟩

/-- The paths of a tree start with its names. -/
theorem not_mem_leaves (h : t.Ordered) (hlt : ∀ e ∈ t.entries, name < e.1) (above path : List String) :
    above ++ name :: path ∉ (leaves above t).map Prod.fst := by
  intro hmem
  obtain ⟨⟨q, oid⟩, hq, heq⟩ := List.mem_map.1 hmem
  obtain ⟨path', rfl, hfile⟩ := (mem_leaves h).1 hq
  obtain rfl : path' = name :: path := List.append_cancel_left heq
  rcases (file_cons_eq_some h).1 hfile with ⟨-, hentry⟩ | ⟨c, hentry, -⟩
  · exact lt_irrefl _ (hlt _ hentry)
  · exact lt_irrefl _ (hlt _ hentry)

theorem nodup_leaves (h : t.Ordered) (above : List String) : ((leaves above t).map Prod.fst).Nodup := by
  induction t generalizing above with
  | nil => exact List.nodup_nil
  | blob name oid rest ih =>
    rw [leaves, List.map_cons, List.nodup_cons]
    exact ⟨not_mem_leaves h.2 h.1 above [], ih h.2 above⟩
  | sub name child rest ihc ih =>
    obtain ⟨hchild, hlt, hcan⟩ := h
    rw [leaves, List.map_append, List.nodup_append]
    refine ⟨ihc hchild _, ih hcan above, ?_⟩
    rintro q hq q' hq' rfl
    obtain ⟨⟨_, oid⟩, hmem, rfl⟩ := List.mem_map.1 hq
    obtain ⟨path, rfl, -⟩ := (mem_leaves hchild).1 hmem
    refine not_mem_leaves hcan hlt above path ?_
    simpa only [List.append_assoc, List.singleton_append] using hq'

/-- `flatten` lists a path once. -/
theorem nodup_flatten (h : t.Ordered) : (t.flatten.map Prod.fst).Nodup :=
  ((List.mergeSort_perm _ _).map _).nodup_iff.2 (nodup_leaves h [])

/-! ## Below a path -/

theorem ordered_of_lookup {t c : Tree O} (h : t.Ordered) (hc : t.lookup p = some (.tree c)) : c.Ordered := by
  induction p generalizing t with
  | nil => cases hc
  | cons name p ih =>
    by_cases hp : p = []
    · subst hp
      rw [lookup] at hc
      exact ordered_of_get_load h hc
    · rw [lookup] at hc
      · split at hc
        · rename_i child hget
          exact ih (ordered_of_get_load h hget) hc
        · cases hc
      · exact hp

/-- The files below a directory are those of its tree. -/
theorem file_append {t c : Tree O} (hc : t.lookup p = some (.tree c))
    (s : List String) : t.file (p ++ s) = c.file s := by
  by_cases hs : s = []
  · subst hs
    rw [List.append_nil, file, hc]
    rfl
  · induction p generalizing t with
    | nil => cases hc
    | cons name p ih =>
      have hne : p ++ s ≠ [] := List.append_ne_nil_of_right_ne_nil _ hs
      rw [List.cons_append, file, lookup]
      · by_cases hp : p = []
        · subst hp
          rw [lookup] at hc
          rw [hc]
          rfl
        · rw [lookup] at hc
          · split at hc
            · exact ih hc
            · cases hc
          · exact hp
      · exact hne

/-- Nothing is below a path that is no directory. -/
theorem file_append_of_ne {s : List String} (hp : p ≠ [])
    (h : ∀ c, t.lookup p ≠ some (.tree c)) (hs : s ≠ []) : t.file (p ++ s) = none := by
  induction p generalizing t with
  | nil => exact absurd rfl hp
  | cons name p ih =>
    have hne : p ++ s ≠ [] := List.append_ne_nil_of_right_ne_nil _ hs
    rw [List.cons_append, file, lookup]
    · rcases hget : t.load.get name with _ | oid | child
      · rfl
      · rfl
      · by_cases hp : p = []
        · subst hp
          exact absurd hget (h child)
        · refine ih hp fun c hc => h c ?_
          rw [lookup, hget]
          · exact hc
          · exact hp
    · exact hne

/-- No file is above another. -/
theorem eq_of_prefix {oid oid' : O} (hp : t.file p = some oid)
    (hq : t.file q = some oid') (h : p <+: q) : p = q := by
  obtain ⟨s, rfl⟩ := h
  by_contra hne
  have hs : s ≠ [] := fun hs => hne (by rw [hs, List.append_nil])
  have hp' : p ≠ [] := by
    rintro rfl
    cases hp
  rw [file_append_of_ne hp' (fun c hc => ?_) hs] at hq
  · cases hq
  · rw [file, hc] at hp
    cases hp

theorem mem_of_lookup {α β : Type*} [BEq α] [LawfulBEq α] {l : List (α × β)} {a : α} {b : β}
    (h : l.lookup a = some b) : (a, b) ∈ l := by
  obtain ⟨l₁, l₂, heq, -⟩ := List.lookup_eq_some_iff.1 h
  rw [heq]
  exact List.mem_append_right _ (List.mem_cons_self ..)

theorem exists_lookup {α β : Type*} [BEq α] [LawfulBEq α] {l : List (α × β)} {a : α} {b : β}
    (h : (a, b) ∈ l) : ∃ b', l.lookup a = some b' := by
  by_contra hnone
  have hall := List.lookup_eq_none_iff.1
    (Option.eq_none_iff_forall_ne_some.2 fun x hx => hnone ⟨x, hx⟩)
  simpa using hall _ h

/-- A list that says one thing of a path is read by its members. -/
theorem lookup_eq_of_mem {β : Type*} {l : List (List String × β)} {f : List String → Option β}
    (h : ∀ p b, (p, b) ∈ l ↔ f p = some b) (p : List String) : l.lookup p = f p := by
  apply Option.ext
  intro b
  rw [← h]
  constructor
  · exact mem_of_lookup
  · intro hmem
    obtain ⟨b', hl⟩ := exists_lookup hmem
    rw [hl, ← (h p b').1 (mem_of_lookup hl), (h p b).1 hmem]

theorem lookup_flatten (h : t.Ordered) (p : List String) :
    t.flatten.lookup p = t.file p := lookup_eq_of_mem (fun _ _ => mem_flatten h) p

end Tree

end OpenViking.Git
