import OpenViking.Git.TreeEditor

/-!
# Updates of the tree editor

What `ensure_path_loaded`, `upsert` and `remove` (`crates/ragfs/src/git/tree_builder.rs`, 67-224) do to
the entries that the editor shows.  Results:

* `file_upsert`: `upsert` puts the file and drops those above and below it;
* `file_remove`: `remove` drops the path and what is below it.
-/

namespace OpenViking.Git

namespace TreeEditor

variable {O : Type*}

/-! ## Walking a path -/

/-- What walking a path leaves alone: whatever is not above its end. -/
structure SameOff (ed ed' : TreeEditor O) (dirs : List String) : Prop where
  entry : ∀ q, ¬ q <+: dirs → ed'.entry q = ed.entry q
  entriesAt : ∀ q, ¬ q <+: dirs → ed'.entriesAt q = ed.entriesAt q
  contains : ∀ q, ¬ q <+: dirs → ed'.subtrees.contains q = ed.subtrees.contains q

/-- No directory above the end of the path is left over in the side table from before something else
took its place. -/
def Clear (ed : TreeEditor O) (dirs : List String) : Prop :=
  ∀ d, d <+: dirs → ed.subtrees.contains d = true → ed.IsDir d

section Walk

variable {P : Bool → Tree O → Prop} {ed : TreeEditor O} {parent rest dirs : List String}
  {name : String}

theorem SameOff.trans {ed' ed'' : TreeEditor O} (h : SameOff ed ed' dirs)
    (h' : SameOff ed' ed'' dirs) : SameOff ed ed'' dirs where
  entry q hq := (h'.entry q hq).trans (h.entry q hq)
  entriesAt q hq := (h'.entriesAt q hq).trans (h.entriesAt q hq)
  contains q hq := (h'.contains q hq).trans (h.contains q hq)

theorem loaded_create (hload : ed.Loaded parent) :
    (ed.create parent name).Loaded (parent ++ [name]) :=
  .inr (by rw [contains_create hload, decide_eq_true rfl, Bool.true_or])

theorem closed_create (hclosed : ed.Closed) (hload : ed.Loaded parent) :
    (ed.create parent name).Closed := by
  intro d n hd hc
  rw [contains_create hload, Bool.or_eq_true, decide_eq_true_eq] at hc ⊢
  rcases hc with heq | hc
  · obtain ⟨rfl, -⟩ := List.append_inj' heq rfl
    exact .inr (hload.resolve_left hd)
  · exact .inr (hclosed d n hd hc)

theorem sameOff_load {t : Tree O} (hload : ed.Loaded parent)
    (hget : (ed.entriesAt parent).get name = some (.tree t))
    (hnew : ed.subtrees.contains (parent ++ [name]) = false) (hdirs : parent ++ [name] <+: dirs) :
    SameOff ed { ed with subtrees := ed.subtrees.set (parent ++ [name]) t.load } dirs where
  entry q _ := entry_load hload hget hnew q
  entriesAt q hq := by
    rw [entriesAt_set _ _ (by simp), if_neg]
    rintro rfl
    exact hq hdirs
  contains q hq := by
    rw [contains_set, decide_eq_false, Bool.false_or]
    rintro rfl
    exact hq hdirs

theorem sameOff_create (hdir : ed.IsDir parent) (hload : ed.Loaded parent)
    (hget : ∀ t, (ed.entriesAt parent).get name ≠ some (.tree t))
    (hdirs : parent ++ [name] <+: dirs) : SameOff ed (ed.create parent name) dirs where
  entry q hq := by
    rw [entry_create hdir hload hget, if_neg]
    rintro rfl
    exact hq hdirs
  entriesAt q hq := by
    rw [entriesAt_create, if_neg, if_neg]
    · rintro rfl
      exact hq ((List.prefix_append _ _).trans hdirs)
    · rintro rfl
      exact hq hdirs
  contains q hq := by
    rw [contains_create hload, decide_eq_false, Bool.false_or]
    rintro rfl
    exact hq hdirs

/-- The three ways to take a step down: the directory is in the side table, it is loaded, or there is
none. -/
theorem ensurePathLoaded_cons (ed : TreeEditor O) (parent : List String) (name : String)
    (rest : List String) (b : Bool) :
    (ed.subtrees.contains (parent ++ [name]) = true ∧
      ensurePathLoaded b ed parent (name :: rest) =
        ensurePathLoaded b ed (parent ++ [name]) rest) ∨
    (ed.subtrees.contains (parent ++ [name]) = false ∧
      ∃ t, (ed.entriesAt parent).get name = some (.tree t) ∧
        ensurePathLoaded b ed parent (name :: rest) =
          ensurePathLoaded b { ed with subtrees := ed.subtrees.set (parent ++ [name]) t.load }
            (parent ++ [name]) rest) ∨
    (ed.subtrees.contains (parent ++ [name]) = false ∧
      (∀ t, (ed.entriesAt parent).get name ≠ some (.tree t)) ∧
      ensurePathLoaded b ed parent (name :: rest) =
        if b then ensurePathLoaded b (ed.create parent name) (parent ++ [name]) rest
        else (false, ed)) := by
  by_cases hc : ed.subtrees.contains (parent ++ [name]) = true
  · exact .inl ⟨hc, by rw [ensurePathLoaded, if_pos hc]⟩
  · refine .inr ?_
    rw [ensurePathLoaded, if_neg hc]
    have hfalse : ed.subtrees.contains (parent ++ [name]) = false := by simpa using hc
    rcases hget : (ed.entriesAt parent).get name with _ | oid | t
    · refine .inr ⟨hfalse, nofun, ?_⟩
      cases b <;> rfl
    · refine .inr ⟨hfalse, nofun, ?_⟩
      cases b <;> rfl
    · exact .inl ⟨hfalse, t, rfl, rfl⟩

theorem trees_ensure (hP : Hereditary P) (b : Bool) (rest : List String) (h : Trees P ed) (hload : ed.Loaded parent) :
    Trees P (ensurePathLoaded b ed parent rest).2 := by
  induction rest generalizing ed parent with
  | nil => exact h
  | cons name rest ih =>
    rcases ensurePathLoaded_cons ed parent name rest b
      with ⟨hc, heq⟩ | ⟨-, t, hget, heq⟩ | ⟨-, -, heq⟩
    · rw [heq]
      exact ih h (.inr hc)
    · rw [heq]
      exact ih (trees_load hP h hload hget) (loaded_set_self _)
    · rw [heq]
      cases b with
      | false => exact h
      | true => exact ih (trees_create hP h hload) (loaded_create hload)

/-- **Walking a path and creating what is missing** leaves what is off the path alone. -/
theorem ensure_true (parent rest : List String) (hclosed : ed.Closed) (hdir : ed.IsDir parent) (hload : ed.Loaded parent)
    (hclear : ed.Clear (parent ++ rest)) :
    (ensurePathLoaded true ed parent rest).2.Closed ∧
      (ensurePathLoaded true ed parent rest).2.Loaded (parent ++ rest) ∧
      (ensurePathLoaded true ed parent rest).2.IsDir (parent ++ rest) ∧
      SameOff ed (ensurePathLoaded true ed parent rest).2 (parent ++ rest) := by
  induction rest generalizing ed parent with
  | nil =>
    rw [List.append_nil]
    exact ⟨hclosed, hload, hdir, fun _ _ => rfl, fun _ _ => rfl, fun _ _ => rfl⟩
  | cons name rest ih =>
    have hsplit : parent ++ name :: rest = parent ++ [name] ++ rest := by simp
    have hchild : parent ++ [name] <+: parent ++ name :: rest :=
      ⟨rest, hsplit.symm⟩
    rcases ensurePathLoaded_cons ed parent name rest true
      with ⟨hc, heq⟩ | ⟨hc, t, hget, heq⟩ | ⟨hc, hget, heq⟩
    · rw [heq, hsplit]
      exact ih _ hclosed (hclear _ hchild hc) (.inr hc) (hsplit ▸ hclear)
    · have hentry := entry_load hload hget hc
      have hIs : ∀ d, ({ ed with subtrees := ed.subtrees.set (parent ++ [name]) t.load } :
          TreeEditor O).IsDir d ↔ ed.IsDir d := fun d => by
        rw [IsDir, IsDir, hentry]
      have hchildDir : ed.IsDir (parent ++ [name]) := .inr ⟨t, (entry_child hdir hload name).trans hget⟩
      obtain ⟨h1, h2, h3, h4⟩ := ih _ (closed_set hclosed hload t.load) ((hIs _).2 hchildDir)
        (loaded_set_self _) (by
          intro d hd hcd
          rw [hIs]
          rw [contains_set, Bool.or_eq_true, decide_eq_true_eq] at hcd
          rcases hcd with rfl | hcd
          · exact hchildDir
          · exact hclear d (hsplit ▸ hd) hcd)
      rw [heq]
      rw [← hsplit] at h2 h3 h4
      exact ⟨h1, h2, h3, (sameOff_load hload hget hc hchild).trans h4⟩
    · have hchildDir : (ed.create parent name).IsDir (parent ++ [name]) :=
        .inr ⟨.nil, by rw [entry_create hdir hload hget, if_pos rfl]⟩
      obtain ⟨h1, h2, h3, h4⟩ := ih _ (closed_create hclosed hload) hchildDir (loaded_create hload) (by
          intro d hd hcd
          rw [contains_create hload, Bool.or_eq_true, decide_eq_true_eq] at hcd
          rcases hcd with rfl | hcd
          · exact hchildDir
          · have hdir' := hclear d (hsplit ▸ hd) hcd
            by_cases hdc : d = parent ++ [name]
            · rwa [hdc]
            · rcases hdir' with hnil | ⟨t, ht⟩
              · exact .inl hnil
              · exact .inr ⟨t, by rw [entry_create hdir hload hget, if_neg hdc, ht]⟩)
      rw [heq]
      rw [← hsplit] at h2 h3 h4
      exact ⟨h1, h2, h3, (sameOff_create hdir hload hget hchild).trans h4⟩

/-- **Walking a path that need not exist** shows everything as it was. -/
theorem ensure_false (parent rest : List String) (hclosed : ed.Closed) (hload : ed.Loaded parent) :
    (ensurePathLoaded false ed parent rest).2.Closed ∧
      (∀ q, (ensurePathLoaded false ed parent rest).2.entry q = ed.entry q) ∧
      ((ensurePathLoaded false ed parent rest).1 = true →
        (ensurePathLoaded false ed parent rest).2.Loaded (parent ++ rest)) ∧
      ((ensurePathLoaded false ed parent rest).1 = false → ¬ ed.IsDir (parent ++ rest)) := by
  induction rest generalizing ed parent with
  | nil =>
    rw [List.append_nil]
    exact ⟨hclosed, fun _ => rfl, fun _ => hload, nofun⟩
  | cons name rest ih =>
    have hsplit : parent ++ name :: rest = parent ++ [name] ++ rest := by simp
    rcases ensurePathLoaded_cons ed parent name rest false
      with ⟨hc, heq⟩ | ⟨hc, t, hget, heq⟩ | ⟨hc, hget, heq⟩
    · rw [heq, hsplit]
      exact ih _ hclosed (.inr hc)
    · have hentry := entry_load hload hget hc
      obtain ⟨h1, h2, h3, h4⟩ := ih _ (closed_set hclosed hload t.load) (loaded_set_self _)
      rw [heq, hsplit]
      refine ⟨h1, fun q => (h2 q).trans (hentry q), h3, fun hf hdir => h4 hf ?_⟩
      rwa [IsDir, hentry]
    · rw [heq]
      refine ⟨hclosed, fun _ => rfl, nofun, fun _ hdir => ?_⟩
      rw [hsplit] at hdir
      have hchild := isDir_of_append hdir
      obtain ⟨t, ht⟩ := hchild.resolve_left (by simp)
      have hparent := isDir_of_append hchild
      exact hget t ((entry_child hparent hload name).symm.trans ht)

end Walk

/-! ## Updates -/

section Updates

variable {P : Bool → Tree O → Prop} {ed : TreeEditor O} {dirs q : List String} {name : String}
  {oid : O}

theorem closed_setEntries (hclosed : ed.Closed) (hload : ed.Loaded dirs) (es : Entries O) :
    (ed.setEntries dirs es).Closed := by
  intro d n hd hc
  rw [contains_setEntries hload] at hc ⊢
  exact hclosed d n hd hc

theorem isDir_setEntries_self {es : Entries O} : (ed.setEntries dirs es).IsDir dirs ↔ ed.IsDir dirs := by
  rw [IsDir, IsDir, entry_setEntries_of_not]
  intro s hs heq
  exact hs (List.append_cancel_left (heq.symm.trans (List.append_nil _).symm))

theorem not_isDir_below (h : ed.entry dirs = some (.blob oid)) (hq : q ≠ []) :
    ed.entry (dirs ++ q) = none := by
  refine entry_of_not_isDir ?_ hq
  rintro (rfl | ⟨t, ht⟩)
  · cases h
  · rw [h] at ht
    cases ht

/-- An entry that is put into a directory changes only what is at its path and below. -/
theorem entry_put_of_not {e : Entry O} (hload : ed.Loaded dirs) (hdir : ed.IsDir dirs)
    (hq : ¬ dirs ++ [name] <+: q) : (ed.setEntries dirs ((ed.entriesAt dirs).put name e)).entry q = ed.entry q := by
  by_cases hbelow : ∃ s, s ≠ [] ∧ q = dirs ++ s
  · obtain ⟨s, hs, rfl⟩ := hbelow
    rw [entry_setEntries_append hdir hs, entry_of_isDir hdir hload hs]
    obtain ⟨name', s, rfl⟩ := List.exists_cons_of_ne_nil hs
    refine entryAt_put_of_ne ?_
    rintro rfl
    exact hq ⟨s, by simp⟩
  · exact entry_setEntries_of_not fun s hs heq => hbelow ⟨s, hs, heq⟩

/-- **What `upsert` does**, where no directory is left over above the path. -/
theorem upsert_spec (name : String) (oid : O) (hclosed : ed.Closed) (hclear : ed.Clear dirs) :
    (ed.upsert dirs name oid).Closed ∧ (ed.upsert dirs name oid).IsDir dirs ∧
      (ed.upsert dirs name oid).entry (dirs ++ [name]) = some (.blob oid) ∧
      (∀ q, ¬ q <+: dirs → ¬ dirs ++ [name] <+: q →
        (ed.upsert dirs name oid).entry q = ed.entry q) ∧
      (∀ q, ¬ q <+: dirs → (ed.upsert dirs name oid).entriesAt q = ed.entriesAt q ∧
        (ed.upsert dirs name oid).subtrees.contains q = ed.subtrees.contains q) := by
  obtain ⟨h1, h2, h3, h4⟩ := ensure_true [] dirs hclosed isDir_nil loaded_nil hclear
  rw [List.nil_append] at h2 h3 h4
  rw [upsert]
  generalize (ensurePathLoaded true ed [] dirs).2 = ed1 at h1 h2 h3 h4
  refine ⟨closed_setEntries h1 h2 _, isDir_setEntries_self.2 h3, ?_, fun q hq hpq => ?_,
    fun q hq => ⟨?_, ?_⟩⟩
  · rw [entry_setEntries_append h3 (List.cons_ne_nil _ _), entryAt_singleton,
      SortedMap.get_put_self]
  · rw [← h4.entry q hq, entry_put_of_not h2 h3 hpq]
  · rw [entriesAt_setEntries_of_ne, h4.entriesAt q hq]
    rintro rfl
    exact hq List.prefix_rfl
  · rw [contains_setEntries h2, h4.contains q hq]

/-- **`upsert` puts the file and drops those above and below it.** -/
theorem file_upsert (hclosed : ed.Closed) (hclear : ed.Clear dirs) (q : List String) :
    (ed.upsert dirs name oid).file q =
      if q = dirs ++ [name] then some oid
      else if q <+: dirs ++ [name] ∨ dirs ++ [name] <+: q then none else ed.file q := by
  obtain ⟨-, hdir, hentry, hoff, -⟩ := upsert_spec name oid hclosed hclear
  split
  · rename_i heq
    rw [heq, file, hentry, Entry.oid?_blob]
  · rename_i hne
    split
    · rename_i h
      rcases h with hq | ⟨s, rfl⟩
      · obtain ⟨r, hr⟩ := (List.prefix_concat_iff.1 hq).resolve_left hne
        subst hr
        exact file_of_isDir (isDir_of_append hdir)
      · have hs : s ≠ [] := fun hs => hne (by rw [hs, List.append_nil])
        rw [file, not_isDir_below hentry hs, Entry.oid?_none]
    · rename_i h
      rw [not_or] at h
      rw [file, hoff q (fun hq => h.1 (hq.trans (List.prefix_append _ _))) h.2, file]

theorem isDir_upsert (hclosed : ed.Closed) (hclear : ed.Clear dirs) (hd : (ed.upsert dirs name oid).IsDir q) :
    q <+: dirs ∨ (¬ dirs ++ [name] <+: q ∧ ed.IsDir q) := by
  obtain ⟨-, -, hentry, hoff, -⟩ := upsert_spec name oid hclosed hclear
  by_cases hq : q <+: dirs
  · exact .inl hq
  · refine .inr ?_
    have hpq : ¬ dirs ++ [name] <+: q := by
      rintro ⟨s, rfl⟩
      obtain ⟨t, ht⟩ := (isDir_of_append hd).resolve_left (by simp)
      rw [hentry] at ht
      cases ht
    refine ⟨hpq, ?_⟩
    rwa [IsDir, hoff q hq hpq] at hd

theorem trees_upsert (hP : Hereditary P) (h : Trees P ed) (hclosed : ed.Closed)
    (hclear : ed.Clear dirs) : Trees P (ed.upsert dirs name oid) := by
  obtain ⟨-, h2, -, -⟩ := ensure_true [] dirs hclosed isDir_nil loaded_nil hclear
  have h1 := trees_ensure hP true dirs h loaded_nil
  rw [List.nil_append] at h2
  refine trees_setEntries h1 h2 fun n t hn => ?_
  rw [SortedMap.get_put] at hn
  split at hn
  · cases hn
  · exact h1 dirs h2 n t hn

/-- **What `remove` does.** -/
theorem remove_spec (hclosed : ed.Closed) (dirs : List String) (name : String) :
    (ed.remove dirs name).Closed ∧ ∀ q, (ed.remove dirs name).entry q =
      if dirs ++ [name] <+: q then none else ed.entry q := by
  obtain ⟨h1, h2, h3, h4⟩ := ensure_false [] dirs hclosed loaded_nil
  rw [List.nil_append] at h3 h4
  rw [remove]
  generalize ensurePathLoaded false ed [] dirs = r at h1 h2 h3 h4
  obtain ⟨flag, ed1⟩ := r
  cases flag with
  | false =>
    refine ⟨h1, fun q => (h2 q).trans ?_⟩
    by_cases hpq : dirs ++ [name] <+: q
    · obtain ⟨s, rfl⟩ := hpq
      rw [if_pos (List.prefix_append _ _), List.append_assoc, entry_of_not_isDir (h4 rfl)]
      simp
    · rw [if_neg hpq]
  | true =>
    have hload : ed1.Loaded dirs := h3 rfl
    refine ⟨closed_setEntries h1 hload _, fun q => ?_⟩
    show (ed1.setEntries dirs ((ed1.entriesAt dirs).erase name)).entry q = _
    rw [← h2 q]
    by_cases hdir : ed1.IsDir dirs
    · by_cases hbelow : ∃ s, s ≠ [] ∧ q = dirs ++ s
      · obtain ⟨s, hs, rfl⟩ := hbelow
        obtain ⟨name', s, rfl⟩ := List.exists_cons_of_ne_nil hs
        have hiff : dirs ++ [name] <+: dirs ++ name' :: s ↔ name' = name := by
          rw [List.prefix_append_right_inj, List.cons_prefix_cons]
          simp [eq_comm]
        rw [entry_setEntries_append hdir hs, entryAt_erase, entry_of_isDir hdir hload hs]
        simp only [hiff]
      · rw [entry_setEntries_of_not fun s hs heq => hbelow ⟨s, hs, heq⟩, if_neg]
        rintro ⟨s, rfl⟩
        exact hbelow ⟨[name] ++ s, by simp, by simp⟩
    · rw [entry_setEntries_of_not_isDir hdir]
      split
      · rename_i hpq
        obtain ⟨s, rfl⟩ := hpq
        rw [List.append_assoc, entry_of_not_isDir hdir (by simp)]
      · rfl

/-- **`remove` drops the path and what is below it.** -/
theorem file_remove (hclosed : ed.Closed) (q : List String) :
    (ed.remove dirs name).file q = if dirs ++ [name] <+: q then none else ed.file q := by
  rw [file, (remove_spec hclosed dirs name).2]
  split <;> rfl

theorem trees_remove (hP : Hereditary P) (h : Trees P ed) (hclosed : ed.Closed) :
    Trees P (ed.remove dirs name) := by
  obtain ⟨-, -, h3, -⟩ := ensure_false [] dirs hclosed loaded_nil
  have h1 := trees_ensure hP false dirs h loaded_nil
  rw [List.nil_append] at h3
  rw [remove]
  generalize ensurePathLoaded false ed [] dirs = r at h1 h3
  obtain ⟨flag, ed1⟩ := r
  cases flag with
  | false => exact h1
  | true =>
    refine trees_setEntries h1 (h3 rfl) fun n t hn => ?_
    rw [SortedMap.get_erase] at hn
    split at hn
    · cases hn
    · exact h1 dirs (h3 rfl) n t hn

end Updates

end TreeEditor

end OpenViking.Git
