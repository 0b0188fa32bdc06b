import OpenViking.Git.EditorUpdates
import OpenViking.Git.EditorWrite

/-!
# Splicing a subtree into the tree editor

What `upsert_subtree` (`crates/ragfs/src/git/tree_builder.rs`, 240-290) does to the files that the editor
shows.  Results:

* `entry_filter`: dropping directories of the side table changes nothing elsewhere;
* `upsertSubtree_spec`: the subtree stands at the path, and what was at, above and below it is gone.
-/

namespace OpenViking.Git

namespace TreeEditor

variable {O : Type*}

section Splice

variable {ed : TreeEditor O} {dirs q : List String} {name : String}

theorem ne_append {p s : List String} (hs : s ≠ []) : p ≠ p ++ s := fun heq =>
  hs (List.append_cancel_left (heq.symm.trans (List.append_nil _).symm))

/-- A side table without the directories at and below a path shows what is not below it as before. -/
theorem entry_filter (p : List String) (hq : ∀ s, s ≠ [] → q ≠ p ++ s) :
    ({ ed with subtrees := ed.subtrees.filter fun d _ => !p.isPrefixOf d } : TreeEditor O).entry q =
      ed.entry q := by
  refine entryAt_congr fun r s hrs _ hs => ?_
  rw [List.nil_append, Dict.get_filter]
  have hnot : p.isPrefixOf r = false := by
    rw [Bool.eq_false_iff, ne_eq, List.isPrefixOf_iff_prefix]
    rintro ⟨r', rfl⟩
    exact hq (r' ++ s) (List.append_ne_nil_of_right_ne_nil _ hs) (by rw [hrs, List.append_assoc])
  cases ed.subtrees.get r with
  | none => rfl
  | some es => rw [Option.filter_some, hnot, Bool.not_false, if_pos rfl]

/-- **What `upsert_subtree` does**, where no directory is left over above the path. -/
theorem upsertSubtree_spec (hclosed : ed.Closed) (hclear : ed.Clear dirs)
    (htrees : Trees (fun _ t => t.Ordered) ed) (name : String) {t : Tree O} (ht : t.Ordered) :
    (ed.upsertSubtree dirs name t).Closed ∧
      Trees (fun _ t => t.Ordered) (ed.upsertSubtree dirs name t) ∧
      (∀ s, (ed.upsertSubtree dirs name t).file (dirs ++ [name] ++ s) = t.file s) ∧
      ∀ q, ¬ dirs ++ [name] <+: q → (ed.upsertSubtree dirs name t).file q =
        if q <+: dirs then none else ed.file q := by
  obtain ⟨h1, h2, h3, h4⟩ := ensure_true [] dirs hclosed isDir_nil loaded_nil hclear
  have h5 := trees_ensure hereditary_ordered true dirs htrees loaded_nil
  rw [List.nil_append] at h2 h3 h4
  rw [upsertSubtree]
  generalize (ensurePathLoaded true ed [] dirs).2 = ed1 at h1 h2 h3 h4 h5
  have hset := closed_setEntries h1 h2 ((ed1.entriesAt dirs).put name (.tree t))
  have htset : Trees (fun _ t => t.Ordered)
      (ed1.setEntries dirs ((ed1.entriesAt dirs).put name (.tree t))) := by
    refine trees_setEntries h5 h2 fun n c hn => ?_
    rw [SortedMap.get_put] at hn
    split at hn
    · obtain rfl : t = c := by simpa using hn
      exact ht
    · exact h5 dirs h2 n c hn
  have hself : (ed1.setEntries dirs ((ed1.entriesAt dirs).put name (.tree t))).entry
      (dirs ++ [name]) = some (.tree t) := by
    rw [entry_setEntries_append h3 (List.cons_ne_nil _ _), entryAt_singleton,
      SortedMap.get_put_self]
  have hoff : ∀ q, ¬ dirs ++ [name] <+: q →
      (ed1.setEntries dirs ((ed1.entriesAt dirs).put name (.tree t))).entry q = ed1.entry q :=
    fun q => entry_put_of_not h2 h3
  generalize ed1.setEntries dirs ((ed1.entriesAt dirs).put name (.tree t)) = ed2 at hset htset hself hoff
  have hkeep : ∀ d, (ed2.subtrees.filter fun d _ => !(dirs ++ [name]).isPrefixOf d).contains d = true ↔
      ed2.subtrees.contains d = true ∧ ¬ dirs ++ [name] <+: d := by
    intro d
    rw [Dict.contains, Dict.get_filter, Dict.contains, ← List.isPrefixOf_iff_prefix]
    cases ed2.subtrees.get d with
    | none => simp
    | some es => cases (dirs ++ [name]).isPrefixOf d <;> simp
  refine ⟨?_, ?_, fun s => ?_, fun q hpq => ?_⟩
  · intro d n hd hc
    rw [hkeep] at hc ⊢
    exact ⟨hset d n hd hc.1, fun hpre => hc.2 (hpre.trans (List.prefix_append _ _))⟩
  · intro d hd n c hn
    rcases hd with rfl | hd
    · exact htset [] loaded_nil n c hn
    · obtain ⟨hc, hpre⟩ := (hkeep d).1 hd
      refine htset d (.inr hc) n c ?_
      rw [entriesAt] at hn ⊢
      split at hn
      · rename_i hnil
        rwa [if_pos hnil]
      · rename_i hnil
        rw [if_neg hnil]
        have hget : (ed2.subtrees.filter fun d _ => !(dirs ++ [name]).isPrefixOf d).get d =
            ed2.subtrees.get d := by
          have hfalse : (dirs ++ [name]).isPrefixOf d = false := by
            rwa [Bool.eq_false_iff, ne_eq, List.isPrefixOf_iff_prefix]
          rw [Dict.get_filter]
          cases ed2.subtrees.get d with
          | none => rfl
          | some es => rw [Option.filter_some, hfalse, Bool.not_false, if_pos rfl]
        rwa [hget] at hn
  · by_cases hs : s = []
    · subst hs
      rw [List.append_nil, file, entry_filter (dirs ++ [name]) fun s hs => ne_append hs, hself]
      rfl
    · have hne : dirs ++ [name] ≠ [] := by simp
      have hnone : ∀ r, (ed2.subtrees.filter fun d _ => !(dirs ++ [name]).isPrefixOf d).get
          (dirs ++ [name] ++ r) = none := by
        intro r
        rw [Dict.get_filter, Option.filter_eq_none_iff]
        intro es _
        rw [List.isPrefixOf_iff_prefix.2 (List.prefix_append _ _)]
        intro hf
        cases hf
      have hchild : entryAt (ed2.subtrees.filter fun d _ => !(dirs ++ [name]).isPrefixOf d) []
          ed2.root (dirs ++ [name]) = some (.tree t) :=
        (entry_filter (dirs ++ [name]) fun s hs => ne_append hs).trans hself
      rw [file, entry, entryAt_append _ _ _ hne hs, hchild]
      simp only [List.nil_append]
      have hnil := hnone []
      rw [List.append_nil] at hnil
      rw [hnil, Option.getD_none]
      rw [entryAt_load fun r _ => hnone r]
      rfl
  · rw [file, entry_filter (dirs ++ [name]) fun s _ heq => hpq ⟨s, heq.symm⟩, hoff q hpq]
    split
    · rename_i hq
      obtain ⟨s, rfl⟩ := hq
      exact file_of_isDir (isDir_of_append h3)
    · rename_i hq
      rw [h4.entry q hq]
      rfl

end Splice

end TreeEditor

end OpenViking.Git
