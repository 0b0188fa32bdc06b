import Mathlib.Data.List.Basic
import Mathlib.Data.List.Perm.Basic
import Mathlib.Data.List.Sort
import Mathlib.Order.Defs.LinearOrder
import Mathlib.Order.Basic
import Mathlib.Order.Lattice
import Mathlib.Order.OrderDual

/-!
# The best `k` of a list

`le a b` says that `a` is at least as good as `b`.

Results:

* `IsTopK.map_eq`: any two lists of the best `k` have the same keys;
* `le_foldl_max`, `foldl_min_le`: a running maximum or minimum bounds what it has read.
-/

namespace OpenViking

variable {α : Type} {le : α → α → Prop} {k : ℕ} {all out : List α}

/-- `out` has `k` of the best elements of `all`, or all where there are fewer. -/
structure Best (le : α → α → Prop) (k : ℕ) (all out : List α) : Prop where
  length : out.length = min k all.length
  rest : ∃ rest, (out ++ rest).Perm all ∧ ∀ a ∈ out, ∀ b ∈ rest, le a b

/-- `out` has the best `k` elements of `all`, the best first. -/
structure IsTopK (le : α → α → Prop) (k : ℕ) (all out : List α) : Prop extends Best le k all out where
  sorted : out.Pairwise le

/-! ## Elements kept -/

namespace Best

theorem nil (le : α → α → Prop) (k : ℕ) : Best le k [] [] :=
  ⟨by simp, [], List.Perm.refl _, by simp⟩

section

variable (h : Best le k all out)

include h

theorem perm_out {out' : List α} (hp : out.Perm out') : Best le k all out' := by
  obtain ⟨rest, hperm, hbest⟩ := h.rest
  refine ⟨by rw [← hp.length_eq, h.length], rest, (hp.symm.append_right rest).trans hperm, ?_⟩
  exact fun a ha => hbest a (hp.mem_iff.2 ha)

theorem perm_all {all' : List α} (hp : all.Perm all') : Best le k all' out := by
  obtain ⟨rest, hperm, hbest⟩ := h.rest
  exact ⟨by rw [← hp.length_eq, h.length], rest, hperm.trans hp, hbest⟩

theorem mem_all {a : α} (ha : a ∈ out) : a ∈ all := by
  obtain ⟨rest, hperm, -⟩ := h.rest
  exact hperm.mem_iff.1 (List.mem_append_left rest ha)

/-- While there is room, an element is kept. -/
theorem push (hroom : out.length < k) (a : α) : Best le k (a :: all) (a :: out) := by
  obtain ⟨rest, hperm, -⟩ := h.rest
  have hlen := hperm.length_eq
  rw [List.length_append] at hlen
  have hall := h.length
  have hrest : rest = [] := List.length_eq_zero_iff.1 (by omega)
  subst hrest
  refine ⟨?_, [], ?_, by simp⟩
  · rw [List.length_cons, List.length_cons]
    omega
  · simpa using hperm

/-- An element no better than those kept is left out. -/
theorem skip (hfull : k ≤ out.length) {a : α} (hworse : ∀ b ∈ out, le b a) : Best le k (a :: all) out := by
  obtain ⟨rest, hperm, hbest⟩ := h.rest
  have hall := h.length
  refine ⟨?_, a :: rest, ?_, ?_⟩
  · rw [List.length_cons]
    omega
  · exact List.perm_middle.trans (hperm.cons a)
  · intro b hb c hc
    rcases List.mem_cons.1 hc with rfl | hc
    · exact hworse b hb
    · exact hbest b hb c hc

end

/-- A better element takes the place of the worst. -/
theorem replace (htrans : ∀ a b c, le a b → le b c → le a c) {worst : α}
    (h : Best le k all (worst :: out)) (hfull : k ≤ out.length + 1) (hworst : ∀ b ∈ out, le b worst) {a : α}
    (hbetter : le a worst) : Best le k (a :: all) (a :: out) := by
  obtain ⟨rest, hperm, hbest⟩ := h.rest
  have hall := h.length
  have hlen := hperm.length_eq
  rw [List.length_append, List.length_cons] at hlen
  rw [List.length_cons] at hall
  refine ⟨?_, worst :: rest, ?_, ?_⟩
  · rw [List.length_cons, List.length_cons]
    omega
  · rw [List.cons_append]
    exact (List.perm_middle.trans hperm).cons a
  · intro b hb c hc
    rcases List.mem_cons.1 hb with rfl | hb
    · rcases List.mem_cons.1 hc with rfl | hc
      · exact hbetter
      · exact htrans _ _ _ hbetter (hbest worst List.mem_cons_self c hc)
    · rcases List.mem_cons.1 hc with rfl | hc
      · exact hworst b hb
      · exact hbest b (List.mem_cons_of_mem _ hb) c hc

end Best

theorem IsTopK.perm_all (h : IsTopK le k all out) {all' : List α} (hp : all.Perm all') :
    IsTopK le k all' out :=
  { h.toBest.perm_all hp with sorted := h.sorted }

/-- The best `k` of a part are the best of all where each other element has `k` of the part before
it. -/
theorem IsTopK.extend {part others : List α} (h : IsTopK le k part out)
    (htrans : ∀ a ∈ all, ∀ b ∈ all, ∀ c ∈ all, le a b → le b c → le a c) (hperm : (part ++ others).Perm all)
    (hbetter : ∀ b ∈ others, ∃ w : List α, w.Subperm part ∧ k ≤ w.length ∧ ∀ a ∈ w, le a b) :
    IsTopK le k all out := by
  classical
  obtain ⟨rest, hpart, hbest⟩ := h.rest
  have hlen := h.length
  have hall := hperm.length_eq
  have hmem : ∀ a ∈ part, a ∈ all := fun a ha => hperm.mem_iff.1 (List.mem_append_left _ ha)
  rw [List.length_append] at hall
  refine ⟨⟨?_, rest ++ others, ?_, fun a ha b hb => ?_⟩, h.sorted⟩
  · cases others with
    | nil =>
      rw [List.length_nil] at hall
      omega
    | cons b others =>
      obtain ⟨w, hw, hk, -⟩ := hbetter b List.mem_cons_self
      have hle := hw.length_le
      omega
  · rw [← List.append_assoc]
    exact (hpart.append_right others).trans hperm
  · rcases List.mem_append.1 hb with hb | hb
    · exact hbest a ha b hb
    · obtain ⟨w, hw, hk, hle⟩ := hbetter b hb
      have hle' := hw.length_le
      by_cases hone : ∃ c ∈ w, c ∈ rest
      · obtain ⟨c, hcw, hc⟩ := hone
        have hcPart := hpart.mem_iff.1 (List.mem_append_right out hc)
        exact htrans a (hmem a (h.mem_all ha)) c (hmem c hcPart) b
          (hperm.mem_iff.1 (List.mem_append_right part hb)) (hbest a ha c hc) (hle c hcw)
      · -- what is before the other element is all that was taken
        push Not at hone
        have hsub : w.Subperm out := by
          have hfilter := (hw.trans hpart.symm.subperm).filter fun c => c ∉ rest
          have hnone : (rest.filter fun c => c ∉ rest) = [] :=
            List.filter_eq_nil_iff.2 fun c hc => by simpa using hc
          rw [List.filter_eq_self.2 fun c hc => by simpa using hone c hc, List.filter_append, hnone,
            List.append_nil] at hfilter
          exact hfilter.trans List.filter_sublist.subperm
        exact hle a ((hsub.perm_of_length_le (by omega)).mem_iff.2 ha)

/-! ## Sorted lists -/

/-- The first `k` of a sorted list are its best. -/
theorem isTopK_take {l : List α} (hsorted : l.Pairwise le) (hperm : l.Perm all) (k : ℕ) :
    IsTopK le k all (l.take k) where
  length := by rw [List.length_take, hperm.length_eq]
  rest := by
    refine ⟨l.drop k, by rwa [List.take_append_drop], ?_⟩
    rw [← List.take_append_drop k l] at hsorted
    exact (List.pairwise_append.1 hsorted).2.2
  sorted := hsorted.sublist (List.take_sublist k l)

/-- The keys of the best `k` are the first `k` of the sorted keys. -/
theorem IsTopK.map_eq_take {κ : Type} [LinearOrder κ] {key : α → κ}
    (hkey : ∀ a ∈ all, ∀ b ∈ all, le a b → key a ≤ key b) (h : IsTopK le k all out) :
    out.map key = ((all.map key).mergeSort (· ≤ ·)).take k := by
  obtain ⟨rest, hperm, hbest⟩ := h.rest
  set keys := (rest.map key).mergeSort (· ≤ ·) with hkeys
  have hkeysPerm : keys.Perm (rest.map key) := List.mergeSort_perm _ _
  have hkeysSorted : keys.Pairwise (· ≤ ·) := List.pairwise_mergeSort' (· ≤ ·) _
  have hallSorted := List.pairwise_mergeSort' (· ≤ ·) (all.map key)
  have hsorted : (out.map key ++ keys).Pairwise (· ≤ ·) := by
    have hout : out.Pairwise fun a b => key a ≤ key b :=
      h.sorted.imp_of_mem fun ha hb hab => hkey _ (h.mem_all ha) _ (h.mem_all hb) hab
    refine List.pairwise_append.2 ⟨List.pairwise_map.2 hout, hkeysSorted, ?_⟩
    intro x hx y hy
    obtain ⟨a, ha, rfl⟩ := List.mem_map.1 hx
    obtain ⟨b, hb, rfl⟩ := List.mem_map.1 (hkeysPerm.mem_iff.1 hy)
    exact hkey a (h.mem_all ha) b (hperm.mem_iff.1 (List.mem_append_right out hb)) (hbest a ha b hb)
  have hsame : (out.map key ++ keys).Perm ((all.map key).mergeSort (· ≤ ·)) := by
    refine (List.Perm.append_left _ hkeysPerm).trans ?_
    rw [← List.map_append]
    exact (hperm.map key).trans (List.mergeSort_perm _ _).symm
  have heq := hsame.eq_of_pairwise (fun a b _ _ => le_antisymm) hsorted hallSorted
  have hlen := h.length
  rw [← hperm.length_eq, List.length_append] at hlen
  have hlenKeys := hkeysPerm.length_eq
  rw [List.length_map] at hlenKeys
  rw [← heq]
  rcases (show out.length = k ∨ keys.length = 0 by omega) with hk | hnone
  · rw [List.take_left' (by rw [List.length_map, hk])]
  · rw [List.length_eq_zero_iff.1 hnone, List.append_nil,
      List.take_of_length_le (by rw [List.length_map]; omega)]

/-- The best `k` of two lists with the same keys have the same keys. -/
theorem IsTopK.map_eq {κ β : Type} [LinearOrder κ] {key : α → κ} {key' : β → κ}
    {le' : β → β → Prop} {all' out' : List β} (hkey : ∀ a ∈ all, ∀ b ∈ all, le a b → key a ≤ key b)
    (hkey' : ∀ a ∈ all', ∀ b ∈ all', le' a b → key' a ≤ key' b) (h : IsTopK le k all out)
    (h' : IsTopK le' k all' out') (hsame : (all.map key).Perm (all'.map key')) :
    out.map key = out'.map key' := by
  rw [h.map_eq_take hkey, h'.map_eq_take hkey']
  congr 1
  refine List.Perm.eq_of_pairwise (fun a b _ _ => le_antisymm) (List.pairwise_mergeSort' (· ≤ ·) _)
    (List.pairwise_mergeSort' (· ≤ ·) _) ?_
  exact (List.mergeSort_perm _ _).trans (hsame.trans (List.mergeSort_perm _ _).symm)

/-- A running maximum bounds what it has read. -/
theorem le_foldl_max {β : Type*} [LinearOrder β] (l : List β) (a : β) :
    a ≤ l.foldl max a ∧ ∀ n ∈ l, n ≤ l.foldl max a := by
  induction l generalizing a with
  | nil => simp
  | cons n l ih =>
    obtain ⟨hle, hmem⟩ := ih (max a n)
    refine ⟨(le_max_left a n).trans hle, fun k hk => ?_⟩
    rcases List.mem_cons.1 hk with rfl | hk
    · exact (le_max_right a k).trans hle
    · exact hmem k hk

theorem foldl_min_le {β : Type*} [LinearOrder β] (l : List β) (a : β) :
    l.foldl min a ≤ a ∧ ∀ n ∈ l, l.foldl min a ≤ n :=
  le_foldl_max (β := βᵒᵈ) l a

end OpenViking
