import Mathlib.Tactic.Common
import Mathlib.Tactic.SplitIfs

/-!
# Texts cut at slashes

* `mem_splitOn_intercalate`: a part without separator is found again in the joined text;
* `splitOn_absolute`: the components of a path are the parts of it.
-/

namespace OpenViking

theorem mem_splitOn {sep : Char} {part t : List Char} (h : part ∈ t.splitOn sep) :
    sep ∉ part ∧ part ⊆ t := by
  induction t generalizing part with
  | nil =>
    rw [List.splitOn_nil, List.mem_singleton] at h
    simp [h]
  | cons c t ih =>
    rw [List.splitOn_cons_eq_if_modifyHead] at h
    obtain ⟨first, rest, hsplit⟩ := List.exists_cons_of_ne_nil (List.splitOn_ne_nil sep t)
    rw [hsplit] at h ih
    split_ifs at h with hc
    · rcases List.mem_cons.1 h with rfl | h
      · simp
      · exact ⟨(ih h).1, fun d hd => List.mem_cons_of_mem c ((ih h).2 hd)⟩
    · rw [List.modifyHead_cons] at h
      rcases List.mem_cons.1 h with rfl | h
      · obtain ⟨hslash, hsub⟩ := ih List.mem_cons_self
        refine ⟨fun hmem => ?_, List.cons_subset_cons c hsub⟩
        rcases List.mem_cons.1 hmem with rfl | hmem
        · exact hc (by simp)
        · exact hslash hmem
      · obtain ⟨hslash, hsub⟩ := ih (List.mem_cons_of_mem _ h)
        exact ⟨hslash, fun d hd => List.mem_cons_of_mem c (hsub hd)⟩

variable {parts : List (List Char)}

/-- What stands in a joined text stands in the separator or in a part. -/
theorem mem_intercalate {sep : List Char} {c : Char}
    (h : c ∈ List.intercalate sep parts) : c ∈ sep ∨ ∃ part ∈ parts, c ∈ part := by
  induction parts with
  | nil => simp at h
  | cons p ps ih =>
    cases ps with
    | nil =>
      rw [List.intercalate_singleton] at h
      exact .inr ⟨p, List.mem_singleton_self p, h⟩
    | cons q qs =>
      rw [List.intercalate_cons_cons, List.mem_append, List.mem_append] at h
      rcases h with (h | h) | h
      · exact .inr ⟨p, List.mem_cons_self, h⟩
      · exact .inl h
      · exact (ih h).imp id fun ⟨part, hpart, hc⟩ => ⟨part, List.mem_cons_of_mem p hpart, hc⟩

/-- A part stands in the joined text. -/
theorem infix_intercalate {sep : List Char} {part : List Char}
    (h : part ∈ parts) : part <:+: List.intercalate sep parts := by
  induction parts with
  | nil => cases h
  | cons p ps ih =>
    cases ps with
    | nil =>
      rw [List.intercalate_singleton]
      obtain rfl := List.mem_singleton.1 h
      exact List.infix_rfl
    | cons q qs =>
      rw [List.intercalate_cons_cons]
      rcases List.mem_cons.1 h with h | h
      · rw [h, List.append_assoc]
        exact (List.prefix_append p _).isInfix
      · exact (ih h).trans (List.suffix_append _ _).isInfix

/-- A part without a separator is found again, whatever the other parts hold. -/
theorem mem_splitOn_intercalate {sep : Char} {part : List Char} (hsep : sep ∉ part) (h : part ∈ parts) :
    part ∈ (List.intercalate [sep] parts).splitOn sep := by
  induction parts with
  | nil => cases h
  | cons p ps ih =>
    cases ps with
    | nil =>
      rw [List.intercalate_singleton, ← List.mem_singleton.1 h,
        List.splitOn_eq_singleton hsep]
      exact List.mem_singleton_self _
    | cons q qs =>
      rw [List.intercalate_cons_cons, List.append_assoc, List.singleton_append,
        List.splitOn_append_cons_self, List.mem_append]
      rcases List.mem_cons.1 h with h | h
      · left
        rw [← h, List.splitOn_eq_singleton hsep]
        exact List.mem_singleton_self _
      · exact .inr (ih h)

/-- A name between two slashes. -/
def IsComponent (part : List Char) : Prop := part ≠ [] ∧ '/' ∉ part

/-- The path with these components. -/
def absolute (parts : List (List Char)) : List Char := parts.flatMap ('/' :: ·)

@[simp] theorem absolute_nil : absolute [] = [] := rfl

theorem absolute_cons (part : List Char) (parts : List (List Char)) :
    absolute (part :: parts) = '/' :: (part ++ absolute parts) := List.flatMap_cons

theorem absolute_append (parts more : List (List Char)) :
    absolute (parts ++ more) = absolute parts ++ absolute more := List.flatMap_append

theorem absolute_concat (parts : List (List Char)) (part : List Char) :
    absolute (parts ++ [part]) = absolute parts ++ '/' :: part := by
  rw [absolute_append, absolute_cons, absolute_nil, List.append_nil]

theorem absolute_eq_intercalate (parts : List (List Char)) :
    absolute parts = ['/'].intercalate ([] :: parts) := by
  induction parts with
  | nil => rfl
  | cons part parts ih =>
    rw [absolute_cons, ih]
    cases parts with
    | nil => simp [List.intercalate]
    | cons next parts => simp [List.intercalate]

/-- **The components of a path are the parts between its slashes.** -/
theorem splitOn_absolute (h : ∀ part ∈ parts, '/' ∉ part) : (absolute parts).splitOn '/' = [] :: parts := by
  rw [absolute_eq_intercalate, List.splitOn_intercalate]
  · intro part hpart
    rcases List.mem_cons.1 hpart with rfl | hpart
    · exact List.not_mem_nil
    · exact h part hpart
  · exact List.cons_ne_nil _ _

theorem head?_absolute (h : parts ≠ []) : (absolute parts).head? = some '/' := by
  obtain ⟨part, parts, rfl⟩ := List.exists_cons_of_ne_nil h
  rfl

/-- A path does not end in a slash. -/
theorem getLast?_absolute (h : parts ≠ [])
    (hparts : ∀ part ∈ parts, IsComponent part) : (absolute parts).getLast? ≠ some '/' := by
  have hsplit := (List.dropLast_concat_getLast h).symm
  generalize parts.dropLast = init, parts.getLast h = last at hsplit
  subst hsplit
  obtain ⟨hne, hslash⟩ := hparts last (by simp)
  rw [absolute_concat, List.getLast?_append, List.getLast?_cons, Option.some_or,
    List.getLast?_eq_some_getLast hne, Option.getD_some]
  intro heq
  refine hslash ?_
  rw [← Option.some.inj heq]
  exact List.getLast_mem hne

end OpenViking
