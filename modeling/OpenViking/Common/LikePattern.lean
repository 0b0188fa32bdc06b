import Mathlib.Data.List.Infix

/-!
# LIKE patterns

The patterns of the SQL operator `LIKE` as SQLite documents it: a percent sign stands for any run of
characters, an underscore for any one, and every other character for itself, ASCII letters in either
case.  `likeMatch_iff` says that patterns can be decided.
-/

namespace OpenViking

/-- The text matches the pattern. -/
inductive LikeMatch : List Char → List Char → Prop
  | nil : LikeMatch [] []
  | percent {p s : List Char} (run : List Char) (h : LikeMatch p s) :
      LikeMatch ('%' :: p) (run ++ s)
  | underscore {p s : List Char} (c : Char) (h : LikeMatch p s) : LikeMatch ('_' :: p) (c :: s)
  | char {p s : List Char} {c d : Char} (hc : c.toLower = d.toLower) (h : LikeMatch p s) :
      c ≠ '%' → c ≠ '_' → LikeMatch (c :: p) (d :: s)

namespace LikeMatch

theorem percent_iff {p s : List Char} : LikeMatch ('%' :: p) s ↔ ∃ t, t <:+ s ∧ LikeMatch p t := by
  constructor
  · intro h
    cases h with
    | percent run h => exact ⟨_, List.suffix_append _ _, h⟩
    | char _ _ hpercent _ => exact absurd rfl hpercent
  · rintro ⟨t, ⟨run, rfl⟩, h⟩
    exact .percent run h

end LikeMatch

/-- Decide whether the text matches the pattern. -/
def likeMatch : List Char → List Char → Bool
  | [], s => s.isEmpty
  | c :: p, s =>
    if c = '%' then s.tails.any (likeMatch p)
    else match s with
      | [] => false
      | d :: s => (c = '_' || c.toLower = d.toLower) && likeMatch p s

theorem likeMatch_iff (p s : List Char) : likeMatch p s = true ↔ LikeMatch p s := by
  induction p generalizing s with
  | nil =>
    cases s with
    | nil => exact iff_of_true rfl .nil
    | cons d s => exact iff_of_false (by simp [likeMatch]) (by rintro ⟨⟩)
  | cons c p ih =>
    by_cases hpercent : c = '%'
    · subst hpercent
      simp [likeMatch, LikeMatch.percent_iff, ih]
    · cases s with
      | nil =>
        refine iff_of_false (by simp [likeMatch, hpercent]) fun h => ?_
        generalize hs : ([] : List Char) = s at h
        cases h with
        | percent run h => exact hpercent rfl
        | underscore d h => cases hs
        | char _ _ _ _ => cases hs
      | cons d s =>
        simp only [likeMatch, if_neg hpercent, Bool.and_eq_true, Bool.or_eq_true,
          decide_eq_true_eq, ih]
        constructor
        · rintro ⟨rfl | hc, h⟩
          · exact .underscore d h
          · by_cases hunderscore : c = '_'
            · subst hunderscore
              exact .underscore d h
            · exact .char hc h hpercent hunderscore
        · intro h
          generalize hs : d :: s = s' at h
          cases h with
          | percent run h => exact absurd rfl hpercent
          | underscore e h =>
            cases hs
            exact ⟨.inl rfl, h⟩
          | char hc h _ _ =>
            cases hs
            exact ⟨.inr hc, h⟩

end OpenViking
