import OpenViking.Memory.StrPatch
import Mathlib.Tactic.Linarith
import Mathlib.Tactic.Positivity
import Mathlib.Tactic.FieldSimp

/-!
# The search from the middle outwards

`fuzzy_search` looks at the places of its window in an order of its own, and keeps the last of those
whose line has the search text in it, otherwise the first of the best.

Results:

* `fuzzySearch_isSome_iff`: when a place is similar enough;
* `fuzzySearch_eq_some_iff`: which place is taken.
-/

namespace OpenViking.Memory.StrPatch

open EditDistance

/-! ## Similarities -/

/-- Two texts of which the edit distance is at most one fifth of the longer length, after
normalization. -/
def Similar (original search : Str) : Prop :=
  ∃ n, IsDistance (normalizeString original) (normalizeString search) n ∧
    5 * n ≤ max (normalizeString original).length (normalizeString search).length

variable {original search : Str}

theorem similar_iff : Similar original search ↔
    5 * levenshteinDistance (normalizeString original) (normalizeString search) ≤
      max (normalizeString original).length (normalizeString search).length := by
  have hdist := isDistance_levenshteinDistance (normalizeString original) (normalizeString search)
  constructor
  · rintro ⟨n, hn, hle⟩
    rwa [hdist.unique hn]
  · exact fun hle => ⟨_, hdist, hle⟩

/-- **A similarity of 0.8** in terms of the edit distance. -/
theorem similarity_ge_iff (h : search ≠ []) :
    getSimilarity original search ≥ fuzzyThreshold ↔ Similar original search := by
  unfold getSimilarity fuzzyThreshold
  rw [if_neg h]
  dsimp only
  split_ifs with heq hpos
  · refine iff_of_true (by norm_num) ?_
    unfold Similar
    rw [heq]
    exact ⟨0, isDistance_self _, by omega⟩
  · rw [similar_iff]
    have hpos' : (0 : ℚ) <
        (max (normalizeString original).length (normalizeString search).length : ℕ) := by
      exact_mod_cast hpos
    rw [ge_iff_le, le_sub_comm, div_le_iff₀ hpos']
    constructor
    · intro hle
      have : (5 * levenshteinDistance (normalizeString original) (normalizeString search) : ℚ) ≤
          (max (normalizeString original).length (normalizeString search).length : ℕ) := by
        linarith
      exact_mod_cast this
    · intro hle
      have : (5 * levenshteinDistance (normalizeString original) (normalizeString search) : ℚ) ≤
          (max (normalizeString original).length (normalizeString search).length : ℕ) := by
        exact_mod_cast hle
      linarith
  · exact absurd (by
      rcases Nat.eq_zero_or_pos (max (normalizeString original).length
        (normalizeString search).length) with hzero | hp
      · have h1 : (normalizeString original).length = 0 := by omega
        have h2 : (normalizeString search).length = 0 := by omega
        rw [List.length_eq_zero_iff.1 h1, List.length_eq_zero_iff.1 h2]
      · exact absurd hp hpos) heq

theorem getSimilarity_le_one (original search : Str) : getSimilarity original search ≤ 1 := by
  unfold getSimilarity
  split_ifs
  · norm_num
  · dsimp only
    split_ifs
    · exact le_refl 1
    · have : (0 : ℚ) ≤ (levenshteinDistance (normalizeString original) (normalizeString search) : ℚ) /
          ((max (normalizeString original).length (normalizeString search).length : ℕ) : ℚ) := by
        positivity
      linarith
    · exact le_refl 1

theorem better_le_one {best score : ℚ} (hbest : best ≤ 1) (hscore : score ≤ 1) : better best score ≤ 1 := by
  unfold better
  split_ifs
  · exact hscore
  · exact hbest

theorem findBestSubstringMatch_le_one (line search : Str) : findBestSubstringMatch line search ≤ 1 := by
  have hfold : ∀ (positions : List ℕ) (best : ℚ), best ≤ 1 → positions.foldl
      (fun best i => better best (getSimilarity ((line.drop i).take search.length) search)) best ≤
        1 := by
    intro positions
    induction positions with
    | nil => exact fun best hbest => hbest
    | cons i positions ih =>
      exact fun best hbest => ih _ (better_le_one hbest (getSimilarity_le_one _ _))
  unfold findBestSubstringMatch
  split_ifs
  · exact getSimilarity_le_one line search
  · exact better_le_one (hfold _ 0 (by norm_num)) (getSimilarity_le_one _ _)
  · exact better_le_one (hfold _ 0 (by norm_num)) (getSimilarity_le_one _ _)

/-- The texts a single line is compared by (196-227): three windows of it, and the line. -/
def windowsOf (line search : Str) : List Str :=
  if search.length ≥ line.length then [line]
  else (([0, line.length - search.length] ++
    (if line.length > search.length * 3 then [line.length / 2 - search.length / 2] else [])).filter
      (· ≤ line.length - search.length)).map (fun i => (line.drop i).take search.length) ++ [line]

theorem le_better_iff {best score bound : ℚ} :
    bound ≤ better best score ↔ bound ≤ best ∨ bound ≤ score := by
  unfold better
  split_ifs with h
  · constructor
    · exact Or.inr
    · rintro (hle | hle)
      · linarith
      · exact hle
  · constructor
    · exact Or.inl
    · rintro (hle | hle)
      · exact hle
      · linarith

theorem le_foldl_better_iff (score : ℕ → ℚ) {bound : ℚ} (positions : List ℕ) (best : ℚ) :
    bound ≤ positions.foldl (fun best i => better best (score i)) best ↔
      bound ≤ best ∨ ∃ i ∈ positions, bound ≤ score i := by
  induction positions generalizing best with
  | nil => simp
  | cons i positions ih =>
    rw [List.foldl_cons, ih, le_better_iff]
    simp [or_assoc]

/-- A line is similar enough when one of its windows is. -/
theorem findBestSubstringMatch_ge_iff {line : Str} (h : search ≠ []) :
    fuzzyThreshold ≤ findBestSubstringMatch line search ↔
      ∃ window ∈ windowsOf line search, Similar window search := by
  have hsim (window : Str) : fuzzyThreshold ≤ getSimilarity window search ↔ Similar window search :=
    similarity_ge_iff h
  have hzero : ¬ fuzzyThreshold ≤ 0 := by
    unfold fuzzyThreshold
    norm_num
  unfold findBestSubstringMatch windowsOf
  by_cases hlen : search.length ≥ line.length
  · simp only [if_pos hlen, hsim, List.mem_singleton, exists_eq_left]
  · simp only [if_neg hlen, le_better_iff, hsim,
      le_foldl_better_iff fun i => getSimilarity ((line.drop i).take search.length) search]
    simp only [hzero, false_or, List.mem_append, List.mem_map, List.mem_singleton]
    constructor
    · rintro (⟨i, hi, hs⟩ | hs)
      · exact ⟨_, Or.inl ⟨i, hi, rfl⟩, hs⟩
      · exact ⟨line, Or.inr rfl, hs⟩
    · rintro ⟨window, ⟨i, hi, rfl⟩ | rfl, hs⟩
      · exact Or.inl ⟨i, hi, hs⟩
      · exact Or.inr hs

/-! ## The best of the places -/

/-- What one look does to the best place so far. -/
def bestStep (hit : ℕ → Bool) (score : ℕ → ℚ) (best : Best) (i : ℕ) : Best :=
  if hit i then ⟨1, some i⟩ else if score i > best.score then ⟨score i, some i⟩ else best

/-- The place that is kept: the last hit, or without a hit the first of the greatest score. -/
def Picked (hit : ℕ → Bool) (score : ℕ → ℚ) (places : List ℕ) (i : ℕ) : Prop :=
  ∃ before after, places = before ++ i :: after ∧ (∀ j ∈ after, hit j = false ∧ score j ≤ score i) ∧
    (hit i ∨ ∀ j ∈ before, hit j = false ∧ score j < score i)

section Best

variable {hit : ℕ → Bool} {score : ℕ → ℚ}

/-- What is kept after some places. -/
def Kept (hit : ℕ → Bool) (score : ℕ → ℚ) (places : List ℕ) (best : Best) : Prop :=
  (best = ⟨0, none⟩ ∧ ∀ j ∈ places, hit j = false ∧ score j ≤ 0) ∨
    ∃ i, best = ⟨score i, some i⟩ ∧ 0 < score i ∧ Picked hit score places i

variable {places : List ℕ}

theorem Picked.score_le {i j : ℕ} (hone : ∀ j, score j ≤ 1)
    (hhit : ∀ j, hit j → score j = 1) (h : Picked hit score places i) (hj : j ∈ places) :
    score j ≤ score i := by
  obtain ⟨before, after, rfl, hafter, hi⟩ := h
  simp only [List.mem_append, List.mem_cons] at hj
  rcases hj with hj | rfl | hj
  · rcases hi with hi | hi
    · rw [hhit i hi]
      exact hone j
    · exact (hi j hj).2.le
  · exact le_refl _
  · exact (hafter j hj).2

theorem Picked.mem {i : ℕ} (h : Picked hit score places i) : i ∈ places := by
  obtain ⟨before, after, rfl, -⟩ := h
  simp

variable {best : Best}

/-- One more place. -/
theorem Kept.step (hone : ∀ j, score j ≤ 1)
    (hhit : ∀ j, hit j → score j = 1) (h : Kept hit score places best) (x : ℕ) :
    Kept hit score (places ++ [x]) (bestStep hit score best x) := by
  unfold bestStep
  by_cases hx : hit x
  · rw [if_pos hx]
    refine Or.inr ⟨x, ?_, ?_, places, [], rfl, by simp, Or.inl hx⟩
    · rw [hhit x hx]
    · rw [hhit x hx]
      norm_num
  · have hx' : hit x = false := by simpa using hx
    rw [if_neg hx]
    rcases h with ⟨rfl, hnone⟩ | ⟨i, rfl, hpos, hpicked⟩
    · by_cases hgt : score x > 0
      · rw [if_pos hgt]
        refine Or.inr ⟨x, rfl, hgt, places, [], rfl, by simp, Or.inr fun j hj => ?_⟩
        exact ⟨(hnone j hj).1, lt_of_le_of_lt (hnone j hj).2 hgt⟩
      · rw [if_neg hgt]
        refine Or.inl ⟨rfl, fun j hj => ?_⟩
        rcases List.mem_append.1 hj with hj | hj
        · exact hnone j hj
        · rw [List.mem_singleton.1 hj]
          exact ⟨hx', not_lt.1 hgt⟩
    · by_cases hgt : score x > score i
      · -- a greater score than that of the place kept: there was no hit
        rw [if_pos hgt]
        refine Or.inr ⟨x, rfl, lt_trans hpos hgt, places, [], rfl, by simp, Or.inr fun j hj => ?_⟩
        have hle : score j ≤ score i := hpicked.score_le hone hhit hj
        refine ⟨?_, lt_of_le_of_lt hle hgt⟩
        by_contra hj1
        have h1 : score j = 1 := hhit j (by simpa using hj1)
        have h2 : score x ≤ 1 := hone x
        linarith
      · rw [if_neg hgt]
        obtain ⟨before, after, rfl, hafter, hi⟩ := hpicked
        refine Or.inr ⟨i, rfl, hpos, before, after ++ [x], by simp, fun j hj => ?_, hi⟩
        rcases List.mem_append.1 hj with hj | hj
        · exact hafter j hj
        · rw [List.mem_singleton.1 hj]
          exact ⟨hx', not_lt.1 hgt⟩

/-- All places. -/
theorem kept_foldl (hone : ∀ j, score j ≤ 1) (hhit : ∀ j, hit j → score j = 1) (places : List ℕ) :
    Kept hit score places (places.foldl (bestStep hit score) ⟨0, none⟩) := by
  have hrun : ∀ (todo done : List ℕ) (best : Best), Kept hit score done best →
      Kept hit score (done ++ todo) (todo.foldl (bestStep hit score) best) := by
    intro todo
    induction todo with
    | nil =>
      intro done best h
      simpa using h
    | cons x todo ih =>
      intro done best h
      have := ih (done ++ [x]) _ (h.step hone hhit x)
      simpa using this
  exact hrun places [] _ (Or.inl ⟨rfl, by simp⟩)

/-- Nothing replaces a place whose score is reached by no hit and not exceeded. -/
theorem foldl_bestStep_of_le {after : List ℕ} (h : ∀ j ∈ after, hit j = false ∧ score j ≤ best.score) :
    after.foldl (bestStep hit score) best = best := by
  induction after with
  | nil => rfl
  | cons j after ih =>
    have hj := h j (by simp)
    have hstep : bestStep hit score best j = best := by
      unfold bestStep
      rw [if_neg (by simp [hj.1]), if_neg (not_lt.2 hj.2)]
    rw [List.foldl_cons, hstep]
    exact ih fun k hk => h k (by simp [hk])

theorem score_foldl_lt {before : List ℕ} {bound : ℚ}
    (h : ∀ j ∈ before, hit j = false ∧ score j < bound) (hbest : best.score < bound) :
    (before.foldl (bestStep hit score) best).score < bound := by
  induction before generalizing best with
  | nil => exact hbest
  | cons j before ih =>
    refine ih (fun k hk => h k (by simp [hk])) ?_
    have hj := h j (by simp)
    unfold bestStep
    rw [if_neg (by simp [hj.1])]
    split_ifs
    · exact hj.2
    · exact hbest

theorem Picked.foldl_eq {i : ℕ} (hhit : ∀ j, hit j → score j = 1)
    (h : Picked hit score places i) (hpos : 0 < score i) :
    places.foldl (bestStep hit score) ⟨0, none⟩ = ⟨score i, some i⟩ := by
  obtain ⟨before, after, rfl, hafter, hi⟩ := h
  rw [List.foldl_append, List.foldl_cons]
  have hstep : bestStep hit score (before.foldl (bestStep hit score) ⟨0, none⟩) i =
      ⟨score i, some i⟩ := by
    unfold bestStep
    by_cases hhit_i : hit i
    · rw [if_pos hhit_i, hhit i hhit_i]
    · rw [if_neg hhit_i, if_pos]
      exact score_foldl_lt (hi.resolve_left hhit_i) hpos
  rw [hstep]
  exact foldl_bestStep_of_le hafter

theorem threshold_pos : 0 < fuzzyThreshold := by
  unfold fuzzyThreshold
  norm_num

/-- Which place is taken. -/
theorem accepted_eq_some_iff (hone : ∀ j, score j ≤ 1) (hhit : ∀ j, hit j → score j = 1) {i : ℕ} :
    (places.foldl (bestStep hit score) ⟨0, none⟩).accepted = some i ↔
      Picked hit score places i ∧ fuzzyThreshold ≤ score i := by
  unfold Best.accepted
  constructor
  · intro h
    rcases kept_foldl hone hhit places with ⟨hbest, -⟩ | ⟨j, hbest, -, hpicked⟩
    · simp [hbest] at h
    · rw [hbest] at h
      split_ifs at h with hge
      obtain rfl : j = i := Option.some.inj h
      exact ⟨hpicked, hge⟩
  · rintro ⟨hpicked, hge⟩
    rw [hpicked.foldl_eq hhit (lt_of_lt_of_le threshold_pos hge), if_pos hge]

/-- When a place is taken. -/
theorem accepted_isSome_iff (hone : ∀ j, score j ≤ 1) (hhit : ∀ j, hit j → score j = 1) :
    (places.foldl (bestStep hit score) ⟨0, none⟩).accepted.isSome ↔
      ∃ i ∈ places, fuzzyThreshold ≤ score i := by
  constructor
  · intro h
    obtain ⟨i, hi⟩ := Option.isSome_iff_exists.1 h
    obtain ⟨hpicked, hge⟩ := (accepted_eq_some_iff hone hhit).1 hi
    exact ⟨i, hpicked.mem, hge⟩
  · rintro ⟨j, hj, hge⟩
    rcases kept_foldl hone hhit places with ⟨-, hnone⟩ | ⟨i, -, -, hpicked⟩
    · exact absurd (lt_of_lt_of_le threshold_pos hge) (not_lt.2 (hnone j hj).2)
    · have hi := (accepted_eq_some_iff hone hhit).2
        ⟨hpicked, hge.trans (hpicked.score_le hone hhit hj)⟩
      rw [hi]
      rfl

end Best

/-! ## The order of the places -/

/-- The places to the left of the middle and those to the right in turn; after a hit on the left the
right has no turn. -/
def inTurn (hit : ℕ → Bool) : List ℕ → List ℕ → List ℕ
  | [], rights => rights
  | l :: lefts, rights =>
    if hit l then l :: inTurn hit lefts rights
    else match rights with
      | [] => l :: inTurn hit lefts []
      | r :: rights => l :: r :: inTurn hit lefts rights

section InTurn

variable {hit : ℕ → Bool} {l r : ℕ} {lefts rights : List ℕ}

theorem inTurn_of_hit (h : hit l) : inTurn hit (l :: lefts) rights = l :: inTurn hit lefts rights := by
  cases rights with
  | nil => simp [inTurn]
  | cons r rights => simp [inTurn, h]

theorem inTurn_nil_right : inTurn hit (l :: lefts) [] = l :: inTurn hit lefts [] := by
  simp [inTurn]

theorem inTurn_of_miss (h : ¬ hit l) :
    inTurn hit (l :: lefts) (r :: rights) = l :: r :: inTurn hit lefts rights := by
  simp [inTurn, h]

end InTurn

variable {i start left stop len right : ℕ}

theorem mem_inTurn {hit : ℕ → Bool} {lefts rights : List ℕ} :
    i ∈ inTurn hit lefts rights ↔ i ∈ lefts ∨ i ∈ rights := by
  induction lefts generalizing rights with
  | nil => simp [inTurn]
  | cons l lefts ih =>
    by_cases hl : hit l
    · rw [inTurn_of_hit hl]
      simp [ih, or_assoc]
    · cases rights with
      | nil =>
        rw [inTurn_nil_right]
        simp [ih]
      | cons r rights =>
        rw [inTurn_of_miss hl]
        simp only [List.mem_cons, ih]
        tauto

/-- The places below `left`, from there down to `start`. -/
def leftsFrom (start left : ℕ) : List ℕ := (List.range' start (left - start)).reverse

/-- The places from `right` on whose run of `len` lines ends by `stop`. -/
def rightsFrom (stop len right : ℕ) : List ℕ := List.range' right (stop + 1 - len - right)

theorem leftsFrom_cons (h : start < left) :
    leftsFrom start left = (left - 1) :: leftsFrom start (left - 1) := by
  unfold leftsFrom
  rw [show left - start = (left - 1 - start) + 1 by omega, List.range'_concat, List.reverse_append]
  simp only [List.reverse_singleton, List.singleton_append, one_mul]
  rw [show start + (left - 1 - start) = left - 1 by omega]

theorem leftsFrom_nil (h : left ≤ start) : leftsFrom start left = [] := by
  unfold leftsFrom
  rw [Nat.sub_eq_zero_of_le h]
  rfl

theorem rightsFrom_cons (h : right + len ≤ stop) :
    rightsFrom stop len right = right :: rightsFrom stop len (right + 1) := by
  unfold rightsFrom
  rw [show stop + 1 - len - right = (stop + 1 - len - (right + 1)) + 1 by omega, List.range'_succ]

theorem rightsFrom_nil (h : stop < right + len) : rightsFrom stop len right = [] := by
  unfold rightsFrom
  rw [show stop + 1 - len - right = 0 by omega]
  rfl

theorem mem_leftsFrom : i ∈ leftsFrom start left ↔ start ≤ i ∧ i < left := by
  unfold leftsFrom
  rw [List.mem_reverse, List.mem_range'_1]
  omega

theorem mem_rightsFrom : i ∈ rightsFrom stop len right ↔ right ≤ i ∧ i + len ≤ stop := by
  unfold rightsFrom
  rw [List.mem_range'_1]
  omega

/-! ## One look -/

/-- The line has the search text in it. -/
def isHit (lines : List Str) (search : Str) (len i : ℕ) : Bool :=
  len = 1 ∧ search <:+: lines.getD i []

/-- The score of a place. -/
def scoreAt (lines : List Str) (search : Str) (len i : ℕ) : ℚ :=
  if isHit lines search len i then 1
  else if len = 1 then findBestSubstringMatch (lines.getD i []) search
  else getSimilarity (runOf lines i len) search

theorem scoreAt_le_one (lines : List Str) (search : Str) (len i : ℕ) : scoreAt lines search len i ≤ 1 := by
  unfold scoreAt
  split_ifs
  · exact le_refl 1
  · exact findBestSubstringMatch_le_one _ _
  · exact getSimilarity_le_one _ _

variable {lines : List Str}

theorem scoreAt_of_isHit (h : isHit lines search len i) : scoreAt lines search len i = 1 := if_pos h

/-- A look within the lines. -/
theorem look_eq (h : len = 1 → i < lines.length) (best : Best) : look lines search len i best =
      .ok (bestStep (isHit lines search len) (scoreAt lines search len) best i,
        isHit lines search len i) := by
  unfold look bestStep scoreAt isHit
  by_cases hlen : len = 1
  · have hi : lines[i]? = some (lines.getD i []) := by
      rw [List.getD_eq_getElem?_getD, List.getElem?_eq_getElem (h hlen)]
      rfl
    rw [if_pos hlen, hi]
    by_cases hin : search <:+: lines.getD i []
    · simp only [hlen, hin, and_self, decide_true, if_true]
    · simp only [hlen, hin, and_false, decide_false, if_true, Bool.false_eq_true,
        if_false]
  · simp only [hlen, false_and, decide_false, Bool.false_eq_true, if_false]

/-- A look outside the lines. -/
theorem look_error (h : lines.length ≤ i) (best : Best) :
    look lines search 1 i best = .error .indexError := by
  unfold look
  rw [if_pos rfl, List.getElem?_eq_none h]

/-! ## The loop -/

/-- The loop goes through the places in their order, when each is within the lines. -/
theorem searchLoop_eq {rounds : ℕ} (hrounds : (left - start) + (stop + 1 - len - right) ≤ rounds)
    (hleft : len = 1 → start < left → left ≤ lines.length)
    (hright : len = 1 → stop ≤ lines.length) (best : Best) :
    searchLoop lines search len start stop rounds left right best =
      .ok ((inTurn (isHit lines search len) (leftsFrom start left)
        (rightsFrom stop len right)).foldl
          (bestStep (isHit lines search len) (scoreAt lines search len)) best) := by
  induction rounds generalizing left right best with
  | zero =>
    rw [searchLoop, leftsFrom_nil (by omega), rightsFrom_nil (by omega)]
    rfl
  | succ rounds ih =>
    rw [searchLoop]
    by_cases hl : start < left
    · rw [if_pos hl, look_eq fun hlen => by have := hleft hlen hl; omega, leftsFrom_cons hl]
      have hleft' : len = 1 → start < left - 1 → left - 1 ≤ lines.length := fun hlen hlt => by
        have := hleft hlen hl
        omega
      by_cases hit : isHit lines search len (left - 1)
      · -- a hit: the right has no turn
        rw [inTurn_of_hit hit, hit, List.foldl_cons]
        exact ih (by omega) hleft' _
      · have hit' : isHit lines search len (left - 1) = false := by simpa using hit
        rw [hit']
        by_cases hr : right + len ≤ stop
        · rw [rightsFrom_cons hr, inTurn_of_miss hit]
          simp only [if_pos hr, List.foldl_cons]
          rw [look_eq fun hlen => by have := hright hlen; omega]
          exact ih (by omega) hleft' _
        · rw [rightsFrom_nil (by omega), inTurn_nil_right]
          simp only [if_neg hr, List.foldl_cons]
          rw [ih (by omega) hleft', rightsFrom_nil (by omega)]
    · rw [if_neg hl, leftsFrom_nil (by omega), inTurn]
      by_cases hr : right + len ≤ stop
      · rw [if_pos hr, look_eq fun hlen => by have := hright hlen; omega, rightsFrom_cons hr,
          List.foldl_cons]
        show searchLoop lines search len start stop rounds left (right + 1) _ = _
        rw [ih (by omega) (fun _ hlt => absurd hlt hl), leftsFrom_nil (by omega), inTurn]
      · rw [if_neg hr, rightsFrom_nil (by omega)]
        rfl

/-! ## The search -/

/-- The number of lines of the search text. -/
def lineCount (search : Str) : ℕ := (search.splitOn '\n').length

theorem lineCount_pos (search : Str) : 0 < lineCount search := by
  unfold lineCount
  exact List.length_pos_iff.2 (List.splitOn_ne_nil _ _)

/-- **The places** of a search, in their order. -/
def visits (lines : List Str) (search : Str) (start stop : ℕ) : List ℕ :=
  inTurn (isHit lines search (lineCount search)) (leftsFrom start ((start + stop) / 2 + 1))
    (rightsFrom stop (lineCount search) ((start + stop) / 2 + 1))

theorem mem_visits :
    i ∈ visits lines search start stop ↔
      (start ≤ i ∧ i ≤ (start + stop) / 2) ∨
        ((start + stop) / 2 < i ∧ i + lineCount search ≤ stop) := by
  unfold visits
  rw [mem_inTurn, mem_leftsFrom, mem_rightsFrom]
  omega

/-- The window is empty and lies behind the last line, and the search text is a single line. -/
def LooksOutside (lines : List Str) (search : Str) (start stop : ℕ) : Prop :=
  lineCount search = 1 ∧ start = lines.length ∧ stop = lines.length

/-- **The search goes through its places**, unless it looks outside the lines. -/
theorem fuzzySearch_eq (hstop : stop ≤ lines.length) (h : ¬ LooksOutside lines search start stop) :
    fuzzySearch lines search start stop =
      .ok ((visits lines search start stop).foldl
        (bestStep (isHit lines search (lineCount search)) (scoreAt lines search (lineCount search)))
        ⟨0, none⟩) := by
  have hpos := lineCount_pos search
  unfold fuzzySearch visits
  refine searchLoop_eq ?_ ?_ (fun _ => hstop) _
  · show (start + stop) / 2 + 1 - start + (stop + 1 - lineCount search - ((start + stop) / 2 + 1)) ≤ _
    omega
  · intro hlen hlt
    by_contra hgt
    exact h ⟨hlen, by omega, by omega⟩

theorem fuzzySearch_error (h : LooksOutside lines search start stop) :
    fuzzySearch lines search start stop = .error .indexError := by
  obtain ⟨hlen, rfl, rfl⟩ := h
  unfold lineCount at hlen
  unfold fuzzySearch
  dsimp only
  rw [hlen, show (lines.length + lines.length) / 2 + 1 + lines.length =
    lines.length + lines.length + 1 by omega, searchLoop, if_pos (by omega),
    look_error (by omega)]

/-! ## What is found -/

/-- The search text is found at a place: a single line has it in it, or a window that is similar; a run
of lines is similar as a whole. -/
def FoundAt (lines : List Str) (search : Str) (i : ℕ) : Prop :=
  if lineCount search = 1 then
    search <:+: lines.getD i [] ∨ ∃ window ∈ windowsOf (lines.getD i []) search, Similar window search
  else Similar (runOf lines i (lineCount search)) search

theorem ne_nil_of_lineCount (h : lineCount search ≠ 1) : search ≠ [] := by
  rintro rfl
  exact h rfl

theorem threshold_le_scoreAt_iff :
    fuzzyThreshold ≤ scoreAt lines search (lineCount search) i ↔ FoundAt lines search i := by
  unfold scoreAt FoundAt isHit
  by_cases hlen : lineCount search = 1
  · simp only [hlen, true_and, if_true]
    by_cases hin : search <:+: lines.getD i []
    · simp only [hin, decide_true, if_true, true_or, iff_true]
      unfold fuzzyThreshold
      norm_num
    · have hne : search ≠ [] := fun h => hin (h ▸ List.nil_infix)
      simp only [hin, decide_false, Bool.false_eq_true, if_false, false_or]
      exact findBestSubstringMatch_ge_iff hne
  · simp only [hlen, false_and, decide_false, Bool.false_eq_true, if_false]
    exact similarity_ge_iff (ne_nil_of_lineCount hlen)

/-- The place that is taken: of those where the search text is found, the last in the order of the
search whose line has it, and without such a line the first of the greatest score. -/
def TakenAt (lines : List Str) (search : Str) (start stop i : ℕ) : Prop :=
  Picked (isHit lines search (lineCount search)) (scoreAt lines search (lineCount search))
    (visits lines search start stop) i ∧ FoundAt lines search i

/-- The search text is found at some place of the window. -/
def FoundWithin (lines : List Str) (search : Str) (start stop : ℕ) : Prop :=
  ∃ i, ((start ≤ i ∧ i ≤ (start + stop) / 2) ∨
    ((start + stop) / 2 < i ∧ i + lineCount search ≤ stop)) ∧ FoundAt lines search i

section Found

variable {lines : List Str} {search : Str} {start stop : ℕ} {best : Best}

/-- **Which place is taken.** -/
theorem fuzzySearch_eq_some_iff (hstop : stop ≤ lines.length)
    (h : fuzzySearch lines search start stop = .ok best) {i : ℕ} :
    best.accepted = some i ↔ TakenAt lines search start stop i := by
  have hin : ¬ LooksOutside lines search start stop := by
    intro hout
    rw [fuzzySearch_error hout] at h
    cases h
  rw [fuzzySearch_eq hstop hin] at h
  obtain rfl := Except.ok.inj h
  rw [accepted_eq_some_iff (scoreAt_le_one lines search _) fun _ => scoreAt_of_isHit,
    threshold_le_scoreAt_iff]
  rfl

/-- **When a place is similar enough.** -/
theorem fuzzySearch_isSome_iff (hstop : stop ≤ lines.length)
    (h : fuzzySearch lines search start stop = .ok best) :
    best.accepted.isSome ↔ FoundWithin lines search start stop := by
  have hin : ¬ LooksOutside lines search start stop := by
    intro hout
    rw [fuzzySearch_error hout] at h
    cases h
  rw [fuzzySearch_eq hstop hin] at h
  obtain rfl := Except.ok.inj h
  rw [accepted_isSome_iff (scoreAt_le_one lines search _) fun _ => scoreAt_of_isHit]
  simp only [threshold_le_scoreAt_iff, mem_visits]
  rfl

end Found

end OpenViking.Memory.StrPatch
