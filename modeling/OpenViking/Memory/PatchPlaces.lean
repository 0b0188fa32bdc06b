import OpenViking.Common.Slashes
import OpenViking.Memory.FuzzySearch

/-!
# What becomes of a block

The second strategy tries the blocks one after another, each on the lines the blocks before it have
left.  What it does with one block depends on that block and on these lines alone.

Results:
* `locate_eq_error_iff`, `locate_eq_none_iff`, `locate_eq_some_iff`: what the search for a
  block comes to;
* `fateOf_error_iff`, `fateOf_same_iff`, `fateOf_unmatched_iff`, `fateOf_applied_iff`: the same of a
  block as it is written;
* `linePass_ok`, `linePass_error`: the fates of a run are those of its `steps`.
-/

namespace OpenViking.Memory.StrPatch

open EditDistance

/-! ## Lines of a text -/

theorem joinLines_splitOn (text : Str) : joinLines (text.splitOn '\n') = text :=
  List.intercalate_splitOn '\n'

theorem length_linesOf {text : Str} (h : text ≠ []) : (linesOf text).length = lineCount text := by
  unfold linesOf lineCount
  rw [if_neg h]

theorem lineCount_eq_one_iff {text : Str} : lineCount text = 1 ↔ '\n' ∉ text := by
  unfold lineCount
  constructor
  · intro h hmem
    obtain ⟨line, hline⟩ := List.length_eq_one_iff.1 h
    have htext : joinLines [line] = text := by rw [← hline, joinLines_splitOn]
    have hnot : '\n' ∉ line ∧ line ⊆ text := mem_splitOn (by rw [hline]; exact List.mem_singleton_self _)
    apply hnot.1
    rw [← htext] at hmem
    simpa [joinLines, List.intercalate] using hmem
  · intro h
    rw [List.splitOn_eq_singleton h]
    rfl

variable {lines : List Str}

theorem newline_mem_joinLines (h : 2 ≤ lines.length) : '\n' ∈ joinLines lines := by
  cases lines with
  | nil => simp at h
  | cons first rest =>
    cases rest with
    | nil => simp at h
    | cons second rest => simp [joinLines, List.intercalate, List.intersperse]

theorem length_splitLines (text : Str) : (splitLines text).length = lineCount text := by
  have hpos := lineCount_pos text
  unfold lineCount at hpos
  unfold splitLines lineCount
  simp only [List.length_append, List.length_map, List.length_dropLast, Option.length_toList]
  have hlast : (text.splitOn '\n').getLast?.isSome := by
    rw [List.getLast?_isSome]
    exact List.splitOn_ne_nil _ _
  rw [if_pos hlast]
  omega

/-- Taking off line numbers leaves a text of several lines one. -/
theorem newline_mem_stripLineNumbers {E : Env} {aggressive : Bool} {text : Str} (h : '\n' ∈ text) :
    '\n' ∈ stripLineNumbers E aggressive text := by
  unfold stripLineNumbers splitContentLines
  rw [if_neg (List.ne_nil_of_mem h)]
  apply newline_mem_joinLines
  rw [List.length_map, length_splitLines]
  have hpos := lineCount_pos text
  have hone : lineCount text ≠ 1 := fun heq => lineCount_eq_one_iff.1 heq h
  omega

/-! ## Where the search is made -/

/-- The text is similar to the lines at its line number. -/
def MatchesAtLine (lines : List Str) (p : Prepared) : Prop :=
  p.startLine ≠ 0 ∧ Similar (runOf lines (p.startLine - 1) (lineCount p.search)) p.search

/-- The search looks for a line that is not there: the text is a single line that is not at its line
number, and the window of the search begins and ends behind the last line. -/
def OutOfLines (lines : List Str) (p : Prepared) : Prop :=
  ¬ MatchesAtLine lines p ∧ '\n' ∉ p.search ∧
    (p.startLine = lines.length + 41 ∨ (lines = [] ∧ p.startLine ≤ 41))

/-- The texts when line numbers are taken off from every line that has one. -/
def aggressive (E : Env) (p : Prepared) : Prepared :=
  ⟨stripLineNumbers E true p.search, stripLineNumbers E true p.replace, p.startLine⟩

/-- The text is found at a place of the window. -/
def FoundNear (lines : List Str) (p : Prepared) (search : Str) : Prop :=
  FoundWithin lines search (searchBounds lines p).1 (searchBounds lines p).2

/-- The place of the window that is taken for a text. -/
def TakenNear (lines : List Str) (p : Prepared) (search : Str) (i : ℕ) : Prop :=
  TakenAt lines search (searchBounds lines p).1 (searchBounds lines p).2 i

theorem matchAtLine_iff {p : Prepared} (h : p.search ≠ []) :
    matchAtLine lines p = true ↔ MatchesAtLine lines p := by
  unfold matchAtLine MatchesAtLine
  rw [decide_eq_true_iff, similarity_ge_iff h, length_linesOf h]

theorem searchBounds_le (lines : List Str) (p : Prepared) : (searchBounds lines p).2 ≤ lines.length := by
  unfold searchBounds
  split_ifs
  · exact le_refl _
  · exact min_le_left _ _

theorem looksOutside_iff {p : Prepared} :
    LooksOutside lines p.search (searchBounds lines p).1 (searchBounds lines p).2 ↔
      '\n' ∉ p.search ∧
        (p.startLine = lines.length + 41 ∨ (lines = [] ∧ p.startLine ≤ 41)) := by
  unfold LooksOutside searchBounds bufferLines
  rw [lineCount_eq_one_iff, ← List.length_eq_zero_iff]
  refine and_congr_right fun _ => ?_
  split_ifs with hzero
  · show 0 = lines.length ∧ lines.length = lines.length ↔ _
    omega
  · show p.startLine - (40 + 1) = lines.length ∧
      min lines.length (p.startLine + (linesOf p.search).length + 40) = lines.length ↔ _
    omega

theorem not_looksOutside_aggressive {E : Env} {p : Prepared}
    (h : ¬ LooksOutside lines p.search (searchBounds lines p).1 (searchBounds lines p).2) :
    ¬ LooksOutside lines (aggressive E p).search (searchBounds lines p).1
      (searchBounds lines p).2 := by
  rintro ⟨hone, hstart, hstop⟩
  apply h
  refine ⟨lineCount_eq_one_iff.2 fun hmem => ?_, hstart, hstop⟩
  exact lineCount_eq_one_iff.1 hone (newline_mem_stripLineNumbers hmem)

/-! ## Where a block applies -/

/-- The replacement of the texts at a line. -/
def Prepared.cutAt (p : Prepared) (i : ℕ) : Cut := ⟨i, linesOf p.search, linesOf p.replace⟩

/-- The line that is taken for the texts of a block, and the texts it is taken for: the line with their
number, or that of the first search, or that of the search without line numbers. -/
def Placed (E : Env) (lines : List Str) (p : Prepared) (i : ℕ) (q : Prepared) : Prop :=
  (MatchesAtLine lines p ∧ i = p.startLine - 1 ∧ q = p) ∨
    (¬ MatchesAtLine lines p ∧ ¬ OutOfLines lines p ∧
      ((TakenNear lines p p.search i ∧ q = p) ∨
        (¬ FoundNear lines p p.search ∧ TakenNear lines p (aggressive E p).search i ∧
          q = aggressive E p)))

section Locate

variable {E : Env} {lines : List Str} {p : Prepared}

section

variable (hne : p.search ≠ [])

include hne

theorem locate_of_matches (h : MatchesAtLine lines p) :
    locate E lines p = .ok (some (p.cutAt (p.startLine - 1))) := by
  unfold locate
  rw [if_pos ((matchAtLine_iff hne).2 h)]
  rfl

/-- The two searches, when no line is missed. -/
theorem locate_of_not_matches (h : ¬ MatchesAtLine lines p) (hin : ¬ OutOfLines lines p) :
    ∃ best best',
      fuzzySearch lines p.search (searchBounds lines p).1 (searchBounds lines p).2 = .ok best ∧
      fuzzySearch lines (aggressive E p).search (searchBounds lines p).1 (searchBounds lines p).2 =
        .ok best' ∧
      locate E lines p = .ok ((best.accepted.map p.cutAt).orElse fun _ =>
        best'.accepted.map (aggressive E p).cutAt) := by
  have hlooks : ¬ LooksOutside lines p.search (searchBounds lines p).1 (searchBounds lines p).2 :=
    fun hout => hin ⟨h, looksOutside_iff.1 hout⟩
  obtain ⟨best, hbest⟩ : ∃ best, fuzzySearch lines p.search (searchBounds lines p).1
      (searchBounds lines p).2 = .ok best :=
    ⟨_, fuzzySearch_eq (searchBounds_le lines p) hlooks⟩
  obtain ⟨best', hbest'⟩ : ∃ best, fuzzySearch lines (aggressive E p).search
      (searchBounds lines p).1 (searchBounds lines p).2 = .ok best :=
    ⟨_, fuzzySearch_eq (searchBounds_le lines p) (not_looksOutside_aggressive hlooks)⟩
  refine ⟨best, best', hbest, hbest', ?_⟩
  unfold locate
  rw [if_neg fun hm => h ((matchAtLine_iff hne).1 hm)]
  unfold aggressive at hbest' ⊢
  simp only [hbest, hbest']
  cases best.accepted with
  | none => rfl
  | some i => rfl

/-- **When the search looks outside the lines.** -/
theorem locate_eq_error_iff {e : PatchError} :
    locate E lines p = .error e ↔ e = .indexError ∧ OutOfLines lines p := by
  by_cases hm : MatchesAtLine lines p
  · rw [locate_of_matches hne hm]
    simp [OutOfLines, hm]
  · by_cases hout : OutOfLines lines p
    · have herror : locate E lines p = .error .indexError := by
        unfold locate
        rw [if_neg fun h => hm ((matchAtLine_iff hne).1 h)]
        simp only [fuzzySearch_error (looksOutside_iff.2 hout.2)]
      rw [herror]
      simp [hout, eq_comm]
    · obtain ⟨best, best', -, -, hlocate⟩ := locate_of_not_matches (E := E) hne hm hout
      rw [hlocate]
      simp [hout]

/-- **When nothing is found.** -/
theorem locate_eq_none_iff :
    locate E lines p = .ok none ↔ ¬ MatchesAtLine lines p ∧ ¬ OutOfLines lines p ∧
      ¬ FoundNear lines p p.search ∧ ¬ FoundNear lines p (aggressive E p).search := by
  by_cases hm : MatchesAtLine lines p
  · rw [locate_of_matches hne hm]
    simp [hm]
  · by_cases hout : OutOfLines lines p
    · rw [(locate_eq_error_iff hne).2 ⟨rfl, hout⟩]
      simp [hout]
    · obtain ⟨best, best', hbest, hbest', hlocate⟩ := locate_of_not_matches (E := E) hne hm hout
      unfold FoundNear
      rw [hlocate, ← fuzzySearch_isSome_iff (searchBounds_le lines p) hbest,
        ← fuzzySearch_isSome_iff (searchBounds_le lines p) hbest']
      cases best.accepted with
      | none => simp [hm, hout]
      | some i => simp

/-- **Which lines are taken.** -/
theorem locate_eq_some_iff {cut : Cut} :
    locate E lines p = .ok (some cut) ↔ ∃ i q, Placed E lines p i q ∧ cut = q.cutAt i := by
  unfold Placed
  by_cases hm : MatchesAtLine lines p
  · rw [locate_of_matches hne hm]
    simp [hm, and_assoc, eq_comm]
  · by_cases hout : OutOfLines lines p
    · rw [(locate_eq_error_iff hne).2 ⟨rfl, hout⟩]
      simp [hm, hout]
    · obtain ⟨best, best', hbest, hbest', hlocate⟩ := locate_of_not_matches (E := E) hne hm hout
      have htaken (i : ℕ) := fuzzySearch_eq_some_iff (searchBounds_le lines p) hbest (i := i)
      have htaken' (i : ℕ) := fuzzySearch_eq_some_iff (searchBounds_le lines p) hbest' (i := i)
      unfold TakenNear FoundNear
      simp only [hlocate, ← htaken, ← htaken', hm, hout, false_and, false_or, not_false_eq_true,
        true_and, ← fuzzySearch_isSome_iff (searchBounds_le lines p) hbest]
      cases best.accepted with
      | none => simp [eq_comm]
      | some i => simp [eq_comm]

end

end Locate

/-! ## The fate of a block -/

/-- The texts a block is searched and replaced by. -/
def Pursued (E : Env) (block : Block) (p : Prepared) : Prop :=
  prepare E block = .ok p ∧ p.search ≠ p.replace ∧ p.search ≠ []

/-- Search and replacement are the same text. -/
def NothingToChange (E : Env) (block : Block) : Prop :=
  ∃ p, prepare E block = .ok p ∧ p.search = p.replace

/-- The block is not found: its search text is empty, or nothing in the lines is similar to it. -/
def Unfindable (E : Env) (lines : List Str) (block : Block) : Prop :=
  ∃ p, prepare E block = .ok p ∧ p.search ≠ p.replace ∧ (p.search = [] ∨
    (¬ MatchesAtLine lines p ∧ ¬ OutOfLines lines p ∧ ¬ FoundNear lines p p.search ∧
      ¬ FoundNear lines p (aggressive E p).search))

/-- The first line number has more digits than `int` takes. -/
def NumberTooLong (E : Env) (block : Block) : Prop :=
  everyLineHasLineNumbers E (unescapeMarkers block.search) ∧
    (everyLineHasLineNumbers E (unescapeMarkers block.replace) ∨
      strip (unescapeMarkers block.replace) = []) ∧
    ∃ digits rest, numberPrefix E (((unescapeMarkers block.search).takeWhile
      (· ≠ '\n')).dropWhile isSpace) = some (digits, rest) ∧ maxStrDigits < digits.length

section Fate

variable {E : Env} {lines : List Str} {block : Block}

variable {e : PatchError}

theorem prepare_eq_error_iff : prepare E block = .error e ↔ e = .valueError ∧ NumberTooLong E block := by
  unfold prepare NumberTooLong
  dsimp only
  split_ifs with hnumbered
  · unfold extractStartLineNumber
    dsimp only
    cases hprefix : numberPrefix E (((unescapeMarkers block.search).takeWhile
      (· ≠ '\n')).dropWhile isSpace) with
    | none => simp [Except.map]
    | some found =>
      obtain ⟨digits, rest⟩ := found
      unfold intOf
      by_cases hlong : digits.length > maxStrDigits
      · simp only [if_pos hlong, Except.map]
        constructor
        · intro h
          refine ⟨(Except.error.inj h).symm, hnumbered.1, hnumbered.2, digits, rest, rfl, hlong⟩
        · rintro ⟨rfl, -⟩
          rfl
      · simp only [if_neg hlong, Except.map]
        constructor
        · intro h
          cases h
        · rintro ⟨-, -, -, digits', rest', hsome, hlt⟩
          cases hsome
          exact absurd hlt hlong
  · constructor
    · intro h
      cases h
    · rintro ⟨-, hsearch, hreplace, -⟩
      exact absurd ⟨hsearch, hreplace⟩ hnumbered

variable {p : Prepared}

theorem Pursued.exists_iff (h : Pursued E block p) {P : Prepared → Prop} :
    (∃ q, Pursued E block q ∧ P q) ↔ P p := by
  constructor
  · rintro ⟨q, hq, hP⟩
    obtain rfl := Except.ok.inj (hq.1.symm.trans h.1)
    exact hP
  · exact fun hP => ⟨p, h, hP⟩

/-- The cases of a block. -/
theorem fateOf_cases (E : Env) (lines : List Str) (block : Block) :
    (∃ e, prepare E block = .error e ∧ fateOf E lines block = .error e) ∨
      (∃ p, prepare E block = .ok p ∧ p.search = p.replace ∧ fateOf E lines block = .ok .same) ∨
      (∃ p, prepare E block = .ok p ∧ p.search ≠ p.replace ∧ p.search = [] ∧
        fateOf E lines block = .ok .unmatched) ∨
      ∃ p, Pursued E block p ∧ fateOf E lines block = (locate E lines p).map Fate.ofPlace := by
  unfold fateOf
  cases h : prepare E block with
  | error e => exact Or.inl ⟨e, rfl, rfl⟩
  | ok p =>
    dsimp only
    by_cases heq : p.search = p.replace
    · exact Or.inr (Or.inl ⟨p, rfl, heq, if_pos heq⟩)
    · rw [if_neg heq]
      by_cases hempty : p.search = []
      · exact Or.inr (Or.inr (Or.inl ⟨p, rfl, heq, hempty, if_pos hempty⟩))
      · exact Or.inr (Or.inr (Or.inr ⟨p, ⟨h, heq, hempty⟩, if_neg hempty⟩))

/-- **When a block ends the patch with an error.** -/
theorem fateOf_error_iff :
    fateOf E lines block = .error e ↔ (e = .valueError ∧ NumberTooLong E block) ∨
      (e = .indexError ∧ ∃ p, Pursued E block p ∧ OutOfLines lines p) := by
  rcases fateOf_cases E lines block with
    ⟨e', h, hfate⟩ | ⟨p, h, heq, hfate⟩ | ⟨p, h, hne, hempty, hfate⟩ | ⟨p, hp, hfate⟩
  · rw [hfate]
    obtain ⟨rfl, hlong⟩ := prepare_eq_error_iff.1 h
    simp [hlong, Pursued, h, eq_comm]
  · rw [hfate]
    simp [Pursued, h, heq, ← prepare_eq_error_iff]
  · rw [hfate]
    simp [Pursued, h, hempty, ← prepare_eq_error_iff]
  · rw [hfate, ← prepare_eq_error_iff, hp.1]
    have hlocate : locate E lines p = .error e ↔ e = .indexError ∧ OutOfLines lines p :=
      locate_eq_error_iff hp.2.2
    rw [hp.exists_iff, ← hlocate]
    cases locate E lines p with
    | error e' => simp [Except.map]
    | ok cut? => simp [Except.map]

/-- **When nothing is to change.** -/
theorem fateOf_same_iff : fateOf E lines block = .ok .same ↔ NothingToChange E block := by
  unfold NothingToChange
  rcases fateOf_cases E lines block with
    ⟨e', h, hfate⟩ | ⟨p, h, heq, hfate⟩ | ⟨p, h, hne, hempty, hfate⟩ | ⟨p, hp, hfate⟩
  · rw [hfate]
    simp [h]
  · rw [hfate]
    simp [h, heq]
  · rw [hfate]
    simp [h, hne]
  · rw [hfate, hp.1]
    cases locate E lines p with
    | error e' => simp [Except.map, hp.2.1]
    | ok cut? => cases cut? <;> simp [Except.map, Fate.ofPlace, hp.2.1]

/-- **When a block is not found.** -/
theorem fateOf_unmatched_iff : fateOf E lines block = .ok .unmatched ↔ Unfindable E lines block := by
  unfold Unfindable
  rcases fateOf_cases E lines block with
    ⟨e', h, hfate⟩ | ⟨p, h, heq, hfate⟩ | ⟨p, h, hne, hempty, hfate⟩ | ⟨p, hp, hfate⟩
  · rw [hfate]
    simp [h]
  · rw [hfate]
    simp [h, heq]
  · rw [hfate]
    exact iff_of_true rfl ⟨p, h, hne, Or.inl hempty⟩
  · rw [hfate, hp.1]
    simp only [Except.ok.injEq, exists_eq_left', hp.2.1, hp.2.2, ne_eq, not_false_eq_true,
      true_and, false_or]
    rw [← locate_eq_none_iff hp.2.2]
    cases locate E lines p with
    | error e' => simp [Except.map]
    | ok cut? => cases cut? <;> simp [Except.map, Fate.ofPlace]

/-- **Which lines are replaced.** -/
theorem fateOf_applied_iff {cut : Cut} :
    fateOf E lines block = .ok (.applied cut) ↔
      ∃ p, Pursued E block p ∧ ∃ i q, Placed E lines p i q ∧ cut = q.cutAt i := by
  rcases fateOf_cases E lines block with
    ⟨e', h, hfate⟩ | ⟨p, h, heq, hfate⟩ | ⟨p, h, hne, hempty, hfate⟩ | ⟨p, hp, hfate⟩
  · rw [hfate]
    simp [Pursued, h]
  · rw [hfate]
    simp [Pursued, h, heq]
  · rw [hfate]
    simp [Pursued, h, hempty]
  · rw [hfate, hp.exists_iff, ← locate_eq_some_iff hp.2.2]
    cases locate E lines p with
    | error e' => simp [Except.map]
    | ok cut? => cases cut? <;> simp [Except.map, Fate.ofPlace]

end Fate

/-! ## A run -/

/-- The blocks the second strategy comes to, each with the lines it finds. -/
def steps (E : Env) : List Block → List Str → List (List Str × Block)
  | [], _ => []
  | block :: blocks, lines =>
    (lines, block) :: match fateOf E lines block with
      | .error _ => []
      | .ok fate => steps E blocks (fate.apply lines)

section Run

variable {E : Env}

variable {blocks : List Block} {lines : List Str}

theorem mem_steps_cons {block : Block}
    {s : List Str × Block} : s ∈ steps E (block :: blocks) lines ↔ s = (lines, block) ∨
      ∃ fate, fateOf E lines block = .ok fate ∧ s ∈ steps E blocks (fate.apply lines) := by
  rw [steps, List.mem_cons]
  cases fateOf E lines block with
  | error e => simp
  | ok fate => simp

/-- **A run without an error**: its fates are those of its steps. -/
theorem linePass_ok {lines lines' : List Str} {fates : List Fate}
    (h : linePass E blocks lines = .ok (fates, lines')) :
    (steps E blocks lines).map (fun s => fateOf E s.1 s.2) = fates.map .ok := by
  induction blocks generalizing lines fates with
  | nil =>
    cases h
    rfl
  | cons block blocks ih =>
    rw [linePass] at h
    rw [steps]
    cases hfate : fateOf E lines block with
    | error e =>
      rw [hfate] at h
      cases h
    | ok fate =>
      rw [hfate] at h
      simp only at h ⊢
      cases hrest : linePass E blocks (fate.apply lines) with
      | error e =>
        rw [hrest] at h
        cases h
      | ok r =>
        obtain ⟨rest, last⟩ := r
        rw [hrest] at h
        cases h
        rw [List.map_cons, List.map_cons, hfate, ih hrest]

/-- **A run that ends with an error** ends with that of one of its steps. -/
theorem linePass_error {e : PatchError} (h : linePass E blocks lines = .error e) :
    ∃ s ∈ steps E blocks lines, fateOf E s.1 s.2 = .error e := by
  induction blocks generalizing lines with
  | nil => cases h
  | cons block blocks ih =>
    rw [linePass] at h
    cases hfate : fateOf E lines block with
    | error e' =>
      rw [hfate] at h
      cases h
      exact ⟨_, mem_steps_cons.2 (Or.inl rfl), hfate⟩
    | ok fate =>
      rw [hfate] at h
      cases hrest : linePass E blocks (fate.apply lines) with
      | error e' =>
        simp only [hrest, Except.map] at h
        cases h
        obtain ⟨s, hs, herror⟩ := ih hrest
        exact ⟨s, mem_steps_cons.2 (Or.inr ⟨fate, hfate, hs⟩), herror⟩
      | ok r =>
        simp only [hrest, Except.map] at h
        cases h

/-- A run ends with an error just when one of its steps does. -/
theorem linePass_isOk_iff :
    (∃ r, linePass E blocks lines = .ok r) ↔
      ∀ s ∈ steps E blocks lines, ∃ fate, fateOf E s.1 s.2 = .ok fate := by
  constructor
  · rintro ⟨⟨fates, lines'⟩, h⟩ s hs
    have hmem : fateOf E s.1 s.2 ∈ fates.map Except.ok := by
      rw [← linePass_ok h]
      exact List.mem_map_of_mem hs
    obtain ⟨fate, -, hfate⟩ := List.mem_map.1 hmem
    exact ⟨fate, hfate.symm⟩
  · intro h
    cases hrun : linePass E blocks lines with
    | ok r => exact ⟨r, rfl⟩
    | error e =>
      obtain ⟨s, hs, herror⟩ := linePass_error hrun
      obtain ⟨fate, hfate⟩ := h s hs
      rw [hfate] at herror
      cases herror

end Run

/-! ## The patch -/

/-- The block is to be changed, and its search text is empty or not in the text. -/
def Missing (text : Str) (block : Block) : Prop :=
  unescapeMarkers block.search ≠ unescapeMarkers block.replace ∧
    (unescapeMarkers block.search = [] ∨ ¬ unescapeMarkers block.search <:+: text)

/-- The blocks the first strategy comes to, each with the text it finds: after a block that is missing
or is found more than once there is none. -/
def exactSteps : List Block → Str → List (Str × Block)
  | [], _ => []
  | block :: blocks, text =>
    let search := unescapeMarkers block.search
    let replace := unescapeMarkers block.replace
    (text, block) ::
      if search = replace then exactSteps blocks text
      else if search ≠ [] ∧ search <:+: text ∧ countFrom search 0 text ≤ 1 then
        exactSteps blocks (replaceFirst search replace text)
      else []

/-- The first strategy decides: it misses no block. -/
def FirstDecides (original : Str) (blocks : List Block) : Prop :=
  ∀ s ∈ exactSteps blocks original, ¬ Missing s.1 s.2

theorem firstDecides_iff {original : Str} {blocks : List Block} :
    FirstDecides original blocks ↔ exactPass blocks original ≠ .ok none := by
  unfold FirstDecides
  induction blocks generalizing original with
  | nil => simp [exactSteps, exactPass]
  | cons block blocks ih =>
    unfold exactPass exactSteps
    dsimp only
    rw [List.forall_mem_cons]
    by_cases hsame : unescapeMarkers block.search = unescapeMarkers block.replace
    · have hnot : ¬ Missing original block := fun h => h.1 hsame
      rw [if_pos hsame, if_pos hsame, and_iff_right hnot]
      exact ih
    · rw [if_neg hsame, if_neg hsame]
      by_cases hempty : unescapeMarkers block.search = []
      · have hmissing : Missing original block := ⟨hsame, Or.inl hempty⟩
        rw [if_pos hempty]
        simp [hmissing]
      · rw [if_neg hempty]
        by_cases hin : unescapeMarkers block.search <:+: original
        · have hnot : ¬ Missing original block := fun h => h.2.elim hempty fun h => h hin
          rw [if_neg (not_not.2 hin), and_iff_right hnot]
          by_cases hcount : countFrom (unescapeMarkers block.search) 0 original > 1
          · rw [if_pos hcount, if_neg fun h => absurd h.2.2 (by omega)]
            simp
          · rw [if_neg hcount, if_pos ⟨hempty, hin, by omega⟩]
            exact ih
        · have hmissing : Missing original block := ⟨hsame, Or.inr hin⟩
          rw [if_pos hin]
          simp [hmissing]

/-- The first strategy raises errors of the patch only. -/
theorem exactPass_error {blocks : List Block} {result : Str} {e : PatchError}
    (h : exactPass blocks result = .error e) : ∃ text, e = .parseError text := by
  induction blocks generalizing result with
  | nil => cases h
  | cons block blocks ih =>
    unfold exactPass at h
    dsimp only at h
    split_ifs at h with hsame hempty hin hcount
    · exact ih h
    · exact ⟨_, (Except.error.inj h).symm⟩
    · exact ih h

section Patch

variable {E : Env} {original : Str} {blocks : List Block}

theorem applyStrPatch_of_decides (h : FirstDecides original blocks) :
    (∃ text, exactPass blocks original = .ok (some text) ∧
      applyStrPatch E original blocks = .ok text) ∨
      ∃ text, applyStrPatch E original blocks = .error (.parseError text) := by
  rw [firstDecides_iff] at h
  unfold applyStrPatch
  by_cases hempty : blocks = []
  · subst hempty
    exact Or.inl ⟨original, rfl, rfl⟩
  · rw [if_neg hempty]
    cases hexact : exactPass blocks original with
    | error e =>
      obtain ⟨text, rfl⟩ := exactPass_error hexact
      exact Or.inr ⟨text, rfl⟩
    | ok result? =>
      cases result? with
      | none => exact absurd hexact h
      | some result => exact Or.inl ⟨result, rfl, rfl⟩

section

variable (h : ¬ FirstDecides original blocks)

include h

theorem exactPass_of_not_decides : exactPass blocks original = .ok none := by
  by_contra hne
  exact h (firstDecides_iff.2 hne)

theorem ne_nil_of_not_decides : blocks ≠ [] := by
  rintro rfl
  exact h (firstDecides_iff.2 fun hnone => by cases hnone)

theorem applyStrPatch_of_error {e : PatchError} (hrun : linePass E blocks (splitLines original) = .error e) :
    applyStrPatch E original blocks = .error e := by
  have hnone : exactPass blocks original = .ok none := exactPass_of_not_decides h
  unfold applyStrPatch
  rw [if_neg (ne_nil_of_not_decides h), hnone]
  dsimp only
  rw [hrun]

end

/-- The text of the lines that are left, with the line ending of the original text. -/
def joinedAs (original : Str) (lines : List Str) : Str :=
  (if ['\r', '\n'] <:+: original then ['\r', '\n'] else ['\n'] : Str).intercalate lines

theorem applyStrPatch_of_ok (h : ¬ FirstDecides original blocks) {fates : List Fate}
    {lines : List Str} (hrun : linePass E blocks (splitLines original) = .ok (fates, lines)) :
    applyStrPatch E original blocks =
      if fates.any Fate.isApplied = false ∧ Fate.unmatched ∈ fates then
        .error (.parseError (notFoundText E original blocks))
      else .ok (joinedAs original lines) := by
  have hnone : exactPass blocks original = .ok none := exactPass_of_not_decides h
  unfold applyStrPatch
  rw [if_neg (ne_nil_of_not_decides h), hnone]
  dsimp only
  rw [hrun]
  rfl

end Patch

end OpenViking.Memory.StrPatch
