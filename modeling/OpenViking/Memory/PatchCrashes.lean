import OpenViking.Memory.PatchPlaces

/-!
# How a patch ends

A patch returns a text or raises `PatchParseError`.  It ends otherwise when a line number is too long
for `int`, or when a single line is searched for in an empty window behind the last line.

Results:
* `endsProperly_iff`: when a patch ends properly.
-/

namespace OpenViking.Memory.StrPatch

/-- A text is returned or `PatchParseError` is raised. -/
def EndsProperly (r : Except PatchError Str) : Prop :=
  (∃ text, r = .ok text) ∨ ∃ text, r = .error (.parseError text)

/-- The block ends the patch with another error: its line number is too long, or a line is looked for
that is not there. -/
def Crashes (E : Env) (lines : List Str) (block : Block) : Prop :=
  NumberTooLong E block ∨ ∃ p, Pursued E block p ∧ OutOfLines lines p

section Crashes

variable {E : Env} {lines : List Str} {block : Block}

theorem crashes_iff : Crashes E lines block ↔ ∃ e, fateOf E lines block = .error e := by
  unfold Crashes
  simp only [fateOf_error_iff]
  constructor
  · rintro (hlong | hout)
    · exact ⟨.valueError, Or.inl ⟨rfl, hlong⟩⟩
    · exact ⟨.indexError, Or.inr ⟨rfl, hout⟩⟩
  · rintro ⟨e, ⟨-, hlong⟩ | ⟨-, hout⟩⟩
    · exact Or.inl hlong
    · exact Or.inr hout

theorem not_crashes_iff : ¬ Crashes E lines block ↔ ∃ fate, fateOf E lines block = .ok fate := by
  rw [crashes_iff]
  cases fateOf E lines block with
  | error e => simp
  | ok fate => simp

/-- The error of a block is never one of the patch. -/
theorem fateOf_ne_parseError {text : Str} : fateOf E lines block ≠ .error (.parseError text) := by
  intro h
  rcases fateOf_error_iff.1 h with ⟨heq, -⟩ | ⟨heq, -⟩
  · cases heq
  · cases heq

end Crashes

/-- **When a patch ends properly**: the first strategy decides, or no block the second one comes to has
a line number that is too long or looks for a line behind the last. -/
theorem endsProperly_iff {E : Env} {original : Str} {blocks : List Block} :
    EndsProperly (applyStrPatch E original blocks) ↔ FirstDecides original blocks ∨
      ∀ s ∈ steps E blocks (splitLines original), ¬ Crashes E s.1 s.2 := by
  by_cases hfirst : FirstDecides original blocks
  · refine iff_of_true ?_ (Or.inl hfirst)
    rcases applyStrPatch_of_decides (E := E) hfirst with ⟨text, -, htext⟩ | ⟨text, htext⟩
    · exact Or.inl ⟨text, htext⟩
    · exact Or.inr ⟨text, htext⟩
  · simp only [hfirst, false_or, not_crashes_iff, ← linePass_isOk_iff]
    cases hrun : linePass E blocks (splitLines original) with
    | error e =>
      rw [applyStrPatch_of_error hfirst hrun]
      refine iff_of_false ?_ (by simp)
      rintro (⟨text, h⟩ | ⟨text, h⟩)
      · cases h
      · obtain ⟨s, -, herror⟩ := linePass_error hrun
        rw [Except.error.inj h] at herror
        exact fateOf_ne_parseError herror
    | ok r =>
      obtain ⟨fates, lines⟩ := r
      rw [applyStrPatch_of_ok hfirst hrun]
      refine iff_of_true ?_ ⟨_, rfl⟩
      split_ifs
      · exact Or.inr ⟨_, rfl⟩
      · exact Or.inl ⟨_, rfl⟩

/-- The decimal digits of ASCII. -/
def asciiEnv : Env where
  decimal c := if c.isDigit then some (c.toNat - 48) else none
  showPatch _ := []

/-- **A line number behind the last line** is looked for. -/
theorem endsProperly_fails : ¬ EndsProperly (applyStrPatch asciiEnv "a\nb".toList
    [⟨"43\tzzz".toList, "43\tyyy".toList⟩]) := by
  have h : applyStrPatch asciiEnv "a\nb".toList
      [⟨"43\tzzz".toList, "43\tyyy".toList⟩] = .error .indexError := by
    decide +kernel
  rw [h]
  rintro (⟨text, h⟩ | ⟨text, h⟩)
  · cases h
  · cases h

end OpenViking.Memory.StrPatch
