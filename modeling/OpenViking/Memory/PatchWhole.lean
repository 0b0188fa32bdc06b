import OpenViking.Memory.PatchCrashes

/-!
# A patch is applied whole or not at all

When a patch returns a text, all its blocks have been applied to it, and when one of them is not found
the patch raises `PatchParseError`.  The first strategy keeps to this.  The second one raises only when
no block at all is applied, and otherwise passes over the blocks it does not find.

Results:
* `appliedByLines_of_ok`: what the second strategy makes of the lines when it finds all blocks;
* `wholeOrNot_iff`: when a patch is applied whole or not at all.
-/

namespace OpenViking.Memory.StrPatch

/-! ## Replacing a text -/

theorem replaceFirst_spec {old : Str} (new : Str) (hold : old ≠ []) {text : Str} (hin : old <:+: text) :
    ∃ before after, text = before ++ old ++ after ∧
      replaceFirst old new text = before ++ new ++ after := by
  induction text with
  | nil => exact absurd (List.infix_nil.1 hin) hold
  | cons c text ih =>
    unfold replaceFirst
    by_cases hpre : old <+: c :: text
    · rw [if_pos hpre]
      obtain ⟨after, hafter⟩ := hpre
      refine ⟨[], after, by simp [hafter], ?_⟩
      rw [← hafter, List.drop_left]
      simp
    · rw [if_neg hpre]
      rcases List.infix_cons_iff.1 hin with h | h
      · exact absurd h hpre
      · obtain ⟨before, after, htext, hreplace⟩ := ih h
        exact ⟨c :: before, after, by simp [htext], by simp [hreplace]⟩

/-- The blocks have been applied one after another: each that changes anything has replaced its search
text somewhere. -/
def AppliedExactly : List Block → Str → Str → Prop
  | [], text, result => result = text
  | block :: blocks, text, result =>
    let search := unescapeMarkers block.search
    let replace := unescapeMarkers block.replace
    (search = replace ∧ AppliedExactly blocks text result) ∨
      (search ≠ replace ∧ ∃ before after, text = before ++ search ++ after ∧
        AppliedExactly blocks (before ++ replace ++ after) result)

theorem exactPass_applied {blocks : List Block} {text result : Str}
    (h : exactPass blocks text = .ok (some result)) : AppliedExactly blocks text result := by
  induction blocks generalizing text with
  | nil =>
    cases h
    rfl
  | cons block blocks ih =>
    unfold exactPass at h
    dsimp only at h
    split_ifs at h with hsame hempty hin hcount
    · exact Or.inl ⟨hsame, ih h⟩
    · simp at h
    · obtain ⟨before, after, htext, hreplace⟩ :=
        replaceFirst_spec (unescapeMarkers block.replace) hempty hin
      rw [hreplace] at h
      exact Or.inr ⟨hsame, before, after, htext, ih h⟩
    · simp at h

/-! ## Blocks that change nothing -/

section Unchanged

variable {E : Env} {blocks : List Block} {lines : List Str}

theorem steps_of_blocks (h : ∀ block ∈ blocks, fateOf E lines block = .ok .same ∨
    fateOf E lines block = .ok .unmatched) :
    steps E blocks lines = blocks.map fun block => (lines, block) := by
  induction blocks with
  | nil => rfl
  | cons block blocks ih =>
    have hrest := ih fun b hb => h b (List.mem_cons_of_mem _ hb)
    rw [steps, List.map_cons]
    rcases h block (List.mem_cons_self) with hfate | hfate
    · rw [hfate]
      exact congrArg _ hrest
    · rw [hfate]
      exact congrArg _ hrest

theorem steps_of_steps (h : ∀ s ∈ steps E blocks lines, fateOf E s.1 s.2 = .ok .same ∨
    fateOf E s.1 s.2 = .ok .unmatched) :
    ∀ block ∈ blocks, fateOf E lines block = .ok .same ∨ fateOf E lines block = .ok .unmatched := by
  induction blocks with
  | nil => simp
  | cons block blocks ih =>
    have hfate := h (lines, block) (mem_steps_cons.2 (Or.inl rfl))
    have hrest : ∀ s ∈ steps E blocks lines, fateOf E s.1 s.2 = .ok .same ∨
        fateOf E s.1 s.2 = .ok .unmatched := by
      intro s hs
      apply h s
      rw [mem_steps_cons]
      rcases hfate with hfate | hfate
      · exact Or.inr ⟨_, hfate, hs⟩
      · exact Or.inr ⟨_, hfate, hs⟩
    intro b hb
    rcases List.mem_cons.1 hb with rfl | hb
    · exact hfate
    · exact ih hrest b hb

end Unchanged

/-! ## Replacing lines -/

/-- The line with another indentation, and only that if it is blank. -/
def Reindented (line line' : Str) : Prop :=
  ∃ indent : Str, (∀ c ∈ indent, c = '\t' ∨ c = ' ') ∧
    line' = indent ++ if strip line = [] then [] else line.dropWhile fun c => c = ' ' ∨ c = '\t'

theorem forall_mem_indentOf (line : Str) : ∀ c ∈ indentOf line, c = '\t' ∨ c = ' ' := by
  intro c hc
  have hwhile := List.mem_takeWhile_imp hc
  exact of_decide_eq_true hwhile

theorem reindented_indentLine (matchedLines searchLines : List Str) (i : ℕ) (line : Str) :
    Reindented line (indentLine matchedLines searchLines i line) := by
  unfold indentLine
  dsimp only
  split_ifs with hblank hdeeper
  · exact ⟨_, forall_mem_indentOf _, by rw [if_pos hblank, List.append_nil]⟩
  · refine ⟨_, fun c hc => ?_, by rw [if_neg hblank]⟩
    rcases List.mem_append.1 hc with hc | hc
    · exact forall_mem_indentOf _ c hc
    · exact forall_mem_indentOf _ c (List.mem_of_mem_drop hc)
  · exact ⟨_, fun c hc => forall_mem_indentOf _ c (List.mem_of_mem_take hc), by rw [if_neg hblank]⟩

/-- From the line `i` on, as many lines as are searched for have been replaced, with the indentation
of the new ones adapted. -/
def ReplacedAt (i : ℕ) (p : Prepared) (lines lines' : List Str) : Prop :=
  ∃ inserted, List.Forall₂ Reindented (linesOf p.replace) inserted ∧
    lines' = lines.take i ++ inserted ++ lines.drop (i + (linesOf p.search).length)

theorem forall₂_mapIdx {α β : Type*} {R : α → β → Prop} {f : ℕ → α → β} (h : ∀ i a, R a (f i a))
    (l : List α) : List.Forall₂ R l (l.mapIdx f) := by
  induction l generalizing f with
  | nil => exact .nil
  | cons a l ih =>
    rw [List.mapIdx_cons]
    exact .cons (h 0 a) (ih fun i => h (i + 1))

theorem replacedAt_apply (i : ℕ) (p : Prepared) (lines : List Str) :
    ReplacedAt i p lines ((p.cutAt i).apply lines) :=
  ⟨(p.cutAt i).inserted lines, forall₂_mapIdx (reindented_indentLine _ _) _, rfl⟩

/-! ## The patch -/

/-- The blocks have been applied to the lines one after another: each that changes anything has
replaced the lines it is placed at. -/
def AppliedByLines (E : Env) : List Block → List Str → List Str → Prop
  | [], lines, result => result = lines
  | block :: blocks, lines, result =>
    (NothingToChange E block ∧ AppliedByLines E blocks lines result) ∨
      ∃ p i q next, Pursued E block p ∧ Placed E lines p i q ∧ ReplacedAt i q lines next ∧
        AppliedByLines E blocks next result

/-- A patch that returns has applied all its blocks, and a patch with a block that is not found raises
`PatchParseError`. -/
structure WholeOrNot (E : Env) (original : Str) (blocks : List Block) : Prop where
  whole : ∀ text, applyStrPatch E original blocks = .ok text →
    (FirstDecides original blocks ∧ AppliedExactly blocks original text) ∨
      (¬ FirstDecides original blocks ∧
        ∃ lines, AppliedByLines E blocks (splitLines original) lines ∧ text = joinedAs original lines)
  notFound : ¬ FirstDecides original blocks →
    (∃ s ∈ steps E blocks (splitLines original), Unfindable E s.1 s.2) →
      ∃ text, applyStrPatch E original blocks = .error (.parseError text)

section Whole

variable {E : Env} {original : Str} {blocks : List Block} {lines lines' : List Str}
  {fates : List Fate}

section

variable (h : linePass E blocks lines = .ok (fates, lines'))

include h

/-- The fates of a run are those of its steps. -/
theorem mem_fates_iff {fate : Fate} :
    fate ∈ fates ↔ ∃ s ∈ steps E blocks lines, fateOf E s.1 s.2 = .ok fate := by
  have hmem : (Except.ok fate : Except PatchError Fate) ∈ fates.map Except.ok ↔ fate ∈ fates := by
    constructor
    · intro h
      obtain ⟨fate', hmem, heq⟩ := List.mem_map.1 h
      rwa [← Except.ok.inj heq]
    · exact fun h => List.mem_map_of_mem h
  rw [← hmem, ← linePass_ok h, List.mem_map]

/-- Nothing is applied in a run just when no block changes the lines it begins with. -/
theorem any_isApplied_iff :
    fates.any Fate.isApplied = false ↔ ∀ block ∈ blocks, fateOf E lines block = .ok .same ∨
      fateOf E lines block = .ok .unmatched := by
  rw [List.any_eq_false]
  constructor
  · intro hnone
    apply steps_of_steps
    intro s hs
    obtain ⟨fate, hfate⟩ := linePass_isOk_iff.1 ⟨_, h⟩ s hs
    have hnot := hnone fate ((mem_fates_iff h).2 ⟨s, hs, hfate⟩)
    cases fate with
    | same => exact Or.inl hfate
    | unmatched => exact Or.inr hfate
    | applied cut => exact absurd rfl hnot
  · intro hall fate hmem
    obtain ⟨s, hs, hfate⟩ := (mem_fates_iff h).1 hmem
    rw [steps_of_blocks hall] at hs
    obtain ⟨block, hblock, rfl⟩ := List.mem_map.1 hs
    rcases hall block hblock with heq | heq
    · rw [heq] at hfate
      cases hfate
      exact Bool.false_ne_true
    · rw [heq] at hfate
      cases hfate
      exact Bool.false_ne_true

/-- **A run whose blocks are all found** has applied them. -/
theorem appliedByLines_of_ok (hfound : ∀ s ∈ steps E blocks lines, ¬ Unfindable E s.1 s.2) :
    AppliedByLines E blocks lines lines' := by
  induction blocks generalizing lines fates with
  | nil =>
    cases h
    rfl
  | cons block blocks ih =>
    rw [linePass] at h
    cases hfate : fateOf E lines block with
    | error e =>
      rw [hfate] at h
      cases h
    | ok fate =>
      rw [hfate] at h
      dsimp only at h
      cases hrun : linePass E blocks (fate.apply lines) with
      | error e =>
        rw [hrun] at h
        cases h
      | ok r =>
        rw [hrun] at h
        cases h
        have hrest := ih hrun fun s hs => hfound s (mem_steps_cons.2 (Or.inr ⟨fate, hfate, hs⟩))
        cases fate with
        | same => exact Or.inl ⟨fateOf_same_iff.1 hfate, hrest⟩
        | unmatched =>
          exact absurd (fateOf_unmatched_iff.1 hfate) (hfound _ (mem_steps_cons.2 (Or.inl rfl)))
        | applied cut =>
          obtain ⟨p, hp, i, q, hplaced, rfl⟩ := fateOf_applied_iff.1 hfate
          exact Or.inr ⟨p, i, q, _, hp, hplaced, replacedAt_apply i q lines, hrest⟩

end

/-- A run in which no block is applied and one is not found raises `PatchParseError`. -/
theorem applyStrPatch_of_none_found (hfirst : ¬ FirstDecides original blocks)
    (hnone : ∀ block ∈ blocks, NothingToChange E block ∨ Unfindable E (splitLines original) block)
    (hsome : ∃ s ∈ steps E blocks (splitLines original), Unfindable E s.1 s.2) :
    ∃ text, applyStrPatch E original blocks = .error (.parseError text) := by
  have hfates : ∀ block ∈ blocks, fateOf E (splitLines original) block = .ok .same ∨
      fateOf E (splitLines original) block = .ok .unmatched := fun block hblock => by
    rw [fateOf_same_iff, fateOf_unmatched_iff]
    exact hnone block hblock
  have hsteps := steps_of_blocks hfates
  have hok : ∃ r, linePass E blocks (splitLines original) = .ok r := by
    rw [linePass_isOk_iff, hsteps]
    intro s hs
    obtain ⟨block, hblock, rfl⟩ := List.mem_map.1 hs
    rcases hfates block hblock with h | h
    · exact ⟨_, h⟩
    · exact ⟨_, h⟩
  obtain ⟨⟨fates, lines⟩, hrun⟩ := hok
  obtain ⟨s, hs, hunfindable⟩ := hsome
  rw [applyStrPatch_of_ok hfirst hrun, if_pos]
  · exact ⟨_, rfl⟩
  · refine ⟨(any_isApplied_iff hrun).2 hfates, (mem_fates_iff hrun).2 ⟨s, hs, ?_⟩⟩
    exact fateOf_unmatched_iff.2 hunfindable

end Whole

/-- **When a patch is applied whole or not at all**: the first strategy decides, or the second one finds
each block it comes to, or it finds none in the original lines. -/
theorem wholeOrNot_iff {E : Env} {original : Str} {blocks : List Block} :
    WholeOrNot E original blocks ↔ FirstDecides original blocks ∨
      (∀ s ∈ steps E blocks (splitLines original), ¬ Unfindable E s.1 s.2) ∨
      ∀ block ∈ blocks, NothingToChange E block ∨ Unfindable E (splitLines original) block := by
  constructor
  · intro hwhole
    by_cases hfirst : FirstDecides original blocks
    · exact Or.inl hfirst
    · by_cases hsome : ∃ s ∈ steps E blocks (splitLines original), Unfindable E s.1 s.2
      · -- the error is raised after a run without an applied block
        refine Or.inr (Or.inr fun block hblock => ?_)
        obtain ⟨text, htext⟩ := hwhole.notFound hfirst hsome
        cases hrun : linePass E blocks (splitLines original) with
        | error e =>
          rw [applyStrPatch_of_error hfirst hrun] at htext
          obtain ⟨s, -, herror⟩ := linePass_error hrun
          rw [Except.error.inj htext] at herror
          exact absurd herror fateOf_ne_parseError
        | ok r =>
          obtain ⟨fates, lines⟩ := r
          rw [applyStrPatch_of_ok hfirst hrun] at htext
          split_ifs at htext with hnone
          have hsame : fateOf E (splitLines original) block = .ok .same ↔ NothingToChange E block :=
            fateOf_same_iff
          rw [← hsame, ← fateOf_unmatched_iff]
          exact (any_isApplied_iff hrun).1 hnone.1 block hblock
      · refine Or.inr (Or.inl fun s hs hunfindable => hsome ⟨s, hs, hunfindable⟩)
  · intro h
    by_cases hfirst : FirstDecides original blocks
    · refine ⟨fun text htext => Or.inl ⟨hfirst, ?_⟩, fun hnot => absurd hfirst hnot⟩
      rcases applyStrPatch_of_decides (E := E) hfirst with ⟨result, hexact, hok⟩ | ⟨_, herror⟩
      · rw [Except.ok.inj (htext.symm.trans hok)]
        exact exactPass_applied hexact
      · rw [htext] at herror
        cases herror
    · constructor
      · intro text htext
        refine Or.inr ⟨hfirst, ?_⟩
        cases hrun : linePass E blocks (splitLines original) with
        | error e =>
          rw [applyStrPatch_of_error hfirst hrun] at htext
          cases htext
        | ok r =>
          obtain ⟨fates, lines⟩ := r
          have hlines : text = joinedAs original lines := by
            rw [applyStrPatch_of_ok hfirst hrun] at htext
            split_ifs at htext
            exact (Except.ok.inj htext).symm
          refine ⟨lines, appliedByLines_of_ok hrun ?_, hlines⟩
          rcases h.resolve_left hfirst with hfound | hnone
          · exact hfound
          · intro s hs hunfindable
            obtain ⟨text', herror⟩ := applyStrPatch_of_none_found hfirst hnone ⟨s, hs, hunfindable⟩
            rw [htext] at herror
            cases herror
      · intro _ hsome
        rcases h.resolve_left hfirst with hfound | hnone
        · obtain ⟨s, hs, hunfindable⟩ := hsome
          exact absurd hunfindable (hfound s hs)
        · exact applyStrPatch_of_none_found hfirst hnone hsome

/-- **A block that is not found is passed over** when another is applied. -/
theorem wholeOrNot_fails : ¬ WholeOrNot asciiEnv "alpha\nbeta".toList
    [⟨"alphx".toList, "ALPHA".toList⟩, ⟨"qqqqqq".toList, "r".toList⟩] := by
  intro h
  have hfirst : ¬ FirstDecides "alpha\nbeta".toList
      [⟨"alphx".toList, "ALPHA".toList⟩, ⟨"qqqqqq".toList, "r".toList⟩] := by
    rw [firstDecides_iff, not_not]
    decide +kernel
  have hok : applyStrPatch asciiEnv "alpha\nbeta".toList
      [⟨"alphx".toList, "ALPHA".toList⟩, ⟨"qqqqqq".toList, "r".toList⟩] =
        .ok "ALPHA\nbeta".toList := by
    decide +kernel
  have happlied : fateOf asciiEnv (splitLines "alpha\nbeta".toList)
      ⟨"alphx".toList, "ALPHA".toList⟩ = .ok (.applied ⟨0, ["alphx".toList], ["ALPHA".toList]⟩) := by
    decide +kernel
  have hunmatched : fateOf asciiEnv
      ((Fate.applied ⟨0, ["alphx".toList], ["ALPHA".toList]⟩).apply
        (splitLines "alpha\nbeta".toList)) ⟨"qqqqqq".toList, "r".toList⟩ = .ok .unmatched := by
    decide +kernel
  obtain ⟨text, herror⟩ := h.notFound hfirst ⟨_, mem_steps_cons.2 (Or.inr ⟨_, happlied,
    mem_steps_cons.2 (Or.inl rfl)⟩), fateOf_unmatched_iff.1 hunmatched⟩
  rw [hok] at herror
  cases herror

end OpenViking.Memory.StrPatch
