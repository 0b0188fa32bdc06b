import Mathlib
import OpenViking.VectorDB.FlatCalls

/-!
# Runs of the flat index

What holds of a flat index after any sequence of calls, saved and loaded at any point in between:

* `BruteforceSearch.faithful_iff_rowsFit`: when it stores the table of its calls.
-/

namespace OpenViking.VectorDB

variable {F E : Type}

namespace BruteforceSearch

/-- The logical offset of a live label. -/
def OffsetOf (ix : BruteforceSearch F E) (label offset : ℕ) : Prop :=
  ∃ i, ix.labelMap.get label = some i ∧ (ix.dataBuffer i).offset = offset

/-- A removal of a label. -/
def Act.removes (label : ℕ) : Act F E → Prop
  | .removePoint l => l = label
  | _ => False

/-- Between two states of a run: labels that stay keep their offsets, and no label has the offset
that another one had. -/
def OffsetsKept (before : BruteforceSearch F E) (acts : List (Act F E))
    (after : BruteforceSearch F E) : Prop :=
  (∀ label offset, before.OffsetOf label offset → (∀ a ∈ acts, ¬ a.removes label) →
    after.OffsetOf label offset) ∧
  ∀ label label' offset, before.OffsetOf label offset → after.OffsetOf label' offset →
    label = label'

variable [Add F]

/-- The table that a sequence of calls describes. -/
def tableAfter (cfg : FlatConfig F E) (acts : List (Act F E)) : FlatTable F :=
  acts.foldl (FlatTable.step cfg) FlatTable.empty

/-- The calls are all defined, the index stores the table that they describe, and offsets are kept
between any two of its states. -/
def Faithful (cfg : FlatConfig F E) (maxElementCount : ℕ) (memory : ℕ → FlatRow E)
    (acts : List (Act F E)) : Prop :=
  ∃ ix, runActs (step cfg) (create cfg maxElementCount memory) acts = some ix ∧
    Represents cfg (tableAfter cfg acts) ix ∧
    ∀ before after ix0, acts = before ++ after →
      runActs (step cfg) (create cfg maxElementCount memory) before = some ix0 →
      OffsetsKept ix0 after ix

/-! ## Offsets of the table -/

/-- Of two tables of a run: the later one has an offset of the earlier one only for the label that
had it. -/
def Since (t0 t : FlatTable F) : Prop :=
  t0.next ≤ t.next ∧ ∀ {label p}, t.points label = some p → p.offset < t0.next →
    ∃ p0, t0.points label = some p0 ∧ p0.offset = p.offset

variable {t : FlatTable F}

variable (cfg : FlatConfig F E)

theorem since_foldl (t0 : FlatTable F) (acts : List (Act F E))
    (h : Since t0 t) : Since t0 (acts.foldl (FlatTable.step cfg) t) := by
  induction acts generalizing t with
  | nil => exact h
  | cons a acts ih =>
    refine ih ⟨h.1.trans (FlatTable.next_le_step cfg t a), fun {label p} hp hlt => ?_⟩
    rcases FlatTable.offset_step cfg hp with ⟨q, hq, heq⟩ | ⟨heq, -, -⟩
    · obtain ⟨p0, hp0, hoff⟩ := h.2 hq (by omega)
      exact ⟨p0, hp0, by omega⟩
    · have := h.1
      omega

/-- A label that no call removes keeps its offset. -/
theorem offset_foldl {acts : List (Act F E)} {label : ℕ} {p : PointSpec F} (hp : t.points label = some p)
    (hkeep : ∀ a ∈ acts, ¬ a.removes label) :
    ∃ q, (acts.foldl (FlatTable.step cfg) t).points label = some q ∧ q.offset = p.offset := by
  induction acts generalizing t p with
  | nil => exact ⟨p, hp, rfl⟩
  | cons a acts ih =>
    have hstep : ∃ q, (t.step cfg a).points label = some q ∧ q.offset = p.offset := by
      have ha := hkeep a List.mem_cons_self
      cases a with
      | addPoint vector l sparse =>
        unfold FlatTable.step
        simp only
        split
        · exact ⟨p, hp, rfl⟩
        · by_cases hl : label = l
          · subst hl
            exact ⟨_, Function.update_self _ _ _, by simp [FlatTable.pointAt, hp]⟩
          · exact ⟨p, (Function.update_of_ne hl _ _).trans hp, rfl⟩
      | removePoint l =>
        have hl : label ≠ l := fun heq => ha heq.symm
        exact ⟨p, (Function.update_of_ne hl _ _).trans hp, rfl⟩
      | saveLoad memory => exact ⟨p, hp, rfl⟩
    obtain ⟨q, hq, heq⟩ := hstep
    obtain ⟨r, hr, heq'⟩ := ih hq fun a' ha' => hkeep a' (List.mem_cons_of_mem _ ha')
    exact ⟨r, hr, heq'.trans heq⟩

variable {ix : BruteforceSearch F E}

omit [Add F] in
theorem Represents.offsetOf_iff {cfg : FlatConfig F E} (h : Represents cfg t ix) {label offset : ℕ} :
    ix.OffsetOf label offset ↔ ∃ p, t.points label = some p ∧ p.offset = offset := by
  constructor
  · rintro ⟨i, hi, hoff⟩
    obtain ⟨p, hp, hstores⟩ := h.row hi
    exact ⟨p, hp, hstores.offset.symm.trans hoff⟩
  · rintro ⟨p, hp, hoff⟩
    obtain ⟨i, hi⟩ := h.live hp
    obtain ⟨q, hq, hstores⟩ := h.row hi
    obtain rfl : p = q := Option.some.inj (hp.symm.trans hq)
    exact ⟨i, hi, hstores.offset.trans hoff⟩

/-! ## Runs -/

theorem wf_foldl (acts : List (Act F E)) (h : t.Wf) : (acts.foldl (FlatTable.step cfg) t).Wf := by
  induction acts generalizing t with
  | nil => exact h
  | cons a acts ih => exact ih (h.step cfg a)

/-- A run is defined exactly when its additions find room, and then the index stores the table. -/
theorem Represents.run {cfg : FlatConfig F E} (h : Represents cfg t ix) (hwf : t.Wf) (acts : List (Act F E))
    (hnext : t.next + acts.countP Act.isCall ≤ 2 ^ 32) :
    (ActsMeet (BruteforceSearch.step cfg) (RowsFit cfg) ix acts →
      ∃ ix', runActs (BruteforceSearch.step cfg) ix acts = some ix' ∧
        Represents cfg (acts.foldl (FlatTable.step cfg) t) ix') ∧
    (¬ ActsMeet (BruteforceSearch.step cfg) (RowsFit cfg) ix acts →
      runActs (BruteforceSearch.step cfg) ix acts = none) := by
  induction acts generalizing t ix with
  | nil => exact ⟨fun _ => ⟨ix, rfl, h⟩, fun hnot => absurd trivial hnot⟩
  | cons a acts ih =>
    rw [List.countP_cons] at hnext
    have hcall : t.next + a.isCall.toNat ≤ 2 ^ 32 := by
      cases ha : a.isCall <;> simp [ha] at hnext ⊢ <;> omega
    have hone := FlatTable.next_step_le cfg t a
    obtain ⟨hfits, hfull⟩ := h.step hwf a hcall
    by_cases hfit : RowsFit cfg ix a
    · obtain ⟨ix', hstep, hrep⟩ := hfits hfit
      have hrest : (t.step cfg a).next + acts.countP Act.isCall ≤ 2 ^ 32 := by
        cases ha : a.isCall <;> simp [ha] at hnext hone ⊢ <;> omega
      obtain ⟨hyes, hno⟩ := ih hrep (hwf.step cfg a) hrest
      simp only [ActsMeet, runActs, hstep, Option.bind_some, Option.mem_some_iff, forall_eq',
        List.foldl_cons, hfit, true_and]
      exact ⟨hyes, hno⟩
    · refine ⟨fun hmeet => absurd hmeet.1 hfit, fun _ => ?_⟩
      rw [runActs, hfull hfit, Option.bind_none]

/-- **What a flat index stores.**  After fewer than `2 ^ 32` calls, with saving and loading anywhere
in between: the maps lead to the rows of exactly the live labels, each row has its label, its offset
and the vector last added, offsets stay and are given out once, exactly when every addition of a row
has found fewer than `2 ^ 31`. -/
theorem faithful_iff_rowsFit (cfg : FlatConfig F E) (maxElementCount : ℕ) (memory : ℕ → FlatRow E)
    {acts : List (Act F E)} (hcalls : acts.countP Act.isCall < 2 ^ 32) :
    Faithful cfg maxElementCount memory acts ↔
      ActsMeet (step cfg) (RowsFit cfg) (create cfg maxElementCount memory) acts := by
  have hcreate := represents_create cfg maxElementCount memory
  have hempty : ∀ acts' : List (Act F E), acts'.countP Act.isCall < 2 ^ 32 →
      (FlatTable.empty : FlatTable F).next + acts'.countP Act.isCall ≤ 2 ^ 32 := by
    intro acts' hacts'
    show 0 + acts'.countP Act.isCall ≤ 2 ^ 32
    omega
  constructor
  · rintro ⟨ix, hrun, -⟩
    by_contra hnot
    rw [(hcreate.run FlatTable.wf_empty acts (hempty acts hcalls)).2 hnot] at hrun
    cases hrun
  · intro hmeet
    obtain ⟨ix, hrun, hrep⟩ :=
      (hcreate.run FlatTable.wf_empty acts (hempty acts hcalls)).1 hmeet
    refine ⟨ix, hrun, hrep, ?_⟩
    rintro before after ix0 rfl hrun0
    -- the index before stores the table before
    have hbefore : before.countP Act.isCall < 2 ^ 32 := by
      rw [List.countP_append] at hcalls
      omega
    obtain ⟨hyes0, hno0⟩ := hcreate.run FlatTable.wf_empty before (hempty before hbefore)
    have hmeet0 : ActsMeet (step cfg) (RowsFit cfg) (create cfg maxElementCount memory) before := by
      by_contra hnot
      rw [hno0 hnot] at hrun0
      cases hrun0
    obtain ⟨ix1, hrun1, hrep0⟩ := hyes0 hmeet0
    obtain rfl : ix0 = ix1 := Option.some.inj (hrun0.symm.trans hrun1)
    have hwf0 := wf_foldl cfg before FlatTable.wf_empty
    rw [List.foldl_append] at hrep
    constructor
    · intro label offset hoff hkeep
      obtain ⟨p, hp, rfl⟩ := hrep0.offsetOf_iff.1 hoff
      exact hrep.offsetOf_iff.2 (offset_foldl cfg hp hkeep)
    · intro label label' offset hoff hoff'
      obtain ⟨p, hp, rfl⟩ := hrep0.offsetOf_iff.1 hoff
      obtain ⟨q, hq, heq⟩ := hrep.offsetOf_iff.1 hoff'
      have hsince : Since (before.foldl (FlatTable.step cfg) FlatTable.empty)
          (after.foldl (FlatTable.step cfg) (before.foldl (FlatTable.step cfg) FlatTable.empty)) :=
        since_foldl cfg _ after ⟨le_rfl, fun hp _ => ⟨_, hp, rfl⟩⟩
      have hlt := hwf0.lt hp
      obtain ⟨p0, hp0, hoff0⟩ := hsince.2 hq (by omega)
      exact hwf0.inj hp hp0 (by omega)

/-! ### Past the row numbers -/

/-- Vectors of integers, kept as they are. -/
def integers : FlatConfig ℤ (List ℤ) where
  encode := id
  distFunc := fun q v => (List.zipWith (· * ·) q v).sum
  reverseQueryScore := false
  enableSparse := false
  searchWithSparseLogitAlpha := 0
  hashTerm := fun _ => 0
  sparseDist := fun _ _ => 0

/-- Memory that holds zeros. -/
def zeroMemory : ℕ → FlatRow (List ℤ) := fun _ => ⟨[], 0, 0⟩

/-- Two labels come, one goes, and the index is saved and loaded. -/
def someCalls : List (Act ℤ (List ℤ)) :=
  [.addPoint (some [1, 2]) 7 none, .addPoint (some [3]) 8 none, .removePoint 7, .saveLoad zeroMemory]

theorem faithful_iff_rowsFit_someCalls : Faithful integers 1 zeroMemory someCalls := by
  refine (faithful_iff_rowsFit integers 1 zeroMemory (by decide)).2 ⟨fun _ _ => by decide, fun ix h => ?_⟩
  obtain rfl := Option.some.inj h
  refine ⟨fun _ _ => by decide, fun ix h => ⟨trivial, fun ix h => ⟨trivial, fun _ _ => trivial⟩⟩⟩

/-- The labels `0, …, n - 1` come, without vectors. -/
def manyLabels (n : ℕ) : List (Act ℤ (List ℤ)) :=
  (List.range n).map fun label => .addPoint none label none

theorem runActs_manyLabels {n : ℕ} (hn : n ≤ 2 ^ 31) :
    ∃ ix, runActs (step integers) (create integers 0 zeroMemory) (manyLabels n) = some ix ∧
      ix.currentCount = n ∧ ix.sparseIndex = none ∧
      ∀ label ≥ n, ix.labelMap.get label = none := by
  induction n with
  | zero => exact ⟨create integers 0 zeroMemory, rfl, rfl, rfl, fun _ _ => rfl⟩
  | succ n ih =>
    obtain ⟨ix, hrun, hcount, hsparse, hlabels⟩ := ih (by omega)
    have hfit : ix.currentCount < 2 ^ 31 := by omega
    have hadd : step integers ix (.addPoint none n none) =
        some ((ix.appendRow n).writePoint integers ix.currentCount n none) := by
      unfold step addPoint makeSparsePoint appendSparse
      simp only [hsparse, hlabels n le_rfl, if_pos hfit]
      rfl
    refine ⟨(ix.appendRow n).writePoint integers ix.currentCount n none, ?_, ?_, hsparse,
      fun label hlabel => ?_⟩
    · rw [manyLabels, List.range_succ, List.map_append, runActs_append, ← manyLabels, hrun]
      exact congrArg (fun o => Option.bind o some) hadd
    · exact congrArg (· + 1) hcount
    · have hne : label ≠ n := by omega
      exact (SortedMap.get_put_of_ne _ _ hne).trans (hlabels label (by omega))

/-- The row number of the last label is negative, and its row would be written outside the
buffer. -/
theorem not_faithful_manyLabels :
    (manyLabels (2 ^ 31 + 1)).countP Act.isCall < 2 ^ 32 ∧
      ¬ Faithful integers 0 zeroMemory (manyLabels (2 ^ 31 + 1)) := by
  have hlen : (manyLabels (2 ^ 31 + 1)).length = 2 ^ 31 + 1 := by
    rw [manyLabels, List.length_map, List.length_range]
  constructor
  · have hle : (manyLabels (2 ^ 31 + 1)).countP Act.isCall ≤ (manyLabels (2 ^ 31 + 1)).length :=
      List.countP_le_length
    omega
  · rintro ⟨ix', hrun', -⟩
    obtain ⟨ix, hrun, hcount, hsparse, hlabels⟩ := runActs_manyLabels le_rfl
    have hfull : ¬ ix.currentCount < 2 ^ 31 := by omega
    have hadd : step integers ix (.addPoint none (2 ^ 31) none) = none := by
      unfold step addPoint makeSparsePoint appendSparse
      simp only [hsparse, hlabels _ le_rfl, if_neg hfull]
      rfl
    rw [manyLabels, List.range_succ, List.map_append, runActs_append, ← manyLabels, hrun] at hrun'
    have hnone : (some ix).bind (fun u => runActs (step integers) u
        [.addPoint none (2 ^ 31) none]) = none := by
      rw [Option.bind_some, runActs, hadd, Option.bind_none]
    have hsome := hnone.symm.trans hrun'
    cases hsome

end BruteforceSearch

end OpenViking.VectorDB
