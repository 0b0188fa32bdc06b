import OpenViking.Common.TopK
import OpenViking.VectorDB.RangedCenter
import Mathlib.Algebra.Order.Group.Abs

/-!
# Rows nearest to a centre

Results:

* `RangedMap.Inv.centerCursors_spec`: where the two cursors start;
* `RangedMap.getTopkResultCenter1d_iff`: when the answer has the nearest rows.
-/

namespace OpenViking.VectorDB

variable {R : Type} [LinearOrder R]

namespace RangedMap

/-! ## Start -/

namespace Inv

variable {m : RangedMap R}

theorem full (h : m.Inv) : ∀ s ∈ m.slots, s.vec ≠ [] := fun s hs => (h.slot_ok s hs).ne_nil

variable {s last : SlotMeta R}

theorem getLast?_vec (h : m.Inv) (hs : s ∈ m.slots) : ∃ e, s.vec.getLast? = some e ∧ e.1 = s.right := by
  obtain ⟨e, he, hright⟩ := Option.map_eq_some_iff.1 (h.slot_ok s hs).last
  exact ⟨e, he, hright⟩

/-- At a slot that reaches over a bound, with those before it below, the search inside of the slot
ends at the first entry that is not below. -/
theorem rightOf_of_cuts (h : m.Inv) {k : ℕ} {incl : Bool} {bound : R}
    (hcuts : m.Cuts k incl bound) (hs : m.slots[k]? = some s) (hreach : below incl bound s.right = false) :
    m.RightOf ⟨k, (s.vec.takeWhile fun e => below incl bound e.1).length⟩
      (m.pairs.filter fun e => !below incl bound e.1) := by
  have hmem := List.mem_of_getElem? hs
  have hsorted : m.pairs.Pairwise fun a b => below incl bound b.1 = true → below incl bound a.1 = true :=
    h.sorted.imp fun {a b} hab hb => below_of_le (v := a.1) hab hb
  obtain ⟨htake, hdrop⟩ := takeWhile_eq_filter (p := fun e : R × ℕ => below incl bound e.1) hsorted
  obtain ⟨e, he, hright⟩ := h.getLast?_vec hmem
  have hlt : (s.vec.takeWhile fun e => below incl bound e.1).length < s.vec.length := by
    have hsub := (List.takeWhile_sublist (l := s.vec) fun e => below incl bound e.1).length_le
    rcases hsub.lt_or_eq with hlt | heq
    · exact hlt
    · have hall := (List.takeWhile_prefix (l := s.vec) fun e => below incl bound e.1).eq_of_length heq
      have hbelow := List.takeWhile_eq_self_iff.1 hall e (List.mem_of_getLast? he)
      rw [hright, hreach] at hbelow
      cases hbelow
  refine ⟨_, At.inside hs hlt, by omega, ?_⟩
  have hlen : (((m.slots.take k).flatMap SlotMeta.vec).length +
      (s.vec.takeWhile fun e => below incl bound e.1).length : ℤ).toNat =
        (m.pairs.takeWhile fun e => below incl bound e.1).length := by
    have hat : m.slotAt k = [s] := by
      unfold slotAt
      rw [if_neg (by omega), Int.toNat_natCast, hs]
      rfl
    rw [htake, (h.filter_cut hcuts).1, hat, Int.toNat_natCast, List.length_append, List.flatMap_cons,
      List.flatMap_nil, List.append_nil, (SlotMeta.takeWhile_below (h.sorted_vec hmem) _ _).1]
    omega
  rw [hlen, (SlotMeta.take_length_takeWhile _ _).2, hdrop]

theorem getLast?_pairs (h : m.Inv) (hne : m.slots ≠ []) :
    ∃ s e, m.slots.getLast? = some s ∧ s.vec.getLast? = some e ∧ m.pairs.getLast? = some e ∧
      e.1 = s.right := by
  obtain ⟨s, hlast⟩ := Option.isSome_iff_exists.1 (List.getLast?_isSome.2 hne)
  obtain ⟨init, hinit⟩ := List.getLast?_eq_some_iff.1 hlast
  have hmem : s ∈ m.slots := List.mem_of_getLast? hlast
  obtain ⟨e, he, hright⟩ := h.getLast?_vec hmem
  refine ⟨s, e, hlast, he, ?_, hright⟩
  unfold pairs
  rw [hinit, List.flatMap_append, List.flatMap_singleton, List.getLast?_append, he]
  rfl

/-- The first slot of those that reach a value from below. -/
theorem findIdx_cuts (h : m.Inv) {center1d : R} (hreach : ∃ s ∈ m.slots, center1d ≤ s.right) :
    ∃ (k : ℕ) (s : SlotMeta R), (m.slots.findIdx fun s => s.vec.getLast?.any (center1d ≤ ·.1)) = k ∧
      m.slots[k]? = some s ∧ m.Cuts k false center1d ∧ below false center1d s.right = false := by
  have hany : ∀ s ∈ m.slots,
      (s.vec.getLast?.any (center1d ≤ ·.1)) = !below false center1d s.right := by
    intro s hs
    obtain ⟨e, he, hright⟩ := h.getLast?_vec hs
    rw [he, Option.any_some, hright]
    simp only [below, ← not_lt, decide_not]
    rfl
  set k := m.slots.findIdx fun s => s.vec.getLast?.any (center1d ≤ ·.1) with hk
  have hklt : k < m.slots.length := by
    refine List.findIdx_lt_length_of_exists ?_
    obtain ⟨s, hs, hle⟩ := hreach
    exact ⟨s, hs, by rw [hany s hs]; simpa [below] using hle⟩
  have hget : m.slots[k]? = some m.slots[k] := List.getElem?_eq_getElem hklt
  have hat : below false center1d m.slots[k].right = false := by
    have hfound := @List.findIdx_getElem _ _ m.slots hklt
    rw [hany _ (List.getElem_mem hklt)] at hfound
    simpa using hfound
  refine ⟨k, m.slots[k], rfl, hget, ⟨by omega, fun j s hs hj => ?_, fun j s hs hj => ?_⟩, hat⟩
  · have hjk : j < k := by omega
    have hnot := List.not_of_lt_findIdx hjk
    obtain ⟨hjlt, rfl⟩ := List.getElem?_eq_some_iff.1 hs
    rw [hany _ (List.getElem_mem hjlt)] at hnot
    simpa using hnot
  · by_contra hbelow
    rw [Bool.not_eq_false] at hbelow
    rw [below_of_le (h.left_le_of_lt (by omega) hget hs) hbelow] at hat
    cases hat

/-- The slot after the last of those that end at or below a value. -/
theorem reverse_findIdx_cuts (h : m.Inv) {center1d : R} (hlast : m.slots.getLast? = some last) :
    (last.right ≤ center1d → m.slots.length - (m.slots.reverse.findIdx fun s =>
      s.vec.getLast?.any (·.1 ≤ center1d)) = m.slots.length) ∧
    (center1d < last.right → ∃ (k : ℕ) (s : SlotMeta R),
      m.slots.length - (m.slots.reverse.findIdx fun s => s.vec.getLast?.any (·.1 ≤ center1d)) = k ∧
        m.slots[k]? = some s ∧ m.Cuts k true center1d ∧ below true center1d s.right = false) := by
  have hany : ∀ s ∈ m.slots,
      (s.vec.getLast?.any (·.1 ≤ center1d)) = below true center1d s.right := by
    intro s hs
    obtain ⟨e, he, hright⟩ := h.getLast?_vec hs
    rw [he, Option.any_some, hright]
    rfl
  obtain ⟨init, hinit⟩ := List.getLast?_eq_some_iff.1 hlast
  have hmem : last ∈ m.slots := List.mem_of_getLast? hlast
  have hlastAny := hany last hmem
  set i := m.slots.reverse.findIdx fun s => s.vec.getLast?.any (·.1 ≤ center1d) with hi
  have hzero : below true center1d last.right = true ↔ i = 0 := by
    rw [hi, hinit, List.reverse_append, List.reverse_singleton, List.singleton_append,
      List.findIdx_cons, hlastAny]
    cases below true center1d last.right <;> simp
  have hn : 0 < m.slots.length := List.length_pos_of_mem hmem
  refine ⟨fun hle => ?_, fun hlt => ?_⟩
  · have := hzero.1 (by simpa [below] using hle)
    omega
  · have hpos : i ≠ 0 := fun hi0 => by
      have := hzero.2 hi0
      simp only [below, if_true, decide_eq_true_eq] at this
      exact absurd this (not_le.2 hlt)
    have hile : i ≤ m.slots.length := by
      have := @List.findIdx_le_length _
        (fun s : SlotMeta R => s.vec.getLast?.any (·.1 ≤ center1d)) m.slots.reverse
      rwa [List.length_reverse] at this
    have hklt : m.slots.length - i < m.slots.length := by omega
    have hget : m.slots[m.slots.length - i]? = some m.slots[m.slots.length - i] :=
      List.getElem?_eq_getElem hklt
    have hat : below true center1d m.slots[m.slots.length - i].right = false := by
      have hnot := List.not_of_lt_findIdx (show i - 1 < i by omega)
      rw [List.getElem_reverse, hany _ (List.getElem_mem _)] at hnot
      simp only [show m.slots.length - 1 - (i - 1) = m.slots.length - i by omega] at hnot
      simpa using hnot
    refine ⟨m.slots.length - i, _, rfl, hget, ⟨by omega, fun j s hs hj => ?_, fun j s hs hj => ?_⟩, hat⟩
    · -- the slot the search stopped at is below, and so are those before it
      have hilt : i < m.slots.reverse.length := by rw [List.length_reverse]; omega
      have hfound := @List.findIdx_getElem _ _ m.slots.reverse hilt
      rw [List.getElem_reverse, hany _ (List.getElem_mem _)] at hfound
      have hstop : m.slots[m.slots.length - 1 - i]? = some m.slots[m.slots.length - 1 - i] :=
        List.getElem?_eq_getElem (by omega)
      rcases (show j = m.slots.length - 1 - i ∨ j < m.slots.length - 1 - i by omega) with rfl | hji
      · rw [hstop] at hs
        obtain rfl := Option.some.inj hs
        exact hfound
      · have hle := h.left_le_of_lt hji hs hstop
        exact below_of_le (hle.trans (h.left_le_right (List.mem_of_getElem? hstop))) hfound
    · by_contra hbelow
      rw [Bool.not_eq_false] at hbelow
      rw [below_of_le (h.left_le_of_lt (by omega) hget hs) hbelow] at hat
      cases hat

theorem le_last (h : m.Inv) {e : R × ℕ} {right : R} (hpairs : m.pairs.getLast? = some e)
    (hright : e.1 = right) : ∀ f ∈ m.pairs, f.1 ≤ right := by
  intro f hf
  obtain ⟨init, hinit⟩ := List.getLast?_eq_some_iff.1 hpairs
  have hsorted := h.sorted
  rw [hinit] at hf hsorted
  rcases List.mem_append.1 hf with hf | hf
  · exact hright ▸ (List.pairwise_append.1 hsorted).2.2 f hf e (by simp)
  · rw [List.mem_singleton.1 hf, hright]

theorem exists_first (h : m.Inv) (hne : m.slots ≠ []) :
    ∃ e, m.entryAt ⟨0, 0⟩ = some e ∧ m.RightOf ⟨0, 0⟩ m.pairs ∧ ∀ f ∈ m.pairs, e.1 ≤ f.1 := by
  have hlen0 : 0 < m.slots.length := List.length_pos_iff.2 hne
  have hs : m.slots[0]? = some m.slots[0] := List.getElem?_eq_getElem hlen0
  have hpos := List.length_pos_iff.2 (h.full _ (List.mem_of_getElem? hs))
  have hat : m.At ⟨(0 : ℕ), 0⟩ 0 := At.inside_of hs le_rfl (by omega) (by simp)
  cases hpairs : m.pairs with
  | nil =>
    have hlen := congrArg List.length (pairs_eq hs)
    rw [hpairs] at hlen
    simp only [List.length_append, List.length_nil] at hlen
    omega
  | cons e rest =>
    have hsorted := h.sorted
    rw [hpairs] at hsorted
    refine ⟨e, ?_, ⟨0, hat, le_rfl, by rw [hpairs]; rfl⟩, fun f hf => ?_⟩
    · have hentry := hat.entryAt le_rfl (by rw [hpairs, List.length_cons]; omega)
      rw [hpairs] at hentry
      exact hentry
    · rcases List.mem_cons.1 hf with rfl | hf
      · exact le_rfl
      · exact (List.pairwise_cons.1 hsorted).1 f hf

/-- The start: for the greatest value the search goes out of bounds; for any other centre it ends at
the first entries that are not below, and above, of it. -/
theorem centerCursors_spec (h : m.Inv) (hlast : m.slots.getLast? = some last) (center1d : R) :
    (center1d = last.right → m.centerCursors center1d = none) ∧
    (center1d ≠ last.right → ∃ l r, m.centerCursors center1d = some (l, r) ∧
      m.RightOf r (m.pairs.filter fun e => !below true center1d e.1) ∧
      (if l.slot = -1 then m.LeftOf l [] ∧ m.pairs.filter (fun e => below true center1d e.1) = []
        else m.RightOf l (m.pairs.filter fun e => !below false center1d e.1))) := by
  have hne : m.slots ≠ [] := by
    rintro hnil
    rw [hnil] at hlast
    cases hlast
  have hmem : last ∈ m.slots := List.mem_of_getLast? hlast
  obtain ⟨s, lastEntry, hlast', hvec, hpairs, hright⟩ := h.getLast?_pairs hne
  rw [hlast] at hlast'
  obtain rfl := Option.some.inj hlast'
  obtain ⟨first, hentry, hzero, hfirst⟩ := h.exists_first hne
  have hlastMem : lastEntry ∈ m.pairs := List.mem_of_getLast? hpairs
  have hle := h.le_last hpairs hright
  have hstart : m.centerCursors center1d =
      if center1d < first.1 then some (⟨-1, 0⟩, ⟨0, 0⟩)
      else if last.right < center1d then some (⟨m.slots.length, 0⟩, ⟨m.slots.length, 0⟩)
      else
        (m.slotGet (m.slots.findIdx fun s => s.vec.getLast?.any (center1d ≤ ·.1) : ℕ)).bind fun l =>
        (m.slotGet (m.slots.length -
          m.slots.reverse.findIdx fun s => s.vec.getLast?.any (·.1 ≤ center1d) : ℕ)).map fun r =>
        (⟨(m.slots.findIdx fun s => s.vec.getLast?.any (center1d ≤ ·.1) : ℕ), lowerBound l.vec center1d⟩,
          ⟨(m.slots.length -
            m.slots.reverse.findIdx fun s => s.vec.getLast?.any (·.1 ≤ center1d) : ℕ),
            upperBound r.vec center1d⟩) := by
    unfold centerCursors
    rw [hentry, Option.bind_some, hlast, Option.bind_some, hvec, Option.bind_some, hright]
  refine ⟨fun heq => ?_, fun hneq => ?_⟩
  · obtain ⟨k, s, hk, hs, -⟩ := h.findIdx_cuts ⟨last, hmem, heq.le⟩
    have hfirstLe := hfirst lastEntry hlastMem
    rw [hright, ← heq] at hfirstLe
    rw [hstart, if_neg (not_lt.2 hfirstLe), if_neg heq.not_gt, hk, slotGet_natCast, hs,
      Option.bind_some, (h.reverse_findIdx_cuts hlast).1 heq.ge, slotGet_natCast,
      List.getElem?_eq_none le_rfl]
    rfl
  · rw [hstart]
    split_ifs with hbefore hafter
    · refine ⟨_, _, rfl, ?_, ?_⟩
      · rw [List.filter_eq_self.2 fun e he => ?_]
        · exact hzero
        · simpa [below] using hbefore.trans_le (hfirst e he)
      · rw [if_pos rfl]
        have hpos := List.length_pos_of_mem hlastMem
        refine ⟨⟨-1, At.front 0, by omega, by simp⟩, List.filter_eq_nil_iff.2 fun e he => ?_⟩
        simpa [below] using hbefore.trans_le (hfirst e he)
    · have hnil : m.RightOf ⟨m.slots.length, 0⟩ [] :=
        ⟨_, At.back, by omega, by rw [Int.toNat_natCast, List.drop_length]⟩
      refine ⟨_, _, rfl, ?_, ?_⟩
      · rw [List.filter_eq_nil_iff.2 fun e he => ?_]
        · exact hnil
        · simpa [below] using (hle e he).trans hafter.le
      · rw [if_neg (by show ¬ (m.slots.length : ℤ) = -1; omega), List.filter_eq_nil_iff.2 fun e he => ?_]
        · exact hnil
        · simpa [below] using (hle e he).trans_lt hafter
    · have hlt : center1d < last.right := lt_of_le_of_ne (not_lt.1 hafter) hneq
      obtain ⟨k, s, hk, hs, hcuts, hreach⟩ := h.findIdx_cuts ⟨last, hmem, hlt.le⟩
      obtain ⟨k', s', hk', hs', hcuts', hreach'⟩ := (h.reverse_findIdx_cuts hlast).2 hlt
      rw [hk, hk', slotGet_natCast, hs, Option.bind_some, slotGet_natCast, hs', Option.map_some]
      refine ⟨_, _, rfl, h.rightOf_of_cuts hcuts' hs' hreach', ?_⟩
      rw [if_neg (by show ¬ (k : ℤ) = -1; omega)]
      exact h.rightOf_of_cuts hcuts hs hreach

end Inv

/-! ## Answer -/

/-- What the order of the answer takes from `std::abs` of a difference in `double`: away from the
centre, on one side, it does not fall. -/
structure IsDistance {D : Type} [LinearOrder D] (distance : R → R → D) : Prop where
  right : ∀ c v w, c ≤ v → v ≤ w → distance c v ≤ distance c w
  left : ∀ c v w, w ≤ v → v ≤ c → distance c v ≤ distance c w

/-- Of two entries the first is no farther from the centre. -/
def Nearer {D : Type} [LinearOrder D] (distance : R → R → D) (center1d : R) (e f : R × ℕ) : Prop :=
  distance center1d e.1 ≤ distance center1d f.1

/-- The greatest value of a map. -/
def GreatestValue (m : RangedMap R) (v : R) : Prop :=
  (∃ o, m.valueAt o = some v) ∧ ∀ o w, m.valueAt o = some w → w ≤ v

/-- The offsets that have a value and pass a filter, with their values. -/
def passing (m : RangedMap R) (filter : Option (ℕ → Bool)) : List (R × ℕ) :=
  (List.range m.size).filterMap fun o =>
    if passes filter o then (m.valueAt o).map fun v => (v, o) else none

section Answer

variable {D : Type} [LinearOrder D] {distance : R → R → D} {m : RangedMap R}

omit [LinearOrder R] in
theorem perm_outwards (center1d : R) (front back : List (R × ℕ)) :
    (outwards distance center1d front back).Perm (front ++ back) :=
  List.merge_perm_append _

omit [LinearOrder R] in
theorem pairwise_outwards {center1d : R} {front back : List (R × ℕ)}
    (hfront : front.Pairwise (Nearer distance center1d)) (hback : back.Pairwise (Nearer distance center1d)) :
    (outwards distance center1d front back).Pairwise (Nearer distance center1d) := by
  have hmerge := @List.pairwise_merge _ (fun a b : R × ℕ =>
      decide (distance center1d a.1 ≤ distance center1d b.1))
    (fun a b c hab hbc => by
      simp only [decide_eq_true_eq] at hab hbc ⊢
      exact hab.trans hbc)
    (fun a b => by simpa using le_total _ _) front back
    (hfront.imp fun hab => by simpa [Nearer] using hab)
    (hback.imp fun hab => by simpa [Nearer] using hab)
  exact hmerge.imp fun hab => by simpa [Nearer] using hab

omit [LinearOrder R] in
theorem length_pairs_eq (m : RangedMap R) : m.pairs.length = (m.slots.map fun s => s.vec.length).sum := by
  unfold pairs
  rw [List.length_flatMap]

namespace Inv

/-- For a centre other than the greatest value the answer has the entries nearest to it. -/
theorem getTopkResultCenter1d_spec (h : m.Inv) (hd : IsDistance distance) {last : SlotMeta R}
    (hlast : m.slots.getLast? = some last) {center1d : R} (hneq : center1d ≠ last.right) (topk : ℕ)
    (filter : Option (ℕ → Bool)) :
    ∃ out, m.getTopkResultCenter1d distance topk center1d filter = some out ∧
      IsTopK (Nearer distance center1d) topk (m.pairs.filter fun e => passes filter e.2) out := by
  have hne : m.slots ≠ [] := by
    rintro hnil
    rw [hnil] at hlast
    cases hlast
  set pass : R × ℕ → Bool := fun e => passes filter e.2 with hpassdef
  set lows := m.pairs.filter fun e => below false center1d e.1 with hlows
  set rest := m.pairs.filter fun e => !below false center1d e.1 with hrest
  set mids := rest.filter fun e => below true center1d e.1 with hmids
  set ups := m.pairs.filter fun e => !below true center1d e.1 with hups
  have hmono : ∀ (incl : Bool) {l : List (R × ℕ)}, (l.Pairwise fun p q => p.1 ≤ q.1) →
      l.filter (fun e => below incl center1d e.1) ++ l.filter (fun e => !below incl center1d e.1) = l := by
    intro incl l hl
    obtain ⟨htake, hdrop⟩ := takeWhile_eq_filter (p := fun e : R × ℕ => below incl center1d e.1)
      (hl.imp fun {a b} hab hb => below_of_le (v := a.1) hab hb)
    rw [← htake, ← hdrop, List.takeWhile_append_dropWhile]
  have hsplit : m.pairs = lows ++ rest := (hmono false h.sorted).symm
  have hsortedRest : rest.Pairwise fun p q => p.1 ≤ q.1 := h.sorted.sublist List.filter_sublist
  have hrestSplit : rest = mids ++ ups := by
    have hupsRest : rest.filter (fun e => !below true center1d e.1) = ups := by
      rw [hrest, hups, List.filter_filter]
      refine List.filter_congr fun e _ => ?_
      simp only [below, if_true, Bool.false_eq_true, if_false]
      rcases lt_trichotomy e.1 center1d with hlt | heq | hgt
      · simp [hlt, hlt.le]
      · simp [heq]
      · simp [hgt.not_ge, hgt.not_gt]
    rw [← hupsRest]
    exact (hmono true hsortedRest).symm
  have hfinal : ∀ l, m.LeftOf l lows.reverse → ∀ r, m.RightOf r ups →
      m.outwardsLoop distance center1d filter topk ((m.slots.map fun s => s.vec.length).sum + 1) l r
        ((mids.filter pass).take topk) =
      some ((mids.filter pass ++ outwards distance center1d (lows.reverse.filter pass)
        (ups.filter pass)).take topk) := by
    intro l hl r hr
    have hlen := congrArg List.length hsplit
    rw [hrestSplit, List.length_append, List.length_append, length_pairs_eq] at hlen
    rw [outwardsLoop_spec h.full hne (by rw [List.length_reverse]; omega) hl hr, List.length_take,
      List.take_append, show topk - min topk (mids.filter pass).length =
        topk - (mids.filter pass).length by omega]
  have hpairwise : (mids.filter pass ++ outwards distance center1d (lows.reverse.filter pass)
      (ups.filter pass)).Pairwise (Nearer distance center1d) := by
    have hmidsEq : ∀ e ∈ mids.filter pass, e.1 = center1d := by
      intro e he
      have hmid := List.mem_of_mem_filter he
      rw [hmids, hrest, List.mem_filter, List.mem_filter] at hmid
      obtain ⟨⟨-, hge⟩, hle⟩ := hmid
      simp only [below, Bool.false_eq_true, if_false, if_true, Bool.not_eq_true',
        decide_eq_false_iff_not, decide_eq_true_eq, not_lt] at hge hle
      exact le_antisymm hle hge
    have hnearest : ∀ e ∈ mids.filter pass, ∀ f : R × ℕ, Nearer distance center1d e f := by
      intro e he f
      unfold Nearer
      rw [hmidsEq e he]
      rcases le_total center1d f.1 with hle | hle
      · exact hd.right _ _ _ le_rfl hle
      · exact hd.left _ _ _ hle le_rfl
    refine List.pairwise_append.2 ⟨?_, pairwise_outwards ?_ ?_, fun e he f _ => hnearest e he f⟩
    · exact List.pairwise_of_forall_mem_list fun e he f _ => hnearest e he f
    · refine List.Pairwise.filter _ (List.pairwise_reverse.2 ?_)
      refine (h.sorted.sublist List.filter_sublist).imp_of_mem fun {e f} he hf hef => ?_
      have hlow := (List.mem_filter.1 hf).2
      simp only [below, Bool.false_eq_true, if_false, decide_eq_true_eq] at hlow
      exact hd.left _ _ _ hef hlow.le
    · refine List.Pairwise.filter _ ?_
      refine (h.sorted.sublist List.filter_sublist).imp_of_mem fun {e f} he hf hef => ?_
      have hup := (List.mem_filter.1 he).2
      simp only [below, if_true, Bool.not_eq_true', decide_eq_false_iff_not, not_le] at hup
      exact hd.right _ _ _ hup.le hef
  have hperm : (mids.filter pass ++ outwards distance center1d (lows.reverse.filter pass)
      (ups.filter pass)).Perm (m.pairs.filter pass) := by
    rw [hsplit, hrestSplit, List.filter_append, List.filter_append]
    refine (List.Perm.append_left _ ((perm_outwards _ _ _).trans
      (List.Perm.append_right _ ((List.reverse_perm _).filter _)))).trans ?_
    rw [← List.append_assoc, ← List.append_assoc]
    exact List.Perm.append_right _ List.perm_append_comm
  refine ⟨_, ?_, isTopK_take hpairwise hperm topk⟩
  obtain ⟨l, r, hstart, hr, hl⟩ := (h.centerCursors_spec hlast center1d).2 hneq
  unfold getTopkResultCenter1d
  rw [if_neg hne, hstart, Option.bind_some]
  by_cases hslot : l.slot = -1
  · rw [if_pos hslot] at hl
    have hnone : ∀ e ∈ m.pairs, below true center1d e.1 = false := by
      intro e he
      have := List.filter_eq_nil_iff.1 hl.2 e he
      simpa using this
    have hmidsNil : mids = [] := by
      refine List.filter_eq_nil_iff.2 fun e he => ?_
      rw [hnone e (List.mem_of_mem_filter he)]
      exact Bool.false_ne_true
    have hlowsNil : lows = [] := by
      refine List.filter_eq_nil_iff.2 fun e he hlow => ?_
      have hle := hnone e he
      simp only [below, if_true, decide_eq_false_iff_not, not_le] at hle
      simp only [below, Bool.false_eq_true, if_false, decide_eq_true_eq] at hlow
      exact absurd hlow hle.not_gt
    rw [if_neg (not_not.2 hslot)]
    have hout := hfinal l (by rw [hlowsNil]; exact hl.1) r hr
    rw [hmidsNil, List.filter_nil, List.take_nil] at hout
    rw [hmidsNil]
    exact hout
  · rw [if_neg hslot] at hl
    rw [if_pos hslot]
    obtain ⟨l', hstep, hl'⟩ := hl.stepLeft h.full hne hsplit
    rw [betweenLoop_spec h.full hr ?_ (hrestSplit ▸ (show m.RightOf l rest from hl)) (Nat.zero_le _), Option.bind_some, hstep,
      Option.bind_some, List.nil_append, List.length_nil, Nat.sub_zero]
    · exact hfinal l' hl' r hr
    · have hlen := congrArg List.length hsplit
      rw [hrestSplit, List.length_append, List.length_append, length_pairs_eq] at hlen
      omega

theorem greatestValue_iff (h : m.Inv) {last : SlotMeta R} (hlast : m.slots.getLast? = some last)
    {v : R} : m.GreatestValue v ↔ v = last.right := by
  have hne : m.slots ≠ [] := by
    rintro hnil
    rw [hnil] at hlast
    cases hlast
  obtain ⟨s, e, hlast', -, hpairs, hright⟩ := h.getLast?_pairs hne
  rw [hlast] at hlast'
  obtain rfl := Option.some.inj hlast'
  have hle : ∀ f ∈ m.pairs, f.1 ≤ last.right := h.le_last hpairs hright
  have hmem := List.mem_of_getLast? hpairs
  constructor
  · rintro ⟨⟨o, ho⟩, hmax⟩
    refine le_antisymm (hle (v, o) (h.agree.2 ho)) ?_
    rw [← hright]
    exact hmax e.2 e.1 (h.agree.1 hmem)
  · rintro rfl
    exact ⟨⟨e.2, hright ▸ h.agree.1 hmem⟩, fun o w hw => hle (w, o) (h.agree.2 hw)⟩

theorem perm_passing (h : m.Inv) (filter : Option (ℕ → Bool)) :
    (m.pairs.filter fun e => passes filter e.2).Perm (m.passing filter) := by
  refine (List.perm_ext_iff_of_nodup ((List.Nodup.of_map _ h.nodup).filter _) ?_).2 ?_
  · refine List.nodup_range.filterMap fun o o' e he he' => ?_
    have hoffset : ∀ {o : ℕ}, e ∈ (if passes filter o then (m.valueAt o).map fun v => (v, o) else none) →
        e.2 = o := by
      intro o ho
      split_ifs at ho
      · obtain ⟨v, -, rfl⟩ := Option.map_eq_some_iff.1 ho
        rfl
      · cases ho
    exact (hoffset he).symm.trans (hoffset he')
  · rintro ⟨v, o⟩
    unfold passing
    simp only [List.mem_filter, List.mem_filterMap, List.mem_range, h.agree]
    constructor
    · rintro ⟨hv, hpass⟩
      exact ⟨o, m.lt_size hv, by rw [if_pos hpass, hv]; rfl⟩
    · rintro ⟨o', -, ho'⟩
      split_ifs at ho' with hpass
      obtain ⟨w, hw, heq⟩ := Option.map_eq_some_iff.1 ho'
      cases heq
      exact ⟨hw, hpass⟩

end Inv

/-- **A query for the nearest rows** stays in bounds, ends, and answers with the nearest rows, the
nearest first, exactly when its centre is not the greatest value. -/
theorem getTopkResultCenter1d_iff {slotSize : ℕ} (hsize : 1 ≤ slotSize) {ops : List (RangedOp R)}
    (hrun : RangedOp.run slotSize empty ops = some m) (hd : IsDistance distance) (topk : ℕ)
    (center1d : R) (filter : Option (ℕ → Bool)) :
    (∃ out, m.getTopkResultCenter1d distance topk center1d filter = some out ∧
      IsTopK (Nearer distance center1d) topk (m.passing filter) out) ↔
        ¬ m.GreatestValue center1d := by
  obtain ⟨h, -⟩ := inv_of_run hsize hrun
  have hperm := h.perm_passing filter
  cases hlast : m.slots.getLast? with
  | none =>
    have hnil : m.slots = [] := List.getLast?_eq_none_iff.1 hlast
    have hpairs : m.pairs = [] := by simp [pairs, hnil]
    rw [hpairs, List.filter_nil] at hperm
    refine iff_of_true ⟨[], if_pos hnil, ?_⟩ fun hg => ?_
    · simpa using isTopK_take List.Pairwise.nil hperm topk
    · obtain ⟨o, ho⟩ := hg.1
      have := h.agree.2 ho
      rw [hpairs] at this
      cases this
  | some last =>
    rw [h.greatestValue_iff hlast]
    have hne : m.slots ≠ [] := by
      rintro hnil
      rw [hnil] at hlast
      cases hlast
    constructor
    · rintro ⟨out, hout, -⟩ heq
      unfold getTopkResultCenter1d at hout
      rw [if_neg hne, (h.centerCursors_spec hlast center1d).1 heq] at hout
      cases hout
    · intro hneq
      obtain ⟨out, hout, hbest⟩ := h.getTopkResultCenter1d_spec hd hlast hneq topk filter
      exact ⟨out, hout, hbest.perm_all hperm⟩

end Answer

/-- The distance of an ordered group. -/
theorem isDistance_abs {G : Type} [AddCommGroup G] [LinearOrder G] [IsOrderedAddMonoid G] :
    IsDistance fun c v : G => |c - v| where
  right c v w hcv hvw := by
    show |c - v| ≤ |c - w|
    rw [abs_sub_comm, abs_sub_comm c, abs_of_nonneg (sub_nonneg.2 hcv),
      abs_of_nonneg (sub_nonneg.2 (hcv.trans hvw))]
    exact sub_le_sub_right hvw c
  left c v w hwv hvc := by
    show |c - v| ≤ |c - w|
    rw [abs_of_nonneg (sub_nonneg.2 hvc), abs_of_nonneg (sub_nonneg.2 (hwv.trans hvc))]
    exact sub_le_sub_left hwv c

theorem getTopkResultCenter1d_of_calls :
    ∃ m, RangedOp.run 1 (empty : RangedMap ℤ) [.addOffsetAndScore 0 3, .addOffsetAndScore 1 9,
        .addOffsetAndScore 2 4, .addOffsetAndScore 3 6] = some m ∧
      ∃ out, m.getTopkResultCenter1d (fun c v => |c - v|) 2 5 (some fun o => o = 2) = some out ∧
        IsTopK (Nearer (fun c v => |c - v|) 5) 2 (m.passing (some fun o => o = 2)) out := by
  have hrun : RangedOp.run 1 (empty : RangedMap ℤ) [.addOffsetAndScore 0 3, .addOffsetAndScore 1 9,
      .addOffsetAndScore 2 4, .addOffsetAndScore 3 6] =
      some ⟨[some 3, some 9, some 4, some 6],
        [⟨3, 3, {0}, [(3, 0)]⟩, ⟨4, 4, {2}, [(4, 2)]⟩, ⟨6, 9, {3, 1}, [(6, 3), (9, 1)]⟩]⟩ := by
    decide
  refine ⟨_, hrun, (getTopkResultCenter1d_iff le_rfl hrun isDistance_abs 2 5 _).2 fun hg => ?_⟩
  exact absurd (hg.2 1 9 rfl) (by decide)

/-- The greatest value as centre: the search for the slot above it goes past the last slot. -/
theorem getTopkResultCenter1d_fails :
    ∃ m, RangedOp.run kRangedMapSlotSize (empty : RangedMap ℤ) [.addOffsetAndScore 0 5] = some m ∧
      m.getTopkResultCenter1d (fun c v => |c - v|) 1 5 none = none :=
  ⟨⟨[some 5], [⟨5, 5, {0}, [(5, 0)]⟩]⟩, by decide, by decide⟩

end RangedMap

end OpenViking.VectorDB
