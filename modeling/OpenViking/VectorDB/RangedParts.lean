import OpenViking.VectorDB.RangedMapOrder

/-!
# The parts of a range

A range query cuts the slots at both bounds and puts its answer together from whole slots and from
one partial slot at each cut, counting the entries of each part.

Results:

* `RangedMap.Inv.findLeftSlotIndex_cuts`, `RangedMap.Inv.findRightSlotIndex_cuts`: where the two
  index searches cut the slots;
* `RangedMap.Inv.denotes_rangeParts_in`, `RangedMap.Inv.denotes_rangeParts_out`: the parts taken have
  the entries inside, and outside, of the range.
-/

namespace OpenViking.VectorDB

variable {R : Type} [LinearOrder R]

/-! ## Sides of a bound -/

/-- Left of a bound, which is on the left itself when `include` is set. -/
def below (incl : Bool) (bound v : R) : Bool := if incl then v ≤ bound else v < bound

theorem below_of_le {incl : Bool} {bound v w : R} (hvw : v ≤ w) (hw : below incl bound w = true) :
    below incl bound v = true := by
  cases incl with
  | true => simpa [below] using hvw.trans (by simpa [below] using hw)
  | false => simpa [below] using hvw.trans_lt (by simpa [below] using hw)

/-- Of two bounds one lies left of the other. -/
theorem below_total (i j : Bool) (a b : R) :
    (∀ v, below i a v = true → below j b v = true) ∨ ∀ v, below j b v = true → below i a v = true := by
  by_cases h : ∀ v, below i a v = true → below j b v = true
  · exact .inl h
  · push Not at h
    obtain ⟨w, hw, hnot⟩ := h
    refine .inr fun v hv => ?_
    rcases le_total v w with hvw | hwv
    · exact below_of_le hvw hw
    · exact absurd (below_of_le hwv hv) hnot

/-- The entries of a list, as a part of an answer. -/
def partOf (entries : List (R × ℕ)) : Finset ℕ × ℤ :=
  ((entries.map Prod.snd).toFinset, entries.length)

namespace SlotMeta

variable {s : SlotMeta R}

theorem getRightBorder_eq (s : SlotMeta R) (bound : R) (incl : Bool) :
    s.getRightBorder bound incl = (s.vec.takeWhile fun p => below incl bound p.1).length := by
  cases incl <;> rfl

theorem getLeftBorder_eq (s : SlotMeta R) (bound : R) (incl : Bool) :
    s.getLeftBorder bound incl = (s.vec.takeWhile fun p => below (!incl) bound p.1).length := by
  cases incl <;> rfl

theorem takeWhile_below (hs : s.vec.Pairwise fun p q => p.1 ≤ q.1) (incl : Bool) (bound : R) :
    (s.vec.takeWhile fun p => below incl bound p.1) = s.vec.filter (fun p => below incl bound p.1) ∧
      (s.vec.dropWhile fun p => below incl bound p.1) =
        s.vec.filter fun p => !below incl bound p.1 :=
  takeWhile_eq_filter (hs.imp fun hpq hq => below_of_le hpq hq)

omit [LinearOrder R] in
theorem take_length_takeWhile (vec : List (R × ℕ)) (p : R × ℕ → Bool) :
    vec.take (vec.takeWhile p).length = vec.takeWhile p ∧
      vec.drop (vec.takeWhile p).length = vec.dropWhile p := by
  have hsplit := List.takeWhile_append_dropWhile (p := p) (l := vec)
  refine ⟨(List.prefix_iff_eq_take.1 (List.takeWhile_prefix p)).symm, ?_⟩
  calc vec.drop (vec.takeWhile p).length
      = (vec.takeWhile p ++ vec.dropWhile p).drop (vec.takeWhile p).length := by rw [hsplit]
    _ = vec.dropWhile p := List.drop_left

omit [LinearOrder R] in
theorem all_eq (h : s.Ok) : s.all = partOf s.vec := by
  unfold all partOf
  rw [h.bitmap]

section

variable (hs : s.vec.Pairwise fun p q => p.1 ≤ q.1)

include hs

theorem getLowerThanData_eq (bound : R) (incl : Bool) :
    s.getLowerThanData bound incl = partOf (s.vec.filter fun p => below incl bound p.1) := by
  unfold getLowerThanData offsetsBetween partOf
  rw [getRightBorder_eq, (take_length_takeWhile _ _).1, (takeWhile_below hs _ _).1]
  simp

theorem getGreaterThanData_eq (bound : R) (incl : Bool) :
    s.getGreaterThanData bound incl = partOf (s.vec.filter fun p => !below (!incl) bound p.1) := by
  have hlen := congrArg List.length
    (List.takeWhile_append_dropWhile (p := fun p : R × ℕ => below (!incl) bound p.1) (l := s.vec))
  rw [List.length_append] at hlen
  unfold getGreaterThanData offsetsBetween partOf
  rw [getLeftBorder_eq, List.take_length, (take_length_takeWhile _ _).2, ← (takeWhile_below hs _ _).2]
  refine Prod.ext rfl ?_
  show ((s.vec.length : ℤ) - _) = _
  omega

/-- The offsets of a range in one slot.  Where there are none, the count may be negative. -/
theorem getRangeData_eq (lowerThan greaterThan : R) (includeLe includeGe : Bool) :
    let inside := s.vec.filter fun p =>
      below includeLe lowerThan p.1 && !below (!includeGe) greaterThan p.1
    (s.getRangeData lowerThan includeLe greaterThan includeGe).1 = (inside.map Prod.snd).toFinset ∧
      (inside ≠ [] →
        s.getRangeData lowerThan includeLe greaterThan includeGe = partOf inside) := by
  intro inside
  set low := s.vec.takeWhile fun p => below (!includeGe) greaterThan p.1 with hlow
  set high := s.vec.takeWhile fun p => below includeLe lowerThan p.1 with hhigh
  have hhighFilter : high = _ := (takeWhile_below hs includeLe lowerThan).1
  have hlowFilter : low = _ := (takeWhile_below hs (!includeGe) greaterThan).1
  have hdrop : high.drop low.length = inside := by
    rcases below_total (!includeGe) includeLe greaterThan lowerThan with hsub | hsub
    · have hsorted : high.Pairwise fun p q => p.1 ≤ q.1 := hs.sublist (List.takeWhile_sublist _)
      have hsplit := takeWhile_eq_filter (p := fun p => below (!includeGe) greaterThan p.1)
        (hsorted.imp fun {p q} hpq hq => below_of_le (v := p.1) hpq hq)
      have hlen : low = high.takeWhile fun p => below (!includeGe) greaterThan p.1 := by
        rw [hsplit.1, hlowFilter, hhighFilter, List.filter_filter]
        refine List.filter_congr fun p _ => ?_
        by_cases hp : below (!includeGe) greaterThan p.1 = true
        · rw [hp, hsub p.1 hp]
          rfl
        · rw [Bool.not_eq_true] at hp
          rw [hp]
          rfl
      rw [hlen, (take_length_takeWhile _ _).2, hsplit.2, hhighFilter, List.filter_filter]
      exact List.filter_congr fun p _ => Bool.and_comm _ _
    · have hinside : inside = [] := by
        refine List.filter_eq_nil_iff.2 fun p _ hp => ?_
        simp only [Bool.and_eq_true, Bool.not_eq_true'] at hp
        rw [hsub p.1 hp.1] at hp
        exact absurd hp.2 (by simp)
      have hle : high.length ≤ low.length := by
        rw [hhighFilter, hlowFilter]
        exact (List.monotone_filter_right s.vec fun p => hsub p.1).length_le
      rw [hinside]
      exact List.drop_eq_nil_of_le hle
  have hdata : s.getRangeData lowerThan includeLe greaterThan includeGe =
      ((inside.map Prod.snd).toFinset, (high.length : ℤ) - low.length) := by
    unfold getRangeData offsetsBetween
    rw [getRightBorder_eq, getLeftBorder_eq, (take_length_takeWhile _ _).1, ← hhigh, ← hlow, hdrop]
  refine ⟨by rw [hdata], fun hne => ?_⟩
  rw [hdata]
  have hpos := List.length_pos_iff.2 hne
  have hlen := congrArg List.length hdrop
  rw [List.length_drop] at hlen
  refine Prod.ext rfl ?_
  show (high.length : ℤ) - low.length = inside.length
  omega

end

end SlotMeta

namespace RangedMap

variable {m : RangedMap R}

/-! ## Cuts -/

/-- The slots left of an index lie below a bound, and those right of it do not. -/
structure Cuts (m : RangedMap R) (index : ℤ) (incl : Bool) (bound : R) : Prop where
  ge : -1 ≤ index
  left : ∀ (j : ℕ) s, m.slots[j]? = some s → (j : ℤ) < index → below incl bound s.right = true
  right : ∀ (j : ℕ) s, m.slots[j]? = some s → index < j → below incl bound s.left = false

namespace Inv

/-- The bisections end at the first slot that reaches over the bound. -/
theorem slotBoundIdx_spec (h : m.Inv) (incl : Bool) (bound : R) :
    let u := if incl then m.slotUpperBoundIdx bound else m.slotLowerBoundIdx bound
    u ≤ m.slots.length ∧
      (∀ j < u, ∀ s, m.slots[j]? = some s → below incl bound s.right = true) ∧
      ∀ j ≥ u, ∀ s, m.slots[j]? = some s → below incl bound s.right = false := by
  cases incl with
  | true =>
    obtain ⟨hle, hleft, hright⟩ := h.slotUpperBoundIdx_spec bound
    exact ⟨hle, fun j hj s hs => by simpa [below] using hleft j hj s hs,
      fun j hj s hs => by simpa [below] using hright j hj s hs⟩
  | false =>
    obtain ⟨hle, hleft, hright⟩ := h.slotLowerBoundIdx_spec bound
    exact ⟨hle, fun j hj s hs => by simpa [below] using hleft j hj s hs,
      fun j hj s hs => by simpa [below] using hright j hj s hs⟩

variable {incl : Bool}

/-- The first slot that reaches over a bound cuts the slots there. -/
theorem cuts_of_first (h : m.Inv) {u : ℕ} {bound : R} (hu : u ≤ m.slots.length)
    (hleft : ∀ j < u, ∀ s, m.slots[j]? = some s → below incl bound s.right = true)
    (hright : ∀ j ≥ u, ∀ s, m.slots[j]? = some s → below incl bound s.right = false) :
    m.Cuts u incl bound := by
  refine ⟨by omega, fun j s hs hj => hleft j (by omega) s hs, fun j s hs hj => ?_⟩
  have hlen := (List.getElem?_eq_some_iff.1 hs).1
  have hget : m.slots[u]? = some m.slots[u] := List.getElem?_eq_getElem (by omega)
  have hnot := hright u le_rfl _ hget
  by_contra hbelow
  rw [Bool.not_eq_false] at hbelow
  rw [below_of_le (h.left_le_of_lt (by omega) hget hs) hbelow] at hnot
  cases hnot

theorem findLeftSlotIndex_cuts (h : m.Inv) (greaterThan : R) (includeGe : Bool) :
    m.Cuts (m.findLeftSlotIndex greaterThan includeGe) (!includeGe) greaterThan ∧
      m.findLeftSlotIndex greaterThan includeGe ≤ m.slots.length := by
  obtain ⟨hle, hleft, hright⟩ := h.slotBoundIdx_spec (!includeGe) greaterThan
  have hu : m.findLeftSlotIndex greaterThan includeGe =
      if !includeGe then m.slotUpperBoundIdx greaterThan else m.slotLowerBoundIdx greaterThan := by
    cases includeGe <;> rfl
  rw [hu]
  exact ⟨h.cuts_of_first hle hleft hright, hle⟩

theorem findRightSlotIndex_cuts (h : m.Inv) (hne : m.slots ≠ []) (lowerThan : R) (includeLe : Bool) :
    m.Cuts (m.findRightSlotIndex lowerThan includeLe) includeLe lowerThan ∧
      m.findRightSlotIndex lowerThan includeLe < m.slots.length := by
  have hpos : 0 < m.slots.length := List.length_pos_iff.2 hne
  obtain ⟨hle, hleft, hright⟩ := h.slotBoundIdx_spec includeLe lowerThan
  set u := if includeLe then m.slotUpperBoundIdx lowerThan else m.slotLowerBoundIdx lowerThan with hu
  have hcuts := h.cuts_of_first hle hleft hright
  have hget : m.slots[min u (m.slots.length - 1)]? = some m.slots[min u (m.slots.length - 1)] :=
    List.getElem?_eq_getElem (by omega)
  set slot := m.slots[min u (m.slots.length - 1)] with hslot
  have hindex : m.findRightSlotIndex lowerThan includeLe =
      if below includeLe lowerThan slot.left = false then ((min u (m.slots.length - 1) : ℕ) : ℤ) - 1
      else ((min u (m.slots.length - 1) : ℕ) : ℤ) := by
    unfold findRightSlotIndex
    simp only [← hu, hget]
    cases includeLe <;> simp [below]
  rw [hindex]
  split_ifs with hv
  · -- the bound lies in front of the slot
    refine ⟨⟨by omega, fun j s hs hj => hleft j (by omega) s hs, fun j s hs hj => ?_⟩, by omega⟩
    have hlen := (List.getElem?_eq_some_iff.1 hs).1
    rcases (show j = min u (m.slots.length - 1) ∨ u < j by omega) with rfl | huj
    · rw [hget] at hs
      obtain rfl := Option.some.inj hs
      exact hv
    · exact hcuts.right j s hs (by omega)
  · refine ⟨⟨by omega, fun j s hs hj => hleft j (by omega) s hs, fun j s hs hj => ?_⟩, by omega⟩
    have hlen := (List.getElem?_eq_some_iff.1 hs).1
    exact hcuts.right j s hs (by omega)

theorem Cuts.filter_left (h : m.Inv) {index : ℤ} {bound : R}
    (hc : m.Cuts index incl bound) {j : ℕ} {s : SlotMeta R} (hs : m.slots[j]? = some s)
    (hj : (j : ℤ) < index) : ∀ p ∈ s.vec, below incl bound p.1 = true := by
  intro p hp
  have hmem := List.mem_of_getElem? hs
  exact below_of_le ((h.slot_ok s hmem).le_right (h.sorted_vec hmem) hp) (hc.left j s hs hj)

theorem Cuts.filter_right (h : m.Inv) {index : ℤ} {bound : R}
    (hc : m.Cuts index incl bound) {j : ℕ} {s : SlotMeta R} (hs : m.slots[j]? = some s)
    (hj : index < j) : ∀ p ∈ s.vec, below incl bound p.1 = false := by
  intro p hp
  have hmem := List.mem_of_getElem? hs
  by_contra hbelow
  rw [Bool.not_eq_false] at hbelow
  have hleft := below_of_le ((h.slot_ok s hmem).left_le (h.sorted_vec hmem) hp) hbelow
  rw [hc.right j s hs hj] at hleft
  cases hleft

end Inv

omit [LinearOrder R] in
theorem slots_eq_append_slotAt (m : RangedMap R) {index : ℤ} (h : -1 ≤ index) :
    m.slots = m.slots.take index.toNat ++ m.slotAt index ++ m.slots.drop (index + 1).toNat := by
  unfold slotAt
  split_ifs with hneg
  · obtain rfl : index = -1 := by omega
    simp
  · obtain ⟨n, rfl⟩ := Int.eq_ofNat_of_zero_le (not_lt.1 hneg)
    rw [Int.toNat_natCast, show ((n : ℤ) + 1).toNat = n + 1 by omega]
    cases hget : m.slots[n]? with
    | some s =>
      conv_lhs => rw [eq_take_append_drop hget]
      simp
    | none =>
      have hlen := List.getElem?_eq_none_iff.1 hget
      rw [List.take_of_length_le hlen, List.drop_eq_nil_of_le (by omega)]
      simp

omit [LinearOrder R] in
theorem getElem?_of_mem_slotAt {index : ℤ} {s : SlotMeta R} (h : s ∈ m.slotAt index) :
    ∃ j : ℕ, m.slots[j]? = some s ∧ (j : ℤ) = index := by
  unfold slotAt at h
  split_ifs at h with hneg
  · cases h
  · exact ⟨index.toNat, Option.mem_toList.1 h, by omega⟩

variable {slots : List (SlotMeta R)}

omit [LinearOrder R] in
theorem filter_flatMap_of_all {p : R × ℕ → Bool} (h : ∀ s ∈ slots, ∀ e ∈ s.vec, p e = true) :
    (slots.flatMap fun s => s.vec.filter p) = slots.flatMap SlotMeta.vec := by
  refine List.flatMap_congr fun s hs => ?_
  exact List.filter_eq_self.2 (h s hs)

omit [LinearOrder R] in
theorem filter_flatMap_of_none {p : R × ℕ → Bool} (h : ∀ s ∈ slots, ∀ e ∈ s.vec, p e = false) :
    (slots.flatMap fun s => s.vec.filter p) = [] := by
  refine List.flatMap_eq_nil_iff.2 fun s hs => ?_
  exact List.filter_eq_nil_iff.2 fun e he => by simp [h s hs e he]

namespace Inv

/-- What lies left and right of a cut. -/
theorem filter_cut (h : m.Inv) {index : ℤ} {incl : Bool} {bound : R} (hc : m.Cuts index incl bound) :
    m.pairs.filter (fun p => below incl bound p.1) =
        (m.slots.take index.toNat).flatMap SlotMeta.vec ++
          (m.slotAt index).flatMap (fun s => s.vec.filter fun p => below incl bound p.1) ∧
      m.pairs.filter (fun p => !below incl bound p.1) =
        (m.slotAt index).flatMap (fun s => s.vec.filter fun p => !below incl bound p.1) ++
          (m.slots.drop (index + 1).toNat).flatMap SlotMeta.vec := by
  have hge := hc.ge
  have hleft : ∀ s ∈ m.slots.take index.toNat, ∀ p ∈ s.vec, below incl bound p.1 = true := by
    intro s hs
    obtain ⟨j, hj, hget⟩ := exists_getElem?_of_mem_take hs
    exact Cuts.filter_left h hc hget (by omega)
  have hright : ∀ s ∈ m.slots.drop (index + 1).toNat, ∀ p ∈ s.vec, below incl bound p.1 = false := by
    intro s hs
    obtain ⟨j, hj, hget⟩ := exists_getElem?_of_mem_drop hs
    exact Cuts.filter_right h hc hget (by omega)
  unfold pairs
  constructor
  · conv_lhs => rw [m.slots_eq_append_slotAt hge]
    rw [List.filter_flatMap, List.flatMap_append, List.flatMap_append,
      filter_flatMap_of_all hleft, filter_flatMap_of_none hright, List.append_nil]
  · have hall : ((m.slots.drop (index + 1).toNat).flatMap fun s =>
        s.vec.filter fun p => !below incl bound p.1) = _ :=
      filter_flatMap_of_all (by simpa using hright)
    conv_lhs => rw [m.slots_eq_append_slotAt hge]
    rw [List.filter_flatMap, List.flatMap_append, List.flatMap_append,
      filter_flatMap_of_none (by simpa using hleft), hall, List.nil_append]

/-- What lies between two cuts, from slot to slot. -/
theorem filter_between (h : m.Inv) {l r : ℤ} {includeLe excludeGe : Bool}
    {lowerThan greaterThan : R} (hl : m.Cuts l excludeGe greaterThan) (hr : m.Cuts r includeLe lowerThan) :
    m.pairs.filter (fun p => below includeLe lowerThan p.1 && !below excludeGe greaterThan p.1) =
      if l < r then
        (m.slotAt l).flatMap (fun s => s.vec.filter fun p => !below excludeGe greaterThan p.1) ++
          ((m.slots.take r.toNat).drop (l + 1).toNat).flatMap SlotMeta.vec ++
          (m.slotAt r).flatMap (fun s => s.vec.filter fun p => below includeLe lowerThan p.1)
      else if l = r then
        (m.slotAt r).flatMap fun s =>
          s.vec.filter fun p => below includeLe lowerThan p.1 && !below excludeGe greaterThan p.1
      else [] := by
  have hle := hl.ge
  have hre := hr.ge
  have hcomm : m.pairs.filter
      (fun p => below includeLe lowerThan p.1 && !below excludeGe greaterThan p.1) =
      (m.pairs.filter fun p => below includeLe lowerThan p.1).filter
        fun p => !below excludeGe greaterThan p.1 := by
    rw [List.filter_filter]
    exact List.filter_congr fun p _ => Bool.and_comm _ _
  have hnone : ∀ slots : List (SlotMeta R),
      (∀ s ∈ slots, ∃ j : ℕ, m.slots[j]? = some s ∧ (j : ℤ) < l) →
        (slots.flatMap fun s => s.vec.filter fun p => !below excludeGe greaterThan p.1) = [] := by
    intro slots hslots
    refine filter_flatMap_of_none fun s hs p hp => ?_
    obtain ⟨j, hget, hj⟩ := hslots s hs
    simp [Cuts.filter_left h hl hget hj p hp]
  have hall : ∀ slots : List (SlotMeta R),
      (∀ s ∈ slots, ∃ j : ℕ, m.slots[j]? = some s ∧ l < (j : ℤ)) →
        (slots.flatMap fun s => s.vec.filter fun p => !below excludeGe greaterThan p.1) =
          slots.flatMap SlotMeta.vec := by
    intro slots hslots
    refine filter_flatMap_of_all fun s hs p hp => ?_
    obtain ⟨j, hget, hj⟩ := hslots s hs
    simp [Cuts.filter_right h hl hget hj p hp]
  have htake : ∀ s ∈ m.slots.take r.toNat, ∃ j : ℕ, m.slots[j]? = some s ∧ (j : ℤ) < r := by
    intro s hs
    obtain ⟨j, hj, hget⟩ := exists_getElem?_of_mem_take hs
    exact ⟨j, hget, by omega⟩
  rw [hcomm, (h.filter_cut hr).1, List.filter_append, List.filter_flatMap, List.filter_flatMap]
  split_ifs with hlt heq
  · -- the slots between the two are wholly inside
    have hsplit : m.slots.take r.toNat =
        m.slots.take l.toNat ++ m.slotAt l ++ (m.slots.take r.toNat).drop (l + 1).toNat := by
      have hslot : (⟨m.offsetToValue, m.slots.take r.toNat⟩ : RangedMap R).slotAt l = m.slotAt l := by
        unfold slotAt
        split_ifs with hneg
        · rfl
        · show (m.slots.take r.toNat)[l.toNat]?.toList = _
          rw [List.getElem?_take_of_lt (by omega)]
      have := slots_eq_append_slotAt (⟨m.offsetToValue, m.slots.take r.toNat⟩ : RangedMap R) hle
      rw [hslot] at this
      rw [show m.slots.take l.toNat = (m.slots.take r.toNat).take l.toNat by
        rw [List.take_take, min_eq_left (by omega)]]
      exact this
    have hr' : ∀ s ∈ m.slotAt r,
        ((s.vec.filter fun p => below includeLe lowerThan p.1).filter
          fun p => !below excludeGe greaterThan p.1) =
        s.vec.filter fun p => below includeLe lowerThan p.1 := by
      intro s hs
      obtain ⟨j, hget, hj⟩ := getElem?_of_mem_slotAt hs
      refine List.filter_eq_self.2 fun p hp => ?_
      simp [Cuts.filter_right h hl hget (by omega) p (List.mem_of_mem_filter hp)]
    have hl' : ∀ s ∈ m.slots.take l.toNat, ∃ j : ℕ, m.slots[j]? = some s ∧ (j : ℤ) < l := by
      intro s hs
      obtain ⟨j, hj, hget⟩ := exists_getElem?_of_mem_take hs
      exact ⟨j, hget, by omega⟩
    have hmid : ∀ s ∈ (m.slots.take r.toNat).drop (l + 1).toNat,
        ∃ j : ℕ, m.slots[j]? = some s ∧ l < (j : ℤ) := by
      intro s hs
      obtain ⟨j, hj, hget⟩ := exists_getElem?_of_mem_drop hs
      rw [List.getElem?_take] at hget
      split_ifs at hget with hjr
      exact ⟨j, hget, by omega⟩
    conv_lhs => rw [hsplit]
    rw [List.flatMap_append, List.flatMap_append, hnone _ hl', hall _ hmid, List.nil_append,
      List.flatMap_congr hr']
  · subst heq
    rw [hnone _ htake, List.nil_append]
    refine List.flatMap_congr fun s _ => ?_
    rw [List.filter_filter]
    exact List.filter_congr fun p _ => Bool.and_comm _ _
  · rw [hnone _ fun s hs => ?_, List.nil_append]
    · refine List.flatMap_eq_nil_iff.2 fun s hs => ?_
      obtain ⟨j, hget, hj⟩ := getElem?_of_mem_slotAt hs
      refine List.filter_eq_nil_iff.2 fun p hp => ?_
      simp [Cuts.filter_left h hl hget (by omega) p (List.mem_of_mem_filter hp)]
    · obtain ⟨j, hget, hj⟩ := htake s hs
      exact ⟨j, hget, by omega⟩

end Inv

/-! ## Parts of an answer -/

/-- The parts of an answer have the offsets of the entries and count them. -/
structure Denotes (parts : List (Finset ℕ × ℤ)) (entries : List (R × ℕ)) : Prop where
  mem : ∀ o, (∃ part ∈ parts, o ∈ part.1) ↔ o ∈ entries.map Prod.snd
  count : (parts.map Prod.snd).sum = entries.length

namespace Denotes

variable {parts parts' : List (Finset ℕ × ℤ)} {entries entries' : List (R × ℕ)}

omit [LinearOrder R]

theorem append (h : Denotes parts entries) (h' : Denotes parts' entries') :
    Denotes (parts ++ parts') (entries ++ entries') where
  mem o := by
    rw [List.map_append, List.mem_append, ← h.mem, ← h'.mem]
    simp only [List.mem_append, or_and_right, exists_or]
  count := by
    rw [List.map_append, List.sum_append, h.count, h'.count, List.length_append]
    push_cast
    rfl

theorem perm (h : Denotes parts entries) (hp : entries.Perm entries') : Denotes parts entries' where
  mem o := (h.mem o).trans (hp.map Prod.snd).mem_iff
  count := by rw [h.count, hp.length_eq]

theorem map {slots : List (SlotMeta R)} {f : SlotMeta R → Finset ℕ × ℤ}
    {g : SlotMeta R → List (R × ℕ)} (h : ∀ s ∈ slots, f s = partOf (g s)) :
    Denotes (slots.map f) (slots.flatMap g) := by
  induction slots with
  | nil => exact ⟨by simp, by simp⟩
  | cons s slots ih =>
    have hs : Denotes [f s] (g s) := by
      rw [h s List.mem_cons_self]
      exact ⟨by simp [partOf], by simp [partOf]⟩
    exact hs.append (ih fun t ht => h t (List.mem_cons_of_mem _ ht))

end Denotes

namespace Inv

theorem denotes_all (h : m.Inv) (slots : List (SlotMeta R)) (hsub : ∀ s ∈ slots, s ∈ m.slots) :
    Denotes (slots.map SlotMeta.all) (slots.flatMap SlotMeta.vec) :=
  Denotes.map fun s hs => SlotMeta.all_eq (h.slot_ok s (hsub s hs))

/-- Outside a range are the entries left of its lower bound and those right of its upper one; an
entry on both sides counts twice. -/
theorem denotes_rangeParts_out (h : m.Inv) (hne : m.slots ≠ []) (lowerThan greaterThan : R)
    (includeLe includeGe : Bool) :
    Denotes (m.rangeParts true lowerThan includeLe greaterThan includeGe)
      (m.pairs.filter (fun p => below (!includeGe) greaterThan p.1) ++
        m.pairs.filter fun p => !below includeLe lowerThan p.1) := by
  obtain ⟨hl, -⟩ := h.findLeftSlotIndex_cuts greaterThan includeGe
  obtain ⟨hr, -⟩ := h.findRightSlotIndex_cuts hne lowerThan includeLe
  have hslot : ∀ index, ∀ s ∈ m.slotAt index, s.vec.Pairwise fun p q => p.1 ≤ q.1 :=
    fun index s hs => h.sorted_vec (mem_slots_of_mem_slotAt m s hs)
  have hlow := (h.denotes_all (m.slots.take (m.findLeftSlotIndex greaterThan includeGe))
    fun s hs => List.mem_of_mem_take hs).append (Denotes.map fun s hs =>
      SlotMeta.getLowerThanData_eq (hslot (m.findLeftSlotIndex greaterThan includeGe) s hs)
        greaterThan (!includeGe))
  have hhigh := h.denotes_all
    (m.slots.drop (m.findRightSlotIndex lowerThan includeLe + 1).toNat)
    fun s hs => List.mem_of_mem_drop hs
  have hslotHigh := Denotes.map fun s hs =>
    SlotMeta.getGreaterThanData_eq (hslot (m.findRightSlotIndex lowerThan includeLe) s hs)
      lowerThan (!includeLe)
  rw [Bool.not_not] at hslotHigh
  unfold rangeParts
  rw [if_pos rfl, (h.filter_cut hl).1, (h.filter_cut hr).2, Int.toNat_natCast]
  refine ((hlow.append hhigh).append hslotHigh).perm ?_
  rw [List.append_assoc _ (List.flatMap _ (m.slots.drop _))]
  exact List.Perm.append_left _ List.perm_append_comm

/-- Inside a range are the entries that are left of its upper bound and not left of its lower one.
Where there are none, the count may be negative. -/
theorem denotes_rangeParts_in (h : m.Inv) (hne : m.slots ≠ []) (lowerThan greaterThan : R)
    (includeLe includeGe : Bool) :
    let inside := m.pairs.filter fun p =>
      below includeLe lowerThan p.1 && !below (!includeGe) greaterThan p.1
    (∀ o, (∃ part ∈ m.rangeParts false lowerThan includeLe greaterThan includeGe, o ∈ part.1) ↔
        o ∈ inside.map Prod.snd) ∧
      (inside ≠ [] →
        Denotes (m.rangeParts false lowerThan includeLe greaterThan includeGe) inside) := by
  intro inside
  obtain ⟨hl, hllen⟩ := h.findLeftSlotIndex_cuts greaterThan includeGe
  obtain ⟨hr, hrlen⟩ := h.findRightSlotIndex_cuts hne lowerThan includeLe
  have hinside : inside = _ := h.filter_between hl hr
  have hslot : ∀ index, ∀ s ∈ m.slotAt index, s.vec.Pairwise fun p q => p.1 ≤ q.1 :=
    fun index s hs => h.sorted_vec (mem_slots_of_mem_slotAt m s hs)
  unfold rangeParts
  rw [if_neg Bool.false_ne_true]
  set l := m.findLeftSlotIndex greaterThan includeGe with hldef
  set r := m.findRightSlotIndex lowerThan includeLe with hrdef
  have hre := hr.ge
  rcases lt_trichotomy (l : ℤ) r with hlt | heq | hgt
  · rw [if_pos ⟨by omega, by omega⟩, if_pos hlt]
    rw [if_pos hlt, show ((l : ℤ) + 1).toNat = l + 1 by omega] at hinside
    have hmid := h.denotes_all ((m.slots.take r.toNat).drop (l + 1))
      fun s hs => List.mem_of_mem_take (List.mem_of_mem_drop hs)
    have hlow := Denotes.map fun s hs =>
      SlotMeta.getLowerThanData_eq (hslot r s hs) lowerThan includeLe
    have hhigh := Denotes.map fun s hs =>
      SlotMeta.getGreaterThanData_eq (hslot l s hs) greaterThan includeGe
    have hdenotes : Denotes _ inside := (hmid.append (hlow.append hhigh)).perm (by
      rw [hinside, List.append_assoc]
      exact (List.perm_append_comm.trans (List.Perm.append_right _ List.perm_append_comm)).trans
        (by rw [List.append_assoc]
            exact List.Perm.append_left _ List.perm_append_comm))
    exact ⟨hdenotes.mem, fun _ => hdenotes⟩
  · rw [if_pos ⟨by omega, by omega⟩, if_neg (by omega), if_pos heq]
    rw [if_neg (by omega), if_pos heq] at hinside
    have hget : m.slots[l]? = some m.slots[l] := List.getElem?_eq_getElem (by omega)
    have hat : m.slotAt r = [m.slots[l]] := by
      unfold slotAt
      rw [if_neg (by omega), ← heq, Int.toNat_natCast, hget]
      rfl
    have hmid : (m.slots.take r.toNat).drop (l + 1) = [] :=
      List.drop_eq_nil_of_le (by rw [List.length_take]; omega)
    rw [hat, List.flatMap_cons, List.flatMap_nil, List.append_nil] at hinside
    obtain ⟨hoffsets, hcount⟩ := SlotMeta.getRangeData_eq (h.sorted_vec (List.mem_of_getElem? hget))
      lowerThan greaterThan includeLe includeGe
    rw [← hinside] at hoffsets hcount
    rw [hmid, hat, List.map_nil, List.nil_append, List.map_singleton]
    refine ⟨fun o => ?_, fun hinne => ?_⟩
    · simp only [List.mem_singleton, exists_eq_left, hoffsets, List.mem_toFinset]
    · rw [hcount hinne]
      exact ⟨by simp [partOf], by simp [partOf]⟩
  · have hmid : (m.slots.take r.toNat).drop (l + 1) = [] :=
      List.drop_eq_nil_of_le (by rw [List.length_take]; omega)
    rw [if_neg (by omega), if_neg (by omega)] at hinside
    rw [hmid, hinside, if_neg (show ¬ (l : ℤ) < r by omega), if_neg (show ¬ (l : ℤ) = r by omega),
      ite_self]
    exact ⟨by simp, fun hinne => absurd rfl hinne⟩

end Inv

end RangedMap

end OpenViking.VectorDB
