import OpenViking.VectorDB.RangedParts

/-!
# Range queries

Results:

* `RangedMap.Inv.exactRange_iff`: when a range query is exact;
* `RangedMap.ordered_and_exactRange_iff`: whatever the calls, a map stays in order and answers so.

Slot indices, `int` in the code, are natural numbers here: the same for fewer than `2 ^ 31` slots.
-/

namespace OpenViking.VectorDB

variable {R : Type} [LinearOrder R]

namespace RangedMap

variable {m : RangedMap R}

/-! ## Answers -/

/-- Between two bounds, each with or without the bound itself. -/
def Inside (lowerThan : R) (includeLe : Bool) (greaterThan : R) (includeGe : Bool) (v : R) : Prop :=
  (if includeLe then v ≤ lowerThan else v < lowerThan) ∧
    if includeGe then greaterThan ≤ v else greaterThan < v

/-- What a range query asks for: the values between the bounds, or with `range_out` those outside
the interval of the ordered bounds. -/
def Asked (rangeOut : Bool) (lowerThan : R) (includeLe : Bool) (greaterThan : R) (includeGe : Bool)
    (v : R) : Prop :=
  if rangeOut = true then
    if lowerThan < greaterThan then ¬ Inside greaterThan includeGe lowerThan includeLe v
    else ¬ Inside lowerThan includeLe greaterThan includeGe v
  else Inside lowerThan includeLe greaterThan includeGe v

/-- The answer of a range query, where there is none the empty one, has exactly the offsets whose
value is asked for. -/
def ExactRange (m : RangedMap R) (rangeOut : Bool) (lowerThan : R) (includeLe : Bool)
    (greaterThan : R) (includeGe : Bool) : Prop :=
  ∀ offset, offset ∈ (m.rangeBitmap rangeOut lowerThan includeLe greaterThan includeGe).getD ∅ ↔
    ∃ v, m.valueAt offset = some v ∧ Asked rangeOut lowerThan includeLe greaterThan includeGe v

/-- The offsets with a value. -/
def valued (m : RangedMap R) : Finset ℕ :=
  (Finset.range m.size).filter fun offset => (m.valueAt offset).isSome

/-- The offsets with the value `v`. -/
def valuedAt (m : RangedMap R) (v : R) : Finset ℕ :=
  (Finset.range m.size).filter fun offset => m.valueAt offset = some v

/-- The query for the outside of an interval from a value to itself without its ends, on a map where
the offsets with a value and once more those with this one are `2 ^ 32`. -/
def CountWraps (m : RangedMap R) (rangeOut : Bool) (lowerThan : R) (includeLe : Bool)
    (greaterThan : R) (includeGe : Bool) : Prop :=
  rangeOut = true ∧ lowerThan = greaterThan ∧ includeLe = false ∧ includeGe = false ∧
    m.valued.card + (m.valuedAt lowerThan).card = 2 ^ 32

theorem below_iff_le {incl : Bool} {bound v : R} :
    below incl bound v = true ↔ if incl then v ≤ bound else v < bound := by
  cases incl <;> simp [below]

theorem not_below_iff {incl : Bool} {bound v : R} :
    (!below (!incl) bound v) = true ↔ if incl then bound ≤ v else bound < v := by
  cases incl <;> simp [below]

theorem inside_iff {lowerThan greaterThan v : R} {includeLe includeGe : Bool} :
    Inside lowerThan includeLe greaterThan includeGe v ↔
      (below includeLe lowerThan v && !below (!includeGe) greaterThan v) = true := by
  rw [Bool.and_eq_true, below_iff_le, not_below_iff]
  rfl

/-- The last step of a query: the parts together, unless the 32-bit count is zero. -/
def answer (parts : List (Finset ℕ × ℤ)) : Finset ℕ :=
  (if (parts.map Prod.snd).sum % 2 ^ 32 = 0 then none
    else some (parts.foldl (fun acc part => acc ∪ part.1) ∅)).getD ∅

variable {parts : List (Finset ℕ × ℤ)}

omit [LinearOrder R] in
theorem mem_answer {o : ℕ} :
    o ∈ answer parts ↔ (parts.map Prod.snd).sum % 2 ^ 32 ≠ 0 ∧ ∃ part ∈ parts, o ∈ part.1 := by
  unfold answer
  split_ifs with h
  · exact iff_of_false (by simp) fun hn => hn.1 h
  · rw [and_iff_right h, Option.getD_some, mem_foldl_union]
    simp

omit [LinearOrder R] in
theorem Denotes.mem_answer {entries : List (R × ℕ)}
    (h : Denotes parts entries) (hlen : entries.length < 2 ^ 32) {o : ℕ} :
    o ∈ answer parts ↔ o ∈ entries.map Prod.snd := by
  rw [RangedMap.mem_answer, h.mem]
  refine and_iff_right_of_imp fun ho => ?_
  have hpos := List.length_pos_of_mem ho
  rw [List.length_map] at hpos
  rw [h.count]
  omega

omit [LinearOrder R] in
theorem lt_size (m : RangedMap R) {offset : ℕ} {v : R} (hv : m.valueAt offset = some v) :
    offset < m.size := by
  by_contra hge
  unfold valueAt at hv
  rw [List.getElem?_eq_none (by simpa [size] using hge)] at hv
  cases hv

namespace Inv

theorem mem_map_filter (h : m.Inv) {p : R → Bool} {o : ℕ} :
    o ∈ (m.pairs.filter fun e => p e.1).map Prod.snd ↔
      ∃ v, m.valueAt o = some v ∧ p v = true := by
  simp only [List.mem_map, List.mem_filter, Prod.exists, exists_eq_right, ← h.agree]

theorem toFinset_filter (h : m.Inv) (p : R → Bool) :
    ((m.pairs.filter fun e => p e.1).map Prod.snd).toFinset =
      (Finset.range m.size).filter fun o => ∃ v, m.valueAt o = some v ∧ p v = true := by
  ext o
  rw [List.mem_toFinset, h.mem_map_filter, Finset.mem_filter, Finset.mem_range]
  refine (and_iff_right_of_imp ?_).symm
  rintro ⟨v, hv, -⟩
  exact m.lt_size hv

theorem card_filter (h : m.Inv) (p : R → Bool) :
    ((Finset.range m.size).filter fun o => ∃ v, m.valueAt o = some v ∧ p v = true).card =
      (m.pairs.filter fun e => p e.1).length := by
  rw [← h.toFinset_filter, List.toFinset_card_of_nodup, List.length_map]
  exact (List.filter_sublist.map Prod.snd).nodup h.nodup

theorem card_valued (h : m.Inv) : m.valued.card = m.pairs.length := by
  have hall := h.card_filter fun _ => true
  rw [List.filter_true] at hall
  rw [← hall]
  unfold valued
  congr 1
  refine Finset.filter_congr fun o _ => ?_
  simp [Option.isSome_iff_exists]

theorem card_valuedAt (h : m.Inv) (v : R) :
    (m.valuedAt v).card = (m.pairs.filter fun e => decide (e.1 = v)).length := by
  rw [← h.card_filter fun w => decide (w = v)]
  unfold valuedAt
  congr 1
  refine Finset.filter_congr fun o _ => ?_
  simp

theorem length_pairs_lt (h : m.Inv) (hsize : m.size < 2 ^ 32) : m.pairs.length < 2 ^ 32 := by
  rw [← h.card_valued]
  refine lt_of_le_of_lt ?_ hsize
  unfold valued
  exact (Finset.card_filter_le _ _).trans_eq (Finset.card_range _)

theorem length_filter_le_add (entries : List (R × ℕ)) (bound : R) :
    (entries.filter fun p => below (!false) bound p.1).length +
        (entries.filter fun p => !below false bound p.1).length =
      entries.length + (entries.filter fun p => decide (p.1 = bound)).length := by
  induction entries with
  | nil => rfl
  | cons p entries ih =>
    rcases lt_trichotomy p.1 bound with hlt | heq | hgt
    · simp only [List.filter_cons, below, hlt, hlt.le, hlt.ne] at ih ⊢
      simp at ih ⊢
      omega
    · simp only [List.filter_cons, below, heq] at ih ⊢
      simp at ih ⊢
      omega
    · simp only [List.filter_cons, below, hgt.not_gt, hgt.not_ge, hgt.ne'] at ih ⊢
      simp at ih ⊢
      omega

/-- What lies outside an interval is found unless its 32-bit count is zero. -/
theorem exact_out_iff (h : m.Inv) (hne : m.slots ≠ []) (hsize : m.size < 2 ^ 32)
    {lowerThan greaterThan : R} (hle : greaterThan ≤ lowerThan) (includeLe includeGe : Bool) :
    (∀ o, o ∈ answer (m.rangeParts true lowerThan includeLe greaterThan includeGe) ↔
        ∃ v, m.valueAt o = some v ∧ ¬ Inside lowerThan includeLe greaterThan includeGe v) ↔
      ¬ (lowerThan = greaterThan ∧ includeLe = false ∧ includeGe = false ∧
        m.valued.card + (m.valuedAt lowerThan).card = 2 ^ 32) := by
  have hdenotes := h.denotes_rangeParts_out hne lowerThan greaterThan includeLe includeGe
  have hlen := h.length_pairs_lt hsize
  have hmem : ∀ o, o ∈ ((m.pairs.filter fun p => below (!includeGe) greaterThan p.1) ++
      m.pairs.filter fun p => !below includeLe lowerThan p.1).map Prod.snd ↔
        ∃ v, m.valueAt o = some v ∧ ¬ Inside lowerThan includeLe greaterThan includeGe v := by
    intro o
    rw [List.map_append, List.mem_append, h.mem_map_filter (p := fun v => below (!includeGe) greaterThan v),
      h.mem_map_filter (p := fun v => !below includeLe lowerThan v)]
    simp only [inside_iff, Bool.and_eq_true, not_and_or, ← exists_or, ← and_or_left, Bool.not_eq_true]
    refine exists_congr fun v => and_congr_right fun _ => ?_
    rw [or_comm]
    simp
  by_cases heq : lowerThan = greaterThan ∧ includeLe = false ∧ includeGe = false
  · obtain ⟨rfl, rfl, rfl⟩ := heq
    have hcount : (((m.rangeParts true lowerThan false lowerThan false).map Prod.snd).sum : ℤ) =
        m.valued.card + (m.valuedAt lowerThan).card := by
      rw [hdenotes.count, List.length_append, h.card_valued, h.card_valuedAt]
      have hsum := length_filter_le_add m.pairs lowerThan
      push_cast
      exact_mod_cast hsum
    have hbound : (m.valuedAt lowerThan).card ≤ m.valued.card := by
      rw [h.card_valued, h.card_valuedAt]
      exact List.length_filter_le _ _
    rw [← h.card_valued] at hlen
    simp only [true_and]
    constructor
    · intro hexact hwrap
      have hpos : 0 < m.valued.card := by omega
      obtain ⟨o, ho⟩ := Finset.card_pos.1 hpos
      obtain ⟨v, hv⟩ := Option.isSome_iff_exists.1 (Finset.mem_filter.1 ho).2
      have hin := (hexact o).2 ⟨v, hv, fun hins => absurd hins.1 (not_lt.2 hins.2.le)⟩
      rw [RangedMap.mem_answer, hcount, ← Nat.cast_add, hwrap] at hin
      exact hin.1 rfl
    · intro hwrap o
      rw [← hmem, RangedMap.mem_answer, hdenotes.mem]
      refine and_iff_right_of_imp fun ho => ?_
      have hpos := List.length_pos_of_mem ho
      rw [List.length_map] at hpos
      have := hdenotes.count
      omega
  · refine iff_of_true (fun o => ?_) fun hw => heq ⟨hw.1, hw.2.1, hw.2.2.1⟩
    rw [← hmem]
    refine hdenotes.mem_answer ?_
    have hsub : ∀ v, below (!includeGe) greaterThan v = true → below includeLe lowerThan v = true := by
      intro v hv
      rw [below_iff_le] at hv ⊢
      cases includeGe with
      | true =>
        have hlt : v < greaterThan := by simpa using hv
        cases includeLe with
        | true => simpa using (hlt.trans_le hle).le
        | false => simpa using hlt.trans_le hle
      | false =>
        have hvle : v ≤ greaterThan := by simpa using hv
        cases includeLe with
        | true => simpa using hvle.trans hle
        | false =>
          have hlt : greaterThan < lowerThan := lt_of_le_of_ne hle fun hg => heq ⟨hg.symm, rfl, rfl⟩
          simpa using hvle.trans_lt hlt
    have hfilter := (List.monotone_filter_right m.pairs fun p => hsub p.1).length_le
    have hsplit := List.length_eq_length_filter_add (l := m.pairs)
      fun p : R × ℕ => below includeLe lowerThan p.1
    rw [List.length_append]
    omega

/-- **A range query is exact unless its count wraps.**  On a map in order with less than `2 ^ 32`
offsets. -/
theorem exactRange_iff (h : m.Inv) (hsize : m.size < 2 ^ 32) (rangeOut : Bool)
    (lowerThan : R) (includeLe : Bool) (greaterThan : R) (includeGe : Bool) :
    m.ExactRange rangeOut lowerThan includeLe greaterThan includeGe ↔
      ¬ m.CountWraps rangeOut lowerThan includeLe greaterThan includeGe := by
  by_cases hne : m.slots = []
  · have hpairs : m.pairs = [] := by simp [pairs, hne]
    have hnone : ∀ o v, m.valueAt o ≠ some v := by
      intro o v hv
      have := h.agree.2 hv
      rw [hpairs] at this
      cases this
    refine iff_of_true (fun o => ?_) fun hw => ?_
    · refine iff_of_false ?_ fun hv => ?_
      · simp [rangeBitmap, hne]
      · obtain ⟨v, hv, -⟩ := hv
        exact hnone o v hv
    · have hcount := hw.2.2.2.2
      rw [h.card_valued, h.card_valuedAt, hpairs] at hcount
      simp at hcount
  · have hanswer : (m.rangeBitmap rangeOut lowerThan includeLe greaterThan includeGe).getD ∅ =
        answer (if rangeOut = true ∧ lowerThan < greaterThan
          then m.rangeParts rangeOut greaterThan includeGe lowerThan includeLe
          else m.rangeParts rangeOut lowerThan includeLe greaterThan includeGe) := by
      unfold rangeBitmap answer
      simp only [if_neg hne]
    unfold ExactRange CountWraps Asked
    rw [hanswer]
    cases rangeOut with
    | false =>
      simp only [Bool.false_eq_true, false_and, if_false, not_false_eq_true, iff_true]
      intro o
      obtain ⟨hoffsets, hdenotes⟩ :=
        h.denotes_rangeParts_in hne lowerThan greaterThan includeLe includeGe
      have hmem := h.mem_map_filter (o := o) (p := fun v =>
        below includeLe lowerThan v && !below (!includeGe) greaterThan v)
      simp only [inside_iff]
      rw [← hmem]
      by_cases hin : (m.pairs.filter fun p =>
          below includeLe lowerThan p.1 && !below (!includeGe) greaterThan p.1) = []
      · rw [hin] at hoffsets ⊢
        refine iff_of_false (fun ho => ?_) (by simp)
        have := (hoffsets o).1 (RangedMap.mem_answer.1 ho).2
        simp at this
      · refine (hdenotes hin).mem_answer ?_
        exact (List.length_filter_le _ _).trans_lt (h.length_pairs_lt hsize)
    | true =>
      simp only [true_and, if_true]
      by_cases hlt : lowerThan < greaterThan
      · -- the bounds are swapped
        simp only [if_pos hlt]
        refine iff_of_true ((h.exact_out_iff hne hsize hlt.le includeGe includeLe).2 ?_) ?_
        · exact fun hw => hlt.ne' hw.1
        · exact fun hw => hlt.ne hw.1
      · simp only [if_neg hlt]
        exact h.exact_out_iff hne hsize (not_lt.1 hlt) includeLe includeGe

end Inv

end RangedMap

/-- A call that changes a ranged map. -/
inductive RangedOp (R : Type) where
  | addOffsetAndScore (offset : ℕ) (value : R)
  | deleteOffset (offset : ℕ)

namespace RangedOp

/-- A call; `none` where it writes outside of `offset_to_value_`.  `add_offset_and_score` resizes it
to `offset + 1` in 32 bits, for the greatest offset to nothing (`ranged_map.cpp`, 73-77). -/
def step (slotSize : ℕ) (m : RangedMap R) : RangedOp R → Option (RangedMap R)
  | addOffsetAndScore offset value =>
    if m.size ≤ offset ∧ 2 ^ 32 ≤ offset + 1 then none
    else some ((m.addOffsetAndScore slotSize offset value).getD m)
  | deleteOffset offset => some (m.deleteOffset offset)

/-- One call after the other. -/
def run (slotSize : ℕ) (m : RangedMap R) : List (RangedOp R) → Option (RangedMap R)
  | [] => some m
  | op :: ops => (op.step slotSize m).bind fun m' => run slotSize m' ops

/-- A value for the greatest 32-bit offset. -/
def WritesOutside : RangedOp R → Prop
  | addOffsetAndScore offset _ => 2 ^ 32 ≤ offset + 1
  | deleteOffset _ => False

end RangedOp

namespace RangedMap

/-- A ranged map in order. -/
structure Ordered (m : RangedMap R) : Prop where
  nonempty : ∀ s ∈ m.slots, s.vec ≠ []
  sorted : ∀ s ∈ m.slots, (s.vec.map Prod.fst).Pairwise (· ≤ ·)
  left : ∀ s ∈ m.slots, (s.vec.map Prod.fst).head? = some s.left
  right : ∀ s ∈ m.slots, (s.vec.map Prod.fst).getLast? = some s.right
  bounds : m.slots.Pairwise fun s t => s.right ≤ t.left
  bitmap : ∀ s ∈ m.slots, s.bitmap = (s.vec.map Prod.snd).toFinset
  once : (m.slots.flatMap fun s => s.vec.map Prod.snd).Nodup
  value : ∀ offset v, m.valueAt offset = some v ↔ ∃ s ∈ m.slots, (v, offset) ∈ s.vec

variable {m m' : RangedMap R}

theorem size_addOffsetAndScore {slotSize offset : ℕ} {value : R}
    (h : m.addOffsetAndScore slotSize offset value = some m') : m'.size = max m.size (offset + 1) := by
  have hset : (setValue m.offsetToValue offset value).length = max m.size (offset + 1) := by
    unfold setValue size
    rw [List.length_set, List.length_append, List.length_replicate]
    omega
  unfold addOffsetAndScore at h
  split_ifs at h
  · cases h
    exact hset
  · cases hslot : m.slots[m.addSlotIndex value]? <;> simp only [hslot] at h <;> cases h <;>
      exact hset

theorem size_deleteOffset (m : RangedMap R) (offset : ℕ) : (m.deleteOffset offset).size = m.size := by
  unfold deleteOffset
  split_ifs with hne
  · rfl
  · cases hvalue : m.valueAt offset with
    | none => rfl
    | some value =>
      simp only
      cases hslot : m.slots[m.deleteSlotIndex offset value]? <;> simp [size]

namespace Inv

theorem ordered (h : m.Inv) : m.Ordered where
  nonempty s hs := (h.slot_ok s hs).ne_nil
  sorted s hs := List.pairwise_map.2 (h.sorted_vec hs)
  left s hs := by rw [List.head?_map, (h.slot_ok s hs).head]
  right s hs := by rw [List.getLast?_map, (h.slot_ok s hs).last]
  bounds := h.right_le_left
  bitmap s hs := (h.slot_ok s hs).bitmap
  once := by
    have hnodup := h.nodup
    unfold pairs at hnodup
    rwa [List.map_flatMap] at hnodup
  value offset v := by rw [← h.agree, pairs, List.mem_flatMap]

variable {slotSize : ℕ}

theorem step (h : m.Inv) (hm : m.size < 2 ^ 32) (hsize : 1 ≤ slotSize)
    (op : RangedOp R) (hop : ¬ op.WritesOutside) :
    ∃ m', op.step slotSize m = some m' ∧ m'.Inv ∧ m'.size < 2 ^ 32 := by
  cases op with
  | addOffsetAndScore offset value =>
    have hoffset : offset + 1 < 2 ^ 32 := not_le.1 hop
    refine ⟨_, if_neg fun hn => absurd hn.2 (not_le.2 hoffset), ?_⟩
    cases hadd : m.addOffsetAndScore slotSize offset value with
    | none => exact ⟨h, hm⟩
    | some m' =>
      refine ⟨h.addOffsetAndScore hsize hadd, ?_⟩
      show m'.size < 2 ^ 32
      rw [size_addOffsetAndScore hadd]
      omega
  | deleteOffset offset =>
    refine ⟨_, rfl, h.deleteOffset offset, ?_⟩
    rwa [size_deleteOffset]

variable {ops : List (RangedOp R)}

theorem run (h : m.Inv) (hm : m.size < 2 ^ 32) (hsize : 1 ≤ slotSize)
    (hops : ∀ op ∈ ops, ¬ op.WritesOutside) :
    ∃ m', RangedOp.run slotSize m ops = some m' ∧ m'.Inv ∧ m'.size < 2 ^ 32 := by
  induction ops generalizing m with
  | nil => exact ⟨m, rfl, h, hm⟩
  | cons op ops ih =>
    obtain ⟨m₁, hstep, h₁, hm₁⟩ := h.step hm hsize op (hops op List.mem_cons_self)
    unfold RangedOp.run
    rw [hstep]
    exact ih h₁ hm₁ fun op hop => hops op (List.mem_cons_of_mem _ hop)

/-- A run that reaches a value for the greatest offset ends there. -/
theorem run_eq_none (h : m.Inv) (hm : m.size < 2 ^ 32) (hsize : 1 ≤ slotSize)
    (hops : ∃ op ∈ ops, op.WritesOutside) : RangedOp.run slotSize m ops = none := by
  induction ops generalizing m with
  | nil =>
    obtain ⟨op, hop, -⟩ := hops
    cases hop
  | cons op ops ih =>
    unfold RangedOp.run
    by_cases hout : op.WritesOutside
    · cases op with
      | addOffsetAndScore offset value =>
        have hle : 2 ^ 32 ≤ offset + 1 := hout
        have hstep : (RangedOp.addOffsetAndScore offset value).step slotSize m = none :=
          if_pos ⟨by omega, hle⟩
        rw [hstep]
        rfl
      | deleteOffset offset => exact absurd hout id
    · obtain ⟨m₁, hstep, h₁, hm₁⟩ := h.step hm hsize op hout
      rw [hstep]
      refine ih h₁ hm₁ ?_
      obtain ⟨op', hop', hout'⟩ := hops
      rcases List.mem_cons.1 hop' with rfl | hmem
      · exact absurd hout' hout
      · exact ⟨op', hmem, hout'⟩

end Inv

variable {slotSize : ℕ}

theorem run_eq_none_iff (hsize : 1 ≤ slotSize) (ops : List (RangedOp R)) :
    RangedOp.run slotSize empty ops = none ↔ ∃ op ∈ ops, op.WritesOutside := by
  have hempty : (empty : RangedMap R).size < 2 ^ 32 := by simp [size, empty]
  refine ⟨fun hrun => ?_, fun hout => inv_empty.run_eq_none hempty hsize hout⟩
  by_contra hout
  push Not at hout
  obtain ⟨m, hm, -⟩ := inv_empty.run hempty hsize hout
  rw [hm] at hrun
  cases hrun

theorem inv_of_run (hsize : 1 ≤ slotSize) {ops : List (RangedOp R)}
    (hrun : RangedOp.run slotSize empty ops = some m) : m.Inv ∧ m.size < 2 ^ 32 := by
  have hempty : (empty : RangedMap R).size < 2 ^ 32 := by simp [size, empty]
  have hin : ∀ op ∈ ops, ¬ op.WritesOutside := by
    intro op hop hout
    rw [(run_eq_none_iff hsize ops).2 ⟨op, hop, hout⟩] at hrun
    cases hrun
  obtain ⟨m', hm', hinv⟩ := inv_empty.run hempty hsize hin
  rw [hrun] at hm'
  obtain rfl := Option.some.inj hm'
  exact hinv

/-- **A ranged map stays in order, and its range queries are exact**, whatever the calls, until one
gives the greatest offset a value and up to the queries whose count wraps. -/
theorem ordered_and_exactRange_iff {slotSize : ℕ} (hsize : 1 ≤ slotSize) (ops : List (RangedOp R)) :
    (RangedOp.run slotSize empty ops = none ↔ ∃ op ∈ ops, op.WritesOutside) ∧
      ∀ m, RangedOp.run slotSize empty ops = some m →
        m.Ordered ∧ ∀ rangeOut lowerThan includeLe greaterThan includeGe,
          m.ExactRange rangeOut lowerThan includeLe greaterThan includeGe ↔
            ¬ m.CountWraps rangeOut lowerThan includeLe greaterThan includeGe := by
  refine ⟨run_eq_none_iff hsize ops, fun m hm => ?_⟩
  obtain ⟨hinv, hlt⟩ := inv_of_run hsize hm
  exact ⟨hinv.ordered, hinv.exactRange_iff hlt⟩

theorem ordered_and_exactRange_of_calls :
    ∃ m, RangedOp.run 1 (empty : RangedMap ℤ) [.addOffsetAndScore 4 3, .addOffsetAndScore 0 3,
        .addOffsetAndScore 2 7, .deleteOffset 4] = some m ∧
      m.Ordered ∧ m.ExactRange true 3 false 3 false := by
  obtain ⟨-, hall⟩ := @ordered_and_exactRange_iff ℤ _ 1 le_rfl
    [.addOffsetAndScore 4 3, .addOffsetAndScore 0 3, .addOffsetAndScore 2 7, .deleteOffset 4]
  have hrun : RangedOp.run 1 (empty : RangedMap ℤ) [.addOffsetAndScore 4 3, .addOffsetAndScore 0 3,
        .addOffsetAndScore 2 7, .deleteOffset 4] =
      some ⟨[some 3, none, some 7, none, none], [⟨3, 7, {0, 2}, [(3, 0), (7, 2)]⟩]⟩ := by decide
  obtain ⟨hordered, hexact⟩ := hall _ hrun
  refine ⟨_, hrun, hordered, (hexact _ _ _ _ _).2 fun hw => ?_⟩
  exact absurd hw.2.2.2.2 (by decide)

/-- The first `n` offsets get the same value. -/
def fill (value : R) (n : ℕ) : List (RangedOp R) :=
  (List.range n).map fun offset => .addOffsetAndScore offset value

theorem run_append {ops ops' : List (RangedOp R)} :
    RangedOp.run slotSize m (ops ++ ops') =
      (RangedOp.run slotSize m ops).bind fun m' => RangedOp.run slotSize m' ops' := by
  induction ops generalizing m with
  | nil => rfl
  | cons op ops ih =>
    show ((op.step slotSize m).bind fun m' => RangedOp.run slotSize m' (ops ++ ops')) =
      ((op.step slotSize m).bind fun m' => RangedOp.run slotSize m' ops).bind _
    cases op.step slotSize m with
    | none => rfl
    | some m₁ => exact ih

/-- The first `n` offsets get values. -/
def fillWith (values : ℕ → R) (n : ℕ) : List (RangedOp R) :=
  (List.range n).map fun offset => .addOffsetAndScore offset (values offset)

theorem run_fillWith (hpos : 1 ≤ slotSize) (values : ℕ → R) {n : ℕ} (hn : n < 2 ^ 32) :
    ∃ m, RangedOp.run slotSize empty (fillWith values n) = some m ∧ m.Inv ∧ m.size = n ∧
      ∀ o, m.valueAt o = if o < n then some (values o) else none := by
  induction n with
  | zero => exact ⟨empty, rfl, inv_empty, rfl, fun o => by simp [valueAt, empty]⟩
  | succ n ih =>
    obtain ⟨m, hrun, hinv, hsize, hvalue⟩ := ih (by omega)
    have hadd : (m.addOffsetAndScore slotSize n (values n)).isSome := by
      rw [← Option.ne_none_iff_isSome, Ne, addOffsetAndScore_eq_none_iff, hvalue]
      simp
    obtain ⟨m', hadd⟩ := Option.isSome_iff_exists.1 hadd
    have hstep : (RangedOp.addOffsetAndScore n (values n)).step slotSize m = some m' := by
      show (if _ then none else _) = _
      rw [if_neg (by omega), hadd]
      rfl
    refine ⟨m', ?_, hinv.addOffsetAndScore hpos hadd, ?_, fun o => ?_⟩
    · unfold fillWith
      rw [List.range_succ, List.map_append, run_append]
      show (RangedOp.run slotSize empty (fillWith values n)).bind _ = _
      rw [hrun]
      show ((RangedOp.addOffsetAndScore n (values n)).step slotSize m).bind _ = _
      rw [hstep]
      rfl
    · rw [size_addOffsetAndScore hadd]
      omega
    · rw [valueAt_addOffsetAndScore hadd, hvalue]
      by_cases ho : o = n
      · rw [if_pos ho, if_pos (by omega), ho]
      · rw [if_neg ho]
        by_cases hlt : o < n
        · rw [if_pos hlt, if_pos (by omega)]
        · rw [if_neg hlt, if_neg (by omega)]

/-- With `2 ^ 31` offsets of one value, what lies outside that value's empty interval is counted
twice, `2 ^ 32` times, and the query finds nothing. -/
theorem exactRange_fails :
    ∃ m, RangedOp.run kRangedMapSlotSize empty (fill (0 : ℤ) (2 ^ 31)) = some m ∧
      m.valueAt 0 = some 0 ∧ ¬ m.ExactRange true 0 false 0 false := by
  have hfill : ∀ n < 2 ^ 32, n + n = 2 ^ 32 → ∃ m, RangedOp.run kRangedMapSlotSize empty
      (fill (0 : ℤ) n) = some m ∧ m.valueAt 0 = some 0 ∧ ¬ m.ExactRange true 0 false 0 false := by
    intro n hn hwrap
    obtain ⟨m, hrun, hinv, hsize, hvalue⟩ :=
      run_fillWith (show 1 ≤ kRangedMapSlotSize by decide) (fun _ => (0 : ℤ)) hn
    have hvalued : m.valued = Finset.range n := by
      unfold valued
      rw [hsize]
      refine Finset.filter_true_of_mem fun o ho => ?_
      rw [hvalue, if_pos (Finset.mem_range.1 ho)]
      rfl
    have hvaluedAt : m.valuedAt 0 = Finset.range n := by
      unfold valuedAt
      rw [hsize]
      refine Finset.filter_true_of_mem fun o ho => ?_
      rw [hvalue, if_pos (Finset.mem_range.1 ho)]
    refine ⟨m, hrun, by rw [hvalue, if_pos (by omega)], fun hexact => ?_⟩
    refine (hinv.exactRange_iff (by omega) _ _ _ _ _).1 hexact ⟨rfl, rfl, rfl, rfl, ?_⟩
    rw [hvalued, hvaluedAt, Finset.card_range]
    exact hwrap
  exact hfill (2 ^ 31) (by norm_num) (by norm_num)

end RangedMap

end OpenViking.VectorDB
