import OpenViking.VectorDB.RangedQueries

/-!
# Two cursors from a centre

The query for the rows nearest to a centre (`get_topk_result_with_slot_data_center1d`,
`ranged_map.cpp`, 292-402): one cursor goes to the left and one to the right, from slot to slot.

Every read of `slots_` and of a slot's vectors is checked, and `none` stands for one out of bounds.
The scores, narrowed to `float` in the answer, are the values here.

Results:

* `RangedMap.At`: a cursor at an entry, with what a step to the left and to the right does;
* `RangedMap.betweenLoop_spec`, `RangedMap.outwardsLoop_spec`: what the two loops take.
-/

namespace OpenViking.VectorDB

variable {R : Type} [LinearOrder R]

namespace RangedMap

/-! ## Model -/

/-- Whether an `offset_filter_t`, which says what to leave out, lets an offset pass; `none` for no
filter. -/
def passes (filter : Option (ℕ → Bool)) (offset : ℕ) : Bool :=
  match filter with
  | none => true
  | some leaveOut => !leaveOut offset

/-- A place in the slots: the indices `slot_l` and `offset_l`, or `slot_r` and `offset_r`. -/
structure Cursor where
  slot : ℤ
  offset : ℤ
  deriving DecidableEq

/-- `slots_[i]`; `none` outside of the bounds. -/
def slotGet (m : RangedMap R) (i : ℤ) : Option (SlotMeta R) :=
  if i < 0 then none else m.slots[i.toNat]?

/-- The entry at a cursor; `none` where an index is out of bounds. -/
def entryAt (m : RangedMap R) (c : Cursor) : Option (R × ℕ) :=
  (m.slotGet c.slot).bind fun s => if c.offset < 0 then none else s.vec[c.offset.toNat]?

/-- `if (--offset_l == -1 && --slot_l != -1) offset_l = size - 1`. -/
def stepLeft (m : RangedMap R) (c : Cursor) : Option Cursor :=
  if c.offset - 1 ≠ -1 then some ⟨c.slot, c.offset - 1⟩
  else if c.slot - 1 = -1 then some ⟨-1, -1⟩
  else (m.slotGet (c.slot - 1)).map fun s => ⟨c.slot - 1, s.vec.length - 1⟩

/-- `if (++offset_r == size) slot_r++, offset_r = 0`. -/
def stepRight (m : RangedMap R) (c : Cursor) : Option Cursor :=
  (m.slotGet c.slot).map fun s =>
    if c.offset + 1 = s.vec.length then ⟨c.slot + 1, 0⟩ else ⟨c.slot, c.offset + 1⟩

/-- The cursors at the lower and at the upper bound of the centre (`ranged_map.cpp`, 305-332). -/
def centerCursors (m : RangedMap R) (center1d : R) : Option (Cursor × Cursor) :=
  (m.entryAt ⟨0, 0⟩).bind fun first =>
  (m.slots.getLast?.bind fun s => s.vec.getLast?).bind fun last =>
    if center1d < first.1 then some (⟨-1, 0⟩, ⟨0, 0⟩)
    else if last.1 < center1d then some (⟨m.slots.length, 0⟩, ⟨m.slots.length, 0⟩)
    else
      let slotL := m.slots.findIdx fun s => s.vec.getLast?.any (center1d ≤ ·.1)
      let slotR := m.slots.length -
        m.slots.reverse.findIdx fun s => s.vec.getLast?.any (·.1 ≤ center1d)
      (m.slotGet slotL).bind fun l => (m.slotGet slotR).map fun r =>
        (⟨slotL, lowerBound l.vec center1d⟩, ⟨slotR, upperBound r.vec center1d⟩)

/-- The loop over the entries from a cursor up to another (335-345).  `none` where an index is out
of bounds, or when the fuel ends. -/
def betweenLoop (m : RangedMap R) (filter : Option (ℕ → Bool)) (topk : ℕ) (to_ : Cursor) :
    ℕ → Cursor → List (R × ℕ) → Option (List (R × ℕ))
  | 0, _, _ => none
  | fuel + 1, c, out =>
    if (c.slot < to_.slot ∨ (c.slot = to_.slot ∧ c.offset < to_.offset)) ∧ out.length < topk then
      (m.entryAt c).bind fun e => (m.stepRight c).bind fun c' =>
        betweenLoop m filter topk to_ fuel c' (if passes filter e.2 then out ++ [e] else out)
    else some out

/-- The left cursor moved on to an entry that passes, or to `-1`. -/
def skipLeft (m : RangedMap R) (filter : Option (ℕ → Bool)) : ℕ → Cursor → Option Cursor
  | 0, _ => none
  | fuel + 1, c =>
    if c.slot = -1 then some c
    else (m.entryAt c).bind fun e =>
      if passes filter e.2 then some c
      else (m.stepLeft c).bind fun c' => skipLeft m filter fuel c'

/-- The right cursor moved on to an entry that passes, or past the last slot. -/
def skipRight (m : RangedMap R) (filter : Option (ℕ → Bool)) : ℕ → Cursor → Option Cursor
  | 0, _ => none
  | fuel + 1, c =>
    if c.slot = m.slots.length then some c
    else (m.entryAt c).bind fun e =>
      if passes filter e.2 then some c
      else (m.stepRight c).bind fun c' => skipRight m filter fuel c'

section Distance

variable {D : Type} [LinearOrder D] (distance : R → R → D)

/-- The loop outwards from both cursors (352-394). -/
def outwardsLoop (m : RangedMap R) (center1d : R) (filter : Option (ℕ → Bool)) (topk : ℕ) :
    ℕ → Cursor → Cursor → List (R × ℕ) → Option (List (R × ℕ))
  | 0, _, _, _ => none
  | fuel + 1, l, r, out =>
    if out.length < topk ∧ (l.slot ≠ -1 ∨ r.slot ≠ m.slots.length) then
      (m.skipLeft filter (fuel + 1) l).bind fun l =>
      (m.skipRight filter (fuel + 1) r).bind fun r =>
      if l.slot = -1 ∧ r.slot = m.slots.length then some out
      else if l.slot ≠ -1 ∧ r.slot ≠ m.slots.length then
        (m.entryAt l).bind fun el => (m.entryAt r).bind fun er =>
        if distance center1d el.1 ≤ distance center1d er.1 then
          (m.stepLeft l).bind fun l' => outwardsLoop m center1d filter topk fuel l' r (out ++ [el])
        else
          (m.stepRight r).bind fun r' => outwardsLoop m center1d filter topk fuel l r' (out ++ [er])
      else if l.slot ≠ -1 then
        (m.entryAt l).bind fun el =>
          (m.stepLeft l).bind fun l' => outwardsLoop m center1d filter topk fuel l' r (out ++ [el])
      else
        (m.entryAt r).bind fun er =>
          (m.stepRight r).bind fun r' => outwardsLoop m center1d filter topk fuel l r' (out ++ [er])
    else some out

/-- `get_topk_result_with_slot_data_center1d` (292-402): the entries in the order of the answer.
`distance` is `std::abs` of the difference in `double`.  Each loop gets as much fuel as there are
entries, and one more.  `none` where an index is out of bounds, or when a loop does not end. -/
def getTopkResultCenter1d (m : RangedMap R) (topk : ℕ) (center1d : R)
    (filter : Option (ℕ → Bool)) : Option (List (R × ℕ)) :=
  if m.slots = [] then some []
  else
    let fuel := (m.slots.map fun s => s.vec.length).sum + 1
    (m.centerCursors center1d).bind fun cursors =>
    if cursors.1.slot ≠ -1 then
      (m.betweenLoop filter topk cursors.2 fuel cursors.1 []).bind fun out =>
      (m.stepLeft cursors.1).bind fun l =>
      m.outwardsLoop distance center1d filter topk fuel l cursors.2 out
    else m.outwardsLoop distance center1d filter topk fuel cursors.1 cursors.2 []

end Distance

/-! ## Cursors -/

/-- A cursor is at an entry of the map, counted from the first; or at `-1`, or past the last. -/
inductive At (m : RangedMap R) : Cursor → ℤ → Prop
  | front (offset : ℤ) : At m ⟨-1, offset⟩ (-1)
  | inside {k j : ℕ} {s : SlotMeta R} (hs : m.slots[k]? = some s) (hj : j < s.vec.length) :
    At m ⟨k, j⟩ (((m.slots.take k).flatMap SlotMeta.vec).length + j)
  | back : At m ⟨m.slots.length, 0⟩ m.pairs.length

section

variable {m : RangedMap R} {c : Cursor} {p : ℤ}

omit [LinearOrder R]

theorem pairs_eq {k : ℕ} {s : SlotMeta R} (hs : m.slots[k]? = some s) :
    m.pairs = (m.slots.take k).flatMap SlotMeta.vec ++
      (s.vec ++ (m.slots.drop (k + 1)).flatMap SlotMeta.vec) := by
  unfold pairs
  conv_lhs => rw [eq_take_append_drop hs]
  rw [List.flatMap_append, List.flatMap_cons]

theorem length_take_succ {k : ℕ} {s : SlotMeta R} (hs : m.slots[k]? = some s) :
    ((m.slots.take (k + 1)).flatMap SlotMeta.vec).length =
      ((m.slots.take k).flatMap SlotMeta.vec).length + s.vec.length := by
  rw [List.take_add_one, hs, List.flatMap_append, List.length_append]
  simp

theorem slotGet_natCast (m : RangedMap R) (k : ℕ) : m.slotGet k = m.slots[k]? := by
  unfold slotGet
  rw [if_neg (by omega), Int.toNat_natCast]

namespace At

theorem inside_of {k : ℕ} {s : SlotMeta R} {o q : ℤ} (hs : m.slots[k]? = some s) (ho : 0 ≤ o)
    (hlt : o < s.vec.length) (hq : q = ((m.slots.take k).flatMap SlotMeta.vec).length + o) :
    m.At ⟨k, o⟩ q := by
  obtain ⟨j, rfl⟩ := Int.eq_ofNat_of_zero_le ho
  rw [hq]
  exact inside hs (by omega)

theorem bounds (h : m.At c p) : -1 ≤ p ∧ p ≤ m.pairs.length := by
  cases h with
  | front => omega
  | inside hs hj =>
    have hlen := congrArg List.length (pairs_eq hs)
    simp only [List.length_append] at hlen
    omega
  | back => omega

theorem slot_eq_neg_one_iff (h : m.At c p) : c.slot = -1 ↔ p = -1 := by
  cases h with
  | front => simp
  | inside hs hj => 
    show ((_ : ℕ) : ℤ) = -1 ↔ _
    omega
  | back => 
    show ((_ : ℕ) : ℤ) = -1 ↔ _
    omega

theorem slot_eq_length_iff (h : m.At c p) : c.slot = m.slots.length ↔ p = m.pairs.length := by
  cases h with
  | front => 
    show (-1 : ℤ) = _ ↔ _
    omega
  | @inside k j s hs hj =>
    have hlen := congrArg List.length (pairs_eq hs)
    have hk := (List.getElem?_eq_some_iff.1 hs).1
    simp only [List.length_append] at hlen
    show (k : ℤ) = _ ↔ _
    omega
  | back => simp

theorem entryAt (h : m.At c p) (hp : 0 ≤ p) (hlt : p < m.pairs.length) :
    m.entryAt c = m.pairs[p.toNat]? := by
  cases h with
  | front => omega
  | @inside k j s hs hj =>
    have hindex : (((m.slots.take k).flatMap SlotMeta.vec).length + j : ℤ).toNat =
        ((m.slots.take k).flatMap SlotMeta.vec).length + j := by omega
    show ((m.slotGet (k : ℤ)).bind fun s => if (j : ℤ) < 0 then none else s.vec[(j : ℤ).toNat]?) = _
    rw [slotGet_natCast, hs, Option.bind_some, if_neg (by omega), hindex, pairs_eq hs,
      List.getElem?_append_right (by omega), Nat.add_sub_cancel_left,
      List.getElem?_append_left hj, Int.toNat_natCast]
  | back => omega

/-- A step to the right goes to the next entry. -/
theorem stepRight (hfull : ∀ s ∈ m.slots, s.vec ≠ []) (h : m.At c p) (hp : 0 ≤ p)
    (hlt : p < m.pairs.length) : ∃ c', m.stepRight c = some c' ∧ m.At c' (p + 1) := by
  cases h with
  | front => omega
  | @inside k j s hs hj =>
    unfold RangedMap.stepRight
    rw [slotGet_natCast, hs]
    refine ⟨_, rfl, ?_⟩
    show m.At (if (j : ℤ) + 1 = s.vec.length then ⟨(k : ℤ) + 1, 0⟩ else ⟨k, (j : ℤ) + 1⟩) _
    by_cases hend : (j : ℤ) + 1 = s.vec.length
    · rw [if_pos hend, show (((m.slots.take k).flatMap SlotMeta.vec).length : ℤ) + j + 1 =
        ((m.slots.take (k + 1)).flatMap SlotMeta.vec).length by rw [length_take_succ hs]; omega]
      by_cases hlast : k + 1 = m.slots.length
      · have hback := At.back (m := m)
        rw [← hlast] at hback
        have hall : (m.slots.take (k + 1)).flatMap SlotMeta.vec = m.pairs := by
          rw [hlast, List.take_length]
          rfl
        rw [hall]
        exact hback
      · have hk := (List.getElem?_eq_some_iff.1 hs).1
        have hnext : m.slots[(k + 1 : ℕ)]? = some m.slots[k + 1] := List.getElem?_eq_getElem (by omega)
        have hpos := List.length_pos_iff.2 (hfull _ (List.mem_of_getElem? hnext))
        rw [show (k : ℤ) + 1 = ((k + 1 : ℕ) : ℤ) by omega]
        exact At.inside_of hnext le_rfl (by omega) (by omega)
    · rw [if_neg hend]
      exact At.inside_of hs (by omega) (by omega) (by omega)
  | back => omega

/-- A step to the left goes to the entry before. -/
theorem stepLeft (hfull : ∀ s ∈ m.slots, s.vec ≠ []) (hne : m.slots ≠ []) (h : m.At c p)
    (hp : 0 ≤ p) : ∃ c', m.stepLeft c = some c' ∧ m.At c' (p - 1) := by
  have hlast : ∀ {k : ℕ}, 0 < k → k ≤ m.slots.length →
      ∃ s, m.slotGet ((k : ℤ) - 1) = some s ∧
        m.At ⟨(k : ℤ) - 1, (s.vec.length : ℤ) - 1⟩
          (((m.slots.take k).flatMap SlotMeta.vec).length - 1) := by
    intro k hk hkle
    obtain ⟨i, rfl⟩ : ∃ i, k = i + 1 := ⟨k - 1, by omega⟩
    have hs : m.slots[i]? = some m.slots[i] := List.getElem?_eq_getElem (by omega)
    have hpos := List.length_pos_iff.2 (hfull _ (List.mem_of_getElem? hs))
    refine ⟨m.slots[i], ?_, ?_⟩
    · rw [show ((i + 1 : ℕ) : ℤ) - 1 = (i : ℕ) by omega, slotGet_natCast, hs]
    · rw [show ((i + 1 : ℕ) : ℤ) - 1 = (i : ℕ) by omega, length_take_succ hs]
      exact At.inside_of hs (by omega) (by omega) (by omega)
  unfold RangedMap.stepLeft
  cases h with
  | front => omega
  | @inside k j s hs hj =>
    have hk := (List.getElem?_eq_some_iff.1 hs).1
    by_cases hj0 : (j : ℤ) - 1 ≠ -1
    · rw [if_pos hj0]
      exact ⟨⟨k, (j : ℤ) - 1⟩, rfl, At.inside_of hs (by omega) (by omega) (by omega)⟩
    · obtain rfl : j = 0 := by omega
      rw [if_neg hj0]
      by_cases hk0 : (k : ℤ) - 1 = -1
      · rw [if_pos hk0]
        obtain rfl : k = 0 := by omega
        exact ⟨_, rfl, by simpa using At.front (m := m) (-1)⟩
      · rw [if_neg hk0]
        obtain ⟨s', hs', hat⟩ := hlast (k := k) (by omega) (by omega)
        show ∃ c', Option.map _ (m.slotGet ((k : ℤ) - 1)) = _ ∧ _
        rw [hs']
        exact ⟨_, rfl, by simpa using hat⟩
  | back =>
    have hpos := List.length_pos_iff.2 hne
    rw [if_neg (by simp), if_neg (by show ¬ (m.slots.length : ℤ) - 1 = -1; omega)]
    obtain ⟨s', hs', hat⟩ := hlast (k := m.slots.length) hpos le_rfl
    show ∃ c', Option.map _ (m.slotGet ((m.slots.length : ℤ) - 1)) = _ ∧ _
    rw [hs']
    refine ⟨_, rfl, ?_⟩
    rw [List.take_length] at hat
    exact hat

variable {c' : Cursor}

theorem lt_of_before (h : m.At c p) {p' : ℤ} (h' : m.At c' p') (hp : 0 ≤ p) (hp' : 0 ≤ p')
    (hlt : c.slot < c'.slot ∨ (c.slot = c'.slot ∧ c.offset < c'.offset)) : p < p' := by
  cases h with
  | front => omega
  | @inside k j s hs hj =>
    have hk := (List.getElem?_eq_some_iff.1 hs).1
    cases h' with
    | front => omega
    | @inside k' j' s' hs' hj' =>
      rcases hlt with hlt | ⟨heq, hlt⟩
      · have hkk : (k : ℤ) < k' := hlt
        obtain ⟨d, rfl⟩ : ∃ d, k' = k + 1 + d := ⟨k' - (k + 1), by omega⟩
        rw [List.take_add, List.flatMap_append, List.length_append, length_take_succ hs]
        omega
      · have hkk : (k : ℤ) = k' := heq
        have hjj : (j : ℤ) < j' := hlt
        obtain rfl : k = k' := by omega
        omega
    | back =>
      have hlen := congrArg List.length (pairs_eq hs)
      simp only [List.length_append] at hlen
      omega
  | back =>
    have hnot : ¬ ((m.slots.length : ℤ) < c'.slot ∨
        ((m.slots.length : ℤ) = c'.slot ∧ (0 : ℤ) < c'.offset)) := by
      cases h' with
      | front => omega
      | @inside k' j' s' hs' hj' =>
        have hk' := (List.getElem?_eq_some_iff.1 hs').1
        show ¬ ((m.slots.length : ℤ) < (k' : ℤ) ∨ ((m.slots.length : ℤ) = (k' : ℤ) ∧ _))
        omega
      | back => simp
    exact absurd hlt hnot

theorem eq_of_same (h : m.At c p) {p' : ℤ} (h' : m.At c' p') (hp : 0 ≤ p)
    (hp' : 0 ≤ p') (hslot : c.slot = c'.slot) (hoffset : c.offset = c'.offset) : p = p' := by
  cases h with
  | front => omega
  | @inside k j s hs hj =>
    have hk := (List.getElem?_eq_some_iff.1 hs).1
    cases h' with
    | front => omega
    | @inside k' j' s' hs' hj' =>
      have hkk : (k : ℤ) = k' := hslot
      have hjj : (j : ℤ) = j' := hoffset
      obtain rfl : k = k' := by omega
      omega
    | back =>
      have hkk : (k : ℤ) = m.slots.length := hslot
      omega
  | back =>
    cases h' with
    | front => omega
    | @inside k' j' s' hs' hj' =>
      have hk' := (List.getElem?_eq_some_iff.1 hs').1
      have hkk : (m.slots.length : ℤ) = k' := hslot
      omega
    | back => rfl

/-- Cursors are in the order of their entries. -/
theorem before_iff (h : m.At c p) {p' : ℤ} (h' : m.At c' p') (hp : 0 ≤ p) (hp' : 0 ≤ p') :
    (c.slot < c'.slot ∨ (c.slot = c'.slot ∧ c.offset < c'.offset)) ↔ p < p' := by
  refine ⟨h.lt_of_before h' hp hp', fun hlt => ?_⟩
  by_contra hnot
  have hcases : (c'.slot < c.slot ∨ (c'.slot = c.slot ∧ c'.offset < c.offset)) ∨
      (c.slot = c'.slot ∧ c.offset = c'.offset) := by omega
  rcases hcases with hgt | ⟨hslot, hoffset⟩
  · have := h'.lt_of_before h hp' hp hgt
    omega
  · have := h.eq_of_same h' hp hp' hslot hoffset
    omega

end At

/-! ## Loops -/

/-- The entries from a left cursor on towards the first. -/
def LeftOf (m : RangedMap R) (c : Cursor) (front : List (R × ℕ)) : Prop :=
  ∃ p, m.At c p ∧ p < m.pairs.length ∧ front = (m.pairs.take (p + 1).toNat).reverse

/-- The entries from a right cursor on towards the last. -/
def RightOf (m : RangedMap R) (c : Cursor) (back : List (R × ℕ)) : Prop :=
  ∃ p, m.At c p ∧ 0 ≤ p ∧ back = m.pairs.drop p.toNat

variable {front back between : List (R × ℕ)} {e : R × ℕ}

namespace LeftOf

theorem slot_iff (h : m.LeftOf c front) : c.slot = -1 ↔ front = [] := by
  obtain ⟨p, hat, hlt, rfl⟩ := h
  have hb := hat.bounds
  rw [hat.slot_eq_neg_one_iff, List.reverse_eq_nil_iff, List.take_eq_nil_iff]
  refine ⟨fun hp => .inl (by omega), fun hp => ?_⟩
  rcases hp with hp | hp
  · omega
  · rw [hp] at hlt
    simp at hlt
    omega

theorem cons (hfull : ∀ s ∈ m.slots, s.vec ≠ []) (hne : m.slots ≠ []) (h : m.LeftOf c (e :: front)) :
    m.entryAt c = some e ∧ ∃ c', m.stepLeft c = some c' ∧ m.LeftOf c' front := by
  obtain ⟨p, hat, hlt, heq⟩ := h
  have hb := hat.bounds
  have hp : 0 ≤ p := by
    by_contra hneg
    rw [show (p + 1).toNat = 0 by omega] at heq
    simp at heq
  obtain ⟨n, rfl⟩ := Int.eq_ofNat_of_zero_le hp
  have hn : n < m.pairs.length := by omega
  rw [show ((n : ℤ) + 1).toNat = n + 1 by omega, List.take_add_one, List.getElem?_eq_getElem hn,
    Option.toList_some, List.reverse_append, List.reverse_singleton, List.singleton_append,
    List.cons.injEq] at heq
  refine ⟨?_, ?_⟩
  · rw [hat.entryAt hp hlt, Int.toNat_natCast, List.getElem?_eq_getElem hn, heq.1]
  · obtain ⟨c', hstep, hat'⟩ := hat.stepLeft hfull hne hp
    refine ⟨c', hstep, (n : ℤ) - 1, hat', by omega, ?_⟩
    rw [heq.2, show ((n : ℤ) - 1 + 1).toNat = n by omega]

end LeftOf

namespace RightOf

theorem length (h : m.RightOf c back) : ∃ p, m.At c p ∧ 0 ≤ p ∧ back.length = m.pairs.length - p := by
  obtain ⟨p, hat, hp, rfl⟩ := h
  have hb := hat.bounds
  refine ⟨p, hat, hp, ?_⟩
  rw [List.length_drop]
  omega

theorem slot_iff (h : m.RightOf c back) : c.slot = m.slots.length ↔ back = [] := by
  obtain ⟨p, hat, hp, rfl⟩ := h
  have hb := hat.bounds
  rw [hat.slot_eq_length_iff, List.drop_eq_nil_iff]
  omega

theorem cons (hfull : ∀ s ∈ m.slots, s.vec ≠ []) (h : m.RightOf c (e :: back)) :
    m.entryAt c = some e ∧ ∃ c', m.stepRight c = some c' ∧ m.RightOf c' back := by
  obtain ⟨p, hat, hp, heq⟩ := h
  obtain ⟨n, rfl⟩ := Int.eq_ofNat_of_zero_le hp
  rw [Int.toNat_natCast] at heq
  have hn : n < m.pairs.length := by
    by_contra hge
    rw [List.drop_eq_nil_of_le (by omega)] at heq
    cases heq
  rw [List.drop_eq_getElem_cons hn, List.cons.injEq] at heq
  refine ⟨?_, ?_⟩
  · rw [hat.entryAt hp (by omega), Int.toNat_natCast, List.getElem?_eq_getElem hn, heq.1]
  · obtain ⟨c', hstep, hat'⟩ := hat.stepRight hfull hp (by omega)
    refine ⟨c', hstep, (n : ℤ) + 1, hat', by omega, ?_⟩
    rw [heq.2, show ((n : ℤ) + 1).toNat = n + 1 by omega]

/-- A step to the left from the first entry of the right side goes to the left side. -/
theorem stepLeft (hfull : ∀ s ∈ m.slots, s.vec ≠ []) (hne : m.slots ≠ [])
    (h : m.RightOf c back) (hsplit : m.pairs = front ++ back) :
    ∃ c', m.stepLeft c = some c' ∧ m.LeftOf c' front.reverse := by
  obtain ⟨p, hat, hp, hlen⟩ := h.length
  obtain ⟨c', hstep, hat'⟩ := hat.stepLeft hfull hne hp
  have hb := hat.bounds
  have htotal := congrArg List.length hsplit
  rw [List.length_append] at htotal
  refine ⟨c', hstep, p - 1, hat', by omega, ?_⟩
  rw [hsplit, List.take_left' (by omega)]

end RightOf

variable {fuel : ℕ}

section

variable (hfull : ∀ s ∈ m.slots, s.vec ≠ [])

include hfull

/-- The entries between two cursors are taken, as many as pass and have room. -/
theorem betweenLoop_spec {filter : Option (ℕ → Bool)} {topk : ℕ}
    {to_ : Cursor} (hto : m.RightOf to_ back) {out : List (R × ℕ)}
    (hfuel : between.length < fuel) (hc : m.RightOf c (between ++ back)) (hout : out.length ≤ topk) :
    m.betweenLoop filter topk to_ fuel c out =
      some (out ++ (between.filter fun e => passes filter e.2).take (topk - out.length)) := by
  induction fuel generalizing c between out with
  | zero => omega
  | succ fuel ih =>
    obtain ⟨p, hat, hp, hlen⟩ := hc.length
    obtain ⟨p', hat', hp', hlen'⟩ := hto.length
    have hbefore := hat.before_iff hat' hp hp'
    rw [List.length_append] at hlen
    unfold betweenLoop
    cases between with
    | nil =>
      rw [List.length_nil] at hlen
      rw [if_neg fun hn => absurd (hbefore.1 hn.1) (by omega)]
      simp
    | cons e between =>
      rw [List.length_cons] at hlen hfuel
      by_cases hroom : out.length < topk
      · obtain ⟨hentry, c', hstep, hc'⟩ := hc.cons hfull
        rw [if_pos ⟨hbefore.2 (by omega), hroom⟩, hentry, Option.bind_some, hstep, Option.bind_some]
        by_cases hpass : passes filter e.2 = true
        · rw [if_pos hpass, ih (by omega) hc' (by rw [List.length_append]; simp; omega),
            List.filter_cons, if_pos hpass, List.length_append, List.length_singleton,
            show topk - out.length = (topk - (out.length + 1)) + 1 by omega, List.take_succ_cons,
            List.append_assoc]
          rfl
        · rw [if_neg hpass, ih (by omega) hc' hout, List.filter_cons, if_neg hpass]
      · rw [if_neg fun hn => hroom hn.2, show topk - out.length = 0 by omega]
        simp

theorem skipLeft_spec (hne : m.slots ≠ [])
    (filter : Option (ℕ → Bool)) (hfuel : front.length < fuel) (h : m.LeftOf c front) :
    ∃ c', m.skipLeft filter fuel c = some c' ∧
      m.LeftOf c' (front.dropWhile fun e => !passes filter e.2) := by
  induction fuel generalizing c front with
  | zero => omega
  | succ fuel ih =>
    unfold skipLeft
    cases front with
    | nil =>
      rw [if_pos (h.slot_iff.2 rfl)]
      exact ⟨c, rfl, h⟩
    | cons e front =>
      obtain ⟨hentry, c', hstep, hc'⟩ := h.cons hfull hne
      rw [if_neg fun hslot => by simpa using h.slot_iff.1 hslot, hentry, Option.bind_some]
      by_cases hpass : passes filter e.2 = true
      · rw [if_pos hpass, List.dropWhile_cons_of_neg (by simp [hpass])]
        exact ⟨c, rfl, h⟩
      · rw [if_neg hpass, hstep, Option.bind_some, List.dropWhile_cons_of_pos (by simp [hpass])]
        exact ih (by rw [List.length_cons] at hfuel; omega) hc'

theorem skipRight_spec (filter : Option (ℕ → Bool)) (hfuel : back.length < fuel) (h : m.RightOf c back) :
    ∃ c', m.skipRight filter fuel c = some c' ∧
      m.RightOf c' (back.dropWhile fun e => !passes filter e.2) := by
  induction fuel generalizing c back with
  | zero => omega
  | succ fuel ih =>
    unfold skipRight
    cases back with
    | nil =>
      rw [if_pos (h.slot_iff.2 rfl)]
      exact ⟨c, rfl, h⟩
    | cons e back =>
      obtain ⟨hentry, c', hstep, hc'⟩ := h.cons hfull
      rw [if_neg fun hslot => by simpa using h.slot_iff.1 hslot, hentry, Option.bind_some]
      by_cases hpass : passes filter e.2 = true
      · rw [if_pos hpass, List.dropWhile_cons_of_neg (by simp [hpass])]
        exact ⟨c, rfl, h⟩
      · rw [if_neg hpass, hstep, Option.bind_some, List.dropWhile_cons_of_pos (by simp [hpass])]
        exact ih (by rw [List.length_cons] at hfuel; omega) hc'

end

end

section Distance

variable {D : Type} [LinearOrder D] {distance : R → R → D} {m : RangedMap R} {front back : List (R × ℕ)}

theorem filter_dropWhile {α : Type} (pass : α → Bool) (l : List α) :
    (l.dropWhile fun e => !pass e).filter pass = l.filter pass := by
  induction l with
  | nil => rfl
  | cons a l ih =>
    by_cases hpass : pass a = true
    · rw [List.dropWhile_cons_of_neg (by simp [hpass])]
    · rw [List.dropWhile_cons_of_pos (by simp [hpass]), ih, List.filter_cons, if_neg hpass]

theorem pass_of_dropWhile {α : Type} {pass : α → Bool} {l t : List α} {a : α}
    (h : (l.dropWhile fun e => !pass e) = a :: t) : pass a = true := by
  have hhead := List.head?_dropWhile_not (fun e => !pass e) l
  rw [h] at hhead
  simpa using hhead

/-- What the loop outwards takes: of both sides the nearer one first. -/
def outwards (distance : R → R → D) (center1d : R) (front back : List (R × ℕ)) : List (R × ℕ) :=
  front.merge back fun a b => distance center1d a.1 ≤ distance center1d b.1

theorem outwardsLoop_spec (hfull : ∀ s ∈ m.slots, s.vec ≠ []) (hne : m.slots ≠ []) {center1d : R}
    {filter : Option (ℕ → Bool)} {topk fuel : ℕ} {l r : Cursor} {out : List (R × ℕ)}
    (hfuel : front.length + back.length < fuel) (hl : m.LeftOf l front) (hr : m.RightOf r back) :
    m.outwardsLoop distance center1d filter topk fuel l r out =
      some (out ++ (outwards distance center1d (front.filter fun e => passes filter e.2)
        (back.filter fun e => passes filter e.2)).take (topk - out.length)) := by
  induction fuel generalizing l r front back out with
  | zero => omega
  | succ fuel ih =>
    unfold outwardsLoop
    by_cases hroom : out.length < topk
    · by_cases hend : front = [] ∧ back = []
      · rw [if_neg fun hn => hn.2.elim (fun hs => hs (hl.slot_iff.2 hend.1))
          fun hs => hs (hr.slot_iff.2 hend.2), hend.1, hend.2]
        simp [outwards]
      · rw [if_pos ⟨hroom, by rw [Ne, Ne, hl.slot_iff, hr.slot_iff]; tauto⟩]
        obtain ⟨l', hskipL, hl'⟩ := skipLeft_spec hfull hne filter
          (show front.length < fuel + 1 by omega) hl
        obtain ⟨r', hskipR, hr'⟩ := skipRight_spec hfull filter
          (show back.length < fuel + 1 by omega) hr
        rw [hskipL, Option.bind_some, hskipR, Option.bind_some,
          ← filter_dropWhile (fun e => passes filter e.2) front,
          ← filter_dropWhile (fun e => passes filter e.2) back]
        have hlenF := (List.dropWhile_suffix (l := front) fun e => !passes filter e.2).length_le
        have hlenB := (List.dropWhile_suffix (l := back) fun e => !passes filter e.2).length_le
        have hroom' : topk - out.length = (topk - (out.length + 1)) + 1 := by omega
        have htake : ∀ (e : R × ℕ) (t : List (R × ℕ)), passes filter e.2 = true →
            (e :: t).filter (fun e => passes filter e.2) =
              e :: t.filter fun e => passes filter e.2 :=
          fun e t hpass => by rw [List.filter_cons, if_pos hpass]
        cases hF : front.dropWhile fun e => !passes filter e.2 with
        | nil =>
          rw [hF] at hl'
          cases hB : back.dropWhile fun e => !passes filter e.2 with
          | nil =>
            rw [hB] at hr'
            rw [if_pos ⟨hl'.slot_iff.2 rfl, hr'.slot_iff.2 rfl⟩]
            simp [outwards]
          | cons er back' =>
            rw [hB] at hr' hlenB
            have hpass := pass_of_dropWhile hB
            obtain ⟨hentry, r'', hstep, hr''⟩ := hr'.cons hfull
            have hslotL := hl'.slot_iff.2 rfl
            have hslotR : r'.slot ≠ m.slots.length := fun hs => by simpa using hr'.slot_iff.1 hs
            rw [if_neg fun hn => hslotR hn.2, if_neg fun hn => hn.1 hslotL, if_neg fun hn => hn hslotL,
              hentry, Option.bind_some, hstep, Option.bind_some,
              ih (by simp at hlenB ⊢; omega) hl' hr'', hroom', htake er back' hpass]
            simp [outwards]
        | cons el front' =>
          rw [hF] at hl' hlenF
          have hpass := pass_of_dropWhile hF
          obtain ⟨hentry, l'', hstep, hl''⟩ := hl'.cons hfull hne
          have hslotL : l'.slot ≠ -1 := fun hs => by simpa using hl'.slot_iff.1 hs
          cases hB : back.dropWhile fun e => !passes filter e.2 with
          | nil =>
            rw [hB] at hr'
            have hslotR := hr'.slot_iff.2 rfl
            rw [if_neg fun hn => hslotL hn.1, if_neg fun hn => hn.2 hslotR, if_pos hslotL, hentry,
              Option.bind_some, hstep, Option.bind_some, ih (by simp at hlenF ⊢; omega) hl'' hr',
              hroom', htake el front' hpass]
            simp [outwards]
          | cons er back' =>
            rw [hB] at hr' hlenB
            have hpassR := pass_of_dropWhile hB
            obtain ⟨hentryR, r'', hstepR, hr''⟩ := hr'.cons hfull
            have hslotR : r'.slot ≠ m.slots.length := fun hs => by simpa using hr'.slot_iff.1 hs
            rw [if_neg fun hn => hslotL hn.1, if_pos ⟨hslotL, hslotR⟩, hentry, Option.bind_some,
              hentryR, Option.bind_some]
            by_cases hnear : distance center1d el.1 ≤ distance center1d er.1
            · rw [if_pos hnear, hstep, Option.bind_some, ih (by simp at hlenF hlenB ⊢; omega) hl'' hr',
                hroom', htake el front' hpass, htake er back' hpassR]
              simp [outwards, hnear]
            · rw [if_neg hnear, hstepR, Option.bind_some, ih (by simp at hlenF hlenB ⊢; omega) hl' hr'',
                hroom', htake el front' hpass, htake er back' hpassR]
              simp [outwards, hnear]
    · rw [if_neg fun hn => hroom hn.1, show topk - out.length = 0 by omega]
      simp

end Distance

end RangedMap

end OpenViking.VectorDB
