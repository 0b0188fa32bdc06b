import OpenViking.Common.SortedMap
import OpenViking.VectorDB.RangedMap
import Mathlib.Data.List.Nodup
import Mathlib.Data.List.TakeWhile

/-!
# The order of a ranged map

Results:

* `RangedMap.Inv.addOffsetAndScore`, `RangedMap.Inv.deleteOffset`: the slots stay sorted, disjoint
  and in agreement with `offset_to_value_`;
* `RangedMap.valueAt_addOffsetAndScore`, `RangedMap.Inv.valueAt_deleteOffset`: the values afterwards.
-/

namespace OpenViking.VectorDB

variable {R : Type} [LinearOrder R]

namespace RangedMap

/-! ## Bisection -/

omit [LinearOrder R] in
/-- If every slot left of one that is not `before` is `past`, the bisection finds the first slot
that is not `past`. -/
theorem slotBoundLoop_spec {slots : List (SlotMeta R)} {past before : SlotMeta R → Bool}
    (hpast : ∀ s ∈ slots, past s = true → before s = false)
    (hmono : slots.Pairwise fun s t => before t = false → past s = true) {fuel l r : ℕ}
    (hfuel : r - l ≤ fuel) (hlr : l ≤ r) (hr : r ≤ slots.length)
    (hleft : ∀ j < l, ∀ s, slots[j]? = some s → past s = true)
    (hright : ∀ j ≥ r, ∀ s, slots[j]? = some s → past s = false) :
    slotBoundLoop slots past before fuel l r ≤ slots.length ∧
      (∀ j < slotBoundLoop slots past before fuel l r, ∀ s, slots[j]? = some s → past s = true) ∧
      ∀ j ≥ slotBoundLoop slots past before fuel l r, ∀ s, slots[j]? = some s → past s = false := by
  have hlt : ∀ {i j : ℕ} {s t : SlotMeta R}, i < j → slots[i]? = some s → slots[j]? = some t →
      before t = false → past s = true := by
    intro i j s t hij hs ht
    obtain ⟨hi, rfl⟩ := List.getElem?_eq_some_iff.1 hs
    obtain ⟨hj, rfl⟩ := List.getElem?_eq_some_iff.1 ht
    exact List.pairwise_iff_getElem.1 hmono i j hi hj hij
  induction fuel generalizing l r with
  | zero =>
    obtain rfl : l = r := by omega
    exact ⟨hr, hleft, hright⟩
  | succ fuel ih =>
    unfold slotBoundLoop
    split_ifs with h
    · set mid := l + (r - l) / 2 with hmid
      have hmidr : mid < r := by omega
      have hget : slots[mid]? = some slots[mid] := List.getElem?_eq_getElem (by omega)
      simp only [hget]
      have hfrom : ¬ past slots[mid] = true → ∀ j ≥ mid, ∀ s, slots[j]? = some s → past s = false := by
        intro h1 j hj s hs
        rcases hj.lt_or_eq with hj | rfl
        · by_contra hps
          have hbs := hpast s (List.mem_of_getElem? hs) (by simpa using hps)
          exact h1 (hlt hj hget hs hbs)
        · rw [hget] at hs
          cases hs
          simpa using h1
      split_ifs with h1 h2
      · refine ih (by omega) (by omega) hr (fun j hj s hs => ?_) hright
        rcases Nat.lt_succ_iff_lt_or_eq.1 hj with hj | rfl
        · exact hlt hj hs hget (hpast _ (List.getElem_mem _) h1)
        · rw [hget] at hs
          cases hs
          exact h1
      · exact ih (by omega) (by omega) (by omega) hleft (hfrom h1)
      · exact ⟨by omega, fun j hj s hs => hlt hj hs hget (by simpa using h2), hfrom h1⟩
    · obtain rfl : l = r := by omega
      exact ⟨hr, hleft, hright⟩

end RangedMap

/-- A slot is not empty, is bounded by its first and last value, and its bitmap is that of its
entries. -/
structure SlotMeta.Ok (s : SlotMeta R) : Prop where
  head : s.vec.head?.map Prod.fst = some s.left
  last : s.vec.getLast?.map Prod.fst = some s.right
  bitmap : s.bitmap = (s.vec.map Prod.snd).toFinset

namespace RangedMap

/-- The entries of all slots. -/
def pairs (m : RangedMap R) : List (R × ℕ) := m.slots.flatMap SlotMeta.vec

/-- The slots hold the offsets with a value, each once, in the order of the values. -/
structure Inv (m : RangedMap R) : Prop where
  slot_ok : ∀ s ∈ m.slots, s.Ok
  sorted : m.pairs.Pairwise fun p q => p.1 ≤ q.1
  nodup : (m.pairs.map Prod.snd).Nodup
  agree : ∀ {offset value}, (value, offset) ∈ m.pairs ↔ m.valueAt offset = some value

theorem inv_empty : (empty : RangedMap R).Inv where
  slot_ok := by simp [empty]
  sorted := by simp [empty, pairs]
  nodup := by simp [empty, pairs]
  agree := by simp [empty, pairs, valueAt]

end RangedMap

namespace SlotMeta.Ok

variable {s : SlotMeta R}

omit [LinearOrder R] in
theorem ne_nil (h : s.Ok) : s.vec ≠ [] := by
  intro hnil
  have := h.head
  simp [hnil] at this

omit [LinearOrder R] in
theorem exists_left (h : s.Ok) : ∃ p ∈ s.vec, p.1 = s.left := by
  obtain ⟨p, hp, hleft⟩ := Option.map_eq_some_iff.1 h.head
  exact ⟨p, List.mem_of_mem_head? hp, hleft⟩

omit [LinearOrder R] in
theorem exists_right (h : s.Ok) : ∃ p ∈ s.vec, p.1 = s.right := by
  obtain ⟨p, hp, hright⟩ := Option.map_eq_some_iff.1 h.last
  exact ⟨p, List.mem_of_getLast? hp, hright⟩

theorem left_le (h : s.Ok) (hs : s.vec.Pairwise fun p q => p.1 ≤ q.1) {p : R × ℕ}
    (hp : p ∈ s.vec) : s.left ≤ p.1 := by
  have hhead := h.head
  cases hvec : s.vec with
  | nil => simp [hvec] at hp
  | cons q qs =>
    simp only [hvec, List.head?_cons, Option.map_some, Option.some.injEq] at hhead
    rw [hvec] at hp hs
    rcases List.mem_cons.1 hp with rfl | hp
    · exact hhead.ge
    · exact hhead ▸ (List.pairwise_cons.1 hs).1 p hp

theorem le_right (h : s.Ok) (hs : s.vec.Pairwise fun p q => p.1 ≤ q.1) {p : R × ℕ}
    (hp : p ∈ s.vec) : p.1 ≤ s.right := by
  obtain ⟨q, hq, hright⟩ := Option.map_eq_some_iff.1 h.last
  obtain ⟨front, hfront⟩ := List.getLast?_eq_some_iff.1 hq
  rw [hfront] at hp hs
  rcases List.mem_append.1 hp with hp | hp
  · exact hright ▸ (List.pairwise_append.1 hs).2.2 p hp q (by simp)
  · obtain rfl := List.mem_singleton.1 hp
    exact hright.le

end SlotMeta.Ok

namespace RangedMap.Inv

variable {m : RangedMap R}

theorem sorted_vec (h : m.Inv) {s : SlotMeta R} (hs : s ∈ m.slots) :
    s.vec.Pairwise fun p q => p.1 ≤ q.1 :=
  (List.pairwise_flatMap.1 h.sorted).1 s hs

theorem left_le_right (h : m.Inv) {s : SlotMeta R} (hs : s ∈ m.slots) : s.left ≤ s.right := by
  obtain ⟨p, hp, hright⟩ := (h.slot_ok s hs).exists_right
  exact hright ▸ (h.slot_ok s hs).left_le (h.sorted_vec hs) hp

/-- The slots follow each other in the order of their bounds. -/
theorem right_le_left (h : m.Inv) : m.slots.Pairwise fun s t => s.right ≤ t.left := by
  refine (List.pairwise_flatMap.1 h.sorted).2.imp_of_mem fun hs ht hst => ?_
  obtain ⟨p, hp, hright⟩ := (h.slot_ok _ hs).exists_right
  obtain ⟨q, hq, hleft⟩ := (h.slot_ok _ ht).exists_left
  exact hright ▸ hleft ▸ hst p hp q hq

/-- `slot_lower_bound_idx` finds the first slot that reaches the value. -/
theorem slotLowerBoundIdx_spec (h : m.Inv) (val : R) :
    m.slotLowerBoundIdx val ≤ m.slots.length ∧
      (∀ j < m.slotLowerBoundIdx val, ∀ s, m.slots[j]? = some s → s.right < val) ∧
      ∀ j ≥ m.slotLowerBoundIdx val, ∀ s, m.slots[j]? = some s → val ≤ s.right := by
  have hspec := @slotBoundLoop_spec _ m.slots (fun slot => slot.right < val)
    (fun slot => val ≤ slot.left)
    (fun s hs hr => by
      simpa using (h.left_le_right hs).trans_lt (by simpa using hr))
    (h.right_le_left.imp fun hst ht => by
      simpa using hst.trans_lt (by simpa using ht))
    m.slots.length 0 m.slots.length (by omega) (by omega) le_rfl (by simp)
    (fun j hj s hs => absurd (List.getElem?_eq_some_iff.1 hs).1 (by omega))
  simpa [slotLowerBoundIdx] using hspec

/-- `slot_upper_bound_idx` finds the first slot that goes beyond the value. -/
theorem slotUpperBoundIdx_spec (h : m.Inv) (val : R) :
    m.slotUpperBoundIdx val ≤ m.slots.length ∧
      (∀ j < m.slotUpperBoundIdx val, ∀ s, m.slots[j]? = some s → s.right ≤ val) ∧
      ∀ j ≥ m.slotUpperBoundIdx val, ∀ s, m.slots[j]? = some s → val < s.right := by
  have hspec := @slotBoundLoop_spec _ m.slots (fun slot => slot.right ≤ val)
    (fun slot => val < slot.left)
    (fun s hs hr => by
      simpa using (h.left_le_right hs).trans (by simpa using hr))
    (h.right_le_left.imp fun hst ht => by
      simpa using hst.trans (by simpa using ht))
    m.slots.length 0 m.slots.length (by omega) (by omega) le_rfl (by simp)
    (fun j hj s hs => absurd (List.getElem?_eq_some_iff.1 hs).1 (by omega))
  simpa [slotUpperBoundIdx] using hspec

/-! ## Adding a value -/

theorem left_le_of_lt (h : m.Inv) {i j : ℕ} {s t : SlotMeta R} (hij : i < j)
    (hs : m.slots[i]? = some s) (ht : m.slots[j]? = some t) : s.right ≤ t.left := by
  obtain ⟨hi, rfl⟩ := List.getElem?_eq_some_iff.1 hs
  obtain ⟨hj, rfl⟩ := List.getElem?_eq_some_iff.1 ht
  exact List.pairwise_iff_getElem.1 h.right_le_left i j hi hj hij

/-- The slot for a value: the slots before it end at or below the value, those after it begin
above. -/
theorem addSlotIndex_spec (h : m.Inv) (hne : m.slots ≠ []) (value : R) :
    m.addSlotIndex value < m.slots.length ∧
      (∀ j < m.addSlotIndex value, ∀ s, m.slots[j]? = some s → s.right ≤ value) ∧
      ∀ j > m.addSlotIndex value, ∀ s, m.slots[j]? = some s → value < s.left := by
  have hpos : 0 < m.slots.length := List.length_pos_iff.2 hne
  obtain ⟨hle, hbelow, habove⟩ := h.slotUpperBoundIdx_spec value
  set u := m.slotUpperBoundIdx value with hu
  have hget : m.slots[min u (m.slots.length - 1)]? = some m.slots[min u (m.slots.length - 1)] :=
    List.getElem?_eq_getElem (by omega)
  set slot := m.slots[min u (m.slots.length - 1)] with hslot
  have hmem : slot ∈ m.slots := List.getElem_mem _
  have hindex : m.addSlotIndex value =
      if value < slot.left then min u (m.slots.length - 1) - 1 else min u (m.slots.length - 1) := by
    unfold addSlotIndex findRightSlotIndex
    simp only [if_true, ← hu, hget, true_and, Bool.true_eq_false, false_and, or_false]
    split_ifs <;> omega
  rw [hindex]
  split_ifs with hv
  · -- the value lies between two slots, or before all
    have hult : u < m.slots.length := by
      by_contra hge
      have hright := hbelow (m.slots.length - 1) (by omega) slot (by rwa [min_eq_right (by omega)] at hget)
      exact absurd ((h.left_le_right hmem).trans hright) (not_le.2 hv)
    rw [min_eq_left (by omega)] at hget ⊢
    refine ⟨by omega, fun j hj => hbelow j (by omega), fun j hj s hs => ?_⟩
    rcases (show u ≤ j ∨ j < u by omega) with huj | hju
    · rcases huj.lt_or_eq with huj | rfl
      · exact hv.trans_le ((h.left_le_right hmem).trans (h.left_le_of_lt huj hget hs))
      · rw [hget] at hs
        cases hs
        exact hv
    · omega
  · refine ⟨by omega, fun j hj => hbelow j (by omega), fun j hj s hs => ?_⟩
    have hjlt := (List.getElem?_eq_some_iff.1 hs).1
    have hult : u < j := by omega
    have hgetu : m.slots[u]? = some slot := by rwa [min_eq_left (by omega)] at hget
    exact (habove u le_rfl slot hgetu).trans_le (h.left_le_of_lt hult hgetu hs)

end RangedMap.Inv

namespace SlotMeta

variable {s : SlotMeta R}

omit [LinearOrder R] in
theorem vec_splitHalf (s : SlotMeta R) : s.splitHalf.flatMap SlotMeta.vec = s.vec := by
  simp [splitHalf, ofVec]

omit [LinearOrder R] in
theorem ok_ofVec {vec : List (R × ℕ)} (hne : vec ≠ []) (dflt : R) : (ofVec vec dflt).Ok where
  head := by
    obtain ⟨p, ps, rfl⟩ := List.exists_cons_of_ne_nil hne
    simp [ofVec]
  last := by
    simp [ofVec, List.getLast?_eq_some_getLast hne]
  bitmap := rfl

/-- The entries beyond those with at most the value are above it. -/
theorem lt_of_mem_dropWhile {vec : List (R × ℕ)} (hs : vec.Pairwise fun p q => p.1 ≤ q.1) {value : R}
    {q : R × ℕ} (hq : q ∈ vec.dropWhile (·.1 ≤ value)) : value < q.1 := by
  rw [(takeWhile_eq_filter (hs.imp fun hle h => decide_eq_true (hle.trans (of_decide_eq_true h)))).2] at hq
  simpa using (List.mem_filter.1 hq).2

theorem Ok.insert (h : s.Ok) (hs : s.vec.Pairwise fun p q => p.1 ≤ q.1) (offset : ℕ) (value : R) :
    (s.insert offset value).Ok where
  head := by
    obtain ⟨p, ps, hvec⟩ := List.exists_cons_of_ne_nil h.ne_nil
    have hleft : p.1 = s.left := by simpa [hvec] using h.head
    simp only [SlotMeta.insert, hvec, List.takeWhile_cons, List.dropWhile_cons, ← hleft]
    by_cases hp : p.1 ≤ value
    · simp [hp]
    · simp [hp, (not_le.1 hp).le]
  last := by
    simp only [SlotMeta.insert]
    rcases List.eq_nil_or_concat (s.vec.dropWhile (·.1 ≤ value)) with hnil | ⟨qs, q, hcons⟩
    · obtain ⟨p, hp, hright⟩ := h.exists_right
      have hle : s.right ≤ value := by
        rw [← List.takeWhile_append_dropWhile (p := (·.1 ≤ value)) (l := s.vec), hnil,
          List.append_nil] at hp
        simpa [hright] using List.mem_takeWhile_imp hp
      simp [hnil, hle]
    · have hlast : s.vec.getLast? = some q := by
        rw [← List.takeWhile_append_dropWhile (p := (·.1 ≤ value)) (l := s.vec), hcons]
        simp
      have hq : q.1 = s.right := by simpa [hlast] using h.last
      have hlt : value < q.1 := lt_of_mem_dropWhile hs (by simp [hcons])
      rw [List.concat_eq_append] at hcons
      rw [hcons, ← hq, max_eq_right hlt.le, ← List.cons_append, ← List.append_assoc,
        List.getLast?_concat, Option.map_some]
  bitmap := by
    ext o
    have hsplit : o ∈ s.vec.map Prod.snd ↔ o ∈ (s.vec.takeWhile (·.1 ≤ value)).map Prod.snd ∨
        o ∈ (s.vec.dropWhile (·.1 ≤ value)).map Prod.snd := by
      rw [← List.mem_append, ← List.map_append, List.takeWhile_append_dropWhile]
    simp only [SlotMeta.insert, Finset.mem_insert, h.bitmap, List.mem_toFinset, hsplit,
      List.map_append, List.map_cons, List.mem_append, List.mem_cons]
    tauto

omit [LinearOrder R] in
theorem Ok.splitHalf (h : s.Ok) (hlen : 2 ≤ s.vec.length) : ∀ t ∈ s.splitHalf, t.Ok := by
  have hfront : s.vec.take (s.vec.length / 2) ≠ [] := by
    rw [← List.length_pos_iff, List.length_take]
    omega
  have hback : s.vec.drop (s.vec.length / 2) ≠ [] := by
    rw [← List.length_pos_iff, List.length_drop]
    omega
  have hok := ok_ofVec hfront s.right
  intro t ht
  rcases List.mem_pair.1 ht with rfl | rfl
  · refine ⟨?_, hok.last, hok.bitmap⟩
    simpa [List.head?_take, show s.vec.length / 2 ≠ 0 by omega] using h.head
  · exact ok_ofVec hback s.right

/-- A slot without one entry: the others stay, and the slot goes when there are none. -/
theorem erase_spec {offset : ℕ} {value : R} {front back : List (R × ℕ)}
    (hdrop : s.vec.dropWhile (·.1 < value) = front ++ (value, offset) :: back)
    (herase : (s.vec.dropWhile (·.1 < value)).eraseP (·.2 = offset) = front ++ back) :
    ∃ pre, s.vec = pre ++ (value, offset) :: back ∧
      (s.erase offset value).flatMap SlotMeta.vec = pre ++ back ∧
      (s.Ok → (s.vec.map Prod.snd).Nodup → ∀ t ∈ s.erase offset value, t.Ok) := by
  have hvec : s.vec = (s.vec.takeWhile (·.1 < value) ++ front) ++ (value, offset) :: back := by
    rw [List.append_assoc, ← hdrop, List.takeWhile_append_dropWhile]
  have hany : (s.vec.dropWhile (·.1 < value)).any (·.2 = offset) = true := by
    rw [hdrop]
    simp
  have heq : s.erase offset value =
      if s.vec.takeWhile (·.1 < value) ++ front ++ back = [] then []
      else [⟨(ofVec (s.vec.takeWhile (·.1 < value) ++ front ++ back) s.left).left,
        (ofVec (s.vec.takeWhile (·.1 < value) ++ front ++ back) s.right).right,
        s.bitmap.erase offset, s.vec.takeWhile (·.1 < value) ++ front ++ back⟩] := by
    simp only [erase, hany, if_true, herase, List.append_assoc]
  generalize s.vec.takeWhile (·.1 < value) ++ front = pre at hvec heq
  rw [heq]
  refine ⟨pre, hvec, ?_, fun hok hnodup t ht => ?_⟩
  · split_ifs with hnil
    · rw [hnil, List.flatMap_nil]
    · simp
  · split_ifs at ht with hnil
    · cases ht
    · obtain rfl := List.mem_singleton.1 ht
      refine ⟨(ok_ofVec hnil s.left).head, (ok_ofVec hnil s.right).last, ?_⟩
      -- the offset stands in the slot once
      rw [hvec, List.map_append, List.map_cons, List.nodup_middle, List.nodup_cons,
        ← List.map_append] at hnodup
      ext o
      rw [hok.bitmap, hvec, Finset.mem_erase, List.mem_toFinset, List.mem_toFinset, List.map_append,
        List.map_cons, List.perm_middle.mem_iff, List.mem_cons, ← List.map_append]
      constructor
      · tauto
      · exact fun ho => ⟨fun heq => hnodup.1 (heq ▸ ho), .inr ho⟩

end SlotMeta

namespace RangedMap

variable {m m' : RangedMap R}

omit [LinearOrder R] in
theorem valueAt_setValue (l : List (Option R)) (slots slots' : List (SlotMeta R)) (offset : ℕ)
    (value : R) (o : ℕ) :
    (⟨setValue l offset value, slots'⟩ : RangedMap R).valueAt o =
      if o = offset then some value else (⟨l, slots⟩ : RangedMap R).valueAt o := by
  unfold valueAt setValue
  by_cases ho : o = offset
  · subst ho
    rw [if_pos rfl, List.getElem?_set_self]
    · rfl
    · rw [List.length_append, List.length_replicate]
      omega
  · rw [if_neg ho, List.getElem?_set_ne (Ne.symm ho), List.getElem?_append]
    split_ifs with hlt
    · rfl
    · rw [List.getElem?_eq_none (by omega : l.length ≤ o), List.getElem?_replicate]
      split_ifs <;> rfl

variable {slotSize offset i : ℕ}

/-- A value is refused exactly when the offset has one. -/
theorem addOffsetAndScore_eq_none_iff {value : R} :
    addOffsetAndScore slotSize m offset value = none ↔ (m.valueAt offset).isSome := by
  unfold addOffsetAndScore
  split_ifs with h hne
  · exact iff_of_true rfl h
  · exact iff_of_false (by simp) h
  · refine iff_of_false ?_ h
    cases hslot : m.slots[m.addSlotIndex value]? <;> simp [hslot]

/-- A value is added to an offset without one, and the other values stay. -/
theorem valueAt_addOffsetAndScore {value : R}
    (h : addOffsetAndScore slotSize m offset value = some m') (o : ℕ) :
    m'.valueAt o = if o = offset then some value else m.valueAt o := by
  unfold addOffsetAndScore at h
  split_ifs at h
  · cases h
    exact valueAt_setValue _ m.slots _ _ _ _
  · cases hslot : m.slots[m.addSlotIndex value]? <;> simp only [hslot] at h <;> cases h <;>
      exact valueAt_setValue _ m.slots _ _ _ _

variable {slots : List (SlotMeta R)} {s : SlotMeta R}

omit [LinearOrder R] in
theorem eq_take_append_drop (h : slots[i]? = some s) : slots = slots.take i ++ s :: slots.drop (i + 1) := by
  obtain ⟨hi, rfl⟩ := List.getElem?_eq_some_iff.1 h
  rw [← List.drop_eq_getElem_cons hi, List.take_append_drop]

omit [LinearOrder R] in
theorem exists_getElem?_of_mem_take (h : s ∈ slots.take i) : ∃ j < i, slots[j]? = some s := by
  obtain ⟨j, hj, rfl⟩ := List.mem_take_iff_getElem.1 h
  exact ⟨j, by omega, List.getElem?_eq_getElem (by omega)⟩

omit [LinearOrder R] in
theorem exists_getElem?_of_mem_drop (h : s ∈ slots.drop i) : ∃ j ≥ i, slots[j]? = some s := by
  obtain ⟨j, hj, rfl⟩ := List.mem_drop_iff_getElem.1 h
  exact ⟨i + j, by omega, List.getElem?_eq_getElem _⟩

namespace Inv

variable {slotSize offset : ℕ} {value : R}

/-- The new entry goes after those with at most its value, and before the others. -/
theorem pairs_addOffsetAndScore (h : m.Inv) (hadd : addOffsetAndScore slotSize m offset value = some m') :
    ∃ ps qs, m.pairs = ps ++ qs ∧ m'.pairs = ps ++ (value, offset) :: qs ∧
      (∀ p ∈ ps, p.1 ≤ value) ∧ ∀ q ∈ qs, value < q.1 := by
  unfold addOffsetAndScore at hadd
  split_ifs at hadd with _ hne
  · cases hadd
    exact ⟨[], [], by simp [pairs, hne], by simp [pairs], by simp, by simp⟩
  · obtain ⟨hlt, hbelow, habove⟩ := h.addSlotIndex_spec hne value
    set k := m.addSlotIndex value
    have hget : m.slots[k]? = some m.slots[k] := List.getElem?_eq_getElem hlt
    have hsorted := h.sorted_vec (List.getElem_mem hlt)
    simp only [hget, Option.some.injEq] at hadd
    subst hadd
    refine ⟨(m.slots.take k).flatMap SlotMeta.vec ++ m.slots[k].vec.takeWhile (·.1 ≤ value),
      m.slots[k].vec.dropWhile (·.1 ≤ value) ++ (m.slots.drop (k + 1)).flatMap SlotMeta.vec,
      ?_, ?_, fun p hp => ?_, fun q hq => ?_⟩
    · conv_lhs => rw [pairs, eq_take_append_drop hget]
      rw [List.flatMap_append, List.flatMap_cons, List.append_assoc, ← List.append_assoc
        (List.takeWhile _ _), List.takeWhile_append_dropWhile]
    · have hadded : (if slotSize * 2 < (m.slots[k].insert offset value).vec.length then
          (m.slots[k].insert offset value).splitHalf else [m.slots[k].insert offset value]).flatMap
            SlotMeta.vec = (m.slots[k].insert offset value).vec := by
        split_ifs
        · exact SlotMeta.vec_splitHalf _
        · simp
      rw [pairs, List.flatMap_append, List.flatMap_append, hadded]
      simp [SlotMeta.insert]
    · rcases List.mem_append.1 hp with hp | hp
      · obtain ⟨s, hs, hp⟩ := List.mem_flatMap.1 hp
        obtain ⟨j, hj, hgetj⟩ := exists_getElem?_of_mem_take hs
        have hmem := List.mem_of_getElem? hgetj
        exact ((h.slot_ok s hmem).le_right (h.sorted_vec hmem) hp).trans (hbelow j hj s hgetj)
      · simpa using List.mem_takeWhile_imp hp
    · rcases List.mem_append.1 hq with hq | hq
      · exact SlotMeta.lt_of_mem_dropWhile hsorted hq
      · obtain ⟨s, hs, hq⟩ := List.mem_flatMap.1 hq
        obtain ⟨j, hj, hgetj⟩ := exists_getElem?_of_mem_drop hs
        have hmem := List.mem_of_getElem? hgetj
        exact (habove j (by omega) s hgetj).trans_le
          ((h.slot_ok s hmem).left_le (h.sorted_vec hmem) hq)

theorem slot_ok_addOffsetAndScore (h : m.Inv) (hsize : 1 ≤ slotSize)
    (hadd : addOffsetAndScore slotSize m offset value = some m') : ∀ s ∈ m'.slots, s.Ok := by
  unfold addOffsetAndScore at hadd
  split_ifs at hadd with _ hne
  · cases hadd
    intro s hs
    obtain rfl := List.mem_singleton.1 hs
    exact ⟨rfl, rfl, rfl⟩
  · have hlt := (h.addSlotIndex_spec hne value).1
    have hget : m.slots[m.addSlotIndex value]? = some m.slots[m.addSlotIndex value] :=
      List.getElem?_eq_getElem hlt
    simp only [hget, Option.some.injEq] at hadd
    subst hadd
    intro s hs
    rcases List.mem_append.1 hs with hs | hs
    · rcases List.mem_append.1 hs with hs | hs
      · exact h.slot_ok s (List.mem_of_mem_take hs)
      · have hins := (h.slot_ok _ (List.getElem_mem hlt)).insert
          (h.sorted_vec (List.getElem_mem hlt)) offset value
        split_ifs at hs
        · exact hins.splitHalf (by omega) s hs
        · exact List.mem_singleton.1 hs ▸ hins
    · exact h.slot_ok s (List.mem_of_mem_drop hs)

/-- A value added to an offset without one keeps the slots in order. -/
theorem addOffsetAndScore (h : m.Inv) (hsize : 1 ≤ slotSize)
    (hadd : RangedMap.addOffsetAndScore slotSize m offset value = some m') : m'.Inv := by
  obtain ⟨ps, qs, hpairs, hpairs', hps, hqs⟩ := h.pairs_addOffsetAndScore hadd
  have hfresh : m.valueAt offset = none := by
    have hsome := mt addOffsetAndScore_eq_none_iff.2 (by rw [hadd]; simp)
    simpa using hsome
  have hnot : ∀ p ∈ m.pairs, p.2 ≠ offset := by
    rintro ⟨v, o⟩ hp rfl
    rw [h.agree.1 hp] at hfresh
    cases hfresh
  have hsorted := List.pairwise_append.1 (hpairs ▸ h.sorted)
  refine ⟨h.slot_ok_addOffsetAndScore hsize hadd, ?_, ?_, ?_⟩
  · rw [hpairs']
    refine List.pairwise_append.2 ⟨hsorted.1,
      List.pairwise_cons.2 ⟨fun q hq => (hqs q hq).le, hsorted.2.1⟩, fun p hp q hq => ?_⟩
    rcases List.mem_cons.1 hq with rfl | hq
    · exact hps p hp
    · exact hsorted.2.2 p hp q hq
  · have hperm : (m'.pairs.map Prod.snd).Perm (offset :: m.pairs.map Prod.snd) := by
      rw [hpairs', hpairs, List.map_append, List.map_append, List.map_cons]
      exact List.perm_middle
    rw [hperm.nodup_iff, List.nodup_cons]
    refine ⟨fun hmem => ?_, h.nodup⟩
    obtain ⟨p, hp, hp2⟩ := List.mem_map.1 hmem
    exact hnot p hp hp2
  · intro o v
    have hmem : (v, o) ∈ m'.pairs ↔ (v, o) = (value, offset) ∨ (v, o) ∈ m.pairs := by
      rw [hpairs', hpairs]
      simp only [List.mem_append, List.mem_cons]
      tauto
    rw [hmem, valueAt_addOffsetAndScore hadd]
    split_ifs with ho
    · subst ho
      have hno : (v, o) ∉ m.pairs := fun hp => hnot _ hp rfl
      simp [hno, eq_comm]
    · simp [ho, h.agree]

/-! ## Deleting a value -/

theorem eq_of_mem_pairs (h : m.Inv) {v w : R} {o : ℕ} (hv : (v, o) ∈ m.pairs)
    (hw : (w, o) ∈ m.pairs) : v = w := by
  have hvw := (h.agree.1 hv).symm.trans (h.agree.1 hw)
  simpa using hvw

/-- `delete_offset` finds the slot of the offset, and its entry there. -/
theorem deleteSlotIndex_spec (h : m.Inv) {offset : ℕ} (hvalue : m.valueAt offset = some value) :
    ∃ slot, m.slots[m.deleteSlotIndex offset value]? = some slot ∧
      ∃ front back, slot.vec.dropWhile (·.1 < value) = front ++ (value, offset) :: back ∧
        (slot.vec.dropWhile (·.1 < value)).eraseP (·.2 = offset) = front ++ back := by
  obtain ⟨hle, hbelow, -⟩ := h.slotLowerBoundIdx_spec value
  obtain ⟨slot₀, hmem₀, hpair₀⟩ := List.mem_flatMap.1 (h.agree.2 hvalue)
  obtain ⟨j, hj, rfl⟩ := List.getElem_of_mem hmem₀
  have hge : m.slotLowerBoundIdx value ≤ j := by
    by_contra hlt
    have hright := hbelow j (by omega) _ (List.getElem?_eq_getElem hj)
    exact absurd ((h.slot_ok _ hmem₀).le_right (h.sorted_vec hmem₀) hpair₀) (not_le.2 hright)
  have hex : ∃ slot ∈ m.slots.drop (m.slotLowerBoundIdx value),
      decide (offset ∈ slot.bitmap) = true := by
    refine ⟨m.slots[j], List.mem_drop_iff_getElem.2
      ⟨j - m.slotLowerBoundIdx value, by omega, by simp [Nat.add_sub_cancel' hge]⟩, ?_⟩
    rw [(h.slot_ok _ hmem₀).bitmap, decide_eq_true_iff, List.mem_toFinset]
    exact List.mem_map.2 ⟨_, hpair₀, rfl⟩
  have hget := List.findIdx_getElem?_eq_getElem_of_exists hex
  have hbit := List.findIdx_of_getElem?_eq_some hget
  rw [List.getElem?_drop] at hget
  set slot := getElem (m.slots.drop (m.slotLowerBoundIdx value))
    ((m.slots.drop (m.slotLowerBoundIdx value)).findIdx fun slot =>
      decide (offset ∈ slot.bitmap)) _ with hslot
  have hmem : slot ∈ m.slots := List.mem_of_getElem? hget
  refine ⟨slot, hget, ?_⟩
  -- the entry of the offset has the value that `offset_to_value_` gives
  have hentry : (value, offset) ∈ slot.vec := by
    rw [decide_eq_true_iff, (h.slot_ok slot hmem).bitmap, List.mem_toFinset] at hbit
    obtain ⟨⟨v, o⟩, hp, rfl⟩ := List.mem_map.1 hbit
    have hv := h.eq_of_mem_pairs (List.mem_flatMap.2 ⟨slot, hmem, hp⟩) (h.agree.2 hvalue)
    rwa [hv] at hp
  have hafter : (value, offset) ∈ slot.vec.dropWhile (·.1 < value) := by
    rw [← List.takeWhile_append_dropWhile (p := (·.1 < value)) (l := slot.vec)] at hentry
    rcases List.mem_append.1 hentry with hentry | hentry
    · exact absurd (List.mem_takeWhile_imp hentry) (by simp)
    · exact hentry
  obtain ⟨⟨v, o⟩, front, back, -, ho, heq, hrest⟩ :=
    List.exists_of_eraseP (p := (·.2 = offset)) hafter (by simp)
  obtain rfl : o = offset := by simpa using ho
  have hp : (v, o) ∈ slot.vec :=
    (List.dropWhile_sublist _).subset (heq ▸ List.mem_append_right _ List.mem_cons_self)
  obtain rfl := h.eq_of_mem_pairs (List.mem_flatMap.2 ⟨slot, hmem, hp⟩) (h.agree.2 hvalue)
  exact ⟨front, back, heq, hrest⟩

/-- The entry of the offset goes, the others stay in order, and so do the slots. -/
theorem pairs_deleteOffset (h : m.Inv) {offset : ℕ} (hvalue : m.valueAt offset = some value) :
    (m.deleteOffset offset).offsetToValue = m.offsetToValue.set offset none ∧
      (∃ ps qs, m.pairs = ps ++ (value, offset) :: qs ∧ (m.deleteOffset offset).pairs = ps ++ qs) ∧
      ∀ s ∈ (m.deleteOffset offset).slots, s.Ok := by
  obtain ⟨slot, hget, front, back, hdrop, herase⟩ := h.deleteSlotIndex_spec hvalue
  set k := m.deleteSlotIndex offset value with hk
  have hmem := List.mem_of_getElem? hget
  have hne : m.slots ≠ [] := List.ne_nil_of_mem hmem
  have hdel : m.deleteOffset offset = ⟨m.offsetToValue.set offset none,
      m.slots.take k ++ slot.erase offset value ++ m.slots.drop (k + 1)⟩ := by
    unfold deleteOffset
    rw [if_neg hne, hvalue]
    simp only [← hk, hget]
  obtain ⟨pre, hvec, hflat, hok⟩ := SlotMeta.erase_spec hdrop herase
  have hnodup : (slot.vec.map Prod.snd).Nodup := by
    have hpairs := h.nodup
    rw [pairs, eq_take_append_drop hget, List.flatMap_append, List.flatMap_cons, List.map_append,
      List.map_append] at hpairs
    exact (List.nodup_append.1 (List.nodup_append.1 hpairs).2.1).1
  rw [hdel]
  refine ⟨rfl, ⟨(m.slots.take k).flatMap SlotMeta.vec ++ pre, back ++
      (m.slots.drop (k + 1)).flatMap SlotMeta.vec, ?_, ?_⟩, fun s hs => ?_⟩
  · conv_lhs => rw [pairs, eq_take_append_drop hget]
    rw [List.flatMap_append, List.flatMap_cons, hvec]
    simp only [List.append_assoc, List.cons_append]
  · rw [pairs, List.flatMap_append, List.flatMap_append, hflat]
    simp only [List.append_assoc]
  · rcases List.mem_append.1 hs with hs | hs
    · rcases List.mem_append.1 hs with hs | hs
      · exact h.slot_ok s (List.mem_of_mem_take hs)
      · exact hok (h.slot_ok slot hmem) hnodup s hs
    · exact h.slot_ok s (List.mem_of_mem_drop hs)

/-- Without a value there is nothing to delete. -/
theorem deleteOffset_of_none {offset : ℕ} (hvalue : m.valueAt offset = none) :
    m.deleteOffset offset = m := by
  unfold RangedMap.deleteOffset
  rw [hvalue]
  split_ifs <;> rfl

/-- After a deletion the offset has no value, and the other values stay. -/
theorem valueAt_deleteOffset (h : m.Inv) (offset o : ℕ) :
    (m.deleteOffset offset).valueAt o = if o = offset then none else m.valueAt o := by
  cases hvalue : m.valueAt offset with
  | none =>
    rw [deleteOffset_of_none hvalue]
    split_ifs with ho
    · rw [ho, hvalue]
    · rfl
  | some value =>
    unfold valueAt
    rw [(h.pairs_deleteOffset hvalue).1]
    by_cases ho : o = offset
    · rw [if_pos ho, ho, List.getElem?_set_self']
      cases m.offsetToValue[offset]? <;> rfl
    · rw [if_neg ho, List.getElem?_set_ne (Ne.symm ho)]

/-- A deletion keeps the slots in order. -/
theorem deleteOffset (h : m.Inv) (offset : ℕ) : (m.deleteOffset offset).Inv := by
  cases hvalue : m.valueAt offset with
  | none => rwa [deleteOffset_of_none hvalue]
  | some value =>
    obtain ⟨-, ⟨ps, qs, hpairs, hpairs'⟩, hok⟩ := h.pairs_deleteOffset hvalue
    have hsub : (m.deleteOffset offset).pairs.Sublist m.pairs := by
      rw [hpairs', hpairs]
      exact List.Sublist.append (List.Sublist.refl _) (List.sublist_cons_self _ _)
    refine ⟨hok, h.sorted.sublist hsub, (hsub.map _).nodup h.nodup, fun {o v} => ?_⟩
    have hperm : (m.pairs.map Prod.snd).Perm (offset :: (m.deleteOffset offset).pairs.map Prod.snd) := by
      rw [hpairs', hpairs, List.map_append, List.map_append, List.map_cons]
      exact List.perm_middle
    have hnot := (List.nodup_cons.1 (hperm.nodup_iff.1 h.nodup)).1
    have hmem : (v, o) ∈ m.pairs ↔ (v, o) = (value, offset) ∨
        (v, o) ∈ (m.deleteOffset offset).pairs := by
      rw [hpairs', hpairs]
      simp only [List.mem_append, List.mem_cons]
      tauto
    rw [h.valueAt_deleteOffset]
    split_ifs with ho
    · subst ho
      refine iff_of_false (fun hp => hnot (List.mem_map.2 ⟨_, hp, rfl⟩)) (by simp)
    · rw [← h.agree, hmem]
      simp [ho]

/-! ## Ranges -/

omit [LinearOrder R] in
theorem mem_slots_of_mem_slotAt (m : RangedMap R) {index : ℤ} : ∀ s ∈ m.slotAt index, s ∈ m.slots := by
  intro s hs
  unfold slotAt at hs
  split_ifs at hs
  · cases hs
  · exact List.mem_of_getElem? (Option.mem_toList.1 hs)

end Inv

end RangedMap

end OpenViking.VectorDB
