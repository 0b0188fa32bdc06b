import OpenViking.VectorDB.SortOps

/-!
# Sorting by several fields

`get_topk_result_with_slot_data_with_conditions` (`ranged_map.cpp`, 431-477) collects up to twice the
asked number of entries from the slots of the first field and sorts these by all fields.  The loop
over the slots always goes upwards, whatever the order of the first field.

Results:

* `RangedMap.collect_eq`: the entries that are collected;
* `RangedMap.lexTopK_iff`: when the answer is the best by all fields, whatever the further fields.
-/

namespace OpenViking.VectorDB

variable {R : Type} [LinearOrder R]

namespace RangedMap

/-! ## Model -/

/-- `kRangedMapSortMultiplier` (`ranged_map.h`, 20). -/
def kRangedMapSortMultiplier : ℕ := 2

/-- The loop over the entries of a slot, with `last_score` and the entries taken so far. -/
def collectEntries (filter : Option (ℕ → Bool)) (topk maxSize : ℕ) :
    List (R × ℕ) → R → List (R × ℕ) → R × List (R × ℕ)
  | [], lastScore, out => (lastScore, out)
  | e :: entries, lastScore, out =>
    if passes filter e.2 then
      if maxSize ≤ (out ++ [e]).length then (lastScore, out ++ [e])
      else if max topk 1 < (out ++ [e]).length ∧ lastScore ≠ e.1 then (lastScore, out ++ [e])
      else collectEntries filter topk maxSize entries e.1 (out ++ [e])
    else collectEntries filter topk maxSize entries lastScore out

/-- The loop over the slots: leaving the loop over a slot does not leave this one. -/
def collectSlots (filter : Option (ℕ → Bool)) (topk maxSize : ℕ) :
    List (List (R × ℕ)) → R → List (R × ℕ) → List (R × ℕ)
  | [], _, out => out
  | entries :: slots, lastScore, out =>
    if out.length < maxSize then
      let taken := collectEntries filter topk maxSize entries lastScore out
      collectSlots filter topk maxSize slots taken.1 taken.2
    else out

/-- The entries of each slot as they are gone through: the slots upwards in both orders. -/
def scanned (m : RangedMap R) (orderAsc : Bool) : List (List (R × ℕ)) :=
  m.slots.map fun s => if orderAsc then s.vec else s.vec.reverse

/-- `temp_offsets`, with the values. -/
def collect [Zero R] (m : RangedMap R) (topk : ℕ) (orderAsc : Bool) (filter : Option (ℕ → Bool)) :
    List (R × ℕ) :=
  collectSlots filter topk (topk * kRangedMapSortMultiplier) (m.scanned orderAsc) 0 []

/-- `cond_func` of `sort_with_conditions` (`ranged_map.cpp`, 408-421), the first field and the
conditions in one list.  A comparison with `NaN` says that the values differ. -/
def fieldsBefore (outside : R) : List (RangedMap R × Bool) → ℕ → ℕ → Bool
  | [], _, _ => false
  | (m, orderAsc) :: fields, idxL, idxR =>
    match m.getScoreByOffset outside idxL, m.getScoreByOffset outside idxR with
    | some valueL, some valueR =>
      if valueL ≠ valueR then decide (valueR < valueL) ^^ orderAsc
      else fieldsBefore outside fields idxL idxR
    | _, _ => orderAsc

/-- What `std::sort` may leave: anything where the comparator is no strict weak order. -/
def StdSorts {α : Type} (cmp : α → α → Bool) (elems out : List α) : Prop :=
  StrictWeak cmp elems → out.Perm elems ∧ out.Pairwise fun a b => cmp b a = false

/-- `get_topk_result_with_conditions`, as far as `std::sort` determines it.  For `topk` from `2 ^ 30`
the product with the multiplier is no `int`, and anything may come. -/
def ConditionsResult [Zero R] (m : RangedMap R) (outside : R) (topk : ℕ) (orderAsc : Bool)
    (filter : Option (ℕ → Bool)) (conditions : List (RangedMap R × Bool)) (out : List ℕ) : Prop :=
  topk * kRangedMapSortMultiplier < 2 ^ 31 →
    ∃ offsets, StdSorts (fieldsBefore outside ((m, orderAsc) :: conditions))
        ((m.collect topk orderAsc filter).map Prod.snd) offsets ∧ out = offsets.take topk

/-! ## What is asked for -/

/-- The answer is the best `topk` that pass by all fields, whatever further ranged maps there are, as
long as they have a value for every offset. -/
def LexTopK [Zero R] (slotSize : ℕ) (m : RangedMap R) (outside : R) (topk : ℕ) (orderAsc : Bool)
    (filter : Option (ℕ → Bool)) : Prop :=
  ∀ conditions : List (RangedMap R × Bool),
    (∀ c ∈ conditions, ∃ ops, RangedOp.run slotSize empty ops = some c.1) →
    (∀ c ∈ conditions, ∀ offset, (m.valueAt offset).isSome → (c.1.valueAt offset).isSome) →
    ∀ out, m.ConditionsResult outside topk orderAsc filter conditions out →
      IsTopK (fun a b => fieldsBefore outside ((m, orderAsc) :: conditions) b a = false) topk
        ((m.passing filter).map Prod.snd) out

/-! ## What is reached -/

/-- One value goes before another. -/
def ahead (orderAsc : Bool) (v w : R) : Bool := if orderAsc then decide (v < w) else decide (w < v)

/-- The entries up to the first whose value is not `v`. -/
def upTo (v : R) (entries : List (R × ℕ)) : List (R × ℕ) :=
  entries.takeWhile (fun e => e.1 = v) ++ (entries.dropWhile fun e => e.1 = v).take 1

/-- The first `n` entries, and of what each slot has after them the entries up to the first whose
value is not `v`. -/
def reachSlots (v : R) : ℕ → List (List (R × ℕ)) → List (R × ℕ)
  | _, [] => []
  | n, entries :: slots =>
    entries.take n ++ upTo v (entries.drop n) ++ reachSlots v (n - entries.length) slots

/-- The passing entries slot by slot. -/
def passingSlots (m : RangedMap R) (orderAsc : Bool) (filter : Option (ℕ → Bool)) :
    List (List (R × ℕ)) :=
  (m.scanned orderAsc).map fun entries => entries.filter fun e => passes filter e.2

/-- The passing entries within reach: slots upwards, the first `topk`, and of what each slot has
after them those up to the first with another value than the last of the `topk`. -/
def reach (m : RangedMap R) (topk : ℕ) (orderAsc : Bool) (filter : Option (ℕ → Bool)) :
    List (R × ℕ) :=
  match (m.passingSlots orderAsc filter).flatten[topk - 1]? with
  | none => (m.passingSlots orderAsc filter).flatten
  | some e => reachSlots e.1 topk (m.passingSlots orderAsc filter)

/-- The passing entries that fewer than `topk` others go before by the first field. -/
def foremost (m : RangedMap R) (topk : ℕ) (orderAsc : Bool) (filter : Option (ℕ → Bool)) :
    List (R × ℕ) :=
  (m.passing filter).filter fun e => (m.passing filter).countP (fun f => ahead orderAsc f.1 e.1) < topk

/-! ## The entries collected -/

section Collect

variable {filter : Option (ℕ → Bool)} {topk maxSize : ℕ}

theorem collectEntries_cons_of_pos {e : R × ℕ} (hpass : passes filter e.2 = true)
    (entries : List (R × ℕ)) (lastScore : R) (out : List (R × ℕ)) :
    collectEntries filter topk maxSize (e :: entries) lastScore out =
      if maxSize ≤ out.length + 1 then (lastScore, out ++ [e])
      else if max topk 1 < out.length + 1 ∧ lastScore ≠ e.1 then (lastScore, out ++ [e])
      else collectEntries filter topk maxSize entries e.1 (out ++ [e]) := by
  show (if _ then _ else _) = _
  rw [if_pos hpass, List.length_append]
  rfl

theorem collectEntries_filter (entries : List (R × ℕ)) (lastScore : R) (out : List (R × ℕ)) :
    collectEntries filter topk maxSize entries lastScore out =
      collectEntries none topk maxSize (entries.filter fun e => passes filter e.2) lastScore out := by
  induction entries generalizing lastScore out with
  | nil => rfl
  | cons e entries ih =>
    by_cases hpass : passes filter e.2 = true
    · rw [List.filter_cons, if_pos hpass, collectEntries_cons_of_pos hpass,
        collectEntries_cons_of_pos (show passes none e.2 = true from rfl), ih]
    · rw [List.filter_cons, if_neg hpass, ← ih]
      show (if _ then _ else _) = _
      rw [if_neg hpass]

theorem collectSlots_filter (slots : List (List (R × ℕ))) (lastScore : R) (out : List (R × ℕ)) :
    collectSlots filter topk maxSize slots lastScore out =
      collectSlots none topk maxSize
        (slots.map fun entries => entries.filter fun e => passes filter e.2) lastScore out := by
  induction slots generalizing lastScore out with
  | nil => rfl
  | cons entries slots ih =>
    unfold collectSlots
    simp only [collectEntries_filter entries, ih, List.map_cons]

/-- After `topk` entries a slot gives those up to the first with another value. -/
theorem collectEntries_full {v : R} {entries out : List (R × ℕ)} (hout : max topk 1 ≤ out.length)
    (hroom : out.length < maxSize) :
    collectEntries none topk maxSize entries v out =
      (v, out ++ (upTo v entries).take (maxSize - out.length)) := by
  induction entries generalizing out with
  | nil => simp [collectEntries, upTo]
  | cons e entries ih =>
    have hlen : (out ++ [e]).length = out.length + 1 := List.length_append
    rw [collectEntries_cons_of_pos (show passes none e.2 = true from rfl)]
    have hone : maxSize - out.length = (maxSize - (out.length + 1)) + 1 := by omega
    by_cases he : e.1 = v
    · have hupTo : upTo v (e :: entries) = e :: upTo v entries := by simp [upTo, he]
      rw [hupTo, hone, List.take_succ_cons]
      by_cases hcap : maxSize ≤ out.length + 1
      · rw [if_pos hcap, show maxSize - (out.length + 1) = 0 by omega, List.take_zero]
      · rw [if_neg hcap, if_neg (fun h => h.2 he.symm), he, ih (by omega) (by omega), hlen,
          List.append_assoc]
        rfl
    · have hupTo : upTo v (e :: entries) = [e] := by simp [upTo, he]
      rw [hupTo, hone, List.take_succ_cons, List.take_nil]
      split_ifs with hcap hstop
      · rfl
      · rfl
      · exact absurd ⟨by omega, Ne.symm he⟩ hstop

/-- Until there are `topk` entries all are taken. -/
theorem collectEntries_append {first entries out : List (R × ℕ)} {lastScore : R}
    (hout : out.length + first.length ≤ topk) (hmax : topk < maxSize) :
    collectEntries none topk maxSize (first ++ entries) lastScore out =
      collectEntries none topk maxSize entries ((first.getLast?.map Prod.fst).getD lastScore)
        (out ++ first) := by
  induction first generalizing lastScore out with
  | nil => simp
  | cons e first ih =>
    have hlen : (out ++ [e]).length = out.length + 1 := List.length_append
    rw [List.length_cons] at hout
    rw [List.cons_append, collectEntries_cons_of_pos (show passes none e.2 = true from rfl),
      if_neg (by omega), if_neg (fun h => by have := h.1; omega), ih (by omega), List.append_assoc,
      List.getLast?_cons]
    congr 1
    cases first.getLast? <;> rfl

theorem reachSlots_cons (v : R) (n : ℕ) (entries : List (R × ℕ))
    (slots : List (List (R × ℕ))) : reachSlots v n (entries :: slots) =
      entries.take n ++ upTo v (entries.drop n) ++ reachSlots v (n - entries.length) slots :=
  rfl

/-- After `topk` entries each slot gives those up to the first with another value. -/
theorem collectSlots_full {v : R} {slots : List (List (R × ℕ))} {out : List (R × ℕ)}
    (hout : max topk 1 ≤ out.length) (hroom : out.length ≤ maxSize) :
    collectSlots none topk maxSize slots v out =
      out ++ (reachSlots v 0 slots).take (maxSize - out.length) := by
  induction slots generalizing out with
  | nil => simp [collectSlots, reachSlots]
  | cons entries slots ih =>
    unfold collectSlots
    by_cases hlt : out.length < maxSize
    · rw [if_pos hlt]
      show collectSlots none topk maxSize slots _ _ = _
      rw [collectEntries_full hout hlt, ih (by rw [List.length_append]; omega)
        (by rw [List.length_append, List.length_take]; omega)]
      rw [reachSlots_cons, List.take_zero, List.nil_append, List.drop_zero, Nat.zero_sub, List.take_append,
        List.append_assoc, List.length_append, List.length_take]
      congr 3
      omega
    · rw [if_neg hlt, show maxSize - out.length = 0 by omega, List.take_zero, List.append_nil]

/-- The loops collect what is within reach, up to `max_size` entries. -/
theorem collectSlots_eq {v : R} {slots : List (List (R × ℕ))} {lastScore : R} {out : List (R × ℕ)}
    (hmax : topk < maxSize) (hout : out.length < topk)
    (hv : ∀ e, slots.flatten[topk - out.length - 1]? = some e → e.1 = v) :
    collectSlots none topk maxSize slots lastScore out =
      out ++ (reachSlots v (topk - out.length) slots).take (maxSize - out.length) := by
  induction slots generalizing lastScore out with
  | nil => simp [collectSlots, reachSlots]
  | cons entries slots ih =>
    unfold collectSlots
    rw [if_pos (by omega)]
    show collectSlots none topk maxSize slots _ _ = _
    rw [reachSlots_cons]
    by_cases hfew : out.length + entries.length < topk
    · -- the slot does not fill the first `topk`
      have htaken := @collectEntries_append _ _ topk maxSize entries [] out lastScore hfew.le hmax
      rw [List.append_nil] at htaken
      have hlen : (out ++ entries).length = out.length + entries.length := List.length_append
      rw [htaken]
      show collectSlots none topk maxSize slots _ (out ++ entries) = _
      have hall : ∀ k, entries.length ≤ k → entries.take k = entries := fun k =>
        List.take_of_length_le
      rw [ih (by omega), hlen, hall _ (by omega), List.drop_of_length_le (by omega), List.take_append,
        List.take_append, hall _ (by omega)]
      · simp only [upTo, List.takeWhile_nil, List.dropWhile_nil, List.take_nil, List.append_nil,
          List.append_assoc, Nat.sub_sub]
      · intro e he
        refine hv e ?_
        rw [List.flatten_cons, List.getElem?_append_right (by omega)]
        rw [hlen] at he
        rw [← he]
        congr 1
        omega
    · -- the `topk`-th entry is in this slot
      set n := topk - out.length with hn
      have hfirst : (entries.take n).length = n := by rw [List.length_take]; omega
      have htaken := @collectEntries_append _ _ topk maxSize (entries.take n) (entries.drop n) out
        lastScore (by omega) hmax
      rw [List.take_append_drop] at htaken
      have hlast : ((entries.take n).getLast?.map Prod.fst).getD lastScore = v := by
        have hget : (entries.take n).getLast? = some (entries[n - 1]) := by
          rw [List.getLast?_eq_getElem?, hfirst, List.getElem?_take_of_lt (by omega)]
          exact List.getElem?_eq_getElem _
        rw [hget]
        refine hv _ ?_
        rw [List.flatten_cons, List.getElem?_append_left (by omega)]
        exact List.getElem?_eq_getElem _
      have hlen : (out ++ entries.take n).length = topk := by rw [List.length_append, hfirst]; omega
      rw [htaken, hlast, collectEntries_full (by omega) (by omega), hlen]
      show collectSlots none topk maxSize slots v
        (out ++ entries.take n ++ (upTo v (entries.drop n)).take (maxSize - topk)) = _
      have hlen' : (out ++ entries.take n ++ (upTo v (entries.drop n)).take (maxSize - topk)).length =
          topk + min (maxSize - topk) (upTo v (entries.drop n)).length := by
        rw [List.length_append, hlen, List.length_take]
      rw [collectSlots_full (by omega) (by omega), hlen', show n - entries.length = 0 by omega,
        List.take_append, List.take_append, List.length_append, hfirst, List.take_of_length_le
          (show (entries.take n).length ≤ maxSize - out.length by omega), List.append_assoc,
        List.append_assoc]
      rw [show maxSize - out.length - n = maxSize - topk by omega, List.append_assoc,
        show maxSize - (topk + min (maxSize - topk) (upTo v (entries.drop n)).length) =
          maxSize - out.length - (n + (upTo v (entries.drop n)).length) by omega]

theorem reachSlots_of_length_le {v : R} {n : ℕ} {slots : List (List (R × ℕ))}
    (h : slots.flatten.length ≤ n) : reachSlots v n slots = slots.flatten := by
  induction slots generalizing n with
  | nil => rfl
  | cons entries slots ih =>
    rw [List.flatten_cons, List.length_append] at h
    unfold reachSlots
    rw [List.take_of_length_le (by omega), List.drop_of_length_le (by omega), ih (by omega)]
    simp [upTo]

theorem collect_eq [Zero R] (m : RangedMap R) (htopk : 1 ≤ topk) (orderAsc : Bool)
    (filter : Option (ℕ → Bool)) :
    m.collect topk orderAsc filter = (m.reach topk orderAsc filter).take (topk * 2) := by
  unfold collect
  rw [collectSlots_filter]
  show collectSlots none topk (topk * 2) (m.passingSlots orderAsc filter) 0 [] = _
  unfold reach
  cases hget : (m.passingSlots orderAsc filter).flatten[topk - 1]? with
  | none =>
    have hlen := List.getElem?_eq_none_iff.1 hget
    rw [@collectSlots_eq _ _ _ _ 0 _ _ _ (by omega) (show ([] : List (R × ℕ)).length < topk from htopk)
      fun e he => absurd (hget.symm.trans he) (by simp), List.length_nil, Nat.sub_zero, Nat.sub_zero,
      reachSlots_of_length_le (by omega), List.nil_append]
  | some e =>
    rw [@collectSlots_eq _ _ _ _ e.1 _ _ _ (by omega) (show ([] : List (R × ℕ)).length < topk from htopk)
      fun e' he' => by rw [Option.some.inj (he'.symm.trans hget)], List.length_nil, Nat.sub_zero,
      Nat.sub_zero, List.nil_append]

end Collect

/-! ## The comparator -/

section Order

variable {m : RangedMap R} {outside : R} {orderAsc : Bool}

theorem ahead_irrefl (orderAsc : Bool) (v : R) : ahead orderAsc v v = false := by
  cases orderAsc <;> simp [ahead]

theorem ahead_asymm {u v : R} (h : ahead orderAsc u v = true) : ahead orderAsc v u = false := by
  cases orderAsc with
  | false => simpa [ahead] using le_of_lt (by simpa [ahead] using h)
  | true => simpa [ahead] using le_of_lt (by simpa [ahead] using h)

theorem ahead_of_not {u v : R} (hne : u ≠ v) (h : ahead orderAsc u v = false) :
    ahead orderAsc v u = true := by
  cases orderAsc with
  | false => simpa [ahead] using lt_of_le_of_ne (by simpa [ahead] using h) hne
  | true => simpa [ahead] using lt_of_le_of_ne (by simpa [ahead] using h) hne.symm

theorem ahead_trans_not {u v w : R} (huv : ahead orderAsc u v = true)
    (hwv : ahead orderAsc w v = false) : ahead orderAsc u w = true := by
  cases orderAsc with
  | false =>
    simp only [ahead, Bool.false_eq_true, if_false, decide_eq_true_eq, decide_eq_false_iff_not,
      not_lt] at *
    exact lt_of_le_of_lt hwv huv
  | true =>
    simp only [ahead, if_true, decide_eq_true_eq, decide_eq_false_iff_not, not_lt] at *
    exact lt_of_lt_of_le huv hwv

theorem fieldsBefore_cons {fields : List (RangedMap R × Bool)} {a b : ℕ} {v w : R}
    (hv : m.getScoreByOffset outside a = some v) (hw : m.getScoreByOffset outside b = some w) :
    fieldsBefore outside ((m, orderAsc) :: fields) a b =
      if v ≠ w then ahead orderAsc v w else fieldsBefore outside fields a b := by
  simp only [fieldsBefore, hv, hw]
  by_cases hne : v ≠ w
  · rw [if_pos hne, if_pos hne]
    cases orderAsc with
    | false => simp [ahead]
    | true =>
      rcases lt_or_gt_of_ne hne with hlt | hlt
      · simp [ahead, hlt, not_lt_of_gt hlt]
      · simp [ahead, hlt, not_lt_of_gt hlt]
  · rw [if_neg hne, if_neg hne]

/-- With a value of each field for each offset the comparator is a strict weak order. -/
theorem strictWeak_fieldsBefore (outside : R) {fields : List (RangedMap R × Bool)}
    {elems : List ℕ} (hvalue : ∀ c ∈ fields, ∀ o ∈ elems, (c.1.valueAt o).isSome) :
    StrictWeak (fieldsBefore outside fields) elems := by
  induction fields with
  | nil => exact ⟨fun _ _ => rfl, fun _ _ _ _ h => absurd h (by simp [fieldsBefore]), fun _ _ _ _ _ _ _ _ => rfl⟩
  | cons c fields ih =>
    obtain ⟨m, orderAsc⟩ := c
    have hrest := ih fun c hc => hvalue c (List.mem_cons_of_mem _ hc)
    have hscore : ∀ o ∈ elems, ∃ v, m.getScoreByOffset outside o = some v := by
      intro o ho
      obtain ⟨v, hv⟩ := Option.isSome_iff_exists.1 (hvalue _ List.mem_cons_self o ho)
      exact ⟨v, getScoreByOffset_eq hv⟩
    refine ⟨fun a ha => ?_, fun a ha b hb hab => ?_, fun a ha b hb c hc hab hbc => ?_⟩
    · obtain ⟨u, hu⟩ := hscore a ha
      rw [fieldsBefore_cons hu hu, if_neg (by simp)]
      exact hrest.irrefl a ha
    · obtain ⟨u, hu⟩ := hscore a ha
      obtain ⟨v, hv⟩ := hscore b hb
      rw [fieldsBefore_cons hu hv] at hab
      rw [fieldsBefore_cons hv hu]
      by_cases hne : u ≠ v
      · rw [if_pos hne] at hab
        rw [if_pos hne.symm]
        exact ahead_asymm hab
      · rw [if_neg hne] at hab
        rw [if_neg fun h => hne h.symm]
        exact hrest.asymm a ha b hb hab
    · obtain ⟨u, hu⟩ := hscore a ha
      obtain ⟨v, hv⟩ := hscore b hb
      obtain ⟨w, hw⟩ := hscore c hc
      rw [fieldsBefore_cons hu hv] at hab
      rw [fieldsBefore_cons hv hw] at hbc
      rw [fieldsBefore_cons hu hw]
      by_cases huv : u = v
      · subst huv
        rw [if_neg (by simp)] at hab
        by_cases hne : u ≠ w
        · rw [if_pos hne] at hbc ⊢
          exact hbc
        · rw [if_neg hne] at hbc ⊢
          exact hrest.trans a ha b hb c hc hab hbc
      · rw [if_pos huv] at hab
        have hvu := ahead_of_not huv hab
        by_cases hvw : v = w
        · subst hvw
          rw [if_pos huv]
          exact hab
        · rw [if_pos hvw] at hbc
          have hwu := ahead_trans_not (ahead_of_not hvw hbc) hab
          rw [if_pos fun h => by rw [h, ahead_irrefl] at hwu; cases hwu]
          exact ahead_asymm hwu

end Order

/-! ## The best by all fields -/

section Reached

variable {m : RangedMap R} {outside : R} {orderAsc : Bool} {filter : Option (ℕ → Bool)} {topk : ℕ}

omit [LinearOrder R] in
theorem flatten_map_perm (slots : List (List (R × ℕ))) (orderAsc : Bool) :
    (slots.map fun s => if orderAsc then s else s.reverse).flatten.Perm slots.flatten := by
  induction slots with
  | nil => exact List.Perm.refl _
  | cons s slots ih =>
    rw [List.map_cons, List.flatten_cons, List.flatten_cons]
    refine List.Perm.append ?_ ih
    cases orderAsc with
    | true => exact List.Perm.refl _
    | false => exact List.reverse_perm s

omit [LinearOrder R] in
theorem flatten_passingSlots (m : RangedMap R) (orderAsc : Bool) (filter : Option (ℕ → Bool)) :
    (m.passingSlots orderAsc filter).flatten =
      (m.scanned orderAsc).flatten.filter fun e => passes filter e.2 := by
  unfold passingSlots
  rw [List.filter_flatten]

theorem Inv.perm_passingSlots (h : m.Inv) (orderAsc : Bool) (filter : Option (ℕ → Bool)) :
    (m.passingSlots orderAsc filter).flatten.Perm (m.passing filter) := by
  refine List.Perm.trans ?_ (h.perm_passing filter)
  rw [flatten_passingSlots]
  refine List.Perm.filter _ ?_
  have hperm := flatten_map_perm (m.slots.map SlotMeta.vec) orderAsc
  rw [List.map_map] at hperm
  exact hperm

theorem upTo_sublist (v : R) (entries : List (R × ℕ)) : (upTo v entries).Sublist entries := by
  refine ((List.Sublist.refl _).append (List.take_sublist 1 _)).trans ?_
  rw [List.takeWhile_append_dropWhile]

theorem reachSlots_sublist (v : R) (n : ℕ) (slots : List (List (R × ℕ))) :
    (reachSlots v n slots).Sublist slots.flatten := by
  induction slots generalizing n with
  | nil => exact List.Sublist.refl _
  | cons entries slots ih =>
    rw [reachSlots_cons, List.flatten_cons]
    refine List.Sublist.append ?_ (ih _)
    refine ((List.Sublist.refl _).append (upTo_sublist v _)).trans ?_
    rw [List.take_append_drop]

theorem reach_sublist (m : RangedMap R) (topk : ℕ) (orderAsc : Bool) (filter : Option (ℕ → Bool)) :
    (m.reach topk orderAsc filter).Sublist (m.passingSlots orderAsc filter).flatten := by
  unfold reach
  cases (m.passingSlots orderAsc filter).flatten[topk - 1]? with
  | none => exact List.Sublist.refl _
  | some e => exact reachSlots_sublist _ _ _

/-- What is collected is a part of what passes. -/
theorem Inv.collect_part [Zero R] (h : m.Inv) (htopk : 1 ≤ topk) (orderAsc : Bool)
    (filter : Option (ℕ → Bool)) :
    ∃ others, (m.collect topk orderAsc filter ++ others).Perm (m.passing filter) := by
  rw [collect_eq m htopk]
  obtain ⟨others, hperm⟩ := ((List.take_sublist (topk * 2) _).trans
    (reach_sublist m topk orderAsc filter)).exists_perm_append
  exact ⟨others, hperm.symm.trans (h.perm_passingSlots orderAsc filter)⟩

theorem Inv.nodup_passing (h : m.Inv) (filter : Option (ℕ → Bool)) :
    ((m.passing filter).map Prod.snd).Nodup := by
  rw [← ((h.perm_passing filter).map Prod.snd).nodup_iff]
  exact (List.filter_sublist.map Prod.snd).nodup h.nodup

theorem Inv.valueAt_of_mem_passing (h : m.Inv) {e : R × ℕ} (he : e ∈ m.passing filter) :
    m.valueAt e.2 = some e.1 :=
  h.agree.1 (List.mem_of_mem_filter ((h.perm_passing filter).mem_iff.2 he))

theorem sortedLe_iff {e f : R × ℕ} : SortedLe orderAsc e f ↔ ahead orderAsc f.1 e.1 = false := by
  cases orderAsc <;> simp [SortedLe, ahead]

/-- The best `topk` by the first field are among the foremost, and ahead of what is not. -/
theorem Inv.foremost_spec (h : m.Inv) (topk : ℕ) (orderAsc : Bool) (filter : Option (ℕ → Bool)) :
    (∀ e ∈ m.getTopkResult topk orderAsc filter, e ∈ m.foremost topk orderAsc filter) ∧
      ∀ b ∈ m.passing filter, b ∉ m.foremost topk orderAsc filter →
        (m.getTopkResult topk orderAsc filter).length = topk ∧
          ∀ e ∈ m.getTopkResult topk orderAsc filter, ahead orderAsc e.1 b.1 = true := by
  set out := m.getTopkResult topk orderAsc filter with hout
  have hbest : IsTopK (SortedLe orderAsc) topk (m.passing filter) out :=
    (h.isTopK_getTopkResult topk orderAsc filter).perm_all (h.perm_passing filter)
  obtain ⟨rest, hperm, hrest⟩ := hbest.rest
  have hfew : ∀ e ∈ out, (m.passing filter).countP (fun f => ahead orderAsc f.1 e.1) < topk := by
    intro e he
    have hnone : rest.countP (fun f => ahead orderAsc f.1 e.1) = 0 :=
      List.countP_eq_zero.2 fun f hf => by simpa using sortedLe_iff.1 (hrest e he f hf)
    rw [← hperm.countP_eq, List.countP_append, hnone, Nat.add_zero]
    have hlt : out.countP (fun f => ahead orderAsc f.1 e.1) < out.length := by
      refine lt_of_le_of_ne List.countP_le_length fun heq => ?_
      have hall := List.countP_eq_length.1 heq e he
      simp [ahead_irrefl] at hall
    have hlen := hbest.length
    omega
  refine ⟨fun e he => List.mem_filter.2 ⟨hbest.mem_all he, by simpa using hfew e he⟩,
    fun b hb hnot => ?_⟩
  have hmany : topk ≤ (m.passing filter).countP fun f => ahead orderAsc f.1 b.1 := by
    by_contra hlt
    exact hnot (List.mem_filter.2 ⟨hb, by simpa using hlt⟩)
  refine ⟨?_, fun e he => ?_⟩
  · have hlen := hbest.length
    have hle : (m.passing filter).countP (fun f => ahead orderAsc f.1 b.1) ≤ _ :=
      List.countP_le_length
    omega
  · by_contra hnot'
    have hmono := List.countP_mono_left (l := m.passing filter)
      (p := fun f => ahead orderAsc f.1 b.1) (q := fun f => ahead orderAsc f.1 e.1)
      fun f _ hf => ahead_trans_not hf (by simpa using hnot')
    have := hfew e he
    omega

/-- The comparator leaves two offsets in order where the first field puts the first ahead. -/
theorem fieldsBefore_of_ahead {conditions : List (RangedMap R × Bool)} {a b : ℕ} {v w : R}
    (hv : m.valueAt a = some v) (hw : m.valueAt b = some w) (hahead : ahead orderAsc v w = true) :
    fieldsBefore outside ((m, orderAsc) :: conditions) b a = false := by
  have hne : w ≠ v := by
    rintro rfl
    rw [ahead_irrefl] at hahead
    cases hahead
  rw [fieldsBefore_cons (getScoreByOffset_eq hw) (getScoreByOffset_eq hv), if_pos hne]
  exact ahead_asymm hahead

/-- Where all the foremost are within reach, the answer is the best by all fields. -/
theorem Inv.lexTopK_of_reached [Zero R] {slotSize : ℕ} (h : m.Inv) (htopk : 1 ≤ topk) (hint : topk < 2 ^ 30)
    (hreached : ∀ e ∈ m.foremost topk orderAsc filter,
      e ∈ (m.reach topk orderAsc filter).take (topk * 2)) :
    LexTopK slotSize m outside topk orderAsc filter := by
  intro conditions _ hvalue out hout
  obtain ⟨offsets, hsorts, rfl⟩ := hout (by unfold kRangedMapSortMultiplier; omega)
  obtain ⟨others, hpart⟩ := h.collect_part htopk orderAsc filter
  have hpassing : ∀ o ∈ (m.passing filter).map Prod.snd, ∃ v, m.valueAt o = some v := by
    intro o ho
    obtain ⟨e, he, rfl⟩ := List.mem_map.1 ho
    exact ⟨e.1, h.valueAt_of_mem_passing he⟩
  have hall : ∀ c ∈ (m, orderAsc) :: conditions, ∀ o ∈ (m.passing filter).map Prod.snd,
      (c.1.valueAt o).isSome := by
    intro c hc o ho
    obtain ⟨v, hv⟩ := hpassing o ho
    rcases List.mem_cons.1 hc with rfl | hc
    · rw [hv]
      rfl
    · exact hvalue c hc o (by rw [hv]; rfl)
  have hperm := hpart.map Prod.snd
  rw [List.map_append] at hperm
  have hweak := strictWeak_fieldsBefore outside hall
  obtain ⟨hoffsets, hsorted⟩ := hsorts (strictWeak_fieldsBefore outside fun c hc o ho =>
    hall c hc o (hperm.mem_iff.1 (List.mem_append_left _ ho)))
  refine (isTopK_take hsorted hoffsets topk).extend ?_ hperm ?_
  · intro a ha b hb c hc hab hbc
    exact hweak.trans c hc b hb a ha hbc hab
  · intro o ho
    obtain ⟨b, hb, rfl⟩ := List.mem_map.1 ho
    have hnodup := hpart.nodup_iff.2 (List.Nodup.of_map _ (h.nodup_passing filter))
    have hmem := hpart.mem_iff.1 (List.mem_append_right _ hb)
    have hnot : b ∉ m.foremost topk orderAsc filter := by
      intro hb'
      have hcollected := hreached b hb'
      rw [← collect_eq m htopk] at hcollected
      exact (List.nodup_append.1 hnodup).2.2 b hcollected b hb rfl
    obtain ⟨hforemost, hahead⟩ := h.foremost_spec topk orderAsc filter
    obtain ⟨hlen, hahead⟩ := hahead b hmem hnot
    have hin : ∀ e ∈ m.getTopkResult topk orderAsc filter, e ∈ m.collect topk orderAsc filter := by
      intro e he
      rw [collect_eq m htopk]
      exact hreached e (hforemost e he)
    refine ⟨(m.getTopkResult topk orderAsc filter).map Prod.snd, ?_, ?_, ?_⟩
    · refine List.subperm_of_subset ?_ (List.map_subset Prod.snd hin)
      have hbest := (h.isTopK_getTopkResult topk orderAsc filter).perm_all (h.perm_passing filter)
      obtain ⟨rest, hrest, -⟩ := hbest.rest
      have hnodup' := (hrest.map Prod.snd).nodup_iff.2 (h.nodup_passing filter)
      rw [List.map_append] at hnodup'
      exact (List.nodup_append.1 hnodup').1
    · rw [List.length_map, hlen]
    · intro a ha
      obtain ⟨e, he, rfl⟩ := List.mem_map.1 ha
      have hepassing : e ∈ m.passing filter := List.mem_of_mem_filter (hforemost e he)
      exact fieldsBefore_of_ahead (h.valueAt_of_mem_passing hepassing)
        (h.valueAt_of_mem_passing hmem) (hahead e he)

/-- One of the foremost out of reach is left out where a further field puts it before the others. -/
theorem Inv.reached_of_lexTopK [Zero R] [Nontrivial R] {slotSize : ℕ} (hsize : 1 ≤ slotSize)
    (h : m.Inv) (hm : m.size < 2 ^ 32) (htopk : 1 ≤ topk)
    (hlex : LexTopK slotSize m outside topk orderAsc filter) :
    topk < 2 ^ 30 ∧ ∀ e ∈ m.foremost topk orderAsc filter,
      e ∈ (m.reach topk orderAsc filter).take (topk * 2) := by
  constructor
  · by_contra hlarge
    have hlen := (hlex [] (by simp) (by simp)
      (List.replicate (((m.passing filter).map Prod.snd).length + 1) 0) fun hint => by
        unfold kRangedMapSortMultiplier at hint
        omega).length
    rw [List.length_replicate] at hlen
    omega
  · intro e he
    by_contra hout
    rw [← collect_eq m htopk] at hout
    obtain ⟨hepassing, hfew⟩ := List.mem_filter.1 he
    have hfew : (m.passing filter).countP (fun f => ahead orderAsc f.1 e.1) < topk := by
      simpa using hfew
    have hevalue := h.valueAt_of_mem_passing hepassing
    -- a further field in which this offset comes first
    obtain ⟨low, high, hlow⟩ := exists_pair_lt R
    obtain ⟨c, hrun, -, -, hc⟩ := run_fillWith hsize (fun o => if o = e.2 then low else high) hm
    have hcvalue : ∀ o v, m.valueAt o = some v →
        c.valueAt o = some (if o = e.2 then low else high) := by
      intro o v hv
      rw [hc, if_pos (m.lt_size hv)]
    obtain ⟨others, hpart⟩ := h.collect_part htopk orderAsc filter
    have hcollected : ∀ f ∈ m.collect topk orderAsc filter, f ∈ m.passing filter := fun f hf =>
      hpart.mem_iff.1 (List.mem_append_left _ hf)
    have hweak : StrictWeak (fieldsBefore outside [(m, orderAsc), (c, true)])
        ((m.collect topk orderAsc filter).map Prod.snd) := by
      refine strictWeak_fieldsBefore outside fun c' hc' o ho => ?_
      obtain ⟨f, hf, rfl⟩ := List.mem_map.1 ho
      have hv := h.valueAt_of_mem_passing (hcollected f hf)
      rcases List.mem_cons.1 hc' with rfl | hc'
      · rw [hv]
        rfl
      · obtain rfl := List.mem_singleton.1 hc'
        rw [hcvalue _ _ hv]
        rfl
    obtain ⟨offsets, hperm, hsorted⟩ := exists_ordered hweak
    have hbest := hlex [(c, true)]
      (fun c' hc' => by
        obtain rfl := List.mem_singleton.1 hc'
        exact ⟨_, hrun⟩)
      (fun c' hc' o ho => by
        obtain rfl := List.mem_singleton.1 hc'
        obtain ⟨v, hv⟩ := Option.isSome_iff_exists.1 ho
        rw [hcvalue _ _ hv]
        rfl)
      (offsets.reverse.take topk)
      fun _ => ⟨offsets.reverse, fun _ => ⟨(List.reverse_perm _).trans hperm,
        List.pairwise_reverse.2 hsorted⟩, rfl⟩
    obtain ⟨rest, hrest, hle⟩ := hbest.rest
    set out := offsets.reverse.take topk with hout'
    have hentry : ∀ o ∈ out, ∃ f ∈ m.collect topk orderAsc filter, f.2 = o := by
      intro o ho
      have := hperm.mem_iff.1 (List.mem_reverse.1 (List.mem_of_mem_take ho))
      obtain ⟨f, hf, rfl⟩ := List.mem_map.1 this
      exact ⟨f, hf, rfl⟩
    have hne : ∀ f ∈ m.collect topk orderAsc filter, f.2 ≠ e.2 := by
      intro f hf heq
      have hv := h.valueAt_of_mem_passing (hcollected f hf)
      rw [heq, hevalue] at hv
      exact hout (by rwa [show e = f from Prod.ext (Option.some.inj hv) heq.symm])
    have heRest : e.2 ∈ rest := by
      rcases List.mem_append.1 (hrest.mem_iff.2 (List.mem_map_of_mem hepassing)) with ho | ho
      · obtain ⟨f, hf, heq⟩ := hentry _ ho
        exact absurd heq (hne f hf)
      · exact ho
    -- all that was returned goes before it by the first field
    have hahead : ∀ o ∈ out, o ∈ ((m.passing filter).filter fun f => ahead orderAsc f.1 e.1).map
        Prod.snd := by
      intro o ho
      obtain ⟨f, hf, rfl⟩ := hentry o ho
      refine List.mem_map_of_mem (List.mem_filter.2 ⟨hcollected f hf, ?_⟩)
      have hfvalue := h.valueAt_of_mem_passing (hcollected f hf)
      have hbefore := hle _ ho _ heRest
      rw [fieldsBefore_cons (getScoreByOffset_eq hevalue) (getScoreByOffset_eq hfvalue)] at hbefore
      by_cases htie : e.1 ≠ f.1
      · rw [if_pos htie] at hbefore
        exact ahead_of_not htie hbefore
      · rw [if_neg htie, fieldsBefore_cons (getScoreByOffset_eq (hcvalue _ _ hevalue))
          (getScoreByOffset_eq (hcvalue _ _ hfvalue)), if_pos rfl, if_neg (hne f hf),
          if_pos hlow.ne] at hbefore
        simp [ahead, hlow] at hbefore
    have hnodup := (hrest.nodup_iff.2 (h.nodup_passing filter))
    have hcount := (List.subperm_of_subset (List.nodup_append.1 hnodup).1 hahead).length_le
    rw [List.length_map, ← List.countP_eq_length_filter] at hcount
    have hlen := hbest.length
    have hall := hrest.length_eq
    have hpos := List.length_pos_of_mem heRest
    rw [List.length_append] at hall
    omega

/-! ## Ascending -/

theorem takeWhile_le_eq {v : R} {entries : List (R × ℕ)} (h : ∀ e ∈ entries, v ≤ e.1) :
    entries.takeWhile (fun e => e.1 ≤ v) = entries.takeWhile fun e => e.1 = v := by
  induction entries with
  | nil => rfl
  | cons e entries ih =>
    have hiff : e.1 ≤ v ↔ e.1 = v := ⟨fun hle => le_antisymm hle (h e List.mem_cons_self), le_of_eq⟩
    rw [List.takeWhile_cons, List.takeWhile_cons, ih fun f hf => h f (List.mem_cons_of_mem _ hf)]
    simp only [hiff]

/-- Upwards, all entries up to a value are within reach. -/
theorem takeWhile_prefix_reachSlots {v : R} {n : ℕ} {slots : List (List (R × ℕ))}
    (hfirst : ∀ e ∈ slots.flatten.take n, e.1 ≤ v) (hafter : ∀ e ∈ slots.flatten.drop n, v ≤ e.1) :
    slots.flatten.takeWhile (fun e => e.1 ≤ v) <+: reachSlots v n slots := by
  induction slots generalizing n with
  | nil => exact List.prefix_refl _
  | cons entries slots ih =>
    rw [List.flatten_cons] at hfirst hafter ⊢
    rw [List.take_append] at hfirst
    rw [List.drop_append] at hafter
    have hdrop : ∀ e ∈ entries.drop n, v ≤ e.1 := fun e he => hafter e (List.mem_append_left _ he)
    rw [reachSlots_cons]
    by_cases hall : ∀ e ∈ entries, e.1 ≤ v
    · have hsame : ∀ e ∈ entries.drop n, e.1 = v := fun e he =>
        le_antisymm (hall e (List.mem_of_mem_drop he)) (hdrop e he)
      have hupTo : upTo v (entries.drop n) = entries.drop n := by
        unfold upTo
        rw [List.takeWhile_eq_self_iff.2 (by simpa using hsame),
          List.dropWhile_eq_nil_iff.2 (by simpa using hsame), List.take_nil, List.append_nil]
      rw [List.takeWhile_append_of_pos (by simpa using hall), hupTo, List.take_append_drop]
      refine (List.prefix_append_right_inj entries).2 (ih ?_ ?_)
      · exact fun e he => hfirst e (List.mem_append_right _ he)
      · exact fun e he => hafter e (List.mem_append_right _ he)
    · have hfront : ∀ e ∈ entries.take n, e.1 ≤ v := fun e he =>
        hfirst e (List.mem_append_left _ he)
      have hshort : (entries.takeWhile fun e => e.1 ≤ v).length ≠ entries.length := by
        intro hlen
        refine hall fun e he => ?_
        have hself := (List.takeWhile_prefix fun e : R × ℕ => decide (e.1 ≤ v)).eq_of_length hlen
        rw [← hself] at he
        simpa using List.mem_takeWhile_imp he
      rw [List.takeWhile_append, if_neg hshort]
      have hsplit : entries.takeWhile (fun e => e.1 ≤ v) =
          entries.take n ++ (entries.drop n).takeWhile fun e => e.1 = v := by
        rw [← takeWhile_le_eq hdrop, ← List.takeWhile_append_of_pos (by simpa using hfront),
          List.take_append_drop]
      rw [hsplit]
      unfold upTo
      rw [List.append_assoc, List.append_assoc]
      exact (List.prefix_append_right_inj _).2 (List.prefix_append _ _)

/-- Upwards, the foremost are within reach where they are at most twice `topk`. -/
theorem Inv.reached_iff_length [Zero R] (h : m.Inv) (htopk : 1 ≤ topk) :
    (∀ e ∈ m.foremost topk true filter, e ∈ (m.reach topk true filter).take (topk * 2)) ↔
      (m.foremost topk true filter).length ≤ topk * 2 := by
  have hnodup : (m.foremost topk true filter).Nodup :=
    (List.Nodup.of_map _ (h.nodup_passing filter)).filter _
  constructor
  · intro hall
    have hle := (List.subperm_of_subset hnodup hall).length_le
    rw [List.length_take] at hle
    omega
  · intro hfew e he
    obtain ⟨hepassing, hecount⟩ := List.mem_filter.1 he
    have hperm := h.perm_passingSlots true filter
    set entries := (m.passingSlots true filter).flatten with hentries
    have hsorted : entries.Pairwise fun p q => p.1 ≤ q.1 := by
      rw [hentries, flatten_passingSlots]
      exact h.sorted.filter _
    have hmem := hperm.mem_iff.2 hepassing
    unfold reach
    rw [← hentries]
    cases hget : entries[topk - 1]? with
    | none =>
      have hlen := List.getElem?_eq_none_iff.1 hget
      show e ∈ entries.take (topk * 2)
      rwa [List.take_of_length_le (by omega)]
    | some f =>
      obtain ⟨k, rfl⟩ := Nat.exists_eq_add_of_le' htopk
      show e ∈ (reachSlots f.1 (k + 1) (m.passingSlots true filter)).take ((k + 1) * 2)
      obtain ⟨hlt, hf⟩ := List.getElem?_eq_some_iff.1 hget
      have hsplit : entries.take k ++ f :: entries.drop (k + 1) = entries := by
        rw [← hf]
        exact (congrArg _ (List.getElem_cons_drop hlt)).trans (List.take_append_drop k entries)
      have hsorted' := hsorted
      rw [← hsplit] at hsorted'
      obtain ⟨-, hback, hfront⟩ := List.pairwise_append.1 hsorted'
      have hfirst : ∀ x ∈ entries.take (k + 1), x.1 ≤ f.1 := by
        intro x hx
        rw [List.take_add_one, show entries[k]? = some f from hget] at hx
        rcases List.mem_append.1 hx with hx | hx
        · exact hfront x hx f List.mem_cons_self
        · exact le_of_eq (congrArg Prod.fst (List.mem_singleton.1 hx))
      have hafter : ∀ x ∈ f :: entries.drop (k + 1), f.1 ≤ x.1 := by
        intro x hx
        rcases List.mem_cons.1 hx with rfl | hx
        · exact le_rfl
        · exact (List.pairwise_cons.1 hback).1 x hx
      have hele : e.1 ≤ f.1 := by
        by_contra hnot
        have hcount : entries.countP (fun x => ahead true x.1 e.1) < k + 1 := by
          rw [hperm.countP_eq]
          simpa using hecount
        rw [← List.take_append_drop (k + 1) entries, List.countP_append, List.countP_eq_length.2
          fun x hx => by simpa [ahead] using (hfirst x hx).trans_lt (not_le.1 hnot),
          List.length_take] at hcount
        omega
      have hpre := takeWhile_prefix_reachSlots hfirst fun x hx =>
        hafter x (List.mem_cons_of_mem _ hx)
      rw [← hentries] at hpre
      have hfilter := (takeWhile_eq_filter (p := fun x : R × ℕ => decide (x.1 ≤ f.1))
        (hsorted.imp fun hab hb => by simpa using hab.trans (by simpa using hb))).1
      have hlen : (entries.takeWhile fun x => x.1 ≤ f.1).length ≤ (k + 1) * 2 := by
        refine le_trans (List.Subperm.length_le (List.subperm_of_subset ?_ fun x hx => ?_)) hfew
        · rw [hfilter]
          exact (hperm.nodup_iff.2 (List.Nodup.of_map _ (h.nodup_passing filter))).filter _
        · rw [hfilter] at hx
          obtain ⟨hx, hxle⟩ := List.mem_filter.1 hx
          refine List.mem_filter.2 ⟨hperm.mem_iff.1 hx, ?_⟩
          have hnone : (f :: entries.drop (k + 1)).countP (fun y => ahead true y.1 x.1) = 0 :=
            List.countP_eq_zero.2 fun y hy => by
              simpa [ahead] using (show x.1 ≤ f.1 by simpa using hxle).trans (hafter y hy)
          have hle : (entries.take k).countP (fun y => ahead true y.1 x.1) ≤ _ :=
            List.countP_le_length
          rw [List.length_take] at hle
          rw [← hperm.countP_eq, ← hsplit, List.countP_append, hnone]
          simp only [decide_eq_true_eq]
          omega
      refine (List.prefix_take_iff.2 ⟨hpre, hlen⟩).subset ?_
      rw [hfilter]
      exact List.mem_filter.2 ⟨hmem, by simpa using hele⟩

end Reached

/-- **Sorting by several fields.**  Whatever the further fields, the answer is the best `topk` by all
of them exactly when `topk` is below `2 ^ 30` and each of the foremost by the first field is among
the first `2 * topk` within reach; ascending, that is when the foremost are at most so many. -/
theorem lexTopK_iff [Zero R] [Nontrivial R] {slotSize : ℕ} (hsize : 1 ≤ slotSize)
    {ops : List (RangedOp R)} {m : RangedMap R} (hrun : RangedOp.run slotSize empty ops = some m)
    (outside : R) {topk : ℕ} (htopk : 1 ≤ topk) (filter : Option (ℕ → Bool)) :
    (∀ orderAsc, LexTopK slotSize m outside topk orderAsc filter ↔
      topk < 2 ^ 30 ∧ ∀ e ∈ m.foremost topk orderAsc filter,
        e ∈ (m.reach topk orderAsc filter).take (topk * 2)) ∧
    (LexTopK slotSize m outside topk true filter ↔
      topk < 2 ^ 30 ∧ (m.foremost topk true filter).length ≤ topk * 2) := by
  obtain ⟨hinv, hlt⟩ := inv_of_run hsize hrun
  have hiff : ∀ orderAsc, LexTopK slotSize m outside topk orderAsc filter ↔
      topk < 2 ^ 30 ∧ ∀ e ∈ m.foremost topk orderAsc filter,
        e ∈ (m.reach topk orderAsc filter).take (topk * 2) := fun orderAsc =>
    ⟨hinv.reached_of_lexTopK hsize hlt htopk, fun h => hinv.lexTopK_of_reached htopk h.1 h.2⟩
  refine ⟨hiff, ?_⟩
  rw [hiff true, hinv.reached_iff_length htopk]

theorem lexTopK_twoValues : LexTopK kRangedMapSlotSize twoValues (-99999999) 1 true none :=
  (lexTopK_iff (by decide) run_twoValues _ le_rfl none).2.2 ⟨by norm_num, by decide⟩

/-- Three offsets with one value. -/
def threeTied : RangedMap ℤ :=
  ⟨[some 5, some 5, some 5], [⟨5, 5, {2, 1, 0}, [(5, 0), (5, 1), (5, 2)]⟩]⟩

theorem run_threeTied : RangedOp.run kRangedMapSlotSize (empty : RangedMap ℤ)
    [.addOffsetAndScore 0 5, .addOffsetAndScore 1 5, .addOffsetAndScore 2 5] = some threeTied := by
  decide

/-- Two of three offsets with one value are collected for the best one: the third is left out even
where the next field puts it first. -/
theorem lexTopK_fails :
    RangedOp.run kRangedMapSlotSize (empty : RangedMap ℤ) [.addOffsetAndScore 0 5,
        .addOffsetAndScore 1 5, .addOffsetAndScore 2 5] = some threeTied ∧
      ¬ LexTopK kRangedMapSlotSize threeTied (-99999999) 1 true none := by
  refine ⟨run_threeTied, fun hlex => ?_⟩
  have hbest := hlex [(⟨[some 2, some 2, some 1], [⟨1, 2, {2, 1, 0}, [(1, 2), (2, 0), (2, 1)]⟩]⟩, true)]
    (fun c hc => by
      obtain rfl := List.mem_singleton.1 hc
      exact ⟨[.addOffsetAndScore 0 2, .addOffsetAndScore 1 2, .addOffsetAndScore 2 1], by decide⟩)
    (fun c hc o ho => by
      obtain rfl := List.mem_singleton.1 hc
      obtain ⟨v, hv⟩ := Option.isSome_iff_exists.1 ho
      have hlt : o < 3 := threeTied.lt_size hv
      interval_cases o <;> rfl)
    [0] fun _ => ⟨[0, 1], fun _ => by decide, rfl⟩
  obtain ⟨rest, hperm, hle⟩ := hbest.rest
  have htwo : 2 ∈ [0] ++ rest := hperm.mem_iff.2 (by decide)
  have hrest : 2 ∈ rest := by simpa using htwo
  exact absurd (hle 0 List.mem_cons_self 2 hrest) (by decide)

end RangedMap

end OpenViking.VectorDB
