import OpenViking.Common.TopK
import OpenViking.VectorDB.RangedNearest
import Mathlib.Data.Finset.Sort

/-!
# Sorting by one field

The two ways in which a sorter of one field finds the best offsets of a filter
(`scalar/filter/sort_ops.cpp`): from slot to slot of the field's ranged map
(`get_topk_result_with_slot_data`, `ranged_map.cpp`, 245-290), or, for a small filter, by a priority
queue of its offsets (`_calc_topk_result_with_small_bitmap`, 496-592).

A field without a ranged map gives no list in either way.

Results:

* `RangedMap.Inv.isTopK_getTopkResult`: the walk over the slots has the best entries;
* `RangedMap.sortPathsAgree_iff`: when the two ways agree.
-/

namespace OpenViking.VectorDB

variable {R : Type}

namespace RangedMap

/-! ## The walk over the slots -/

/-- The loop over the entries of a slot: entries that pass are taken until there are `topk`. -/
def takeEntries (filter : Option (ℕ → Bool)) (topk : ℕ) :
    List (R × ℕ) → List (R × ℕ) → List (R × ℕ)
  | [], out => out
  | e :: entries, out =>
    if passes filter e.2 then
      if topk ≤ (out ++ [e]).length then out ++ [e] else takeEntries filter topk entries (out ++ [e])
    else takeEntries filter topk entries out

/-- The loop over the slots. -/
def takeSlots (filter : Option (ℕ → Bool)) (topk : ℕ) :
    List (List (R × ℕ)) → List (R × ℕ) → List (R × ℕ)
  | [], out => out
  | entries :: slots, out =>
    if out.length < topk then takeSlots filter topk slots (takeEntries filter topk entries out)
    else out

/-- `get_topk_result_with_slot_data`: the entries in the order of the answer. -/
def getTopkResult (m : RangedMap R) (topk : ℕ) (orderAsc : Bool) (filter : Option (ℕ → Bool)) :
    List (R × ℕ) :=
  if orderAsc then takeSlots filter topk (m.slots.map SlotMeta.vec) []
  else takeSlots filter topk (m.slots.reverse.map fun s => s.vec.reverse) []

variable {filter : Option (ℕ → Bool)}

theorem takeEntries_eq {topk : ℕ} {entries out : List (R × ℕ)} (hout : out.length < topk) :
    takeEntries filter topk entries out =
      out ++ (entries.filter fun e => passes filter e.2).take (topk - out.length) := by
  induction entries generalizing out with
  | nil => simp [takeEntries]
  | cons e entries ih =>
    unfold takeEntries
    by_cases hpass : passes filter e.2 = true
    · rw [if_pos hpass, List.filter_cons, if_pos hpass,
        show topk - out.length = (topk - (out.length + 1)) + 1 by omega, List.take_succ_cons,
        List.length_append, List.length_singleton]
      by_cases hfull : topk ≤ out.length + 1
      · rw [if_pos hfull, show topk - (out.length + 1) = 0 by omega, List.take_zero]
      · rw [if_neg hfull, ih (by rw [List.length_append, List.length_singleton]; omega),
          List.length_append, List.length_singleton, List.append_assoc]
        rfl
    · rw [if_neg hpass, List.filter_cons, if_neg hpass, ih hout]

theorem takeSlots_eq {topk : ℕ} {slots : List (List (R × ℕ))}
    {out : List (R × ℕ)} (hout : out.length ≤ topk) :
    takeSlots filter topk slots out =
      out ++ (slots.flatten.filter fun e => passes filter e.2).take (topk - out.length) := by
  induction slots generalizing out with
  | nil => simp [takeSlots]
  | cons entries slots ih =>
    unfold takeSlots
    by_cases hroom : out.length < topk
    · have hlen : (takeEntries filter topk entries out).length ≤ topk := by
        rw [takeEntries_eq hroom, List.length_append, List.length_take]
        omega
      rw [if_pos hroom, ih hlen, takeEntries_eq hroom, List.flatten_cons, List.filter_append,
        List.take_append, List.append_assoc, List.length_append, List.length_take]
      congr 3
      omega
    · rw [if_neg hroom, show topk - out.length = 0 by omega]
      simp

theorem flatten_reverse_vecs (slots : List (SlotMeta R)) :
    (slots.reverse.map fun s => s.vec.reverse).flatten = (slots.flatMap SlotMeta.vec).reverse := by
  induction slots with
  | nil => rfl
  | cons s slots ih =>
    rw [List.reverse_cons, List.map_append, List.flatten_append, ih, List.flatMap_cons,
      List.reverse_append]
    simp

theorem getTopkResult_eq (m : RangedMap R) (topk : ℕ) (orderAsc : Bool) (filter : Option (ℕ → Bool)) :
    m.getTopkResult topk orderAsc filter =
      ((if orderAsc then m.pairs else m.pairs.reverse).filter fun e => passes filter e.2).take topk := by
  unfold getTopkResult
  cases orderAsc with
  | true =>
    rw [if_pos rfl, if_pos rfl, takeSlots_eq (Nat.zero_le _), List.nil_append, List.length_nil,
      Nat.sub_zero, pairs, List.flatMap_def]
  | false =>
    rw [if_neg Bool.false_ne_true, if_neg Bool.false_ne_true, takeSlots_eq (Nat.zero_le _),
      List.nil_append, List.length_nil, Nat.sub_zero, flatten_reverse_vecs, pairs]

/-! ## The priority queue -/

/-- `get_score_by_offset` (`ranged_map.h`, 42-47): `none` for `NaN`, and `-99999999.0`, here
`outside`, for an offset past the end. -/
def getScoreByOffset (m : RangedMap R) (outside : R) (offset : ℕ) : Option R :=
  if offset < m.size then m.valueAt offset else some outside

variable [LinearOrder R]

/-- `cond_func` for one field (`sort_ops.cpp`, 536-549): the second offset goes before the first.
`close` says that two values differ by at most `1e-9`. -/
def condFunc (m : RangedMap R) (outside : R) (close : R → R → Bool) (orderAsc : Bool)
    (idxL idxR : ℕ) : Bool :=
  match m.getScoreByOffset outside idxL, m.getScoreByOffset outside idxR with
  | some valueL, some valueR => !close valueL valueR && (decide (valueL < valueR) ^^ orderAsc)
  | _, _ => false

/-- A comparator is a strict weak order on some elements. -/
structure StrictWeak {α : Type} (cmp : α → α → Bool) (elems : List α) : Prop where
  irrefl : ∀ a ∈ elems, cmp a a = false
  asymm : ∀ a ∈ elems, ∀ b ∈ elems, cmp a b = true → cmp b a = false
  trans : ∀ a ∈ elems, ∀ b ∈ elems, ∀ c ∈ elems, cmp a b = false → cmp b c = false → cmp a c = false

/-- The first `k` tops of a `std::priority_queue`: each one is such that no element left goes before
it.  Where the comparator is no strict weak order anything may come. -/
def QueueTops {α : Type} (cmp : α → α → Bool) (elems : List α) (k : ℕ) (out : List α) : Prop :=
  StrictWeak cmp elems → IsTopK (fun a b => cmp a b = false) k elems out

/-- `_calc_topk_result_with_small_bitmap`, as far as the priority queue determines it.  The filter is
the bitmap itself. -/
def SmallBitmapResult (m : RangedMap R) (outside : R) (close : R → R → Bool) (topk : ℕ)
    (orderAsc : Bool) (validBitmap : Finset ℕ) (out : List ℕ) : Prop :=
  let allValidOffset := validBitmap.sort (· ≤ ·)
  QueueTops (m.condFunc outside close orderAsc) allValidOffset
    (min (max 1 topk) allValidOffset.length) out

/-- The general way with the same filter. -/
def generalResult (m : RangedMap R) (topk : ℕ) (orderAsc : Bool) (validBitmap : Finset ℕ) :
    List (R × ℕ) :=
  m.getTopkResult topk orderAsc (some fun offset => !decide (offset ∈ validBitmap))

/-- Whatever the priority queue does, both ways have the same scores, narrowed to `float`, and only
offsets with a value. -/
def SortPathsAgree {F : Type} (narrow : R → F) (m : RangedMap R) (outside : R)
    (close : R → R → Bool) (topk : ℕ) (orderAsc : Bool) (validBitmap : Finset ℕ) : Prop :=
  ∀ out, m.SmallBitmapResult outside close topk orderAsc validBitmap out →
    out.map (fun offset => (m.getScoreByOffset outside offset).map narrow) =
        (m.generalResult topk orderAsc validBitmap).map (fun e => some (narrow e.1)) ∧
      (∀ offset ∈ out, (m.valueAt offset).isSome) ∧
      ∀ e ∈ m.generalResult topk orderAsc validBitmap, (m.valueAt e.2).isSome

/-- What the priority queue needs: a value of each offset, and a comparator that is a strict weak
order and tells apart what has different scores. -/
structure Sortable {F : Type} (narrow : R → F) (m : RangedMap R) (outside : R)
    (close : R → R → Bool) (orderAsc : Bool) (validBitmap : Finset ℕ) : Prop where
  value : ∀ offset ∈ validBitmap, (m.valueAt offset).isSome
  order : StrictWeak (m.condFunc outside close orderAsc) (validBitmap.sort (· ≤ ·))
  score : ∀ a ∈ validBitmap, ∀ b ∈ validBitmap, m.condFunc outside close orderAsc a b = false →
    m.condFunc outside close orderAsc b a = false →
      (m.getScoreByOffset outside a).map narrow = (m.getScoreByOffset outside b).map narrow

/-! ## Best entries -/

/-- The order of a sort: of two entries the first may stand before the second. -/
def SortedLe (orderAsc : Bool) (e f : R × ℕ) : Prop := if orderAsc then e.1 ≤ f.1 else f.1 ≤ e.1

namespace Inv

variable {m : RangedMap R}

/-- The walk over the slots has the best entries that pass, in their order. -/
theorem isTopK_getTopkResult (h : m.Inv) (topk : ℕ) (orderAsc : Bool) (filter : Option (ℕ → Bool)) :
    IsTopK (SortedLe orderAsc) topk (m.pairs.filter fun e => passes filter e.2)
      (m.getTopkResult topk orderAsc filter) := by
  rw [getTopkResult_eq]
  cases orderAsc with
  | true =>
    rw [if_pos rfl]
    exact isTopK_take (h.sorted.filter _) (List.Perm.refl _) topk
  | false =>
    rw [if_neg Bool.false_ne_true]
    refine isTopK_take (List.Pairwise.filter _ (List.pairwise_reverse.2 h.sorted)) ?_ topk
    exact (List.reverse_perm _).filter _

end Inv

/-! ## The two ways -/

section Paths

variable {m : RangedMap R} {F : Type} [LinearOrder F] {narrow : R → F} {outside : R}
  {close : R → R → Bool} {orderAsc : Bool} {validBitmap : Finset ℕ}

/-- The sorted offsets of a bitmap, where all have a value, are those of the entries. -/
theorem perm_offsets (h : m.Inv) (hvalue : ∀ offset ∈ validBitmap, (m.valueAt offset).isSome) :
    (validBitmap.sort (· ≤ ·)).Perm ((m.pairs.filter fun e =>
      passes (some fun offset => !decide (offset ∈ validBitmap)) e.2).map Prod.snd) := by
  refine (List.perm_ext_iff_of_nodup (Finset.sort_nodup _ _) ?_).2 fun o => ?_
  · exact (List.filter_sublist.map Prod.snd).nodup h.nodup
  · rw [Finset.mem_sort, List.mem_map]
    constructor
    · intro ho
      obtain ⟨v, hv⟩ := Option.isSome_iff_exists.1 (hvalue o ho)
      exact ⟨(v, o), List.mem_filter.2 ⟨h.agree.2 hv, by simp [passes, ho]⟩, rfl⟩
    · rintro ⟨e, he, rfl⟩
      have hpass := (List.mem_filter.1 he).2
      simpa [passes] using hpass

omit [LinearOrder R] in
theorem getScoreByOffset_eq {offset : ℕ} {v : R} (hv : m.valueAt offset = some v) :
    m.getScoreByOffset outside offset = some v := by
  unfold getScoreByOffset
  rw [if_pos (m.lt_size hv), hv]

variable {topk : ℕ}

omit [LinearOrder F] in
/-- Two keys that follow the orders of both ways are the same along both answers. -/
theorem map_key_eq (h : m.Inv) (hs : Sortable narrow m outside close orderAsc validBitmap)
    (htopk : 1 ≤ topk) {out : List ℕ}
    (hout : m.SmallBitmapResult outside close topk orderAsc validBitmap out) {κ : Type}
    [LinearOrder κ] (key : R → κ)
    (hkey : ∀ a ∈ validBitmap, ∀ b ∈ validBitmap, ∀ v w, m.valueAt a = some v → m.valueAt b = some w →
      m.condFunc outside close orderAsc a b = false → key v ≤ key w)
    (hkey' : ∀ v w : R, (if orderAsc then v ≤ w else w ≤ v) → key v ≤ key w) :
    out.map (fun offset => key ((m.valueAt offset).getD outside)) =
      (m.generalResult topk orderAsc validBitmap).map fun e => key e.1 := by
  have hbest := hout hs.order
  have hlen := hbest.length
  have htop : IsTopK (fun a b => m.condFunc outside close orderAsc a b = false) topk
      (validBitmap.sort (· ≤ ·)) out :=
    { hbest with length := by omega }
  refine htop.map_eq ?_ ?_ (h.isTopK_getTopkResult topk orderAsc _) ?_
  · intro a ha b hb hab
    rw [Finset.mem_sort] at ha hb
    obtain ⟨v, hv⟩ := Option.isSome_iff_exists.1 (hs.value a ha)
    obtain ⟨w, hw⟩ := Option.isSome_iff_exists.1 (hs.value b hb)
    rw [hv, hw]
    exact hkey a ha b hb v w hv hw hab
  · exact fun e _ f _ hef => hkey' e.1 f.1 hef
  · refine ((perm_offsets h hs.value).map _).trans ?_
    rw [List.map_map]
    refine List.Perm.of_eq (List.map_congr_left fun e he => ?_)
    have hv := h.agree.1 (List.mem_of_mem_filter he)
    show key ((m.valueAt e.2).getD outside) = key e.1
    rw [hv]
    rfl

/-- Where the priority queue can serve the sorter, both ways agree. -/
theorem sortPathsAgree_of_sortable (h : m.Inv) (hnarrow : Monotone narrow)
    (hs : Sortable narrow m outside close orderAsc validBitmap) (htopk : 1 ≤ topk) :
    SortPathsAgree narrow m outside close topk orderAsc validBitmap := by
  intro out hout
  have hmem : ∀ o ∈ out, o ∈ validBitmap := fun o ho =>
    (Finset.mem_sort _).1 ((hout hs.order).mem_all ho)
  have htie : ∀ a ∈ validBitmap, ∀ b ∈ validBitmap, ∀ v w, m.valueAt a = some v →
      m.valueAt b = some w → m.condFunc outside close orderAsc a b = false →
        narrow v = narrow w ∨ m.condFunc outside close orderAsc b a = true := by
    intro a ha b hb v w hv hw hab
    cases hba : m.condFunc outside close orderAsc b a with
    | true => exact .inr rfl
    | false =>
      have hscore := hs.score a ha b hb hab hba
      rw [getScoreByOffset_eq hv, getScoreByOffset_eq hw] at hscore
      exact .inl (Option.some.inj hscore)
  have hscores : out.map (fun offset => narrow ((m.valueAt offset).getD outside)) =
      (m.generalResult topk orderAsc validBitmap).map fun e => narrow e.1 := by
    cases orderAsc with
    | true =>
      refine map_key_eq h hs htopk hout narrow (fun a ha b hb v w hv hw hab => ?_) fun v w hvw => hnarrow hvw
      rcases htie a ha b hb v w hv hw hab with heq | hba
      · exact heq.le
      · simp only [condFunc, getScoreByOffset_eq hv, getScoreByOffset_eq hw, Bool.and_eq_true,
          Bool.xor_true, Bool.not_eq_true', decide_eq_false_iff_not, not_lt] at hba
        exact hnarrow hba.2
    | false =>
      have hdual := map_key_eq h hs htopk hout (fun v => OrderDual.toDual (narrow v))
        (fun a ha b hb v w hv hw hab => ?_) fun v w hvw => OrderDual.toDual_le_toDual.2 (hnarrow hvw)
      · have hplain := congrArg (List.map OrderDual.ofDual) hdual
        rwa [List.map_map, List.map_map] at hplain
      · rcases htie a ha b hb v w hv hw hab with heq | hba
        · exact OrderDual.toDual_le_toDual.2 heq.ge
        · simp only [condFunc, getScoreByOffset_eq hv, getScoreByOffset_eq hw, Bool.and_eq_true,
            Bool.xor_false, decide_eq_true_eq] at hba
          exact OrderDual.toDual_le_toDual.2 (hnarrow hba.2.le)
  refine ⟨?_, fun o ho => hs.value o (hmem o ho), ?_⟩
  · have hsome := congrArg (List.map some) hscores
    rw [List.map_map, List.map_map] at hsome
    refine Eq.trans (List.map_congr_left fun o ho => ?_) hsome
    obtain ⟨v, hv⟩ := Option.isSome_iff_exists.1 (hs.value o (hmem o ho))
    rw [getScoreByOffset_eq hv]
    show some (narrow v) = some (narrow ((m.valueAt o).getD outside))
    rw [hv]
    rfl
  · intro e he
    have hpairs := List.mem_of_mem_filter ((h.isTopK_getTopkResult topk orderAsc _).mem_all he)
    rw [h.agree.1 hpairs]
    rfl

/-- A strict weak order can be followed. -/
theorem exists_ordered {α : Type} {cmp : α → α → Bool} {elems : List α} (h : StrictWeak cmp elems) :
    ∃ l : List α, l.Perm elems ∧ l.Pairwise fun a b => cmp a b = false := by
  have hsorted := @List.pairwise_mergeSort _ (fun a b : {x // x ∈ elems} => !cmp a.1 b.1)
    (fun a b c hab hbc => by
      simp only [Bool.not_eq_true'] at hab hbc ⊢
      exact h.trans a.1 a.2 b.1 b.2 c.1 c.2 hab hbc)
    (fun a b => by
      cases hab : cmp a.1 b.1 with
      | false => rfl
      | true =>
        rw [h.asymm a.1 a.2 b.1 b.2 hab]
        rfl) elems.attach
  refine ⟨_, ((List.mergeSort_perm elems.attach _).map Subtype.val).trans ?_,
    List.pairwise_map.2 (hsorted.imp fun hab => by simpa using hab)⟩
  rw [List.attach_map_subtype_val]

omit [LinearOrder F] in
/-- A comparator that is no strict weak order lets the queue answer anything. -/
theorem strictWeak_of_agree (hagree : SortPathsAgree narrow m outside close topk orderAsc validBitmap) :
    StrictWeak (m.condFunc outside close orderAsc) (validBitmap.sort (· ≤ ·)) := by
  by_contra hnot
  obtain ⟨hscores, -⟩ := hagree
    (List.replicate ((m.generalResult topk orderAsc validBitmap).length + 1) 0)
    fun hweak => absurd hweak hnot
  have hlen := congrArg List.length hscores
  simp at hlen

omit [LinearOrder F] in
/-- Both ways agree for every `topk` only where the priority queue can serve the sorter. -/
theorem sortable_of_sortPathsAgree
    (hagree : ∀ topk, 1 ≤ topk → SortPathsAgree narrow m outside close topk orderAsc validBitmap) :
    Sortable narrow m outside close orderAsc validBitmap := by
  have hweak := strictWeak_of_agree (hagree 1 le_rfl)
  obtain ⟨l, hperm, hsorted⟩ := exists_ordered hweak
  set offsets := validBitmap.sort (· ≤ ·) with hoffsets
  set topk := max 1 offsets.length with htopk
  -- any order that the comparator allows may come
  have hall : ∀ l' : List ℕ, l'.Perm offsets →
      (l'.Pairwise fun a b => m.condFunc outside close orderAsc a b = false) →
        m.SmallBitmapResult outside close topk orderAsc validBitmap l' := by
    intro l' hperm' hsorted' _
    have htop := isTopK_take hsorted' hperm' (min (max 1 topk) offsets.length)
    rwa [List.take_of_length_le (by rw [hperm'.length_eq]; omega)] at htop
  obtain ⟨hscores, hvalues, -⟩ := hagree topk (le_max_left _ _) l (hall l hperm hsorted)
  have hmem : ∀ o, o ∈ l ↔ o ∈ validBitmap := fun o => by
    rw [hperm.mem_iff, hoffsets, Finset.mem_sort]
  refine ⟨fun o ho => hvalues o ((hmem o).2 ho), hweak, fun a ha b hb hab hba => ?_⟩
  -- the two change places
  have hswapMem : ∀ o ∈ validBitmap, Equiv.swap a b o ∈ validBitmap := by
    intro o ho
    by_cases h1 : o = a
    · rw [h1, Equiv.swap_apply_left]
      exact hb
    · by_cases h2 : o = b
      · rw [h2, Equiv.swap_apply_right]
        exact ha
      · rwa [Equiv.swap_apply_of_ne_of_ne h1 h2]
  have hsame : ∀ o ∈ validBitmap, m.condFunc outside close orderAsc o (Equiv.swap a b o) = false ∧
      m.condFunc outside close orderAsc (Equiv.swap a b o) o = false := by
    intro o ho
    by_cases h1 : o = a
    · rw [h1, Equiv.swap_apply_left]
      exact ⟨hab, hba⟩
    · by_cases h2 : o = b
      · rw [h2, Equiv.swap_apply_right]
        exact ⟨hba, hab⟩
      · rw [Equiv.swap_apply_of_ne_of_ne h1 h2]
        have := hweak.irrefl o ((Finset.mem_sort _).2 ho)
        exact ⟨this, this⟩
  have hperm' : (l.map (Equiv.swap a b)).Perm offsets := by
    refine (List.perm_ext_iff_of_nodup ?_ (Finset.sort_nodup _ _)).2 fun o => ?_
    · exact (hperm.nodup_iff.2 (Finset.sort_nodup _ _)).map (Equiv.swap a b).injective
    · rw [List.mem_map, Finset.mem_sort]
      constructor
      · rintro ⟨o', ho', rfl⟩
        exact hswapMem o' ((hmem o').1 ho')
      · intro ho
        exact ⟨Equiv.swap a b o, (hmem _).2 (hswapMem o ho), Equiv.swap_apply_self a b o⟩
  have hsorted' : (l.map (Equiv.swap a b)).Pairwise fun a b =>
      m.condFunc outside close orderAsc a b = false := by
    refine List.pairwise_map.2 (hsorted.imp_of_mem fun {x y} hx hy hxy => ?_)
    have hx' := (hmem x).1 hx
    have hy' := (hmem y).1 hy
    have hin : ∀ o ∈ validBitmap, o ∈ offsets := fun o ho => (Finset.mem_sort _).2 ho
    have hstep := hweak.trans _ (hin _ (hswapMem x hx')) x (hin x hx') y (hin y hy')
      (hsame x hx').2 hxy
    exact hweak.trans _ (hin _ (hswapMem x hx')) y (hin y hy') _ (hin _ (hswapMem y hy')) hstep
      (hsame y hy').1
  obtain ⟨hscores', -⟩ := hagree topk (le_max_left _ _) _ (hall _ hperm' hsorted')
  rw [← hscores, List.map_map] at hscores'
  have hb' := List.map_inj_left.1 hscores' a ((hmem a).2 ha)
  simp only [Function.comp_apply, Equiv.swap_apply_left] at hb'
  exact hb'.symm

omit [LinearOrder F] in
/-- Without a limit above zero, one way answers with one offset and the other with none. -/
theorem sortPathsAgree_zero_iff :
    SortPathsAgree narrow m outside close 0 orderAsc validBitmap ↔ validBitmap = ∅ := by
  have hgeneral : m.generalResult 0 orderAsc validBitmap = [] := by
    unfold generalResult
    rw [getTopkResult_eq, List.take_zero]
  constructor
  · intro hagree
    have hweak := strictWeak_of_agree hagree
    obtain ⟨l, hperm, hsorted⟩ := exists_ordered hweak
    have hone := isTopK_take hsorted hperm (min (max 1 0) (validBitmap.sort (· ≤ ·)).length)
    obtain ⟨hscores, -⟩ := hagree _ fun _ => hone
    have hlen := congrArg List.length hscores
    rw [hgeneral, List.length_map, hone.length, Finset.length_sort] at hlen
    simp at hlen
    exact hlen
  · rintro rfl out hout
    have hnone := (hout ⟨by simp, by simp, by simp⟩).length
    simp at hnone
    rw [hnone, hgeneral]
    simp

end Paths

/-- **The two ways of sorting by one field.**  Without a limit above zero they agree for no filter
with an offset; for every other limit they agree exactly when each offset of the filter has a value,
and the comparator, for which values up to `1e-9` apart are the same, is a strict weak order that
tells different scores apart. -/
theorem sortPathsAgree_iff {slotSize : ℕ} (hsize : 1 ≤ slotSize) {ops : List (RangedOp R)}
    {m : RangedMap R} (hrun : RangedOp.run slotSize empty ops = some m) {F : Type} [LinearOrder F]
    {narrow : R → F} (hnarrow : Monotone narrow) (outside : R) (close : R → R → Bool)
    (orderAsc : Bool) (validBitmap : Finset ℕ) :
    (SortPathsAgree narrow m outside close 0 orderAsc validBitmap ↔ validBitmap = ∅) ∧
      ((∀ topk, 1 ≤ topk → SortPathsAgree narrow m outside close topk orderAsc validBitmap) ↔
        Sortable narrow m outside close orderAsc validBitmap) :=
  ⟨sortPathsAgree_zero_iff, sortable_of_sortPathsAgree, fun hs _ htopk =>
    sortPathsAgree_of_sortable (inv_of_run hsize hrun).1 hnarrow hs htopk⟩

/-- A map with values for two of three offsets. -/
def twoValues : RangedMap ℤ :=
  ⟨[some 5, none, some 3], [⟨3, 5, {2, 0}, [(3, 2), (5, 0)]⟩]⟩

theorem run_twoValues : RangedOp.run kRangedMapSlotSize (empty : RangedMap ℤ)
    [.addOffsetAndScore 0 5, .addOffsetAndScore 2 3] = some twoValues := by decide

theorem sortPathsAgree_twoValues :
    SortPathsAgree id twoValues (-99999999) (fun v w => v = w) 1 true {0, 2} := by
  refine (sortPathsAgree_iff (by decide) run_twoValues monotone_id _ _ _ _).2.2 ⟨by decide, ?_, by decide⟩ 1
    (le_refl 1)
  refine ⟨fun a ha => ?_, fun a ha b hb => ?_, fun a ha b hb c hc => ?_⟩
  · rw [Finset.mem_sort] at ha
    revert a
    decide
  · rw [Finset.mem_sort] at ha hb
    revert a b
    decide
  · rw [Finset.mem_sort] at ha hb hc
    revert a b c
    decide

/-- A limit of zero, and an offset without a value. -/
theorem sortPathsAgree_fails :
    RangedOp.run kRangedMapSlotSize (empty : RangedMap ℤ)
        [.addOffsetAndScore 0 5, .addOffsetAndScore 2 3] = some twoValues ∧
      ¬ SortPathsAgree id twoValues (-99999999) (fun v w => v = w) 0 true {0} ∧
      ¬ ∀ topk, 1 ≤ topk →
        SortPathsAgree id twoValues (-99999999) (fun v w => v = w) topk true {0, 1} := by
  refine ⟨run_twoValues, fun hagree => ?_, fun hagree => ?_⟩
  · exact absurd (sortPathsAgree_zero_iff.1 hagree) (by decide)
  · exact absurd ((sortable_of_sortPathsAgree hagree).value 1 (by decide)) (by decide)

end RangedMap

end OpenViking.VectorDB
