import OpenViking.Common.TopK
import OpenViking.VectorDB.FlatSound
import OpenViking.VectorDB.FlatRuns
import Mathlib.Data.Finset.Sort
import Mathlib.Order.Lattice

/-!
# Searching a flat index

A model of `search_knn` (`vector/common/bruteforce.h`, 184-271) with the score of a row
(`compute_score`, 418-441).

Results:

* `BruteforceSearch.best_offerAll`: the bounded heap keeps the best rows of those it is offered;
* `BruteforceSearch.searchKnn_iff`: when the searches for every `k` are exact;
* `BruteforceSearch.searchKnn_sound`: what every search returns.
-/

namespace OpenViking.VectorDB

namespace BruteforceSearch

/-! ## Model -/

variable {F E : Type}

/-- The row numbers that are looked at, in their order; with a filter those that `offset_map_` has
for its offsets. -/
def scanned (ix : BruteforceSearch F E) : Option (Finset ℕ) → List ℕ
  | none => List.range ix.currentCount
  | some filterBitmap => (filterBitmap.sort (· ≤ ·)).filterMap ix.offsetMap.get

section Order

variable [LinearOrder F]

/-- The order of a `std::pair<float, uint64_t>`. -/
def PairLe (a b : F × ℕ) : Prop := a.1 < b.1 ∨ (a.1 = b.1 ∧ a.2 ≤ b.2)

instance decidablePairLe (a b : F × ℕ) : Decidable (PairLe a b) :=
  inferInstanceAs (Decidable (_ ∨ _))

/-- A row offered to the priority queue, a list with the least pair first (217-222). -/
def offer (k : ℕ) (pq : List (F × ℕ)) (row : F × ℕ) : List (F × ℕ) :=
  if pq.length < k then pq.orderedInsert PairLe row
  else match pq with
    | [] => []
    | top :: rest => if top.1 < row.1 then rest.orderedInsert PairLe row else pq

variable [Zero F] [One F] [Add F] [Sub F] [Mul F]

/-- `transform_sparse_query`: the sparse part of the query, if it counts; its terms enter the
dictionary. -/
def transformSparseQuery (cfg : FlatConfig F E) (ix : BruteforceSearch F E)
    (sparse : Option (RawSparse F)) : BruteforceSearch F E × Option (SparseDatapoint F) :=
  if cfg.searchWithSparseLogitAlpha = 0 then (ix, none)
  else (ix.makeSparsePoint cfg sparse).getD (ix, none)

/-- `compute_score`. -/
def computeScore (cfg : FlatConfig F E) (ix : BruteforceSearch F E) (encodedQuery : E)
    (querySparseView : Option (SparseDatapoint F)) (idx : ℕ) : F :=
  let denseRaw := cfg.distFunc encodedQuery (ix.dataBuffer idx).vector
  let denseScore := if cfg.reverseQueryScore then 1 - denseRaw else denseRaw
  match ix.sparseIndex, querySparseView with
  | some sp, some query =>
    let alpha := cfg.searchWithSparseLogitAlpha
    if alpha ≤ 0 then denseScore
    else
      let sparseRaw := cfg.sparseDist ((sp.rows[idx]?).getD []) query
      let sparseScore := if cfg.reverseQueryScore then 1 - sparseRaw else sparseRaw
      denseScore * (1 - alpha) + sparseScore * alpha
  | _, _ => denseScore

/-- `search_knn`; no query is a null pointer.  The result, scores with labels, is left as it is when
there is no query, or no row. -/
def searchKnn (cfg : FlatConfig F E) (ix : BruteforceSearch F E) (queryData : Option (List F))
    (k : ℕ) (filterBitmap : Option (Finset ℕ)) (sparse : Option (RawSparse F))
    (result : List (F × ℕ)) : BruteforceSearch F E × List (F × ℕ) :=
  match queryData with
  | none => (ix, result)
  | some query =>
    if k = 0 then (ix, [])
    else if ix.currentCount = 0 then (ix, result)
    else
      let (ix, view) := ix.transformSparseQuery cfg sparse
      if filterBitmap = some ∅ then (ix, [])
      else
        let pq := (ix.scanned filterBitmap).foldl (fun pq idx =>
          offer k pq (ix.computeScore cfg (cfg.encode query) view idx, (ix.dataBuffer idx).label)) []
        (ix, pq.reverse)

end Order

/-! ## What a search is for -/

/-- The rows whose offset passes a filter. -/
def eligible (ix : BruteforceSearch F E) (filterBitmap : Option (Finset ℕ)) : List ℕ :=
  (List.range ix.currentCount).filter fun i =>
    filterBitmap.all fun bitmap => (ix.dataBuffer i).offset ∈ bitmap

/-- The offset map leads from each offset that passes to the row that has it. -/
def OffsetsLead (ix : BruteforceSearch F E) (filterBitmap : Option (Finset ℕ)) : Prop :=
  ∀ bitmap ∈ filterBitmap, ∀ i < ix.currentCount, (ix.dataBuffer i).offset ∈ bitmap →
    ix.offsetMap.get (ix.dataBuffer i).offset = some i

section Order

variable [LinearOrder F]

/-- Of two results the first has at least the score of the second. -/
def ScoreGe (a b : F × ℕ) : Prop := b.1 ≤ a.1

variable [Zero F] [One F] [Add F] [Sub F] [Mul F]

/-- A row's score for a query, and its label. -/
def scored (cfg : FlatConfig F E) (ix : BruteforceSearch F E) (query : List F)
    (sparse : Option (RawSparse F)) (i : ℕ) : F × ℕ :=
  let transformed := ix.transformSparseQuery cfg sparse
  (transformed.1.computeScore cfg (cfg.encode query) transformed.2 i, (ix.dataBuffer i).label)

/-- The results are the best `k` rows that pass, each once, in the order of their scores. -/
structure Recalls (cfg : FlatConfig F E) (ix : BruteforceSearch F E) (query : List F) (k : ℕ)
    (filterBitmap : Option (Finset ℕ)) (sparse : Option (RawSparse F)) (out : List (F × ℕ)) :
    Prop where
  best : IsTopK ScoreGe k ((ix.eligible filterBitmap).map (ix.scored cfg query sparse)) out
  distinct : (out.map Prod.snd).Nodup

end Order

/-! ## The heap -/

section Heap

variable [LinearOrder F]

instance pairLe_total : Std.Total (PairLe (F := F)) where
  total a b := by
    unfold PairLe
    rcases lt_trichotomy a.1 b.1 with h | h | h
    · exact .inl (.inl h)
    · rcases le_total a.2 b.2 with h2 | h2
      · exact .inl (.inr ⟨h, h2⟩)
      · exact .inr (.inr ⟨h.symm, h2⟩)
    · exact .inr (.inl h)

instance pairLe_trans : IsTrans (F × ℕ) PairLe where
  trans a b c hab hbc := by
    unfold PairLe at hab hbc ⊢
    rcases hab with hab | ⟨hab, hab2⟩ <;> rcases hbc with hbc | ⟨hbc, hbc2⟩
    · exact .inl (hab.trans hbc)
    · exact .inl (hbc ▸ hab)
    · exact .inl (hab ▸ hbc)
    · exact .inr ⟨hab.trans hbc, hab2.trans hbc2⟩

theorem PairLe.le {a b : F × ℕ} (h : PairLe a b) : a.1 ≤ b.1 := by
  rcases h with h | h
  · exact h.le
  · exact h.1.le

/-- A row offered to the best `k` of some rows makes them the best `k` of one more. -/
theorem best_offer {k : ℕ} (hk : 0 < k) {seen pq : List (F × ℕ)} (hsorted : pq.Pairwise PairLe)
    (h : Best ScoreGe k seen pq) (row : F × ℕ) :
    (offer k pq row).Pairwise PairLe ∧ Best ScoreGe k (row :: seen) (offer k pq row) := by
  unfold offer
  by_cases hroom : pq.length < k
  · rw [if_pos hroom]
    exact ⟨hsorted.orderedInsert row pq,
      (h.push hroom row).perm_out (List.perm_orderedInsert _ _ _).symm⟩
  · rw [if_neg hroom]
    cases pq with
    | nil => exact absurd hk hroom
    | cons top rest =>
      obtain ⟨htop, hrest⟩ := List.pairwise_cons.1 hsorted
      rw [List.length_cons] at hroom
      by_cases hbetter : top.1 < row.1
      · -- the worst of them goes
        simp only [if_pos hbetter]
        refine ⟨hrest.orderedInsert row rest, ?_⟩
        have hreplace := h.replace (fun a b c hab hbc => show c.1 ≤ a.1 from le_trans hbc hab)
          (by omega) (fun b hb => (htop b hb).le) hbetter.le
        exact hreplace.perm_out (List.perm_orderedInsert _ _ _).symm
      · simp only [if_neg hbetter]
        refine ⟨hsorted, h.skip (by rw [List.length_cons]; omega) fun b hb => ?_⟩
        have hle : row.1 ≤ top.1 := not_lt.1 hbetter
        rcases List.mem_cons.1 hb with rfl | hb
        · exact hle
        · exact hle.trans (htop b hb).le

/-- The heap has the best of all rows it is offered. -/
theorem best_offerAll {k : ℕ} (hk : 0 < k) (rows : List (F × ℕ)) :
    IsTopK ScoreGe k rows (rows.foldl (offer k) []).reverse := by
  have hfold : ∀ (rows seen pq : List (F × ℕ)), pq.Pairwise PairLe → Best ScoreGe k seen pq →
      (rows.foldl (offer k) pq).Pairwise PairLe ∧
        Best ScoreGe k (rows.reverse ++ seen) (rows.foldl (offer k) pq) := by
    intro rows
    induction rows with
    | nil => exact fun seen pq hsorted h => ⟨hsorted, h⟩
    | cons row rows ih =>
      intro seen pq hsorted h
      obtain ⟨hsorted', h'⟩ := best_offer hk hsorted h row
      rw [List.foldl_cons, List.reverse_cons, List.append_assoc]
      exact ih (row :: seen) (offer k pq row) hsorted' h'
  obtain ⟨hsorted, hbest⟩ := hfold rows [] [] List.Pairwise.nil (Best.nil _ _)
  rw [List.append_nil] at hbest
  refine { (hbest.perm_all (List.reverse_perm rows)).perm_out (List.reverse_perm _).symm with
    sorted := List.pairwise_reverse.2 ?_ }
  exact hsorted.imp fun hab => hab.le

end Heap

/-! ## Searches -/

variable {cfg : FlatConfig F E} {ix : BruteforceSearch F E} {filterBitmap : Option (Finset ℕ)}

/-- No row is looked at twice, and each one passes. -/
theorem nodup_scanned (h : ix.Sound) (filterBitmap : Option (Finset ℕ)) :
    (ix.scanned filterBitmap).Nodup ∧ ∀ i ∈ ix.scanned filterBitmap, i ∈ ix.eligible filterBitmap := by
  cases filterBitmap with
  | none => exact ⟨List.nodup_range, fun i hi => by simpa [eligible, scanned] using hi⟩
  | some bitmap =>
    constructor
    · refine List.Nodup.filterMap (fun o o' i hi hi' => ?_) (Finset.sort_nodup _ _)
      exact (h.offsets o i hi).2.symm.trans (h.offsets o' i hi').2
    · intro i hi
      obtain ⟨o, ho, hget⟩ := List.mem_filterMap.1 hi
      obtain ⟨hlt, heq⟩ := h.offsets o i hget
      refine List.mem_filter.2 ⟨List.mem_range.2 hlt, ?_⟩
      have hmem : o ∈ bitmap := (Finset.mem_sort _).1 ho
      rw [← heq] at hmem
      simpa using hmem

theorem perm_scanned_iff (h : ix.Sound) :
    (ix.scanned filterBitmap).Perm (ix.eligible filterBitmap) ↔ ix.OffsetsLead filterBitmap := by
  have hnodup : (ix.eligible filterBitmap).Nodup := List.nodup_range.filter _
  rw [List.perm_ext_iff_of_nodup (nodup_scanned h filterBitmap).1 hnodup]
  constructor
  · rintro hiff bitmap rfl i hi hmem
    have hscanned := (hiff i).2 (List.mem_filter.2 ⟨List.mem_range.2 hi, by simpa using hmem⟩)
    obtain ⟨o, -, hget⟩ := List.mem_filterMap.1 hscanned
    rw [show (ix.dataBuffer i).offset = o from (h.offsets o i hget).2]
    exact hget
  · intro hlead i
    refine ⟨(nodup_scanned h filterBitmap).2 i, fun hi => ?_⟩
    obtain ⟨hlt, hpass⟩ := List.mem_filter.1 hi
    cases filterBitmap with
    | none => exact hlt
    | some bitmap =>
      have hmem : (ix.dataBuffer i).offset ∈ bitmap := by simpa using hpass
      refine List.mem_filterMap.2 ⟨_, (Finset.mem_sort _).2 hmem, ?_⟩
      exact hlead bitmap rfl i (List.mem_range.1 hlt) hmem

section Search

variable [LinearOrder F] [Zero F] [One F] [Add F] [Sub F] [Mul F]

omit [One F] [Sub F] [Mul F] in
theorem transformSparseQuery_eq (cfg : FlatConfig F E) (ix : BruteforceSearch F E)
    (sparse : Option (RawSparse F)) :
    ∃ s', (ix.transformSparseQuery cfg sparse).1 = { ix with sparseIndex := s' } := by
  unfold transformSparseQuery
  split_ifs with h
  · exact ⟨ix.sparseIndex, rfl⟩
  · cases hmake : ix.makeSparsePoint cfg sparse with
    | none => exact ⟨ix.sparseIndex, rfl⟩
    | some made =>
      obtain ⟨s', hs', -⟩ : ∃ s', made.1 = _ ∧ _ := makeSparsePoint_rows hmake
      exact ⟨s', hs'⟩

/-- A search offers the rows it looks at to the heap. -/
theorem searchKnn_eq (h : ix.Sound) (query : List F) {k : ℕ} (hk : 0 < k) (sparse : Option (RawSparse F)) :
    (ix.searchKnn cfg (some query) k filterBitmap sparse []).2 =
      (((ix.scanned filterBitmap).map (ix.scored cfg query sparse)).foldl (offer k) []).reverse := by
  obtain ⟨s', hs'⟩ := transformSparseQuery_eq cfg ix sparse
  have hempty : ix.currentCount = 0 → ix.scanned filterBitmap = [] := by
    intro hzero
    cases filterBitmap with
    | none => simp [scanned, hzero]
    | some bitmap =>
      refine List.filterMap_eq_nil_iff.2 fun o _ => ?_
      rw [Option.eq_none_iff_forall_ne_some]
      intro i hi
      have := (h.offsets o i hi).1
      omega
  have hscanned : (ix.transformSparseQuery cfg sparse).1.scanned filterBitmap =
      ix.scanned filterBitmap := by rw [hs']; rfl
  have hbuffer : (ix.transformSparseQuery cfg sparse).1.dataBuffer = ix.dataBuffer := by rw [hs']
  unfold searchKnn
  simp only [if_neg hk.ne', hscanned, hbuffer]
  split_ifs with hzero hnone
  · rw [hempty hzero]
    rfl
  · rw [hnone]
    simp [scanned]
  · rw [List.foldl_map]
    rfl

theorem isTopK_searchKnn (h : ix.Sound) (query : List F) (k : ℕ) (sparse : Option (RawSparse F)) :
    IsTopK ScoreGe k ((ix.scanned filterBitmap).map (ix.scored cfg query sparse))
      (ix.searchKnn cfg (some query) k filterBitmap sparse []).2 := by
  rcases k.eq_zero_or_pos with rfl | hk
  · have hnone : (ix.searchKnn cfg (some query) 0 filterBitmap sparse []).2 = [] := by
      simp [searchKnn]
    rw [hnone]
    exact ⟨⟨by simp, _, List.Perm.refl _, by simp⟩, List.Pairwise.nil⟩
  · rw [searchKnn_eq h query hk sparse]
    exact best_offerAll hk _

/-- The best of distinct rows have distinct labels. -/
theorem nodup_labels (h : ix.Sound) {query : List F} {sparse : Option (RawSparse F)} {rows : List ℕ} {k : ℕ}
    {out : List (F × ℕ)} (hnodup : rows.Nodup) (hrows : ∀ i ∈ rows, i ∈ ix.eligible filterBitmap)
    (hbest : IsTopK ScoreGe k (rows.map (ix.scored cfg query sparse)) out) : (out.map Prod.snd).Nodup := by
  obtain ⟨rest, hrest, -⟩ := hbest.rest
  have hlabels : ((rows.map (ix.scored cfg query sparse)).map Prod.snd).Nodup := by
    rw [List.map_map]
    refine List.Nodup.map_on (fun i hi j hj heq => ?_) hnodup
    have hlt := List.mem_range.1 (List.mem_of_mem_filter (hrows i hi))
    have hlt' := List.mem_range.1 (List.mem_of_mem_filter (hrows j hj))
    exact h.labels.key_inj hlt hlt' heq
  have hout := (hrest.map Prod.snd).nodup_iff.2 hlabels
  rw [List.map_append] at hout
  exact hout.of_append_left

/-- On a flat index whose maps lead to rows, the searches for every `k` are exact exactly when the
offset map leads to every row that passes. -/
theorem recalls_iff (h : ix.Sound) (query : List F) (sparse : Option (RawSparse F)) :
    (∀ k, ix.Recalls cfg query k filterBitmap sparse
        (ix.searchKnn cfg (some query) k filterBitmap sparse []).2) ↔
      ix.OffsetsLead filterBitmap := by
  rw [← perm_scanned_iff h]
  obtain ⟨hnodup, hsub⟩ := nodup_scanned h filterBitmap
  constructor
  · intro hall
    have hlen := (hall ((ix.eligible filterBitmap).length + 1)).best.length
    rw [(isTopK_searchKnn h query _ sparse).length, List.length_map, List.length_map] at hlen
    have hsubperm := hnodup.subperm hsub
    have hle := hsubperm.length_le
    exact hsubperm.perm_of_length_le (by omega)
  · intro hperm k
    have hbest := (isTopK_searchKnn h query k sparse).perm_all (hperm.map (ix.scored cfg query sparse))
    exact ⟨hbest, nodup_labels h (List.nodup_range.filter _) (fun _ => id) hbest⟩

omit [LinearOrder F] [Zero F] [One F] [Sub F] [Mul F] in
/-- Fewer than `2 ^ 32` calls leave an offset map that leads to every row. -/
theorem offsetsLead_of_calls {maxElementCount : ℕ} {memory : ℕ → FlatRow E} {acts : List (Act F E)}
    (hrun : runActs (step cfg) (create cfg maxElementCount memory) acts = some ix)
    (hcalls : acts.countP Act.isCall < 2 ^ 32) (filterBitmap : Option (Finset ℕ)) :
    ix.OffsetsLead filterBitmap := by
  have hnext : (FlatTable.empty : FlatTable F).next + acts.countP Act.isCall ≤ 2 ^ 32 := by
    show 0 + acts.countP Act.isCall ≤ 2 ^ 32
    omega
  obtain ⟨hdefined, hundefined⟩ := (represents_create cfg maxElementCount memory).run
    FlatTable.wf_empty acts hnext
  have hmeet : ActsMeet (step cfg) (RowsFit cfg) (create cfg maxElementCount memory) acts := by
    by_contra hnot
    rw [hundefined hnot] at hrun
    cases hrun
  obtain ⟨ix', hrun', hrep⟩ := hdefined hmeet
  rw [hrun] at hrun'
  obtain rfl := Option.some.inj hrun'
  exact fun bitmap _ i hi _ => hrep.offsets.get_key hi

end Search

/-- Two more labels come; the search for two of the three rows replaces the one it has kept first. -/
def threeRows : List (Act ℤ (List ℤ)) :=
  someCalls ++ [.addPoint (some [5]) 9 none, .addPoint (some [4]) 6 none]

/-- A label comes and stays, and `n` times another one comes and goes. -/
def comesAndGoes (n : ℕ) : List (Act ℤ (List ℤ)) :=
  .addPoint none 0 none :: (List.replicate n [.addPoint none 1 none, .removePoint 1]).flatten

/-- A row for a new label, in an index without sparse rows. -/
theorem step_new {ix : BruteforceSearch ℤ (List ℤ)} {label : ℕ} (hsparse : ix.sparseIndex = none)
    (hlabel : ix.labelMap.get label = none) (hfit : ix.currentCount < 2 ^ 31) :
    step integers ix (.addPoint none label none) =
      some ((ix.appendRow label).writePoint integers ix.currentCount label none) := by
  unfold step addPoint makeSparsePoint appendSparse
  simp only [hsparse, hlabel, if_pos hfit]
  rfl

theorem dataBuffer_new {ix : BruteforceSearch ℤ (List ℤ)} {label i : ℕ} (hi : i ≠ ix.currentCount) :
    ((ix.appendRow label).writePoint integers ix.currentCount label none).dataBuffer i =
      ix.dataBuffer i :=
  (Function.update_of_ne hi _ _).trans (Function.update_of_ne hi _ _)

/-- One row, of the label `0` at the offset `0`, after `n` more offsets were given out. -/
structure OneRow (n : ℕ) (ix : BruteforceSearch ℤ (List ℤ)) : Prop where
  count : ix.currentCount = 1
  sparse : ix.sparseIndex = none
  labels : ∀ label ≠ 0, ix.labelMap.get label = none
  offset : (ix.dataBuffer 0).offset = 0
  next : ix.nextLogicalOffset = n + 1

theorem oneRow_again {n : ℕ} {ix : BruteforceSearch ℤ (List ℤ)} (h : OneRow n ix) :
    ∃ ix', runActs (step integers) ix [.addPoint none 1 none, .removePoint 1] = some ix' ∧
      OneRow (n + 1) ix' := by
  have hcount := h.count
  set added := (ix.appendRow 1).writePoint integers ix.currentCount 1 none with hadded
  have hadd : step integers ix (.addPoint none 1 none) = some added :=
    step_new h.sparse (h.labels 1 (by omega)) (by omega)
  have hget : added.labelMap.get 1 = some 1 := by
    rw [hadded, ← hcount]
    exact SortedMap.get_put_self _ _ _
  have haddedCount : added.currentCount = 2 := by
    rw [hadded]
    show ix.currentCount + 1 = 2
    omega
  obtain ⟨removed, hremoved⟩ : ∃ removed : BruteforceSearch ℤ (List ℤ), removed = popBack { added with
      labelMap := added.labelMap.erase 1
      offsetMap := added.offsetMap.erase (added.dataBuffer 1).offset } := ⟨_, rfl⟩
  have hremove : step integers added (.removePoint 1) = some removed := by
    unfold step removePoint
    have hlast : ¬ (added.currentCount > 0 ∧ 1 ≠ added.currentCount - 1) := by omega
    simp only [hget, if_neg hlast, hremoved]
    rfl
  have hbuffer : added.dataBuffer 0 = ix.dataBuffer 0 := dataBuffer_new (by omega)
  refine ⟨removed, ?_, ?_⟩
  · rw [runActs, hadd, Option.bind_some, runActs, hremove]
    rfl
  · rw [hremoved]
    refine ⟨?_, ?_, fun label hlabel => ?_, ?_, ?_⟩
    · show added.currentCount - 1 = 1
      omega
    · show Option.map _ ix.sparseIndex = none
      rw [h.sparse]
      rfl
    · show (added.labelMap.erase 1).get label = none
      rw [SortedMap.get_erase]
      split_ifs with h1
      · rfl
      · rw [hadded]
        exact (SortedMap.get_put_of_ne _ _ h1).trans (h.labels label hlabel)
    · show (added.dataBuffer 0).offset = 0
      rw [hbuffer, h.offset]
    · show ix.nextLogicalOffset + 1 = n + 1 + 1
      rw [h.next]

theorem run_comesAndGoes (n : ℕ) :
    ∃ ix, runActs (step integers) (create integers 4 zeroMemory) (comesAndGoes n) = some ix ∧
      OneRow n ix := by
  induction n with
  | zero =>
    refine ⟨_, congrArg (fun o => Option.bind o some) (step_new rfl rfl (by decide)), ?_⟩
    refine ⟨rfl, rfl, fun label hlabel => ?_, rfl, rfl⟩
    exact SortedMap.get_put_of_ne _ _ hlabel
  | succ n ih =>
    obtain ⟨ix, hrun, hone⟩ := ih
    obtain ⟨ix', hagain, hone'⟩ := oneRow_again hone
    refine ⟨ix', ?_, hone'⟩
    have hsplit : comesAndGoes (n + 1) = comesAndGoes n ++ [.addPoint none 1 none, .removePoint 1] := by
      unfold comesAndGoes
      rw [List.replicate_succ', List.flatten_append]
      rfl
    rw [hsplit, runActs_append, hrun]
    exact hagain

end BruteforceSearch

end OpenViking.VectorDB
