import OpenViking.Common.SortedMap
import OpenViking.Common.Decimal

/-!
# The multi-table store

A model of `VolatileStore` (`src/store/volatile_store.cpp`), one ordered map from string keys to
encoded rows, and of `StoreEngineProxy` (`vectordb/store/local_store.py`), which keeps several
tables in that map by putting the table name in front of each key.  `PersistStore` is the same map
over LevelDB, whose byte-wise key order is the order of `std::map<std::string, …>`.

The rows are any type `V`: the proxy never looks into them (`src/store/bytes_row.h` encodes them).

Results:

* `read_eq`, `beginToSeek_eq`, `seekToEnd_eq`: the proxy's reads are the reads of the table's view;
* `table_execOp_of_ne`: an operation on one table leaves the other tables alone.
-/

namespace OpenViking.VectorDB

open SortedMap (KeyEmb)

/-! ## Table names -/

/-- `TableNames` (`vectordb/utils/constants.py`, 12-17). -/
inductive TableName where
  | candidates
  | delta
  | ttl
  deriving DecidableEq, Repr

/-- The name's value: the prefix of the table's keys. -/
def TableName.value : TableName → Char
  | .candidates => 'C'
  | .delta => 'D'
  | .ttl => 'T'

variable {t t' : TableName}

theorem TableName.value_inj : t.value = t'.value ↔ t = t' := by
  cases t <;> cases t' <;> decide

/-- `table_name + key`. -/
def TableName.fullKey (t : TableName) (key : String) : String := t.value.toString ++ key

/-- `full_key[len(table_name):]` when `full_key.startswith(table_name)`. -/
def TableName.stripKey (t : TableName) (fullKey : String) : Option String :=
  match fullKey.toList with
  | [] => none
  | c :: cs => if c = t.value then some (String.ofList cs) else none

theorem TableName.toList_fullKey (t : TableName) (key : String) :
    (t.fullKey key).toList = t.value :: key.toList := by
  simp [fullKey, Char.toString]

theorem TableName.stripKey_eq_some {a c : String} : t.stripKey a = some c ↔ a = t.fullKey c := by
  rw [← String.toList_inj, toList_fullKey, stripKey]
  cases a.toList with
  | nil => simp
  | cons d ds =>
    simp only [List.cons.injEq]
    split_ifs with h
    · simp [h, ← String.toList_inj]
    · simp [h]

theorem TableName.fullKey_lt {c d : String} : t.fullKey c < t.fullKey d ↔ c < d := by
  rw [String.lt_iff_toList_lt, String.lt_iff_toList_lt, toList_fullKey, toList_fullKey,
    List.cons_lt_cons_iff]
  simp

/-- A table's keys within the keys of the engine. -/
def TableName.keys (t : TableName) : KeyEmb String String where
  toKey := t.fullKey
  ofKey := t.stripKey
  ofKey_eq_some := stripKey_eq_some
  toKey_lt := fullKey_lt

theorem TableName.ofKey_fullKey_of_ne (h : t' ≠ t) (key : String) :
    t.keys.ofKey (t'.fullKey key) = none := by
  change t.stripKey _ = none
  rw [stripKey, toList_fullKey]
  exact if_neg fun hc => h (value_inj.1 hc)

/-! ## The engine -/

/-- `StorageOp` (`src/store/common_structs.h`). -/
inductive StorageOp (V : Type) where
  | put (key : String) (value : V)
  | delete (key : String)

section Engine

variable {V : Type}

/-- `data_` of `VolatileStore`. -/
abbrev StoreEngine (V : Type) := SortedMap String V

/-- `VolatileStore::get_data`; a missing key yields an empty string there, `none` here. -/
def StoreEngine.getData (e : StoreEngine V) (keys : List String) : List (Option V) :=
  keys.map e.get

/-- One operation of `VolatileStore::exec_op`. -/
def StoreEngine.execOne (e : StoreEngine V) : StorageOp V → StoreEngine V
  | .put k v => e.put k v
  | .delete k => e.erase k

/-- `VolatileStore::exec_op`: the operations in order, under one lock. -/
def StoreEngine.execOp (e : StoreEngine V) (ops : List (StorageOp V)) : StoreEngine V :=
  ops.foldl StoreEngine.execOne e

/-- `VolatileStore::seek_range`. -/
def StoreEngine.seekRange (e : StoreEngine V) (startKey endKey : String) : List (String × V) :=
  e.range startKey endKey

end Engine

/-! ## The proxy -/

section Proxy

variable {V : Type}

/-- `MAX_UNICODE_CHAR`. -/
def maxUnicodeChar : String := String.singleton (Char.ofNat 0x10ffff)

/-- `OpType`, with the row a PUT carries. -/
inductive OpType (V : Type) where
  | put (data : V)
  | del

/-- `BatchOp`: operations on one table, a key and its operation together. -/
structure BatchOp (V : Type) where
  table : TableName
  ops : List (String × OpType V)

/-- The engine operation of one key of a batch. -/
def toStorageOp (t : TableName) : String × OpType V → StorageOp V
  | (k, .put v) => .put (t.fullKey k) v
  | (k, .del) => .delete (t.fullKey k)

/-- `StoreEngineProxy.read`. -/
def read (e : StoreEngine V) (keys : List String) (t : TableName) : List (Option V) :=
  e.getData (keys.map t.fullKey)

/-- `StoreEngineProxy.delete`. -/
def deleteKeys (e : StoreEngine V) (keys : List String) (t : TableName) : StoreEngine V :=
  keys.foldl (fun e k => e.erase (t.fullKey k)) e

/-- `StoreEngineProxy.read_all`. -/
def readAll (e : StoreEngine V) (t : TableName) : List (String × V) :=
  (e.seekRange (t.fullKey "") (t.fullKey maxUnicodeChar)).filterMap t.keys.strip

/-- `StoreEngineProxy.begin_to_seek`: up to `endKey`, exclusive. -/
def beginToSeek (e : StoreEngine V) (endKey : String) (t : TableName) : List (String × V) :=
  (e.seekRange (t.fullKey "") (t.fullKey endKey)).filterMap t.keys.strip

/-- `StoreEngineProxy.seek_to_end`: from `startKey`, inclusive. -/
def seekToEnd (e : StoreEngine V) (startKey : String) (t : TableName) : List (String × V) :=
  (e.seekRange (t.fullKey startKey) (t.fullKey maxUnicodeChar)).filterMap t.keys.strip

/-- `StoreEngineProxy.exec_sequence_batch_op`: all batches in one engine call. -/
def execSequenceBatchOp (e : StoreEngine V) (batchOpList : List (BatchOp V)) : StoreEngine V :=
  e.execOp (batchOpList.flatMap fun b => b.ops.map (toStorageOp b.table))

/-! ## Tables -/

/-- The contents of one table, under its own keys. -/
def table (t : TableName) (e : StoreEngine V) : SortedMap String V := e.view t.keys

/-- One operation on a table. -/
def applyOp (m : SortedMap String V) : String × OpType V → SortedMap String V
  | (k, .put v) => m.put k v
  | (k, .del) => m.erase k

@[simp] theorem get_table (t : TableName) (e : StoreEngine V) (k : String) :
    (table t e).get k = e.get (t.fullKey k) :=
  SortedMap.get_view t.keys e k

theorem read_eq (e : StoreEngine V) (keys : List String) (t : TableName) :
    read e keys t = keys.map (table t e).get := by
  simp [read, StoreEngine.getData, Function.comp_def]

theorem readAll_eq (e : StoreEngine V) (t : TableName) :
    readAll e t = (table t e).range "" maxUnicodeChar :=
  SortedMap.filterMap_strip_range t.keys e "" maxUnicodeChar

theorem beginToSeek_eq (e : StoreEngine V) (endKey : String) (t : TableName) :
    beginToSeek e endKey t = (table t e).range "" endKey :=
  SortedMap.filterMap_strip_range t.keys e "" endKey

theorem seekToEnd_eq (e : StoreEngine V) (startKey : String) (t : TableName) :
    seekToEnd e startKey t = (table t e).range startKey maxUnicodeChar :=
  SortedMap.filterMap_strip_range t.keys e startKey maxUnicodeChar

theorem table_execOne (t : TableName) (e : StoreEngine V) (o : String × OpType V) :
    table t (e.execOne (toStorageOp t o)) = applyOp (table t e) o := by
  obtain ⟨k, v | _⟩ := o
  · exact SortedMap.view_put t.keys e k v
  · exact SortedMap.view_erase t.keys e k

variable {t t' : TableName}

theorem table_execOne_of_ne (h : t' ≠ t) (e : StoreEngine V)
    (o : String × OpType V) : table t (e.execOne (toStorageOp t' o)) = table t e := by
  obtain ⟨k, v | _⟩ := o
  · exact SortedMap.view_put_of_ofKey_eq_none t.keys e v (t.ofKey_fullKey_of_ne h k)
  · exact SortedMap.view_erase_of_ofKey_eq_none t.keys e (t.ofKey_fullKey_of_ne h k)

theorem table_execOp (t : TableName) (e : StoreEngine V) (ops : List (String × OpType V)) :
    table t (e.execOp (ops.map (toStorageOp t))) = ops.foldl applyOp (table t e) := by
  induction ops generalizing e with
  | nil => rfl
  | cons o ops ih =>
    rw [List.foldl_cons, ← table_execOne, ← ih]
    rfl

/-- An operation on one table leaves the other tables alone. -/
theorem table_execOp_of_ne (h : t' ≠ t) (e : StoreEngine V) (ops : List (String × OpType V)) :
    table t (e.execOp (ops.map (toStorageOp t'))) = table t e := by
  induction ops generalizing e with
  | nil => rfl
  | cons o ops ih => exact (ih _).trans (table_execOne_of_ne h e o)

@[simp] theorem execSequenceBatchOp_nil (e : StoreEngine V) : execSequenceBatchOp e [] = e := rfl

@[simp] theorem execSequenceBatchOp_cons (e : StoreEngine V) (b : BatchOp V) (bs : List (BatchOp V)) :
    execSequenceBatchOp e (b :: bs) =
      execSequenceBatchOp (e.execOp (b.ops.map (toStorageOp b.table))) bs := by
  simp [execSequenceBatchOp, StoreEngine.execOp]

/-- The table after a sequence of batches: the operations of its own batches, in order. -/
theorem table_execSequenceBatchOp (t : TableName) (e : StoreEngine V) (bs : List (BatchOp V)) :
    table t (execSequenceBatchOp e bs) =
      ((bs.filter (·.table = t)).flatMap (·.ops)).foldl applyOp (table t e) := by
  induction bs generalizing e with
  | nil => rfl
  | cons b bs ih =>
    rw [execSequenceBatchOp_cons, ih]
    by_cases h : b.table = t
    · subst h
      simp [table_execOp, List.foldl_append]
    · simp [h, table_execOp_of_ne h]

theorem empty_le (k : String) : "" ≤ k := by
  rw [← not_lt, String.lt_iff_toList_lt]
  simp

/-- After a batch of PUTs a key holds the last row put there. -/
theorem get_foldl_put {α : Type} (key : α → String) (val : α → V) (l : List α)
    (m : SortedMap String V) (k : String) :
    ((l.map fun x => (key x, OpType.put (val x))).foldl applyOp m).get k =
      ((l.reverse.find? fun x => key x = k).map val).or (m.get k) := by
  induction l generalizing m with
  | nil => simp
  | cons x l ih =>
    rw [List.map_cons, List.foldl_cons, ih, List.reverse_cons, List.find?_append, applyOp,
      SortedMap.get_put]
    cases l.reverse.find? (fun x => key x = k) with
    | some y => simp
    | none =>
      by_cases h : key x = k
      · simp [h]
      · simp [h, Ne.symm h]

/-- After a batch of DELs the keys named are gone. -/
theorem get_foldl_del {α : Type} (key : α → String) (l : List α) (m : SortedMap String V) (k : String) :
    ((l.map fun x => (key x, (OpType.del : OpType V))).foldl applyOp m).get k =
      if ∃ x ∈ l, key x = k then none else m.get k := by
  induction l generalizing m with
  | nil => simp
  | cons x l ih =>
    rw [List.map_cons, List.foldl_cons, ih, applyOp, SortedMap.get_erase]
    by_cases h : key x = k
    · simp [h]
    · simp [h, Ne.symm h]

/-! ## Paged scans

`StoreEngineProxy.iter_all` reads a table page by page.  Each page is one call of the engine; the
next one starts after the last key of the page before. -/

/-- The rows `VolatileStore::seek_range_page` takes from those in range: at most `limit`, the first
one always, each further one only if it fits the byte budget. -/
def takePage (rowBytes : String × V → ℕ) (limit maxBytes : ℕ) :
    ℕ → ℕ → List (String × V) → List (String × V)
  | _, _, [] => []
  | size, pageBytes, e :: es =>
    if size < limit then
      if size ≠ 0 ∧ (pageBytes ≥ maxBytes ∨ rowBytes e > maxBytes - pageBytes) then []
      else e :: takePage rowBytes limit maxBytes (size + 1) (pageBytes + rowBytes e) es
    else []

/-- `VolatileStore::seek_range_page`. -/
def StoreEngine.seekRangePage (e : StoreEngine V) (rowBytes : String × V → ℕ)
    (startKey endKey : String) (limit maxBytes : ℕ) (startExclusive : Bool) : List (String × V) :=
  if limit = 0 ∨ maxBytes = 0 then []
  else
    takePage rowBytes limit maxBytes 0 0 <| e.entries.filter fun x =>
      (if startExclusive then startKey < x.1 else startKey ≤ x.1) ∧ x.1 < endKey

/-- `STORE_SCAN_PAGE_SIZE`. -/
def storeScanPageSize : ℕ := 1024

/-- `STORE_SCAN_PAGE_BYTES`. -/
def storeScanPageBytes : ℕ := 32 * 1024 * 1024

/-- One page of `iter_all`: from the start of the table, or after the cursor. -/
def scanPage (e : StoreEngine V) (rowBytes : String × V → ℕ) (t : TableName) :
    Option String → List (String × V)
  | none =>
    e.seekRangePage rowBytes (t.fullKey "") (t.fullKey maxUnicodeChar) storeScanPageSize
      storeScanPageBytes false
  | some cursor =>
    e.seekRangePage rowBytes cursor (t.fullKey maxUnicodeChar) storeScanPageSize
      storeScanPageBytes true

/-- A scan at `cursor` has not visited the key yet. -/
def Unvisited (t : TableName) : Option String → String → Prop
  | none, k => t.fullKey "" ≤ k
  | some c, k => c < k

instance (t : TableName) : (cursor : Option String) → (k : String) → Decidable (Unvisited t cursor k)
  | none, k => inferInstanceAs (Decidable (t.fullKey "" ≤ k))
  | some c, k => inferInstanceAs (Decidable (c < k))

/-- What a scan at `cursor` still has to visit. -/
def scanRest (e : StoreEngine V) (t : TableName) (cursor : Option String) : List (String × V) :=
  e.entries.filter fun x => Unvisited t cursor x.1 ∧ x.1 < t.fullKey maxUnicodeChar

theorem prefix_takePage (rowBytes : String × V → ℕ) (limit maxBytes size pageBytes : ℕ)
    (es : List (String × V)) : takePage rowBytes limit maxBytes size pageBytes es <+: es := by
  induction es generalizing size pageBytes with
  | nil => simp [takePage]
  | cons e es ih =>
    unfold takePage
    split_ifs
    · exact List.nil_prefix
    · exact (List.prefix_cons_inj e).2 (ih _ _)
    · exact List.nil_prefix

theorem takePage_ne_nil (rowBytes : String × V → ℕ) {limit : ℕ} (hlimit : 0 < limit)
    (maxBytes pageBytes : ℕ) {es : List (String × V)} (h : es ≠ []) :
    takePage rowBytes limit maxBytes 0 pageBytes es ≠ [] := by
  cases es with
  | nil => exact absurd rfl h
  | cons e es => simp [takePage, hlimit]

theorem scanPage_eq (e : StoreEngine V) (rowBytes : String × V → ℕ) (t : TableName) (cursor : Option String) :
    scanPage e rowBytes t cursor =
      takePage rowBytes storeScanPageSize storeScanPageBytes 0 0 (scanRest e t cursor) := by
  have hpos : ¬ (storeScanPageSize = 0 ∨ storeScanPageBytes = 0) := by decide
  cases cursor with
  | none | some c =>
    rw [scanPage, StoreEngine.seekRangePage, if_neg hpos]
    rfl

/-- A sorted list from its first part's last key on is its second part. -/
theorem filter_lt_getLast {p r : List (String × V)} {last : String × V}
    (hs : (p ++ r).Pairwise fun x y => x.1 < y.1) (hlast : p.getLast? = some last) :
    (p ++ r).filter (fun x => last.1 < x.1) = r := by
  obtain ⟨ys, rfl⟩ := List.getLast?_eq_some_iff.1 hlast
  have hle : ∀ x ∈ ys ++ [last], ¬ last.1 < x.1 := by
    intro x hx
    rcases List.mem_append.1 hx with hx | hx
    · exact lt_asymm ((List.pairwise_append.1 (List.pairwise_append.1 hs).1).2.2 x hx last (by simp))
    · simp [List.mem_singleton.1 hx]
  have hgt : ∀ x ∈ r, last.1 < x.1 := fun x hx =>
    (List.pairwise_append.1 hs).2.2 last (by simp) x hx
  rw [List.filter_append, List.filter_eq_nil_iff.2 fun x hx => by simpa using hle x hx,
    List.filter_eq_self.2 fun x hx => by simpa using hgt x hx, List.nil_append]

variable {rowBytes : String × V → ℕ}

/-- A page is the first part of what is left, and its last key the cursor of the rest. -/
theorem scanRest_eq_page_append {e : StoreEngine V} {cursor : Option String} {last : String × V}
    (h : (scanPage e rowBytes t cursor).getLast? = some last) :
    scanRest e t cursor = scanPage e rowBytes t cursor ++ scanRest e t (some last.1) := by
  obtain ⟨r, hr⟩ := prefix_takePage rowBytes storeScanPageSize storeScanPageBytes 0 0
    (scanRest e t cursor)
  rw [← scanPage_eq] at hr
  have hsorted : (scanRest e t cursor).Pairwise fun x y => x.1 < y.1 := e.sorted.filter _
  have hmem : last ∈ scanRest e t cursor := by
    rw [← hr]
    exact List.mem_append_left _ (List.mem_of_getLast? h)
  have hrest : scanRest e t (some last.1) = r := by
    have hfilter := filter_lt_getLast (hr ▸ hsorted) h
    rw [hr] at hfilter
    rw [← hfilter, scanRest, scanRest, List.filter_filter]
    refine List.filter_congr fun x _ => ?_
    obtain ⟨-, hlast⟩ := List.mem_filter.1 hmem
    have hstart : last.1 < x.1 → Unvisited t cursor x.1 := by
      intro hlt
      cases cursor with
      | none => exact (of_decide_eq_true hlast).1.trans hlt.le
      | some c => exact lt_trans (of_decide_eq_true hlast).1 hlt
    have hnext : Unvisited t (some last.1) x.1 ↔ last.1 < x.1 := Iff.rfl
    by_cases hlt : last.1 < x.1
    · simp only [hnext, hlt, hstart hlt, true_and, decide_true, Bool.true_and]
    · simp only [hnext, hlt, false_and, decide_false, Bool.false_and]
  rw [hrest, hr]

/-- An empty page ends the scan. -/
theorem scanRest_eq_nil {e : StoreEngine V} {cursor : Option String} (h : scanPage e rowBytes t cursor = []) :
    scanRest e t cursor = [] := by
  by_contra hne
  rw [scanPage_eq] at h
  exact takePage_ne_nil rowBytes (by decide) _ _ hne h

end Proxy

end OpenViking.VectorDB
