import OpenViking.VectorDB.Store

/-!
# The paged scan of a table

`StoreEngineProxy.iter_all` (`vectordb/store/local_store.py`, 112-164) reads a table in bounded
pages, each the answer of one native `seek_range_page` that starts after the last key of the page
before.  `read_all` reads the same table in one call.  Both engines are here: `VolatileStore` walks
a `std::map`, `PersistStore` a LevelDB iterator.

The native calls take their keys through `PyArg_ParseTuple`'s `s` (`src/abi3_engine_backend.cpp`,
1849-1907), which refuses a string with a NUL in it, and their sizes through `n`, which refuses an
integer that does not fit `Py_ssize_t`.  Rows are written through another parser, which takes any
key.

Results:

* `iterLoop_eq`: the pages, one after another, are the rows that are left;
* `scansAll_iff`: when the paged scan is the full scan.
-/

namespace OpenViking.VectorDB

open SortedMap (KeyEmb)

variable {V : Type}

/-! ## Tables of any name -/

/-- `full_key[len(table_name):]` when `full_key.startswith(table_name)`. -/
def stripTable (tableName fullKey : String) : Option String :=
  if tableName.toList <+: fullKey.toList then
    some (String.ofList (fullKey.toList.drop tableName.toList.length))
  else none

variable {c cursor endKey : String}

theorem stripTable_eq_some {tableName a : String} :
    stripTable tableName a = some c ↔ a = tableName ++ c := by
  unfold stripTable
  rw [← String.toList_inj, String.toList_append]
  constructor
  · intro h
    split_ifs at h with hp
    obtain ⟨r, hr⟩ := hp
    rw [← hr] at h ⊢
    rw [List.drop_left] at h
    rw [← Option.some.inj h, String.toList_ofList]
  · intro h
    rw [h, if_pos (List.prefix_append _ _), List.drop_left, String.ofList_toList]

theorem append_lt_append {s d : String} : s ++ c < s ++ d ↔ c < d := by
  rw [String.lt_iff_toList_lt, String.lt_iff_toList_lt, String.toList_append, String.toList_append]
  induction s.toList with
  | nil => simp
  | cons x xs ih => simpa [List.cons_lt_cons_iff] using ih

/-- The keys of the table within the keys of the engine. -/
def tableKeys (tableName : String) : KeyEmb String String where
  toKey := (tableName ++ ·)
  ofKey := stripTable tableName
  ofKey_eq_some := stripTable_eq_some
  toKey_lt := append_lt_append

/-! ## A sorted list from a key on -/

section Sorted

variable {α β : Type*} [LinearOrder α]

/-- `if (start_exclusive && it->Valid() && it->key() == start_key) it->Next();` -/
def skipStart (startExclusive : Bool) (startKey : α) : List (α × β) → List (α × β)
  | [] => []
  | x :: xs => if startExclusive ∧ x.1 = startKey then xs else x :: xs

variable {l : List (α × β)}

section

variable (h : l.Pairwise fun x y => x.1 < y.1)

include h

/-- In a sorted list the keys not below a bound are what is left after those below it. -/
theorem dropWhile_lt (k : α) : l.dropWhile (fun x => x.1 < k) = l.filter fun x => k ≤ x.1 := by
  rw [(takeWhile_eq_filter (h.imp fun hlt hk => decide_eq_true (hlt.trans (of_decide_eq_true hk)))).2]
  simp only [← decide_not, not_lt]

theorem takeWhile_lt (k : α) : l.takeWhile (fun x => x.1 < k) = l.filter fun x => x.1 < k :=
  (takeWhile_eq_filter (h.imp fun hlt hk => decide_eq_true (hlt.trans (of_decide_eq_true hk)))).1

/-- Skipping the start key after the seek leaves the keys above it. -/
theorem skipStart_filter (startExclusive : Bool) (k : α) :
    skipStart startExclusive k (l.filter fun x => k ≤ x.1) =
      l.filter fun x => if startExclusive then k < x.1 else k ≤ x.1 := by
  cases startExclusive with
  | false =>
    show skipStart false k (l.filter fun x => k ≤ x.1) = l.filter fun x => k ≤ x.1
    generalize l.filter (fun x => k ≤ x.1) = m
    cases m <;> simp [skipStart]
  | true =>
    induction h with
    | nil => rfl
    | @cons x xs hx hxs ih =>
      by_cases hk : k ≤ x.1
      · have habove : ∀ y ∈ xs, k < y.1 := fun y hy => hk.trans_lt (hx y hy)
        have hle : xs.filter (fun y => k ≤ y.1) = xs :=
          List.filter_eq_self.2 fun y hy => by simpa using (habove y hy).le
        have hlt : xs.filter (fun y => k < y.1) = xs :=
          List.filter_eq_self.2 fun y hy => by simpa using habove y hy
        rw [List.filter_cons_of_pos (by simpa using hk), hle]
        by_cases he : x.1 = k
        · simp [skipStart, he, hlt]
        · have hlt' : k < x.1 := lt_of_le_of_ne hk (Ne.symm he)
          simp [skipStart, he, hlt, hlt']
      · have hk' : ¬ k < x.1 := fun hlt => hk hlt.le
        rw [List.filter_cons_of_neg (by simpa using hk), ih]
        simp [hk']

end

end Sorted

/-! ## The native calls -/

/-- The two engines behind `KVStore`. -/
inductive KVStore where
  | volatile
  | persist
  deriving DecidableEq, Repr

/-- `PersistStore::seek_range`: from the first key not below `startKey`, while below `endKey`. -/
def PersistStore.seekRange (e : StoreEngine V) (startKey endKey : String) : List (String × V) :=
  (e.entries.dropWhile fun x => x.1 < startKey).takeWhile fun x => x.1 < endKey

/-- `PersistStore::seek_range_page` (`src/store/persist_store.cpp`, 116-151). -/
def PersistStore.seekRangePage (e : StoreEngine V) (rowBytes : String × V → ℕ)
    (startKey endKey : String) (limit maxBytes : ℕ) (startExclusive : Bool) : List (String × V) :=
  if limit = 0 ∨ maxBytes = 0 then []
  else
    takePage rowBytes limit maxBytes 0 0 <|
      (skipStart startExclusive startKey <| e.entries.dropWhile fun x => x.1 < startKey).takeWhile
        fun x => x.1 < endKey

/-- `KVStore::seek_range`. -/
def KVStore.seekRange : KVStore → StoreEngine V → String → String → List (String × V)
  | volatile => StoreEngine.seekRange
  | persist => PersistStore.seekRange

/-- `KVStore::seek_range_page`. -/
def KVStore.seekRangePage : KVStore → StoreEngine V → (String × V → ℕ) → String → String → ℕ → ℕ →
    Bool → List (String × V)
  | volatile => StoreEngine.seekRangePage
  | persist => PersistStore.seekRangePage

/-- What a scan can raise. -/
inductive ScanError where
  | valueError (message : String)
  | overflowError (message : String)
  | runtimeError (message : String)
  deriving DecidableEq, Repr

/-- A string `PyArg_ParseTuple`'s `s` accepts. -/
def NulFree (s : String) : Prop := Char.ofNat 0 ∉ s.toList

instance (s : String) : Decidable (NulFree s) := inferInstanceAs (Decidable (_ ∉ _))

/-- The largest `Py_ssize_t`. -/
def ssizeMax : ℤ := 2 ^ 63 - 1

/-- An integer `PyArg_ParseTuple`'s `n` accepts. -/
def FitsSsize (n : ℤ) : Prop := -ssizeMax - 1 ≤ n ∧ n ≤ ssizeMax

instance (n : ℤ) : Decidable (FitsSsize n) := inferInstanceAs (Decidable (_ ∧ _))

/-- `py_store_seek_range`. -/
def storeSeekRange (store : KVStore) (e : StoreEngine V) (startKey endKey : String) :
    Except ScanError (List (String × V)) :=
  if ¬ NulFree startKey ∨ ¬ NulFree endKey then .error (.valueError "embedded null character")
  else .ok (store.seekRange e startKey endKey)

/-- `py_store_seek_range_page`. -/
def storeSeekRangePage (store : KVStore) (e : StoreEngine V) (rowBytes : String × V → ℕ)
    (startKey endKey : String) (limit maxBytes : ℤ) (startExclusive : Bool) :
    Except ScanError (List (String × V)) :=
  if ¬ NulFree startKey ∨ ¬ NulFree endKey then .error (.valueError "embedded null character")
  else if ¬ FitsSsize limit ∨ ¬ FitsSsize maxBytes then
    .error (.overflowError "Python int too large to convert to C ssize_t")
  else if limit ≤ 0 then .error (.valueError "seek_range_page limit must be positive")
  else if maxBytes ≤ 0 then .error (.valueError "seek_range_page max_bytes must be positive")
  else .ok (store.seekRangePage e rowBytes startKey endKey limit.toNat maxBytes.toNat startExclusive)

/-! ## The two scans -/

/-- `iter->first.size() + iter->second.size()`, the sizes of the encoded key and row. -/
def itemBytes (valueBytes : V → ℕ) (x : String × V) : ℕ := x.1.utf8ByteSize + valueBytes x.2

/-- `StoreEngineProxy.read_all`, for a table of any name. -/
def readAllOf (store : KVStore) (e : StoreEngine V) (tableName : String) :
    Except ScanError (List (String × V)) :=
  (storeSeekRange store e tableName (tableName ++ maxUnicodeChar)).map
    (List.filterMap (tableKeys tableName).strip)

/-- A generator that has run: what it yielded and what it raised at its end. -/
structure Scan (V : Type) where
  yielded : List (String × V)
  raised : Option ScanError

/-- The loop of `iter_all` from a cursor on, the call that fetches its page included; `none` when
the fuel runs out. -/
def iterLoop (seekPage : String → Bool → Except ScanError (List (String × V)))
    (tableName : String) : ℕ → String → Bool → Option (Scan V)
  | 0, _, _ => none
  | fuel + 1, cursor, startExclusive =>
    match seekPage cursor startExclusive with
    | .error err => some ⟨[], some err⟩
    | .ok page =>
      match page.getLast? with
      | none => some ⟨[], none⟩
      | some (nextCursor, _) =>
        if nextCursor < cursor ∨ (startExclusive ∧ nextCursor ≤ cursor) then
          some ⟨[], some (.runtimeError
            "Native bounded store scan did not advance its continuation cursor")⟩
        else
          (iterLoop seekPage tableName fuel nextCursor true).map fun rest =>
            ⟨page.filterMap (tableKeys tableName).strip ++ rest.yielded, rest.raised⟩

/-- `StoreEngineProxy.iter_all` (`local_store.py`, 112-164), read to its end. -/
def iterAll (store : KVStore) (valueBytes : V → ℕ) (e : StoreEngine V) (tableName : String)
    (pageSize pageBytes : ℤ) (fuel : ℕ) : Option (Scan V) :=
  if pageSize ≤ 0 then some ⟨[], some (.valueError "Store scan page size must be positive")⟩
  else if pageBytes ≤ 0 then
    some ⟨[], some (.valueError "Store scan page byte budget must be positive")⟩
  else
    iterLoop (fun cursor startExclusive => storeSeekRangePage store e (itemBytes valueBytes) cursor
      (tableName ++ maxUnicodeChar) pageSize pageBytes startExclusive) tableName fuel tableName false

/-- The keys at which the pages of these rows end: at a row with no row after it, and at one whose
next row makes the page too long or too large.  `size` and `bytes` are what the page already has
before the first row. -/
def pageEnds (rowBytes : String × V → ℕ) (limit maxBytes : ℕ) :
    ℕ → ℕ → List (String × V) → List String
  | _, _, [] => []
  | _, _, [x] => [x.1]
  | size, bytes, x :: y :: es =>
    if size + 1 < limit ∧ bytes + rowBytes x < maxBytes ∧
        bytes + rowBytes x + rowBytes y ≤ maxBytes then
      pageEnds rowBytes limit maxBytes (size + 1) (bytes + rowBytes x) (y :: es)
    else x.1 :: pageEnds rowBytes limit maxBytes 0 0 (y :: es)

/-- The paged scan comes to its end and has yielded the rows of the full scan, in their order, each
key once. -/
def ScansAll (store : KVStore) (valueBytes : V → ℕ) (e : StoreEngine V) (tableName : String)
    (pageSize pageBytes : ℤ) : Prop :=
  ∃ rows, readAllOf store e tableName = .ok rows ∧ rows.Pairwise (fun x y => x.1 < y.1) ∧
    ∀ fuel, e.entries.length < fuel →
      iterAll store valueBytes e tableName pageSize pageBytes fuel = some ⟨rows, none⟩

/-! ## One page -/

/-- The rows a scan at `cursor` has left. -/
def rowsFrom (e : StoreEngine V) (endKey cursor : String) (startExclusive : Bool) :
    List (String × V) :=
  e.entries.filter fun x =>
    (if startExclusive then cursor < x.1 else cursor ≤ x.1) ∧ x.1 < endKey

theorem rowsFrom_sorted (e : StoreEngine V) (endKey cursor : String) (startExclusive : Bool) :
    (rowsFrom e endKey cursor startExclusive).Pairwise fun x y => x.1 < y.1 :=
  e.sorted.filter _

variable (store : KVStore)

/-- Both engines' `seek_range` are the rows in range. -/
theorem seekRange_eq (e : StoreEngine V) (startKey endKey : String) :
    store.seekRange e startKey endKey = rowsFrom e endKey startKey false := by
  cases store with
  | volatile => rfl
  | persist =>
    show PersistStore.seekRange e startKey endKey = _
    unfold PersistStore.seekRange rowsFrom
    rw [dropWhile_lt e.sorted, takeWhile_lt (e.sorted.filter _), List.filter_filter]
    refine List.filter_congr fun x _ => ?_
    show (decide (x.1 < endKey) && decide (startKey ≤ x.1)) = decide (startKey ≤ x.1 ∧ x.1 < endKey)
    rw [Bool.decide_and, Bool.and_comm]

/-- Both engines cut their page out of the rows that are left. -/
theorem seekRangePage_eq (e : StoreEngine V) (rowBytes : String × V → ℕ)
    (startKey endKey : String) {limit maxBytes : ℕ} (hl : 0 < limit) (hb : 0 < maxBytes)
    (startExclusive : Bool) :
    store.seekRangePage e rowBytes startKey endKey limit maxBytes startExclusive =
      takePage rowBytes limit maxBytes 0 0 (rowsFrom e endKey startKey startExclusive) := by
  have hpos : ¬ (limit = 0 ∨ maxBytes = 0) := by omega
  cases store with
  | volatile => exact if_neg hpos
  | persist =>
    show PersistStore.seekRangePage e rowBytes startKey endKey limit maxBytes startExclusive = _
    unfold PersistStore.seekRangePage rowsFrom
    rw [if_neg hpos, dropWhile_lt e.sorted, skipStart_filter e.sorted,
      takeWhile_lt (e.sorted.filter _), List.filter_filter]
    congr 1
    refine List.filter_congr fun x _ => ?_
    rw [Bool.decide_and, Bool.and_comm]
    split_ifs <;> rfl

/-- The native call on a cursor and sizes it accepts. -/
theorem storeSeekRangePage_eq (e : StoreEngine V) (rowBytes : String × V → ℕ)
    {limit maxBytes : ℤ} (hc : NulFree cursor) (he : NulFree endKey)
    (hl : 1 ≤ limit ∧ limit ≤ ssizeMax) (hb : 1 ≤ maxBytes ∧ maxBytes ≤ ssizeMax) (startExclusive : Bool) :
    storeSeekRangePage store e rowBytes cursor endKey limit maxBytes startExclusive =
      .ok (takePage rowBytes limit.toNat maxBytes.toNat 0 0
        (rowsFrom e endKey cursor startExclusive)) := by
  have hfits : ¬ (¬ FitsSsize limit ∨ ¬ FitsSsize maxBytes) := by
    unfold FitsSsize ssizeMax at *
    omega
  unfold storeSeekRangePage
  rw [if_neg (by tauto), if_neg hfits, if_neg (by omega), if_neg (by omega),
    seekRangePage_eq store e rowBytes cursor endKey (by omega) (by omega)]

/-- A page that has been cut off leaves the rows above its last key. -/
theorem rowsFrom_split {e : StoreEngine V} {startExclusive : Bool}
    {page rest : List (String × V)} {last : String × V}
    (h : rowsFrom e endKey cursor startExclusive = page ++ rest)
    (hlast : page.getLast? = some last) : rowsFrom e endKey last.1 true = rest := by
  have hsorted := rowsFrom_sorted e endKey cursor startExclusive
  have hmem : last ∈ rowsFrom e endKey cursor startExclusive := by
    rw [h]
    exact List.mem_append_left _ (List.mem_of_getLast? hlast)
  obtain ⟨-, hstart⟩ := List.mem_filter.1 hmem
  rw [h] at hsorted
  rw [← filter_lt_getLast hsorted hlast, ← h, rowsFrom, rowsFrom, List.filter_filter]
  refine List.filter_congr fun x _ => ?_
  have hnext : last.1 < x.1 → (if startExclusive then cursor < x.1 else cursor ≤ x.1) := by
    intro hlt
    have hs := (of_decide_eq_true hstart).1
    split_ifs at hs ⊢
    · exact lt_trans hs hlt
    · exact hs.trans hlt.le
  rw [← Bool.decide_and]
  refine decide_eq_decide.2 ⟨fun h => ⟨h.1, hnext h.1, h.2⟩, fun h => ⟨h.1, h.2.2⟩⟩

/-- The page's last key is not before the cursor it started from, and after it from the second page
on: the continuation check never fires. -/
theorem cursor_advances {e : StoreEngine V} {startExclusive : Bool}
    {last : String × V} (h : last ∈ rowsFrom e endKey cursor startExclusive) :
    ¬ (last.1 < cursor ∨ (startExclusive ∧ last.1 ≤ cursor)) := by
  have hs := (of_decide_eq_true (List.mem_filter.1 h).2).1
  rintro (hbefore | ⟨hexcl, hle⟩)
  · split_ifs at hs
    · exact lt_asymm hs hbefore
    · exact not_lt.2 hs hbefore
  · rw [if_pos hexcl] at hs
    exact not_le.2 hs hle

/-! ## The pages -/

variable (rowBytes : String × V → ℕ)

/-- Where the pages end, by what each of them takes. -/
theorem pageEnds_takePage (limit maxBytes : ℕ) (es : List (String × V)) :
    ∀ (size bytes : ℕ) (x : String × V), ∃ last,
      (x :: takePage rowBytes limit maxBytes (size + 1) (bytes + rowBytes x) es).getLast? =
          some last ∧
        pageEnds rowBytes limit maxBytes size bytes (x :: es) =
          last.1 :: pageEnds rowBytes limit maxBytes 0 0
            (es.drop (takePage rowBytes limit maxBytes (size + 1) (bytes + rowBytes x) es).length) := by
  induction es with
  | nil => exact fun size bytes x => ⟨x, by simp [takePage, pageEnds]⟩
  | cons y es ih =>
    intro size bytes x
    rw [takePage]
    -- The loop of the page goes on to `y` exactly when `y` does not start the next page.
    by_cases hfit : size + 1 < limit ∧ bytes + rowBytes x < maxBytes ∧
        bytes + rowBytes x + rowBytes y ≤ maxBytes
    · have hgo : ¬ (size + 1 ≠ 0 ∧ (bytes + rowBytes x ≥ maxBytes ∨
          rowBytes y > maxBytes - (bytes + rowBytes x))) := by omega
      obtain ⟨last, hlast, hends⟩ := ih (size + 1) (bytes + rowBytes x) y
      rw [if_pos hfit.1, if_neg hgo]
      refine ⟨last, by rw [List.getLast?_cons_cons, hlast], ?_⟩
      rw [pageEnds, if_pos hfit, hends, List.length_cons, List.drop_succ_cons]
    · have hstop : (if size + 1 < limit then
          if size + 1 ≠ 0 ∧ (bytes + rowBytes x ≥ maxBytes ∨
            rowBytes y > maxBytes - (bytes + rowBytes x)) then []
          else y :: takePage rowBytes limit maxBytes (size + 1 + 1)
            (bytes + rowBytes x + rowBytes y) es
        else []) = [] := by
        by_cases hsize : size + 1 < limit
        · rw [if_pos hsize, if_pos (by omega)]
        · rw [if_neg hsize]
      rw [hstop]
      refine ⟨x, rfl, ?_⟩
      rw [pageEnds, if_neg hfit]
      rfl

/-- The first page of the rows that are left: empty when there are none, otherwise cut where the
first page ends. -/
theorem takePage_split {limit : ℕ} (hl : 0 < limit) (maxBytes : ℕ)
    {rows : List (String × V)} (hne : rows ≠ []) :
    ∃ last rest, (takePage rowBytes limit maxBytes 0 0 rows).getLast? = some last ∧
      rows = takePage rowBytes limit maxBytes 0 0 rows ++ rest ∧
      pageEnds rowBytes limit maxBytes 0 0 rows =
        last.1 :: pageEnds rowBytes limit maxBytes 0 0 rest := by
  obtain ⟨x, es, rfl⟩ := List.exists_cons_of_ne_nil hne
  have hpage : takePage rowBytes limit maxBytes 0 0 (x :: es) =
      x :: takePage rowBytes limit maxBytes (0 + 1) (0 + rowBytes x) es := by
    rw [takePage, if_pos hl, if_neg (by simp)]
  obtain ⟨last, hlast, hends⟩ := pageEnds_takePage rowBytes limit maxBytes es 0 0 x
  refine ⟨last, _, by rw [hpage, hlast], ?_, hends⟩
  rw [hpage, List.cons_append, List.prefix_iff_eq_append.1
    (prefix_takePage rowBytes limit maxBytes (0 + 1) (0 + rowBytes x) es)]

/-! ## The whole scan -/

section Whole

variable {store : KVStore} {e : StoreEngine V} {valueBytes : V → ℕ} {tableName endKey : String}
  {limit maxBytes : ℤ}

/-- The rows at which a scan from `cursor` stops for its next page. -/
def stops (valueBytes : V → ℕ) (limit maxBytes : ℤ) (rows : List (String × V)) : List String :=
  pageEnds (itemBytes valueBytes) limit.toNat maxBytes.toNat 0 0 rows

/-- The call after a page that ends at a key with a NUL raises. -/
theorem iterLoop_nul {cursor : String} (hc : ¬ NulFree cursor) (startExclusive : Bool) {fuel : ℕ}
    (hfuel : 0 < fuel) :
    iterLoop (fun cursor startExclusive => storeSeekRangePage store e (itemBytes valueBytes)
      cursor endKey limit maxBytes startExclusive) tableName fuel cursor startExclusive =
        some ⟨[], some (.valueError "embedded null character")⟩ := by
  obtain ⟨n, rfl⟩ := Nat.exists_eq_succ_of_ne_zero hfuel.ne'
  have hcall : storeSeekRangePage store e (itemBytes valueBytes) cursor endKey limit maxBytes
      startExclusive = .error (.valueError "embedded null character") := if_pos (.inl hc)
  unfold iterLoop
  simp only [hcall]

/-- **The loop yields the rows that are left**, when it can go on from every page's end; otherwise
it raises. -/
theorem iterLoop_eq (he : NulFree endKey) (hl : 1 ≤ limit ∧ limit ≤ ssizeMax)
    (hb : 1 ≤ maxBytes ∧ maxBytes ≤ ssizeMax) (fuel : ℕ) :
    ∀ (cursor : String) (startExclusive : Bool), NulFree cursor →
      (rowsFrom e endKey cursor startExclusive).length < fuel →
      ∃ yielded raised,
        iterLoop (fun cursor startExclusive => storeSeekRangePage store e (itemBytes valueBytes)
          cursor endKey limit maxBytes startExclusive) tableName fuel cursor startExclusive =
            some ⟨yielded, raised⟩ ∧
        ((∀ k ∈ stops valueBytes limit maxBytes (rowsFrom e endKey cursor startExclusive),
            NulFree k) →
          raised = none ∧ yielded = (rowsFrom e endKey cursor startExclusive).filterMap
            (tableKeys tableName).strip) ∧
        (raised = none →
          ∀ k ∈ stops valueBytes limit maxBytes (rowsFrom e endKey cursor startExclusive),
            NulFree k) := by
  induction fuel with
  | zero => intro _ _ _ h; omega
  | succ fuel ih =>
    intro cursor startExclusive hc hfuel
    unfold iterLoop
    simp only [storeSeekRangePage_eq store e (itemBytes valueBytes) hc he hl hb]
    by_cases hrows : rowsFrom e endKey cursor startExclusive = []
    · refine ⟨[], none, ?_, ?_⟩ <;> rw [hrows]
      · rfl
      · simp [stops, pageEnds]
    · obtain ⟨last, rest, hlast, hsplit, hends⟩ :=
        takePage_split (itemBytes valueBytes) (show 0 < limit.toNat by omega) maxBytes.toNat hrows
      have hmem : last ∈ rowsFrom e endKey cursor startExclusive := by
        rw [hsplit]
        exact List.mem_append_left _ (List.mem_of_getLast? hlast)
      have hrest := rowsFrom_split hsplit hlast
      have hshort : rest.length < fuel := by
        have hpos := List.length_pos_of_mem (List.mem_of_getLast? hlast)
        have hlen := congrArg List.length hsplit
        rw [List.length_append] at hlen
        omega
      simp only [hlast, if_neg (cursor_advances hmem)]
      by_cases hnul : NulFree last.1
      · obtain ⟨yielded, raised, hrun, hall, hend⟩ := ih last.1 true hnul (by rw [hrest]; exact hshort)
        rw [hrest] at hall hend
        refine ⟨_, _, by rw [hrun]; rfl, fun hstops => ?_, fun hraised => ?_⟩
        · obtain ⟨hnone, hyield⟩ := hall fun k hk => hstops k (by
            rw [stops, hends]
            exact List.mem_cons_of_mem _ hk)
          refine ⟨hnone, ?_⟩
          rw [hyield, ← List.filterMap_append, ← hsplit]
        · intro k hk
          rw [stops, hends] at hk
          rcases List.mem_cons.1 hk with hk | hk
          · rw [hk]
            exact hnul
          · exact hend hraised k hk
      · refine ⟨_, _, by rw [iterLoop_nul hnul true (by omega)]; rfl, fun hstops => ?_, fun h => ?_⟩
        · refine absurd (hstops last.1 ?_) hnul
          rw [stops, hends]
          exact List.mem_cons_self
        · cases h

theorem nulFree_append {s t : String} : NulFree (s ++ t) ↔ NulFree s ∧ NulFree t := by
  unfold NulFree
  rw [String.toList_append, List.mem_append, not_or]

theorem nulFree_endKey : NulFree (tableName ++ maxUnicodeChar) ↔ NulFree tableName := by
  have hmax : NulFree maxUnicodeChar := by decide +kernel
  rw [nulFree_append, and_iff_left hmax]

/-- `read_all` is the rows of the table, when the table's name has no NUL. -/
theorem readAllOf_eq (hname : NulFree tableName) :
    readAllOf store e tableName =
      .ok ((rowsFrom e (tableName ++ maxUnicodeChar) tableName false).filterMap
        (tableKeys tableName).strip) := by
  have hkeys : ¬ (¬ NulFree tableName ∨ ¬ NulFree (tableName ++ maxUnicodeChar)) := by
    rw [nulFree_endKey]
    tauto
  unfold readAllOf storeSeekRange
  rw [if_neg hkeys, seekRange_eq]
  rfl

theorem readAllOf_nul (hname : ¬ NulFree tableName) :
    readAllOf store e tableName = .error (.valueError "embedded null character") := by
  unfold readAllOf storeSeekRange
  rw [if_pos (.inl hname)]
  rfl

/-- A size the native call cannot take ends the scan before its first page. -/
theorem iterAll_overflow (hname : NulFree tableName) (hl : 1 ≤ limit) (hb : 1 ≤ maxBytes)
    (h : ¬ (limit ≤ ssizeMax ∧ maxBytes ≤ ssizeMax)) (fuel : ℕ) :
    iterAll store valueBytes e tableName limit maxBytes (fuel + 1) =
      some ⟨[], some (.overflowError "Python int too large to convert to C ssize_t")⟩ := by
  have hkeys : ¬ (¬ NulFree tableName ∨ ¬ NulFree (tableName ++ maxUnicodeChar)) := by
    rw [nulFree_endKey]
    tauto
  have hfits : ¬ FitsSsize limit ∨ ¬ FitsSsize maxBytes := by
    unfold FitsSsize
    omega
  have hcall : storeSeekRangePage store e (itemBytes valueBytes) tableName
      (tableName ++ maxUnicodeChar) limit maxBytes false =
        .error (.overflowError "Python int too large to convert to C ssize_t") := by
    unfold storeSeekRangePage
    rw [if_neg hkeys, if_pos hfits]
  unfold iterAll iterLoop
  rw [if_neg (by omega), if_neg (by omega)]
  simp only [hcall]

/-- **The paged scan is the full scan exactly when every page can be followed by the next**: the
sizes fit the native call's integers and neither the table's name nor a page's last key has a NUL
in it. -/
theorem scansAll_iff (store : KVStore) (valueBytes : V → ℕ) (e : StoreEngine V) (tableName : String)
    {pageSize pageBytes : ℤ} (hsize : 1 ≤ pageSize) (hbytes : 1 ≤ pageBytes) :
    ScansAll store valueBytes e tableName pageSize pageBytes ↔
      NulFree tableName ∧ pageSize ≤ ssizeMax ∧ pageBytes ≤ ssizeMax ∧
        ∀ k ∈ stops valueBytes pageSize pageBytes
          (rowsFrom e (tableName ++ maxUnicodeChar) tableName false), NulFree k := by
  by_cases hname : NulFree tableName
  swap
  · refine iff_of_false ?_ fun h => hname h.1
    rintro ⟨rows, hread, -⟩
    rw [readAllOf_nul hname] at hread
    cases hread
  by_cases hfits : pageSize ≤ ssizeMax ∧ pageBytes ≤ ssizeMax
  swap
  · refine iff_of_false ?_ fun h => hfits ⟨h.2.1, h.2.2.1⟩
    rintro ⟨rows, -, -, hrun⟩
    have hscan := hrun (e.entries.length + 1) (by omega)
    rw [iterAll_overflow hname hsize hbytes hfits] at hscan
    cases hscan
  have hloop := fun fuel => @iterLoop_eq V store e valueBytes tableName _ _ _
    (nulFree_endKey.2 hname) ⟨hsize, hfits.1⟩ ⟨hbytes, hfits.2⟩ fuel tableName false hname
  have hlen : (rowsFrom e (tableName ++ maxUnicodeChar) tableName false).length ≤ e.entries.length :=
    List.length_filter_le _ _
  have hall : ∀ fuel, iterAll store valueBytes e tableName pageSize pageBytes fuel =
      iterLoop (fun cursor startExclusive => storeSeekRangePage store e (itemBytes valueBytes) cursor
        (tableName ++ maxUnicodeChar) pageSize pageBytes startExclusive) tableName fuel tableName
        false := by
    intro fuel
    unfold iterAll
    rw [if_neg (by omega), if_neg (by omega)]
  constructor
  · rintro ⟨rows, -, -, hrun⟩
    obtain ⟨yielded, raised, hscan, -, hend⟩ := hloop (e.entries.length + 1) (by omega)
    have hdone := hrun (e.entries.length + 1) (by omega)
    rw [hall, hscan] at hdone
    exact ⟨hname, hfits.1, hfits.2, hend (congrArg Scan.raised (Option.some.inj hdone))⟩
  · rintro ⟨-, -, -, hstops⟩
    refine ⟨_, readAllOf_eq hname, (tableKeys tableName).filterMap_strip_sorted
      (rowsFrom_sorted e _ _ _), fun fuel hfuel => ?_⟩
    obtain ⟨yielded, raised, hscan, hdone, -⟩ := hloop fuel (by omega)
    obtain ⟨hraised, hyielded⟩ := hdone hstops
    rw [hall, hscan, hraised, hyielded]

/-- Three rows of a table, read two a page, and a row of another table after them. -/
theorem scansAll_iff_threeRows :
    ScansAll .persist (fun _ => 40)
      ((((SortedMap.empty.put "C1" 10).put "C2" 20).put "C30" 30).put "D1" 40) "C" 2 100 :=
  (scansAll_iff .persist (fun _ => 40) _ "C" (by decide) (by decide)).2
    ⟨by decide +kernel, by decide, by decide, by decide +kernel⟩

/-- The key of a row that ends its page, with a NUL after the label. -/
def nulKey : String := String.ofList ['C', '1', Char.ofNat 0]

/-- A table of one row whose key has a NUL in it: the full scan reads it, the paged scan yields it and
then raises. -/
theorem scansAll_fails :
    ¬ ∀ (store : KVStore) (valueBytes : ℕ → ℕ) (e : StoreEngine ℕ) (tableName : String)
      (pageSize pageBytes : ℤ), 1 ≤ pageSize → 1 ≤ pageBytes →
        ScansAll store valueBytes e tableName pageSize pageBytes := by
  intro hall
  obtain ⟨rows, -, -, hrun⟩ := hall .volatile (fun _ => 40) (SortedMap.empty.put nulKey 10) "C" 1 1
    (by decide) (by decide)
  have hraised : (iterAll .volatile (fun _ => 40) (SortedMap.empty.put nulKey 10) "C" 1 1 2).bind
      Scan.raised = some (.valueError "embedded null character") := by decide +kernel
  rw [hrun 2 (by decide +kernel)] at hraised
  cases hraised

end Whole

end OpenViking.VectorDB
