import OpenViking.VectorDB.Filter
import OpenViking.VectorDB.FullIndex
import OpenViking.VectorDB.HeldValues

/-!
# Equality filters

`must(field, [v])` (`MustOp`, `filter_ops.cpp`, 759-798) on an index that has come out of a run of
requests.  On a path field the filter reads the directory trie at the exact depth, so the trie must
lead to every bitmap of the field; a bitmap that a deletion makes is not entered in it.

Results:

* `Tracked.Inv`: the bits of a row cover the keys of the fields it was last added with;
* `Tracked.must_finds_held`: what `must` finds, in every run.
-/

namespace OpenViking.VectorDB.Full

/-! ## Paths -/

theorem splitPath_normalizePathKey (v : String) : splitPath (normalizePathKey v) = splitPath v := by
  unfold normalizePathKey
  split
  · rfl
  · split_ifs
    · rfl
    · have hslash : ("/" ++ v).toList = '/' :: v.toList := by simp [String.toList_append]
      unfold splitPath
      rw [hslash, List.splitOn_cons_eq_if_modifyHead, if_pos (by decide)]
      simp

/-- Two keys at one path have the same characters, slashes apart. -/
theorem clean_of_splitPath {v key : String} (h : splitPath v = splitPath key) (hkey : Clean key) :
    Clean v := by
  have hsub : ∀ c ∈ v.toList, c ≠ '/' → c ∈ key.toList := by
    intro c hc hne
    obtain ⟨part, hpart, hcpart⟩ : ∃ part ∈ v.toList.splitOn '/', c ∈ part := by
      have hjoin : ['/'].intercalate (v.toList.splitOn '/') = v.toList := List.intercalate_splitOn '/'
      rw [← hjoin] at hc
      refine (mem_intercalate hc).resolve_left fun hsep => hne ?_
      exact List.mem_singleton.1 hsep
    have hseg : String.ofList part ∈ splitPath v := by
      refine List.mem_map.2 ⟨part, List.mem_filter.2 ⟨hpart, ?_⟩, rfl⟩
      have := List.ne_nil_of_mem hcpart
      simpa using this
    rw [h] at hseg
    obtain ⟨part', hpart', heq⟩ := List.mem_map.1 hseg
    obtain rfl : part' = part := by simpa using congrArg String.toList heq
    exact (mem_splitOn (List.mem_filter.1 hpart').1).2 hcpart
  exact ⟨fun hc => hkey.1 (hsub _ hc (by decide)), fun hc => hkey.2 (hsub _ hc (by decide))⟩

/-! ## The trie of a path field -/

namespace FieldBitmapGroup

variable {R : Type}

/-- The trie is there for a path field, and leads to its bitmaps, each at its own path. -/
structure TrieOk (g : FieldBitmapGroup R) : Prop where
  dir : g.dirIndex.isSome = (g.typeId = .dir : Bool)
  wf : ∀ d ∈ g.dirIndex, d.Wf
  bound : ∀ d ∈ g.dirIndex, ∀ key, (g.bitmapGroup.get key).isSome → d.Bound (splitPath key) key
  own : ∀ d ∈ g.dirIndex, ∀ path key, d.Bound path key → path = splitPath key

theorem eq_empty_of_mem_create {typeId : GroupType} {d : DirIndex String}
    (hd : d ∈ (create typeId : FieldBitmapGroup R).dirIndex) : d = DirIndex.empty := by
  change (if typeId = .dir then some DirIndex.empty else none) = some d at hd
  split_ifs at hd
  exact (Option.some.inj hd).symm

theorem trieOk_create (typeId : GroupType) : (create typeId : FieldBitmapGroup R).TrieOk where
  dir := by
    unfold create
    by_cases h : typeId = .dir <;> simp [h]
  wf := by
    intro d hd
    rw [eq_empty_of_mem_create hd]
    exact DirIndex.wf_empty
  bound := by
    intro d _ key hkey
    simp [create] at hkey
  own := by
    intro d hd path key hb
    rw [eq_empty_of_mem_create hd] at hb
    exact absurd hb (DirIndex.not_bound_empty path key)

variable {g : FieldBitmapGroup R}

/-- A new bitmap is entered in the trie. -/
theorem TrieOk.setBit (h : g.TrieOk) (offset : ℕ) (key : String) : (g.setBit offset key).TrieOk := by
  unfold FieldBitmapGroup.setBit
  split_ifs with hnew
  · refine ⟨by simpa using h.dir, ?_, ?_, ?_⟩
    · intro d hd
      obtain ⟨d', hd', rfl⟩ := Option.map_eq_some_iff.1 hd
      exact (h.wf d' hd').addKey key key
    · intro d hd k hk
      obtain ⟨d', hd', rfl⟩ := Option.map_eq_some_iff.1 hd
      rw [DirIndex.bound_addKey]
      by_cases hkey : k = key
      · exact .inr ⟨by rw [hkey], hkey⟩
      · rw [SortedMap.get_put_of_ne _ _ hkey] at hk
        exact .inl (h.bound d' hd' k hk)
    · intro d hd path k hb
      obtain ⟨d', hd', rfl⟩ := Option.map_eq_some_iff.1 hd
      rcases DirIndex.bound_addKey.1 hb with hb | ⟨hpath, hk⟩
      · exact h.own d' hd' path k hb
      · rw [hpath, hk]
  · refine ⟨h.dir, h.wf, fun d hd k hk => ?_, h.own⟩
    by_cases hkey : k = key
    · refine h.bound d hd k ?_
      rw [hkey]
      simpa [Option.isSome_iff_ne_none] using hnew
    · rw [SortedMap.get_put_of_ne _ _ hkey] at hk
      exact h.bound d hd k hk

/-- A bitmap that is there stays at its place. -/
theorem TrieOk.unsetBit (h : g.TrieOk) (offset : ℕ) {key : String}
    (hkey : g.dirIndex.isSome → (g.bitmapGroup.get key).isSome) : (g.unsetBit offset key).TrieOk := by
  refine ⟨h.dir, h.wf, fun d hd k hk => ?_, h.own⟩
  have hd' : g.dirIndex = some d := hd
  by_cases hk' : k = key
  · refine h.bound d hd k ?_
    rw [hk']
    exact hkey (by rw [hd']; rfl)
  · refine h.bound d hd k ?_
    simpa [FieldBitmapGroup.unsetBit, SortedMap.get_put_of_ne _ _ hk'] using hk

theorem TrieOk.foldl_setBit (offset : ℕ) (keys : List String)
    (h : g.TrieOk) : (keys.foldl (FieldBitmapGroup.setBit offset) g).TrieOk := by
  induction keys generalizing g with
  | nil => exact h
  | cons key keys ih => exact ih (h.setBit offset key)

theorem TrieOk.foldl_unsetBit (offset : ℕ) (keys : List String) (h : g.TrieOk)
    (hkeys : g.dirIndex.isSome → ∀ key ∈ keys, (g.bitmapGroup.get key).isSome) :
    (keys.foldl (FieldBitmapGroup.unsetBit offset) g).TrieOk := by
  induction keys generalizing g with
  | nil => exact h
  | cons key keys ih =>
    refine ih (h.unsetBit offset fun hd => hkeys hd key List.mem_cons_self) fun hd k hk => ?_
    unfold FieldBitmapGroup.unsetBit
    rw [SortedMap.get_put]
    split_ifs
    · rfl
    · exact hkeys hd k (List.mem_cons_of_mem _ hk)

theorem TrieOk.addFieldData (h : g.TrieOk) (fieldStr : String)
    (offset : ℕ) : (g.addFieldData fieldStr offset).TrieOk := by
  obtain ⟨hdir, hwf, hbound, hown⟩ := h.foldl_setBit offset (bitmapKeys g.dirIndex.isSome fieldStr)
  exact ⟨hdir, hwf, hbound, hown⟩

/-- The keys of an old text that a deletion touches have their bitmaps, in a path field. -/
def OldKnown (g : FieldBitmapGroup R) (fieldStr : String) (offset : ℕ) : Prop :=
  offset < g.elementSize → g.typeId = .dir →
    ∀ key ∈ bitmapKeys true fieldStr, (g.bitmapGroup.get key).isSome

theorem TrieOk.deleteFieldData (h : g.TrieOk) {fieldStr : String}
    {offset : ℕ} (hold : g.OldKnown fieldStr offset) : (g.deleteFieldData fieldStr offset).TrieOk := by
  unfold FieldBitmapGroup.deleteFieldData
  split_ifs with hsize
  · exact h
  · refine h.foldl_unsetBit offset _ fun hd key hkey => ?_
    rw [hd] at hkey
    have hdir := h.dir
    rw [hd] at hdir
    exact hold (by omega) (by simpa using hdir.symm) key hkey

theorem TrieOk.addFieldDouble [LinearOrder R] (h : g.TrieOk) (value : R)
    (offset : ℕ) : (g.addFieldDouble value offset).TrieOk := by
  unfold FieldBitmapGroup.addFieldDouble
  split <;> exact ⟨h.dir, h.wf, h.bound, h.own⟩

theorem TrieOk.deleteFieldDouble [LinearOrder R] (h : g.TrieOk) (value : R)
    (offset : ℕ) : (g.deleteFieldDouble value offset).TrieOk := by
  unfold FieldBitmapGroup.deleteFieldDouble
  split_ifs
  · exact h
  · exact ⟨h.dir, h.wf, h.bound, h.own⟩

end FieldBitmapGroup

namespace FieldBitmapGroupSet

variable {R : Type}

/-- The tries of all fields. -/
def TriesOk (s : FieldBitmapGroupSet R) : Prop :=
  ∀ field g, s.groups.get field = some g → g.TrieOk

theorem triesOk_create (fields : List (String × GroupType)) :
    (create fields : FieldBitmapGroupSet R).TriesOk := by
  have hfold : ∀ (fs : List (String × GroupType)) (m : SortedMap String (FieldBitmapGroup R)),
      (∀ field g, m.get field = some g → g.TrieOk) →
      ∀ field g, (fs.foldl (fun m f => m.put f.1 (FieldBitmapGroup.create f.2)) m).get field =
        some g → g.TrieOk := by
    intro fs
    induction fs with
    | nil => exact fun m h => h
    | cons f fs ih =>
      intro m h
      refine ih _ fun field g hg => ?_
      rw [SortedMap.get_put] at hg
      split_ifs at hg
      · rw [← Option.some.inj hg]
        exact FieldBitmapGroup.trieOk_create f.2
      · exact h field g hg
  exact hfold fields _ fun field g hg => by simp at hg

/-- The old texts of a row are known to the path fields, as far as they are deleted. -/
def OldKnown (s : FieldBitmapGroupSet R) (old : SortedMap String String) (offset : ℕ) : Prop :=
  ∀ field g text, s.groups.get field = some g → old.get field = some text → g.OldKnown text offset

variable {s : FieldBitmapGroupSet R}

theorem TriesOk.addFieldData (h : s.TriesOk)
    (kv : SortedMap String String) (offset : ℕ) : (s.addFieldData kv offset).TriesOk := by
  intro field g hg
  rw [FieldBitmapGroupSet.addFieldData, get_addFields] at hg
  obtain ⟨g', hg', rfl⟩ := Option.map_eq_some_iff.1 hg
  cases kv.get field with
  | none => exact h field g' hg'
  | some text => exact (h field g' hg').addFieldData text offset

variable {offset : ℕ}

theorem TriesOk.deleteFieldData (h : s.TriesOk) {kv : SortedMap String String} (hold : s.OldKnown kv offset) :
    (s.deleteFieldData kv offset).TriesOk := by
  intro field g hg
  rw [FieldBitmapGroupSet.deleteFieldData, get_deleteFields] at hg
  obtain ⟨g', hg', rfl⟩ := Option.map_eq_some_iff.1 hg
  cases htext : kv.get field with
  | none => exact h field g' hg'
  | some text =>
    simp only
    split_ifs
    · exact h field g' hg'
    · exact (h field g' hg').deleteFieldData (hold field g' text hg' htext)

variable [LinearOrder R]

theorem TriesOk.addFieldDouble (h : s.TriesOk)
    (kv : SortedMap String R) (offset : ℕ) : (s.addFieldDouble kv offset).TriesOk := by
  intro field g hg
  rw [FieldBitmapGroupSet.addFieldDouble, get_addFields] at hg
  obtain ⟨g', hg', rfl⟩ := Option.map_eq_some_iff.1 hg
  cases kv.get field with
  | none => exact h field g' hg'
  | some value => exact (h field g' hg').addFieldDouble value offset

theorem TriesOk.deleteFieldDouble (h : s.TriesOk)
    (kv : SortedMap String R) (offset : ℕ) : (s.deleteFieldDouble kv offset).TriesOk := by
  intro field g hg
  rw [FieldBitmapGroupSet.deleteFieldDouble, get_deleteFields] at hg
  obtain ⟨g', hg', rfl⟩ := Option.map_eq_some_iff.1 hg
  cases kv.get field with
  | none => exact h field g' hg'
  | some value =>
    simp only
    split_ifs
    · exact h field g' hg'
    · exact (h field g' hg').deleteFieldDouble value offset

theorem TriesOk.deleteRowData (h : s.TriesOk) {old : FieldsDict R} (hold : s.OldKnown old.strKvMap offset) :
    (s.deleteRowData offset old).TriesOk := by
  unfold FieldBitmapGroupSet.deleteRowData
  simp only
  split_ifs
  · exact h
  · exact h.deleteFieldData hold
  · exact h.deleteFieldDouble _ _
  · exact (h.deleteFieldData hold).deleteFieldDouble _ _

theorem TriesOk.addRowData (h : s.TriesOk)
    {fields old : FieldsDict R} (hold : s.OldKnown old.strKvMap offset) :
    (s.addRowData offset fields old).TriesOk := by
  have hdel := h.deleteRowData hold
  unfold FieldBitmapGroupSet.addRowData
  simp only
  split_ifs
  · exact hdel
  · exact hdel.addFieldData _ _
  · exact hdel.addFieldDouble _ _
  · exact (hdel.addFieldData _ _).addFieldDouble _ _

/-! ## What `must` reads -/

variable [Add R] [Sub R] [Mul R] [Zero R]

/-- `must(field, [v])` selects the rows of the keys that it looks up: the value itself, or in a path
field the keys at the value's path. -/
theorem mem_alone_mustOp {c : FilterContext R} (h : c.fieldGroups.TriesOk) {field : String}
    {g : FieldBitmapGroup R} (hg : c.fieldGroups.groups.get field = some g) (v : String) (o : ℕ) :
    o ∈ c.alone (.mustOp field [v] 0) ↔
      ∃ key, o ∈ g.bitmap key ∧
        if g.typeId = .dir then ∃ d ∈ g.dirIndex, d.Bound (splitPath v) key else key = v := by
  have hself : c.calcSelfBitmap (.mustOp field [v] 0) =
      if g.typeId = .dir then c.fieldGroups.makePathFieldCopy field [v] 0
      else c.fieldGroups.makeFieldCopy field [v] := by
    simp [FilterContext.calcSelfBitmap, isPathFieldName, hg]
  rw [FilterContext.alone_eq, hself]
  by_cases hdir : g.typeId = .dir
  · obtain ⟨d, hd⟩ : ∃ d, g.dirIndex = some d := by
      have hsome := (h field g hg).dir
      rw [hdir] at hsome
      exact Option.isSome_iff_exists.1 (by simpa using hsome)
    have hwf := (h field g hg).wf d hd
    have hcopy : c.fieldGroups.makePathFieldCopy field [v] 0 =
        some (fastUnion ((d.getMergedBitmaps v 0).map g.bitmap)) := by
      simp [makePathFieldCopy, hg, hd]
    have hmerged : ∀ key, key ∈ d.getMergedBitmaps v 0 ↔ d.Bound (splitPath v) key := by
      intro key
      rw [DirIndex.mem_getMergedBitmaps hwf]
      constructor
      · rintro ⟨path, hb, hlen⟩
        have hnil : path = [] := List.eq_nil_of_length_eq_zero (by simpa using hlen (by decide))
        rwa [hnil, List.append_nil] at hb
      · intro hb
        exact ⟨[], by rwa [List.append_nil], fun _ => le_refl 0⟩
    rw [if_pos hdir, hcopy]
    simp only [hdir, if_true, hd, Option.mem_def, Option.some.injEq, exists_eq_left']
    show o ∈ fastUnion _ ↔ _
    unfold fastUnion
    rw [RangedMap.mem_foldl_union]
    simp only [Finset.notMem_empty, false_or, List.mem_map, exists_exists_and_eq_and, hmerged]
    simp only [and_comm]
  · rw [if_neg hdir]
    simp only [if_neg hdir]
    have hcopy : c.fieldGroups.makeFieldCopy field [v] = g.bitmapGroup.get v := by
      simp [makeFieldCopy, getBitmap, hg]
    rw [hcopy]
    show o ∈ g.bitmap v ↔ _
    simp

end FieldBitmapGroupSet

/-! ## Runs that keep track of the rows -/

/-- An index, and for each label the fields that its row was last added with. -/
structure Tracked (F E R : Type) where
  index : IndexManager F E R
  fieldsOf : ℕ → FieldsJson

namespace Tracked

variable {F E R : Type} [LinearOrder R] (cfg : IndexConfig F E R)

omit [LinearOrder R] in
/-- No requests yet. -/
def create : Tracked F E R := ⟨IndexManager.create cfg, fun _ => none⟩

/-- One row of an upsert. -/
def addRow (t : Tracked F E R) (d : DeltaRecord F FieldsJson) : Tracked F E R :=
  ⟨t.index.addOne cfg d, Function.update t.fieldsOf d.label d.fields⟩

/-- One row of a deletion. -/
def deleteRow (t : Tracked F E R) (d : DeltaRecord F FieldsJson) : Tracked F E R :=
  ⟨t.index.deleteOne cfg d, t.fieldsOf⟩

/-- A request. -/
def step (t : Tracked F E R) : Request F → Option (Tracked F E R)
  | .addData dataList now =>
    some ⟨t.index.addData cfg dataList now, (dataList.foldl (addRow cfg) t).fieldsOf⟩
  | .deleteData dataList now => some ⟨t.index.deleteData cfg dataList now, t.fieldsOf⟩

/-- What one row of an upsert must meet: an offset that fits an `int`, and old paths that the index
knows. -/
def AddOk (t : Tracked F E R) (d : DeltaRecord F FieldsJson) : Prop :=
  IndexInv.nextOf t.index.base d.label ≤ 2 ^ 31 ∧
    ∀ offset ∈ (t.index.addPoint cfg d).getOffsetByLabel d.label,
      t.index.scalar.OldKnown (cfg.base.strKvMap d.oldFields) offset

/-- What one row of a deletion must meet. -/
def DeleteOk (t : Tracked F E R) (d : DeltaRecord F FieldsJson) : Prop :=
  ∀ offset ∈ t.index.getOffsetByLabel d.label,
    t.index.scalar.OldKnown (cfg.base.strKvMap d.oldFields) offset

/-- What a request must meet, row by row. -/
def StepOk (t : Tracked F E R) : Request F → Prop
  | .addData dataList _ => ActsMeet (fun t d => some (addRow cfg t d)) (AddOk cfg) t dataList
  | .deleteData dataList _ => ActsMeet (fun t d => some (deleteRow cfg t d)) (DeleteOk cfg) t dataList

/-- The bits of a row cover the keys of the fields it was last added with, and the tries lead to
them. -/
structure Inv (t : Tracked F E R) : Prop where
  base : IndexInv cfg.base t.index.base
  tries : t.index.scalar.TriesOk
  keys : ∀ label p, t.index.points.get label = some p → ∀ field,
    ∀ key ∈ cfg.base.keysOf (t.fieldsOf label) field, t.index.base.scalar.Isset field key p.offset
  clean : ∀ field key o, t.index.base.scalar.Isset field key o → Clean key

variable {cfg} {t : Tracked F E R}

omit [LinearOrder R] in
/-- A key of a row is a clean one. -/
theorem clean_of_mem_keysOf {fields : FieldsJson} {field key : String}
    (h : key ∈ cfg.base.keysOf fields field) : Clean key := by
  obtain ⟨dir, text, -, hentry, hkey⟩ := ScalarIndex.mem_rowKeys.1 h
  have htext := SortedMap.mem_entries_iff.1 hentry
  unfold VectorDB.IndexConfig.strKvMap at htext
  rw [get_parseFromJson] at htext
  obtain ⟨value, -, hvalue⟩ := Option.bind_eq_some_iff.1 htext
  exact clean_of_mem_bitmapKeys hvalue hkey

variable {d : DeltaRecord F FieldsJson}

/-- A row that is added has the keys of its fields; the other rows keep theirs. -/
theorem Inv.addRow (h : Inv cfg t) (hok : AddOk cfg t d) : Inv cfg (t.addRow cfg d) := by
  have hsame := IndexManager.sameBits_addOne cfg h.base.bounded d
  have heq := IndexInv.addOne_eq h.base hok.1
  have hbits : ∀ field key o, (t.addRow cfg d).index.base.scalar.Isset field key o ↔
      (t.index.base.scalar.Isset field key o ∧ ¬ (o = (IndexInv.rowOf cfg.base t.index.base d).offset ∧
        key ∈ cfg.base.keysOf d.oldFields field)) ∨
      (o = (IndexInv.rowOf cfg.base t.index.base d).offset ∧
        key ∈ cfg.base.keysOf d.fields field) := by
    intro field key o
    rw [VectorDB.IndexConfig.keysOf, VectorDB.IndexConfig.keysOf, ← h.base.shape]
    refine (hsame.isset field key o).trans ?_
    rw [heq]
    exact ScalarIndex.isset_addRowData h.base.bounded
  refine ⟨hsame.indexInv (h.base.addOne hok.1), ?_, ?_, ?_⟩
  · show (t.index.addOne cfg d).scalar.TriesOk
    unfold IndexManager.addOne
    simp only
    cases hoffset : (t.index.addPoint cfg d).getOffsetByLabel d.label with
    | none => exact h.tries
    | some offset => exact h.tries.addRowData (hok.2 offset hoffset)
  · intro label p hp field key hkey
    have hpoints : (t.index.addOne cfg d).points = _ := hsame.points
    change (t.index.addOne cfg d).points.get label = some p at hp
    rw [hpoints, heq] at hp
    rw [hbits]
    change key ∈ cfg.base.keysOf (Function.update t.fieldsOf d.label d.fields label) field at hkey
    by_cases hlabel : label = d.label
    · subst hlabel
      rw [Function.update_self] at hkey
      have hp' : some (IndexInv.rowOf cfg.base t.index.base d) = some p := by
        rw [← hp, SortedMap.get_put_self]
      rw [← Option.some.inj hp']
      exact .inr ⟨rfl, hkey⟩
    · rw [Function.update_of_ne hlabel] at hkey
      have hold : t.index.base.points.get label = some p := by
        rw [← hp, SortedMap.get_put_of_ne _ _ hlabel]
      exact .inl ⟨h.keys label p hold field key hkey, fun hboth =>
        h.base.rowOf_offset_ne hold hlabel hboth.1⟩
  · intro field key o hset
    rcases (hbits field key o).1 hset with ⟨hold, -⟩ | ⟨-, hkey⟩
    · exact h.clean field key o hold
    · exact clean_of_mem_keysOf hkey

/-- A row that is deleted takes only its own bits. -/
theorem Inv.deleteRow (h : Inv cfg t) (hok : DeleteOk cfg t d) : Inv cfg (t.deleteRow cfg d) := by
  have hsame := IndexManager.sameBits_deleteOne cfg h.base.bounded d
  refine ⟨hsame.indexInv (h.base.deleteOne d), ?_, ?_, ?_⟩
  · show (t.index.deleteOne cfg d).scalar.TriesOk
    unfold IndexManager.deleteOne
    cases hoffset : t.index.getOffsetByLabel d.label with
    | none => exact h.tries
    | some offset => exact h.tries.deleteRowData (hok offset hoffset)
  · intro label p hp field key hkey
    change (t.index.deleteOne cfg d).base.points.get label = some p at hp
    rw [hsame.points] at hp
    refine (hsame.isset field key p.offset).2 ?_
    cases hd : t.index.base.points.get d.label with
    | none =>
      rw [IndexInv.deleteOne_of_none hd] at hp ⊢
      exact h.keys label p hp field key hkey
    | some q =>
      rw [h.base.deleteOne_eq hd] at hp ⊢
      rw [SortedMap.get_erase] at hp
      split_ifs at hp with hlabel
      refine (ScalarIndex.isset_deleteRowData h.base.bounded).2
        ⟨h.keys label p hp field key hkey, fun hboth => hlabel ?_⟩
      exact h.base.offset_inj hp hd hboth.1
  · intro field key o hset
    have hset' := (hsame.isset field key o).1 hset
    cases hd : t.index.base.points.get d.label with
    | none =>
      rw [IndexInv.deleteOne_of_none hd] at hset'
      exact h.clean field key o hset'
    | some q =>
      rw [h.base.deleteOne_eq hd] at hset'
      exact h.clean field key o ((ScalarIndex.isset_deleteRowData h.base.bounded).1 hset').1

omit [LinearOrder R] in
theorem bitmaps_create (fields : List (String × GroupType)) :
    (FieldBitmapGroupSet.create fields : FieldBitmapGroupSet R).bitmaps =
      ScalarIndex.empty (fields.map fun f => (f.1, f.2 = .dir)) := by
  have hfold : ∀ (fs : List (String × GroupType)) (m : SortedMap String (FieldBitmapGroup R)),
      (fs.foldl (fun m f => m.put f.1 (FieldBitmapGroup.create f.2)) m).mapValues
          FieldBitmapGroup.bitmaps =
        (fs.map fun f => (f.1, (f.2 = .dir : Bool))).foldl
          (fun m f => m.put f.1 ⟨f.2, SortedMap.empty, 0⟩) (m.mapValues FieldBitmapGroup.bitmaps) := by
    intro fs
    induction fs with
    | nil => exact fun m => rfl
    | cons f fs ih =>
      intro m
      rw [List.foldl_cons, ih, SortedMap.mapValues_put, List.map_cons, List.foldl_cons]
      congr 3
      unfold FieldBitmapGroup.create FieldBitmapGroup.bitmaps
      by_cases hdir : f.2 = .dir <;> simp [hdir]
  unfold FieldBitmapGroupSet.create FieldBitmapGroupSet.bitmaps ScalarIndex.empty
  rw [hfold]
  rfl

omit [LinearOrder R] in
theorem inv_create : Inv cfg (create cfg : Tracked F E R) := by
  have hempty : (IndexManager.create cfg : IndexManager F E R).base =
      VectorDB.IndexManager.empty cfg.base := by
    unfold IndexManager.base IndexManager.create VectorDB.IndexManager.empty
    rw [bitmaps_create]
    rfl
  refine ⟨?_, FieldBitmapGroupSet.triesOk_create _, ?_, ?_⟩
  · show IndexInv cfg.base (IndexManager.create cfg : IndexManager F E R).base
    rw [hempty]
    exact IndexInv.empty cfg.base
  · intro label p hp
    simp [create, IndexManager.create] at hp
  · intro field key o hset
    change (IndexManager.create cfg : IndexManager F E R).base.scalar.Isset field key o at hset
    rw [hempty] at hset
    exact absurd hset (ScalarIndex.not_isset_empty _ _ _ _)

omit [LinearOrder R] in
theorem Inv.withTimestamp (h : Inv cfg t) (ts : ℕ) :
    Inv cfg ⟨{ t.index with updateTimestamp := ts }, t.fieldsOf⟩ :=
  ⟨h.base.withTimestamp ts, h.tries, h.keys, h.clean⟩

variable (ds : List (DeltaRecord F FieldsJson))

theorem index_foldl_addRow (t : Tracked F E R) :
    (ds.foldl (Tracked.addRow cfg) t).index = ds.foldl (IndexManager.addOne cfg) t.index := by
  induction ds generalizing t with
  | nil => rfl
  | cons d ds ih => exact ih _

theorem foldl_deleteRow (t : Tracked F E R) :
    ds.foldl (Tracked.deleteRow cfg) t = ⟨ds.foldl (IndexManager.deleteOne cfg) t.index, t.fieldsOf⟩ := by
  induction ds generalizing t with
  | nil => rfl
  | cons d ds ih => exact ih _

/-- Every request keeps the invariant. -/
theorem Inv.step (h : Inv cfg t) {r : Request F} (hok : StepOk cfg t r) {u : Tracked F E R}
    (hstep : t.step cfg r = some u) : Inv cfg u := by
  cases r with
  | addData ds now =>
    obtain rfl := Option.some.inj hstep
    obtain ⟨ts, hts⟩ := IndexManager.addData_eq cfg t.index ds now
    have hmeet : ActsMeet (fun t d => some (Tracked.addRow cfg t d)) (AddOk cfg) t ds := hok
    have hrows := hmeet.foldl h fun _ _ hinv hrow => Inv.addRow hinv hrow
    rw [hts, ← index_foldl_addRow]
    exact hrows.withTimestamp ts
  | deleteData ds now =>
    obtain rfl := Option.some.inj hstep
    obtain ⟨ts, hts⟩ := IndexManager.deleteData_eq cfg t.index ds now
    have hmeet : ActsMeet (fun t d => some (Tracked.deleteRow cfg t d)) (DeleteOk cfg) t ds := hok
    have hrows := hmeet.foldl h fun _ _ hinv hrow => Inv.deleteRow hinv hrow
    rw [foldl_deleteRow] at hrows
    rw [hts]
    exact hrows.withTimestamp ts

theorem inv_of_reaches (h : Reaches (Tracked.step cfg) (StepOk cfg) (Tracked.create cfg) t) : Inv cfg t :=
  h.invariant inv_create fun _ _ _ hinv hok hstep => hinv.step hok hstep

/-! ## What `must` finds -/

/-- The row of a label holds the value in a field; `value` is its member there. -/
def Holds (cfg : IndexConfig F E R) (t : Tracked F E R) (label : ℕ) (field : String) (isList : Bool)
    (value : FieldValue) (v : String) : Prop :=
  memberOf (((t.fieldsOf label).map cfg.convert).getD []) field = some value ∧ v ∈ value.held isList

/-- The index as a filter sees it. -/
def context (t : Tracked F E R) (compile : String → Option (String → Bool)) : FilterContext R where
  fieldGroups := t.index.scalar
  offsetByLabel := t.index.getOffsetByLabel
  compile := compile

variable {field : String}

omit [LinearOrder R] in
theorem isSome_shape_empty {fields : List (String × Bool)}
    (h : field ∈ fields.map Prod.fst) : ((ScalarIndex.empty fields).shape field).isSome := by
  have hfold : ∀ (fs : List (String × Bool)) (m : SortedMap String VectorDB.FieldBitmapGroup),
      (m.get field).isSome ∨ field ∈ fs.map Prod.fst →
      ((fs.foldl (fun m f => m.put f.1 ⟨f.2, SortedMap.empty, 0⟩) m).get field).isSome := by
    intro fs
    induction fs with
    | nil => exact fun m hm => hm.resolve_right (List.not_mem_nil)
    | cons f fs ih =>
      intro m hm
      refine ih _ ?_
      rw [SortedMap.get_put]
      split_ifs with hf
      · exact .inl rfl
      · exact hm.imp id fun hmem => (List.mem_cons.1 hmem).resolve_left hf
  have hgroup := hfold fields SortedMap.empty (.inr h)
  unfold ScalarIndex.shape ScalarIndex.empty
  rw [Option.isSome_map]
  exact hgroup

omit [LinearOrder R] in
/-- An indexed field has its group. -/
theorem Inv.exists_group (h : Inv cfg t) (hfield : field ∈ cfg.scalarFields.map Prod.fst) :
    ∃ g, t.index.scalar.groups.get field = some g ∧
      (ScalarIndex.empty cfg.base.scalarFields).shape field = some (g.typeId = .dir : Bool) := by
  have hsome : ((ScalarIndex.empty cfg.base.scalarFields).shape field).isSome := by
    refine isSome_shape_empty ?_
    unfold IndexConfig.base
    rwa [List.map_map]
  obtain ⟨dir, hdir⟩ := Option.isSome_iff_exists.1 hsome
  have hshape := hdir
  rw [← h.base.shape] at hshape
  unfold ScalarIndex.shape IndexManager.base FieldBitmapGroupSet.bitmaps at hshape
  rw [SortedMap.get_mapValues] at hshape
  obtain ⟨g', hg', hd⟩ := Option.map_eq_some_iff.1 hshape
  obtain ⟨g, hg, rfl⟩ := Option.map_eq_some_iff.1 hg'
  refine ⟨g, hg, ?_⟩
  rw [hdir, ← hd]
  exact congrArg some (h.tries field g hg).dir

omit [LinearOrder R] in
/-- A value that can be found has the row's bit at its key. -/
theorem Inv.mem_bitmap (h : Inv cfg t) {label : ℕ} {p : Point F E}
    (hp : t.index.points.get label = some p) {g : FieldBitmapGroup R}
    (hg : t.index.scalar.groups.get field = some g)
    (hshape : (ScalarIndex.empty cfg.base.scalarFields).shape field = some (g.typeId = .dir : Bool))
    {isList : Bool} {value : FieldValue} {v : String} (hv : Holds cfg t label field isList value v)
    (hf : value.Findable isList v) : p.offset ∈ g.bitmap (keyOf (g.typeId = .dir) v) := by
  obtain ⟨hmember, hheld⟩ := hv
  obtain ⟨text, htext⟩ : ∃ text, value.strValue = some text := by
    cases value <;> first | exact ⟨_, rfl⟩ | simp [FieldValue.held] at hheld
  have hkey : keyOf (g.typeId = .dir) v ∈ cfg.base.keysOf (t.fieldsOf label) field := by
    refine ScalarIndex.mem_rowKeys.2 ⟨_, text, hshape, ?_, mem_bitmapKeys_of_held htext hheld hf⟩
    rw [SortedMap.mem_entries_iff]
    unfold VectorDB.IndexConfig.strKvMap
    rw [get_parseFromJson]
    exact Option.bind_eq_some_iff.2 ⟨value, hmember, htext⟩
  obtain ⟨g', hg', hmem⟩ := h.keys label p hp field _ hkey
  unfold IndexManager.base FieldBitmapGroupSet.bitmaps at hg'
  rw [SortedMap.get_mapValues, hg] at hg'
  obtain rfl : g.bitmaps = g' := Option.some.inj hg'
  exact hmem

variable [Add R] [Sub R] [Mul R] [Zero R]

/-- **An equality filter finds the values it can find, and no others.**  In every run whose offsets
fit and whose old paths the index knows, `must` on a value that a live row holds selects the row
if the value can be found; a value with a `;` or a NUL in it selects no row. -/
theorem must_finds_held (h : Reaches (Tracked.step cfg) (StepOk cfg) (Tracked.create cfg) t)
    (compile : String → Option (String → Bool)) {label : ℕ} {p : Point F E}
    (hp : t.index.points.get label = some p) {field : String}
    (hfield : field ∈ cfg.scalarFields.map Prod.fst) {isList : Bool} {value : FieldValue} {v : String}
    (hv : Holds cfg t label field isList value v) :
    (value.Findable isList v → p.offset ∈ (t.context compile).alone (.mustOp field [v] 0)) ∧
      (¬ Clean v → (t.context compile).alone (.mustOp field [v] 0) = ∅) := by
  have hinv := inv_of_reaches h
  obtain ⟨g, hg, hshape⟩ := hinv.exists_group hfield
  have hmust := FieldBitmapGroupSet.mem_alone_mustOp (c := t.context compile) hinv.tries hg v
  constructor
  · intro hf
    have hbit := hinv.mem_bitmap hp hg hshape hv hf
    refine (hmust p.offset).2 ⟨_, hbit, ?_⟩
    split_ifs with hdir
    · obtain ⟨d, hd⟩ : ∃ d, g.dirIndex = some d := by
        have hsome := (hinv.tries field g hg).dir
        rw [hdir] at hsome
        exact Option.isSome_iff_exists.1 (by simpa using hsome)
      refine ⟨d, hd, ?_⟩
      have hbound := (hinv.tries field g hg).bound d hd (keyOf (g.typeId = .dir) v) ?_
      · have hpath : splitPath (keyOf (g.typeId = .dir) v) = splitPath v := by
          rw [hdir]
          exact splitPath_normalizePathKey v
        rwa [hpath] at hbound
      · rw [Option.isSome_iff_ne_none]
        intro hnone
        rw [FieldBitmapGroup.bitmap, hnone] at hbit
        simp at hbit
    · unfold keyOf
      simp [hdir]
  · intro hclean
    rw [Finset.eq_empty_iff_forall_notMem]
    intro o ho
    obtain ⟨key, hbit, hkey⟩ := (hmust o).1 ho
    have hset : t.index.base.scalar.Isset field key o := by
      refine ⟨g.bitmaps, ?_, hbit⟩
      unfold IndexManager.base FieldBitmapGroupSet.bitmaps
      rw [SortedMap.get_mapValues, hg]
      rfl
    have hkeyClean := hinv.clean field key o hset
    split_ifs at hkey with hdir
    · obtain ⟨d, hd, hb⟩ := hkey
      exact hclean (clean_of_splitPath ((hinv.tries field g hg).own d hd _ _ hb) hkeyClean)
    · exact hclean (hkey ▸ hkeyClean)

/-! ## An index of paths and tags -/

/-- A path field and a field of tags, without vectors. -/
def tagConfig : IndexConfig ℤ (List ℤ) ℤ where
  encode := id
  blank := []
  convert := id
  scalarFields := [("path", .dir), ("tags", .bitmaps)]
  ofInt64 := id
  ofText := fun _ => 0

/-- One row with the given members, added under label 7. -/
def oneRowAdded (members : List (String × FieldValue)) : Request ℤ :=
  .addData [⟨.upsert, 7, [], [], [], some members, none⟩] 0

/-- The index after that. -/
def afterOneRow (members : List (String × FieldValue)) : Tracked ℤ (List ℤ) ℤ :=
  ((create tagConfig).step tagConfig (oneRowAdded members)).getD (create tagConfig)

variable (members : List (String × FieldValue))

theorem reaches_afterOneRow :
    Reaches (Tracked.step tagConfig) (StepOk tagConfig) (create tagConfig) (afterOneRow members) := by
  refine Reaches.tail .refl (a := oneRowAdded members) ⟨⟨?_, ?_⟩, fun _ _ => trivial⟩ rfl
  · show 0 + 1 ≤ 2 ^ 31
    omega
  · intro offset _ field g text _ hold
    have hnone : (tagConfig.base.strKvMap (none : FieldsJson)).get field = none := rfl
    rw [hnone] at hold
    cases hold

theorem point_afterOneRow : (afterOneRow members).index.points.get 7 = some ⟨0, [], ([], [])⟩ := rfl

/-- A row at a path, with two tags. -/
def pathAndTags : List (String × FieldValue) :=
  [("path", .string "a/b"), ("tags", .array [.string "x", .string "y"])]

theorem holds_pathAndTags :
    Holds tagConfig (afterOneRow pathAndTags) 7 "path" false (.string "a/b") "a/b" :=
  ⟨by decide +kernel, by decide⟩

theorem must_finds_held_pathAndTags :
    0 ∈ ((afterOneRow pathAndTags).context fun _ => none).alone (.mustOp "path" ["a/b"] 0) :=
  (must_finds_held (reaches_afterOneRow pathAndTags) (fun _ => none)
    (point_afterOneRow pathAndTags) (by decide) holds_pathAndTags).1 ⟨by decide, by decide, fun h => by cases h⟩

/-- The tag "a;b" is filed under "a" and "b". -/
theorem must_finds_held_fails :
    ¬ ∀ (cfg : IndexConfig ℤ (List ℤ) ℤ) (t : Tracked ℤ (List ℤ) ℤ),
      Reaches (Tracked.step cfg) (fun _ _ => True) (create cfg) t →
      ∀ (compile : String → Option (String → Bool)) (label : ℕ) (p : Point ℤ (List ℤ)),
        t.index.points.get label = some p → ∀ field ∈ cfg.scalarFields.map Prod.fst,
        ∀ (isList : Bool) (value : FieldValue) (v : String), Holds cfg t label field isList value v →
          p.offset ∈ (t.context compile).alone (.mustOp field [v] 0) := by
  intro hall
  have hreach := (reaches_afterOneRow [("tags", .string "a;b")]).mono
    (D := fun _ _ => True) fun _ _ _ => trivial
  have hmem := hall tagConfig _ hreach (fun _ => none) 7 ⟨0, [], ([], [])⟩ (point_afterOneRow _) "tags"
    (by decide) false (.string "a;b") "a;b" ⟨by decide +kernel, by decide⟩
  have hnot : 0 ∉ ((afterOneRow [("tags", .string "a;b")]).context fun _ => none).alone
      (.mustOp "tags" ["a;b"] 0) := by decide +kernel
  exact hnot hmem

end Tracked

end OpenViking.VectorDB.Full
