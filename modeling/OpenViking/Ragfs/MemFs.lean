import OpenViking.Common.Dict
import OpenViking.Ragfs.Basic

/-!
# The in-memory file system

`MemFileSystem` (`crates/ragfs/src/plugins/memfs/mod.rs`): a map from paths to entries, in which a
directory is an entry of its own and is not consulted for the files below it.

Results:

* `write_cases`, `insertNew_cases`, `remove_cases`, `replace_cases`, `rename_error`: what the calls can do;
* `get_replace`: what a replacement leaves at each path.
-/

namespace OpenViking.Ragfs

/-- `FileEntry` (16-26) without times. -/
structure FileEntry where
  data : Bytes
  mode : ℕ
  isDir : Bool
  deriving DecidableEq

def FileEntry.newFile (mode : ℕ) : FileEntry := ⟨[], mode, false⟩

def FileEntry.newDir (mode : ℕ) : FileEntry := ⟨[], mode, true⟩

/-- The bytes of a file; a directory has none. -/
def FileEntry.content (entry : FileEntry) : Option Bytes :=
  if entry.isDir then none else some entry.data

/-- `MemFileSystem`: its entries. -/
abbrev MemFileSystem := Dict Path FileEntry

namespace MemFileSystem

/-- `MemFileSystem::new` (62-72). -/
def new : MemFileSystem := Dict.empty.set ['/'] (FileEntry.newDir 0o755)

/-! ## Paths -/

/-- `normalize_path` (75-91). -/
def normalizePath (path : Path) : Path :=
  if path = [] ∨ path = ['/'] then ['/']
  else
    let normalized := if path.head? = some '/' then path else '/' :: path
    if 1 < normalized.length ∧ normalized.getLast? = some '/' then normalized.dropLast else normalized

/-- `parent_path` (94-107). -/
def parentPath (path : Path) : Option Path :=
  if path = ['/'] then none
  else
    let parts := (normalizePath path).splitOn '/'
    if parts.length ≤ 2 then some ['/'] else some (['/'].intercalate parts.dropLast)

/-- `file_name` (110-117). -/
def fileName (path : Path) : Path :=
  if path = ['/'] then ['/'] else ((normalizePath path).splitOn '/').getLast?.getD []

/-- What is put before the names of the entries of a directory. -/
def prefixOf (dir : Path) : Path := if dir = ['/'] then ['/'] else dir ++ ['/']

/-- `list_entries` (120-145). -/
def listEntries (fs : MemFileSystem) (dirPath : Path) : List Path :=
  let normalizedDir := normalizePath dirPath
  (fs.entries.map Prod.fst).filter fun path =>
    decide (path ≠ normalizedDir ∧ prefixOf normalizedDir <+: path ∧
      '/' ∉ path.drop (prefixOf normalizedDir).length)

/-! ## Calls -/

/-- The check that the parent of a path is a directory. -/
def checkParent (fs : MemFileSystem) (path : Path) : Except Error Unit :=
  match parentPath path with
  | none => .ok ()
  | some parent =>
    match fs.get parent with
    | some entry => if entry.isDir then .ok () else .error (.notADirectory parent)
    | none => .error (.notFound parent)

/-- The beginning of `create` and `mkdir` (157-201). -/
def insertNew (path : Path) (entry : FileEntry) (fs : MemFileSystem) :
    Except Error Unit × MemFileSystem :=
  let normalized := normalizePath path
  if fs.contains normalized then (.error (.alreadyExists normalized), fs)
  else
    match checkParent fs normalized with
    | .error e => (.error e, fs)
    | .ok () => (.ok (), fs.set normalized entry)

def create (path : Path) : MemFileSystem → Except Error Unit × MemFileSystem :=
  insertNew path (FileEntry.newFile 0o644)

def mkdir (path : Path) (mode : ℕ) : MemFileSystem → Except Error Unit × MemFileSystem :=
  insertNew path (FileEntry.newDir mode)

/-- `remove` (204-221). -/
def remove (path : Path) (fs : MemFileSystem) : Except Error Unit × MemFileSystem :=
  let normalized := normalizePath path
  match fs.get normalized with
  | some entry =>
    if entry.isDir then (.error (.isADirectory normalized), fs) else (.ok (), fs.erase normalized)
  | none => (.error (.notFound normalized), fs)

/-- `remove_all` (223-244). -/
def removeAll (path : Path) (fs : MemFileSystem) : Except Error Unit × MemFileSystem :=
  let normalized := normalizePath path
  if fs.contains normalized then
    (.ok (), fs.filter fun p _ => !decide (p = normalized ∨ normalized ++ ['/'] <+: p))
  else (.error (.notFound normalized), fs)

/-- `read` (246-270). -/
def read (path : Path) (offset size : ℕ) (fs : MemFileSystem) : Except Error Bytes :=
  let normalized := normalizePath path
  match fs.get normalized with
  | some entry =>
    if entry.isDir then .error (.isADirectory normalized)
    else if entry.data.length ≤ offset then .ok []
    else
      let stop := if size = 0 then entry.data.length else min (offset + size) entry.data.length
      .ok ((entry.data.take stop).drop offset)
  | none => .error (.notFound normalized)

/-- What a write makes of the data of a file that is there (283-302). -/
def patch (data new : Bytes) (offset : ℕ) : WriteFlag → Bytes
  | .create => new
  | .truncate => new
  | .append => data ++ new
  | .none =>
    let resized := data ++ List.replicate (offset + new.length - data.length) 0
    resized.take offset ++ new ++ resized.drop (offset + new.length)

/-- `write` (272-327). -/
def write (path : Path) (data : Bytes) (offset : ℕ) (flags : WriteFlag) (fs : MemFileSystem) :
    Except Error ℕ × MemFileSystem :=
  let normalized := normalizePath path
  match fs.get normalized with
  | some entry =>
    if entry.isDir then (.error (.isADirectory normalized), fs)
    else
      (.ok data.length, fs.set normalized { entry with data := patch entry.data data offset flags })
  | none =>
    if flags = .create then
      match checkParent fs normalized with
      | .error e => (.error e, fs)
      | .ok () => (.ok data.length, fs.set normalized { FileEntry.newFile 0o644 with data })
    else (.error (.notFound normalized), fs)

/-- The description of an entry. -/
def fileInfo (path : Path) (entry : FileEntry) : FileInfo :=
  ⟨fileName path, entry.data.length, entry.mode, entry.isDir⟩

/-- `read_dir` (329-360). -/
def readDir (path : Path) (fs : MemFileSystem) : Except Error (List FileInfo) :=
  let normalized := normalizePath path
  match fs.get normalized with
  | some entry =>
    if entry.isDir then
      .ok ((listEntries fs normalized).filterMap fun child => (fs.get child).map (fileInfo child))
    else .error (.notADirectory normalized)
  | none => .error (.notFound normalized)

/-- `stat` (362-376). -/
def stat (path : Path) (fs : MemFileSystem) : Except Error FileInfo :=
  let normalized := normalizePath path
  match fs.get normalized with
  | some entry => .ok (fileInfo normalized entry)
  | none => .error (.notFound normalized)

/-- Where `rename` moves an entry below what it renames. -/
def movedPath (oldPath newPath path : Path) : Path :=
  prefixOf newPath ++ path.drop (prefixOf oldPath).length

/-- The entries below what `rename` renames. -/
def toMove (fs : MemFileSystem) (oldPath : Path) : List Path :=
  (fs.entries.map Prod.fst).filter fun path => decide (path ≠ oldPath ∧ prefixOf oldPath <+: path)

/-- The last loop of `rename`. -/
def moveAll (oldPath newPath : Path) (paths : List Path) (fs : MemFileSystem) : MemFileSystem :=
  paths.foldl (fun fs path =>
    match fs.get path with
    | some entry => (fs.erase path).set (movedPath oldPath newPath path) entry
    | none => fs) fs

/-- `rename` (378-436). -/
def rename (oldPath newPath : Path) (fs : MemFileSystem) : Except Error Unit × MemFileSystem :=
  let old := normalizePath oldPath
  let new := normalizePath newPath
  match fs.get old with
  | none => (.error (.notFound old), fs)
  | some entry =>
    if fs.contains new then (.error (.alreadyExists new), fs)
    else
      match checkParent fs new with
      | .error e => (.error e, fs)
      | .ok () =>
        match (toMove fs old).find? fun path => fs.contains (movedPath old new path) with
        | some path => (.error (.alreadyExists (movedPath old new path)), fs)
        | none => (.ok (), moveAll old new (toMove fs old) ((fs.erase old).set new entry))

/-- `replace` (438-470). -/
def replace (srcPath dstPath : Path) (fs : MemFileSystem) : Except Error Unit × MemFileSystem :=
  let src := normalizePath srcPath
  let dst := normalizePath dstPath
  match fs.get src with
  | none => (.error (.notFound src), fs)
  | some entry =>
    if entry.isDir then (.error (.invalidOperation "replace only supports files in memfs"), fs)
    else
      match checkParent fs dst with
      | .error e => (.error e, fs)
      | .ok () =>
        if (fs.get dst).any FileEntry.isDir then (.error (.isADirectory dst), fs)
        else (.ok (), ((fs.erase dst).erase src).set dst entry)

/-- `truncate` (485-498). -/
def truncate (path : Path) (size : ℕ) (fs : MemFileSystem) : Except Error Unit × MemFileSystem :=
  let normalized := normalizePath path
  match fs.get normalized with
  | some entry =>
    if entry.isDir then (.error (.isADirectory normalized), fs)
    else
      (.ok (), fs.set normalized { entry with
        data := entry.data.take size ++ List.replicate (size - entry.data.length) 0 })
  | none => (.error (.notFound normalized), fs)

/-- The file system as a backend. -/
def exec : Backend MemFileSystem
  | .create path, fs => create path fs
  | .mkdir path mode, fs => mkdir path mode fs
  | .remove path, fs => remove path fs
  | .removeAll path, fs => removeAll path fs
  | .read path offset size, fs => (read path offset size fs, fs)
  | .write path data offset flags, fs => write path data offset flags fs
  | .readDir path, fs => (readDir path fs, fs)
  | .stat path, fs => (stat path fs, fs)
  | .rename oldPath newPath, fs => rename oldPath newPath fs
  | .replace srcPath dstPath, fs => replace srcPath dstPath fs
  | .truncate path size, fs => truncate path size fs

/-! ## What the calls can do -/

variable {fs : MemFileSystem} {path : Path}

/-- The bytes of the file at a path. -/
def content (fs : MemFileSystem) (path : Path) : Option Bytes :=
  (fs.get (normalizePath path)).bind FileEntry.content

theorem content_set (entry : FileEntry) (q : Path) :
    content (fs.set (normalizePath path) entry) q =
      if normalizePath q = normalizePath path then entry.content else content fs q := by
  unfold content
  rw [Dict.get_set]
  split_ifs with h
  · rfl
  · rfl

theorem write_cases (path : Path) (data : Bytes) (offset : ℕ) (flags : WriteFlag) (fs : MemFileSystem) :
    (∃ err, write path data offset flags fs = (.error err, fs)) ∨
      ∃ entry : FileEntry, entry.isDir = false ∧ (flags = .create ∨ flags = .truncate → entry.data = data) ∧
        write path data offset flags fs = (.ok data.length, fs.set (normalizePath path) entry) := by
  unfold write
  dsimp only
  cases fs.get (normalizePath path) with
  | some entry =>
    cases hdir : entry.isDir with
    | true => exact .inl ⟨.isADirectory (normalizePath path), by simp only [hdir, if_true]⟩
    | false =>
      simp only [hdir, Bool.false_eq_true, if_false]
      refine .inr ⟨_, ?_, ?_, rfl⟩
      · rfl
      · rintro (rfl | rfl)
        · rfl
        · rfl
  | none =>
    by_cases hflags : flags = .create
    · simp only [hflags, if_true]
      cases checkParent fs (normalizePath path) with
      | error err => exact .inl ⟨err, rfl⟩
      | ok u => exact .inr ⟨{ FileEntry.newFile 0o644 with data }, rfl, fun _ => rfl, rfl⟩
    · simp only [hflags, if_false]
      exact .inl ⟨_, rfl⟩

theorem checkParent_ne_alreadyExists (fs : MemFileSystem) (path q : Path) :
    checkParent fs path ≠ .error (.alreadyExists q) := by
  unfold checkParent
  intro h
  cases hparent : parentPath path with
  | none =>
    rw [hparent] at h
    cases h
  | some parent =>
    rw [hparent] at h
    dsimp only at h
    cases hget : fs.get parent with
    | none =>
      rw [hget] at h
      cases h
    | some entry =>
      rw [hget] at h
      dsimp only at h
      split_ifs at h
      cases h

theorem write_ne_alreadyExists (path : Path) (data : Bytes) (offset : ℕ) (flags : WriteFlag)
    (fs : MemFileSystem) (q : Path) : (write path data offset flags fs).1 ≠ .error (.alreadyExists q) := by
  unfold write
  dsimp only
  intro h
  cases hget : fs.get (normalizePath path) with
  | some entry =>
    rw [hget] at h
    dsimp only at h
    split_ifs at h
    cases h
  | none =>
    rw [hget] at h
    dsimp only at h
    split_ifs at h
    · cases hparent : checkParent fs (normalizePath path) with
      | error err =>
        rw [hparent] at h
        exact checkParent_ne_alreadyExists fs _ q (hparent.trans (congrArg _ (Except.error.inj h)))
      | ok u =>
        rw [hparent] at h
        cases h
    · cases h

theorem insertNew_cases (path : Path) (entry : FileEntry) (fs : MemFileSystem) :
    (∃ err, insertNew path entry fs = (.error err, fs)) ∨
      fs.get (normalizePath path) = none ∧
        insertNew path entry fs = (.ok (), fs.set (normalizePath path) entry) := by
  unfold insertNew
  dsimp only
  by_cases h : fs.contains (normalizePath path) = true
  · rw [if_pos h]
    exact .inl ⟨_, rfl⟩
  · rw [if_neg h]
    cases checkParent fs (normalizePath path) with
    | error err => exact .inl ⟨err, rfl⟩
    | ok u => exact .inr ⟨Option.not_isSome_iff_eq_none.1 h, rfl⟩

theorem remove_cases (path : Path) (fs : MemFileSystem) :
    (∃ err, remove path fs = (.error err, fs)) ∨
      remove path fs = (.ok (), fs.erase (normalizePath path)) := by
  unfold remove
  dsimp only
  cases fs.get (normalizePath path) with
  | none => exact .inl ⟨_, rfl⟩
  | some entry =>
    cases hdir : entry.isDir with
    | true => exact .inl ⟨.isADirectory (normalizePath path), by simp only [hdir, if_true]⟩
    | false => exact .inr (by simp only [hdir, Bool.false_eq_true, if_false])

theorem replace_cases (srcPath dstPath : Path) (fs : MemFileSystem) :
    (∃ err, replace srcPath dstPath fs = (.error err, fs)) ∨
      ∃ entry : FileEntry, fs.get (normalizePath srcPath) = some entry ∧ entry.isDir = false ∧
        replace srcPath dstPath fs = (.ok (), ((fs.erase (normalizePath dstPath)).erase
          (normalizePath srcPath)).set (normalizePath dstPath) entry) := by
  unfold replace
  dsimp only
  cases fs.get (normalizePath srcPath) with
  | none => exact .inl ⟨_, rfl⟩
  | some entry =>
    cases hdir : entry.isDir with
    | true =>
      simp only [hdir, if_true]
      exact .inl ⟨_, rfl⟩
    | false =>
      simp only [hdir, Bool.false_eq_true, if_false]
      cases checkParent fs (normalizePath dstPath) with
      | error err => exact .inl ⟨err, rfl⟩
      | ok u =>
        by_cases h : (fs.get (normalizePath dstPath)).any FileEntry.isDir = true
        · simp only [h, if_true]
          exact .inl ⟨_, rfl⟩
        · simp only [h, Bool.false_eq_true, if_false]
          exact .inr ⟨entry, rfl, hdir, rfl⟩

/-- When a file can be put in the place of another. -/
theorem replace_of_file {srcPath : Path} (dstPath : Path) {entry : FileEntry}
    (hget : fs.get (normalizePath srcPath) = some entry) (hdir : entry.isDir = false) :
    (checkParent fs (normalizePath dstPath) = .ok () ∧
        (fs.get (normalizePath dstPath)).any FileEntry.isDir = false ∧
        replace srcPath dstPath fs = (.ok (), ((fs.erase (normalizePath dstPath)).erase
          (normalizePath srcPath)).set (normalizePath dstPath) entry)) ∨
      ¬ (checkParent fs (normalizePath dstPath) = .ok () ∧
        (fs.get (normalizePath dstPath)).any FileEntry.isDir = false) ∧
        ∃ err, replace srcPath dstPath fs = (.error err, fs) := by
  unfold replace
  dsimp only
  rw [hget]
  dsimp only
  rw [if_neg (by rw [hdir]; decide)]
  cases hparent : checkParent fs (normalizePath dstPath) with
  | error err => exact .inr ⟨fun h => (by cases h.1), err, rfl⟩
  | ok u =>
    dsimp only
    cases hany : (fs.get (normalizePath dstPath)).any FileEntry.isDir with
    | true => exact .inr ⟨fun h => (by cases h.2), _, if_pos rfl⟩
    | false => exact .inl ⟨rfl, rfl, if_neg Bool.false_ne_true⟩

/-- What a replacement leaves at each path. -/
theorem get_replace (src dst key : Path) (entry : FileEntry) :
    (((fs.erase dst).erase src).set dst entry).get key =
      if key = dst then some entry else if key = src then none else fs.get key := by
  rw [Dict.get_set, Dict.get_erase, Dict.get_erase]
  split_ifs with h
  · rfl
  · rfl
  · rfl

/-! ## What a renaming leaves -/

section Rename

variable {old new : Path}

theorem prefixOf_prefix_movedPath (path : Path) : prefixOf new <+: movedPath old new path :=
  List.prefix_append _ _

theorem movedPath_movedPath (h : prefixOf old <+: path) :
    movedPath new old (movedPath old new path) = path := by
  obtain ⟨rest, rfl⟩ := h
  rw [movedPath, movedPath, List.drop_left, List.drop_left]

theorem get_moveAll (paths : List Path) (fs : MemFileSystem) (hnodup : paths.Nodup)
    (hbelow : ∀ p ∈ paths, prefixOf old <+: p) (hfresh : ∀ p ∈ paths, ∀ q ∈ paths, movedPath old new p ≠ q)
    (hget : ∀ p ∈ paths, (fs.get p).isSome = true) (k : Path) :
    (moveAll old new paths fs).get k =
      if prefixOf new <+: k ∧ movedPath new old k ∈ paths then fs.get (movedPath new old k)
      else if k ∈ paths then none else fs.get k := by
  induction paths generalizing fs with
  | nil =>
    rw [if_neg (fun h => List.not_mem_nil h.2), if_neg List.not_mem_nil]
    rfl
  | cons p paths ih =>
    obtain ⟨hp, hnodup⟩ := List.nodup_cons.1 hnodup
    obtain ⟨entry, hentry⟩ := Option.isSome_iff_exists.1 (hget p List.mem_cons_self)
    have hmoved : movedPath old new p ≠ p := hfresh p List.mem_cons_self p List.mem_cons_self
    have hkeep : ∀ q ∈ paths, ((fs.erase p).set (movedPath old new p) entry).get q = fs.get q := by
      intro q hq
      rw [Dict.get_set, if_neg (hfresh p List.mem_cons_self q (List.mem_cons_of_mem _ hq)).symm,
        Dict.get_erase, if_neg]
      rintro rfl
      exact hp hq
    have hfold : moveAll old new (p :: paths) fs =
        moveAll old new paths ((fs.erase p).set (movedPath old new p) entry) := by
      rw [moveAll, List.foldl_cons, hentry]
      rfl
    rw [hfold, ih _ hnodup (fun q hq => hbelow q (List.mem_cons_of_mem _ hq))
      (fun q hq r hr => hfresh q (List.mem_cons_of_mem _ hq) r (List.mem_cons_of_mem _ hr))
      (fun q hq => by rw [hkeep q hq]; exact hget q (List.mem_cons_of_mem _ hq))]
    by_cases hk : prefixOf new <+: k ∧ movedPath new old k ∈ paths
    · rw [if_pos hk, if_pos ⟨hk.1, List.mem_cons_of_mem _ hk.2⟩, hkeep _ hk.2]
    · rw [if_neg hk]
      by_cases himage : k = movedPath old new p
      · have hback : movedPath new old k = p := by
          rw [himage, movedPath_movedPath (hbelow p List.mem_cons_self)]
        have hnot : k ∉ paths := fun h => hfresh p List.mem_cons_self k (List.mem_cons_of_mem _ h) himage.symm
        rw [if_neg hnot, Dict.get_set, if_pos himage, if_pos, hback, hentry]
        rw [hback]
        exact ⟨himage ▸ prefixOf_prefix_movedPath p, List.mem_cons_self⟩
      · have hback : ¬ (prefixOf new <+: k ∧ movedPath new old k ∈ p :: paths) := by
          rintro ⟨hpre, hmem⟩
          rcases List.mem_cons.1 hmem with heq | hmem
          · exact himage (by rw [← heq, movedPath_movedPath hpre])
          · exact hk ⟨hpre, hmem⟩
        rw [if_neg hback, Dict.get_set, if_neg himage, Dict.get_erase]
        by_cases hkp : k = p
        · rw [if_pos hkp, hkp, if_neg hp, if_pos List.mem_cons_self]
        · rw [if_neg hkp]
          by_cases hmem : k ∈ paths
          · rw [if_pos hmem, if_pos (List.mem_cons_of_mem _ hmem)]
          · rw [if_neg hmem, if_neg (fun h => (List.mem_cons.1 h).elim hkp hmem)]

theorem mem_toMove {p : Path} :
    p ∈ toMove fs old ↔ (fs.get p).isSome = true ∧ p ≠ old ∧ prefixOf old <+: p := by
  unfold toMove
  have hkey : p ∈ fs.entries.map Prod.fst ↔ (fs.get p).isSome = true := by
    rw [Option.isSome_iff_ne_none, ne_eq, Dict.get_eq_none_iff, not_not]
  rw [List.mem_filter, decide_eq_true_iff, hkey]

/-- What a renaming asks of the file system. -/
structure Renamable (fs : MemFileSystem) (old new : Path) : Prop where
  source : (fs.get old).isSome = true
  fresh : fs.get new = none
  parent : checkParent fs new = .ok ()
  below : ∀ p, (fs.get p).isSome = true → p ≠ old → prefixOf old <+: p →
    fs.get (movedPath old new p) = none

/-- What a renaming leaves at a path. -/
def renamed (fs : MemFileSystem) (old new k : Path) : Option FileEntry :=
  if prefixOf new <+: k ∧ movedPath new old k ≠ old ∧ (fs.get (movedPath new old k)).isSome = true then
    fs.get (movedPath new old k)
  else if k = new then fs.get old
  else if k = old ∨ prefixOf old <+: k then none
  else fs.get k

theorem rename_cases (oldPath newPath : Path) (fs : MemFileSystem) :
    (¬ Renamable fs (normalizePath oldPath) (normalizePath newPath) ∧
      ∃ err, rename oldPath newPath fs = (.error err, fs)) ∨
    Renamable fs (normalizePath oldPath) (normalizePath newPath) ∧
      ∃ fs', rename oldPath newPath fs = (.ok (), fs') ∧
        ∀ k, fs'.get k = renamed fs (normalizePath oldPath) (normalizePath newPath) k := by
  unfold rename
  dsimp only
  generalize normalizePath oldPath = old
  generalize normalizePath newPath = new
  cases hsource : fs.get old with
  | none =>
    refine .inl ⟨fun h => ?_, _, rfl⟩
    have := h.source
    rw [hsource] at this
    cases this
  | some entry =>
    dsimp only
    by_cases hnew : fs.contains new = true
    · rw [if_pos hnew]
      refine .inl ⟨fun h => ?_, _, rfl⟩
      rw [Dict.contains, h.fresh] at hnew
      cases hnew
    · have hfresh : fs.get new = none := Option.not_isSome_iff_eq_none.1 hnew
      rw [if_neg hnew]
      cases hparent : checkParent fs new with
      | error err =>
        refine .inl ⟨fun h => ?_, _, rfl⟩
        cases hparent.symm.trans h.parent
      | ok u =>
        dsimp only
        cases hfind : (toMove fs old).find? fun path => fs.contains (movedPath old new path) with
        | some p =>
          refine .inl ⟨fun h => ?_, _, rfl⟩
          obtain ⟨hp, hpo, hpre⟩ := mem_toMove.1 (List.mem_of_find?_eq_some hfind)
          have := List.find?_some hfind
          rw [Dict.contains, h.below p hp hpo hpre] at this
          cases this
        | none =>
          have hbelow : ∀ p ∈ toMove fs old, fs.get (movedPath old new p) = none := by
            intro p hp
            have := List.find?_eq_none.1 hfind p hp
            exact Option.not_isSome_iff_eq_none.1 this
          refine .inr ⟨⟨by rw [hsource]; rfl, hfresh, hparent, fun p hp hpo hpre =>
            hbelow p (mem_toMove.2 ⟨hp, hpo, hpre⟩)⟩, _, rfl, fun k => ?_⟩
          have hkeep : ∀ p, (fs.get p).isSome = true → p ≠ old →
              ((fs.erase old).set new entry).get p = fs.get p := by
            intro p hp hpo
            rw [Dict.get_set, if_neg, Dict.get_erase, if_neg hpo]
            rintro rfl
            rw [hfresh] at hp
            cases hp
          rw [get_moveAll]
          · have himage : prefixOf new <+: k ∧ movedPath new old k ∈ toMove fs old ↔
                prefixOf new <+: k ∧ movedPath new old k ≠ old ∧
                  (fs.get (movedPath new old k)).isSome = true := by
              rw [mem_toMove]
              exact ⟨fun ⟨hk, hs, ho, _⟩ => ⟨hk, ho, hs⟩,
                fun ⟨hk, ho, hs⟩ => ⟨hk, hs, ho, prefixOf_prefix_movedPath k⟩⟩
            unfold renamed
            by_cases h : prefixOf new <+: k ∧ movedPath new old k ∈ toMove fs old
            · rw [if_pos h, if_pos (himage.1 h), hkeep _ (himage.1 h).2.2 (himage.1 h).2.1]
            · rw [if_neg h, if_neg (fun h' => h (himage.2 h'))]
              by_cases hmove : k ∈ toMove fs old
              · obtain ⟨hk, hko, hpre⟩ := mem_toMove.1 hmove
                rw [if_pos hmove, if_neg, if_pos (.inr hpre)]
                rintro rfl
                rw [hfresh] at hk
                cases hk
              · rw [if_neg hmove, Dict.get_set, Dict.get_erase]
                by_cases hkn : k = new
                · rw [if_pos hkn, if_pos hkn, hsource]
                · rw [if_neg hkn, if_neg hkn]
                  by_cases hko : k = old
                  · rw [if_pos hko, if_pos (.inl hko)]
                  · rw [if_neg hko]
                    by_cases hpre : prefixOf old <+: k
                    · rw [if_pos (.inr hpre)]
                      exact Option.not_isSome_iff_eq_none.1 fun hk => hmove (mem_toMove.2 ⟨hk, hko, hpre⟩)
                    · rw [if_neg (fun h => h.elim hko hpre)]
          · exact (fs.nodup).filter _
          · exact fun p hp => (mem_toMove.1 hp).2.2
          · intro p hp q hq heq
            have := (mem_toMove.1 hq).1
            rw [← heq, hbelow p hp] at this
            cases this
          · intro p hp
            obtain ⟨hp, hpo, -⟩ := mem_toMove.1 hp
            rw [hkeep p hp hpo]
            exact hp

end Rename

theorem rename_error {oldPath newPath : Path} {err : Error} {fs' : MemFileSystem}
    (h : rename oldPath newPath fs = (.error err, fs')) : fs' = fs := by
  rcases rename_cases oldPath newPath fs with ⟨-, err', he⟩ | ⟨-, fs'', he, -⟩
  · exact (Prod.mk.inj (he.symm.trans h)).2.symm
  · cases (Prod.mk.inj (he.symm.trans h)).1

end MemFileSystem

end OpenViking.Ragfs
