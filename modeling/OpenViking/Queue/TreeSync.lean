import OpenViking.Common.KeyedPass
import OpenViking.Common.NamedTree
import OpenViking.Content.ContentWrite

/-!
# Moving a temporary tree into its target

`_sync_topdown_recursive` (`storage/queuefs/semantic_processor.py`, 742-949): the files of a source
tree are moved into a target tree, what the source does not have is removed there, and the source is
deleted at the end.  A directory is merged in two passes over its names, one for the files and one
for the directories, that share what is left of the listings.  Calls of `rm` and `mv` may fail; a
failure is logged and leaves everything as it was.

The body of a pass at a name touches only what has this name, so a pass is a loop over keys in the
sense of `KeyedPass`.

Results:

* `syncDir_isSome`: the recursion comes to an end;
* `syncDir_name`: what the two passes leave at a name, and `syncDir_diff`: what they report.
-/

namespace OpenViking.Queue.TreeSync

open NamedTree KeyedPass
open Content (decodeBytes)

/-! ## Model -/

/-- The names that lead from the root, or from the target, to what is below it. -/
abbrev Path := List String

/-- The entries of a directory. -/
abbrev Dir := Entries String ByteArray

/-- A file or a directory. -/
abbrev Item := Node String ByteArray

/-- `DiffResult` (62-69); a URI below the target is given by its path. -/
structure DiffResult where
  addedFiles : List Path := []
  deletedFiles : List Path := []
  updatedFiles : List Path := []
  addedDirs : List Path := []
  deletedDirs : List Path := []
  deriving DecidableEq, Repr

/-- Two results after one another. -/
def DiffResult.append (d d' : DiffResult) : DiffResult where
  addedFiles := d.addedFiles ++ d'.addedFiles
  deletedFiles := d.deletedFiles ++ d'.deletedFiles
  updatedFiles := d.updatedFiles ++ d'.updatedFiles
  addedDirs := d.addedDirs ++ d'.addedDirs
  deletedDirs := d.deletedDirs ++ d'.deletedDirs

/-- The lists of a result. -/
inductive Change where
  | addedFile
  | deletedFile
  | updatedFile
  | addedDir
  | deletedDir

def DiffResult.list (d : DiffResult) : Change → List Path
  | .addedFile => d.addedFiles
  | .deletedFile => d.deletedFiles
  | .updatedFile => d.updatedFiles
  | .addedDir => d.addedDirs
  | .deletedDir => d.deletedDirs

@[simp] theorem DiffResult.list_append (d d' : DiffResult) (c : Change) :
    (d.append d').list c = d.list c ++ d'.list c := by
  cases c <;> rfl

@[simp] theorem DiffResult.list_empty (c : Change) : ({} : DiffResult).list c = [] := by
  cases c <;> rfl

/-- The calls that fail.  At a path there is at most one `rm` in each of the two passes, and at most
one `mv`. -/
structure Failing where
  rmInFiles : Path → Bool
  rmInDirs : Path → Bool
  mv : Path → Bool

/-- All calls succeed. -/
def Failing.never : Failing := ⟨fun _ => false, fun _ => false, fun _ => false⟩

/-- What a sync is called with besides the trees, and what it uses: `file_change_status` by the path
of the file, `legacy` for the bytes that are not UTF-8 (GBK, otherwise Latin-1), and the rewriting of
image references in the target. -/
structure Env where
  fileChangeStatus : Path → Option Bool
  legacy : ByteArray → String
  rewriteImages : Dir → Dir → Dir

/-- `_check_file_content_changed` (205-221) -/
def checkFileContentChanged (E : Env) (current target : ByteArray) : Bool :=
  if current.size ≠ target.size then true
  else decodeBytes E.legacy current ≠ decodeBytes E.legacy target

/-- Whether a file counts as changed (824-837). -/
def changed (E : Env) (path : Path) (current target : ByteArray) : Bool :=
  match E.fileChangeStatus path with
  | some status => status
  | none => checkFileContentChanged E current target

/-- What the two directories and the listings hold at one name: `root_files` and `root_dirs`, the
entries, and `target_files` and `target_dirs` as they stand. -/
structure Slot where
  rootFile : Bool
  rootDir : Bool
  root : Option Item
  target : Option Item
  targetFile : Bool
  targetDir : Bool

/-- `mv` to the same name.  A file may be moved over a file; a move over a directory, or of a
directory over a file, fails. -/
def Slot.mv (s : Slot) (fails : Bool) : Slot :=
  if fails then s
  else match s.root, s.target with
    | some item, none => { s with root := none, target := some item }
    | some (.file content), some (.file _) =>
      { s with root := none, target := some (.file content) }
    | _, _ => s

/-- A directory of the target in the place of a file (788-804), with the `target_file` that is left. -/
def clearForFile (F : Failing) (path : Path) (s : Slot) : Slot × Bool × DiffResult :=
  if s.rootFile && s.targetDir then
    if F.rmInFiles path then (s, false, {})
    else ({ s with target := none, targetDir := false }, false, { deletedDirs := [path] })
  else (s, s.targetFile, {})

/-- A file on both sides (823-856): the old one is removed before the new one is moved in. -/
def updateFile (E : Env) (F : Failing) (path : Path) (s : Slot) : Slot × DiffResult :=
  let isChanged := match s.root, s.target with
    | some (.file current), some (.file target) => changed E path current target
    | _, _ => true
  if isChanged then
    let removed := if F.rmInFiles path then s else { s with target := none }
    (removed.mv (F.mv path), { updatedFiles := [path] })
  else (s, {})

/-- The rest of the body of the pass over the files (806-869). -/
def placeFile (E : Env) (F : Failing) (path : Path) (s : Slot) (targetFile : Bool) :
    Slot × DiffResult :=
  if targetFile && s.rootDir && !s.rootFile then
    if F.rmInFiles path then (s, {})
    else ({ s with target := none, targetFile := false }, { deletedFiles := [path] })
  else if targetFile && !s.rootFile then
    if F.rmInFiles path then (s, {})
    else ({ s with target := none }, { deletedFiles := [path] })
  else if s.rootFile && targetFile then updateFile E F path s
  else if s.rootFile && !targetFile then
    (s.mv (F.mv path), { addedFiles := [path] })
  else (s, {})

/-- The body of the pass over the files (784-869). -/
def syncFile (E : Env) (F : Failing) (path : Path) (s : Slot) : Slot × DiffResult :=
  let (s, targetFile, diff) := clearForFile F path s
  let (s, diff') := placeFile E F path s targetFile
  (s, diff.append diff')

/-- A file of the target in the place of a directory (876-891), with the `target_subdir` that is
left. -/
def clearForDir (F : Failing) (path : Path) (s : Slot) : Slot × Bool × DiffResult :=
  if s.rootDir && s.targetFile then
    if F.rmInDirs path then (s, false, {})
    else ({ s with target := none, targetFile := false }, false, { deletedFiles := [path] })
  else (s, s.targetDir, {})

/-- The rest of the body of the pass over the directories (893-926); `sub` is `sync_dir` on the
directories of the name. -/
def placeDir (F : Failing) (sub : Dir → Dir → Option (Dir × Dir × DiffResult)) (path : Path)
    (s : Slot) (targetSubdir : Bool) : Option (Slot × DiffResult) :=
  if targetSubdir && !s.rootDir then
    if F.rmInDirs path then some (s, {})
    else some ({ s with target := none }, { deletedDirs := [path] })
  else if s.rootDir && !targetSubdir then
    some (s.mv (F.mv path), { addedDirs := [path] })
  else if s.rootDir && targetSubdir then
    match s.root, s.target with
    | some (.dir rootSubdir), some (.dir targetSubdir) =>
      (sub rootSubdir targetSubdir).map fun r =>
        ({ s with root := some (.dir r.1), target := some (.dir r.2.1) }, r.2.2)
    | _, _ => none
  else some (s, {})

/-- The body of the pass over the directories (871-926). -/
def syncSubdir (F : Failing) (sub : Dir → Dir → Option (Dir × Dir × DiffResult)) (path : Path)
    (s : Slot) : Option (Slot × DiffResult) :=
  let (s, targetSubdir, diff) := clearForDir F path s
  (placeDir F sub path s targetSubdir).map fun r => (r.1, diff.append r.2)

/-- `STORAGE_INTERNAL_ENTRY_NAMES` (`storage/internal_names.py`, 18-25), the names that `_ls_entries`
(`storage/viking_fs.py`, 2847-2859) leaves out. -/
def storageInternalEntryNames : List String :=
  ["_system", "tasks", ".wiki_documents.json", ".path.ovlock", ".redirect.json", ".sync_log.json"]

/-- `ls` lists the name and `list_children` (758-776) does not skip it. -/
def listed (name : String) : Bool :=
  name ≠ "" && name.toList.head? ≠ some '.' && name ∉ storageInternalEntryNames

/-- The files, or the directories, of `list_children`. -/
def listChildren (kind : Item → Bool) (d : Dir) : List String :=
  d.names.filter fun name => listed name && (d.find name).any kind

/-- Two directories while they are merged. -/
structure Merge where
  root : Dir
  target : Dir
  rootFiles : List String
  rootDirs : List String
  targetFiles : List String
  targetDirs : List String
  diff : DiffResult

namespace Merge

/-- Before the passes. -/
def start (root target : Dir) : Merge where
  root := root
  target := target
  rootFiles := listChildren Node.isFile root
  rootDirs := listChildren Node.isDir root
  targetFiles := listChildren Node.isFile target
  targetDirs := listChildren Node.isDir target
  diff := {}

/-- What has a name. -/
def slot (m : Merge) (name : String) : Slot where
  rootFile := name ∈ m.rootFiles
  rootDir := name ∈ m.rootDirs
  root := m.root.find name
  target := m.target.find name
  targetFile := name ∈ m.targetFiles
  targetDir := name ∈ m.targetDirs

/-- With other entries at a name, a name taken from the listings of the target, and more to report. -/
def set (m : Merge) (name : String) (s : Slot) (diff : DiffResult) : Merge where
  root := m.root.put name s.root
  target := m.target.put name s.target
  rootFiles := m.rootFiles
  rootDirs := m.rootDirs
  targetFiles := if s.targetFile then m.targetFiles else m.targetFiles.filter (· ≠ name)
  targetDirs := if s.targetDir then m.targetDirs else m.targetDirs.filter (· ≠ name)
  diff := m.diff.append diff

end Merge

/-- `sorted(set(a) | set(b))` -/
def sortedNames (a b : List String) : List String := (a ++ b).dedup.insertionSort (· ≤ ·)

/-- `sync_dir` (778-926).  The first argument bounds the recursion. -/
def syncDir (E : Env) (F : Failing) : ℕ → Path → Dir → Dir → Option (Dir × Dir × DiffResult)
  | 0, _, _, _ => none
  | depth + 1, path, root, target => do
    let m := Merge.start root target
    let m ← pass Merge.slot Merge.set (fun name s => some (syncFile E F (path ++ [name]) s)) m
      (sortedNames m.rootFiles m.targetFiles)
    let m ← pass Merge.slot Merge.set
      (fun name => syncSubdir F (syncDir E F depth (path ++ [name])) (path ++ [name])) m
      (sortedNames m.rootDirs m.targetDirs)
    some (m.root, m.target, m.diff)

/-- `IMAGE_MAPPINGS_FILENAME` -/
def imageMappingsFilename : String := ".image_mappings.json"

/-- No directory has image mappings. -/
def NoImageMappings (d : Dir) : Prop := d.hasFile imageMappingsFilename = false

instance (d : Dir) : Decidable (NoImageMappings d) := inferInstanceAs (Decidable (_ = _))

/-- `_rewrite_target_image_uris` (951-1024): it carries the image mappings of the source over and has
the image references of the target rewritten by them, and does nothing where there are none. -/
def rewriteTargetImageUris (E : Env) (root target : Dir) : Dir :=
  if NoImageMappings root ∧ NoImageMappings target then target else E.rewriteImages root target

/-- `delete_temp` comes to the name. -/
def deletable (name : String) : Bool := name ∉ storageInternalEntryNames && name ∉ [".", ".."]

/-- What `delete_temp` (`storage/viking_fs.py`, 3555-3572) leaves in a directory: what is not listed,
and the directories that are not empty when they are to be removed. -/
def deleteTemp : Dir → Dir
  | .nil => .nil
  | .file name content rest =>
    if deletable name then deleteTemp rest else .file name content (deleteTemp rest)
  | .dir name children rest =>
    if deletable name then
      match deleteTemp children with
      | .nil => deleteTemp rest
      | left => .dir name left (deleteTemp rest)
    else .dir name children (deleteTemp rest)

/-- What `delete_temp` leaves of the source. -/
def deleteRoot (root : Dir) : Option Item :=
  match deleteTemp root with
  | .nil => none
  | left => some (.dir left)

/-- What `_sync_topdown_recursive` raises: the source is missing, a directory to be listed is a file,
or the move of the whole source fails. -/
inductive SyncError where
  | fileNotFound (text : String)
  | notADirectory
  | mvFailed
  deriving DecidableEq, Repr

/-- What a sync leaves. -/
structure Synced where
  root : Option Item
  target : Option Item
  diff : DiffResult

/-- `_rewrite_target_image_uris` on what has been moved as a whole. -/
def rewriteItem (E : Env) : Item → Item
  | .file content => .file content
  | .dir children => .dir (rewriteTargetImageUris E .nil children)

/-- `_sync_topdown_recursive(root_uri, target_uri)` (742-949).  The path of the target itself is
empty.  At the end `delete_temp` removes the source, as far as it lists it. -/
def syncTopdownRecursive (E : Env) (F : Failing) (rootUri targetUri : String)
    (root target : Option Item) : Except SyncError Synced :=
  match root, target with
  | none, _ => .error (.fileNotFound ("Semantic source no longer exists; refusing to sync into " ++
      targetUri ++ ": " ++ rootUri))
  | some root, none =>
    if F.mv [] then .error .mvFailed
    else .ok ⟨none, some (rewriteItem E root), { addedDirs := [[]] }⟩
  | some (.dir root), some (.dir target) =>
    match syncDir E F (root.height + 1) [] root target with
    | some (root, target, diff) =>
      .ok ⟨deleteRoot root, some (.dir (rewriteTargetImageUris E root target)), diff⟩
    | none => .error .notADirectory
  | _, _ => .error .notADirectory

/-! ## One name -/

/-- What a listing says of a name, and what has the name. -/
def Slot.of (root target : Option Item) : Slot where
  rootFile := root.any Node.isFile
  rootDir := root.any Node.isDir
  root := root
  target := target
  targetFile := target.any Node.isFile
  targetDir := target.any Node.isDir

/-- Both passes at a name. -/
def syncName (E : Env) (F : Failing) (sub : Dir → Dir → Option (Dir × Dir × DiffResult))
    (path : Path) (s : Slot) : Option (Slot × DiffResult) :=
  let (s, diff) := syncFile E F path s
  (syncSubdir F sub path s).map fun r => (r.1, diff.append r.2)

/-- A pass reads the listings of the source and takes names from those of the target. -/
structure Slot.From (s' s : Slot) : Prop where
  rootFile : s'.rootFile = s.rootFile
  rootDir : s'.rootDir = s.rootDir
  targetFile : s'.targetFile = true → s.targetFile = true
  targetDir : s'.targetDir = true → s.targetDir = true

theorem Slot.From.refl (s : Slot) : s.From s := ⟨rfl, rfl, id, id⟩

variable {s s' : Slot}

theorem Slot.From.trans {s'' : Slot} (h : s''.From s') (h' : s'.From s) : s''.From s :=
  ⟨h.rootFile.trans h'.rootFile, h.rootDir.trans h'.rootDir, fun ht => h'.targetFile (h.targetFile ht),
    fun ht => h'.targetDir (h.targetDir ht)⟩

theorem Slot.mv_from (s : Slot) (fails : Bool) : (s.mv fails).From s := by
  unfold Slot.mv
  split_ifs
  · exact .refl s
  · split <;> exact ⟨rfl, rfl, id, id⟩

theorem clearForFile_from (F : Failing) (path : Path) (s : Slot) : (clearForFile F path s).1.From s := by
  unfold clearForFile
  split_ifs
  · exact .refl s
  · exact ⟨rfl, rfl, id, by simp⟩
  · exact .refl s

theorem updateFile_eq (E : Env) (F : Failing) (path : Path) (s : Slot) :
    updateFile E F path s = (Slot.mv (if F.rmInFiles path then s else { s with target := none })
      (F.mv path), { updatedFiles := [path] }) ∨ updateFile E F path s = (s, {}) :=
  ite_eq_or_eq _ _ _

theorem updateFile_from (E : Env) (F : Failing) (path : Path) (s : Slot) :
    (updateFile E F path s).1.From s := by
  have hremoved : Slot.From (if F.rmInFiles path then s else { s with target := none }) s := by
    split_ifs
    · exact .refl s
    · exact ⟨rfl, rfl, id, id⟩
  rcases updateFile_eq E F path s with h | h
  · rw [h]
    exact (Slot.mv_from _ _).trans hremoved
  · rw [h]
    exact .refl s

theorem placeFile_from (E : Env) (F : Failing) (path : Path) (s : Slot) (targetFile : Bool) :
    (placeFile E F path s targetFile).1.From s := by
  unfold placeFile
  split_ifs
  · exact .refl s
  · exact ⟨rfl, rfl, by simp, id⟩
  · exact .refl s
  · exact ⟨rfl, rfl, id, id⟩
  · exact updateFile_from E F path s
  · exact Slot.mv_from s _
  · exact .refl s

theorem syncFile_from (E : Env) (F : Failing) (path : Path) (s : Slot) :
    (syncFile E F path s).1.From s :=
  (placeFile_from E F path _ _).trans (clearForFile_from F path s)

theorem clearForDir_from (F : Failing) (path : Path) (s : Slot) : (clearForDir F path s).1.From s := by
  unfold clearForDir
  split_ifs
  · exact .refl s
  · exact ⟨rfl, rfl, by simp, id⟩
  · exact .refl s

variable {diff : DiffResult}

variable {sub : Dir → Dir → Option (Dir × Dir × DiffResult)} {F : Failing} {path : Path}

theorem placeDir_from {targetSubdir : Bool}
    (h : placeDir F sub path s targetSubdir = some (s', diff)) : s'.From s := by
  unfold placeDir at h
  split_ifs at h
  · cases h
    exact .refl s
  · cases h
    exact ⟨rfl, rfl, id, id⟩
  · cases h
    exact Slot.mv_from s _
  · split at h
    · obtain ⟨r, -, hr⟩ := Option.map_eq_some_iff.1 h
      cases hr
      exact ⟨rfl, rfl, id, id⟩
    · cases h
  · cases h
    exact .refl s

theorem syncSubdir_from (h : syncSubdir F sub path s = some (s', diff)) : s'.From s := by
  obtain ⟨⟨s'', diff'⟩, hplace, hr⟩ := Option.map_eq_some_iff.1 h
  cases hr
  exact (placeDir_from hplace).trans (clearForDir_from F path s)

/-! ## The passes are local -/

variable {name : String}

theorem Merge.slot_set_self {m : Merge} (h : s.From (m.slot name))
    (diff : DiffResult) : (m.set name s diff).slot name = s := by
  obtain ⟨hrf, hrd, htf, htd⟩ := h
  have hfile : decide (name ∈ (m.set name s diff).targetFiles) = s.targetFile := by
    unfold Merge.set
    cases hs : s.targetFile with
    | false => simp
    | true => simpa [Merge.slot] using htf hs
  have hdir : decide (name ∈ (m.set name s diff).targetDirs) = s.targetDir := by
    unfold Merge.set
    cases hs : s.targetDir with
    | false => simp
    | true => simpa [Merge.slot] using htd hs
  unfold Merge.slot
  rw [hfile, hdir]
  simp only [Merge.set, Entries.find_put_self]
  show Slot.mk (m.slot name).rootFile (m.slot name).rootDir _ _ _ _ = s
  rw [← hrf, ← hrd]

theorem Merge.slot_set_of_ne (m : Merge) {k : String} (hk : k ≠ name) (s : Slot)
    (diff : DiffResult) : (m.set name s diff).slot k = m.slot k := by
  have hfile : k ∈ (m.set name s diff).targetFiles ↔ k ∈ m.targetFiles := by
    unfold Merge.set
    cases s.targetFile <;> simp [hk]
  have hdir : k ∈ (m.set name s diff).targetDirs ↔ k ∈ m.targetDirs := by
    unfold Merge.set
    cases s.targetDir <;> simp [hk]
  unfold Merge.slot
  rw [Slot.mk.injEq, decide_eq_decide, decide_eq_decide, decide_eq_decide, decide_eq_decide]
  exact ⟨Iff.rfl, Iff.rfl, Entries.find_put_of_ne _ hk _, Entries.find_put_of_ne _ hk _, hfile, hdir⟩

theorem files_isLocal (E : Env) (F : Failing) (path : Path) :
    IsLocal Merge.slot Merge.set fun name s => some (syncFile E F (path ++ [name]) s) where
  self m name s diff h := by
    apply Merge.slot_set_self
    have hbody := Option.some.inj h
    have hfrom := syncFile_from E F (path ++ [name]) (m.slot name)
    rwa [hbody] at hfrom
  other m name s diff k hk := m.slot_set_of_ne hk s diff

theorem dirs_isLocal (F : Failing) (sub : Path → Dir → Dir → Option (Dir × Dir × DiffResult)) (path : Path) :
    IsLocal Merge.slot Merge.set fun name =>
      syncSubdir F (sub (path ++ [name])) (path ++ [name]) where
  self _ _ _ diff h := Merge.slot_set_self (syncSubdir_from h) diff
  other m _ s diff _ hk := m.slot_set_of_ne hk s diff

/-! ## What both passes do at a name -/

/-- What an `mv` to a free name leaves on the two sides. -/
def moved (fails : Bool) (item : Item) : Option Item × Option Item :=
  if fails then (some item, none) else (none, some item)

/-- What both passes leave at a name, and what they report: by what is there on the two sides. -/
def outcome (E : Env) (F : Failing) (sub : Dir → Dir → Option (Dir × Dir × DiffResult))
    (path : Path) : Option Item → Option Item → Option ((Option Item × Option Item) × DiffResult)
  | none, none => some ((none, none), {})
  | none, some (.file content) =>
    if F.rmInFiles path then some ((none, some (.file content)), {})
    else some ((none, none), { deletedFiles := [path] })
  | none, some (.dir children) =>
    if F.rmInDirs path then some ((none, some (.dir children)), {})
    else some ((none, none), { deletedDirs := [path] })
  | some (.file content), none =>
    some (moved (F.mv path) (.file content), { addedFiles := [path] })
  | some (.file current), some (.file target) =>
    if changed E path current target then
      if F.mv path then
        some ((some (.file current), if F.rmInFiles path then some (.file target) else none),
          { updatedFiles := [path] })
      else some ((none, some (.file current)), { updatedFiles := [path] })
    else some ((some (.file current), some (.file target)), {})
  | some (.file content), some (.dir children) =>
    if F.rmInFiles path then
      -- the file cannot be moved over the directory, which the second pass may still remove
      if F.rmInDirs path then
        some ((some (.file content), some (.dir children)), { addedFiles := [path] })
      else some ((some (.file content), none), { addedFiles := [path], deletedDirs := [path] })
    else
      some (moved (F.mv path) (.file content), { addedFiles := [path], deletedDirs := [path] })
  | some (.dir children), none =>
    some (moved (F.mv path) (.dir children), { addedDirs := [path] })
  | some (.dir children), some (.file content) =>
    if F.rmInFiles path && F.rmInDirs path then
      some ((some (.dir children), some (.file content)), { addedDirs := [path] })
    else some (moved (F.mv path) (.dir children), { deletedFiles := [path], addedDirs := [path] })
  | some (.dir root), some (.dir target) =>
    (sub root target).map fun r => ((some (.dir r.1), some (.dir r.2.1)), r.2.2)

theorem syncName_files (E : Env) (F : Failing) (sub : Dir → Dir → Option (Dir × Dir × DiffResult))
    (path : Path) (current target : ByteArray) :
    ((syncName E F sub path (.of (some (.file current)) (some (.file target)))).map fun r =>
      ((r.1.root, r.1.target), r.2)) =
      outcome E F sub path (some (.file current)) (some (.file target)) := by
  have hupdate : updateFile E F path (.of (some (.file current)) (some (.file target))) =
      if changed E path current target then
        (Slot.mv (if F.rmInFiles path then .of (some (.file current)) (some (.file target))
          else { Slot.of (some (.file current)) (some (.file target)) with target := none })
            (F.mv path), { updatedFiles := [path] })
      else (.of (some (.file current)) (some (.file target)), {}) := rfl
  have hfile : syncFile E F path (.of (some (.file current)) (some (.file target))) =
      ((updateFile E F path (.of (some (.file current)) (some (.file target)))).1,
        DiffResult.append {}
          (updateFile E F path (.of (some (.file current)) (some (.file target)))).2) := rfl
  unfold syncName
  rw [hfile, hupdate, outcome]
  unfold syncSubdir clearForDir placeDir
  generalize changed E path current target = isChanged
  generalize F.rmInFiles path = rmInFiles
  generalize F.mv path = mv
  cases isChanged <;> cases rmInFiles <;> cases mv <;> rfl

/-- **What both passes do at a name.** -/
theorem syncName_outcome (E : Env) (F : Failing)
    (sub : Dir → Dir → Option (Dir × Dir × DiffResult)) (path : Path) (root target : Option Item) :
    ((syncName E F sub path (.of root target)).map fun r => ((r.1.root, r.1.target), r.2)) =
      outcome E F sub path root target := by
  rcases root with _ | current | rootSubdir
  · unfold syncName syncFile clearForFile placeFile syncSubdir clearForDir placeDir outcome
    rcases target with _ | target | targetSubdir
    · rfl
    · cases F.rmInFiles path <;> rfl
    · cases F.rmInDirs path <;> rfl
  · rcases target with _ | target | targetSubdir
    · unfold syncName syncFile clearForFile placeFile syncSubdir clearForDir placeDir outcome
      cases F.mv path <;> rfl
    · exact syncName_files E F sub path current target
    · unfold syncName syncFile clearForFile placeFile syncSubdir clearForDir placeDir outcome
      cases F.rmInFiles path <;> cases F.rmInDirs path <;> cases F.mv path <;> rfl
  · rcases target with _ | target | targetSubdir
    · unfold syncName syncFile clearForFile placeFile syncSubdir clearForDir placeDir outcome
      cases F.mv path <;> rfl
    · unfold syncName syncFile clearForFile placeFile syncSubdir clearForDir placeDir outcome
      cases F.rmInFiles path <;> cases F.rmInDirs path <;> cases F.mv path <;> rfl
    · rw [outcome]
      show ((((sub rootSubdir targetSubdir).map _).map _).map _).map _ = _
      cases sub rootSubdir targetSubdir <;> rfl

/-! ## Both passes -/

theorem mem_sortedNames {a b : List String} : name ∈ sortedNames a b ↔ name ∈ a ∨ name ∈ b := by
  unfold sortedNames
  rw [List.mem_insertionSort, List.mem_dedup, List.mem_append]

theorem nodup_sortedNames (a b : List String) : (sortedNames a b).Nodup :=
  (List.perm_insertionSort _ _).nodup_iff.2 (List.nodup_dedup _)

theorem mem_listChildren {kind : Item → Bool} {d : Dir} :
    name ∈ listChildren kind d ↔ listed name = true ∧ (d.find name).any kind = true := by
  unfold listChildren
  rw [List.mem_filter, Bool.and_eq_true]
  refine ⟨fun h => h.2, fun h => ⟨?_, h⟩⟩
  obtain ⟨item, hitem, -⟩ := (Option.any_eq_true _ _).1 h.2
  exact Entries.mem_names_of_find hitem

variable {root target : Dir}

/-- A name that is not skipped, before the passes. -/
theorem slot_start (h : listed name = true) :
    (Merge.start root target).slot name = .of (root.find name) (target.find name) := by
  have hmem : ∀ (kind : Item → Bool) (d : Dir),
      decide (name ∈ listChildren kind d) = (d.find name).any kind := fun kind d => by
    rw [Bool.eq_iff_iff, decide_eq_true_iff, mem_listChildren]
    simp [h]
  unfold Merge.slot Merge.start Slot.of
  simp only [hmem]

/-- The pass over the files leaves alone what is not a file on either side. -/
theorem syncFile_absent (E : Env) (F : Failing) (path : Path) (hroot : s.rootFile = false)
    (htarget : s.targetFile = false) : syncFile E F path s = (s, {}) := by
  simp [syncFile, clearForFile, placeFile, hroot, htarget, DiffResult.append]

/-- The pass over the directories leaves alone what is not a directory on either side. -/
theorem syncSubdir_absent (F : Failing) (sub : Dir → Dir → Option (Dir × Dir × DiffResult))
    (path : Path) (hroot : s.rootDir = false) (htarget : s.targetDir = false) :
    syncSubdir F sub path s = some (s, {}) := by
  simp [syncSubdir, clearForDir, placeDir, hroot, htarget, DiffResult.append]

/-- `sync_dir` on two directories is the two passes. -/
structure Passes (E : Env) (F : Failing) (depth : ℕ) (path : Path) (root target : Dir)
    (m m' : Merge) : Prop where
  files : pass Merge.slot Merge.set (fun name s => some (syncFile E F (path ++ [name]) s))
    (.start root target) (sortedNames (Merge.start root target).rootFiles
      (Merge.start root target).targetFiles) = some m
  dirs : pass Merge.slot Merge.set
    (fun name => syncSubdir F (syncDir E F depth (path ++ [name])) (path ++ [name])) m
    (sortedNames m.rootDirs m.targetDirs) = some m'

variable {depth : ℕ}

theorem syncDir_eq_some {E : Env} {r : Dir × Dir × DiffResult} :
    syncDir E F (depth + 1) path root target = some r ↔
      ∃ m m', Passes E F depth path root target m m' ∧ r = (m'.root, m'.target, m'.diff) := by
  rw [syncDir]
  simp only [Option.bind_eq_bind, Option.bind_eq_some_iff, Option.some.injEq]
  constructor
  · rintro ⟨m, hfiles, m', hdirs, rfl⟩
    exact ⟨m, m', ⟨hfiles, hdirs⟩, rfl⟩
  · rintro ⟨m, m', ⟨hfiles, hdirs⟩, rfl⟩
    exact ⟨m, hfiles, m', hdirs, rfl⟩

namespace Passes

variable {E : Env} {F : Failing} {depth : ℕ} {path : Path} {root target : Dir} {m m' : Merge}

/-- What the pass over the files leaves at a name. -/
theorem file_slot (h : pass Merge.slot Merge.set
      (fun name s => some (syncFile E F (path ++ [name]) s)) (.start root target)
      (sortedNames (Merge.start root target).rootFiles (Merge.start root target).targetFiles) =
        some m) (name : String) :
    m.slot name = (syncFile E F (path ++ [name]) ((Merge.start root target).slot name)).1 := by
  obtain ⟨hin, hout⟩ := pass_get (files_isLocal E F path) (nodup_sortedNames _ _) h name
  by_cases hmem : name ∈ sortedNames (Merge.start root target).rootFiles
      (Merge.start root target).targetFiles
  · obtain ⟨e, he⟩ := hin hmem
    rw [Option.some.inj he]
  · rw [hout hmem]
    rw [mem_sortedNames, not_or] at hmem
    rw [syncFile_absent E F _ (decide_eq_false hmem.1) (decide_eq_false hmem.2)]

/-- What the pass over the directories leaves at a name. -/
theorem dir_slot (h : Passes E F depth path root target m m') (name : String) :
    ∃ diff, syncSubdir F (syncDir E F depth (path ++ [name])) (path ++ [name]) (m.slot name) =
      some (m'.slot name, diff) := by
  obtain ⟨hin, hout⟩ := pass_get (dirs_isLocal F (syncDir E F depth) path) (nodup_sortedNames _ _)
    h.dirs name
  by_cases hmem : name ∈ sortedNames m.rootDirs m.targetDirs
  · exact hin hmem
  · rw [hout hmem]
    rw [mem_sortedNames, not_or] at hmem
    exact ⟨{}, syncSubdir_absent F _ _ (decide_eq_false hmem.1) (decide_eq_false hmem.2)⟩

end Passes

/-- **What the two passes leave at a name** that is not skipped. -/
theorem syncDir_name {E : Env} {root' target' : Dir}
    (h : syncDir E F (depth + 1) path root target = some (root', target', diff))
    (hname : listed name = true) :
    ∃ d, outcome E F (syncDir E F depth (path ++ [name])) (path ++ [name]) (root.find name)
      (target.find name) = some ((root'.find name, target'.find name), d) := by
  obtain ⟨m, m', hpasses, heq⟩ := syncDir_eq_some.1 h
  cases heq
  obtain ⟨d, hd⟩ := hpasses.dir_slot name
  rw [Passes.file_slot hpasses.files name, slot_start hname] at hd
  rw [← syncName_outcome]
  unfold syncName
  dsimp only
  rw [hd]
  exact ⟨_, rfl⟩

theorem not_mem_listChildren (h : listed name = false) (kind : Item → Bool) (d : Dir) :
    name ∉ listChildren kind d := by
  intro hmem
  rw [(mem_listChildren.1 hmem).1] at h
  cases h

/-- A skipped name is not touched by the pass over the files, and is in no listing after it. -/
theorem Passes.file_hidden {E : Env} {m : Merge} (h : pass Merge.slot Merge.set
      (fun name s => some (syncFile E F (path ++ [name]) s)) (.start root target)
      (sortedNames (Merge.start root target).rootFiles (Merge.start root target).targetFiles) =
        some m) (hname : listed name = false) :
    m.slot name = (Merge.start root target).slot name ∧ (m.slot name).rootDir = false ∧
      (m.slot name).targetDir = false := by
  have hnot := not_mem_listChildren hname
  have hslot := Passes.file_slot h name
  rw [syncFile_absent E F _ (decide_eq_false (hnot _ _)) (decide_eq_false (hnot _ _))] at hslot
  rw [hslot]
  exact ⟨rfl, decide_eq_false (hnot _ _), decide_eq_false (hnot _ _)⟩

/-! ## The recursion ends -/

theorem outcome_isSome (E : Env) (F : Failing) (path : Path) {root target : Option Item}
    (h : ∀ r t, root = some (.dir r) → target = some (.dir t) → (sub r t).isSome) :
    (outcome E F sub path root target).isSome := by
  rcases root with _ | current | rootSubdir
  · rcases target with _ | target | targetSubdir <;> rw [outcome] <;> (try split_ifs) <;> rfl
  · rcases target with _ | target | targetSubdir <;> rw [outcome] <;> (try split_ifs) <;> rfl
  · rcases target with _ | target | targetSubdir
    · rfl
    · rw [outcome]
      split_ifs <;> rfl
    · rw [outcome, Option.isSome_map]
      exact h rootSubdir targetSubdir rfl rfl

/-- **The recursion ends**: it never goes deeper than the source. -/
theorem syncDir_isSome (E : Env) (F : Failing) (path : Path) (target : Dir)
    (h : root.height < depth) : (syncDir E F depth path root target).isSome := by
  induction depth generalizing path root target with
  | zero => omega
  | succ depth ih =>
    obtain ⟨m, hm⟩ := pass_isSome (files_isLocal E F path) (nodup_sortedNames
      (Merge.start root target).rootFiles (Merge.start root target).targetFiles)
      (s := Merge.start root target) fun name _ => rfl
    obtain ⟨m', hm'⟩ := pass_isSome (dirs_isLocal F (syncDir E F depth) path)
      (nodup_sortedNames m.rootDirs m.targetDirs) (s := m) fun name hname => by
        by_cases hlisted : listed name = true
        · have hsub : ∀ r t, root.find name = some (.dir r) → target.find name = some (.dir t) →
              (syncDir E F depth (path ++ [name]) r t).isSome := fun r t hr _ => by
            have := Entries.height_lt_of_find hr
            exact ih (path ++ [name]) t (by omega)
          have hout := outcome_isSome E F (path ++ [name]) hsub
          rw [← syncName_outcome, Option.isSome_map, ← slot_start hlisted] at hout
          unfold syncName at hout
          rw [Option.isSome_map, ← Passes.file_slot hm name] at hout
          exact hout
        · obtain ⟨-, hroot, htarget⟩ := Passes.file_hidden hm (Bool.eq_false_iff.2 hlisted)
          rw [syncSubdir_absent F _ _ hroot htarget]
          rfl
    rw [syncDir_eq_some.2 ⟨m, m', ⟨hm, hm'⟩, rfl⟩]
    rfl

end OpenViking.Queue.TreeSync
