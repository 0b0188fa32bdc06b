import OpenViking.Common.System
import OpenViking.Ragfs.MemPaths

/-!
# The in-memory file system as a tree

The entries of `MemFileSystem` are one map from paths, and nothing but the checks of its calls makes a tree
of them.  The check of `rename` and `remove_all` (`memfs/mod.rs`, 223-244 and 378-436) does not look at
whether the new path lies below the old one, nor at whether the path is the root: a directory moved below
itself leaves an entry without a parent, and removing all of `/` removes `/` and leaves what is below it.

Results:

* `Wf.set`, `Wf.erase`, `Wf.removeAll`, `Wf.rename`: what each call keeps;
* `keepsTree_iff`: the runs in which the entries are a tree throughout.
-/

namespace OpenViking.Ragfs

namespace MemFileSystem

/-! ## Trees -/

/-- A normalised absolute path. -/
def Normalised (path : Path) : Prop :=
  ∃ parts : List Path, (∀ part ∈ parts, IsComponent part) ∧ path = dirPath parts

/-- A key is at a path or under it. -/
def AtOrUnder (path k : Path) : Prop := k = path ∨ prefixOf path <+: k

instance (path k : Path) : Decidable (AtOrUnder path k) :=
  inferInstanceAs (Decidable (k = path ∨ prefixOf path <+: k))

/-- There is a directory at a path. -/
def HasDir (fs : MemFileSystem) (path : Path) : Prop :=
  ∃ entry, fs.get path = some entry ∧ entry.isDir = true

/-- `/` is a directory, and the parent of every other entry is one. -/
structure IsTree (fs : MemFileSystem) : Prop where
  root : HasDir fs ['/']
  parent : ∀ path, path ≠ ['/'] → (fs.get path).isSome = true →
    ∃ p, parentPath path = some p ∧ HasDir fs p

/-- Where an entry at or under a path is after the path is renamed. -/
def movedKey (old new k : Path) : Path := if k = old then new else movedPath old new k

/-- What a call does to the entries, for the two calls that work on whole subtrees. -/
def Exact (fs : MemFileSystem) : Call → Prop
  | .removeAll path => ∀ k, (removeAll path fs).2.get k =
      if AtOrUnder (normalizePath path) k then none else fs.get k
  | .rename oldPath newPath => (rename oldPath newPath fs).1 = .ok () →
      ∀ k, (rename oldPath newPath fs).2.get k =
        if AtOrUnder (normalizePath newPath) k then
          fs.get (movedKey (normalizePath newPath) (normalizePath oldPath) k)
        else if AtOrUnder (normalizePath oldPath) k then none
        else fs.get k
  | _ => True

/-- The file system after a call. -/
def after (fs : MemFileSystem) (call : Call) : MemFileSystem := (exec call fs).2

/-- The entries are a tree before and after every call of a run, and every call is exact. -/
def KeepsTree : MemFileSystem → List Call → Prop
  | fs, [] => IsTree fs
  | fs, call :: calls => IsTree fs ∧ Exact fs call ∧ KeepsTree (fs.after call) calls

/-- The root is not removed, and what passes the checks of `rename` is not moved below itself. -/
def Safe (fs : MemFileSystem) : Call → Prop
  | .removeAll path => normalizePath path ≠ ['/']
  | .rename oldPath newPath =>
    Renamable fs (normalizePath oldPath) (normalizePath newPath) →
      ¬ AtOrUnder (normalizePath oldPath) (normalizePath newPath)
  | _ => True

/-- The paths of a call. -/
def callPaths : Call → List Path
  | .create path => [path]
  | .mkdir path _ => [path]
  | .remove path => [path]
  | .removeAll path => [path]
  | .read path _ _ => [path]
  | .write path _ _ _ => [path]
  | .readDir path => [path]
  | .stat path => [path]
  | .rename oldPath newPath => [oldPath, newPath]
  | .replace srcPath dstPath => [srcPath, dstPath]
  | .truncate path _ => [path]

/-! ## Paths and their components -/

section Paths

variable {parts more rest : List Path} {part : Path}

theorem prefixOf_dirPath (hparts : ∀ part ∈ parts, IsComponent part) :
    prefixOf (dirPath parts) = absolute parts ++ ['/'] := by
  unfold dirPath prefixOf
  by_cases h : parts = []
  · rw [if_pos h, if_pos rfl, h]
    rfl
  · rw [if_neg h, if_neg]
    intro heq
    have := getLast?_absolute h hparts
    rw [heq] at this
    exact this rfl

theorem dirPath_of_ne_nil (h : parts ≠ []) : dirPath parts = absolute parts := if_neg h

theorem normalizePath_dirPath (hparts : ∀ part ∈ parts, IsComponent part) :
    normalizePath (dirPath parts) = dirPath parts := by
  by_cases h : parts = []
  · rw [h]
    rfl
  · rw [dirPath_of_ne_nil h, normalizePath_absolute h hparts]

theorem dirPath_ne_root (h : parts ≠ []) (hparts : ∀ part ∈ parts, IsComponent part) :
    dirPath parts ≠ ['/'] := by
  rw [dirPath_of_ne_nil h]
  intro heq
  have := getLast?_absolute h hparts
  rw [heq] at this
  exact this rfl

section

variable (hparts : ∀ part ∈ parts, IsComponent part)

include hparts

section

variable (hmore : ∀ part ∈ more, IsComponent part)

include hmore

/-- A longer path below another. -/
theorem prefixOf_dirPath_iff (hne : more ≠ []) :
    prefixOf (dirPath parts) <+: dirPath more ↔ ∃ rest, rest ≠ [] ∧ more = parts ++ rest := by
  rw [prefixOf_dirPath hparts, dirPath_of_ne_nil hne]
  constructor
  · rintro ⟨t, ht⟩
    have hsplit := splitOn_absolute fun p hp => (hmore p hp).2
    rw [← ht, List.append_assoc, List.singleton_append, List.splitOn_append_cons_self,
      splitOn_absolute fun p hp => (hparts p hp).2, List.cons_append] at hsplit
    exact ⟨t.splitOn '/', List.splitOn_ne_nil _ _, (List.cons.inj hsplit).2.symm⟩
  · rintro ⟨rest, hrest, rfl⟩
    obtain ⟨first, rest, rfl⟩ := List.exists_cons_of_ne_nil hrest
    rw [absolute_append, absolute_cons]
    exact ⟨first ++ absolute rest, by simp⟩

theorem dirPath_inj
    (h : dirPath parts = dirPath more) : parts = more := by
  by_cases hp : parts = []
  · by_cases hm : more = []
    · rw [hp, hm]
    · exact absurd (by rw [← h, hp]; rfl) (dirPath_ne_root hm hmore)
  · by_cases hm : more = []
    · exact absurd (by rw [h, hm]; rfl) (dirPath_ne_root hp hparts)
    · rw [dirPath_of_ne_nil hp, dirPath_of_ne_nil hm] at h
      have hsplit := splitOn_absolute fun p hp => (hparts p hp).2
      rw [h, splitOn_absolute fun p hp => (hmore p hp).2] at hsplit
      exact (List.cons.inj hsplit).2.symm

theorem atOrUnder_dirPath_iff :
    AtOrUnder (dirPath parts) (dirPath more) ↔ parts <+: more := by
  unfold AtOrUnder
  by_cases hm : more = []
  · subst hm
    constructor
    · rintro (h | h)
      · rw [dirPath_inj (fun _ h => by cases h) hparts h]
      · rw [prefixOf_dirPath hparts] at h
        have hlen := h.length_le
        rw [List.length_append] at hlen
        have hnil : absolute parts = [] := List.length_eq_zero_iff.1 (by simpa [dirPath] using hlen)
        cases parts with
        | nil => exact List.nil_prefix
        | cons part parts => rw [absolute_cons] at hnil; cases hnil
    · intro h
      rw [List.prefix_nil.1 h]
      exact .inl rfl
  · rw [prefixOf_dirPath_iff hparts hmore hm]
    constructor
    · rintro (h | ⟨rest, -, rfl⟩)
      · rw [dirPath_inj hmore hparts h]
      · exact List.prefix_append _ _
    · rintro ⟨rest, rfl⟩
      by_cases hrest : rest = []
      · rw [hrest, List.append_nil]
        exact .inl rfl
      · exact .inr ⟨rest, hrest, rfl⟩

theorem movedPath_dirPath (hrest : rest ≠ []) :
    movedPath (dirPath parts) (dirPath more) (dirPath (parts ++ rest)) = dirPath (more ++ rest) := by
  obtain ⟨first, rest, rfl⟩ := List.exists_cons_of_ne_nil hrest
  have hcut : absolute parts ++ '/' :: (first ++ absolute rest) =
      absolute parts ++ ['/'] ++ (first ++ absolute rest) := by simp
  rw [movedPath, prefixOf_dirPath hparts, prefixOf_dirPath hmore, dirPath_of_ne_nil (by simp),
    dirPath_of_ne_nil (by simp), absolute_append, absolute_append, absolute_cons, hcut, List.drop_left]
  simp

end

theorem parentPath_dirPath (hpart : IsComponent part) :
    parentPath (dirPath (parts ++ [part])) = some (dirPath parts) := by
  rw [dirPath_of_ne_nil (by simp), parentPath_absolute hparts hpart]

theorem isComponent_append
    (hrest : ∀ part ∈ rest, IsComponent part) : ∀ part ∈ parts ++ rest, IsComponent part :=
  fun p hp => (List.mem_append.1 hp).elim (hparts p) (hrest p)

end

end Paths

/-! ## What the calls keep -/

/-- A tree whose keys are normalised. -/
structure Wf (fs : MemFileSystem) : Prop extends IsTree fs where
  keys : ∀ path, (fs.get path).isSome = true → Normalised path

section Calls

variable {fs : MemFileSystem} {path : Path}

theorem HasDir.isSome (h : HasDir fs path) : (fs.get path).isSome = true := by
  obtain ⟨entry, hget, -⟩ := h
  rw [hget]
  rfl

variable {p k : Path}

theorem HasDir.ne (h : HasDir fs p)
    (hpath : ∀ entry, fs.get path = some entry → entry.isDir = false) : p ≠ path := by
  rintro rfl
  obtain ⟨entry, hget, hdir⟩ := h
  rw [hpath entry hget] at hdir
  cases hdir

/-- What the check of a parent finds. -/
theorem checkParent_ok (h : checkParent fs path = .ok ()) :
    path = ['/'] ∨ ∃ p, parentPath path = some p ∧ HasDir fs p := by
  unfold checkParent at h
  cases hparent : parentPath path with
  | none =>
    left
    unfold parentPath at hparent
    dsimp only at hparent
    split_ifs at hparent with hroot
    exact hroot
  | some p =>
    rw [hparent] at h
    dsimp only at h
    cases hget : fs.get p with
    | none =>
      rw [hget] at h
      cases h
    | some entry =>
      rw [hget] at h
      dsimp only at h
      split_ifs at h with hdir
      exact .inr ⟨p, rfl, entry, hget, hdir⟩

theorem checkParent_of_hasDir (hparent : parentPath path = some p) (h : HasDir fs p) :
    checkParent fs path = .ok () := by
  obtain ⟨entry, hget, hdir⟩ := h
  rw [checkParent, hparent]
  dsimp only
  rw [hget]
  exact if_pos hdir

theorem Wf.new : Wf MemFileSystem.new := by
  have hget : ∀ k, MemFileSystem.new.get k = if k = ['/'] then some (FileEntry.newDir 0o755) else none :=
    fun k => by rw [MemFileSystem.new, Dict.get_set, Dict.get_empty]
  refine ⟨⟨⟨FileEntry.newDir 0o755, by rw [hget, if_pos rfl], rfl⟩, ?_⟩, ?_⟩
  · intro path hne h
    rw [hget, if_neg hne] at h
    cases h
  · intro path h
    rw [hget] at h
    split_ifs at h with hroot
    · exact ⟨[], ⟨fun _ hmem => (List.not_mem_nil hmem).elim, hroot⟩⟩
    · cases h

/-- Everything above an entry is a directory. -/
theorem Wf.above (h : Wf fs) {parts rest : List Path} (hrest : rest ≠ [])
    (hparts : ∀ part ∈ parts ++ rest, IsComponent part)
    (hget : (fs.get (dirPath (parts ++ rest))).isSome = true) : HasDir fs (dirPath parts) := by
  induction rest using List.reverseRecOn with
  | nil => exact absurd rfl hrest
  | append_singleton rest part ih =>
    rw [← List.append_assoc] at hget hparts
    have hinit : ∀ p ∈ parts ++ rest, IsComponent p := fun p hp => hparts p (List.mem_append_left _ hp)
    obtain ⟨p, hp, hdir⟩ := h.parent _ (dirPath_ne_root (by simp) hparts) hget
    rw [parentPath_dirPath hinit (hparts part (by simp))] at hp
    obtain rfl := Option.some.inj hp
    by_cases hnil : rest = []
    · rwa [hnil, List.append_nil] at hdir
    · exact ih hnil hinit hdir.isSome

/-- An entry is put where a file is or its parent is a directory. -/
theorem Wf.set (h : Wf fs) (hpath : Normalised path) (entry : FileEntry)
    (hparent : checkParent fs path = .ok () ∨ (fs.get path).isSome = true)
    (hfile : ∀ entry, fs.get path = some entry → entry.isDir = false) : Wf (fs.set path entry) := by
  have hkeep : ∀ p, HasDir fs p → HasDir (fs.set path entry) p := by
    rintro p hp
    obtain ⟨old, hget, hdir⟩ := hp
    have hne : p ≠ path := HasDir.ne ⟨old, hget, hdir⟩ hfile
    exact ⟨old, by rw [Dict.get_set, if_neg hne, hget], hdir⟩
  have hroot : path ≠ ['/'] := (h.root.ne hfile).symm
  refine ⟨⟨hkeep _ h.root, fun k hk hget => ?_⟩, fun k hget => ?_⟩
  · have hp : ∃ p, parentPath k = some p ∧ HasDir fs p := by
      by_cases hkp : k = path
      · subst hkp
        rcases hparent with hparent | hthere
        · exact (checkParent_ok hparent).resolve_left hroot
        · exact h.parent k hk hthere
      · rw [Dict.get_set, if_neg hkp] at hget
        exact h.parent k hk hget
    obtain ⟨p, hp, hdir⟩ := hp
    exact ⟨p, hp, hkeep p hdir⟩
  · by_cases hkp : k = path
    · rw [hkp]
      exact hpath
    · rw [Dict.get_set, if_neg hkp] at hget
      exact h.keys k hget

theorem HasDir.erase (h : HasDir fs p)
    (hfile : ∀ entry, fs.get path = some entry → entry.isDir = false) : HasDir (fs.erase path) p := by
  have hne := h.ne hfile
  obtain ⟨entry, hget, hdir⟩ := h
  exact ⟨entry, by rw [Dict.get_erase, if_neg hne, hget], hdir⟩

/-- A file is taken out. -/
theorem Wf.erase (h : Wf fs) (hfile : ∀ entry, fs.get path = some entry → entry.isDir = false) :
    Wf (fs.erase path) := by
  have hold : ∀ k, ((fs.erase path).get k).isSome = true → (fs.get k).isSome = true := by
    intro k hget
    rw [Dict.get_erase] at hget
    split_ifs at hget
    · cases hget
    · exact hget
  refine ⟨⟨h.root.erase hfile, fun k hk hget => ?_⟩, fun k hget => h.keys k (hold k hget)⟩
  obtain ⟨p, hp, hdir⟩ := h.parent k hk (hold k hget)
  exact ⟨p, hp, hdir.erase hfile⟩

theorem get_removeAll (hpath : (fs.get (normalizePath path)).isSome = true) (k : Path) :
    (removeAll path fs).2.get k =
      if k = normalizePath path ∨ normalizePath path ++ ['/'] <+: k then none else fs.get k := by
  have hthere : fs.contains (normalizePath path) = true := hpath
  unfold removeAll
  dsimp only
  rw [if_pos hthere, Dict.get_filter]
  by_cases h : k = normalizePath path ∨ normalizePath path ++ ['/'] <+: k
  · rw [if_pos h]
    cases fs.get k with
    | none => rfl
    | some entry => exact if_neg (by simp [h])
  · rw [if_neg h]
    cases fs.get k with
    | none => rfl
    | some entry => exact if_pos (by simp [h])

variable {parts : List Path}

/-- What is at or under an entry is there only when the entry is. -/
theorem Wf.get_of_atOrUnder (h : Wf fs) (hparts : ∀ part ∈ parts, IsComponent part)
    (hk : AtOrUnder (dirPath parts) k) (hget : (fs.get k).isSome = true) :
    ∃ rest, (∀ part ∈ rest, IsComponent part) ∧ k = dirPath (parts ++ rest) := by
  obtain ⟨more, hmore, rfl⟩ := h.keys k hget
  obtain ⟨rest, rfl⟩ := (atOrUnder_dirPath_iff hparts hmore).1 hk
  exact ⟨rest, fun p hp => hmore p (List.mem_append_right _ hp), rfl⟩

theorem Wf.isSome_of_atOrUnder (h : Wf fs)
    (hparts : ∀ part ∈ parts, IsComponent part) (hk : AtOrUnder (dirPath parts) k)
    (hget : (fs.get k).isSome = true) : (fs.get (dirPath parts)).isSome = true := by
  obtain ⟨rest, hrest, rfl⟩ := h.get_of_atOrUnder hparts hk hget
  by_cases hnil : rest = []
  · rwa [hnil, List.append_nil] at hget
  · exact (h.above hnil (isComponent_append hparts hrest) hget).isSome

/-- The entries that pass a check which every directory above one of them passes. -/
theorem Wf.restrict (h : Wf fs) {fs' : MemFileSystem} (keep : Path → Prop) [DecidablePred keep]
    (hget : ∀ k, fs'.get k = if keep k then fs.get k else none) (hroot : keep ['/'])
    (habove : ∀ k p, keep k → (fs.get k).isSome = true → parentPath k = some p → keep p) : Wf fs' := by
  have hdirs : ∀ p, keep p → HasDir fs p → HasDir fs' p := fun p hp ⟨entry, hentry, hdir⟩ =>
    ⟨entry, by rw [hget, if_pos hp, hentry], hdir⟩
  have hold : ∀ k, (fs'.get k).isSome = true → keep k ∧ (fs.get k).isSome = true := by
    intro k hk
    rw [hget] at hk
    split_ifs at hk with hkeep
    · exact ⟨hkeep, hk⟩
    · cases hk
  refine ⟨⟨hdirs _ hroot h.root, fun k hk hk' => ?_⟩, fun k hk => h.keys k (hold k hk).2⟩
  obtain ⟨hkeep, hthere⟩ := hold k hk'
  obtain ⟨p, hp, hdir⟩ := h.parent k hk hthere
  exact ⟨p, hp, hdirs p (habove k p hkeep hthere hp) hdir⟩

theorem Wf.removeAll_exact (h : Wf fs) (hpath : Normalised path) (hroot : path ≠ ['/']) (k : Path) :
    (removeAll path fs).2.get k = if AtOrUnder path k then none else fs.get k := by
  obtain ⟨parts, hparts, rfl⟩ := hpath
  have hnorm := normalizePath_dirPath hparts
  by_cases hthere : (fs.get (dirPath parts)).isSome = true
  · have hunder : AtOrUnder (dirPath parts) k ↔
        k = dirPath parts ∨ dirPath parts ++ ['/'] <+: k := by
      unfold AtOrUnder prefixOf
      rw [if_neg hroot]
    rw [get_removeAll (by rwa [hnorm]), hnorm]
    exact if_congr hunder.symm rfl rfl
  · have hsame : (removeAll (dirPath parts) fs).2 = fs := by
      unfold removeAll
      dsimp only
      rw [hnorm]
      exact congrArg Prod.snd (if_neg hthere)
    rw [hsame]
    split_ifs with hk
    · by_contra hne
      exact hthere (h.isSome_of_atOrUnder hparts hk (Option.ne_none_iff_isSome.1 hne))
    · rfl

theorem Wf.removeAll (h : Wf fs) (hpath : Normalised path) (hroot : path ≠ ['/']) :
    Wf (removeAll path fs).2 := by
  have hexact := h.removeAll_exact hpath hroot
  obtain ⟨parts, hparts, rfl⟩ := hpath
  refine h.restrict (fun k => ¬ AtOrUnder (dirPath parts) k) (fun k => by rw [hexact, ite_not]) ?_ ?_
  · intro hunder
    have : parts <+: [] := (atOrUnder_dirPath_iff hparts fun _ hp => (List.not_mem_nil hp).elim).1 hunder
    rw [List.prefix_nil.1 this] at hroot
    exact hroot rfl
  · intro k p hk hget hp hunder
    obtain ⟨more, hmore, rfl⟩ := h.keys k hget
    by_cases hnil : more = []
    · rw [hnil] at hp
      cases hp
    · rw [← List.dropLast_concat_getLast hnil] at hmore hp
      have hinit : ∀ part ∈ more.dropLast, IsComponent part := fun part hpart =>
        hmore part (List.mem_append_left _ hpart)
      rw [parentPath_dirPath hinit (hmore _ (by simp))] at hp
      obtain rfl := Option.some.inj hp
      rw [List.dropLast_concat_getLast hnil] at hmore
      refine hk ((atOrUnder_dirPath_iff hparts hmore).2 ?_)
      exact ((atOrUnder_dirPath_iff hparts hinit).1 hunder).trans (List.dropLast_prefix more)

/-! ## Renaming -/

/-- What a renaming leaves elsewhere. -/
theorem renamed_elsewhere {old new : Path} (hk : ¬ AtOrUnder new k) :
    renamed fs old new k = if AtOrUnder old k then none else fs.get k := by
  unfold renamed
  rw [if_neg (fun h => hk (.inr h.1)), if_neg (fun h => hk (.inl h))]
  rfl

/-- Nothing is under a path that is free. -/
theorem Wf.free_under (h : Wf fs) {parts rest : List Path} (hparts : ∀ part ∈ parts, IsComponent part)
    (hfree : fs.get (dirPath parts) = none) (hrest : ∀ part ∈ rest, IsComponent part) :
    fs.get (dirPath (parts ++ rest)) = none := by
  by_contra hsome
  have hthere := h.isSome_of_atOrUnder hparts ((atOrUnder_dirPath_iff hparts
    (isComponent_append hparts hrest)).2 (List.prefix_append _ _)) (Option.ne_none_iff_isSome.1 hsome)
  rw [hfree] at hthere
  cases hthere

/-- The root is not free. -/
theorem Wf.ne_nil (h : Wf fs) (hfree : fs.get (dirPath parts) = none) : parts ≠ [] := by
  rintro rfl
  have hroot : (fs.get (dirPath [])).isSome = true := h.root.isSome
  rw [hfree] at hroot
  cases hroot

section Rename

variable {old new : List Path}

theorem movedKey_dirPath (hold : ∀ part ∈ old, IsComponent part)
    (hnew : ∀ part ∈ new, IsComponent part) {rest : List Path} (hrest : ∀ part ∈ rest, IsComponent part) :
    movedKey (dirPath old) (dirPath new) (dirPath (old ++ rest)) = dirPath (new ++ rest) := by
  unfold movedKey
  by_cases hnil : rest = []
  · rw [hnil, List.append_nil, List.append_nil, if_pos rfl]
  · rw [if_neg, movedPath_dirPath hold hnew hnil]
    intro heq
    exact hnil (List.append_right_eq_self.1 (dirPath_inj (isComponent_append hold hrest) hold heq))

/-- What a renaming leaves under the new path. -/
theorem renamed_under (hold : ∀ part ∈ old, IsComponent part)
    (hnew : ∀ part ∈ new, IsComponent part) (hne : new ≠ [])
    {rest : List Path} (hrest : ∀ part ∈ rest, IsComponent part)
    (hfree : fs.get (dirPath (new ++ rest)) = none) :
    renamed fs (dirPath old) (dirPath new) (dirPath (new ++ rest)) =
      fs.get (dirPath (old ++ rest)) := by
  have hall := isComponent_append hnew hrest
  unfold renamed
  by_cases hnil : rest = []
  · subst hnil
    rw [List.append_nil, List.append_nil, if_neg, if_pos rfl]
    rintro ⟨hpre, -⟩
    obtain ⟨rest, hrest, heq⟩ := (prefixOf_dirPath_iff hnew hnew hne).1 hpre
    exact hrest (List.append_right_eq_self.1 heq.symm)
  · have hpre : prefixOf (dirPath new) <+: dirPath (new ++ rest) :=
      (prefixOf_dirPath_iff hnew hall (by simp [hne])).2 ⟨rest, hnil, rfl⟩
    have hmoved : movedPath (dirPath new) (dirPath old) (dirPath (new ++ rest)) =
        dirPath (old ++ rest) := movedPath_dirPath hnew hold hnil
    have hother : dirPath (old ++ rest) ≠ dirPath old := fun heq =>
      hnil (List.append_right_eq_self.1 (dirPath_inj (isComponent_append hold hrest) hold heq))
    rw [hmoved]
    by_cases hget : (fs.get (dirPath (old ++ rest))).isSome = true
    · rw [if_pos ⟨hpre, hother, hget⟩]
    · rw [if_neg (fun h => hget h.2.2), if_neg, Option.not_isSome_iff_eq_none.1 hget, hfree, ite_self]
      intro heq
      exact hnil (List.append_right_eq_self.1 (dirPath_inj hall hnew heq))

/-- A key under the new path, or no entry is there or where it comes from. -/
theorem Wf.under_cases (h : Wf fs) (hold : ∀ part ∈ old, IsComponent part)
    (hnew : ∀ part ∈ new, IsComponent part) (hne : old ≠ []) {k : Path} (hk : AtOrUnder (dirPath new) k) :
    (∃ rest, (∀ part ∈ rest, IsComponent part) ∧ k = dirPath (new ++ rest)) ∨
      k ≠ dirPath new ∧ fs.get k = none ∧ fs.get (movedPath (dirPath new) (dirPath old) k) = none := by
  by_cases hkn : k = dirPath new
  · exact .inl ⟨[], fun _ hp => (List.not_mem_nil hp).elim, by rw [List.append_nil]; exact hkn⟩
  by_cases hget : (fs.get k).isSome = true
  · exact .inl (h.get_of_atOrUnder hnew hk hget)
  by_cases hmoved : (fs.get (movedPath (dirPath new) (dirPath old) k)).isSome = true
  · have hpre := hk.resolve_left hkn
    obtain ⟨rest, hrest, heq⟩ :=
      h.get_of_atOrUnder hold (.inr (prefixOf_prefix_movedPath k)) hmoved
    have hnil : rest ≠ [] := by
      rintro rfl
      have hlen := congrArg List.length heq
      rw [List.append_nil, movedPath, prefixOf_dirPath hold, dirPath_of_ne_nil hne] at hlen
      simp at hlen
    exact .inl ⟨rest, hrest, by rw [← movedPath_movedPath hpre, heq, movedPath_dirPath hold hnew hnil]⟩
  · exact .inr ⟨hkn, Option.not_isSome_iff_eq_none.1 hget, Option.not_isSome_iff_eq_none.1 hmoved⟩

/-- **What a renaming that is not below itself leaves.** -/
theorem Wf.renamed_exact (h : Wf fs) (hold : ∀ part ∈ old, IsComponent part)
    (hnew : ∀ part ∈ new, IsComponent part)
    (hr : Renamable fs (dirPath old) (dirPath new)) (hsafe : ¬ old <+: new) (k : Path) :
    renamed fs (dirPath old) (dirPath new) k =
      if AtOrUnder (dirPath new) k then fs.get (movedKey (dirPath new) (dirPath old) k)
      else if AtOrUnder (dirPath old) k then none
      else fs.get k := by
  have hone : old ≠ [] := fun hnil => hsafe (hnil ▸ List.nil_prefix)
  have hne := h.ne_nil hr.fresh
  by_cases hk : AtOrUnder (dirPath new) k
  · rw [if_pos hk]
    rcases h.under_cases hold hnew hone hk with ⟨rest, hrest, rfl⟩ | ⟨hkn, hnone, hmoved⟩
    · rw [movedKey_dirPath hnew hold hrest,
        renamed_under hold hnew hne hrest (h.free_under hnew hr.fresh hrest)]
    · unfold renamed movedKey
      rw [if_neg hkn, if_neg (fun hh => by rw [hmoved] at hh; cases hh.2.2), if_neg hkn, hmoved, hnone,
        ite_self]
  · rw [if_neg hk]
    exact renamed_elsewhere hk

theorem Wf.rename (h : Wf fs) (hold : ∀ part ∈ old, IsComponent part) (hnew : ∀ part ∈ new, IsComponent part)
    (hr : Renamable fs (dirPath old) (dirPath new)) (hsafe : ¬ old <+: new) {fs' : MemFileSystem}
    (hget : ∀ k, fs'.get k = renamed fs (dirPath old) (dirPath new) k) : Wf fs' := by
  have hexact := fun k => (hget k).trans (h.renamed_exact hold hnew hr hsafe k)
  have hone : old ≠ [] := fun hnil => hsafe (hnil ▸ List.nil_prefix)
  have hne := h.ne_nil hr.fresh
  have hnil : ∀ part ∈ ([] : List Path), IsComponent part := fun _ hp => (List.not_mem_nil hp).elim
  -- a directory that is under neither path stays
  have hkeep : ∀ parts, (∀ part ∈ parts, IsComponent part) → ¬ old <+: parts → ¬ new <+: parts →
      HasDir fs (dirPath parts) → HasDir fs' (dirPath parts) := by
    rintro parts hparts hold' hnew' ⟨entry, hentry, hdir⟩
    refine ⟨entry, ?_, hdir⟩
    rw [hexact, if_neg (fun hu => hnew' ((atOrUnder_dirPath_iff hnew hparts).1 hu)),
      if_neg (fun hu => hold' ((atOrUnder_dirPath_iff hold hparts).1 hu)), hentry]
  have hmoved : ∀ rest, (∀ part ∈ rest, IsComponent part) →
      fs'.get (dirPath (new ++ rest)) = fs.get (dirPath (old ++ rest)) := by
    intro rest hrest
    rw [hget, renamed_under hold hnew hne hrest (h.free_under hnew hr.fresh hrest)]
  have hroot : HasDir fs' ['/'] :=
    hkeep [] hnil (fun hp => hone (List.prefix_nil.1 hp)) (fun hp => hne (List.prefix_nil.1 hp)) h.root
  -- every entry is under the new path, or was there before and is under neither
  have hcases : ∀ k, (fs'.get k).isSome = true →
      (∃ rest, (∀ part ∈ rest, IsComponent part) ∧ k = dirPath (new ++ rest)) ∨
        (fs.get k).isSome = true ∧ ¬ AtOrUnder (dirPath old) k ∧ ¬ AtOrUnder (dirPath new) k := by
    intro k hk
    by_cases hnu : AtOrUnder (dirPath new) k
    · rcases h.under_cases hold hnew hone hnu with hrest | ⟨hkn, hnone, hm⟩
      · exact .inl hrest
      · rw [hexact, if_pos hnu, movedKey, if_neg hkn, hm] at hk
        cases hk
    · rw [hexact, if_neg hnu] at hk
      split_ifs at hk with hou
      · cases hk
      · exact .inr ⟨hk, hou, hnu⟩
  refine ⟨⟨hroot, fun k hkr hk => ?_⟩, fun k hk => ?_⟩
  · rcases hcases k hk with ⟨rest, hrest, rfl⟩ | ⟨hthere, hou, hnu⟩
    · rw [hmoved rest hrest] at hk
      by_cases hend : rest = []
      · subst hend
        rw [List.append_nil] at hkr ⊢
        obtain ⟨p, hp, hdir⟩ := (checkParent_ok hr.parent).resolve_left hkr
        refine ⟨p, hp, ?_⟩
        rw [← List.dropLast_concat_getLast hne] at hnew hp
        have hinit : ∀ part ∈ new.dropLast, IsComponent part := fun part hpart =>
          hnew part (List.mem_append_left _ hpart)
        rw [parentPath_dirPath hinit (hnew _ (by simp))] at hp
        obtain rfl := Option.some.inj hp
        refine hkeep new.dropLast hinit ?_ ?_ hdir
        · exact fun hpre => hsafe (hpre.trans (List.dropLast_prefix new))
        · intro hpre
          have := hpre.length_le
          rw [List.length_dropLast] at this
          have := List.length_pos_of_ne_nil hne
          omega
      · rw [← List.dropLast_concat_getLast hend] at hrest hk ⊢
        have hinit : ∀ part ∈ rest.dropLast, IsComponent part := fun part hpart =>
          hrest part (List.mem_append_left _ hpart)
        rw [← List.append_assoc] at hk ⊢
        refine ⟨_, parentPath_dirPath (isComponent_append hnew hinit) (hrest _ (by simp)), ?_⟩
        obtain ⟨entry, hentry, hdir⟩ := h.above (List.cons_ne_nil _ _)
          (fun part hpart => by
            rw [List.append_assoc] at hpart
            exact isComponent_append hold hrest part hpart) hk
        exact ⟨entry, by rw [hmoved _ hinit, hentry], hdir⟩
    · obtain ⟨parts, hparts, rfl⟩ := h.keys k hthere
      obtain ⟨p, hp, hdir⟩ := h.parent _ hkr hthere
      refine ⟨p, hp, ?_⟩
      have hend : parts ≠ [] := by
        rintro rfl
        exact hkr rfl
      rw [atOrUnder_dirPath_iff hold hparts] at hou
      rw [atOrUnder_dirPath_iff hnew hparts] at hnu
      have hlast := List.dropLast_concat_getLast hend
      have hinit : ∀ part ∈ parts.dropLast, IsComponent part := fun part hpart =>
        hparts part (List.dropLast_subset _ hpart)
      rw [← hlast, parentPath_dirPath hinit (hparts _ (List.getLast_mem hend))] at hp
      obtain rfl := Option.some.inj hp
      exact hkeep parts.dropLast hinit (fun hpre => hou (hpre.trans (List.dropLast_prefix parts)))
        (fun hpre => hnu (hpre.trans (List.dropLast_prefix parts))) hdir
  · rcases hcases k hk with ⟨rest, hrest, rfl⟩ | ⟨hthere, -, -⟩
    · exact ⟨_, isComponent_append hnew hrest, rfl⟩
    · exact h.keys k hthere

/-- A directory moved below itself is left without a parent. -/
theorem Wf.not_isTree_rename (h : Wf fs) (hold : ∀ part ∈ old, IsComponent part)
    (hnew : ∀ part ∈ new, IsComponent part) (hr : Renamable fs (dirPath old) (dirPath new))
    (hbelow : old <+: new) {fs' : MemFileSystem}
    (hget : ∀ k, fs'.get k = renamed fs (dirPath old) (dirPath new) k) : ¬ IsTree fs' := by
  intro htree
  have hne := h.ne_nil hr.fresh
  have hlast := List.dropLast_concat_getLast hne
  have hinit : ∀ part ∈ new.dropLast, IsComponent part := fun part hpart =>
    hnew part (List.dropLast_subset _ hpart)
  have hthere : (fs'.get (dirPath new)).isSome = true := by
    have hfree : fs.get (dirPath (new ++ [])) = none := by
      rw [List.append_nil]
      exact hr.fresh
    have hmoved := renamed_under hold hnew hne (fun _ hp => (List.not_mem_nil hp).elim) hfree
    rw [List.append_nil, List.append_nil] at hmoved
    rw [hget, hmoved]
    exact hr.source
  obtain ⟨p, hp, hdir⟩ := htree.parent _ (dirPath_ne_root hne hnew) hthere
  rw [← hlast, parentPath_dirPath hinit (hnew _ (List.getLast_mem hne))] at hp
  obtain rfl := Option.some.inj hp
  have habove : old <+: new.dropLast := by
    obtain ⟨rest, rfl⟩ := hbelow
    have hrest : rest ≠ [] := by
      rintro rfl
      have hsource := hr.source
      have hfresh := hr.fresh
      rw [List.append_nil] at hfresh
      rw [hfresh] at hsource
      cases hsource
    rw [List.dropLast_append_of_ne_nil hrest]
    exact List.prefix_append _ _
  have hnone : fs'.get (dirPath new.dropLast) = none := by
    rw [hget, renamed_elsewhere, if_pos ((atOrUnder_dirPath_iff hold hinit).2 habove)]
    rw [atOrUnder_dirPath_iff hnew hinit]
    intro hpre
    have hlen := hpre.length_le
    have hpos := List.length_pos_of_ne_nil hne
    rw [List.length_dropLast] at hlen
    omega
  have hsome := hdir.isSome
  rw [hnone] at hsome
  cases hsome

end Rename

/-! ## Runs -/

section

variable (h : Wf fs)

include h

theorem Wf.insertNew (hpath : Normalised path) (entry : FileEntry) : Wf (insertNew path entry fs).2 := by
  obtain ⟨parts, hparts, rfl⟩ := hpath
  have hnorm := normalizePath_dirPath hparts
  unfold MemFileSystem.insertNew
  dsimp only
  rw [hnorm]
  split_ifs with hthere
  · exact h
  · cases hparent : checkParent fs (dirPath parts) with
    | error err => exact h
    | ok u =>
      refine h.set ⟨parts, hparts, rfl⟩ entry (.inl hparent) fun old hget => ?_
      rw [Dict.contains, hget] at hthere
      exact absurd rfl hthere

theorem Wf.remove (path : Path) : Wf (remove path fs).2 := by
  unfold MemFileSystem.remove
  dsimp only
  cases hget : fs.get (normalizePath path) with
  | none => exact h
  | some entry =>
    dsimp only
    split_ifs with hdir
    · exact h
    · refine h.erase fun old hold => ?_
      obtain rfl := Option.some.inj (hget.symm.trans hold)
      exact Bool.not_eq_true _ ▸ hdir

theorem Wf.write (hpath : Normalised path) (data : Bytes) (offset : ℕ) (flags : WriteFlag) :
    Wf (write path data offset flags fs).2 := by
  obtain ⟨parts, hparts, rfl⟩ := hpath
  have hnorm := normalizePath_dirPath hparts
  unfold MemFileSystem.write
  dsimp only
  rw [hnorm]
  cases hget : fs.get (dirPath parts) with
  | some entry =>
    dsimp only
    split_ifs with hdir
    · exact h
    · refine h.set ⟨parts, hparts, rfl⟩ _ (.inr (by rw [hget]; rfl)) fun old hold => ?_
      obtain rfl := Option.some.inj (hget.symm.trans hold)
      exact Bool.not_eq_true _ ▸ hdir
  | none =>
    dsimp only
    split_ifs with hflags
    · cases hparent : checkParent fs (dirPath parts) with
      | error err => exact h
      | ok u =>
        refine h.set ⟨parts, hparts, rfl⟩ _ (.inl hparent) fun old hold => ?_
        cases hget.symm.trans hold
    · exact h

theorem Wf.truncate (hpath : Normalised path) (size : ℕ) : Wf (truncate path size fs).2 := by
  obtain ⟨parts, hparts, rfl⟩ := hpath
  have hnorm := normalizePath_dirPath hparts
  unfold MemFileSystem.truncate
  dsimp only
  rw [hnorm]
  cases hget : fs.get (dirPath parts) with
  | none => exact h
  | some entry =>
    dsimp only
    split_ifs with hdir
    · exact h
    · refine h.set ⟨parts, hparts, rfl⟩ _ (.inr (by rw [hget]; rfl)) fun old hold => ?_
      obtain rfl := Option.some.inj (hget.symm.trans hold)
      exact Bool.not_eq_true _ ▸ hdir

/-- The source of a replacement and what it replaces are both files. -/
theorem Wf.replace {srcPath dstPath : Path} (hdst : Normalised dstPath) :
    Wf (replace srcPath dstPath fs).2 := by
  obtain ⟨parts, hparts, rfl⟩ := hdst
  have hnorm := normalizePath_dirPath hparts
  cases hsrc : fs.get (normalizePath srcPath) with
  | none =>
    have hsame : (MemFileSystem.replace srcPath (dirPath parts) fs).2 = fs := by
      unfold MemFileSystem.replace
      dsimp only
      rw [hsrc]
    rwa [hsame]
  | some entry =>
    cases hdir : entry.isDir with
    | true =>
      have hsame : (MemFileSystem.replace srcPath (dirPath parts) fs).2 = fs := by
        unfold MemFileSystem.replace
        dsimp only
        rw [hsrc]
        dsimp only
        rw [if_pos hdir]
      rwa [hsame]
    | false =>
      rcases replace_of_file (dirPath parts) hsrc hdir with ⟨hparent, hany, heq⟩ | ⟨-, err, heq⟩
      · rw [heq]
        rw [hnorm] at hparent hany ⊢
        have hdstFile : ∀ old, fs.get (dirPath parts) = some old → old.isDir = false := by
          intro old hold
          rwa [hold] at hany
        have hsrcFile : ∀ old, (fs.erase (dirPath parts)).get (normalizePath srcPath) = some old →
            old.isDir = false := by
          intro old hold
          rw [Dict.get_erase] at hold
          split_ifs at hold
          obtain rfl := Option.some.inj (hsrc.symm.trans hold)
          exact hdir
        have hboth : Wf ((fs.erase (dirPath parts)).erase (normalizePath srcPath)) :=
          (h.erase hdstFile).erase hsrcFile
        have hgone : ((fs.erase (dirPath parts)).erase (normalizePath srcPath)).get (dirPath parts) = none := by
          rw [Dict.get_erase, Dict.get_erase, if_pos rfl, ite_self]
        refine hboth.set ⟨parts, hparts, rfl⟩ entry (.inl ?_) fun old hold => ?_
        · rcases checkParent_ok hparent with hroot | ⟨p, hp, hdirp⟩
          · rw [hroot] at hany
            obtain ⟨old, hold, holdDir⟩ := h.root
            rw [hold] at hany
            cases holdDir.symm.trans hany
          · exact checkParent_of_hasDir hp ((hdirp.erase hdstFile).erase hsrcFile)
        · rw [hgone] at hold
          cases hold
      · rw [heq]
        exact h

/-- **What a safe call does.** -/
theorem Wf.after {call : Call} (hpaths : ∀ path ∈ callPaths call, Normalised path)
    (hsafe : Safe fs call) : Wf (fs.after call) ∧ Exact fs call := by
  cases call with
  | create path | mkdir path mode => exact ⟨h.insertNew (hpaths _ List.mem_cons_self) _, trivial⟩
  | remove path => exact ⟨h.remove path, trivial⟩
  | read path offset size => exact ⟨h, trivial⟩
  | write path data offset flags =>
    exact ⟨h.write (hpaths _ List.mem_cons_self) data offset flags, trivial⟩
  | readDir path | stat path => exact ⟨h, trivial⟩
  | truncate path size => exact ⟨h.truncate (hpaths _ List.mem_cons_self) size, trivial⟩
  | replace srcPath dstPath =>
    exact ⟨h.replace (hpaths _ (List.mem_cons_of_mem _ List.mem_cons_self)), trivial⟩
  | removeAll path =>
    have hpath := hpaths _ List.mem_cons_self
    have hnorm : normalizePath path = path := by
      obtain ⟨parts, hparts, rfl⟩ := hpath
      exact normalizePath_dirPath hparts
    have hroot : path ≠ ['/'] := fun heq => hsafe (hnorm.trans heq)
    refine ⟨h.removeAll hpath hroot, fun k => ?_⟩
    rw [hnorm]
    exact h.removeAll_exact hpath hroot k
  | rename oldPath newPath =>
    obtain ⟨old, hold, rfl⟩ := hpaths _ List.mem_cons_self
    obtain ⟨new, hnew, rfl⟩ := hpaths _ (List.mem_cons_of_mem _ List.mem_cons_self)
    have hcases := rename_cases (dirPath old) (dirPath new) fs
    rw [normalizePath_dirPath hold, normalizePath_dirPath hnew] at hcases
    rcases hcases with ⟨-, err, heq⟩ | ⟨hr, fs', heq, hget⟩
    · refine ⟨?_, fun hok => ?_⟩
      · show Wf (MemFileSystem.rename (dirPath old) (dirPath new) fs).2
        rw [heq]
        exact h
      · rw [heq] at hok
        cases hok
    · have hnot : ¬ old <+: new := by
        intro hpre
        refine hsafe ?_ ?_
        · rwa [normalizePath_dirPath hold, normalizePath_dirPath hnew]
        · rw [normalizePath_dirPath hold, normalizePath_dirPath hnew]
          exact (atOrUnder_dirPath_iff hold hnew).2 hpre
      refine ⟨?_, fun _ k => ?_⟩
      · show Wf (MemFileSystem.rename (dirPath old) (dirPath new) fs).2
        rw [heq]
        exact h.rename hold hnew hr hnot hget
      · rw [heq, normalizePath_dirPath hold, normalizePath_dirPath hnew, hget]
        exact h.renamed_exact hold hnew hr hnot k

/-- A call that leaves a tree is safe. -/
theorem Wf.safe_of_isTree {call : Call} (hpaths : ∀ path ∈ callPaths call, Normalised path)
    (htree : IsTree (fs.after call)) : Safe fs call := by
  cases call with
  | removeAll path =>
    intro hroot
    have hthere : (fs.get (normalizePath path)).isSome = true := by
      rw [hroot]
      exact h.root.isSome
    have hget := get_removeAll hthere ['/']
    rw [if_pos (.inl hroot.symm)] at hget
    have hsome := htree.root.isSome
    change ((MemFileSystem.removeAll path fs).2.get ['/']).isSome = true at hsome
    rw [hget] at hsome
    cases hsome
  | rename oldPath newPath =>
    obtain ⟨old, hold, rfl⟩ := hpaths _ List.mem_cons_self
    obtain ⟨new, hnew, rfl⟩ := hpaths _ (List.mem_cons_of_mem _ List.mem_cons_self)
    have hcases := rename_cases (dirPath old) (dirPath new) fs
    show Renamable _ _ _ → _
    rw [normalizePath_dirPath hold, normalizePath_dirPath hnew] at hcases ⊢
    intro hr hbelow
    rcases hcases with ⟨hnot, -⟩ | ⟨-, fs', heq, hget⟩
    · exact hnot hr
    · refine h.not_isTree_rename hold hnew hr ((atOrUnder_dirPath_iff hold hnew).1 hbelow) hget ?_
      change IsTree (MemFileSystem.rename (dirPath old) (dirPath new) fs).2 at htree
      rwa [heq] at htree
  | _ => trivial

theorem Wf.keepsTree_iff_actsMeet {calls : List Call}
    (hpaths : ∀ call ∈ calls, ∀ path ∈ callPaths call, Normalised path) :
    KeepsTree fs calls ↔ ActsMeet (fun fs call => some (MemFileSystem.after fs call)) Safe fs calls := by
  induction calls generalizing fs with
  | nil => exact iff_of_true h.toIsTree trivial
  | cons call calls ih =>
    have hcall := hpaths call List.mem_cons_self
    have hrest : ∀ c ∈ calls, ∀ path ∈ callPaths c, Normalised path := fun c hc =>
      hpaths c (List.mem_cons_of_mem _ hc)
    constructor
    · rintro ⟨-, -, hkeeps⟩
      have htree : IsTree (fs.after call) := by
        cases calls with
        | nil => exact hkeeps
        | cons next calls => exact hkeeps.1
      have hsafe := h.safe_of_isTree hcall htree
      refine ⟨hsafe, fun u hu => ?_⟩
      obtain rfl := Option.some.inj hu
      exact (ih (h.after hcall hsafe).1 hrest).1 hkeeps
    · rintro ⟨hsafe, hmeet⟩
      obtain ⟨hwf, hexact⟩ := h.after hcall hsafe
      exact ⟨h.toIsTree, hexact, (ih hwf hrest).2 (hmeet _ rfl)⟩

end

end Calls

/-- **The in-memory file system is a tree all along a run** exactly when no call of the run removes all of
the root or passes the checks of `rename` with a path at or under the one it renames. -/
theorem keepsTree_iff (calls : List Call)
    (hpaths : ∀ call ∈ calls, ∀ path ∈ callPaths call, Normalised path) :
    KeepsTree MemFileSystem.new calls ↔
      ActsMeet (fun fs call => some (MemFileSystem.after fs call)) Safe MemFileSystem.new calls :=
  Wf.new.keepsTree_iff_actsMeet hpaths

theorem normalised_a : Normalised "/a".toList :=
  ⟨["a".toList], by unfold IsComponent; decide, by decide⟩

/-- A directory with a file is renamed and removed. -/
theorem keepsTree_moved : KeepsTree MemFileSystem.new
    [.mkdir "/a".toList 0o755, .create "/a/f".toList, .rename "/a".toList "/b".toList,
      .removeAll "/b".toList] := by
  refine (keepsTree_iff _ ?_).2 ?_
  · have hb : Normalised "/b".toList := ⟨["b".toList], by unfold IsComponent; decide, by decide⟩
    have hf : Normalised "/a/f".toList :=
      ⟨["a".toList, "f".toList], by unfold IsComponent; decide, by decide⟩
    simp only [List.forall_mem_cons, callPaths, List.not_mem_nil, false_implies, implies_true, and_true]
    exact ⟨normalised_a, hf, ⟨normalised_a, hb⟩, hb⟩
  · refine ⟨trivial, fun _ _ => ⟨trivial, fun _ _ => ⟨fun _ => by decide, fun _ _ => ⟨?_, fun _ _ => trivial⟩⟩⟩⟩
    show normalizePath "/b".toList ≠ ['/']
    decide

/-- A directory is renamed to a path below itself, and the root is removed. -/
theorem keepsTree_fails :
    ¬ KeepsTree MemFileSystem.new [.mkdir "/a".toList 0o755, .rename "/a".toList "/a/b".toList] ∧
      ¬ KeepsTree MemFileSystem.new [.removeAll ['/']] := by
  constructor
  · rintro ⟨-, -, -, -, htree⟩
    obtain ⟨p, hp, entry, hget, -⟩ := htree.parent "/a/b".toList (by decide) (by decide)
    have hparent : parentPath "/a/b".toList = some "/a".toList := by decide
    obtain rfl := Option.some.inj (hparent.symm.trans hp)
    have hgone : ((MemFileSystem.new.after (.mkdir "/a".toList 0o755)).after
        (.rename "/a".toList "/a/b".toList)).get "/a".toList = none := by decide
    cases hgone.symm.trans hget
  · rintro ⟨-, -, htree⟩
    obtain ⟨entry, hget, -⟩ := htree.root
    have hgone : (MemFileSystem.new.after (.removeAll ['/'])).get ['/'] = none := by decide
    cases hgone.symm.trans hget

end MemFileSystem

end OpenViking.Ragfs
