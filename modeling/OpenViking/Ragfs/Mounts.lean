import Mathlib.Data.List.DropRight
import OpenViking.Common.Dict
import OpenViking.Ragfs.Basic

/-!
# Mounts and the accounts of pending directories

`MountableFS` (`crates/ragfs/src/core/mountable.rs`, 602-730) hands a mount the path below it.  A
multi-write mount records the parent directories of such paths, and its retry loop asks
`MountRootFsContextResolver` (`multibackend/meta.rs`, 48-93) for the account of each, which expects the
mount path in front.

Results:

* `resolve_eq_ok_iff`: the directories that a resolver takes for those of an account;
* `reaches_iff`: when the retry loop works for the account of the operation.
-/

namespace OpenViking.Ragfs

local instance Path.lawfulBEqMounts : LawfulBEq Path := inferInstance

/-! ## Paths -/

/-- `char::is_whitespace`. -/
def isWhitespace (c : Char) : Bool :=
  decide (9 ≤ c.toNat ∧ c.toNat ≤ 13 ∨ 0x2000 ≤ c.toNat ∧ c.toNat ≤ 0x200a ∨
    c.toNat ∈ [0x20, 0x85, 0xa0, 0x1680, 0x2028, 0x2029, 0x202f, 0x205f, 0x3000])

/-- `str::trim`. -/
def trim (t : Path) : Path := (t.dropWhile isWhitespace).rdropWhile isWhitespace

/-- `normalize_path` (716-730). -/
def normalizePath (path : Path) : Path :=
  let trimmed := trim path
  let normalized := if trimmed.head? = some '/' then trimmed else '/' :: trimmed
  if 1 < normalized.length ∧ normalized.getLast? = some '/' then normalized.dropLast else normalized

/-- `validate_virtual_path` (`core/filesystem.rs`, 18-26): no component is `..`. -/
def isValidVirtualPath (path : Path) : Bool := decide (['.', '.'] ∉ path.splitOn '/')

/-- What stands before the last slash, when there is one. -/
def beforeLastSlash (path : Path) : Option Path :=
  if '/' ∈ path then some (path.rdropWhile (· ≠ '/')).dropLast else none

/-- `parent_dir` (509-515). -/
def parentDir (path : Path) : Path :=
  match beforeLastSlash path with
  | some [] => ['/']
  | some dir => dir
  | none => ['/']

/-! ## Routing -/

/-- The mounts of a `MountableFS`: the mount paths as configured, under their normal forms. -/
structure MountTable where
  mounts : Dict Path Path
  key : ∀ k m, mounts.get k = some m → k = normalizePath m

namespace MountTable

def empty : MountTable := ⟨Dict.empty, by intro k m h; cases h⟩

/-- `mount` (249-380), as far as the table goes. -/
def mount (t : MountTable) (mountPath : Path) : Except Error MountTable :=
  if t.mounts.contains (normalizePath mountPath) then
    .error (.mountPointExists (normalizePath mountPath))
  else
    .ok
      { mounts := t.mounts.set (normalizePath mountPath) mountPath
        key := fun k m h => by
          rw [Dict.get_set] at h
          split_ifs at h with hk
          · rw [hk, Option.some.inj h]
          · exact t.key k m h }

/-- The loop of `find_mount` over a path and those above it. -/
def search (t : MountTable) (normalized : Path) : ℕ → Path → Except Error (Path × Path)
  | 0, _ => .error (.mountPointNotFound normalized)
  | fuel + 1, current =>
    match t.mounts.get current with
    | some m =>
      .ok (m, if current = ['/'] then normalized else normalized.drop current.length)
    | none =>
      if current = ['/'] then .error (.mountPointNotFound normalized)
      else
        match beforeLastSlash current with
        | some [] => t.search normalized fuel ['/']
        | some above => t.search normalized fuel above
        | none => .error (.mountPointNotFound normalized)

/-- `find_mount` (613-650): the mount as configured and the path below it. -/
def findMount (t : MountTable) (path : Path) : Except Error (Path × Path) :=
  if isValidVirtualPath path then
    match t.mounts.get (normalizePath path) with
    | some m => .ok (m, ['/'])
    | none => t.search (normalizePath path) ((normalizePath path).length + 1) (normalizePath path)
  else .error (.invalidPath path)

end MountTable

/-! ## Accounts of directories -/

/-- `MountRootFsContextResolver::new` (56-66): its `mount_root`. -/
def mountRoot (mountPath : Path) : Path :=
  let normalized := mountPath.rdropWhile (· = '/')
  if normalized = [] then ['/']
  else if normalized.head? = some '/' then normalized
  else '/' :: normalized

/-- `str::strip_prefix`. -/
def stripPrefix (start path : Path) : Option Path :=
  if start <+: path then some (path.drop start.length) else none

/-- `cannot resolve FsContext from path: …`. -/
def cannotResolve (path : Path) : Error :=
  .internal ("cannot resolve FsContext from path: " ++ String.ofList path)

/-- `resolve` (69-93): the account of a path. -/
def resolve (root path : Path) : Except Error Path :=
  let normalized := if path.head? = some '/' then path else '/' :: path
  let suffix :=
    if root = ['/'] then some (normalized.dropWhile (· = '/'))
    else (stripPrefix root normalized).bind (stripPrefix ['/'])
  match suffix with
  | none => .error (cannotResolve path)
  | some suffix =>
    if suffix.takeWhile (· ≠ '/') = [] then .error (cannotResolve path)
    else .ok (suffix.takeWhile (· ≠ '/'))

/-- `retry_pending_dir` (`multibackend_wrapper/retry.rs`, 204-244); `replay` goes through the sync work
of the directory under the context of an account. -/
def retryPendingDir {S : Type*} (root : Path) (replay : Path → Path → S → Except Error Unit × S)
    (dir : Path) (s : S) : Except Error Unit × S :=
  match resolve root dir with
  | .error e => (.error e, s)
  | .ok account => replay account dir s

/-! ## Parent directories -/

theorem parentDir_append {dir name : Path} (hdir : dir ≠ []) (hname : '/' ∉ name) :
    parentDir (dir ++ '/' :: name) = dir := by
  have hsplit : (dir ++ '/' :: name).rdropWhile (· ≠ '/') = dir ++ ['/'] := by
    have hall : ∀ c ∈ name.reverse, decide (c ≠ '/') = true := fun c hc =>
      decide_eq_true fun heq => hname (heq ▸ List.mem_reverse.1 hc)
    rw [List.rdropWhile, List.reverse_append, List.reverse_cons, List.append_assoc,
      List.dropWhile_append_of_pos hall, List.singleton_append,
      List.dropWhile_cons_of_neg (by decide), List.reverse_cons, List.reverse_reverse]
  rw [parentDir, beforeLastSlash, if_pos (by simp), hsplit, List.dropLast_concat]
  cases dir with
  | nil => exact absurd rfl hdir
  | cons c dir => rfl

/-- A path with a slash is a directory and a name. -/
theorem exists_last_slash {t : Path} (h : '/' ∈ t) : ∃ dir name, t = dir ++ '/' :: name ∧ '/' ∉ name := by
  induction t with
  | nil => cases h
  | cons c t ih =>
    by_cases ht : '/' ∈ t
    · obtain ⟨dir, name, rfl, hname⟩ := ih ht
      exact ⟨c :: dir, name, rfl, hname⟩
    · obtain rfl | h := List.mem_cons.1 h
      · exact ⟨[], t, rfl, ht⟩
      · exact absurd h ht

/-- Below an account the parent directory is that of the account or one below it. -/
theorem parentDir_account (account more : Path) :
    ∃ below, parentDir ('/' :: (account ++ '/' :: more)) = '/' :: (account ++ below) ∧
      (below = [] ∨ below.head? = some '/') := by
  by_cases hmore : '/' ∈ more
  · obtain ⟨dir, name, rfl, hname⟩ := exists_last_slash hmore
    refine ⟨'/' :: dir, ?_, .inr rfl⟩
    have hpath : '/' :: (account ++ '/' :: (dir ++ '/' :: name)) =
        ('/' :: (account ++ '/' :: dir)) ++ '/' :: name := by simp
    rw [hpath, parentDir_append (List.cons_ne_nil _ _) hname]
  · refine ⟨[], ?_, .inl rfl⟩
    rw [List.append_nil]
    exact parentDir_append (List.cons_ne_nil '/' account) hmore

/-! ## What the resolver makes of a directory -/

theorem takeWhile_account {account below : Path} (hslash : '/' ∉ account)
    (hbelow : below = [] ∨ below.head? = some '/') : (account ++ below).takeWhile (· ≠ '/') = account := by
  have hall : ∀ c ∈ account, decide (c ≠ '/') = true := fun c hc =>
    decide_eq_true fun heq => hslash (heq ▸ hc)
  rw [List.takeWhile_append_of_pos hall]
  obtain rfl | hhead := hbelow
  · exact List.append_nil _
  · cases below with
    | nil => cases hhead
    | cons c below =>
      obtain rfl : c = '/' := Option.some.inj hhead
      rw [List.takeWhile_cons_of_neg (by decide), List.append_nil]

theorem stripPrefix_eq_some_iff {start path rest : Path} :
    stripPrefix start path = some rest ↔ path = start ++ rest := by
  rw [stripPrefix]
  split_ifs with h
  · obtain ⟨tail, rfl⟩ := h
    rw [List.drop_left, Option.some.injEq, List.append_cancel_left_eq]
  · refine iff_of_false (by simp) fun heq => h ⟨rest, heq.symm⟩

/-- **The directories that a resolver takes for those of an account.** -/
theorem resolve_eq_ok_iff {root path account : Path} (hpath : path.head? = some '/')
    (haccount : account ≠ []) :
    resolve root path = .ok account ↔
      if root = ['/'] then (path.dropWhile (· = '/')).takeWhile (· ≠ '/') = account
      else ∃ rest, path = root ++ '/' :: rest ∧ rest.takeWhile (· ≠ '/') = account := by
  have hend : ∀ suffix : Path,
      (if suffix.takeWhile (· ≠ '/') = [] then .error (cannotResolve path)
        else .ok (suffix.takeWhile (· ≠ '/')) : Except Error Path) = .ok account ↔
        suffix.takeWhile (· ≠ '/') = account := by
    intro suffix
    split_ifs with h
    · exact iff_of_false (by simp) fun heq => haccount (heq.symm.trans h)
    · exact ⟨Except.ok.inj, congrArg _⟩
  rw [resolve, if_pos hpath]
  by_cases hroot : root = ['/']
  · rw [if_pos hroot, if_pos hroot]
    exact hend _
  · rw [if_neg hroot, if_neg hroot]
    cases hstrip : (stripPrefix root path).bind (stripPrefix ['/']) with
    | none =>
      refine iff_of_false (by simp) ?_
      rintro ⟨rest, hrest, -⟩
      rw [stripPrefix_eq_some_iff.2 hrest, Option.bind_some,
        stripPrefix_eq_some_iff.2 (rfl : '/' :: rest = ['/'] ++ rest)] at hstrip
      cases hstrip
    | some suffix =>
      obtain ⟨rest, hrest, hsuffix⟩ := Option.bind_eq_some_iff.1 hstrip
      rw [stripPrefix_eq_some_iff] at hrest hsuffix
      rw [hsuffix, List.singleton_append] at hrest
      refine (hend suffix).trans ⟨fun h => ⟨suffix, hrest, h⟩, ?_⟩
      rintro ⟨rest', hrest', h⟩
      rw [hrest, List.append_cancel_left_eq] at hrest'
      rwa [(List.cons.inj hrest').2]

/-! ## The retry loop -/

/-- The directory spells the mount path before the account. -/
def Spelled (root account dir : Path) : Prop :=
  ∃ below, dir = root ++ '/' :: (account ++ below) ∧ (below = [] ∨ below.head? = some '/')

theorem takeWhile_eq_account_iff {rest account : Path} :
    rest.takeWhile (· ≠ '/') = account ↔ '/' ∉ account ∧
      ∃ below, rest = account ++ below ∧ (below = [] ∨ below.head? = some '/') := by
  constructor
  · rintro rfl
    refine ⟨fun hmem => ?_, rest.dropWhile (· ≠ '/'), (List.takeWhile_append_dropWhile).symm, ?_⟩
    · simpa using List.mem_takeWhile_imp hmem
    · have hhead := List.head?_dropWhile_not (fun c => decide (c ≠ '/')) rest
      cases hdrop : rest.dropWhile (fun c => decide (c ≠ '/')) with
      | nil => exact .inl rfl
      | cons c below =>
        rw [hdrop, List.head?_cons] at hhead
        exact .inr (congrArg some (of_not_not (of_decide_eq_false hhead)))
  · rintro ⟨hslash, below, rfl, hbelow⟩
    exact takeWhile_account hslash hbelow

/-- **When the retry loop reaches a backlog.**  For an operation below an account of a mount, whose parent
directory is not that of the mount: the loop works on it under that account exactly when the mount is the
root, or when the recorded directory itself begins with the mount path and the account. -/
theorem reaches_iff (t : MountTable) : ∀ path m rel, t.findMount path = .ok (m, rel) →
    ∀ account more, rel = '/' :: (account ++ '/' :: more) → account ≠ [] → '/' ∉ account →
      ((∀ (S : Type) (replay : Path → Path → S → Except Error Unit × S) (s : S),
          retryPendingDir (mountRoot m) replay (parentDir rel) s = replay account (parentDir rel) s) ↔
        mountRoot m = ['/'] ∨ Spelled (mountRoot m) account (parentDir rel)) := by
  rintro path m rel - account more rfl haccount hslash
  obtain ⟨below, hdir, hbelow⟩ := parentDir_account account more
  rw [hdir]
  have hresolve : (∀ (S : Type) (replay : Path → Path → S → Except Error Unit × S) (s : S),
      retryPendingDir (mountRoot m) replay ('/' :: (account ++ below)) s =
        replay account ('/' :: (account ++ below)) s) ↔
      resolve (mountRoot m) ('/' :: (account ++ below)) = .ok account := by
    constructor
    · intro h
      -- a replay that answers with the account it is given
      have := h (Option Path) (fun account _ _ => (.ok (), some account)) none
      rw [retryPendingDir] at this
      cases hr : resolve (mountRoot m) ('/' :: (account ++ below)) with
      | error e =>
        rw [hr] at this
        cases this
      | ok a =>
        rw [hr] at this
        rw [Option.some.inj (Prod.mk.inj this).2]
    · intro h S replay s
      rw [retryPendingDir, h]
  rw [hresolve, resolve_eq_ok_iff rfl haccount]
  split_ifs with hroot
  · refine iff_of_true ?_ (.inl hroot)
    have hhead : ¬ decide ((account ++ below).head? = some '/') = true := by
      cases account with
      | nil => exact absurd rfl haccount
      | cons c account =>
        rw [decide_eq_true_iff]
        intro heq
        exact hslash (Option.some.inj heq ▸ List.mem_cons_self)
    rw [List.dropWhile_cons_of_pos (by decide)]
    have hdrop : (account ++ below).dropWhile (· = '/') = account ++ below := by
      cases account with
      | nil => exact absurd rfl haccount
      | cons c account => exact List.dropWhile_cons_of_neg (by simpa using hhead)
    rw [hdrop, takeWhile_account hslash hbelow]
  · rw [or_iff_right hroot, Spelled]
    constructor
    · rintro ⟨rest, hrest, htake⟩
      obtain ⟨-, below', rfl, hbelow'⟩ := takeWhile_eq_account_iff.1 htake
      exact ⟨below', hrest, hbelow'⟩
    · rintro ⟨below', hrest, hbelow'⟩
      exact ⟨_, hrest, takeWhile_account hslash hbelow'⟩

/-- The table with one mount at `/local`. -/
def localMount : Except Error MountTable := MountTable.empty.mount "/local".toList

theorem reaches_iff_spelled : ∃ t, localMount = .ok t ∧
    t.findMount "/local/local/local/notes.md".toList =
      .ok ("/local".toList, "/local/local/notes.md".toList) ∧
    retryPendingDir (mountRoot "/local".toList) (fun account _ (_ : Path) => (.ok (), account))
      (parentDir "/local/local/notes.md".toList) [] = (.ok (), "local".toList) := by
  obtain ⟨t, ht⟩ : ∃ t, localMount = .ok t := ⟨_, rfl⟩
  have hfind : (localMount.map fun t => t.findMount "/local/local/local/notes.md".toList) =
      .ok (.ok ("/local".toList, "/local/local/notes.md".toList)) := by decide +kernel
  rw [ht] at hfind
  have hfind := Except.ok.inj hfind
  have hspelled : Spelled "/local".toList "local".toList (parentDir "/local/local/notes.md".toList) :=
    ⟨[], by decide +kernel, .inl rfl⟩
  exact ⟨t, ht, hfind, (reaches_iff t _ _ _ hfind "local".toList "local/notes.md".toList rfl (by decide)
    (by decide)).2 (.inr hspelled) Path _ []⟩

/-- The account of a document below `/local` is not found. -/
theorem not_reaches_documents : ∃ t, localMount = .ok t ∧
    t.findMount "/local/acme/resources/notes.md".toList =
      .ok ("/local".toList, "/acme/resources/notes.md".toList) ∧
    resolve (mountRoot "/local".toList) (parentDir "/acme/resources/notes.md".toList) =
      .error (cannotResolve "/acme/resources".toList) := by
  refine ⟨_, rfl, by decide +kernel, by decide +kernel⟩

end OpenViking.Ragfs
