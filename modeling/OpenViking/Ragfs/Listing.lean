import Mathlib.Data.List.DropRight
import Mathlib.Data.List.Sort
import OpenViking.Ragfs.Basic

/-!
# Listings and the paths of a traversal

The helpers that every traversal of a file system shares (`crates/ragfs/src/core/filesystem.rs`, 28-107):
paths relative to the root of a query, their depth, and the order of a listing.  `str::to_lowercase` is a
parameter.
-/

namespace OpenViking.Ragfs

/-! ## Paths -/

/-- `normalize_prefix_path` (32-38). -/
def normalizePrefixPath (path : Path) : Path :=
  if path = ['/'] then ['/'] else path.rdropWhile (· == '/')

/-- `str::trim_start_matches('/')`. -/
def trimStart (path : Path) : Path := path.dropWhile (· == '/')

/-- `is_excluded_path` (57-66). -/
def isExcludedPath (path excludePath : Path) : Bool :=
  if excludePath = ['/'] then true
  else
    decide (path = excludePath) ||
      (excludePath.isPrefixOf path && decide ((path.drop excludePath.length).head? = some '/'))

/-- `relative_match_file` (73-94). -/
def relativeMatchFile (queryRoot path : Path) : Path :=
  let base := normalizePrefixPath queryRoot
  if path = base then ['.']
  else if base = ['/'] then trimStart path
  else if base.isPrefixOf path then
    let rel := trimStart (path.drop base.length)
    if rel = [] then ['.'] else rel
  else trimStart path

/-- `relative_depth` (100-106). -/
def relativeDepth (rel : Path) : ℕ :=
  if rel = [] ∨ rel = ['.'] then 0 else ((rel.splitOn '/').filter (· ≠ [])).length

/-- The path of an entry of a directory. -/
def entryPath (currentPath name : Path) : Path :=
  if currentPath = ['/'] then '/' :: name else currentPath ++ '/' :: name

/-- The place below a root is at a limit of levels. -/
def atLevel (levelLimit : Option ℕ) (basePath currentPath : Path) : Bool :=
  levelLimit.any fun limit => decide (limit ≤ relativeDepth (relativeMatchFile basePath currentPath))

/-! ## Listings -/

/-- The directories below a path are at most so deep. -/
def DirTree {E : Type*} (readDir : Path → Except E (List FileInfo)) : ℕ → Path → Prop
  | 0, _ => False
  | depth + 1, path => ∀ entries, readDir path = .ok entries → ∀ entry ∈ entries, entry.isDir = true →
    DirTree readDir depth (entryPath path entry.name)

section Order

variable (lower : Path → Path)

/-- `compare_listing_names` (41-45). -/
def compareListingNames (a b : Path) : Ordering := (compare (lower a) (lower b)).then (compare a b)

/-- The order of `sort_directory_entries`. -/
def compareEntries (a b : FileInfo) : Ordering :=
  (compare b.isDir a.isDir).then (compareListingNames lower a.name b.name)

/-- `sort_directory_entries` (48-54); the sort is stable. -/
def sortDirectoryEntries (entries : List FileInfo) : List FileInfo :=
  entries.insertionSort fun a b => compareEntries lower a b ≠ .gt

theorem sortDirectoryEntries_perm (entries : List FileInfo) :
    (sortDirectoryEntries lower entries).Perm entries :=
  List.perm_insertionSort _ entries

end Order

end OpenViking.Ragfs
