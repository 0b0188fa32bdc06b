import OpenViking.Common.Paging
import OpenViking.Common.Slashes
import OpenViking.Ragfs.TreeListing

/-!
# Glob pages

`FileSystem::glob_directory` (`crates/ragfs/src/core/filesystem.rs`, 491-543), which pages through a sorted
list of matches, and `LocalFileSystem::glob_via_walk` (`crates/ragfs/src/plugins/localfs/mod.rs`, 529-668),
which pages through a walk, with the helpers of `crates/ragfs/src/core/glob.rs`.  SHA-256, the matcher that
`globset` compiles and the walk of the `ignore` crate are parameters; `usize` is ℕ.
-/

namespace OpenViking.Ragfs

open Room BoundedWalk

/-! ## Paths -/

/-- `split_segments` (115-121). -/
def splitSegments (value : Path) : List Path :=
  (value.splitOn '/').filter fun segment => decide (segment ≠ [] ∧ segment ≠ ['.'])

/-- `normalize_rel_path` (123-125). -/
def normalizeRelPath (value : Path) : Path := ['/'].intercalate (splitSegments value)

/-- `compare_rel_paths` (111-113). -/
def compareRelPaths (left right : Path) : Ordering := compare (splitSegments left) (splitSegments right)

/-! ## Patterns -/

/-- What the code uses and does not define: `Sha256` in hexadecimal, and the matcher that `GlobBuilder` builds
for a pattern. -/
structure GlobTools where
  hexDigest : List Char → List Char
  globset : Path → Except Error (Path → Bool)

/-- The loop of `validate_pattern` (89-99). -/
def validateSegments : List Path → Bool → Except Error Unit
  | [], sawSegment =>
    if sawSegment then .error (.invalidOperation "empty glob pattern") else .ok ()
  | segment :: segments, sawSegment =>
    if segment = [] then validateSegments segments sawSegment
    else if segment ≠ ['.'] then .ok ()
    else validateSegments segments true

/-- `validate_pattern` (83-106). -/
def validatePattern (pattern : Path) : Except Error Unit :=
  if pattern = [] then .error (.invalidOperation "empty glob pattern")
  else validateSegments (pattern.splitOn '/') false

/-- `PreparedGlob::new` and `is_match` (18-43). -/
def GlobTools.preparedGlob (tools : GlobTools) (pattern : Path) : Except Error (Path → Bool) :=
  match validatePattern pattern with
  | .error err => .error err
  | .ok () =>
    let normalized := normalizeRelPath pattern
    if normalized = [] then .ok fun _ => false
    else
      match tools.globset normalized with
      | .error err => .error err
      | .ok matcher => .ok fun relPath => matcher (normalizeRelPath relPath)

/-- The loop of `glob_static_max_depth` (localfs/mod.rs, 531-542). -/
def staticDepth : List Path → ℕ → Option ℕ
  | [], depth => some depth
  | segment :: segments, depth =>
    if segment = [] ∨ segment = ['.'] then staticDepth segments depth
    else if segment = ['*', '*'] then none
    else staticDepth segments (depth + 1)

/-- `glob_static_max_depth` (localfs/mod.rs, 529-543). -/
def globStaticMaxDepth (pattern : Path) : Option ℕ := staticDepth (pattern.splitOn '/') 0

/-! ## Tokens -/

/-- The arguments of a search, but for the page. -/
structure GlobQuery where
  path : Path
  pattern : Path
  showHidden : Bool
  levelLimit : Option ℕ

namespace GlobQuery

def basePath (q : GlobQuery) : Path := normalizePrefixPath q.path

/-- `effective_glob_max_depth` (localfs/mod.rs, 545-552). -/
def effectiveGlobMaxDepth (q : GlobQuery) : Option ℕ :=
  match globStaticMaxDepth q.pattern, q.levelLimit with
  | some patternDepth, some levelDepth => some (min patternDepth levelDepth)
  | some patternDepth, none => some patternDepth
  | none, some levelDepth => some levelDepth
  | none, none => none

end GlobQuery

abbrev Token := List Char

section Tokens

variable (tools : GlobTools) (q : GlobQuery)

/-- `token_scope` (127-135). -/
def tokenScope : Token :=
  tools.hexDigest (q.path ++ [Char.ofNat 0] ++ q.pattern ++
    [Char.ofNat 0, Char.ofNat q.showHidden.toNat, Char.ofNat 0] ++
    Nat.toDigits 10 (q.levelLimit.getD (2 ^ 64 - 1)))

/-- `str::split_once(':')`. -/
def splitOnce (raw : Token) : Option (Token × Token) :=
  if ':' ∈ raw then some (raw.takeWhile (· != ':'), (raw.dropWhile (· != ':')).drop 1) else none

/-- `str::parse::<usize>`. -/
def parseUsize (text : Token) : Option ℕ :=
  let digits := if text.head? = some '+' then text.drop 1 else text
  if digits ≠ [] ∧ digits.all Char.isDigit then some (Nat.ofDigitChars 10 digits 0) else none

/-- `decode_offset_token` (51-75). -/
def decodeOffsetToken (token : Option Token) : Except Error ℕ :=
  match token with
  | none => .ok 0
  | some raw =>
    if raw = [] then .error (.invalidOperation "empty continuation token")
    else
      match splitOnce raw with
      | none => .error (.invalidOperation "invalid continuation token")
      | some (scope, offset) =>
        if scope ≠ tokenScope tools q then .error (.invalidOperation "continuation token scope mismatch")
        else
          match parseUsize offset with
          | none => .error (.invalidOperation "invalid continuation token")
          | some offset => .ok offset

/-- `encode_offset_token` (77-90). -/
def encodeOffsetToken (offset : ℕ) : Token := tokenScope tools q ++ ':' :: Nat.toDigits 10 offset

end Tokens

/-! ## Pages -/

/-- `GlobEntry` (`core/types.rs`, 66-80). -/
structure GlobEntry where
  path : Path
  relPath : Path
  name : Path
  isDir : Bool
  deriving DecidableEq

abbrev GlobPage := Page GlobEntry Token

/-- The entry of `glob_directory` for an entry of the tree. -/
def globEntry (entry : TreeEntry) : GlobEntry := ⟨entry.path, entry.relPath, entry.info.name, entry.info.isDir⟩

/-- `matched.sort_by`. -/
def sortMatched (matched : List GlobEntry) : List GlobEntry :=
  matched.insertionSort fun left right => compareRelPaths left.relPath right.relPath ≠ .gt

section Pages

variable (tools : GlobTools) (q : GlobQuery) (pageSize : Option ℕ)

/-- The page of a sorted list of matches (521-542). -/
def matchedPage (matched : List GlobEntry) (token : Option Token) : Except Error GlobPage :=
  match decodeOffsetToken tools q token with
  | .error err => .error err
  | .ok start =>
    if matched.length < start then .error (.invalidOperation "continuation token out of range")
    else
      let stop := min ((pageSize.map fun limit => start + limit).getD matched.length) matched.length
      .ok {
        entries := (matched.take stop).drop start
        nextToken := if stop < matched.length then some (encodeOffsetToken tools q stop) else none }

/-- `glob_directory` (491-543), with directories at most `fuel` deep. -/
def globDirectory (readDir : Path → Except Error (List FileInfo)) (lower : Path → Path) (fuel : ℕ)
    (token : Option Token) : Option (Except Error GlobPage) :=
  match tools.preparedGlob q.pattern with
  | .error err => some (.error err)
  | .ok matcher =>
    if pageSize = some 0 then some (.error (.invalidOperation "page_size must be positive"))
    else
      (treeDirectoryInternal readDir lower q.basePath q.showHidden none q.levelLimit fuel q.basePath []).map
        fun
        | .error err => .error err
        | .ok entries =>
          matchedPage tools q pageSize
            (sortMatched ((entries.filter fun entry => matcher entry.relPath).map globEntry)) token

/-- An entry of a walk: its path from the root of the walk, and whether it is a directory. -/
structure Dent where
  components : List Path
  isDir : Bool
  deriving DecidableEq

/-- What `glob_via_walk` finds at the root of a query: whether it is there, whether it is a directory, and the
walk of it down to a depth. -/
structure LocalRoot where
  present : Bool
  isDir : Bool
  walk : Option ℕ → List (Except Error Dent)

/-- `local_to_query_relative_path` (508-520). -/
def localToQueryRelativePath (components : List Path) : Path :=
  if components = [] then ['.'] else ['/'].intercalate components

/-- `local_glob_entry_path` (521-528). -/
def localGlobEntryPath (virtualRoot relPath : Path) : Path :=
  if virtualRoot = ['/'] then '/' :: relPath else virtualRoot.rdropWhile (· == '/') ++ '/' :: relPath

/-- What the loop of `glob_via_walk` pushes for an entry of the walk (626-652). -/
def dentEntry (matcher : Path → Bool) (dent : Dent) : Option GlobEntry :=
  let relPath := localToQueryRelativePath dent.components
  if relPath = ['.'] then none
  else
    let name := dent.components.getLast?.getD []
    if !q.showHidden && !dent.isDir && decide (name.head? = some '.') then none
    else if !matcher relPath then none
    else some ⟨localGlobEntryPath q.path relPath, relPath, name, dent.isDir⟩

/-- The loop of `glob_via_walk` (612-653). -/
def walkEntries (matcher : Path → Bool) (start : ℕ) :
    List (Except Error Dent) → ℕ → List GlobEntry → Except Error (List GlobEntry × Option ℕ)
  | [], _, entries => .ok (entries, none)
  | dent :: walker, rawSeen, entries =>
    if reached pageSize entries.length then .ok (entries, some rawSeen)
    else
      match dent with
      | .error err => .error err
      | .ok dent =>
        if rawSeen + 1 ≤ start then walkEntries matcher start walker (rawSeen + 1) entries
        else
          walkEntries matcher start walker (rawSeen + 1) (entries ++ (dentEntry q matcher dent).toList)

/-- `glob_via_walk` (566-668). -/
def globViaWalk (root : LocalRoot) (token : Option Token) : Except Error GlobPage :=
  match tools.preparedGlob q.pattern with
  | .error err => .error err
  | .ok matcher =>
    if pageSize = some 0 then .error (.invalidOperation "page_size must be positive")
    else if !root.present then .error (.notFound q.path)
    else if !root.isDir then .error (.notADirectory q.path)
    else
      match decodeOffsetToken tools q token with
      | .error err => .error err
      | .ok start =>
        match walkEntries q pageSize matcher start (root.walk q.effectiveGlobMaxDepth) 0 [] with
        | .error err => .error err
        | .ok (entries, nextOffset) =>
          .ok {
            entries
            nextToken := (nextOffset.filter fun _ => pageSize.isSome).map (encodeOffsetToken tools q) }

end Pages

/-! ## Tokens of offsets -/

section Decoding

variable {tools : GlobTools} {q : GlobQuery}

theorem splitOnce_append {scope : Token} (h : ':' ∉ scope) (rest : Token) :
    splitOnce (scope ++ ':' :: rest) = some (scope, rest) := by
  have hall : ∀ c ∈ scope, (c != ':') = true := by
    intro c hc
    rw [bne_iff_ne]
    rintro rfl
    exact h hc
  unfold splitOnce
  rw [if_pos (by simp), List.takeWhile_append_of_pos hall, List.dropWhile_append_of_pos hall]
  simp

theorem parseUsize_toDigits (n : ℕ) : parseUsize (Nat.toDigits 10 n) = some n := by
  have hdigits : ∀ c ∈ Nat.toDigits 10 n, c.isDigit = true := fun c hc =>
    Nat.isDigit_of_mem_toDigits (by decide) (by decide) hc
  have hhead : (Nat.toDigits 10 n).head? ≠ some '+' := by
    intro hplus
    have := hdigits '+' (List.mem_of_head? hplus)
    cases this
  unfold parseUsize
  dsimp only
  rw [if_neg hhead, if_pos ⟨by simp, List.all_eq_true.2 hdigits⟩, Nat.ofDigitChars_ten_toDigits]

/-- A token stands for the offset it was made from. -/
theorem decodeOffsetToken_encodeOffsetToken (hhex : ∀ text, ':' ∉ tools.hexDigest text) (offset : ℕ) :
    decodeOffsetToken tools q (some (encodeOffsetToken tools q offset)) = .ok offset := by
  have hscope : ':' ∉ tokenScope tools q := hhex _
  unfold decodeOffsetToken encodeOffsetToken
  dsimp only
  rw [if_neg (by simp), splitOnce_append hscope]
  dsimp only
  rw [if_neg (not_not.2 rfl), parseUsize_toDigits]

end Decoding

end OpenViking.Ragfs
