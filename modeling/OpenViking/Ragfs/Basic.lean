import OpenViking.Common.Prog

/-!
# The calls of a file system

The methods of the trait `FileSystem` (`crates/ragfs/src/core/filesystem.rs`) as calls that a wrapper
makes, and the methods that the trait itself defines through others.
-/

namespace OpenViking.Ragfs

/-- A path as AGFS gets it. -/
abbrev Path := List Char

/-- The bytes of a file. -/
abbrev Bytes := List UInt8

/-- `Error` (`core/errors.rs`), as far as these calls raise it. -/
inductive Error where
  | notFound (path : Path)
  | alreadyExists (path : Path)
  | invalidPath (path : Path)
  | notADirectory (path : Path)
  | isADirectory (path : Path)
  | invalidOperation (message : String)
  | mountPointNotFound (path : Path)
  | mountPointExists (path : Path)
  | internal (message : String)
  deriving DecidableEq

/-- `WriteFlag` (`core/types.rs`, 187-201). -/
inductive WriteFlag where
  | create
  | append
  | truncate
  | none
  deriving DecidableEq

/-- `FileInfo` without times. -/
structure FileInfo where
  name : Path
  size : ℕ
  mode : ℕ
  isDir : Bool
  deriving DecidableEq

/-- A method of a file system with its arguments. -/
inductive Call where
  | create (path : Path)
  | mkdir (path : Path) (mode : ℕ)
  | remove (path : Path)
  | removeAll (path : Path)
  | read (path : Path) (offset size : ℕ)
  | write (path : Path) (data : Bytes) (offset : ℕ) (flags : WriteFlag)
  | readDir (path : Path)
  | stat (path : Path)
  | rename (oldPath newPath : Path)
  | replace (srcPath dstPath : Path)
  | truncate (path : Path) (size : ℕ)
  deriving DecidableEq

/-- What a method answers when it does not fail. -/
abbrev Call.Answer : Call → Type
  | .read _ _ _ => Bytes
  | .write _ _ _ _ => ℕ
  | .readDir _ => List FileInfo
  | .stat _ => FileInfo
  | _ => Unit

/-- `Result` of a method. -/
abbrev Call.Result (c : Call) : Type := Except Error c.Answer

/-- How a file system carries out calls. -/
abbrev Backend (σ : Type) := (c : Call) → σ → c.Result × σ

/-! ## Methods of the trait -/

/-- The directories above a path, as `ensure_parent_dirs` goes through them. -/
def joined : Path → List Path → List Path
  | _, [] => []
  | current, part :: parts => (current ++ '/' :: part) :: joined (current ++ '/' :: part) parts

/-- The directories that `ensure_parent_dirs` makes. -/
def parentDirs (path : Path) : List Path :=
  if path = ['/'] ∨ '/' ∉ path then []
  else joined [] ((path.dropWhile (· = '/')).splitOn '/').dropLast

section Programs

variable {C : Type} {ρ : C → Type} (perform : (c : Call) → Prog ρ c.Result)

/-- The loop of `ensure_parent_dirs`. -/
def mkdirs (mode : ℕ) : List Path → Prog ρ (Except Error Unit)
  | [] => .ret (.ok ())
  | dir :: dirs => do
    match ← perform (.mkdir dir mode) with
    | .ok () => mkdirs mode dirs
    | .error (.alreadyExists _) => mkdirs mode dirs
    | .error e => return .error e

/-- `ensure_parent_dirs` (631-659). -/
def ensureParentDirs (path : Path) (mode : ℕ) : Prog ρ (Except Error Unit) :=
  mkdirs perform mode (parentDirs path)

end Programs

end OpenViking.Ragfs
