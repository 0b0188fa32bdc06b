import OpenViking.Common.Prog
import OpenViking.Common.SortedMap
import Mathlib.Data.List.Lex
import Mathlib.Data.String.Basic

/-!
# The file system under the path locks

A model of what the path-lock code (`storage/transaction/path_lock.py`) sees of AGFS: a tree of
directories and files, and the calls it makes, each one atomic.  A file is a lock file as far as its
content parses as a fencing token, and every non-empty content does.

Owners are the threads of the system; a token names the owner that writes it.  Besides the files the
state has two clocks and, for the proofs only, the history of each lock file: since which write it
has named its present owner, and since which write it has been that owner's tree lock.
-/

namespace OpenViking.Transaction

/-- A path as the list of its components, the last one first; `/` is the empty list. -/
abbrev Path := List String

instance Path.lawfulBEq : LawfulBEq Path := inferInstance

/-- `LOCK_TYPE_EXACT` and `LOCK_TYPE_TREE`. -/
inductive LockType where
  | exact
  | tree
  deriving DecidableEq, Repr

/-- A fencing token, parsed. -/
structure Token (ι : Type) where
  owner : ι
  ts : ℕ
  lockType : LockType
  deriving DecidableEq, Repr

/-- A directory, or a file with the token that its content is, `none` for an empty one. -/
inductive Node (ι : Type) where
  | dir
  | file (content : Option (Token ι))
  deriving DecidableEq, Repr

variable {ι : Type}

/-- The path is `/`, or a directory among the nodes. -/
def isDirIn (nodes : SortedMap Path (Node ι)) (p : Path) : Prop :=
  p = [] ∨ nodes.get p = some .dir

instance [DecidableEq ι] (nodes : SortedMap Path (Node ι)) (p : Path) :
    Decidable (isDirIn nodes p) :=
  inferInstanceAs (Decidable (_ ∨ _))

/-- A file tree: every node is in a directory. -/
structure Fs (ι : Type) where
  nodes : SortedMap Path (Node ι)
  closed : ∀ name q, (nodes.get (name :: q)).isSome → isDirIn nodes q

namespace Fs

variable [DecidableEq ι]

def isDir (fs : Fs ι) (p : Path) : Prop := isDirIn fs.nodes p

instance (fs : Fs ι) (p : Path) : Decidable (fs.isDir p) := inferInstanceAs (Decidable (isDirIn _ _))

/-- The token in a file. -/
def token (fs : Fs ι) (f : Path) : Option (Token ι) :=
  match fs.nodes.get f with
  | some (.file content) => content
  | _ => none

/-- The file can be written: its parent is a directory, and it is not one itself. -/
def Writable (fs : Fs ι) : Path → Prop
  | [] => False
  | name :: q => fs.isDir q ∧ fs.nodes.get (name :: q) ≠ some .dir

instance (fs : Fs ι) : (f : Path) → Decidable (fs.Writable f)
  | [] => isFalse id
  | _ :: _ => inferInstanceAs (Decidable (_ ∧ _))

omit [DecidableEq ι] in
theorem ne_cons_self (name : String) (q : Path) : q ≠ name :: q := by
  intro h
  have := congrArg List.length h
  simp at this

omit [DecidableEq ι] in
/-- Nodes that replace no directory, in directories, keep the tree closed. -/
theorem closed_put (fs : Fs ι) {name : String} {q : Path} {node : Node ι}
    (hq : isDirIn fs.nodes q) (hf : fs.nodes.get (name :: q) ≠ some .dir) (name' : String)
    (q' : Path) (h : ((fs.nodes.put (name :: q) node).get (name' :: q')).isSome) :
    isDirIn (fs.nodes.put (name :: q) node) q' := by
  have hkeep : ∀ p, isDirIn fs.nodes p → isDirIn (fs.nodes.put (name :: q) node) p := by
    rintro p (rfl | hp)
    · exact .inl rfl
    · refine .inr ?_
      rw [SortedMap.get_put_of_ne _ _ (by rintro rfl; exact hf hp), hp]
  by_cases heq : name' :: q' = name :: q
  · cases heq
    exact hkeep q hq
  · rw [SortedMap.get_put_of_ne _ _ heq] at h
    exact hkeep q' (fs.closed name' q' h)

/-- Write a token to a file, where that can be done. -/
def writeFile (fs : Fs ι) (f : Path) (t : Token ι) : Fs ι :=
  match f with
  | [] => fs
  | name :: q =>
    if h : fs.Writable (name :: q) then
      ⟨fs.nodes.put (name :: q) (.file (some t)), fs.closed_put h.1 h.2⟩
    else fs

/-- Remove a file. -/
def removeFile (fs : Fs ι) (f : Path) : Fs ι :=
  if h : fs.nodes.get f = some .dir then fs
  else
    { nodes := fs.nodes.erase f
      closed := by
        intro name q hq
        rw [SortedMap.get_erase] at hq
        split_ifs at hq with heq
        · cases hq
        · refine (fs.closed name q hq).imp id fun hdir => ?_
          rw [SortedMap.get_erase, if_neg, hdir]
          rintro rfl
          exact h hdir }

/-- A directory can be made. -/
def Makable (fs : Fs ι) : Path → Prop
  | [] => False
  | name :: q => fs.isDir q ∧ fs.nodes.get (name :: q) = none

instance (fs : Fs ι) : (p : Path) → Decidable (fs.Makable p)
  | [] => isFalse id
  | _ :: _ => inferInstanceAs (Decidable (_ ∧ _))

/-- Make a directory, where that can be done. -/
def makeDir (fs : Fs ι) (p : Path) : Fs ι :=
  match p with
  | [] => fs
  | name :: q =>
    if h : fs.Makable (name :: q) then
      ⟨fs.nodes.put (name :: q) .dir, fs.closed_put h.1 (by rw [h.2]; simp)⟩
    else fs

/-- The tree with no files. -/
def empty : Fs ι := ⟨.empty, fun _ _ h => by cases h⟩

/-- The entries of a directory: name, and whether it is a directory. -/
def entries (fs : Fs ι) (p : Path) : List (String × Bool) :=
  fs.nodes.entries.filterMap fun e =>
    match e.1 with
    | name :: q => if q = p then some (name, e.2 == .dir) else none
    | [] => none

/-! ## Tokens and directories after an operation -/

omit [DecidableEq ι] in
theorem token_empty (f : Path) : (empty : Fs ι).token f = none := rfl

theorem token_writeFile (fs : Fs ι) (f g : Path) (t : Token ι) :
    (fs.writeFile f t).token g = if g = f ∧ fs.Writable f then some t else fs.token g := by
  cases f with
  | nil => simp [writeFile, Writable]
  | cons name q =>
    by_cases h : fs.Writable (name :: q)
    · simp only [writeFile, h, dif_pos, token, SortedMap.get_put]
      by_cases hg : g = name :: q <;> simp [hg]
    · simp [writeFile, h]

theorem token_writeFile_of_writable {fs : Fs ι} {f : Path} (h : fs.Writable f) (g : Path)
    (t : Token ι) : (fs.writeFile f t).token g = if g = f then some t else fs.token g := by
  simp [token_writeFile, h]

theorem token_removeFile (fs : Fs ι) (f g : Path) :
    (fs.removeFile f).token g = if g = f then none else fs.token g := by
  by_cases h : fs.nodes.get f = some .dir
  · simp only [removeFile, h, dif_pos]
    split_ifs with hg
    · subst hg
      simp [token, h]
    · rfl
  · simp only [removeFile, h, dif_neg, not_false_iff, token, SortedMap.get_erase]
    by_cases hg : g = f <;> simp [hg]

theorem token_makeDir (fs : Fs ι) (p g : Path) : (fs.makeDir p).token g = fs.token g := by
  cases p with
  | nil => rfl
  | cons name q =>
    by_cases h : fs.Makable (name :: q)
    · simp only [makeDir, h, dif_pos, token, SortedMap.get_put]
      by_cases hg : g = name :: q
      · subst hg
        simp [h.2]
      · simp [hg]
    · simp [makeDir, h]

end Fs

/-! ## Calls -/

/-- Where `acquire_exact_path` and `acquire_tree` compare the loop's clock with their deadline:
before the write, after a conflict that they find with their token written to `lockPath`, or after
their token turns out to be lost. -/
inductive Wait where
  | before
  | conflict (lockPath : Path)
  | lost
  deriving DecidableEq

/-- The calls of the path-lock code: those of AGFS, and its readings of the clocks.  `readAt` is a
`read` with the `time.time_ns()` that follows it without an `await`. -/
inductive Call where
  | stat (path : Path)
  | read (lockPath : Path)
  | readAt (lockPath : Path)
  | timeNs
  | write (lockPath : Path) (ts : ℕ) (lockType : LockType)
  | rm (lockPath : Path)
  | mkdir (path : Path)
  | ls (path : Path)
  | deadline (wait : Wait)
  deriving DecidableEq

/-- What the calls return: `stat` whether the path is a directory, if there is one; `write` and
`mkdir` whether they raise no exception; `deadline` whether it has passed. -/
@[reducible]
def Reply (ι : Type) : Call → Type
  | .stat _ => Option Bool
  | .read _ => Option (Token ι)
  | .readAt _ => Option (Token ι) × ℕ
  | .timeNs => ℕ
  | .write _ _ _ => Bool
  | .rm _ => Unit
  | .mkdir _ => Bool
  | .ls _ => List (String × Bool)
  | .deadline _ => Bool

/-- A program over these calls. -/
abbrev Locking (ι : Type) := Prog (Reply ι)

namespace Agfs

def stat (path : Path) : Locking ι (Option Bool) := Prog.perform (Call.stat path)
def read (f : Path) : Locking ι (Option (Token ι)) := Prog.perform (Call.read f)
def readAt (f : Path) : Locking ι (Option (Token ι) × ℕ) := Prog.perform (Call.readAt f)
def timeNs : Locking ι ℕ := Prog.perform Call.timeNs
def write (f : Path) (ts : ℕ) (lockType : LockType) : Locking ι Bool :=
  Prog.perform (Call.write f ts lockType)
def rm (f : Path) : Locking ι Unit := Prog.perform (Call.rm f)
def mkdir (path : Path) : Locking ι Bool := Prog.perform (Call.mkdir path)
def ls (path : Path) : Locking ι (List (String × Bool)) := Prog.perform (Call.ls path)
def deadline (wait : Wait) : Locking ι Bool := Prog.perform (Call.deadline wait)

end Agfs

/-- The state: the file tree and the time; then, for the proofs only, the number of writes so far
and for each lock file the write since which it names its present owner (`born`), and since which it
is that owner's tree lock (`treeBorn`). -/
structure Sys (ι : Type) where
  fs : Fs ι
  clock : ℕ
  writes : ℕ
  born : Path → ℕ
  treeBorn : Path → ℕ

namespace Sys

variable [DecidableEq ι]

/-- A state to start in: a file tree and the time. -/
def ofFs (fs : Fs ι) (clock : ℕ) : Sys ι :=
  { fs, clock, writes := 0, born := fun _ => 0, treeBorn := fun _ => 0 }

/-- The token in a lock file. -/
def token (s : Sys ι) (f : Path) : Option (Token ι) := s.fs.token f

/-- The lock file names the owner. -/
def Names (s : Sys ι) (f : Path) (i : ι) : Prop := (s.token f).map Token.owner = some i

instance (s : Sys ι) (f : Path) (i : ι) : Decidable (s.Names f i) :=
  inferInstanceAs (Decidable (_ = _))

/-- The lock file is a tree lock of the owner. -/
def TreeOf (s : Sys ι) (f : Path) (i : ι) : Prop :=
  (s.token f).map (fun t => (t.owner, t.lockType)) = some (i, .tree)

instance (s : Sys ι) (f : Path) (i : ι) : Decidable (s.TreeOf f i) :=
  inferInstanceAs (Decidable (_ = _))

/-- The state after owner `i` writes a token to a file that can be written. -/
def written (s : Sys ι) (i : ι) (f : Path) (ts : ℕ) (lockType : LockType) : Sys ι :=
  { s with
    fs := s.fs.writeFile f ⟨i, ts, lockType⟩
    writes := s.writes + 1
    born := if s.Names f i then s.born else Function.update s.born f (s.writes + 1)
    treeBorn :=
      if s.TreeOf f i ∧ lockType = .tree then s.treeBorn
      else Function.update s.treeBorn f (s.writes + 1) }

/-- A call of owner `i`.  What the state leaves open is resolved by `n`: by how much the time moves
on, and whether a deadline has passed (for any `n` but 0). -/
def exec (i : ι) : (c : Call) → Sys ι → ℕ → Reply ι c × Sys ι
  | .stat path, s, _ =>
    (if path = [] then some true else (s.fs.nodes.get path).map (· == .dir), s)
  | .read f, s, _ => (s.token f, s)
  | .readAt f, s, n => ((s.token f, s.clock + n), { s with clock := s.clock + n })
  | .timeNs, s, n => (s.clock + n, { s with clock := s.clock + n })
  | .write f ts lockType, s, _ =>
    if s.fs.Writable f then (true, s.written i f ts lockType) else (false, s)
  | .rm f, s, _ => ((), { s with fs := s.fs.removeFile f })
  | .mkdir path, s, _ =>
    if s.fs.Makable path then (true, { s with fs := s.fs.makeDir path }) else (false, s)
  | .ls path, s, _ => (s.fs.entries path, s)
  | .deadline _, s, n => (decide (n ≠ 0), s)

/-- The token of each file after a call: a write that succeeds and an `rm` change that of their own
file, the other calls change none. -/
def tokenAfter (i : ι) (s : Sys ι) (f : Path) : Call → Option (Token ι)
  | .write g ts lockType => if f = g ∧ s.fs.Writable g then some ⟨i, ts, lockType⟩ else s.token f
  | .rm g => if f = g then none else s.token f
  | _ => s.token f

theorem token_exec (i : ι) (c : Call) (s : Sys ι) (n : ℕ) (f : Path) :
    (exec i c s n).2.token f = tokenAfter i s f c := by
  cases c with
  | write g ts lockType =>
    by_cases hw : s.fs.Writable g
    · simp [exec, hw, tokenAfter, token, written, Fs.token_writeFile]
    · simp [exec, hw, tokenAfter]
  | rm g => exact Fs.token_removeFile s.fs g f
  | mkdir path =>
    by_cases hm : s.fs.Makable path
    · simp [exec, hm, tokenAfter, token, Fs.token_makeDir]
    · simp [exec, hm, tokenAfter]
  | _ => rfl

end Sys

end OpenViking.Transaction
