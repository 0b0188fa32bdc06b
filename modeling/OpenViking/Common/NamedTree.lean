import Mathlib.Data.List.Basic
import Mathlib.Tactic.Common
import Mathlib.Tactic.SplitIfs

/-!
# Trees of files with named entries

A directory as the list of its entries, the first of a name being the one that counts, and what is
at a path below it.

Results:

* `find_erase`, `find_put`: removing or writing one name changes that name alone;
* `height_lt_of_find`: a directory is higher than the ones in it.
-/

namespace OpenViking.NamedTree

/-- The entries of a directory. -/
inductive Entries (K B : Type*) where
  | nil
  | file (name : K) (content : B) (rest : Entries K B)
  | dir (name : K) (children rest : Entries K B)
  deriving DecidableEq

/-- What has a name. -/
inductive Node (K B : Type*) where
  | file (content : B)
  | dir (children : Entries K B)
  deriving DecidableEq

namespace Node

variable {K B : Type*}

def isFile : Node K B → Bool
  | file _ => true
  | dir _ => false

def isDir : Node K B → Bool
  | file _ => false
  | dir _ => true

end Node

namespace Entries

variable {K B : Type*}

/-- The names, in the order of the entries. -/
def names : Entries K B → List K
  | nil => []
  | file name _ rest => name :: rest.names
  | dir name _ rest => name :: rest.names

/-- How deep the directories go. -/
def height : Entries K B → ℕ
  | nil => 0
  | file _ _ rest => rest.height
  | dir _ children rest => max (children.height + 1) rest.height

/-- An entry in front of the others. -/
def cons (name : K) (rest : Entries K B) : Node K B → Entries K B
  | .file content => file name content rest
  | .dir children => dir name children rest

variable [DecidableEq K]

/-- What has a name. -/
def find (name : K) : Entries K B → Option (Node K B)
  | nil => none
  | file n content rest => if n = name then some (.file content) else rest.find name
  | dir n children rest => if n = name then some (.dir children) else rest.find name

/-- Without a name. -/
def erase (name : K) : Entries K B → Entries K B
  | nil => nil
  | file n content rest =>
    if n = name then rest.erase name else file n content (rest.erase name)
  | dir n children rest =>
    if n = name then rest.erase name else dir n children (rest.erase name)

/-- With what has a name, or without the name. -/
def put (name : K) (node : Option (Node K B)) (d : Entries K B) : Entries K B :=
  match node with
  | none => d.erase name
  | some node => cons name (d.erase name) node

/-- The file at a path. -/
def fileAt : Entries K B → List K → Option B
  | _, [] => none
  | d, name :: path =>
    match d.find name with
    | none => none
    | some (.file content) => if path = [] then some content else none
    | some (.dir children) => children.fileAt path

/-- There is a directory at a path. -/
def dirAt : Entries K B → List K → Bool
  | _, [] => true
  | d, name :: path =>
    match d.find name with
    | some (.dir children) => children.dirAt path
    | _ => false

/-- Some directory has a file of this name. -/
def hasFile (name : K) : Entries K B → Bool
  | nil => false
  | file n _ rest => n = name || rest.hasFile name
  | dir _ children rest => children.hasFile name || rest.hasFile name

/-- An entry of this name, or below this entry, is a file of the searched name. -/
def itemHasFile (searched name : K) : Option (Node K B) → Bool
  | none => false
  | some (.file _) => name = searched
  | some (.dir children) => children.hasFile searched

theorem find_cons (name k : K) (rest : Entries K B) (node : Node K B) :
    (cons name rest node).find k = if name = k then some node else rest.find k := by
  cases node <;> rfl

theorem find_erase (d : Entries K B) (name k : K) :
    (d.erase name).find k = if k = name then none else d.find k := by
  induction d with
  | nil => simp [erase, find]
  | file n content rest ih | dir n children rest _ ih =>
    by_cases hn : n = name
    · rw [erase, if_pos hn, ih, find]
      by_cases hk : k = name
      · rw [if_pos hk, if_pos hk]
      · rw [if_neg hk, if_neg hk, if_neg fun h => hk (h.symm.trans hn)]
    · rw [erase, if_neg hn, find, find, ih]
      by_cases hk : k = name
      · rw [if_pos hk, if_pos hk, if_neg fun h => hn (h.trans hk)]
      · rw [if_neg hk, if_neg hk]

/-- Writing one name changes that name alone. -/
theorem find_put (d : Entries K B) (name k : K) (node : Option (Node K B)) :
    (d.put name node).find k = if k = name then node else d.find k := by
  cases node with
  | none => exact find_erase d name k
  | some node =>
    unfold put
    rw [find_cons, find_erase]
    by_cases h : k = name
    · rw [if_pos h.symm, if_pos h]
    · rw [if_neg (Ne.symm h), if_neg h, if_neg h]

@[simp] theorem find_put_self (d : Entries K B) (name : K) (node : Option (Node K B)) :
    (d.put name node).find name = node := by
  rw [find_put, if_pos rfl]

variable {name searched : K}

theorem find_put_of_ne (d : Entries K B) {k : K} (h : k ≠ name) (node : Option (Node K B)) :
    (d.put name node).find k = d.find k := by
  rw [find_put, if_neg h]

variable {d : Entries K B}

theorem mem_names_of_find {node : Node K B} (h : d.find name = some node) : name ∈ d.names := by
  induction d with
  | nil => cases h
  | file n content rest ih | dir n children rest _ ih =>
    unfold find at h
    split_ifs at h with hn
    · exact hn ▸ List.mem_cons_self
    · exact List.mem_cons_of_mem n (ih h)

/-- A directory is higher than the ones in it. -/
theorem height_lt_of_find {d children : Entries K B}
    (h : d.find name = some (.dir children)) : children.height < d.height := by
  induction d with
  | nil => cases h
  | file n content rest ih =>
    unfold find at h
    split_ifs at h
    · cases h
    · exact ih h
  | dir n children' rest _ ih =>
    unfold find at h
    show children.height < max (children'.height + 1) rest.height
    split_ifs at h
    · cases h
      omega
    · have := ih h
      omega

theorem hasFile_erase (h : d.hasFile searched = false) (name : K) :
    (d.erase name).hasFile searched = false := by
  induction d with
  | nil => rfl
  | file n content rest ih | dir n children rest _ ih =>
    unfold hasFile at h
    rw [Bool.or_eq_false_iff] at h
    unfold erase
    split_ifs
    · exact ih h.2
    · unfold hasFile
      rw [ih h.2, h.1, Bool.or_false]

theorem hasFile_put {node : Option (Node K B)}
    (h : d.hasFile searched = false) (hnode : itemHasFile searched name node = false) :
    (d.put name node).hasFile searched = false := by
  have herase := hasFile_erase h name
  cases node with
  | none => exact herase
  | some node =>
    cases node with
    | file content => exact Bool.or_eq_false_iff.2 ⟨hnode, herase⟩
    | dir children => exact Bool.or_eq_false_iff.2 ⟨hnode, herase⟩

theorem itemHasFile_find (h : d.hasFile searched = false)
    (name : K) : itemHasFile searched name (d.find name) = false := by
  induction d with
  | nil => rfl
  | file n content rest ih =>
    have h := Bool.or_eq_false_iff.1 h
    unfold find
    split_ifs with hn
    · rw [← hn]
      exact h.1
    · exact ih h.2
  | dir n children rest _ ih =>
    have h := Bool.or_eq_false_iff.1 h
    unfold find
    split_ifs
    · exact h.1
    · exact ih h.2

@[simp] theorem fileAt_nil (d : Entries K B) : d.fileAt [] = none := by
  unfold fileAt
  rfl

@[simp] theorem dirAt_nil (d : Entries K B) : d.dirAt [] = true := by
  unfold dirAt
  rfl

/-- The file at a path from what has its first name. -/
def itemFileAt : Option (Node K B) → List K → Option B
  | none, _ => none
  | some (.file content), path => if path = [] then some content else none
  | some (.dir children), path => children.fileAt path

/-- There is a directory at a path from what has its first name. -/
def itemDirAt : Option (Node K B) → List K → Bool
  | some (.dir children), path => children.dirAt path
  | _, _ => false

@[simp] theorem itemFileAt_none (path : List K) : itemFileAt (none : Option (Node K B)) path = none := rfl

@[simp] theorem itemFileAt_file (content : B) (path : List K) :
    itemFileAt (some (.file content) : Option (Node K B)) path =
      if path = [] then some content else none := rfl

@[simp] theorem itemFileAt_dir (children : Entries K B) (path : List K) :
    itemFileAt (some (.dir children)) path = children.fileAt path := rfl

@[simp] theorem itemDirAt_none (path : List K) : itemDirAt (none : Option (Node K B)) path = false := rfl

@[simp] theorem itemDirAt_file (content : B) (path : List K) :
    itemDirAt (some (.file content) : Option (Node K B)) path = false := rfl

@[simp] theorem itemDirAt_dir (children : Entries K B) (path : List K) :
    itemDirAt (some (.dir children)) path = children.dirAt path := rfl

theorem fileAt_cons (d : Entries K B) (name : K) (path : List K) :
    d.fileAt (name :: path) = itemFileAt (d.find name) path := by
  rw [fileAt]
  rcases d.find name with _ | _ | _ <;> rfl

theorem dirAt_cons (d : Entries K B) (name : K) (path : List K) :
    d.dirAt (name :: path) = itemDirAt (d.find name) path := by
  rw [dirAt]
  rcases d.find name with _ | _ | _ <;> rfl

end Entries

end OpenViking.NamedTree
