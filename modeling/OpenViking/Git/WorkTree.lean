import OpenViking.Common.Dict
import Mathlib.Data.List.Induction
import Mathlib.Data.Int.Notation
import Mathlib.Tactic.Common

/-!
# The working tree

The files of an account as the snapshots see them: the calls of `FileSystem` on a `LocalFileSystem`
(`crates/ragfs/src/plugins/localfs/mod.rs`).

A path is the list of its components below `/local/{account}`.  What stands in a disk has a directory
above it, by a field of the structure.  A directory has no size and no time of its own here.  Results:

* `Disk.stat_write`, `Disk.stat_mkdirs`, `Disk.stat_remove`: what the calls do;
* `Disk.mkdirs_isSome_iff`, `Disk.remove_file`: when they succeed.
-/

namespace OpenViking.Git

/-- The components of a path. -/
abbrev Path := List String

/-- `q` is below `p`: it starts with `p` and a slash. -/
def Under (p q : Path) : Prop := p <+: q ∧ p ≠ q

instance (p q : Path) : Decidable (Under p q) := inferInstanceAs (Decidable (_ ∧ _))

theorem under_iff {p q : Path} : Under p q ↔ ∃ s, s ≠ [] ∧ q = p ++ s := by
  constructor
  · rintro ⟨⟨s, rfl⟩, hne⟩
    exact ⟨s, fun hs => hne (by rw [hs, List.append_nil]), rfl⟩
  · rintro ⟨s, hs, rfl⟩
    exact ⟨List.prefix_append _ _, fun h => hs (List.append_cancel_left (h.symm.trans (List.append_nil _).symm))⟩

theorem under_append {p : Path} {n : String} {s : Path} : Under p (p ++ n :: s) :=
  under_iff.2 ⟨_, List.cons_ne_nil _ _, rfl⟩

/-- What a path is on disk. -/
inductive Node (B : Type*) where
  | file (bytes : B) (mtime : ℤ)
  | dir
  deriving DecidableEq

/-- The files and directories of the account; its root is not listed. -/
structure Disk (B : Type*) where
  nodes : Dict Path (Node B)
  parents : ∀ p n node, nodes.get (p ++ [n]) = some node → p = [] ∨ nodes.get p = some .dir

variable {B : Type*}

namespace Disk

/-! ## Calls -/

def empty : Disk B := ⟨.empty, nofun⟩

/-- `stat` (891-918); `none` is `NotFound`. -/
def stat (d : Disk B) (p : Path) : Option (Node B) := if p = [] then some .dir else d.nodes.get p

def isDir (d : Disk B) (p : Path) : Bool :=
  match d.stat p with
  | some .dir => true
  | _ => false

/-- The bytes of a file. -/
def file (d : Disk B) (p : Path) : Option B :=
  match d.stat p with
  | some (.file bytes _) => some bytes
  | _ => none

/-- `tree_directory` (`core/filesystem.rs`, 463-619): the files below a directory, in some order. -/
def listUnder (d : Disk B) (p : Path) : List Path :=
  d.nodes.entries.filterMap fun e =>
    match e.2 with
    | .file _ _ => if Under p e.1 then some e.1 else none
    | .dir => none

variable {p q : Path}

theorem isDir_iff {d : Disk B} : d.isDir p = true ↔ d.stat p = some .dir := by
  rw [isDir]
  rcases d.stat p with _ | _ | _ <;> simp

variable {node : Node B}

theorem stat_parent {d : Disk B} {n : String} (h : d.stat (p ++ [n]) = some node) : d.stat p = some .dir := by
  rw [stat, if_neg (by simp)] at h
  by_cases hp : p = []
  · rw [stat, if_pos hp]
  · rw [stat, if_neg hp]
    exact (d.parents p n node h).resolve_left hp

/-- What is above something is a directory. -/
theorem stat_above {d : Disk B} (h : d.stat q = some node) (hu : Under p q) : d.stat p = some .dir := by
  obtain ⟨s, hs, rfl⟩ := under_iff.1 hu
  clear hu
  induction s using List.reverseRecOn generalizing node with
  | nil => exact absurd rfl hs
  | append_singleton s n ih =>
    rw [← List.append_assoc] at h
    have hdir := stat_parent h
    by_cases hs' : s = []
    · rwa [hs', List.append_nil] at hdir
    · exact ih hs' hdir

theorem stat_of_file {d : Disk B} {bytes : B} (h : d.file p = some bytes) :
    ∃ mtime, d.stat p = some (.file bytes mtime) := by
  rw [file] at h
  split at h
  · rename_i b m hstat
    obtain rfl := Option.some.inj h
    exact ⟨m, hstat⟩
  · cases h

/-- Nothing is below a file or a missing path. -/
theorem stat_below {d : Disk B} (h : d.stat p ≠ some .dir) (hu : Under p q) : d.stat q = none := by
  by_contra hq
  obtain ⟨node, hnode⟩ := Option.ne_none_iff_exists'.1 hq
  exact h (stat_above hnode hu)

/-- No file is above another. -/
theorem eq_of_prefix {d : Disk B} {b b' : B} (hp : d.file p = some b)
    (hq : d.file q = some b') (h : p <+: q) : p = q := by
  by_contra hne
  obtain ⟨t, hstat⟩ := stat_of_file hp
  obtain ⟨t', hstat'⟩ := stat_of_file hq
  rw [stat_above hstat' ⟨h, hne⟩] at hstat
  cases hstat

theorem not_prefix_of_isDir {d : Disk B} (hp : d.isDir p = false) (hq : d.isDir q = true) : ¬ p <+: q := by
  intro h
  by_cases heq : p = q
  · rw [heq, hq] at hp
    cases hp
  · have := stat_above (isDir_iff.1 hq) ⟨h, heq⟩
    rw [isDir_iff.2 this] at hp
    cases hp

theorem isDir_of_isDir_append {d : Disk B} {n : String} (h : d.isDir (p ++ [n]) = true) : d.isDir p = true :=
  isDir_iff.2 (stat_parent (isDir_iff.1 h))

theorem file_eq_none_of_stat {d : Disk B} (h : d.stat p = none) : d.file p = none := by
  rw [file, h]

theorem file_of_stat {d : Disk B} {b : B} {t : ℤ} (h : d.stat p = some (.file b t)) :
    d.file p = some b := by
  rw [file, h]

theorem mem_listUnder {d : Disk B} : q ∈ d.listUnder p ↔ Under p q ∧ (d.file q).isSome = true := by
  have hne : Under p q → q ≠ [] := fun hu hq => by
    obtain ⟨s, hs, heq⟩ := under_iff.1 hu
    exact hs (List.append_eq_nil_iff.1 (heq.symm.trans hq)).2
  rw [listUnder, List.mem_filterMap]
  constructor
  · rintro ⟨⟨q', node⟩, hmem, he⟩
    cases node with
    | dir => cases he
    | file bytes mtime =>
      dsimp only at he
      split at he
      · rename_i hu
        obtain rfl := Option.some.inj he
        refine ⟨hu, ?_⟩
        rw [file, stat, if_neg (hne hu), Dict.get_eq_some_iff.2 hmem]
        rfl
      · cases he
  · rintro ⟨hu, hfile⟩
    obtain ⟨bytes, hbytes⟩ := Option.isSome_iff_exists.1 hfile
    obtain ⟨mtime, hstat⟩ := stat_of_file hbytes
    rw [stat, if_neg (hne hu)] at hstat
    exact ⟨(q, .file bytes mtime), Dict.get_eq_some_iff.1 hstat, by simp [hu]⟩

/-! ## Changes -/

/-- What stands at a path after its parent was found to be a directory and it was found to be none. -/
def put (d : Disk B) (dirs : Path) (name : String) (node : Node B)
    (hdirs : d.isDir dirs = true) (hself : ¬ d.isDir (dirs ++ [name]) = true) : Disk B where
  nodes := d.nodes.set (dirs ++ [name]) node
  parents := by
    intro p n node' h
    rw [isDir_iff] at hdirs hself
    rw [Dict.get_set] at h ⊢
    have hpar : p ≠ [] → p ≠ dirs ++ [name] → d.nodes.get p = some .dir := by
      intro hp hne
      split at h
      · rename_i heq
        obtain ⟨rfl, -⟩ := List.append_inj' heq rfl
        rwa [stat, if_neg hp] at hdirs
      · exact (d.parents p n node' h).resolve_left hp
    by_cases hp : p = []
    · exact .inl hp
    · refine .inr ?_
      split
      · rename_i heq
        subst heq
        rw [if_neg (by simp)] at h
        have := (d.parents _ n node' h).resolve_left hp
        rw [stat, if_neg hp] at hself
        exact absurd this hself
      · rename_i hne
        exact hpar hp hne

/-- `write` with `WriteFlag::Create` (797-843), at the tick `now`. -/
def write (d : Disk B) (dirs : Path) (name : String) (bytes : B) (now : ℤ) : Option (Disk B) :=
  if hself : d.isDir (dirs ++ [name]) = true then none
  else if hdirs : d.isDir dirs = true then some (d.put dirs name (.file bytes now) hdirs hself)
  else none

/-- `ensure_parent_dirs` (1036-1048): the missing directories from `above` on. -/
def mkdirs (d : Disk B) (above : Path) : Path → Option (Disk B)
  | [] => some d
  | name :: rest =>
    if hself : d.isDir (above ++ [name]) = true then mkdirs d (above ++ [name]) rest
    else if hdirs : d.isDir above = true then
      if (d.file (above ++ [name])).isSome then none
      else mkdirs (d.put above name .dir hdirs hself) (above ++ [name]) rest
    else none

variable {name : String} {dirs : Path}

theorem stat_put {d : Disk B}
    {hdirs : d.isDir dirs = true} {hself : ¬ d.isDir (dirs ++ [name]) = true} (p : Path) :
    (d.put dirs name node hdirs hself).stat p =
      if p = dirs ++ [name] then some node else d.stat p := by
  by_cases hp : p = []
  · rw [stat, if_pos hp, if_neg (by simp [hp]), stat, if_pos hp]
  · rw [stat, if_neg hp, put, Dict.get_set, stat, if_neg hp]

/-- `read_dir` (845-889): the names in a directory. -/
def readDir (d : Disk B) (p : Path) : List String :=
  d.nodes.entries.filterMap fun e => e.1.getLast?.bind fun n =>
    if e.1 = p ++ [n] then some n else none

/-- An empty directory, a file or a missing path has nothing below it. -/
theorem readDir_eq_nil_iff {d : Disk B} : d.readDir p = [] ↔ ∀ q, Under p q → d.stat q = none := by
  rw [List.eq_nil_iff_forall_not_mem]
  constructor
  · intro h q hu
    by_contra hq
    obtain ⟨node, hnode⟩ := Option.ne_none_iff_exists'.1 hq
    obtain ⟨s, hs, rfl⟩ := under_iff.1 hu
    obtain ⟨n, s, rfl⟩ := List.exists_cons_of_ne_nil hs
    have hchild : ∃ c, d.stat (p ++ [n]) = some c := by
      by_cases hs' : s = []
      · exact ⟨node, by rwa [hs'] at hnode⟩
      · refine ⟨.dir, stat_above hnode (under_iff.2 ⟨s, hs', ?_⟩)⟩
        simp
    obtain ⟨c, hc⟩ := hchild
    rw [stat, if_neg (by simp)] at hc
    refine h n (List.mem_filterMap.2 ⟨(p ++ [n], c), Dict.get_eq_some_iff.1 hc, ?_⟩)
    simp
  · intro h n hn
    obtain ⟨⟨q, node⟩, hmem, he⟩ := List.mem_filterMap.1 hn
    obtain ⟨n', -, hif⟩ := Option.bind_eq_some_iff.1 he
    split at hif
    · rename_i heq
      dsimp only at heq
      have hq := h q (heq ▸ under_append)
      rw [stat, if_neg (by rw [heq]; simp), Dict.get_eq_some_iff.2 hmem] at hq
      cases hq
    · cases hif

inductive RemoveError where
  | notFound
  | notEmpty
  deriving DecidableEq

/-- `remove` (726-750) of a file or an empty directory. -/
def remove (d : Disk B) (p : Path) : Except RemoveError (Disk B) :=
  if (d.stat p).isNone then .error .notFound
  else if h : d.readDir p = [] then
    .ok {
      nodes := d.nodes.erase p
      parents := by
        intro q n node hget
        rw [Dict.get_erase] at hget
        split at hget
        · cases hget
        · have hne : q ≠ p := by
            rintro rfl
            have := readDir_eq_nil_iff.1 h (q ++ [n]) under_append
            rw [stat, if_neg (by simp), hget] at this
            cases this
          refine (d.parents q n node hget).imp_right fun hdir => ?_
          rw [Dict.get_erase, if_neg hne]
          exact hdir }
  else .error .notEmpty

/-! ### What the calls leave -/

theorem file_put {d : Disk B} {hdirs : d.isDir dirs = true} {hself : ¬ d.isDir (dirs ++ [name]) = true}
    (hp : p ≠ dirs ++ [name]) : (d.put dirs name node hdirs hself).stat p = d.stat p := by
  rw [stat_put, if_neg hp]

variable {d d' : Disk B}

theorem stat_write {bytes : B} {now : ℤ} (h : d.write dirs name bytes now = some d') (p : Path) :
    d'.stat p = if p = dirs ++ [name] then some (.file bytes now) else d.stat p := by
  rw [write] at h
  split at h
  · cases h
  · split at h
    · obtain rfl := Option.some.inj h
      exact stat_put p
    · cases h

variable {above rest : Path}

/-- Making directories changes nothing that is there. -/
theorem stat_mkdirs (h : d.mkdirs above rest = some d') (p : Path) : d'.stat p = d.stat p ∨
      (d.stat p = none ∧ d'.stat p = some .dir ∧ p <+: above ++ rest) := by
  induction rest generalizing d above with
  | nil =>
    obtain rfl := Option.some.inj h
    exact .inl rfl
  | cons name rest ih =>
    have hsplit : above ++ name :: rest = above ++ [name] ++ rest := by simp
    rw [mkdirs] at h
    split at h
    · rw [hsplit]
      exact ih h
    · rename_i hself
      split at h
      · split at h
        · cases h
        · rename_i hfile
          have hnone : d.stat (above ++ [name]) = none := by
            rcases hstat : d.stat (above ++ [name]) with _ | ⟨b, t⟩ | _
            · rfl
            · rw [file_of_stat hstat] at hfile
              exact absurd rfl hfile
            · exact absurd (isDir_iff.2 hstat) hself
          by_cases hp : p = above ++ [name]
          · subst hp
            refine .inr ⟨hnone, ?_, ⟨rest, hsplit.symm⟩⟩
            rcases ih h with heq | ⟨-, hdir, -⟩
            · rw [heq, stat_put, if_pos rfl]
            · exact hdir
          · have := ih h
            rwa [file_put hp, ← hsplit] at this
      · cases h

/-- The directories are there afterwards. -/
theorem isDir_mkdirs (h : d.mkdirs above rest = some d')
    (habove : d.isDir above = true) : d'.isDir (above ++ rest) = true := by
  induction rest generalizing d above with
  | nil =>
    obtain rfl := Option.some.inj h
    rwa [List.append_nil]
  | cons name rest ih =>
    have hsplit : above ++ name :: rest = above ++ [name] ++ rest := by simp
    rw [mkdirs] at h
    rw [hsplit]
    split at h
    · rename_i hself
      exact ih h hself
    · split at h
      · cases h
      · refine ih h (isDir_iff.2 ?_)
        rw [stat_put, if_pos rfl]

theorem prefix_cons_cases {above rest : Path} (h : above <+: p)
    (h' : p <+: above ++ name :: rest) : p = above ∨ above ++ [name] <+: p := by
  obtain ⟨s, rfl⟩ := h
  rw [List.prefix_append_right_inj] at h'
  cases s with
  | nil => exact .inl (List.append_nil _)
  | cons n s =>
    obtain ⟨rfl, -⟩ := List.cons_prefix_cons.1 h'
    exact .inr ⟨s, by simp⟩

/-- Directories can be made exactly when no file stands in their way. -/
theorem mkdirs_isSome_iff {d : Disk B} (habove : d.isDir above = true) :
    (d.mkdirs above rest).isSome = true ↔
      ∀ p, above <+: p → p <+: above ++ rest → d.file p = none := by
  induction rest generalizing d above with
  | nil =>
    refine iff_of_true rfl fun p h1 h2 => ?_
    rw [List.append_nil] at h2
    obtain rfl := List.IsPrefix.eq_of_length h1 (Nat.le_antisymm h1.length_le h2.length_le)
    rw [file, isDir_iff.1 habove]
  | cons name rest ih =>
    have hsplit : above ++ name :: rest = above ++ [name] ++ rest := by simp
    have hnone : d.file above = none := by rw [file, isDir_iff.1 habove]
    have hcond : (∀ p, above <+: p → p <+: above ++ name :: rest → d.file p = none) ↔
        ∀ p, above ++ [name] <+: p → p <+: above ++ [name] ++ rest → d.file p = none := by
      rw [← hsplit]
      constructor
      · exact fun h p h1 h2 => h p ((List.prefix_append _ _).trans h1) h2
      · intro h p h1 h2
        rcases prefix_cons_cases h1 h2 with rfl | h1'
        · exact hnone
        · exact h p h1' h2
    rw [hcond, mkdirs]
    by_cases hself : d.isDir (above ++ [name]) = true
    · rw [dif_pos hself]
      exact ih hself
    · rw [dif_neg hself, dif_pos habove]
      cases hfile : d.file (above ++ [name]) with
      | some b =>
        refine iff_of_false (by simp) fun h => ?_
        rw [h _ List.prefix_rfl (List.prefix_append _ _)] at hfile
        cases hfile
      | none =>
        rw [if_neg (by simp), ih (isDir_iff.2 (by rw [stat_put, if_pos rfl]))]
        refine forall_congr' fun p => imp_congr_right fun _ => imp_congr_right fun _ => ?_
        by_cases hp : p = above ++ [name]
        · rw [hp, hfile, file, stat_put, if_pos rfl]
        · rw [file, file_put hp, file]

theorem stat_remove (h : d.remove p = .ok d') (q : Path) (hq : q ≠ []) :
    d'.stat q = if q = p then none else d.stat q := by
  rw [remove] at h
  split at h
  · cases h
  · split at h
    · obtain rfl : _ = d' := by simpa using h
      rw [stat, if_neg hq, Dict.get_erase, stat, if_neg hq]
    · cases h

/-- A file can be removed. -/
theorem remove_file {d : Disk B} {b : B} (h : d.file p = some b) : ∃ d', d.remove p = .ok d' := by
  obtain ⟨t, hstat⟩ := stat_of_file h
  have hempty : d.readDir p = [] :=
    readDir_eq_nil_iff.2 fun q hu => stat_below (by rw [hstat]; nofun) hu
  rw [remove, hstat, if_neg (by simp), dif_pos hempty]
  exact ⟨_, rfl⟩

end Disk

end OpenViking.Git
