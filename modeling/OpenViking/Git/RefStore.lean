import OpenViking.Common.System

/-!
# The local ref store

A model of `LocalRefStore::cas_update` (`crates/ragfs/src/git/backends/local.rs`): any number of calls
on the refs of one account, each advanced from one file-system step to the next, where any step may
fail.

The lock is one per ref *name*, and the temp file is named after the ref's *path*.  Results:

* `inChain_of_orderly`: the chain of a head holds every commit that was set on it;
* `separate_iff`: these are exactly the sets of names whose updates never interfere.
-/

namespace OpenViking.Git

/-- An object id of 20 bytes. -/
abbrev ObjectId := BitVec 160

/-! ## Names and paths -/

/-- `validate_ref_name` (`util.rs`, 15-45). -/
def validateRefName (name : List Char) : Bool :=
  name ≠ [] && (name.zip name.tail).all (· ≠ ('.', '.')) && name.head? ≠ some '/' &&
    name.getLast? ≠ some '/' && name.all fun c => c ∉ [' ', '\x00', '~', '^', ':', '?', '[', '*']

/-- The components of the path that a name joined to the account's directory stands for. -/
def refPath (name : List Char) : List (List Char) :=
  (name.splitOn '/').filter fun part => part ≠ [] && part ≠ ['.']

/-- `Path::file_stem`: the name up to its last dot, unless that starts the name. -/
def fileStem (name : List Char) : List Char :=
  let before := (name.reverse.dropWhile (· ≠ '.')).tail.reverse
  if before = [] then name else before

/-- `path.with_extension("tmp")`. -/
def tmpPath (path : List (List Char)) : List (List Char) :=
  path.dropLast ++ [fileStem (path.getLastD []) ++ ['.', 't', 'm', 'p']]

/-! ## Calls -/

/-- The arguments of `cas_update`. -/
structure RefCall where
  name : List Char
  expected : Option ObjectId
  new : ObjectId
  deriving DecidableEq

inductive RefStoreError where
  | invalidName
  | conflict (expected actual : Option ObjectId)
  | io
  deriving DecidableEq

/-- Where a call is: it has not begun, it has the lock, it has found the expected value, it has written
the temp file, it has returned. -/
inductive RefPhase where
  | idle
  | locked
  | checked
  | written
  | done (outcome : Except RefStoreError Unit)

def RefPhase.holds : RefPhase → Bool
  | .locked => true
  | .checked => true
  | .written => true
  | _ => false

/-- The files of the account, the names whose lock is taken, the calls, and the calls that succeeded,
the last one first. -/
structure RefStore where
  files : List (List Char) → Option ObjectId
  locks : List (List Char)
  phase : ℕ → RefPhase
  log : List ℕ

/-- A call takes its next step, or that step fails. -/
inductive RefAct where
  | advance (i : ℕ)
  | fail (i : ℕ)
  deriving DecidableEq

namespace RefStore

variable (call : ℕ → RefCall)

/-- No call has begun. -/
def init (files : List (List Char) → Option ObjectId) : RefStore where
  files := files
  locks := []
  phase _ := .idle
  log := []

def goto (s : RefStore) (i : ℕ) (p : RefPhase) : RefStore :=
  { s with phase := Function.update s.phase i p }

/-- A call returns and lets its lock go. -/
def finish (s : RefStore) (i : ℕ) (outcome : Except RefStoreError Unit) : RefStore :=
  { s with
    locks := s.locks.filter (· ≠ (call i).name)
    phase := Function.update s.phase i (.done outcome) }

/-- `rename(tmp_path, path)`; `none` when there is no temp file. -/
def rename (files : List (List Char) → Option ObjectId) (path : List (List Char)) :
    Option (List (List Char) → Option ObjectId) :=
  (files (tmpPath path)).map fun value =>
    Function.update (Function.update files (tmpPath path) none) path (some value)

/-- `cas_update` (201-240), one file-system step at a time. -/
def advance (s : RefStore) (i : ℕ) : Option RefStore :=
  let path := refPath (call i).name
  match s.phase i with
  | .idle =>
    if !validateRefName (call i).name then some (s.goto i (.done (.error .invalidName)))
    else if (call i).name ∈ s.locks then none
    else some { s.goto i .locked with locks := (call i).name :: s.locks }
  | .locked =>
    -- the account's directory is no file
    if path = [] then some (s.finish call i (.error .io))
    else if s.files path = (call i).expected then some (s.goto i .checked)
    else some (s.finish call i (.error (.conflict (call i).expected (s.files path))))
  | .checked =>
    some { s.goto i .written with
      files := Function.update s.files (tmpPath path) (some (call i).new) }
  | .written =>
    match rename s.files path with
    | none => some (s.finish call i (.error .io))
    | some files => some { s.finish call i (.ok ()) with files := files, log := i :: s.log }
  | .done _ => none

def step (s : RefStore) : RefAct → Option RefStore
  | .advance i => s.advance call i
  | .fail i => if (s.phase i).holds then some (s.finish call i (.error .io)) else none

/-! ## What is claimed -/

/-- The value of a ref after the successful calls of a log, from the value in `start`. -/
def valueAfter (start : List (List Char) → Option ObjectId) (name : List Char) :
    List ℕ → Option ObjectId
  | [] => start (refPath name)
  | i :: is => if (call i).name = name then some (call i).new else valueAfter start name is

/-- Every successful call expected the value of its ref. -/
def Orderly (start : List (List Char) → Option ObjectId) : List ℕ → Prop
  | [] => True
  | i :: is => (call i).expected = valueAfter call start (call i).name is ∧ Orderly start is

/-- A commit is in the first-parent chain of a head. -/
inductive InChain (parent : ObjectId → Option ObjectId) : Option ObjectId → ObjectId → Prop
  | head (c : ObjectId) : InChain parent (some c) c
  | older {c d : ObjectId} (h : InChain parent (parent c) d) : InChain parent (some c) d

/-- **Refs never interfere and no commit is lost.** -/
structure Safe (names : Set (List Char)) (start : List (List Char) → Option ObjectId)
    (s : RefStore) : Prop where
  files : ∀ n ∈ names, refPath n ≠ [] → s.files (refPath n) = valueAfter call start n s.log
  orderly : Orderly call start s.log
  succeeded : ∀ i, i ∈ s.log ↔ ∃ u, s.phase i = .done (.ok u)
  chain : ∀ parent : ObjectId → Option ObjectId, (∀ i, parent (call i).new = (call i).expected) →
    ∀ i ∈ s.log, InChain parent (s.files (refPath (call i).name)) (call i).new

/-- The files and the temp files of different names are different, and no temp file is the file of a
name.  A name such as `.` has no file: it stands for the account's directory. -/
structure Separate (names : Set (List Char)) : Prop where
  path : ∀ n ∈ names, ∀ m ∈ names, refPath n ≠ [] → refPath n = refPath m → n = m
  tmp : ∀ n ∈ names, ∀ m ∈ names, refPath n ≠ [] → refPath m ≠ [] →
    tmpPath (refPath n) = tmpPath (refPath m) → n = m
  apart : ∀ n ∈ names, ∀ m ∈ names, refPath n ≠ [] → tmpPath (refPath n) ≠ refPath m

/-- Every interleaving of every choice of calls on the names is safe, from any files. -/
def NeverInterfere (names : Set (List Char)) : Prop :=
  ∀ (call : ℕ → RefCall) (start : List (List Char) → Option ObjectId) (s : RefStore),
    (∀ i, (call i).name ∈ names) →
      Reaches (step call) (fun _ _ => True) (init start) s → Safe call names start s

/-! ## The invariant -/

/-- The invariant of the calls on separate names. -/
structure Inv (names : Set (List Char)) (start : List (List Char) → Option ObjectId)
    (s : RefStore) : Prop where
  files : ∀ n ∈ names, refPath n ≠ [] → s.files (refPath n) = valueAfter call start n s.log
  orderly : Orderly call start s.log
  succeeded : ∀ i, i ∈ s.log ↔ ∃ u, s.phase i = .done (.ok u)
  named : ∀ i ∈ s.log, refPath (call i).name ≠ []
  locked : ∀ i, (s.phase i).holds = true → (call i).name ∈ s.locks
  exclusive : ∀ i j, (s.phase i).holds = true → (s.phase j).holds = true →
    (call i).name = (call j).name → i = j
  checked : ∀ i, s.phase i = .checked ∨ s.phase i = .written → refPath (call i).name ≠ [] ∧
    (call i).expected = valueAfter call start (call i).name s.log
  written : ∀ i, s.phase i = .written →
    s.files (tmpPath (refPath (call i).name)) = some (call i).new

variable {call} {names : Set (List Char)} {start : List (List Char) → Option ObjectId}
  {s u : RefStore} {i : ℕ}

theorem holds_goto {j : ℕ} {p : RefPhase} (hj : ((s.goto i p).phase j).holds = true) :
    j = i ∧ p.holds = true ∨ j ≠ i ∧ (s.phase j).holds = true := by
  change (Function.update s.phase i p j).holds = true at hj
  by_cases hji : j = i
  · rw [hji, Function.update_self] at hj
    exact .inl ⟨hji, hj⟩
  · rw [Function.update_of_ne hji] at hj
    exact .inr ⟨hji, hj⟩

section

variable (h : Inv call names start s)

include h

/-- A call goes on to a phase in which it knows what it knew, or has just found out; the locks may
change, as long as the calls that hold one hold it alone. -/
theorem Inv.goto_locks {p : RefPhase} (locks : List (List Char))
    (hlocked : ∀ j, ((s.goto i p).phase j).holds = true → (call j).name ∈ locks)
    (hexclusive : ∀ j k, ((s.goto i p).phase j).holds = true → ((s.goto i p).phase k).holds = true →
      (call j).name = (call k).name → j = k) (hok : ∀ u, s.phase i ≠ .done (.ok u))
    (hp : ∀ u, p ≠ .done (.ok u)) (hchecked : p = .checked ∨ p = .written → refPath (call i).name ≠ [] ∧
      (call i).expected = valueAfter call start (call i).name s.log)
    (hwritten : p = .written → s.files (tmpPath (refPath (call i).name)) = some (call i).new) :
    Inv call names start { s.goto i p with locks := locks } := by
  have hother : ∀ j, j ≠ i → (s.goto i p).phase j = s.phase j := fun j hj =>
    Function.update_of_ne hj _ _
  have hself : (s.goto i p).phase i = p := Function.update_self _ _ _
  refine ⟨h.files, h.orderly, fun j => ?_, h.named, hlocked, hexclusive, fun j hj => ?_, fun j hj => ?_⟩
  · show j ∈ s.log ↔ ∃ u, (s.goto i p).phase j = .done (.ok u)
    by_cases hji : j = i
    · subst hji
      rw [hself]
      constructor
      · intro hmem
        obtain ⟨u, hu⟩ := (h.succeeded j).1 hmem
        exact absurd hu (hok u)
      · rintro ⟨u, hu⟩
        exact absurd hu (hp u)
    · rw [hother j hji]
      exact h.succeeded j
  · change (s.goto i p).phase j = .checked ∨ (s.goto i p).phase j = .written at hj
    by_cases hji : j = i
    · subst hji
      rw [hself] at hj
      exact hchecked hj
    · rw [hother j hji] at hj
      exact h.checked j hj
  · change (s.goto i p).phase j = .written at hj
    by_cases hji : j = i
    · subst hji
      rw [hself] at hj
      exact hwritten hj
    · rw [hother j hji] at hj
      exact h.written j hj

/-- A call that fails lets its lock go and changes no ref. -/
theorem Inv.finish (hi : (s.phase i).holds = true)
    (e : RefStoreError) : Inv call names start (s.finish call i (.error e)) := by
  have hne : ∀ j, ((s.goto i (.done (.error e))).phase j).holds = true →
      j ≠ i ∧ (s.phase j).holds = true := fun j hj =>
    (holds_goto hj).resolve_left fun hself => by cases hself.2
  refine h.goto_locks _ (fun j hj => List.mem_filter.2 ⟨h.locked j (hne j hj).2, decide_eq_true fun hname => ?_⟩)
    (fun j k hj hk => h.exclusive j k (hne j hj).2 (hne k hk).2) (fun u hu => ?_) nofun nofun nofun
  · exact (hne j hj).1 (h.exclusive j i (hne j hj).2 hi hname)
  · rw [hu] at hi
    cases hi

theorem Inv.goto {p : RefPhase}
    (hi : p.holds = true → (s.phase i).holds = true) (hok : ∀ u, s.phase i ≠ .done (.ok u))
    (hp : ∀ u, p ≠ .done (.ok u)) (hchecked : p = .checked ∨ p = .written → refPath (call i).name ≠ [] ∧
      (call i).expected = valueAfter call start (call i).name s.log)
    (hwritten : p = .written → s.files (tmpPath (refPath (call i).name)) = some (call i).new) :
    Inv call names start (s.goto i p) := by
  have hholds : ∀ j, ((s.goto i p).phase j).holds = true → (s.phase j).holds = true := by
    intro j hj
    rcases holds_goto hj with ⟨rfl, hp⟩ | ⟨-, hj⟩
    · exact hi hp
    · exact hj
  exact h.goto_locks s.locks (fun j hj => h.locked j (hholds j hj))
    (fun j k hj hk => h.exclusive j k (hholds j hj) (hholds k hk)) hok hp hchecked hwritten

/-- A call takes the free lock of its name. -/
theorem Inv.lock (hi : s.phase i = .idle) (hfree : (call i).name ∉ s.locks) :
    Inv call names start { s.goto i .locked with locks := (call i).name :: s.locks } := by
  refine h.goto_locks _ (fun j hj => ?_) (fun j k hj hk hjk => ?_) (fun u hu => ?_) nofun nofun nofun
  · rcases holds_goto hj with ⟨rfl, -⟩ | ⟨-, hj⟩
    · exact List.mem_cons_self
    · exact List.mem_cons_of_mem _ (h.locked j hj)
  · rcases holds_goto hj with ⟨hji, -⟩ | ⟨-, hj'⟩
    · rcases holds_goto hk with ⟨hki, -⟩ | ⟨-, hk'⟩
      · exact hji.trans hki.symm
      · exact absurd (hji ▸ hjk ▸ h.locked k hk') hfree
    · rcases holds_goto hk with ⟨rfl, -⟩ | ⟨-, hk'⟩
      · exact absurd (hjk ▸ h.locked j hj') hfree
      · exact h.exclusive j k hj' hk' hjk
  · rw [hi] at hu
    cases hu

/-- The names of two calls that hold locks are different. -/
theorem Inv.name_ne {j : ℕ} (hij : j ≠ i) (hi : (s.phase i).holds = true) (hj : (s.phase j).holds = true) :
    (call j).name ≠ (call i).name :=
  fun hname => hij (h.exclusive j i hj hi hname)

/-- A call writes its temp file, which is no ref and no temp file of another call. -/
theorem Inv.write (hnames : ∀ i, (call i).name ∈ names) (hsep : Separate names) (hi : s.phase i = .checked) :
    Inv call names start { s with
      files := Function.update s.files (tmpPath (refPath (call i).name)) (some (call i).new) } := by
  have hpath := (h.checked i (.inl hi)).1
  have hholds : (s.phase i).holds = true := by rw [hi]; rfl
  refine ⟨fun n hn hne => ?_, h.orderly, h.succeeded, h.named, h.locked, h.exclusive, h.checked,
    fun j hj => ?_⟩
  · refine (Function.update_of_ne ?_ _ _).trans (h.files n hn hne)
    exact fun heq => hsep.apart _ (hnames i) n hn hpath heq.symm
  · have hji : j ≠ i := by
      rintro rfl
      rw [hi] at hj
      cases hj
    refine (Function.update_of_ne ?_ _ _).trans (h.written j hj)
    intro heq
    refine h.name_ne hji hholds (by rw [hj]; rfl) ?_
    exact hsep.tmp _ (hnames j) _ (hnames i) (h.checked j (.inr hj)).1 hpath heq

/-- A call renames its temp file over its ref. -/
theorem Inv.succeed (hnames : ∀ i, (call i).name ∈ names)
    (hsep : Separate names) (hi : s.phase i = .written) :
    rename s.files (refPath (call i).name) = some (Function.update
      (Function.update s.files (tmpPath (refPath (call i).name)) none)
        (refPath (call i).name) (some (call i).new)) ∧
    Inv call names start { s.finish call i (.ok ()) with
      files := Function.update (Function.update s.files (tmpPath (refPath (call i).name)) none)
        (refPath (call i).name) (some (call i).new)
      log := i :: s.log } := by
  obtain ⟨hpath, hexpected⟩ := h.checked i (.inr hi)
  have hholds : (s.phase i).holds = true := by rw [hi]; rfl
  have hother : ∀ j, j ≠ i → (s.finish call i (.ok ())).phase j = s.phase j := fun j hj =>
    Function.update_of_ne hj _ _
  have hself : (s.finish call i (.ok ())).phase i = .done (.ok ()) := Function.update_self _ _ _
  have hne : ∀ j, ((s.goto i (.done (.ok ()))).phase j).holds = true → j ≠ i ∧ (s.phase j).holds = true :=
    fun j hj => (holds_goto hj).resolve_left fun hi => by cases hi.2
  have hfiles : ∀ q, q ≠ refPath (call i).name → q ≠ tmpPath (refPath (call i).name) →
      Function.update (Function.update s.files (tmpPath (refPath (call i).name)) none)
        (refPath (call i).name) (some (call i).new) q = s.files q := by
    intro q hq hqt
    rw [Function.update_of_ne hq, Function.update_of_ne hqt]
  refine ⟨by rw [rename, h.written i hi]; rfl, fun n hn hnp => ?_, ⟨hexpected, h.orderly⟩,
    fun j => ?_, List.forall_mem_cons.2 ⟨hpath, h.named⟩, fun j hj => ?_,
    fun j k hj hk => h.exclusive j k (hne j hj).2 (hne k hk).2, fun j hj => ?_, fun j hj => ?_⟩
  · by_cases hname : (call i).name = n
    · have hvalue : valueAfter call start n (i :: s.log) = some (call i).new := if_pos hname
      rw [hvalue, ← hname]
      exact Function.update_self _ _ _
    · have hvalue : valueAfter call start n (i :: s.log) = valueAfter call start n s.log :=
        if_neg hname
      rw [hvalue, ← h.files n hn hnp]
      refine hfiles _ (fun heq => hname (hsep.path _ (hnames i) n hn hpath heq.symm)) fun heq => ?_
      exact hsep.apart _ (hnames i) n hn hpath heq.symm
  · show j ∈ i :: s.log ↔ ∃ u, (s.finish call i (.ok ())).phase j = .done (.ok u)
    by_cases hji : j = i
    · subst hji
      rw [hself]
      exact iff_of_true List.mem_cons_self ⟨(), rfl⟩
    · rw [hother j hji, List.mem_cons, or_iff_right hji]
      exact h.succeeded j
  · obtain ⟨hji, hj⟩ := hne j hj
    exact List.mem_filter.2 ⟨h.locked j hj, decide_eq_true (h.name_ne hji hholds hj)⟩
  · replace hj : (s.finish call i (.ok ())).phase j = .checked ∨
        (s.finish call i (.ok ())).phase j = .written := hj
    have hji : j ≠ i := by
      rintro rfl
      rw [hself] at hj
      rcases hj with hj | hj <;> cases hj
    rw [hother j hji] at hj
    obtain ⟨hjp, hje⟩ := h.checked j hj
    refine ⟨hjp, ?_⟩
    have hjh : (s.phase j).holds = true := by rcases hj with hj | hj <;> rw [hj] <;> rfl
    show (call j).expected = valueAfter call start (call j).name (i :: s.log)
    rw [valueAfter, if_neg (h.name_ne hji hholds hjh).symm]
    exact hje
  · replace hj : (s.finish call i (.ok ())).phase j = .written := hj
    have hji : j ≠ i := by
      rintro rfl
      rw [hself] at hj
      cases hj
    rw [hother j hji] at hj
    have hjp := (h.checked j (.inr hj)).1
    have hjh : (s.phase j).holds = true := by rw [hj]; rfl
    refine (hfiles _ (hsep.apart _ (hnames j) _ (hnames i) hjp) fun heq => ?_).trans (h.written j hj)
    exact h.name_ne hji hholds hjh (hsep.tmp _ (hnames j) _ (hnames i) hjp hpath heq)

/-- **One step** of calls on separate names keeps the invariant. -/
theorem inv_step {a : RefAct} (hnames : ∀ i, (call i).name ∈ names)
    (hsep : Separate names) (hs : step call s a = some u) : Inv call names start u := by
  cases a with
  | fail i =>
    simp only [step] at hs
    split at hs
    · rename_i hi
      exact Option.some.inj hs ▸ h.finish hi _
    · cases hs
  | advance i =>
    simp only [step, advance] at hs
    cases hp : s.phase i with
    | idle =>
      rw [hp] at hs
      simp only at hs
      split at hs
      · refine Option.some.inj hs ▸ h.goto nofun ?_ nofun ?_ nofun
        · intro u hu
          rw [hp] at hu
          cases hu
        · rintro (hc | hc) <;> cases hc
      · split at hs
        · cases hs
        · rename_i hfree
          exact Option.some.inj hs ▸ h.lock hp hfree
    | locked =>
      rw [hp] at hs
      simp only at hs
      have hholds : (s.phase i).holds = true := by rw [hp]; rfl
      split at hs
      · exact Option.some.inj hs ▸ h.finish hholds _
      · rename_i hpath
        split at hs
        · rename_i hvalue
          refine Option.some.inj hs ▸ h.goto (fun _ => hholds) ?_ nofun ?_ nofun
          · intro u hu
            rw [hp] at hu
            cases hu
          · exact fun _ => ⟨hpath, hvalue.symm.trans (h.files _ (hnames i) hpath)⟩
        · exact Option.some.inj hs ▸ h.finish hholds _
    | checked =>
      rw [hp] at hs
      obtain rfl := Option.some.inj hs
      have hwrite := h.write hnames hsep hp
      refine hwrite.goto (fun _ => ?_) ?_ nofun (fun _ => hwrite.checked i (.inl hp)) fun _ => ?_
      · show (s.phase i).holds = true
        rw [hp]
        rfl
      · intro u hu
        replace hu : s.phase i = .done (.ok u) := hu
        rw [hp] at hu
        cases hu
      · exact Function.update_self _ _ _
    | written =>
      obtain ⟨hrename, hinv⟩ := h.succeed hnames hsep hp
      rw [hp] at hs
      simp only [hrename] at hs
      exact Option.some.inj hs ▸ hinv
    | done outcome =>
      rw [hp] at hs
      cases hs

end

/-! ## Commits -/

/-- The chain of a ref's value holds every commit of the log on that ref, when each commit has the
value that its call expected as its parent. -/
theorem inChain_of_orderly {parent : ObjectId → Option ObjectId}
    (hparent : ∀ i, parent (call i).new = (call i).expected) {log : List ℕ}
    (h : Orderly call start log) {i : ℕ} (hi : i ∈ log) :
    InChain parent (valueAfter call start (call i).name log) (call i).new := by
  induction log with
  | nil => cases hi
  | cons j js ih =>
    rw [valueAfter]
    by_cases hname : (call j).name = (call i).name
    · rw [if_pos hname]
      rcases List.mem_cons.1 hi with rfl | hmem
      · exact .head _
      · refine .older ?_
        rw [hparent j, h.1, hname]
        exact ih h.2 hmem
    · rw [if_neg hname]
      have hmem : i ∈ js := by
        rcases List.mem_cons.1 hi with rfl | hmem
        · exact absurd rfl hname
        · exact hmem
      exact ih h.2 hmem

theorem safe_of_inv (h : Inv call names start s) (hnames : ∀ i, (call i).name ∈ names) :
    Safe call names start s := by
  refine ⟨h.files, h.orderly, h.succeeded, fun parent hparent i hi => ?_⟩
  rw [h.files _ (hnames i) (h.named i hi)]
  exact inChain_of_orderly hparent h.orderly hi

/-! ## Names that interfere -/

section Interference

variable (call) (i) {t : RefStore}

/-- A call that nobody is in the way of has written its temp file after three steps. -/
theorem reaches_written (hs : Reaches (step call) (fun _ _ => True) t s)
    (hvalid : validateRefName (call i).name = true) (hpath : refPath (call i).name ≠ [])
    (hidle : s.phase i = .idle) (hfree : (call i).name ∉ s.locks)
    (hvalue : s.files (refPath (call i).name) = (call i).expected) :
    Reaches (step call) (fun _ _ => True) t
      { files := Function.update s.files (tmpPath (refPath (call i).name)) (some (call i).new)
        locks := (call i).name :: s.locks
        phase := Function.update s.phase i .written
        log := s.log } := by
  have h1 : step call s (.advance i) = some
      { s.goto i .locked with locks := (call i).name :: s.locks } := by
    simp only [step, advance, hidle, hvalid, if_neg hfree]
    rfl
  have h2 : step call { s.goto i .locked with locks := (call i).name :: s.locks } (.advance i) =
      some { s.goto i .checked with locks := (call i).name :: s.locks } := by
    simp only [step, advance, goto, Function.update_self, if_neg hpath, if_pos hvalue,
      Function.update_idem]
  have h3 : step call { s.goto i .checked with locks := (call i).name :: s.locks } (.advance i) =
      some { files := Function.update s.files (tmpPath (refPath (call i).name)) (some (call i).new)
             locks := (call i).name :: s.locks
             phase := Function.update s.phase i .written
             log := s.log } := by
    simp only [step, advance, goto, Function.update_self, Function.update_idem]
  exact ((hs.tail trivial h1).tail trivial h2).tail trivial h3

/-- A call that has written its temp file renames what the temp file holds then. -/
theorem reaches_renamed (hs : Reaches (step call) (fun _ _ => True) t s)
    (hwritten : s.phase i = .written) {value : ObjectId}
    (htmp : s.files (tmpPath (refPath (call i).name)) = some value) :
    ∃ u, Reaches (step call) (fun _ _ => True) t u ∧
      u.files (refPath (call i).name) = some value ∧ u.log = i :: s.log := by
  have hstep : step call s (.advance i) = some { s.finish call i (.ok ()) with
      files := Function.update (Function.update s.files (tmpPath (refPath (call i).name)) none)
        (refPath (call i).name) (some value)
      log := i :: s.log } := by
    simp only [step, advance, hwritten, rename, htmp]
    rfl
  exact ⟨_, hs.tail trivial hstep, Function.update_self _ _ _, rfl⟩

end Interference

/-- A call on `n` that is the first, and calls on `m`, which all create the ref. -/
def creates (n m : List Char) : ℕ → RefCall
  | 0 => ⟨n, none, 1⟩
  | _ + 1 => ⟨m, none, 2⟩

theorem tmpPath_ne_nil (path : List (List Char)) : tmpPath path ≠ [] :=
  List.append_ne_nil_of_right_ne_nil _ (List.cons_ne_nil _ _)

/-- Names that never interfere are separate. -/
theorem separate_of_neverInterfere (hvalid : ∀ n ∈ names, validateRefName n = true)
    (h : NeverInterfere names) : Separate names := by
  have hnames : ∀ n ∈ names, ∀ m ∈ names, ∀ i, (creates n m i).name ∈ names := by
    intro n hn m hm i
    cases i with
    | zero => exact hn
    | succ i => exact hm
  -- the call on `n`, up to its temp file and to the end
  have hone : ∀ n ∈ names, refPath n ≠ [] → ∃ s u : RefStore,
      Safe (creates n n) names (fun _ => none) s ∧ Safe (creates n n) names (fun _ => none) u ∧
      s.files (tmpPath (refPath n)) = some 1 ∧ s.log = [] ∧
      u.files (refPath n) = some 1 ∧ u.log = [0] := by
    intro n hn hpath
    have hwritten := reaches_written (creates n n) 0
      (Reaches.refl (s := init fun _ => none)) (hvalid n hn) hpath rfl List.not_mem_nil rfl
    have htmp : Function.update (fun _ : List (List Char) => (none : Option ObjectId))
        (tmpPath (refPath n)) (some 1) (tmpPath (refPath n)) = some 1 := Function.update_self _ _ _
    obtain ⟨u, hu, hfile, hlog⟩ := reaches_renamed (creates n n) 0 hwritten
      (by simp only [Function.update_self]) htmp
    exact ⟨_, u, h _ _ _ (hnames n hn n hn) hwritten, h _ _ _ (hnames n hn n hn) hu, htmp, rfl,
      hfile, hlog⟩
  have hapart : ∀ n ∈ names, ∀ m ∈ names, refPath n ≠ [] → tmpPath (refPath n) ≠ refPath m := by
    intro n hn m hm hpath heq
    obtain ⟨s, -, hs, -, htmp, hlog, -, -⟩ := hone n hn hpath
    have hfile := hs.files m hm (heq ▸ tmpPath_ne_nil _)
    rw [← heq, htmp, hlog] at hfile
    cases hfile
  refine ⟨fun n hn m hm hpath heq => ?_, fun n hn m hm hpath hpath' heq => ?_, hapart⟩
  · by_contra hne
    obtain ⟨-, u, -, hu, -, -, hfile, hlog⟩ := hone n hn hpath
    have hvalue := hu.files m hm (heq ▸ hpath)
    have hnone : valueAfter (creates n n) (fun _ => none) m [0] = none := if_neg hne
    rw [← heq, hfile, hlog, hnone] at hvalue
    cases hvalue
  · by_contra hne
    -- two calls write the temp file before the first renames it
    have hfirst := reaches_written (creates n m) 0
      (Reaches.refl (s := init fun _ => none)) (hvalid n hn) hpath rfl List.not_mem_nil rfl
    have hsecond := reaches_written (creates n m) 1 hfirst (hvalid m hm) hpath'
      (by simp only [ne_eq, one_ne_zero, not_false_eq_true, Function.update_of_ne]; rfl)
      (fun hmem => hne (List.mem_singleton.1 hmem).symm)
      (Function.update_of_ne (hapart n hn m hm hpath).symm _ _)
    have htmp : Function.update (Function.update (fun _ : List (List Char) =>
        (none : Option ObjectId)) (tmpPath (refPath n)) (some 1)) (tmpPath (refPath m)) (some 2)
        (tmpPath (refPath n)) = some 2 := by
      rw [heq]
      exact Function.update_self _ _ _
    obtain ⟨u, hu, hfile, hlog⟩ := reaches_renamed (creates n m) 0 hsecond
      (by simp only [ne_eq, zero_ne_one, not_false_eq_true, Function.update_of_ne,
        Function.update_self]) htmp
    have hvalue := (h _ _ u (hnames n hn m hm) hu).files n hn hpath
    rw [hlog] at hvalue
    have hone : valueAfter (creates n m) (fun _ => none) n [0] = some 1 := if_pos rfl
    have hold : (some 2 : Option ObjectId) = some 1 := hfile.symm.trans (hvalue.trans hone)
    cases hold

/-- The calls on separate names never interfere. -/
theorem neverInterfere_of_separate (hsep : Separate names) : NeverInterfere names := by
  intro call start s hnames hs
  have hstart : Inv call names start (init start) := by
    refine ⟨fun n _ _ => rfl, trivial, fun i => ?_, ?_, ?_, ?_, ?_, ?_⟩
    · constructor
      · intro hmem
        cases hmem
      · rintro ⟨u, hu⟩
        cases hu
    · intro i hi
      cases hi
    · intro i hi
      cases hi
    · intro i j hi
      cases hi
    · rintro i (hi | hi) <;> cases hi
    · intro i hi
      cases hi
  exact safe_of_inv (hs.invariant hstart fun _ _ _ hinv _ h => inv_step hinv hnames hsep h) hnames

/-- **Updates never interfere exactly on separate names.** -/
theorem separate_iff (names : Set (List Char)) (hvalid : ∀ n ∈ names, validateRefName n = true) :
    NeverInterfere names ↔ Separate names :=
  ⟨separate_of_neverInterfere hvalid, neverInterfere_of_separate⟩

/-- The branches `main` and `dev`. -/
def twoBranches : List (List Char) := ["refs/heads/main".toList, "refs/heads/dev".toList]

theorem separate_iff_twoBranches :
    NeverInterfere {n | n ∈ twoBranches} ∧ Separate {n | n ∈ twoBranches} := by
  have hvalid : ∀ n ∈ twoBranches, validateRefName n = true := by decide +kernel
  have hpath : ∀ n ∈ twoBranches, ∀ m ∈ twoBranches, refPath n ≠ [] →
      refPath n = refPath m → n = m := by decide +kernel
  have htmp : ∀ n ∈ twoBranches, ∀ m ∈ twoBranches, refPath n ≠ [] → refPath m ≠ [] →
      tmpPath (refPath n) = tmpPath (refPath m) → n = m := by decide +kernel
  have hapart : ∀ n ∈ twoBranches, ∀ m ∈ twoBranches, refPath n ≠ [] →
      tmpPath (refPath n) ≠ refPath m := by decide +kernel
  have hsep : Separate {n | n ∈ twoBranches} := ⟨hpath, htmp, hapart⟩
  exact ⟨(separate_iff {n | n ∈ twoBranches} hvalid).2 hsep, hsep⟩

/-- The branches `v1.0` and `v1.1`, which share the temp file `v1.tmp`. -/
def twoVersions : List (List Char) := ["refs/heads/v1.0".toList, "refs/heads/v1.1".toList]

theorem not_neverInterfere_twoVersions :
    (∀ n ∈ twoVersions, validateRefName n = true) ∧ ¬ NeverInterfere {n | n ∈ twoVersions} := by
  have hvalid : ∀ n ∈ twoVersions, validateRefName n = true := by decide +kernel
  refine ⟨hvalid, fun h => ?_⟩
  have hsep := separate_of_neverInterfere hvalid h
  have heq : "refs/heads/v1.0".toList = "refs/heads/v1.1".toList :=
    hsep.tmp _ List.mem_cons_self _ (List.mem_cons_of_mem _ List.mem_cons_self)
      (by decide +kernel) (by decide +kernel) (by decide +kernel)
  exact absurd heq (by decide +kernel)

end RefStore

end OpenViking.Git
