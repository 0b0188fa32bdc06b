import OpenViking.Transaction.Checks
import Mathlib.Data.List.Infix

/-!
# What a check that finds nothing has seen

A check reads the lock files one by one, and each may change as soon as it is read.  What stays true
is this: a lock file that did not name another owner when it was read can come to do so only by a
write that is yet to come.  The history of the lock files turns that into a comparison of numbers.
Results:

* `Runs.covers_checkExactPathLock`, `Runs.covers_checkAncestorsForTree`: the lock files that these
  checks have seen when they find nothing;
* `Runs.covers_scanDescendants`: the scan has seen every lock file that it can get to (`Scanned`).
-/

namespace OpenViking.Transaction

open PathLockEngine

variable {ι : Type}

namespace Sys

variable [DecidableEq ι]

/-- If the lock file names another owner, then since a write after number `b`. -/
def Later (s : Sys ι) (me : ι) (b : ℕ) (f : Path) : Prop :=
  ∀ j, j ≠ me → s.Names f j → b < s.born f

/-- If the lock file is another owner's tree lock, then since a write after number `b`. -/
def LaterTree (s : Sys ι) (me : ι) (b : ℕ) (f : Path) : Prop :=
  ∀ j, j ≠ me → s.TreeOf f j → b < s.treeBorn f

variable {f g : Path} {s : Sys ι}

theorem exec_write (hw : s.fs.Writable f) (i : ι) (ts : ℕ) (lockType : LockType) (n : ℕ) :
    exec i (.write f ts lockType) s n = (true, s.written i f ts lockType) := if_pos hw

theorem exec_write_of_not (hw : ¬ s.fs.Writable f) (i : ι) (ts : ℕ)
    (lockType : LockType) (n : ℕ) : exec i (.write f ts lockType) s n = (false, s) := if_neg hw

theorem token_written (hw : s.fs.Writable f) (i : ι) (ts : ℕ) (lockType : LockType) (g : Path) :
    (s.written i f ts lockType).token g = if g = f then some ⟨i, ts, lockType⟩ else s.token g :=
  Fs.token_writeFile_of_writable hw g _

theorem born_written_of_ne (s : Sys ι) (hg : g ≠ f) (i : ι) (ts : ℕ)
    (lockType : LockType) : (s.written i f ts lockType).born g = s.born g := by
  unfold written
  dsimp only
  split_ifs
  · rfl
  · exact Function.update_of_ne hg _ _

theorem treeBorn_written_of_ne (s : Sys ι) (hg : g ≠ f) (i : ι) (ts : ℕ)
    (lockType : LockType) : (s.written i f ts lockType).treeBorn g = s.treeBorn g := by
  unfold written
  dsimp only
  split_ifs
  · rfl
  · exact Function.update_of_ne hg _ _

theorem born_written (s : Sys ι) (f : Path) (i : ι) (ts : ℕ) (lockType : LockType) :
    (s.written i f ts lockType).born f = if s.Names f i then s.born f else s.writes + 1 := by
  unfold written
  dsimp only
  split_ifs
  · rfl
  · exact Function.update_self _ _ _

theorem treeBorn_written (s : Sys ι) (f : Path) (i : ι) (ts : ℕ) (lockType : LockType) :
    (s.written i f ts lockType).treeBorn f =
      if s.TreeOf f i ∧ lockType = .tree then s.treeBorn f else s.writes + 1 := by
  unfold written
  dsimp only
  split_ifs
  · rfl
  · exact Function.update_self _ _ _

theorem writes_exec (i : ι) (c : Call) (s : Sys ι) (n : ℕ) : s.writes ≤ (exec i c s n).2.writes := by
  by_cases hc : Quiet c
  · exact (sameLocks_exec hc i s n).writes.ge
  cases c with
  | write f ts lockType =>
    by_cases hw : s.fs.Writable f
    · rw [exec_write hw]
      exact Nat.le_succ _
    · rw [exec_write_of_not hw]
  | rm f => exact le_refl _
  | _ => exact absurd trivial hc

theorem later_exec {me : ι} {b : ℕ} (hb : b ≤ s.writes)
    (h : s.Later me b f) (i : ι) (c : Call) (n : ℕ) : (exec i c s n).2.Later me b f := by
  by_cases hc : Quiet c
  · have hsame := sameLocks_exec hc i s n
    intro j hj hnames
    rw [Names, hsame.token] at hnames
    rw [hsame.born]
    exact h j hj hnames
  cases c with
  | write g ts lockType =>
    by_cases hw : s.fs.Writable g
    · rw [exec_write hw]
      intro j hj hnames
      rw [Names, token_written hw] at hnames
      by_cases hf : f = g
      · subst hf
        obtain rfl : i = j := by simpa using hnames
        rw [born_written]
        split_ifs with hold
        · exact h i hj hold
        · omega
      · rw [if_neg hf] at hnames
        rw [born_written_of_ne s hf]
        exact h j hj hnames
    · rw [exec_write_of_not hw]
      exact h
  | rm g =>
    intro j hj hnames
    rw [Names, token_exec] at hnames
    simp only [tokenAfter] at hnames
    split_ifs at hnames
    · cases hnames
    · exact h j hj hnames
  | _ => exact absurd trivial hc

theorem laterTree_exec {me : ι} {b : ℕ} (hb : b ≤ s.writes)
    (h : s.LaterTree me b f) (i : ι) (c : Call) (n : ℕ) : (exec i c s n).2.LaterTree me b f := by
  by_cases hc : Quiet c
  · have hsame := sameLocks_exec hc i s n
    intro j hj htree
    rw [TreeOf, hsame.token] at htree
    rw [hsame.treeBorn]
    exact h j hj htree
  cases c with
  | write g ts lockType =>
    by_cases hw : s.fs.Writable g
    · rw [exec_write hw]
      intro j hj htree
      rw [TreeOf, token_written hw] at htree
      by_cases hf : f = g
      · subst hf
        obtain ⟨rfl, rfl⟩ : i = j ∧ lockType = .tree := by simpa using htree
        rw [treeBorn_written]
        split_ifs with hold
        · exact h i hj hold.1
        · omega
      · rw [if_neg hf] at htree
        rw [treeBorn_written_of_ne s hf]
        exact h j hj htree
    · rw [exec_write_of_not hw]
      exact h
  | rm g =>
    intro j hj htree
    rw [TreeOf, token_exec] at htree
    simp only [tokenAfter] at htree
    split_ifs at htree
    · cases htree
    · exact h j hj htree
  | _ => exact absurd trivial hc

omit [DecidableEq ι] in
theorem later_of_token_eq_none (h : s.token f = none) (me : ι) (b : ℕ) : s.Later me b f := by
  intro j _ hnames
  rw [Names, h] at hnames
  cases hnames

/-- What no call takes back. -/
def Kept (R : Sys ι → Prop) : Prop := ∀ i c s n, R s → R (exec i c s n).2

/-- After write number `b` the lock file has not named another owner, unless since a later write. -/
def Clears (me : ι) (b : ℕ) (f : Path) (s : Sys ι) : Prop := b ≤ s.writes ∧ s.Later me b f

/-- The same of tree locks. -/
def ClearsTree (me : ι) (b : ℕ) (f : Path) (s : Sys ι) : Prop := b ≤ s.writes ∧ s.LaterTree me b f

theorem kept_passed (b : ℕ) : Kept fun s : Sys ι => b ≤ s.writes :=
  fun i c s n hs => le_trans hs (writes_exec i c s n)

theorem kept_clears (me : ι) (b : ℕ) (f : Path) : Kept (Clears me b f) :=
  fun i c s n hs => ⟨kept_passed b i c s n hs.1, later_exec hs.1 hs.2 i c n⟩

theorem kept_clearsTree (me : ι) (b : ℕ) (f : Path) : Kept (ClearsTree me b f) :=
  fun i c s n hs => ⟨kept_passed b i c s n hs.1, laterTree_exec hs.1 hs.2 i c n⟩

end Sys

/-! ## The tree below a path -/

namespace Fs

variable (fs : Fs ι)

/-- Above a node there are directories only. -/
theorem isDir_of_isSome {p g : Path} (hg : (fs.nodes.get g).isSome) (hp : p <:+ g)
    (hne : p ≠ g) : fs.isDir p := by
  induction g with
  | nil => exact absurd (List.suffix_nil.1 hp) hne
  | cons name q ih =>
    have hq : fs.isDir q := fs.closed name q hg
    rcases List.suffix_cons_iff.1 hp with rfl | hpq
    · exact absurd rfl hne
    · by_cases heq : p = q
      · rwa [heq]
      · rcases hq with rfl | hdir
        · exact absurd (List.suffix_nil.1 hpq) heq
        · exact ih (by simp [hdir]) hpq heq

theorem isSome_of_token {fs : Fs ι} {g : Path} (h : fs.token g ≠ none) : (fs.nodes.get g).isSome := by
  by_contra hno
  exact h (by simp [token, Option.not_isSome_iff_eq_none.1 hno])

theorem token_eq_none_of_not_isDir {p g : Path} (h : ¬ fs.isDir p) (hp : p <:+ g)
    (hne : p ≠ g) : fs.token g = none := by
  by_contra hno
  exact h (fs.isDir_of_isSome (isSome_of_token hno) hp hne)

theorem mem_entries [DecidableEq ι] {p : Path} {name : String} {node : Node ι}
    (h : fs.nodes.get (name :: p) = some node) : (name, node == .dir) ∈ fs.entries p := by
  refine List.mem_filterMap.2 ⟨(name :: p, node), SortedMap.mem_entries_iff.2 h, ?_⟩
  simp

end Fs

/-- The scan of a directory passes over no such name. -/
def Visible (name : String) : Prop :=
  name ≠ "" ∧ name ≠ "." ∧ name ≠ ".." ∧ isReserved name = false

/-- The lock files that a scan of the directory gets to. -/
inductive Scanned : Path → Path → Prop
  | reserved {path : Path} {name : String} (hname : isReserved name = true) :
      Scanned path (name :: path)
  | lock {path : Path} {name : String} (hname : Visible name) :
      Scanned path (getLockPath (name :: path))
  | deeper {path : Path} {name : String} {f : Path} (hname : Visible name)
      (h : Scanned (name :: path) f) : Scanned path f

theorem Scanned.suffix {path f : Path} (h : Scanned path f) : path <:+ f ∧ path ≠ f := by
  have hlt : path <:+ f ∧ path.length < f.length := by
    induction h with
    | @reserved path name _ => exact ⟨List.suffix_cons name path, by simp⟩
    | @lock path name _ =>
      exact ⟨(List.suffix_cons name path).trans (List.suffix_cons _ _), by simp only [getLockPath, List.length_cons]; omega⟩
    | @deeper path name f _ _ ih =>
      refine ⟨(List.suffix_cons name path).trans ih.1, ?_⟩
      have := ih.2
      simp only [List.length_cons] at this
      omega
  exact ⟨hlt.1, fun heq => by simp [heq] at hlt⟩

/-- The entries of the directory that lead the scan to the lock file. -/
inductive LeadsTo (path : Path) (entries : List (String × Bool)) (f : Path) : Prop
  | reserved {name : String} {isDir : Bool} (hmem : (name, isDir) ∈ entries)
      (hname : isReserved name = true) (hf : f = name :: path)
  | lock {name : String} (hmem : (name, true) ∈ entries) (hname : Visible name)
      (hf : f = getLockPath (name :: path))
  | deeper {name : String} (hmem : (name, true) ∈ entries) (hname : Visible name)
      (hf : Scanned (name :: path) f)

/-- The first entry leads to the lock file, or one of the others does. -/
theorem LeadsTo.cons_cases {path f : Path} {name : String} {isDir : Bool}
    {entries : List (String × Bool)} (h : LeadsTo path ((name, isDir) :: entries) f) :
    LeadsTo path entries f ∨ (isReserved name = true ∧ f = name :: path) ∨
      (isDir = true ∧ Visible name ∧
        (f = getLockPath (name :: path) ∨ Scanned (name :: path) f)) := by
  cases h with
  | reserved hmem hname hf =>
    rcases List.mem_cons.1 hmem with heq | hmem
    · obtain ⟨rfl, -⟩ := Prod.mk.inj heq
      exact .inr (.inl ⟨hname, hf⟩)
    · exact .inl (.reserved hmem hname hf)
  | lock hmem hname hf =>
    rcases List.mem_cons.1 hmem with heq | hmem
    · obtain ⟨rfl, hdir⟩ := Prod.mk.inj heq
      exact .inr (.inr ⟨hdir.symm, hname, .inl hf⟩)
    · exact .inl (.lock hmem hname hf)
  | deeper hmem hname hf =>
    rcases List.mem_cons.1 hmem with heq | hmem
    · obtain ⟨rfl, hdir⟩ := Prod.mk.inj heq
      exact .inr (.inr ⟨hdir.symm, hname, .inr hf⟩)
    · exact .inl (.deeper hmem hname hf)

theorem not_isReserved_of_skipped {name : String} (h : name = "" ∨ name = "." ∨ name = "..") :
    isReserved name = false := by
  rcases h with rfl | rfl | rfl <;> decide

/-- A lock file that is there is led to. -/
theorem Scanned.leadsTo [DecidableEq ι] {path f : Path} (h : Scanned path f) (fs : Fs ι)
    (htoken : fs.token f ≠ none) : LeadsTo path (fs.entries path) f := by
  have hsome := Fs.isSome_of_token htoken
  have hdir : ∀ {name : String}, name :: path <:+ f → name :: path ≠ f →
      (name, true) ∈ fs.entries path := by
    intro name hsuf hne
    rcases fs.isDir_of_isSome hsome hsuf hne with hnil | hget
    · cases hnil
    · simpa using fs.mem_entries hget
  cases h with
  | @reserved path name hname =>
    obtain ⟨node, hnode⟩ := Option.isSome_iff_exists.1 hsome
    exact .reserved (fs.mem_entries hnode) hname rfl
  | @lock path name hname =>
    exact .lock (hdir (List.suffix_cons _ _) (Fs.ne_cons_self _ _)) hname rfl
  | @deeper path name f hname hbelow =>
    exact .deeper (hdir hbelow.suffix.1 hbelow.suffix.2) hname hbelow

/-! ## Coverage -/

/-- The lock files that can protect an exact path. -/
def exactFiles (E : PathLockEngine) (path : Path) : List Path :=
  [getLockPath path, E.getPrefixedExactLockPath path]

variable [LinearOrder ι]

/-- When the check finds nothing, `R` holds. -/
def Covers (S : Prog.Setting (Reply ι) (Sys ι)) (b : ℕ) (R : Sys ι → Prop)
    (p : Locking ι (Option Path)) : Prop :=
  p.Triple S (fun s => b ≤ s.writes) fun r s => r = none → R s

namespace Runs

variable {S : Prog.Setting (Reply ι) (Sys ι)} {me : ι} {b : ℕ} {R : Sys ι → Prop}

theorem stable_of_kept (h : Runs S me) (hR : Sys.Kept R) : S.Stable R := by
  intro s t hr hs
  obtain ⟨j, c, n, -, rfl⟩ := h.rely_cases s t hr
  exact hR j c s n hs

theorem triple_of_kept (h : Runs S me) (hR : Sys.Kept R) {α : Type} (p : Locking ι α) :
    p.Triple S R fun _ => R := by
  refine .of_all (Prog.All.true p) (h.stable_of_kept hR) fun c _ s n hs _ => ?_
  rw [h.exec_eq]
  exact hR me c s n hs

theorem stable_imp_kept (h : Runs S me) (hR : Sys.Kept R) (p : Prop) : S.Stable fun s => p → R s :=
  .imp fun _ => h.stable_of_kept hR

variable {p q : Locking ι (Option Path)}

theorem covers_orElse_left (h : Runs S me) (hR : Sys.Kept R)
    (hp : Covers S b R p) : Covers S b R (PathLockEngine.orElse p q) := by
  refine hp.bind fun r => ?_
  cases r with
  | none => exact (h.triple_of_kept hR q).mono (fun s hs => hs rfl) fun _ _ hs _ => hs
  | some c => exact .ret (h.stable_imp_kept hR _) fun s _ hc => by cases hc

theorem covers_bind (h : Runs S me) {α : Type} (p : Locking ι α) {q : α → Locking ι (Option Path)}
    (hq : ∀ a, Covers S b R (q a)) : Covers S b R (p >>= q) :=
  (h.triple_of_kept (Sys.kept_passed b) p).bind hq

theorem covers_orElse_right (h : Runs S me)
    (hq : Covers S b R q) : Covers S b R (PathLockEngine.orElse p q) := by
  refine h.covers_bind p fun r => ?_
  cases r with
  | none => exact hq
  | some c => exact .ret (h.stable_of_kept (Sys.kept_passed b)) fun s _ hc => by cases hc

theorem covers_lockedByOther (h : Runs S me) (f : Path) :
    Covers S b (Sys.Clears me b f) (PathLockEngine.lockedByOther me f) := by
  refine .call (h.stable_of_kept (Sys.kept_passed b)) fun s n hs _ t ht hnone => ?_
  refine (h.stable_of_kept (Sys.kept_clears me b f)).star ht ?_
  rw [h.exec_eq] at hnone ⊢
  refine ⟨hs, fun j hj hnames => ?_⟩
  obtain ⟨tok, htok, rfl⟩ := Sys.names_iff.1 hnames
  simp only [Sys.exec] at htok hnone
  rw [htok] at hnone
  simp only [if_neg hj] at hnone
  cases hnone

theorem covers_treeLockedByOther (h : Runs S me) (f : Path) :
    Covers S b (Sys.ClearsTree me b f) (PathLockEngine.treeLockedByOther me f) := by
  refine .call (h.stable_of_kept (Sys.kept_passed b)) fun s n hs _ t ht hnone => ?_
  refine (h.stable_of_kept (Sys.kept_clearsTree me b f)).star ht ?_
  rw [h.exec_eq] at hnone ⊢
  refine ⟨hs, fun j hj htree => ?_⟩
  simp only [Sys.exec, Sys.TreeOf] at htree hnone
  obtain ⟨tok, htok, heq⟩ := Option.map_eq_some_iff.1 htree
  obtain ⟨rfl, hty⟩ := Prod.mk.inj heq
  rw [htok] at hnone
  simp only [if_pos (And.intro hj hty)] at hnone
  cases hnone

variable {path f : Path}

/-- A path that is not a directory has no lock files below it. -/
theorem isExistingDirectory_clears (h : Runs S me) (hf : path <:+ f) (hne : path ≠ f) :
    (isExistingDirectory path : Locking ι Bool).Triple S (fun s => b ≤ s.writes) fun r s =>
      b ≤ s.writes ∧ (r = false → Sys.Clears me b f s) := by
  refine .call (h.stable_of_kept (Sys.kept_passed b)) fun s n hs _ t ht => ?_
  refine ⟨(h.stable_of_kept (Sys.kept_passed b)).star ht (by rwa [h.exec_eq]), fun hr => ?_⟩
  refine (h.stable_of_kept (Sys.kept_clears me b f)).star ht ?_
  rw [h.exec_eq] at hr ⊢
  refine ⟨hs, Sys.later_of_token_eq_none (s.fs.token_eq_none_of_not_isDir ?_ hf hne) me b⟩
  rintro (rfl | hdir)
  · simp [Sys.exec] at hr
  · by_cases hnil : path = []
    · simp [Sys.exec, hnil] at hr
    · simp [Sys.exec, hnil, hdir] at hr

theorem covers_checkAncestorsForTree (h : Runs S me) {path a : Path} (ha : a <:+ path)
    (hne : a ≠ path) (hnil : a ≠ []) :
    Covers S b (Sys.ClearsTree me b (getLockPath a))
      (PathLockEngine.checkAncestorsForTree me path) := by
  have hkept := Sys.kept_clearsTree me b (getLockPath a)
  fun_induction PathLockEngine.checkAncestorsForTree me path with
  | case1 name c q ih =>
    rcases List.suffix_cons_iff.1 ha with rfl | hsuf
    · exact absurd rfl hne
    · by_cases heq : a = c :: q
      · subst heq
        exact h.covers_orElse_left hkept (h.covers_treeLockedByOther _)
      · exact h.covers_orElse_right (ih hsuf heq)
  | case2 path hpath =>
    -- a proper suffix that is not `/` needs two components
    obtain ⟨pre, rfl⟩ := ha
    obtain ⟨z, a, rfl⟩ := List.exists_cons_of_ne_nil hnil
    rcases pre with _ | ⟨x, _ | ⟨y, pre⟩⟩
    · exact absurd rfl hne
    · exact absurd rfl (hpath x z a)
    · exact absurd rfl (hpath x y (pre ++ z :: a))

/-- Where the lock file is not the one of a directory, none is in the path. -/
theorem getExactLockPath_clears (h : Runs S me) (E : PathLockEngine) (path : Path) :
    (E.getExactLockPath path : Locking ι Path).Triple S (fun s => b ≤ s.writes) fun r s =>
      b ≤ s.writes ∧ (r ≠ getLockPath path → Sys.Clears me b (getLockPath path) s) := by
  have hstable : ∀ r : Path, S.Stable fun s =>
      b ≤ s.writes ∧ (r ≠ getLockPath path → Sys.Clears me b (getLockPath path) s) := fun r =>
    (h.stable_of_kept (Sys.kept_passed b)).and (h.stable_imp_kept (Sys.kept_clears me b _) _)
  refine (h.isExistingDirectory_clears (List.suffix_cons lockFileName path)
    (Fs.ne_cons_self _ _)).bind fun r => ?_
  cases r with
  | true =>
    refine Prog.Triple.mono (.ret (hstable (getLockPath path)) fun s hs => hs) (fun s hs => ?_)
      fun _ _ hs => hs
    exact ⟨hs.1, fun hne => absurd rfl hne⟩
  | false =>
    refine Prog.Triple.mono (.ret (hstable (E.getPrefixedExactLockPath path)) fun s hs => hs)
      (fun s hs => ?_) fun _ _ hs => hs
    exact ⟨hs.1, fun _ => hs.2 rfl⟩

theorem covers_checkExactPathLock (h : Runs S me) (E : PathLockEngine) (hf : f ∈ exactFiles E path) :
    Covers S b (Sys.Clears me b f) (E.checkExactPathLock me path) := by
  have hkept := Sys.kept_clears me b f
  simp only [exactFiles, List.mem_cons, List.not_mem_nil, or_false] at hf
  rcases hf with rfl | rfl
  · refine (h.getExactLockPath_clears E path).bind fun primary => ?_
    by_cases hp : primary = getLockPath path
    · subst hp
      refine Prog.Triple.mono ?_ (fun s hs => hs.1) fun _ _ hs => hs
      dsimp only
      split
      · exact h.covers_lockedByOther _
      · exact h.covers_orElse_left hkept (h.covers_lockedByOther _)
    · exact (h.triple_of_kept hkept _).mono (fun s hs => hs.2 hp) fun _ _ hs _ => hs
  · refine h.covers_bind _ fun primary => ?_
    dsimp only
    split
    · next heq =>
      rw [heq]
      exact h.covers_lockedByOther _
    · exact h.covers_orElse_right (h.covers_lockedByOther _)

/-- The entries in turn: those that lead to the lock file are read or scanned. -/
theorem covers_scanEntries (h : Runs S me) {scan : Path → Locking ι (Option Path)}
    (hscan : ∀ p, Scanned p f → Covers S b (Sys.Clears me b f) (scan p))
    (entries : List (String × Bool)) (hf : LeadsTo path entries f) :
    Covers S b (Sys.Clears me b f) (PathLockEngine.scanEntries me scan path entries) := by
  have hkept := Sys.kept_clears me b f
  fun_induction PathLockEngine.scanEntries me scan path entries with
  | case1 =>
    cases hf with
    | reserved hmem => cases hmem
    | lock hmem => cases hmem
    | deeper hmem => cases hmem
  | case2 name isDir entries hskip ih =>
    rcases hf.cons_cases with hf | ⟨hres, -⟩ | ⟨-, hvis, -⟩
    · exact ih hf
    · rw [not_isReserved_of_skipped hskip] at hres
      cases hres
    · exact absurd hskip (by simp [hvis.1, hvis.2.1, hvis.2.2.1])
  | case3 name isDir entries _ hres ih =>
    rcases hf.cons_cases with hf | ⟨-, rfl⟩ | ⟨-, hvis, -⟩
    · exact h.covers_orElse_right (ih hf)
    · exact h.covers_orElse_left hkept (h.covers_lockedByOther _)
    · rw [hvis.2.2.2] at hres
      cases hres
  | case4 name entries _ hres ih =>
    rcases hf.cons_cases with hf | ⟨hres', -⟩ | ⟨-, -, rfl | hbelow⟩
    · exact h.covers_orElse_right (h.covers_orElse_right (ih hf))
    · exact absurd hres' hres
    · exact h.covers_orElse_left hkept (h.covers_lockedByOther _)
    · exact h.covers_orElse_right (h.covers_orElse_left hkept (hscan _ hbelow))
  | case5 name isDir entries _ hres hdir ih =>
    rcases hf.cons_cases with hf | ⟨hres', -⟩ | ⟨hdir', -⟩
    · exact ih hf
    · exact absurd hres' hres
    · exact absurd hdir' hdir

theorem covers_scanDescendants (h : Runs S me) (depth : ℕ) (hf : Scanned path f) :
    Covers S b (Sys.Clears me b f) (PathLockEngine.scanDescendants me depth path) := by
  have hkept := Sys.kept_clears me b f
  induction depth generalizing path with
  | zero => exact .stuck
  | succ depth ih =>
    refine (h.isExistingDirectory_clears hf.suffix.1 hf.suffix.2).bind fun isDir => ?_
    cases isDir with
    | false =>
      refine .ret ((h.stable_of_kept (Sys.kept_passed b)).and (h.stable_imp_kept hkept _)) ?_
      exact fun s hs _ => hs.2 rfl
    | true =>
      refine Prog.Triple.mono ?_ (fun s hs => hs.1) fun _ _ hs => hs
      refine .call (h.stable_of_kept (Sys.kept_passed b)) fun s n hs _ => ?_
      rw [h.exec_eq]
      -- at the time of the `ls` the lock file is missing, or one of the entries leads to it
      by_cases htoken : s.token f = none
      · have hlater : Sys.Clears me b f s := ⟨hs, Sys.later_of_token_eq_none htoken me b⟩
        refine Prog.wp_mono ?_ (h.triple_of_kept hkept _ s hlater)
        exact fun r t ht _ => ht
      · exact h.covers_scanEntries (fun p hp => ih hp) _ (hf.leadsTo s.fs htoken) s hs

end Runs

end OpenViking.Transaction
