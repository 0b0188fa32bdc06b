import OpenViking.Transaction.Coverage
import OpenViking.Transaction.Leak

/-!
# Secure locks

When an acquire among careful owners has succeeded, its lock file is secure: it names the owner, and
the other lock files in its way are clear, or name another owner only since a later write than its
own.  The careful calls are those that neither write over nor remove a token of another owner
(`SafeCall`) nor touch a lock file that their own owner already holds (`Spares`).  Results:

* `acquire_secures`: after an acquire the lock files in `owner.locks` are secure;
* `not_both_protect`: two owners whose lock files are secure do not protect the same path.
-/

namespace OpenViking.Transaction

open PathLockEngine

variable {ι : Type}

/-! ## Lock files of a path -/

theorem isReserved_append (name : String) : isReserved (exactLockFilePrefix ++ name) = true := by
  simp [isReserved, String.toList_append, List.isPrefixOf_iff_prefix]

theorem not_isReserved_lockFileName : isReserved lockFileName = false := by decide

theorem getPrefixedExactLockPath_cons (E : PathLockEngine) (name b : String) (q : Path) :
    ∃ file, isReserved file = true ∧
      E.getPrefixedExactLockPath (name :: b :: q) = file :: b :: q := by
  refine ⟨_, ?_, rfl⟩
  rw [String.append_assoc, String.append_assoc]
  exact isReserved_append _

variable {pre p f q path g : Path}

/-- Below a directory the scan gets to what it would get to from a directory in between, unless it
passes over a component on the way. -/
theorem Scanned.of_append (hpre : ∀ name ∈ pre, Visible name) (h : Scanned (pre ++ p) f) : Scanned p f := by
  induction pre with
  | nil => exact h
  | cons name pre ih =>
    exact ih (fun c hc => hpre c (List.mem_cons_of_mem _ hc)) (.deeper (hpre name (by simp)) h)

/-- The scan of a directory gets to the lock files of the paths below it. -/
theorem scanned_exactFiles (E : PathLockEngine) (hne : pre ≠ [])
    (hpre : ∀ name ∈ pre, Visible name) (hf : f ∈ exactFiles E (pre ++ p)) : Scanned p f := by
  cases pre with
  | nil => exact absurd rfl hne
  | cons name pre =>
    refine Scanned.of_append (fun c hc => hpre c (List.mem_cons_of_mem _ hc)) ?_
    have hlock : Scanned (pre ++ p) (getLockPath (name :: (pre ++ p))) :=
      .lock (hpre name (by simp))
    simp only [exactFiles, List.mem_cons, List.not_mem_nil, or_false, List.cons_append] at hf
    rcases hf with rfl | rfl
    · exact hlock
    · cases hrest : pre ++ p with
      | nil =>
        rw [hrest] at hlock
        exact hlock
      | cons b q =>
        obtain ⟨file, hfile, heq⟩ := getPrefixedExactLockPath_cons E name b q
        rw [heq]
        exact .reserved hfile

/-- Paths that can be told apart by their lock files, and that the scan does not pass over. -/
structure Usable (E : PathLockEngine) (U : Path → Prop) : Prop where
  visible : ∀ path, U path → ∀ name ∈ path, Visible name
  distinct : ∀ p q, U p → U q →
    E.getPrefixedExactLockPath p = E.getPrefixedExactLockPath q → p = q

theorem getLockPath_inj (h : getLockPath p = getLockPath q) : p = q :=
  (List.cons.inj h).2

/-- The prefixed lock file is the lock file of a path only where it is that of its own path. -/
theorem eq_of_prefixed_eq_lock {E : PathLockEngine}
    (h : E.getPrefixedExactLockPath p = getLockPath q) : p = q := by
  match p with
  | [] => exact getLockPath_inj h
  | [_] => exact getLockPath_inj h
  | name :: b :: p =>
    obtain ⟨file, hfile, heq⟩ := getPrefixedExactLockPath_cons E name b p
    rw [heq] at h
    rw [(List.cons.inj h).1, not_isReserved_lockFileName] at hfile
    cases hfile

theorem Usable.eq_of_mem {E : PathLockEngine} {U : Path → Prop} (hU : Usable E U)
    (hp : U p) (hq : U q) (hfp : f ∈ exactFiles E p) (hfq : f ∈ exactFiles E q) : p = q := by
  simp only [exactFiles, List.mem_cons, List.not_mem_nil, or_false] at hfp hfq
  rcases hfp with rfl | rfl <;> rcases hfq with h | h
  · exact getLockPath_inj h
  · exact (eq_of_prefixed_eq_lock h.symm).symm
  · exact eq_of_prefixed_eq_lock h
  · exact hU.distinct p q hp hq h

variable [LinearOrder ι]

/-! ## Careful calls -/

/-- The lock file that a call writes or removes. -/
def Call.target : Call → Option Path
  | .write f _ _ => some f
  | .rm f => some f
  | _ => none

/-- The lock file names no other owner. -/
def Sys.FreeFor (s : Sys ι) (f : Path) (i : ι) : Prop := ∀ t ∈ s.token f, t.owner = i

instance (s : Sys ι) (f : Path) (i : ι) : Decidable (s.FreeFor f i) :=
  inferInstanceAs (Decidable (∀ t ∈ s.token f, t.owner = i))

/-- No token of another owner is written over or removed, and an exact lock that is written into a
directory finds none in the prefixed lock file of that directory. -/
def SafeCall (E : PathLockEngine) (i : ι) (s : Sys ι) (c : Call) : Prop :=
  (∀ f ∈ c.target, s.FreeFor f i) ∧
    match c with
    | .write f _ .exact =>
      f = getLockPath f.tail → s.FreeFor (E.getPrefixedExactLockPath f.tail) i
    | _ => True

/-- The call spares these lock files. -/
def Spares (locks : List Path) (c : Call) : Prop := ∀ f ∈ c.target, f ∉ locks

instance (E : PathLockEngine) (i : ι) (s : Sys ι) (c : Call) : Decidable (SafeCall E i s c) := by
  unfold SafeCall
  refine @instDecidableAnd _ _ inferInstance ?_
  split <;> infer_instance

instance (locks : List Path) (c : Call) : Decidable (Spares locks c) :=
  inferInstanceAs (Decidable (∀ f ∈ c.target, f ∉ locks))

/-- A lock file that a call does not target stays as it is, with its history. -/
theorem exec_of_target_ne {c : Call} (hc : c.target ≠ some f) (i : ι) (s : Sys ι) (n : ℕ) :
    (Sys.exec i c s n).2.token f = s.token f ∧ (Sys.exec i c s n).2.born f = s.born f ∧
      (Sys.exec i c s n).2.treeBorn f = s.treeBorn f := by
  by_cases hq : Quiet c
  · have hsame := Sys.sameLocks_exec hq i s n
    exact ⟨by rw [hsame.token], by rw [hsame.born], by rw [hsame.treeBorn]⟩
  cases c with
  | write g ts lockType =>
    have hfg : f ≠ g := fun heq => hc (by rw [heq]; rfl)
    by_cases hw : s.fs.Writable g
    · rw [Sys.exec_write hw]
      refine ⟨?_, s.born_written_of_ne hfg i ts lockType, s.treeBorn_written_of_ne hfg i ts lockType⟩
      rw [Sys.token_written hw, if_neg hfg]
    · rw [Sys.exec_write_of_not hw]
      exact ⟨rfl, rfl, rfl⟩
  | rm g =>
    have hfg : f ≠ g := fun heq => hc (by rw [heq]; rfl)
    refine ⟨?_, rfl, rfl⟩
    rw [Sys.token_exec]
    exact if_neg hfg
  | _ => exact absurd trivial hq

/-- Every lock file names its owner no later than it is a tree lock, and both since some write. -/
def Dated (s : Sys ι) : Prop := ∀ f, s.born f ≤ s.treeBorn f ∧ s.treeBorn f ≤ s.writes

theorem kept_dated : Sys.Kept (Dated : Sys ι → Prop) := by
  intro i c s n hs
  by_cases hq : Quiet c
  · have hsame := Sys.sameLocks_exec hq i s n
    intro f
    rw [hsame.born, hsame.treeBorn, hsame.writes]
    exact hs f
  cases c with
  | write g ts lockType =>
    by_cases hw : s.fs.Writable g
    · rw [Sys.exec_write hw]
      intro f
      have hwrites : (s.written i g ts lockType).writes = s.writes + 1 := rfl
      by_cases hf : f = g
      · subst hf
        have hold := hs f
        rw [Sys.born_written, Sys.treeBorn_written, hwrites]
        split_ifs with hnames htree htree
        · omega
        · omega
        · exact absurd ((Option.map_eq_some_iff.1 htree.1).elim fun t ht =>
            Sys.names_iff.2 ⟨t, ht.1, congrArg Prod.fst ht.2⟩) hnames
        · omega
      · have hold := hs f
        rw [Sys.born_written_of_ne s hf, Sys.treeBorn_written_of_ne s hf, hwrites]
        omega
    · rw [Sys.exec_write_of_not hw]
      exact hs
  | rm g => exact hs
  | _ => exact absurd trivial hq

/-! ## Secure lock files -/

/-- The write since which the lock file has had its type. -/
def Sys.stamp (s : Sys ι) (f : Path) : LockType → ℕ
  | .exact => s.born f
  | .tree => s.treeBorn f

/-- The lock file is the owner's, of this type since write number `b`. -/
def Mine (i : ι) (f : Path) (lockType : LockType) (b : ℕ) (s : Sys ι) : Prop :=
  s.ownType i f = some lockType ∧ s.stamp f lockType = b

variable {lockType lockType' : LockType} {s : Sys ι} {b b' : ℕ}

theorem Mine.names {i : ι} (h : Mine i f lockType b s) : s.Names f i := by
  by_contra hno
  rw [Mine, Sys.ownType_eq_none.2 hno] at h
  cases h.1

theorem Mine.exec {i : ι} (h : Mine i f lockType b s) {c : Call} (hc : c.target ≠ some f) (j : ι) (n : ℕ) :
    Mine i f lockType b (Sys.exec j c s n).2 := by
  obtain ⟨htoken, hborn, htree⟩ := exec_of_target_ne hc j s n
  refine ⟨?_, ?_⟩
  · rw [Sys.ownType, htoken]
    exact h.1
  · rw [← h.2]
    cases lockType with
    | exact => exact hborn
    | tree => exact htree

/-- A careful call of another owner spares the lock file. -/
theorem Mine.target_ne {E : PathLockEngine} {i j : ι}
    (h : Mine i f lockType b s) (hij : j ≠ i) {c : Call} (hc : SafeCall E j s c) : c.target ≠ some f := by
  intro htarget
  obtain ⟨t, ht, howner⟩ := Sys.names_iff.1 h.names
  exact hij ((hc.1 f htarget t ht).symm.trans howner)

/-- The lock files that conflict with a lock of this type on the path, its own file apart, are clear
or name another owner only since a later write. -/
structure Cleared (E : PathLockEngine) (U : Path → Prop) (i : ι) (path f : Path)
    (lockType : LockType) (b : ℕ) (s : Sys ι) : Prop where
  files : ∀ g ∈ exactFiles E path, g ≠ f → Sys.Clears i b g s
  ancestors : ∀ a, a <:+ path → a ≠ path → a ≠ [] → Sys.ClearsTree i b (getLockPath a) s
  descendants : lockType = .tree → ∀ q, path <:+ q → path ≠ q → U q →
    ∀ g ∈ exactFiles E q, Sys.Clears i b g s

variable {E : PathLockEngine} {U : Path → Prop} {i : ι}

theorem kept_cleared (path f : Path) (lockType : LockType) (b : ℕ) :
    Sys.Kept (Cleared E U i path f lockType b) := by
  intro j c s n hs
  refine ⟨fun g hg hne => ?_, fun a h1 h2 h3 => ?_, fun hty q h1 h2 h3 g hg => ?_⟩
  · exact Sys.kept_clears i b g j c s n (hs.files g hg hne)
  · exact Sys.kept_clearsTree i b _ j c s n (hs.ancestors a h1 h2 h3)
  · exact Sys.kept_clears i b g j c s n (hs.descendants hty q h1 h2 h3 g hg)

/-- The lock file is the owner's, and what conflicts with it is clear. -/
def Secure (E : PathLockEngine) (U : Path → Prop) (i : ι) (path f : Path) (s : Sys ι) : Prop :=
  ∃ lockType b, Mine i f lockType b s ∧ Cleared E U i path f lockType b s

theorem Secure.exec (h : Secure E U i path f s) {c : Call}
    (hc : c.target ≠ some f) (j : ι) (n : ℕ) : Secure E U i path f (Sys.exec j c s n).2 := by
  obtain ⟨lockType, b, hmine, hcleared⟩ := h
  exact ⟨lockType, b, hmine.exec hc j n, kept_cleared path f lockType b j c s n hcleared⟩

/-- The lock files of the owner are secure. -/
def SecureAll (E : PathLockEngine) (U : Path → Prop) (i : ι) (locks : List Path) (s : Sys ι) :
    Prop :=
  ∀ f ∈ locks, ∃ path, U path ∧ f ∈ exactFiles E path ∧ Secure E U i path f s

/-- One of the owner's lock files is for the path, or for the tree of an ancestor. -/
def Protects (E : PathLockEngine) (i : ι) (locks : List Path) (path : Path) (s : Sys ι) : Prop :=
  ∃ f ∈ locks, f ∈ exactFiles E path ∨
    ∃ a, a <:+ path ∧ a ≠ [] ∧ f = getLockPath a ∧ s.ownType i f = some .tree

/-! ## Two owners -/

theorem Mine.born_le (hs : Dated s) (h : Mine i f lockType b s) : s.born f ≤ b := by
  rw [← h.2]
  cases lockType with
  | exact => exact le_refl _
  | tree => exact (hs f).1

theorem Mine.file_ne {j : ι} (hij : i ≠ j)
    (hi : Mine i f lockType b s) (hj : Mine j g lockType' b' s) : g ≠ f := by
  rintro rfl
  exact hij (hi.names.unique hj.names)

/-- Both have a secure lock file for the same path: each must be the later one. -/
theorem not_both_same {j : ι} (hij : i ≠ j) (hs : Dated s) (hf : f ∈ exactFiles E path)
    (hg : g ∈ exactFiles E path) (hi : Mine i f lockType b s)
    (hi' : Cleared E U i path f lockType b s) (hj : Mine j g lockType' b' s)
    (hj' : Cleared E U j path g lockType' b' s) : False := by
  have hne : g ≠ f := hi.file_ne hij hj
  have h1 : b < s.born g := (hi'.files g hg hne).2 j hij.symm hj.names
  have h2 : b' < s.born f := (hj'.files f hf hne.symm).2 i hij hi.names
  have h3 := hi.born_le hs
  have h4 := hj.born_le hs
  omega

/-- One has a secure tree lock, the other a secure lock below it. -/
theorem not_both_below {j : ι} (hij : i ≠ j) (hs : Dated s) {a : Path}
    (haq : a <:+ q) (hne : a ≠ q) (hnil : a ≠ []) (hq : U q)
    (hg : g ∈ exactFiles E q) (hi : Mine i (getLockPath a) .tree b s)
    (hi' : Cleared E U i a (getLockPath a) .tree b s) (hj : Mine j g lockType b' s)
    (hj' : Cleared E U j q g lockType b' s) : False := by
  have htree : s.TreeOf (getLockPath a) i := by
    have hown := hi.1
    rw [Sys.ownType, Option.bind_eq_some_iff] at hown
    obtain ⟨t, ht, hty⟩ := hown
    split_ifs at hty with howner
    · rw [Sys.TreeOf, ht]
      simpa [howner] using hty
  have h1 : b < s.born g := (hi'.descendants rfl q haq hne hq g hg).2 j hij.symm hj.names
  have h2 : b' < s.treeBorn (getLockPath a) := (hj'.ancestors a haq hne hnil).2 i hij htree
  have h3 : s.treeBorn (getLockPath a) = b := hi.2
  have h4 := hj.born_le hs
  omega

/-- What protects a path: a secure lock of the path, or a secure tree lock of an ancestor. -/
def Guarded (E : PathLockEngine) (U : Path → Prop) (i : ι) (path : Path) (s : Sys ι) : Prop :=
  ∃ a f lockType b, U a ∧ f ∈ exactFiles E a ∧ Mine i f lockType b s ∧
    Cleared E U i a f lockType b s ∧
    (a = path ∨ lockType = .tree ∧ a <:+ path ∧ a ≠ [] ∧ f = getLockPath a)

theorem Protects.guarded (hU : Usable E U) {locks : List Path}
    (hpath : U path) (hlocks : SecureAll E U i locks s) (h : Protects E i locks path s) :
    Guarded E U i path s := by
  obtain ⟨f, hmem, hf⟩ := h
  obtain ⟨a, ha, hfa, lockType, b, hmine, hcleared⟩ := hlocks f hmem
  refine ⟨a, f, lockType, b, ha, hfa, hmine, hcleared, ?_⟩
  rcases hf with hf | ⟨a', hsuf, hnil, rfl, htree⟩
  · exact .inl (hU.eq_of_mem ha hpath hfa hf)
  · obtain rfl : a = a' := by
      simp only [exactFiles, List.mem_cons, List.not_mem_nil, or_false] at hfa
      rcases hfa with h | h
      · exact (getLockPath_inj h).symm
      · exact eq_of_prefixed_eq_lock h.symm
    have hty : lockType = .tree := Option.some.inj (hmine.1.symm.trans htree)
    exact .inr ⟨hty, hsuf, hnil, rfl⟩

/-- **Two owners whose lock files are secure do not protect the same path.** -/
theorem not_both_protect (hU : Usable E U) {j : ι} (hij : i ≠ j) (hs : Dated s)
    (hpath : U path) {locks locks' : List Path} (hi : SecureAll E U i locks s)
    (hj : SecureAll E U j locks' s) (hpi : Protects E i locks path s)
    (hpj : Protects E j locks' path s) : False := by
  obtain ⟨a, f, ty, b, ha, hf, hm, hc, hpos⟩ := hpi.guarded hU hpath hi
  obtain ⟨a', f', ty', b', ha', hf', hm', hc', hpos'⟩ := hpj.guarded hU hpath hj
  have hsuf : a <:+ path := by
    rcases hpos with rfl | hpos
    · exact List.suffix_refl _
    · exact hpos.2.1
  have hsuf' : a' <:+ path := by
    rcases hpos' with rfl | hpos'
    · exact List.suffix_refl _
    · exact hpos'.2.1
  by_cases heq : a = a'
  · subst heq
    exact not_both_same hij hs hf hf' hm hc hm' hc'
  -- the two paths are on the way to the same path, so one is above the other
  rcases List.suffix_or_suffix_of_suffix hsuf hsuf' with habove | habove
  · rcases hpos with rfl | ⟨rfl, -, hnil, rfl⟩
    · exact heq (List.IsSuffix.eq_of_length_le habove hsuf'.length_le)
    · exact not_both_below hij hs habove heq hnil ha' hf' hm hc hm' hc'
  · rcases hpos' with rfl | ⟨rfl, -, hnil, rfl⟩
    · exact heq (List.IsSuffix.eq_of_length_le habove hsuf.length_le).symm
    · exact not_both_below hij.symm hs habove (Ne.symm heq) hnil ha hf hm' hc' hm hc

/-! ## Acquiring -/

section Acquire

variable {locks : List Path}

/-- The setting of an owner among careful owners, which spares the lock files it holds. -/
def excluding (E : PathLockEngine) (i : ι) (locks : List Path) : Prog.Setting (Reply ι) (Sys ι) where
  exec := Sys.exec i
  rely s t := ∃ j c n, j ≠ i ∧ SafeCall E j s c ∧ t = (Sys.exec j c s n).2
  allowed s c _ := SafeCall E i s c ∧ Spares locks c

theorem runs_excluding : Runs (excluding E i locks) i := by
  refine ⟨rfl, ?_⟩
  rintro s t ⟨j, c, n, hj, -, rfl⟩
  exact ⟨j, c, n, hj, rfl⟩

theorem stable_mine (f : Path) (lockType : LockType) (b : ℕ) :
    (excluding E i locks).Stable (Mine i f lockType b) := by
  rintro s t ⟨j, c, n, hj, hc, rfl⟩ hs
  exact hs.exec (hs.target_ne hj hc) j n

theorem stable_kept {R : Sys ι → Prop} (hR : Sys.Kept R) : (excluding E i locks).Stable R :=
  runs_excluding.stable_of_kept hR

theorem stable_ownTree (f : Path) : (excluding E i locks).Stable fun s => s.ownType i f = some .tree := by
  intro s t hr hs
  exact (stable_mine f .tree (s.stamp f .tree) s t hr ⟨hs, rfl⟩).1

theorem stable_secure (path f : Path) : (excluding E i locks).Stable (Secure E U i path f) :=
  .exists fun lockType => .exists fun b =>
    (stable_mine f lockType b).and (stable_kept (kept_cleared path f lockType b))

theorem stable_secureAll (locks' : List Path) : (excluding E i locks).Stable (SecureAll E U i locks') := by
  intro s t hr hs f hf
  obtain ⟨path, hpath, hmem, hsec⟩ := hs f hf
  exact ⟨path, hpath, hmem, stable_secure path f s t hr hsec⟩

theorem stable_protects (locks' : List Path) (path : Path) :
    (excluding E i locks).Stable (Protects E i locks' path) := by
  rintro s t hr ⟨f, hmem, hf | ⟨a, ha, hnil, heq, htree⟩⟩
  · exact ⟨f, hmem, .inl hf⟩
  · exact ⟨f, hmem, .inr ⟨a, ha, hnil, heq, stable_ownTree f s t hr htree⟩⟩

variable {lockType : LockType} {f path : Path} {b : ℕ}

theorem Mine.sameLocks {s t : Sys ι}
    (hst : s.SameLocks t) (h : Mine i f lockType b s) : Mine i f lockType b t := by
  refine ⟨by rw [hst.ownType]; exact h.1, ?_⟩
  rw [← h.2]
  cases lockType with
  | exact => exact congrFun hst.born f
  | tree => exact congrFun hst.treeBorn f

/-- A lock file has been written for the path; if it is an exact lock in the directory, the prefixed
lock file was free. -/
def Written (E : PathLockEngine) (i : ι) (path f : Path) (lockType : LockType) (b : ℕ) (s : Sys ι) :
    Prop :=
  (Mine i f lockType b s ∧ b ≤ s.writes) ∧
    (lockType = .exact → f = getLockPath path →
      Sys.Clears i b (E.getPrefixedExactLockPath path) s)

theorem stable_written :
    (excluding E i locks).Stable (Written E i path f lockType b) :=
  ((stable_mine f lockType b).and (stable_kept (Sys.kept_passed b))).and
    (.imp fun _ => .imp fun _ => stable_kept (Sys.kept_clears i b _))

theorem written_quiet {α : Type} {p : Locking ι α} (hp : p.All Quiet) :
    p.Triple (excluding E i locks) (Written E i path f lockType b) fun _ =>
      Written E i path f lockType b := by
  refine runs_excluding.quiet hp stable_written fun s t hst hs => ?_
  refine ⟨⟨hs.1.1.sameLocks hst, by rw [hst.writes]; exact hs.1.2⟩, fun hty hf => ?_⟩
  obtain ⟨hb, hlater⟩ := hs.2 hty hf
  refine ⟨by rw [hst.writes]; exact hb, fun j hj hnames => ?_⟩
  rw [Sys.Names, hst.token] at hnames
  rw [hst.born]
  exact hlater j hj hnames

omit [LinearOrder ι] in
theorem stamp_le {s : Sys ι} (hs : Dated s) (f : Path) (lockType : LockType) :
    s.stamp f lockType ≤ s.writes := by
  cases lockType with
  | exact => exact (hs f).1.trans (hs f).2
  | tree => exact (hs f).2

theorem createLockFile_written (path f : Path) (lockType : LockType) :
    (createLockFile f lockType).Triple (excluding E i locks) Dated fun ok s =>
      ok = true → ∃ b, Written E i path f lockType b s := by
  refine (runs_excluding.triple_of_kept kept_dated _).bind fun ts => ?_
  refine .perform (stable_kept kept_dated) (fun ok => ?_) fun s n hs hallowed hok => ?_
  · exact .imp fun _ => .exists fun b => stable_written
  by_cases hw : s.fs.Writable f
  · have hexec : (excluding E i locks).exec (.write f ts lockType) s n =
        (true, s.written i f ts lockType) := Sys.exec_write hw i ts lockType n
    have hdated : Dated (s.written i f ts lockType) := by
      have := kept_dated i (.write f ts lockType) s n hs
      rwa [Sys.exec_write hw] at this
    rw [hexec]
    refine ⟨_, ⟨⟨?_, rfl⟩, stamp_le hdated f lockType⟩, fun hty hf => ⟨stamp_le hdated f lockType, ?_⟩⟩
    · simp [Sys.ownType, Sys.token_written hw]
    · intro j hj hnames
      -- nobody else is in the prefixed lock file: it is the one just written, or was free
      exfalso
      subst hty hf
      obtain ⟨t, ht, rfl⟩ := Sys.names_iff.1 hnames
      rw [Sys.token_written hw] at ht
      split_ifs at ht with heq
      · obtain rfl : _ = t := by simpa using ht
        exact hj rfl
      · exact hj (hallowed.1.2 rfl t ht)
  · have hexec : (excluding E i locks).exec (.write f ts lockType) s n = (false, s) :=
      Sys.exec_write_of_not hw i ts lockType n
    rw [hexec] at hok
    cases hok

theorem lockedByOther_rets (f : Path) : (lockedByOther i f).Rets fun r => r = none ∨ r = some f := by
  intro token
  show _ ∨ _
  cases token with
  | none => exact .inl rfl
  | some t =>
    dsimp only
    split_ifs
    · exact .inl rfl
    · exact .inr rfl

/-- The check of the path's own lock file, which leaves out the file of the lock itself. -/
theorem covers_otherFile (hne : getLockPath path ≠ f) :
    Covers (excluding E i locks) b (Sys.Clears i b (getLockPath path)) (do
      let conflict ← checkPathLock i path
      pure (if conflict = some f then none else conflict)) := by
  have hruns : Runs (excluding E i locks) i := runs_excluding
  have hstable := hruns.stable_of_kept (Sys.kept_clears i b (getLockPath path))
  have hread := (hruns.covers_lockedByOther (b := b) (getLockPath path)).and_post
    (.of_rets (S := excluding E i locks) (lockedByOther_rets (i := i) (getLockPath path)))
  refine hread.bind fun r => ?_
  refine .ret ((Prog.Setting.Stable.imp fun _ => hstable).and (.const _)) fun s hs hnone => ?_
  rcases hs.2 with rfl | rfl
  · exact hs.1 rfl
  · rw [if_neg fun heq => hne (Option.some.inj heq)] at hnone
    cases hnone

theorem exactConflictAfter_cleared (hf : f ∈ exactFiles E path) (b : ℕ) :
    (exactConflictAfter i path f).Triple (excluding E i locks) (Written E i path f .exact b)
      fun r s => Written E i path f .exact b s ∧
        (r = none → Cleared E U i path f .exact b s) := by
  have hruns : Runs (excluding E i locks) i := runs_excluding
  have hfiles : ∀ g, (exactConflictAfter i path f).Triple (excluding E i locks)
      (Written E i path f .exact b) fun r s =>
        r = none → g ∈ exactFiles E path → g ≠ f → Sys.Clears i b g s := by
    intro g
    by_cases hlock : getLockPath path = f
    · -- the lock is in the directory: the other file is the prefixed one, free at the write
      refine (hruns.triple_of_kept (Sys.kept_clears i b (E.getPrefixedExactLockPath path)) _).mono
        (fun s hs => hs.2 rfl hlock.symm) fun r s hs _ hg hne => ?_
      simp only [exactFiles, List.mem_cons, List.not_mem_nil, or_false] at hg
      rcases hg with rfl | rfl
      · exact absurd hlock hne
      · exact hs
    · refine (hruns.covers_orElse_left (Sys.kept_clears i b _) (covers_otherFile hlock)).mono
        (fun s hs => hs.1.2) fun r s hs hr hg hne => ?_
      simp only [exactFiles, List.mem_cons, List.not_mem_nil, or_false] at hg hf
      rcases hg with rfl | rfl
      · exact hs hr
      · exact absurd (hf.resolve_left fun h => hlock h.symm) (Ne.symm hne)
  have hancestors : ∀ a, (exactConflictAfter i path f).Triple (excluding E i locks)
      (Written E i path f .exact b) fun r s =>
        r = none → a <:+ path → a ≠ path → a ≠ [] → Sys.ClearsTree i b (getLockPath a) s := by
    intro a
    by_cases ha : a <:+ path ∧ a ≠ path ∧ a ≠ []
    · refine (hruns.covers_orElse_right
        (hruns.covers_checkAncestorsForTree ha.1 ha.2.1 ha.2.2)).mono (fun s hs => hs.1.2) ?_
      exact fun r s hs hr _ _ _ => hs hr
    · refine (written_quiet (Runs.exactConflictAfter_quiet i path f)).post ?_
      exact fun r s _ _ h1 h2 h3 => absurd ⟨h1, h2, h3⟩ ha
  refine (written_quiet (Runs.exactConflictAfter_quiet i path f)).and_post ?_
  refine ((Prog.Triple.forall_post hfiles).and_post (.forall_post hancestors)).post ?_
  exact fun r s hs hr => ⟨fun g => hs.1 g hr, fun a => hs.2 a hr, fun hty => by cases hty⟩

theorem treeConflictAfter_cleared (hU : Usable E U) (b : ℕ) :
    (E.treeConflictAfter i path).Triple (excluding E i locks) (Written E i path f .tree b)
      fun r s => Written E i path f .tree b s ∧
        (r = none → Cleared E U i path f .tree b s) := by
  have hruns : Runs (excluding E i locks) i := runs_excluding
  have hquiet := (hruns.treeConflictAfter E path).quiet
  have hfiles : ∀ g, (E.treeConflictAfter i path).Triple (excluding E i locks)
      (Written E i path f .tree b) fun r s =>
        r = none → g ∈ exactFiles E path → Sys.Clears i b g s := by
    intro g
    by_cases hg : g ∈ exactFiles E path
    · refine (hruns.covers_orElse_right (hruns.covers_orElse_left (Sys.kept_clears i b g)
        (hruns.covers_checkExactPathLock E hg))).mono (fun s hs => hs.1.2) ?_
      exact fun r s hs hr _ => hs hr
    · exact (written_quiet hquiet).post fun r s _ _ hmem => absurd hmem hg
  have hancestors : ∀ a, (E.treeConflictAfter i path).Triple (excluding E i locks)
      (Written E i path f .tree b) fun r s =>
        r = none → a <:+ path → a ≠ path → a ≠ [] → Sys.ClearsTree i b (getLockPath a) s := by
    intro a
    by_cases ha : a <:+ path ∧ a ≠ path ∧ a ≠ []
    · refine (hruns.covers_orElse_right (hruns.covers_orElse_right
        (hruns.covers_checkAncestorsForTree ha.1 ha.2.1 ha.2.2))).mono (fun s hs => hs.1.2) ?_
      exact fun r s hs hr _ _ _ => hs hr
    · exact (written_quiet hquiet).post fun r s _ _ h1 h2 h3 => absurd ⟨h1, h2, h3⟩ ha
  have hdescendants : ∀ q, (E.treeConflictAfter i path).Triple (excluding E i locks)
      (Written E i path f .tree b) fun r s =>
        ∀ g, r = none → path <:+ q → path ≠ q → U q → g ∈ exactFiles E q →
          Sys.Clears i b g s := by
    intro q
    refine .forall_post fun g => ?_
    by_cases hq : path <:+ q ∧ path ≠ q ∧ U q ∧ g ∈ exactFiles E q
    · obtain ⟨pre, rfl⟩ := hq.1
      have hscanned : Scanned path g := by
        refine scanned_exactFiles E (fun hnil => hq.2.1 (by simp [hnil])) (fun c hc => ?_) hq.2.2.2
        exact hU.visible _ hq.2.2.1 c (List.mem_append_left _ hc)
      refine (hruns.covers_orElse_left (Sys.kept_clears i b g)
        (hruns.covers_scanDescendants E.fuel hscanned)).mono (fun s hs => hs.1.2) ?_
      exact fun r s hs hr _ _ _ _ => hs hr
    · exact (written_quiet hquiet).post fun r s _ _ h1 h2 h3 h4 => absurd ⟨h1, h2, h3, h4⟩ hq
  refine (written_quiet hquiet).and_post ?_
  refine ((Prog.Triple.forall_post hfiles).and_post
    ((Prog.Triple.forall_post hancestors).and_post (.forall_post hdescendants))).post ?_
  exact fun r s hs hr => ⟨fun g hg _ => hs.1 g hr hg, fun a => hs.2.1 a hr,
    fun _ q h1 h2 h3 g hg => hs.2.2 q g hr h1 h2 h3 hg⟩

/-- A round that ends without `True`. -/
def NotTrue (r : Option Bool) : Prop := r ≠ some true

omit [LinearOrder ι] in
theorem waitRound_rets (wait : Wait) : (waitRound wait : Locking ι (Option Bool)).Rets NotTrue := by
  refine (Prog.Rets.true _).bind fun b _ => ?_
  split
  · exact fun h => by cases h
  · exact fun h => by cases h

omit [LinearOrder ι] in
theorem awaitConflict_rets (conflict : Path) :
    (E.awaitConflict conflict : Locking ι (Option Bool)).Rets NotTrue := by
  refine (Prog.Rets.true _).bind fun b _ => ?_
  split
  · exact (Prog.Rets.true _).bind fun _ _ h => by cases h
  · exact waitRound_rets _

theorem exactBackOff_rets (f conflict : Path) : (exactBackOff i f conflict).Rets NotTrue := by
  have hrest : (do
      if ← Agfs.deadline (.conflict f) then
        removeOwned i f
        pure (some false)
      else pure none : Locking ι (Option Bool)).Rets NotTrue := by
    refine (Prog.Rets.true _).bind fun b _ => ?_
    split
    · exact (Prog.Rets.true _).bind fun _ _ h => by cases h
    · exact fun h => by cases h
  refine (Prog.Rets.true _).bind fun b _ => ?_
  split
  · exact (Prog.Rets.true _).bind fun _ _ => hrest
  · exact hrest

theorem treeBackOff_rets (f conflict : Path) : (treeBackOff i f conflict).Rets NotTrue := by
  have hrest : ∀ backedOff : Bool, (do
      if ← Agfs.deadline (.conflict f) then
        if !backedOff then removeLockFile f
        pure (some false)
      else pure none : Locking ι (Option Bool)).Rets NotTrue := by
    intro backedOff
    refine (Prog.Rets.true _).bind fun b _ => ?_
    split
    · split
      · exact (Prog.Rets.true _).bind fun _ _ h => by cases h
      · exact fun h => by cases h
    · exact fun h => by cases h
  refine (Prog.Rets.true _).bind fun b _ => ?_
  cases b with
  | true => exact (Prog.Rets.true _).bind fun _ _ => hrest true
  | false => exact hrest false

/-- What a round that succeeds has got. -/
def RoundSecures (E : PathLockEngine) (U : Path → Prop) (i : ι) (path f : Path) (r : Option Bool)
    (s : Sys ι) : Prop :=
  r = some true → Secure E U i path f s

theorem notTrue_secures {P : Sys ι → Prop} {p : Locking ι (Option Bool)}
    (h : p.Rets NotTrue) : p.Triple (excluding E i locks) P (RoundSecures E U i path f) :=
  (Prog.Triple.of_rets h).post fun _ _ hr htrue => absurd htrue hr

theorem verify_secures :
    (verify i f).Triple (excluding E i locks)
      (fun s => Written E i path f lockType b s ∧ Cleared E U i path f lockType b s)
      (RoundSecures E U i path f) := by
  have hruns : Runs (excluding E i locks) i := runs_excluding
  have hkept : Sys.Kept (Cleared E U i path f lockType b) := kept_cleared path f lockType b
  have hread : (isLockOwnedBy i f).Triple (excluding E i locks)
      (fun s => Written E i path f lockType b s ∧ Cleared E U i path f lockType b s) fun _ s =>
        Written E i path f lockType b s ∧ Cleared E U i path f lockType b s := by
    refine .and_post ?_ ?_
    · exact (written_quiet (isLockOwnedBy_quiet i f)).mono (fun s hs => hs.1) fun _ _ hs => hs
    · exact (hruns.triple_of_kept hkept _).mono (fun s hs => hs.2) fun _ _ hs => hs
  refine hread.bind fun owned => ?_
  split
  · refine .ret (stable_written.and (stable_kept (kept_cleared path f lockType b))) ?_
    exact fun s hs _ => ⟨lockType, b, hs.1.1.1, hs.2⟩
  · exact notTrue_secures (waitRound_rets _)

theorem exactRound_secures (hf : f ∈ exactFiles E path) :
    (E.exactRound i path f).Triple (excluding E i locks) Dated (RoundSecures E U i path f) := by
  have hruns : Runs (excluding E i locks) i := runs_excluding
  refine (hruns.triple_of_kept kept_dated _).bind fun r => ?_
  cases r with
  | some conflict => exact notTrue_secures (awaitConflict_rets conflict)
  | none =>
    refine (hruns.triple_of_kept kept_dated _).bind fun ok => ?_
    split
    · refine (createLockFile_written path f .exact).bind fun ok => ?_
      cases ok with
      | false => exact notTrue_secures fun h => by cases h
      | true =>
        refine Prog.Triple.mono (.of_exists fun b => ?_) (fun s hs => hs rfl) fun _ _ hs => hs
        refine (written_quiet (isLockOwnedBy_quiet i f)).bind fun owned => ?_
        split
        · refine (exactConflictAfter_cleared (U := U) hf b).bind fun r => ?_
          cases r with
          | some conflict => exact notTrue_secures (exactBackOff_rets f conflict)
          | none => exact verify_secures.mono (fun s hs => ⟨hs.1, hs.2 rfl⟩) fun _ _ hs => hs
        · exact notTrue_secures (waitRound_rets _)
    · exact notTrue_secures fun h => by cases h

theorem treeRound_secures (hU : Usable E U) :
    (E.treeRound i path f).Triple (excluding E i locks) Dated (RoundSecures E U i path f) := by
  have hruns : Runs (excluding E i locks) i := runs_excluding
  refine (hruns.triple_of_kept kept_dated _).bind fun r => ?_
  cases r with
  | some conflict => exact notTrue_secures (awaitConflict_rets conflict)
  | none =>
    refine (hruns.triple_of_kept kept_dated _).bind fun ok => ?_
    split
    · refine (createLockFile_written path f .tree).bind fun ok => ?_
      cases ok with
      | false => exact notTrue_secures fun h => by cases h
      | true =>
        refine Prog.Triple.mono (.of_exists fun b => ?_) (fun s hs => hs rfl) fun _ _ hs => hs
        refine (treeConflictAfter_cleared hU b).bind fun r => ?_
        cases r with
        | some conflict => exact notTrue_secures (treeBackOff_rets f conflict)
        | none => exact verify_secures.mono (fun s hs => ⟨hs.1, hs.2 rfl⟩) fun _ _ hs => hs
    · exact notTrue_secures fun h => by cases h

/-- What holds of an owner's lock files while it acquires. -/
def Base (E : PathLockEngine) (U : Path → Prop) (i : ι) (locks : List Path) (s : Sys ι) : Prop :=
  Dated s ∧ SecureAll E U i locks s

theorem SecureAll.exec {s : Sys ι} (h : SecureAll E U i locks s) {c : Call} (hc : Spares locks c)
    (j : ι) (n : ℕ) : SecureAll E U i locks (Sys.exec j c s n).2 := by
  intro f hf
  obtain ⟨path, hpath, hmem, hsec⟩ := h f hf
  exact ⟨path, hpath, hmem, hsec.exec (fun htarget => hc f htarget hf) j n⟩

theorem stable_base : (excluding E i locks).Stable (Base E U i locks) :=
  (stable_kept kept_dated).and (stable_secureAll locks)

theorem base_triple {α : Type} (p : Locking ι α) :
    p.Triple (excluding E i locks) (Base E U i locks) fun _ => Base E U i locks :=
  .of_all (Prog.All.true p) stable_base fun c _ s n hs hc =>
    ⟨kept_dated i c s n hs.1, hs.2.exec hc.2 i n⟩

/-- What an acquire gives: the lock files of the owner are secure, and with `True` one of them protects
the path. -/
def AcquireSecures (E : PathLockEngine) (U : Path → Prop) (i : ι) (locks : List Path) (path : Path)
    (r : Bool × List Path) (s : Sys ι) : Prop :=
  (SecureAll E U i r.2 s ∧ (r.1 = true → Protects E i r.2 path s)) ∧ locks ⊆ r.2

theorem rounds_secures (hpath : U path) (hf : f ∈ exactFiles E path) {round : Locking ι (Option Bool)}
    (h : round.Triple (excluding E i locks) Dated (RoundSecures E U i path f)) :
    (E.rounds locks f round).Triple (excluding E i locks) (Base E U i locks)
      (AcquireSecures E U i locks path) := by
  have hround := (base_triple (E := E) (U := U) (i := i) round).and_post
    (h.mono (fun s hs => hs.1) fun _ _ hs => hs)
  have hstable : ∀ b : Bool, (excluding E i locks).Stable fun s =>
      Base E U i locks s ∧ (some b = some true → Secure E U i path f s) := fun b =>
    stable_base.and (.imp fun _ => stable_secure path f)
  have hspin := Prog.Triple.spin (Q := fun b s => Base E U i locks s ∧
      (some b = some true → Secure E U i path f s)) hstable (hround.post fun r s hs => by
        cases r with
        | none => exact hs.1
        | some b => exact hs) E.fuel
  refine hspin.bind fun b => ?_
  cases b with
  | false => exact .ret (hstable false) fun s hs => ⟨⟨hs.1.2, fun h => by cases h⟩, fun _ hf => hf⟩
  | true =>
    refine .ret (hstable true) fun s hs => ?_
    have hmem : ∀ g, g ∈ addLock locks f ↔ g ∈ locks ∨ g = f := by
      intro g
      unfold addLock
      split_ifs with hin
      · exact ⟨.inl, fun h => h.elim id fun heq => heq ▸ hin⟩
      · simp
    refine ⟨⟨fun g hg => ?_, fun _ => ⟨f, (hmem f).2 (.inr rfl), .inl hf⟩⟩, fun g hg => ?_⟩
    · rcases (hmem g).1 hg with hg | rfl
      · exact hs.1.2 g hg
      · exact ⟨path, hpath, hf, hs.2 rfl⟩
    · exact (hmem g).2 (.inl hg)

omit [LinearOrder ι] in
theorem getExactLockPath_rets (path : Path) :
    (E.getExactLockPath path : Locking ι Path).Rets fun f => f ∈ exactFiles E path := by
  refine (Prog.Rets.true _).bind fun isDir _ => ?_
  split
  · exact List.mem_cons_self
  · exact List.mem_cons_of_mem _ List.mem_cons_self

omit [LinearOrder ι] in
theorem getTreeLockPath_rets (path : Path) :
    (E.getTreeLockPath path : Locking ι Path).Rets fun f => f ∈ exactFiles E path := by
  refine (getExactLockPath_rets path).bind fun f hf => ?_
  split
  · exact hf
  · refine (Prog.Rets.true _).bind fun isPath _ => ?_
    split
    · exact hf
    · exact List.mem_cons_self

theorem ownedLockType_tree (f : Path) :
    (ownedLockTypeForLockPath i locks f).Triple (excluding E i locks) (fun _ => True) fun r s =>
      r = some .tree → f ∈ locks ∧ s.ownType i f = some .tree := by
  unfold ownedLockTypeForLockPath
  split
  · next hmem =>
    refine .call (.const _) fun s n _ _ t ht htree => ?_
    exact ⟨hmem, (stable_ownTree f).star ht htree⟩
  · exact .ret (.const _) fun s _ h => by cases h

theorem hasOwnedAncestorTree_protects (path : Path) :
    (hasOwnedAncestorTree i locks path).Triple (excluding E i locks) (fun _ => True) fun r s =>
      r = true → ∃ a, a <:+ path ∧ a ≠ [] ∧ getLockPath a ∈ locks ∧
        s.ownType i (getLockPath a) = some .tree := by
  induction path with
  | nil => exact .ret (.const _) fun s _ h => by cases h
  | cons name q ih =>
    have hstable : (excluding E i locks).Stable fun s =>
        getLockPath (name :: q) ∈ locks ∧ s.ownType i (getLockPath (name :: q)) = some .tree :=
      (Prog.Setting.Stable.const _).and (stable_ownTree _)
    refine (ownedLockType_tree (getLockPath (name :: q))).bind fun r => ?_
    split
    · next htree =>
      refine Prog.Triple.mono (.ret hstable fun s hs _ => ?_) (fun s hs => hs htree)
        fun _ _ hs => hs
      exact ⟨name :: q, List.suffix_refl _, by simp, hs.1, hs.2⟩
    · refine ih.mono (fun _ _ => trivial) fun r s hs hr => ?_
      obtain ⟨a, ha, hnil, hmem, htree⟩ := hs hr
      exact ⟨a, ha.trans (List.suffix_cons _ _), hnil, hmem, htree⟩

/-- The end of both acquires: the tree lock of an ancestor is reused, or the rounds begin. -/
theorem ancestorOrRounds_secures {p : Locking ι (Bool × List Path)}
    (hp : p.Triple (excluding E i locks) (Base E U i locks) (AcquireSecures E U i locks path)) :
    (do
      if ← hasOwnedAncestorTree i locks path then pure (true, locks)
      else p : Locking ι (Bool × List Path)).Triple (excluding E i locks) (Base E U i locks)
        (AcquireSecures E U i locks path) := by
  have hanc := (base_triple (E := E) (U := U) (hasOwnedAncestorTree i locks path)).and_post
    ((hasOwnedAncestorTree_protects path).mono (fun _ _ => trivial) fun _ _ hs => hs)
  refine hanc.bind fun r => ?_
  cases r with
  | false => exact hp.mono (fun s hs => hs.1) fun _ _ hs => hs
  | true =>
    rintro s ⟨hbase, htree⟩ t ht
    obtain ⟨a, ha, hnil, hmem, hown⟩ := htree rfl
    have hown' := (stable_ownTree (getLockPath a)).star ht hown
    refine ⟨⟨(stable_base.star ht hbase).2, fun _ => ?_⟩, fun _ hf => hf⟩
    exact ⟨getLockPath a, hmem, .inr ⟨a, ha, hnil, rfl, hown'⟩⟩

/-- A lock file of the path that is already among the owner's is reused. -/
theorem reuse_secures (hf : f ∈ exactFiles E path) (hmem : f ∈ locks) :
    (pure (true, addLock locks f) : Locking ι (Bool × List Path)).Triple (excluding E i locks)
      (Base E U i locks) (AcquireSecures E U i locks path) := by
  rw [addLock_of_mem hmem]
  exact .ret stable_base fun s hs => ⟨⟨hs.2, fun _ => ⟨f, hmem, .inl hf⟩⟩, fun _ hg => hg⟩

/-- After an acquire the owner's lock files are secure, and with `True` they protect the path. -/
theorem acquire_secures (hU : Usable E U) (lockType : LockType) (hpath : U path) :
    (E.acquire i lockType locks path).Triple (excluding E i locks) (Base E U i locks)
      (AcquireSecures E U i locks path) := by
  cases lockType with
  | exact =>
    refine ((Prog.Triple.of_rets (getExactLockPath_rets path)).and_post (base_triple _)).bind
      fun f => .of_prop fun hf => ?_
    have hround : (E.exactRound i path f).Triple (excluding E i locks) Dated
        (RoundSecures E U i path f) := exactRound_secures hf
    have hrounds := ancestorOrRounds_secures (rounds_secures hpath hf hround)
    by_cases hmem : f ∈ locks
    · rw [if_pos hmem]
      refine (base_triple _).bind fun owned => ?_
      cases owned with
      | true => exact reuse_secures hf hmem
      | false => exact hrounds
    · rw [if_neg hmem]
      exact hrounds
  | tree =>
    refine ((Prog.Triple.of_rets (getTreeLockPath_rets path)).and_post (base_triple _)).bind
      fun f => .of_prop fun hf => ?_
    have hround : (E.treeRound i path f).Triple (excluding E i locks) Dated
        (RoundSecures E U i path f) := treeRound_secures hU
    have hrounds := ancestorOrRounds_secures (rounds_secures hpath hf hround)
    by_cases hmem : f ∈ locks
    · refine (base_triple _).bind fun r => ?_
      split
      · exact reuse_secures hf hmem
      · exact hrounds
    · rw [ownedLockTypeForLockPath, if_neg hmem]
      exact hrounds

end Acquire

end OpenViking.Transaction
