import OpenViking.Git.CommitScan

/-!
# The main loop of a commit

What the candidates come to, one after the other (`crates/ragfs/src/git/service.rs`, 550-669), without
a stat cache, on any disk and any previous tree.  Results:

* `progressed_candidate`: one candidate;
* `commitWith_spec`, `commitWith_error`: what a commit comes to, and when it fails.
-/

namespace OpenViking.Git

variable {B O : Type*}

section Loop

variable {env : Env B O} {disk : Disk B} {prev : Option (Tree O)} {p q : Path}

/-- The candidate counts as a change. -/
def Changes (env : Env B O) (disk : Disk B) (prev : Option (Tree O)) (p : Path) : Prop :=
  match disk.stat p with
  | none => (prevEntry prev p).isSome = true
  | some (.file bytes _) => prevEntry prev p ≠ some (.blob (env.hash bytes))
  | some .dir => False

/-- What a changed candidate drops: a missing one what is at and below it, a file what is above and
below it. -/
def Drops (disk : Disk B) (p q : Path) : Prop :=
  match disk.stat p with
  | none => p <+: q
  | some (.file _ _) => p ≠ q ∧ (q <+: p ∨ p <+: q)
  | some .dir => False

theorem not_drops_file {b : B} (hq : disk.file q = some b) : ¬ Drops disk p q := by
  rw [Drops]
  split
  · rename_i hstat
    intro hpre
    by_cases heq : p = q
    · rw [← heq, Disk.file_eq_none_of_stat hstat] at hq
      cases hq
    · obtain ⟨t, ht⟩ := Disk.stat_of_file hq
      rw [Disk.stat_below (by rw [hstat]; nofun) ⟨hpre, heq⟩] at ht
      cases ht
  · rename_i bytes t hstat
    rintro ⟨hne, hpre | hpre⟩
    · exact hne (Disk.eq_of_prefix hq (Disk.file_of_stat hstat) hpre).symm
    · exact hne (Disk.eq_of_prefix (Disk.file_of_stat hstat) hq hpre)
  · exact not_false

/-- Where the loop has come to after the candidates `K`, from an editor that showed the files `base` and
`c` changes. -/
structure Progressed (env : Env B O) (disk : Disk B) (prev : Option (Tree O)) (base : Path → Option O)
    (c : ℕ) (K : List Path) (r : Progress O) : Prop where
  steady : r.editor.Steady fun d => disk.isDir d = true
  written : ∀ q ∈ K, ∀ bytes, disk.file q = some bytes → r.editor.file q = some (env.hash bytes)
  dropped : ∀ q, (q ∈ K → disk.file q = none) →
    (∃ p ∈ K, Changes env disk prev p ∧ Drops disk p q) → r.editor.file q = none
  same : ∀ q, (q ∈ K → disk.file q = none) →
    (∀ p ∈ K, Changes env disk prev p → ¬ Drops disk p q) → r.editor.file q = base q
  changed : r.changed = 0 ↔ c = 0 ∧ ∀ p ∈ K, ¬ Changes env disk prev p

variable {base : Path → Option O} {c : ℕ} {K : List Path} {r : Progress O}

/-- A candidate that changes nothing. -/
theorem progressed_unchanged (h : Progressed env disk prev base c K r) (hp : ¬ Changes env disk prev p)
    (hfile : ∀ bytes, disk.file p = some bytes → r.editor.file p = some (env.hash bytes)) :
    Progressed env disk prev base c (p :: K) r where
  steady := h.steady
  written q hq bytes hbytes := by
    rcases List.mem_cons.1 hq with rfl | hq
    · exact hfile bytes hbytes
    · exact h.written q hq bytes hbytes
  dropped q hq hdrop := by
    obtain ⟨x, hx, hch, hd⟩ := hdrop
    rcases List.mem_cons.1 hx with rfl | hx
    · exact absurd hch hp
    · exact h.dropped q (fun hK => hq (List.mem_cons_of_mem _ hK)) ⟨x, hx, hch, hd⟩
  same q hq hsame :=
    h.same q (fun hK => hq (List.mem_cons_of_mem _ hK))
      fun x hx => hsame x (List.mem_cons_of_mem _ hx)
  changed := by
    rw [h.changed]
    simp [hp]

/-- A candidate that changes the editor. -/
theorem progressed_changed (h : Progressed env disk prev base c K r) {ed : TreeEditor O}
    (hp : Changes env disk prev p) (hsteady : ed.Steady fun d => disk.isDir d = true)
    (hself : ∀ bytes, disk.file p = some bytes → ed.file p = some (env.hash bytes))
    (hdrop : ∀ q, Drops disk p q → ed.file q = none)
    (hsame : ∀ q, ¬ Drops disk p q → (q = p → disk.file p = none) → ed.file q = r.editor.file q) :
    Progressed env disk prev base c (p :: K)
      { r with editor := ed, changed := r.changed + 1 } where
  steady := hsteady
  written q hq bytes hbytes := by
    by_cases heq : q = p
    · subst heq
      exact hself bytes hbytes
    · refine (hsame q (not_drops_file hbytes) fun h => absurd h heq).trans ?_
      exact h.written q ((List.mem_cons.1 hq).resolve_left heq) bytes hbytes
  dropped q hq hd := by
    by_cases hpq : Drops disk p q
    · exact hdrop q hpq
    · refine (hsame q hpq fun heq => heq ▸ hq (heq ▸ List.mem_cons_self)).trans ?_
      obtain ⟨x, hx, hch, hd⟩ := hd
      rcases List.mem_cons.1 hx with rfl | hx
      · exact absurd hd hpq
      · exact h.dropped q (fun hK => hq (List.mem_cons_of_mem _ hK)) ⟨x, hx, hch, hd⟩
  same q hq hkeep := by
    refine (hsame q (hkeep p List.mem_cons_self hp)
      fun heq => heq ▸ hq (heq ▸ List.mem_cons_self)).trans ?_
    exact h.same q (fun hK => hq (List.mem_cons_of_mem _ hK))
      fun x hx => hkeep x (List.mem_cons_of_mem _ hx)
  changed := by
    simp [hp]

variable [DecidableEq O]

/-- **One candidate.** -/
theorem progressed_candidate (h : Progressed env disk prev base c K r)
    (hbase : ∀ oid, prevEntry prev p = some (.blob oid) → base p = some oid)
    (hdir : disk.stat p ≠ some .dir) :
    ∃ r', candidate env disk prev false none r p = .ok r' ∧
      Progressed env disk prev base c (p :: K) r' := by
  rcases hstat : disk.stat p with _ | ⟨bytes, mtime⟩ | _
  · have hnotDir : disk.isDir p = false := by rw [Disk.isDir, hstat]
    have hne : p ≠ [] := by
      rintro rfl
      rw [Disk.stat, if_pos rfl] at hstat
      cases hstat
    have hnone := Disk.file_eq_none_of_stat hstat
    cases hprev : (prevEntry prev p).isSome with
    | false =>
      refine ⟨r, ?_, progressed_unchanged h ?_ ?_⟩
      · rw [candidate, hstat]
        simp [hprev]
      · rw [Changes, hstat]
        simp [hprev]
      · rw [hnone]
        intro _ hf
        cases hf
    | true =>
      refine ⟨{ r with editor := r.editor.removePath p, changed := r.changed + 1 }, ?_, ?_⟩
      · rw [candidate, hstat]
        simp [hprev]
      · have hS : ∀ d n, disk.isDir (d ++ [n]) = true → disk.isDir d = true :=
          fun _ _ hd => Disk.isDir_of_isDir_append hd
        obtain ⟨hsteady, hentry⟩ := h.steady.removePath hS hne
          fun d hd _ => Disk.not_prefix_of_isDir hnotDir hd
        have hdrops : ∀ q, Drops disk p q ↔ p <+: q := fun q => by rw [Drops, hstat]
        refine progressed_changed h ?_ hsteady ?_ (fun q hq => ?_) fun q hq _ => ?_
        · rw [Changes, hstat]
          exact hprev
        · rw [hnone]
          intro _ hf
          cases hf
        · rw [TreeEditor.file, hentry, if_pos ((hdrops q).1 hq), Entry.oid?_none]
        · rw [TreeEditor.file, hentry, if_neg (fun hpre => hq ((hdrops q).2 hpre)), TreeEditor.file]
  · have hnotDir : disk.isDir p = false := by rw [Disk.isDir, hstat]
    have hfile := Disk.file_of_stat hstat
    have hne : p ≠ [] := by
      rintro rfl
      rw [Disk.stat, if_pos rfl] at hstat
      cases hstat
    have hoid : blobOid env none p bytes mtime = env.hash bytes := rfl
    by_cases hprev : prevEntry prev p = some (.blob (env.hash bytes))
    · have hch : ¬ Changes env disk prev p := by
        rw [Changes, hstat]
        exact not_not.2 hprev
      refine ⟨r, ?_, progressed_unchanged h hch fun b hb => ?_⟩
      · rw [candidate, hstat]
        simp [hoid, hprev]
      · obtain rfl : bytes = b := Option.some.inj (hfile.symm.trans hb)
        by_cases hK : p ∈ K
        · exact h.written p hK bytes hfile
        · rw [h.same p (fun hm => absurd hm hK) fun _ _ _ => not_drops_file hfile]
          exact hbase _ hprev
    · refine ⟨{ r with editor := r.editor.upsertPath p (env.hash bytes), changed := r.changed + 1 },
        ?_, ?_⟩
      · rw [candidate, hstat]
        simp [hoid, hprev]
      · obtain ⟨hsteady, hupsert⟩ := h.steady.upsertPath (env.hash bytes) hne
          (fun d hd => Disk.isDir_iff.2 (Disk.stat_above hstat hd))
          fun d hd => Disk.not_prefix_of_isDir hnotDir hd
        have hdrops : ∀ q, Drops disk p q ↔ p ≠ q ∧ (q <+: p ∨ p <+: q) := fun q => by
          rw [Drops, hstat]
        refine progressed_changed h ?_ hsteady (fun b hb => ?_) (fun q hq => ?_) fun q hq hself => ?_
        · rw [Changes, hstat]
          exact hprev
        · obtain rfl : bytes = b := Option.some.inj (hfile.symm.trans hb)
          rw [hupsert, if_pos rfl]
        · obtain ⟨hpq, hcomp⟩ := (hdrops q).1 hq
          rw [hupsert, if_neg (Ne.symm hpq), if_pos hcomp]
        · have hqp : q ≠ p := by
            rintro rfl
            rw [hself rfl] at hfile
            cases hfile
          rw [hupsert, if_neg hqp, if_neg fun hcomp => hq ((hdrops q).2 ⟨hqp.symm, hcomp⟩)]
  · exact absurd hstat hdir

/-! ## The whole loop -/

theorem progressed_foldlM {l : List Path} (h : Progressed env disk prev base c K r)
    (hbase : ∀ p ∈ l, ∀ oid, prevEntry prev p = some (.blob oid) → base p = some oid)
    (hdir : ∀ p ∈ l, disk.stat p ≠ some .dir) :
    ∃ r', l.foldlM (candidate env disk prev false none) r = .ok r' ∧
      Progressed env disk prev base c (l.reverse ++ K) r' := by
  induction l generalizing K r with
  | nil => exact ⟨r, rfl, h⟩
  | cons p l ih =>
    obtain ⟨r1, hr1, h1⟩ := progressed_candidate h (hbase p List.mem_cons_self)
      (hdir p List.mem_cons_self)
    obtain ⟨r', hr', h'⟩ := ih h1 (fun q hq => hbase q (List.mem_cons_of_mem _ hq))
      fun q hq => hdir q (List.mem_cons_of_mem _ hq)
    refine ⟨r', ?_, ?_⟩
    · rw [List.foldlM_cons, hr1]
      exact hr'
    · rwa [List.reverse_cons, List.append_assoc, List.singleton_append]

/-- Only a directory makes a candidate fail. -/
theorem candidate_ok (env : Env B O) (prev : Option (Tree O)) (useIndex : Bool) (prevIndex : Option (CommitIndex O)) (r : Progress O)
    (hdir : disk.stat p ≠ some .dir) : ∃ r', candidate env disk prev useIndex prevIndex r p = .ok r' := by
  rw [candidate]
  split
  · rename_i hstat
    exact absurd hstat hdir
  · exact ⟨_, rfl⟩
  · exact ⟨_, rfl⟩

/-- A candidate that is a directory makes the loop fail. -/
theorem foldlM_error {l : List Path} (env : Env B O) (prev : Option (Tree O)) (useIndex : Bool) (prevIndex : Option (CommitIndex O))
    (r : Progress O) (h : ∃ p ∈ l, disk.stat p = some .dir) :
    ∃ e, l.foldlM (candidate env disk prev useIndex prevIndex) r = .error e := by
  induction l generalizing r with
  | nil =>
    obtain ⟨p, hp, -⟩ := h
    cases hp
  | cons x l ih =>
    rw [List.foldlM_cons]
    by_cases hx : disk.stat x = some .dir
    · refine ⟨.isADirectory x, ?_⟩
      rw [candidate, hx]
      rfl
    · obtain ⟨r1, hr1⟩ := candidate_ok env prev useIndex prevIndex r hx
      rw [hr1]
      obtain ⟨p, hp, hdir⟩ := h
      rcases List.mem_cons.1 hp with rfl | hp
      · exact absurd hdir hx
      · exact ih r1 ⟨p, hp, hdir⟩

end Loop

/-! ## Commits -/

/-- The tree that the branch has after a commit. -/
def CommitResponse.tree (prev : Option (Tree O)) : CommitResponse O → Tree O
  | .noop _ => prev.getD .nil
  | .created t _ _ => t

def CommitResponse.isNoop : CommitResponse O → Bool
  | .noop _ => true
  | .created _ _ _ => false

/-- What a commit comes to. -/
structure Committed (env : Env B O) (m : Path → Bool) (disk : Disk B) (prev : Option (Tree O))
    (paths : Option (List Path)) (resp : CommitResponse O) : Prop where
  ordered : (resp.tree prev).Ordered
  written : ∀ q ∈ (scan m disk prev paths).candidates, ∀ bytes, disk.file q = some bytes →
    (resp.tree prev).file q = some (env.hash bytes)
  dropped : ∀ q, (q ∈ (scan m disk prev paths).candidates → disk.file q = none) →
    (∃ p ∈ (scan m disk prev paths).candidates, Changes env disk prev p ∧ Drops disk p q) →
    (resp.tree prev).file q = none
  same : ∀ q, (q ∈ (scan m disk prev paths).candidates → disk.file q = none) →
    (∀ p ∈ (scan m disk prev paths).candidates, Changes env disk prev p → ¬ Drops disk p q) →
    (resp.tree prev).file q = if q ∈ (scan m disk prev paths).removed then none else prevFile prev q
  noop : resp.isNoop = true ↔ (scan m disk prev paths).removed = [] ∧
    ∀ p ∈ (scan m disk prev paths).candidates, ¬ Changes env disk prev p

section Commits

variable {env : Env B O} {m : Path → Bool} {disk : Disk B} {prev : Option (Tree O)} {p q : Path}

theorem file_getD_nil : (prev.getD .nil).file q = prevFile prev q := by
  rcases prev with _ | t
  · cases q with
    | nil => rfl
    | cons n q => exact Tree.file_cons (.nil : Tree O) n q
  · rfl

theorem ordered_getD_nil (hprev : ∀ t ∈ prev, t.Ordered) : (prev.getD .nil).Ordered := by
  rcases prev with _ | t
  · exact trivial
  · exact hprev t rfl

/-- Below a file of the previous tree there is nothing. -/
theorem prevEntry_below (h : (prevFile prev p).isSome = true) (hu : Under p q) :
    prevEntry prev q = none := by
  obtain ⟨oid, hoid⟩ := Option.isSome_iff_exists.1 h
  obtain ⟨s, hs, rfl⟩ := under_iff.1 hu
  rcases prev with _ | t
  · rfl
  · have hentry : ∀ x, (TreeEditor.fromTree t).entry x = prevEntry (some t) x := fun x =>
      TreeEditor.entryAt_load fun _ _ => rfl
    rw [← hentry]
    exact TreeEditor.not_isDir_below ((hentry p).trans (Scan.entry_of_prevFile hoid)) hs

/-- The files that the editor shows after the assembly. -/
theorem file_scan (hprev : ∀ t ∈ prev, t.Ordered) (paths : Option (List Path)) (q : Path) :
    (scan m disk prev paths).editor.file q =
      if q ∈ (scan m disk prev paths).removed then none else prevFile prev q := by
  have hgood := Scan.good_scan m disk hprev paths
  have hremoved := (Scan.adds_scan m disk hprev paths).2
  rw [TreeEditor.file, hgood.entry]
  by_cases hq : q ∈ (scan m disk prev paths).removed
  · rw [if_pos hq, if_pos ⟨q, hq, List.prefix_rfl⟩, Entry.oid?_none]
  · rw [if_neg hq]
    split
    · rename_i h
      obtain ⟨r, hr, hpre⟩ := h
      have hne : r ≠ q := fun heq => hq (heq ▸ hr)
      rw [prevFile, prevEntry_below ((hremoved r).1 hr).2.1 ⟨hpre, hne⟩, Entry.oid?_none]
    · rfl

/-- Where the loop starts. -/
theorem progressed_start (env : Env B O) (hprev : ∀ t ∈ prev, t.Ordered) (paths : Option (List Path))
    (index : Dict Path (IndexEntry O)) :
    Progressed env disk prev (scan m disk prev paths).editor.file (scan m disk prev paths).changed []
      ⟨(scan m disk prev paths).editor, (scan m disk prev paths).changed, index⟩ where
  steady :=
    let h := (Scan.good_scan m disk hprev paths).steady
    ⟨h.closed, h.trees, fun d _ hc => h.shown d trivial hc⟩
  written := nofun
  dropped := fun _ _ ⟨_, hp, _⟩ => absurd hp (List.not_mem_nil)
  same _ _ _ := rfl
  changed := by simp

variable [DecidableEq O]

/-- **A commit without a directory among its candidates succeeds** and writes the files that are
candidates into the previous tree, without what is dropped. -/
theorem commitWith_spec (env : Env B O) (hprev : ∀ t ∈ prev, t.Ordered) (paths : Option (List Path))
    (hdir : ∀ p ∈ (scan m disk prev paths).candidates, disk.stat p ≠ some .dir) :
    ∃ resp index, commitWith env m disk prev paths false none = .ok (resp, index) ∧
      Committed env m disk prev paths resp := by
  have hgood := Scan.good_scan m disk hprev paths
  obtain ⟨hcand, hremoved⟩ := Scan.adds_scan m disk hprev paths
  have hbase : ∀ p ∈ (scan m disk prev paths).candidates, ∀ oid,
      prevEntry prev p = some (.blob oid) → (scan m disk prev paths).editor.file p = some oid := by
    intro p hp oid hoid
    have htrack : shouldTrackPath m p = true := ((hcand p).1 hp).1
    have hnot : p ∉ (scan m disk prev paths).removed := fun hr => by
      rw [((hremoved p).1 hr).1] at htrack
      cases htrack
    rw [file_scan hprev, if_neg hnot, prevFile, hoid]
    rfl
  obtain ⟨r, hr, h⟩ := progressed_foldlM (progressed_start env hprev paths
    (indexSeed m false none paths (scan m disk prev paths))) hbase hdir
  have hmem : ∀ q, q ∈ (scan m disk prev paths).candidates.reverse ++ [] ↔
      q ∈ (scan m disk prev paths).candidates := fun q => by simp
  have hchanged : r.changed = 0 ↔ (scan m disk prev paths).removed = [] ∧
      ∀ p ∈ (scan m disk prev paths).candidates, ¬ Changes env disk prev p := by
    rw [h.changed, hgood.changed, List.length_eq_zero_iff]
    simp only [hmem]
  by_cases hzero : r.changed = 0
  · obtain ⟨hnil, hno⟩ := hchanged.1 hzero
    refine ⟨.noop (scan m disk prev paths).ignored.length, r.index, ?_,
      ⟨ordered_getD_nil hprev, fun q hq bytes hbytes => file_getD_nil.trans ?_, fun q _ hdrop => ?_,
      fun q _ _ => file_getD_nil.trans ?_, iff_of_true rfl ⟨hnil, hno⟩⟩⟩
    · rw [commitWith, hr]
      show (if r.changed = 0 then _ else _) = _
      rw [if_pos hzero]
      rfl
    · have hunchanged := hno q hq
      obtain ⟨t, hstat⟩ := Disk.stat_of_file hbytes
      rw [Changes, hstat] at hunchanged
      rw [prevFile, not_not.1 hunchanged]
      rfl
    · obtain ⟨p, hp, hch, -⟩ := hdrop
      exact absurd hch (hno p hp)
    · rw [hnil, if_neg List.not_mem_nil]
  · have hwrite := TreeEditor.file_write h.steady.closed h.steady.trees
    refine ⟨.created r.editor.write r.changed (scan m disk prev paths).ignored.length, r.index, ?_,
      ⟨TreeEditor.ordered_write h.steady.trees, fun q hq bytes hbytes => ?_,
      fun q hq hdrop => ?_, fun q hq hkeep => ?_, ?_⟩⟩
    · rw [commitWith, hr]
      show (if r.changed = 0 then _ else _) = _
      rw [if_neg hzero]
      rfl
    · exact (hwrite q).trans (h.written q ((hmem q).2 hq) bytes hbytes)
    · refine (hwrite q).trans (h.dropped q (fun hK => hq ((hmem q).1 hK)) ?_)
      obtain ⟨p, hp, hd⟩ := hdrop
      exact ⟨p, (hmem p).2 hp, hd⟩
    · refine ((hwrite q).trans (h.same q (fun hK => hq ((hmem q).1 hK)) fun p hp =>
        hkeep p ((hmem p).1 hp))).trans (file_scan hprev paths q)
    · rw [← hchanged]
      exact iff_of_false (fun hf => by cases hf) hzero

/-- **A commit with a directory among its candidates fails.** -/
theorem commitWith_error (env : Env B O) (paths : Option (List Path))
    (h : ∃ p ∈ (scan m disk prev paths).candidates, disk.stat p = some .dir) :
    ∃ e, commitWith env m disk prev paths false none = .error e := by
  obtain ⟨e, he⟩ := foldlM_error env prev false none
    ⟨(scan m disk prev paths).editor, (scan m disk prev paths).changed,
      indexSeed m false none paths (scan m disk prev paths)⟩ h
  refine ⟨e, ?_⟩
  rw [commitWith, he]
  rfl

end Commits

end OpenViking.Git
