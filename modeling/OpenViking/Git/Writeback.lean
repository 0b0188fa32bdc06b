import OpenViking.Common.System
import OpenViking.Git.WorkTree

/-!
# Write-back

How a restore changes the working tree (`GitService::restore_impl`, `crates/ragfs/src/git/service.rs`,
1160-1273), when nothing else changes it.

Up to 32 tasks run at a time, here any number: each makes the directories above its file and then writes
it, in any interleaving.  The deletes follow in any order, then the pruning of the directories that they
left empty.  Results:

* `Writeback.exists_finished`: the write-back can be finished from anywhere;
* `deleteFile_foldl`, `sameFile_prune`: what the deletes and the pruning leave.
-/

namespace OpenViking.Git

variable {B : Type*}

/-! ## The write-back -/

/-- The order of paths as texts. -/
def pathLe (p q : Path) : Bool := decide ("/".intercalate p ≤ "/".intercalate q)

inductive WritePhase where
  | waiting
  | ready
  | written
  | failed
  deriving DecidableEq

/-- The write-back (1160-1208): the disk and where the task of each file stands. -/
structure Writeback (B : Type*) where
  disk : Disk B
  phase : Path → WritePhase

/-- `write` on a whole path. -/
def Disk.writePath (d : Disk B) (p : Path) (bytes : B) (now : ℤ) : Option (Disk B) :=
  p.getLast?.bind fun name => d.write p.dropLast name bytes now

/-- The next call of a task: the directories above the file, or the file. -/
def Writeback.step (base : Path) (content : Path → Option B) (now : ℤ) (s : Writeback B)
    (rel : Path) : Option (Writeback B) :=
  match content rel, s.phase rel with
  | some _, .waiting =>
    match s.disk.mkdirs [] (base ++ rel).dropLast with
    | some disk => some ⟨disk, Function.update s.phase rel .ready⟩
    | none => some ⟨s.disk, Function.update s.phase rel .failed⟩
  | some bytes, .ready =>
    match s.disk.writePath (base ++ rel) bytes now with
    | some disk => some ⟨disk, Function.update s.phase rel .written⟩
    | none => some ⟨s.disk, Function.update s.phase rel .failed⟩
  | _, _ => none

/-- A delete (1213-1236), with the paths whose delete failed. -/
def deleteFile (base : Path) (s : Disk B × List Path) (rel : Path) : Disk B × List Path :=
  match s.1.remove (base ++ rel) with
  | .ok disk => (disk, s.2)
  | .error .notFound => s
  | .error .notEmpty => (s.1, rel :: s.2)

/-- The directories above the deleted files, deepest first (1246-1253). -/
def pruneCandidates (toDelete : List Path) : List Path :=
  (toDelete.flatMap fun rel => rel.dropLast.inits.filter (· ≠ [])).dedup.mergeSort fun a b =>
    decide (b.length < a.length) || (decide (a.length = b.length) && pathLe b a)

/-- A directory that is empty is removed (1253-1273). -/
def pruneDir (base : Path) (disk : Disk B) (rel : Path) : Disk B :=
  if disk.isDir (base ++ rel) && (disk.readDir (base ++ rel)).isEmpty then
    match disk.remove (base ++ rel) with
    | .ok disk => disk
    | .error _ => disk
  else disk

/-! ## Runs of the write-back -/

/-- Nothing stands in the way of a file. -/
def Disk.Fits (d : Disk B) (p : Path) : Prop :=
  d.isDir p = false ∧ ∀ f, Under f p → d.file f = none

namespace Writeback

/-- What a write-back does at a path: nothing, or a directory above a target where nothing was, or the
target. -/
def At (disk : Disk B) (base : Path) (content : Path → Option B) (now : ℤ) (s : Writeback B)
    (p : Path) : Prop :=
  s.disk.stat p = disk.stat p ∨
    (disk.stat p = none ∧ s.disk.stat p = some .dir ∧
      ∃ rel, (content rel).isSome = true ∧ Under p (base ++ rel)) ∨
    ∃ rel bytes, p = base ++ rel ∧ content rel = some bytes ∧ s.phase rel = .written ∧
      s.disk.stat p = some (.file bytes now) ∧ disk.isDir p = false

/-- What holds in the middle of a write-back that started on `disk`. -/
structure Inv (disk : Disk B) (base : Path) (content : Path → Option B) (now : ℤ)
    (s : Writeback B) : Prop where
  atPath : ∀ p, At disk base content now s p
  ready : ∀ rel, s.phase rel = .ready → s.disk.isDir (base ++ rel).dropLast = true
  written : ∀ rel bytes, content rel = some bytes → s.phase rel = .written →
    s.disk.stat (base ++ rel) = some (.file bytes now)

section Runs

variable {disk : Disk B} {base rel p : Path} {content : Path → Option B} {now : ℤ}
  {s s' : Writeback B}

theorem inv_start : Inv disk base content now ⟨disk, fun _ => .waiting⟩ where
  atPath _ := .inl rfl
  ready _ h := by cases h
  written _ _ _ h := by cases h

/-- What a step of a task does. -/
theorem step_cases (h : s.step base content now rel = some s') : ∃ bytes, content rel = some bytes ∧
    ((s.phase rel = .waiting ∧ ∃ d, s.disk.mkdirs [] (base ++ rel).dropLast = some d ∧
        s' = ⟨d, Function.update s.phase rel .ready⟩) ∨
      (s.phase rel = .waiting ∧ s.disk.mkdirs [] (base ++ rel).dropLast = none ∧
        s' = ⟨s.disk, Function.update s.phase rel .failed⟩) ∨
      (s.phase rel = .ready ∧ ∃ d, s.disk.writePath (base ++ rel) bytes now = some d ∧
        s' = ⟨d, Function.update s.phase rel .written⟩) ∨
      (s.phase rel = .ready ∧ s.disk.writePath (base ++ rel) bytes now = none ∧
        s' = ⟨s.disk, Function.update s.phase rel .failed⟩)) := by
  rw [step] at h
  split at h
  · rename_i bytes hc hp
    refine ⟨bytes, hc, ?_⟩
    split at h
    · rename_i d hd
      exact .inl ⟨hp, d, hd, (Option.some.inj h).symm⟩
    · rename_i hd
      exact .inr (.inl ⟨hp, hd, (Option.some.inj h).symm⟩)
  · rename_i bytes hc hp
    refine ⟨bytes, hc, ?_⟩
    split at h
    · rename_i d hd
      exact .inr (.inr (.inl ⟨hp, d, hd, (Option.some.inj h).symm⟩))
    · rename_i hd
      exact .inr (.inr (.inr ⟨hp, hd, (Option.some.inj h).symm⟩))
  · cases h

variable {bytes : B}

/-- What a write leaves: the file at its path, which was no directory. -/
theorem writePath_eq_some {d d' : Disk B} (h : d.writePath p bytes now = some d') :
    d.isDir p = false ∧ ∀ q, d'.stat q = if q = p then some (.file bytes now) else d.stat q := by
  obtain ⟨name, hname, hwrite⟩ := Option.bind_eq_some_iff.1 h
  have hp : p = p.dropLast ++ [name] := (List.dropLast_append_getLast? name hname).symm
  constructor
  · rw [Disk.write] at hwrite
    split at hwrite
    · cases hwrite
    · rename_i hself
      rwa [← hp, Bool.not_eq_true] at hself
  · intro q
    rw [Disk.stat_write hwrite, ← hp]

variable {d : Disk B}

/-- A write fails only on a directory, or where there is no directory to put the file. -/
theorem writePath_isSome (hne : p ≠ []) (hdir : d.isDir p.dropLast = true)
    (hself : d.isDir p = false) : (d.writePath p bytes now).isSome = true := by
  obtain ⟨name, hname⟩ : ∃ name, p.getLast? = some name :=
    Option.ne_none_iff_exists'.1 fun h => hne (List.getLast?_eq_none_iff.1 h)
  have hp : p.dropLast ++ [name] = p := List.dropLast_append_getLast? name hname
  have hself' : ¬ d.isDir (p.dropLast ++ [name]) = true := by
    rw [hp, hself]
    nofun
  rw [Disk.writePath, hname, Option.bind_some, Disk.write, dif_neg hself', dif_pos hdir]
  rfl

/-- The phase of another task stays. -/
theorem phase_of_ne {f : Path → WritePhase} {a : WritePhase} {r : Path} (h : r ≠ rel) :
    Function.update f rel a r = f r := Function.update_of_ne h _ _

/-- A task that fails leaves the disk. -/
theorem inv_failed (h : Inv disk base content now s) (hp : s.phase rel ≠ .written) :
    Inv disk base content now ⟨s.disk, Function.update s.phase rel .failed⟩ := by
  refine ⟨fun p => ?_, fun r hr => ?_, fun r bytes hc hr => ?_⟩
  · rcases h.atPath p with hs | hm | ⟨r, bytes, heq, hc, hphase, hstat, hnd⟩
    · exact .inl hs
    · exact .inr (.inl hm)
    · have hne : r ≠ rel := by
        rintro rfl
        exact hp hphase
      exact .inr (.inr ⟨r, bytes, heq, hc, (phase_of_ne hne).trans hphase, hstat, hnd⟩)
  · by_cases hrel : r = rel
    · dsimp only at hr
      rw [hrel, Function.update_self] at hr
      cases hr
    · exact h.ready r ((phase_of_ne hrel).symm.trans hr)
  · by_cases hrel : r = rel
    · dsimp only at hr
      rw [hrel, Function.update_self] at hr
      cases hr
    · exact h.written r bytes hc ((phase_of_ne hrel).symm.trans hr)

/-- The directories of a task change nothing that is there. -/
theorem inv_ready (h : Inv disk base content now s) (hc : (content rel).isSome = true)
    (hp : s.phase rel = .waiting) (hd : s.disk.mkdirs [] (base ++ rel).dropLast = some d)
    (hne : base ++ rel ≠ []) : Inv disk base content now ⟨d, Function.update s.phase rel .ready⟩ := by
  have hsame : ∀ q node, s.disk.stat q = some node → d.stat q = some node := by
    intro q node hq
    rcases Disk.stat_mkdirs hd q with heq | ⟨hnone, -, -⟩
    · rw [heq, hq]
    · rw [hq] at hnone
      cases hnone
  refine ⟨fun p => ?_, fun r hr => ?_, fun r bytes hcr hr => ?_⟩
  · rcases h.atPath p with hs | ⟨hnone, hdir, hr⟩ | ⟨r, bytes, heq, hcr, hphase, hstat, hnd⟩
    · rcases Disk.stat_mkdirs hd p with heq | ⟨hnone, hdir, hpre⟩
      · exact .inl (heq.trans hs)
      · refine .inr (.inl ⟨hs.symm.trans hnone, hdir, rel, hc, ?_⟩)
        rw [List.nil_append] at hpre
        refine ⟨hpre.trans (List.dropLast_prefix _), ?_⟩
        rintro rfl
        have := hpre.length_le
        have hpos := List.length_pos_of_ne_nil hne
        rw [List.length_dropLast] at this
        omega
    · exact .inr (.inl ⟨hnone, hsame p _ hdir, hr⟩)
    · have hne : r ≠ rel := by
        rintro rfl
        rw [hp] at hphase
        cases hphase
      exact .inr (.inr ⟨r, bytes, heq, hcr, (phase_of_ne hne).trans hphase, hsame p _ hstat, hnd⟩)
  · by_cases hrel : r = rel
    · subst hrel
      have := Disk.isDir_mkdirs hd (Disk.isDir_iff.2 (by rw [Disk.stat, if_pos rfl]))
      rwa [List.nil_append] at this
    · have hdir := h.ready r ((phase_of_ne hrel).symm.trans hr)
      exact Disk.isDir_iff.2 (hsame _ _ (Disk.isDir_iff.1 hdir))
  · by_cases hrel : r = rel
    · dsimp only at hr
      rw [hrel, Function.update_self] at hr
      cases hr
    · exact hsame _ _ (h.written r bytes hcr ((phase_of_ne hrel).symm.trans hr))

/-- A written file stands where there was no directory. -/
theorem inv_written (h : Inv disk base content now s)
    (hc : content rel = some bytes) (hd : s.disk.writePath (base ++ rel) bytes now = some d) :
    Inv disk base content now ⟨d, Function.update s.phase rel .written⟩ := by
  obtain ⟨hnd, hstat⟩ := writePath_eq_some hd
  have hself : d.stat (base ++ rel) = some (.file bytes now) := by rw [hstat, if_pos rfl]
  have hoff : ∀ q, q ≠ base ++ rel → d.stat q = s.disk.stat q := fun q hq => by
    rw [hstat, if_neg hq]
  refine ⟨fun p => ?_, fun r hr => ?_, fun r bytes' hcr hr => ?_⟩
  · by_cases hp : p = base ++ rel
    · refine .inr (.inr ⟨rel, bytes, hp, hc, Function.update_self _ _ _, hp ▸ hself, ?_⟩)
      rcases h.atPath p with hs | ⟨hnone, -, -⟩ | ⟨-, -, -, -, -, -, hnd'⟩
      · rw [Disk.isDir, ← hs, hp]
        exact hnd
      · rw [Disk.isDir, hnone]
      · exact hnd'
    · rcases h.atPath p with hs | ⟨hnone, hdir, hr⟩ | ⟨r, bytes', heq, hcr, hphase, hfile, hnd'⟩
      · exact .inl ((hoff p hp).trans hs)
      · exact .inr (.inl ⟨hnone, (hoff p hp).trans hdir, hr⟩)
      · have hrel : r ≠ rel := by
          rintro rfl
          exact hp heq
        exact .inr (.inr ⟨r, bytes', heq, hcr, (phase_of_ne hrel).trans hphase,
          (hoff p hp).trans hfile, hnd'⟩)
  · have hrel : r ≠ rel := by
      rintro rfl
      dsimp only at hr
      rw [Function.update_self] at hr
      cases hr
    have hdir := h.ready r ((phase_of_ne hrel).symm.trans hr)
    have hp : (base ++ r).dropLast ≠ base ++ rel := by
      intro heq
      rw [heq, hnd] at hdir
      cases hdir
    exact Disk.isDir_iff.2 ((hoff _ hp).trans (Disk.isDir_iff.1 hdir))
  · by_cases hrel : r = rel
    · subst hrel
      rw [hc] at hcr
      obtain rfl := Option.some.inj hcr
      exact hself
    · have hp : base ++ r ≠ base ++ rel := fun heq => hrel (List.append_cancel_left heq)
      exact (hoff _ hp).trans (h.written r bytes' hcr ((phase_of_ne hrel).symm.trans hr))

theorem inv_step (hne : ∀ rel, (content rel).isSome = true → base ++ rel ≠ [])
    (h : Inv disk base content now s) (hstep : s.step base content now rel = some s') :
    Inv disk base content now s' := by
  obtain ⟨bytes, hc, hcase⟩ := step_cases hstep
  have hsome : (content rel).isSome = true := by rw [hc]; rfl
  rcases hcase with ⟨hp, d, hd, rfl⟩ | ⟨hp, hd, rfl⟩ | ⟨hp, d, hd, rfl⟩ | ⟨hp, hd, rfl⟩
  · exact inv_ready h hsome hp hd (hne rel hsome)
  · exact inv_failed h (by rw [hp]; nofun)
  · exact inv_written h hc hd
  · exact inv_failed h (by rw [hp]; nofun)

/-- **What holds in the middle of a write-back holds in every interleaving.** -/
theorem inv_of_reaches (hne : ∀ rel, (content rel).isSome = true → base ++ rel ≠ [])
    (h : Reaches (step base content now) (fun _ _ => True) ⟨disk, fun _ => .waiting⟩ s) :
    Inv disk base content now s :=
  h.invariant inv_start fun _ _ _ hi _ hs => inv_step hne hi hs

/-- A file was written only where nothing stood in its way. -/
theorem fits_of_written (h : Inv disk base content now s) (hc : content rel = some bytes)
    (hp : s.phase rel = .written) : disk.Fits (base ++ rel) := by
  have hfile := h.written rel bytes hc hp
  constructor
  · rcases h.atPath (base ++ rel) with hs | ⟨hnone, -, -⟩ | ⟨-, -, -, -, -, -, hnd⟩
    · rw [Disk.isDir, ← hs, hfile]
    · rw [Disk.isDir, hnone]
    · exact hnd
  · intro f hu
    have hdir := Disk.stat_above hfile hu
    rcases h.atPath f with hs | ⟨hnone, -, -⟩ | ⟨r, bytes', -, -, -, hstat, -⟩
    · rw [Disk.file, ← hs, hdir]
    · exact Disk.file_eq_none_of_stat hnone
    · rw [hdir] at hstat
      cases hstat

/-- Where nothing stands in the way of any file, and no file is to be above another, no task fails. -/
theorem ne_failed_step (hne : ∀ rel, (content rel).isSome = true → base ++ rel ≠ [])
    (hfits : ∀ rel, (content rel).isSome = true → disk.Fits (base ++ rel))
    (hanti : ∀ r r', (content r).isSome = true → (content r').isSome = true → ¬ Under r r')
    (h : Inv disk base content now s) (hok : ∀ r, s.phase r ≠ .failed)
    (hstep : s.step base content now rel = some s') (r : Path) : s'.phase r ≠ .failed := by
  have hanti' : ∀ r r', (content r).isSome = true → (content r').isSome = true →
      ¬ Under (base ++ r) (base ++ r') := fun r r' hr hr' hu =>
    hanti r r' hr hr' ⟨(List.prefix_append_right_inj base).1 hu.1, fun heq => hu.2 (by rw [heq])⟩
  have hupdate : ∀ a, a ≠ .failed → Function.update s.phase rel a r ≠ .failed := by
    intro a ha
    by_cases hr : r = rel
    · rw [hr, Function.update_self]
      exact ha
    · rw [phase_of_ne hr]
      exact hok r
  obtain ⟨bytes, hc, hcase⟩ := step_cases hstep
  have hsome : (content rel).isSome = true := by rw [hc]; rfl
  rcases hcase with ⟨-, d, -, rfl⟩ | ⟨-, hd, -⟩ | ⟨-, d, -, rfl⟩ | ⟨hp, hd, -⟩
  · exact hupdate _ fun hf => by cases hf
  · -- a file in the way of the directories was there before, or is a target
    have hroot : s.disk.isDir [] = true := Disk.isDir_iff.2 (by rw [Disk.stat, if_pos rfl])
    have hmk : (s.disk.mkdirs [] (base ++ rel).dropLast).isSome = true := by
      refine (Disk.mkdirs_isSome_iff hroot).2 fun f _ hpre => ?_
      rw [List.nil_append] at hpre
      have hu : Under f (base ++ rel) := by
        refine ⟨hpre.trans (List.dropLast_prefix _), ?_⟩
        rintro rfl
        have := hpre.length_le
        have hpos := List.length_pos_of_ne_nil (hne rel hsome)
        rw [List.length_dropLast] at this
        omega
      rcases h.atPath f with hs | ⟨-, hdir, -⟩ | ⟨r', bytes', rfl, hcr, -, -, -⟩
      · rw [Disk.file, hs]
        exact (hfits rel hsome).2 f hu
      · rw [Disk.file, hdir]
      · exact absurd hu (hanti' r' rel (by rw [hcr]; rfl) hsome)
    rw [hd] at hmk
    cases hmk
  · exact hupdate _ fun hf => by cases hf
  · have hself : s.disk.isDir (base ++ rel) = false := by
      rcases h.atPath (base ++ rel) with hs | ⟨-, -, r', hr', hu⟩ | ⟨r', bytes', -, -, -, hfile, -⟩
      · rw [Disk.isDir, hs]
        exact (hfits rel hsome).1
      · exact absurd hu (hanti' rel r' hsome hr')
      · rw [Disk.isDir, hfile]
    have : (s.disk.writePath (base ++ rel) bytes now).isSome = true :=
      writePath_isSome (hne rel hsome) (h.ready rel hp) hself
    rw [hd] at this
    cases this

theorem ne_failed_of_reaches (hne : ∀ rel, (content rel).isSome = true → base ++ rel ≠ [])
    (hfits : ∀ rel, (content rel).isSome = true → disk.Fits (base ++ rel))
    (hanti : ∀ r r', (content r).isSome = true → (content r').isSome = true → ¬ Under r r')
    (h : Reaches (step base content now) (fun _ _ => True) ⟨disk, fun _ => .waiting⟩ s) :
    ∀ r, s.phase r ≠ .failed := by
  induction h with
  | refl => exact fun _ => nofun
  | tail h _ hs ih => exact ne_failed_step hne hfits hanti (inv_of_reaches hne h) ih hs

/-- The task of a file is over. -/
def Finished (s : Writeback B) (rel : Path) : Prop := s.phase rel = .written ∨ s.phase rel = .failed

/-- A task can be finished from anywhere, and the others stay where they are. -/
theorem exists_finished_task (base : Path) (now : ℤ) (s : Writeback B) (hc : (content rel).isSome = true) :
    ∃ s', Reaches (step base content now) (fun _ _ => True) s s' ∧ s'.Finished rel ∧
      ∀ r, r ≠ rel → s'.phase r = s.phase r := by
  obtain ⟨bytes, hbytes⟩ := Option.isSome_iff_exists.1 hc
  have hlast : ∀ s : Writeback B, s.phase rel = .ready →
      ∃ s', Reaches (step base content now) (fun _ _ => True) s s' ∧ s'.Finished rel ∧
        ∀ r, r ≠ rel → s'.phase r = s.phase r := by
    intro s hp
    rcases hd : s.disk.writePath (base ++ rel) bytes now with _ | d
    · exact ⟨⟨s.disk, Function.update s.phase rel .failed⟩,
        Reaches.refl.tail (a := rel) trivial (by rw [step, hbytes, hp]; simp only [hd]),
        .inr (Function.update_self _ _ _), fun r hr => phase_of_ne hr⟩
    · exact ⟨⟨d, Function.update s.phase rel .written⟩,
        Reaches.refl.tail (a := rel) trivial (by rw [step, hbytes, hp]; simp only [hd]),
        .inl (Function.update_self _ _ _), fun r hr => phase_of_ne hr⟩
  cases hp : s.phase rel with
  | written => exact ⟨s, .refl, .inl hp, fun _ _ => rfl⟩
  | failed => exact ⟨s, .refl, .inr hp, fun _ _ => rfl⟩
  | ready => exact hlast s hp
  | waiting =>
    rcases hd : s.disk.mkdirs [] (base ++ rel).dropLast with _ | d
    · exact ⟨⟨s.disk, Function.update s.phase rel .failed⟩,
        Reaches.refl.tail (a := rel) trivial (by rw [step, hbytes, hp]; simp only [hd]),
        .inr (Function.update_self _ _ _), fun r hr => phase_of_ne hr⟩
    · have h1 : Reaches (step base content now) (fun _ _ => True) s
          ⟨d, Function.update s.phase rel .ready⟩ :=
        Reaches.refl.tail (a := rel) trivial (by rw [step, hbytes, hp]; simp only [hd])
      obtain ⟨s', h2, hfin, hkeep⟩ := hlast ⟨d, Function.update s.phase rel .ready⟩
        (Function.update_self _ _ _)
      exact ⟨s', h1.trans h2, hfin, fun r hr => (hkeep r hr).trans (phase_of_ne hr)⟩

/-- **A write-back can be finished** from anywhere. -/
theorem exists_finished (base : Path) (now : ℤ) (s : Writeback B) (rels : List Path)
    (hc : ∀ rel ∈ rels, (content rel).isSome = true) :
    ∃ s', Reaches (step base content now) (fun _ _ => True) s s' ∧ (∀ rel ∈ rels, s'.Finished rel) ∧
      ∀ r, s.Finished r → s'.Finished r := by
  induction rels generalizing s with
  | nil => exact ⟨s, .refl, nofun, fun _ h => h⟩
  | cons rel rels ih =>
    obtain ⟨s1, h1, hfin1, hkeep1⟩ := exists_finished_task base now s
      (hc rel (List.mem_cons_self ..))
    obtain ⟨s2, h2, hfin2, hkeep2⟩ := ih s1 fun r hr => hc r (List.mem_cons_of_mem _ hr)
    refine ⟨s2, h1.trans h2, fun r hr => ?_, fun r hr => hkeep2 r ?_⟩
    · rcases List.mem_cons.1 hr with rfl | hr
      · exact hkeep2 _ hfin1
      · exact hfin2 r hr
    · by_cases heq : r = rel
      · exact heq ▸ hfin1
      · rw [Finished, hkeep1 r heq]
        exact hr

end Runs

end Writeback

/-! ## Deletes and pruning -/

namespace Disk

/-- The same file, or none, with its time. -/
def SameFile (d d' : Disk B) (p : Path) : Prop :=
  ∀ bytes t, d'.stat p = some (.file bytes t) ↔ d.stat p = some (.file bytes t)

theorem SameFile.trans {d d' d'' : Disk B} {p : Path} (h : d.SameFile d' p)
    (h' : d'.SameFile d'' p) : d.SameFile d'' p := fun bytes t => (h' bytes t).trans (h bytes t)

theorem sameFile_of_stat {d d' : Disk B} {p : Path} (h : d'.stat p = d.stat p) : d.SameFile d' p :=
  fun _ _ => by rw [h]

theorem SameFile.file {d d' : Disk B} {p : Path} (h : d.SameFile d' p) : d'.file p = d.file p := by
  apply Option.ext
  intro bytes
  constructor
  · intro hb
    obtain ⟨t, hstat⟩ := stat_of_file hb
    exact file_of_stat ((h bytes t).1 hstat)
  · intro hb
    obtain ⟨t, hstat⟩ := stat_of_file hb
    exact file_of_stat ((h bytes t).2 hstat)

end Disk

section Deletes

variable {base p : Path} {d : Disk B}

/-- Files and missing paths can be deleted in any order. -/
theorem deleteFile_foldl {dels : List Path} (failed : List Path) (hne : ∀ rel ∈ dels, base ++ rel ≠ [])
    (hfile : ∀ rel ∈ dels, d.stat (base ++ rel) = none ∨ (d.file (base ++ rel)).isSome = true) :
    (dels.foldl (deleteFile base) (d, failed)).2 = failed ∧
      ∀ q, q ≠ [] → (dels.foldl (deleteFile base) (d, failed)).1.stat q =
        if ∃ rel ∈ dels, q = base ++ rel then none else d.stat q := by
  induction dels generalizing d with
  | nil => exact ⟨rfl, fun q _ => by simp⟩
  | cons rel dels ih =>
    obtain ⟨d', hd', hstat⟩ : ∃ d', deleteFile base (d, failed) rel = (d', failed) ∧
        ∀ q, q ≠ [] → d'.stat q = if q = base ++ rel then none else d.stat q := by
      rcases hfile rel (List.mem_cons_self ..) with hnone | hsome
      · have hremove : d.remove (base ++ rel) = .error .notFound := by
          rw [Disk.remove, hnone]
          exact if_pos rfl
        refine ⟨d, ?_, fun q _ => ?_⟩
        · rw [deleteFile, hremove]
        · split
          · rename_i heq
            rw [heq, hnone]
          · rfl
      · obtain ⟨b, hb⟩ := Option.isSome_iff_exists.1 hsome
        obtain ⟨d', hremove⟩ := Disk.remove_file hb
        refine ⟨d', ?_, fun q hq => Disk.stat_remove hremove q hq⟩
        rw [deleteFile, hremove]
    rw [List.foldl_cons, hd']
    have hrest : ∀ r ∈ dels, d'.stat (base ++ r) = none ∨ (d'.file (base ++ r)).isSome = true := by
      intro r hr
      have hrne := hne r (List.mem_cons_of_mem _ hr)
      by_cases heq : base ++ r = base ++ rel
      · exact .inl (by rw [hstat _ hrne, if_pos heq])
      · rw [Disk.file, hstat _ hrne, if_neg heq, ← Disk.file]
        exact hfile r (List.mem_cons_of_mem _ hr)
    obtain ⟨hfailed, hfinal⟩ := ih (fun r hr => hne r (List.mem_cons_of_mem _ hr)) hrest
    refine ⟨hfailed, fun q hq => ?_⟩
    rw [hfinal q hq, hstat q hq]
    by_cases h1 : q = base ++ rel
    · have hex : ∃ r ∈ rel :: dels, q = base ++ r := ⟨rel, List.mem_cons_self .., h1⟩
      rw [if_pos h1, if_pos hex, ite_self]
    · have hiff : (∃ r ∈ rel :: dels, q = base ++ r) ↔ ∃ r ∈ dels, q = base ++ r := by
        rw [List.exists_mem_cons_iff]
        exact or_iff_right h1
      rw [if_neg h1]
      simp only [hiff]

/-- Pruning takes directories only. -/
theorem sameFile_pruneDir (rel q : Path) : d.SameFile (pruneDir base d rel) q := by
  rw [pruneDir]
  split
  · rename_i hif
    have hdir := (Bool.and_eq_true_iff.1 hif).1
    split
    · rename_i d' hd'
      by_cases hq : q = []
      · subst hq
        exact Disk.sameFile_of_stat (by rw [Disk.stat, Disk.stat, if_pos rfl, if_pos rfl])
      · intro bytes t
        rw [Disk.stat_remove hd' q hq]
        split
        · rename_i heq
          rw [heq, Disk.isDir_iff.1 hdir]
          exact iff_of_false nofun nofun
        · rfl
    · exact fun _ _ => Iff.rfl
  · exact fun _ _ => Iff.rfl

theorem sameFile_prune (rels : List Path) (q : Path) : d.SameFile (rels.foldl (pruneDir base) d) q := by
  induction rels generalizing d with
  | nil => exact fun _ _ => Iff.rfl
  | cons rel rels ih => exact (sameFile_pruneDir rel q).trans ih

end Deletes

end OpenViking.Git
