import Mathlib.Data.List.DropRight
import OpenViking.Common.System
import OpenViking.Ragfs.MemPaths

/-!
# Concurrent encrypted writes

Any number of `EncryptionWrappedFS::write` calls of one account over one `MemFileSystem`, interleaved at
the calls of the file system, any of which may be cut off.  The name of a staging file is a function of
the path that is written, so two writes of one path share it.

Results:

* `step_inv`: what a step keeps when no other write of the path has staged an envelope;
* `writes_publish`: what then holds all along a run.
-/

namespace OpenViking.Ragfs

open EncryptionWrappedFS

/-- The arguments of a `write`, and its random bytes. -/
structure WriteCall where
  nonces : Nonces
  path : Path
  data : Bytes
  offset : ℕ
  flags : WriteFlag

/-- What the writes share: the file system and the cache of staging directories.  `author` tells which
write the bytes at a path come from. -/
structure Shared (ι : Type) where
  fs : MemFileSystem
  cache : Dict Path ℕ
  author : Path → Option ι

section Writers

variable {ι : Type}

/-- Whose bytes are where after a call that succeeded. -/
def authored (i : ι) (author : Path → Option ι) : EncCall → Path → Option ι
  | .inner (.write path _ _ _) =>
    Function.update author (MemFileSystem.normalizePath path) (some i)
  | .inner (.remove path) => Function.update author (MemFileSystem.normalizePath path) none
  | .inner (.replace srcPath dstPath) =>
    Function.update (Function.update author (MemFileSystem.normalizePath srcPath) none)
      (MemFileSystem.normalizePath dstPath) (author (MemFileSystem.normalizePath srcPath))
  | _ => author

/-- Whether a call did what it was asked for. -/
def succeeded : (c : EncCall) → EncCall.Answer c → Bool
  | .inner _, r => Except.isOk r
  | .tempRootReady _, _ => true
  | .markReady _, _ => true

/-- How the calls of one of the writes are carried out. -/
def sharedExec (i : ι) (c : EncCall) (s : Shared ι) (now : ℕ) : EncCall.Answer c × Shared ι :=
  let r := EncryptionWrappedFS.exec MemFileSystem.exec c (s.fs, s.cache) now
  (r.1, ⟨r.2.1, r.2.2, if succeeded c r.1 then authored i s.author c else s.author⟩)

/-- The writes and what they share. -/
abbrev Writers (ι : Type) := Pool ι EncCall.Answer (Shared ι) (Except Error ℕ)

/-- A write makes its next call, or is cut off. -/
inductive WriterAct (ι : Type) where
  | call (i : ι) (now : ℕ)
  | crash (i : ι)

variable [DecidableEq ι]

def Writers.step (x : Writers ι) : WriterAct ι → Option (Writers ι)
  | .call i now => Pool.step sharedExec x (i, now)
  | .crash i =>
    match x.prog i with
    | .call _ _ => some { x with prog := Function.update x.prog i .stuck }
    | _ => none

/-- The next call writes a staging file. -/
def aboutToStage : Prog EncCall.Answer (Except Error ℕ) → Bool
  | .call (.inner (.write _ _ _ _)) _ => true
  | _ => false

/-- The next call puts a staged envelope in its place. -/
def aboutToPublish : Prog EncCall.Answer (Except Error ℕ) → Bool
  | .call (.inner (.replace _ _)) _ => true
  | _ => false

section Calls

variable (e : EncryptionWrappedFS) (account : Path) (calls : ι → WriteCall)

/-- The key of the file that a write is for. -/
def targetKey (i : ι) : Path := MemFileSystem.normalizePath (calls i).path

/-- The key of the staging file of a write. -/
def stagingKey (i : ι) : Path := MemFileSystem.normalizePath (e.encryptedTempPath (calls i).path)

/-- The envelope of a write. -/
def sealedData (i : ι) : Bytes := e.envelope account (calls i).nonces (calls i).data

/-- Nothing has been written yet. -/
def Writers.start (fs : MemFileSystem) (cache : Dict Path ℕ) : Writers ι where
  state := ⟨fs, cache, fun _ => none⟩
  prog i := e.write account (calls i).nonces (calls i).path (calls i).data (calls i).offset
    (calls i).flags

/-- The bytes at the path of a write are its own. -/
def Published (x : Writers ι) (i : ι) : Prop := x.state.author (targetKey calls i) = some i

/-- No write stages an envelope while another of the same path has one staged. -/
def Unshared (x : Writers ι) : WriterAct ι → Prop
  | .call i _ => aboutToStage (x.prog i) = true → ∀ j, j ≠ i → aboutToPublish (x.prog j) = true →
      rooted (calls j).path ≠ rooted (calls i).path
  | .crash _ => True

end Calls

end Writers

/-! ## Staging files -/

section Staged

variable {ι : Type} {e : EncryptionWrappedFS} {calls : ι → WriteCall}

/-- The staging path is a normalised one. -/
theorem normalizePath_encryptedTempPath (e : EncryptionWrappedFS) (path : Path) :
    MemFileSystem.normalizePath (e.encryptedTempPath path) = e.encryptedTempPath path := by
  have hroot : (encryptedTempRoot (rooted path)).head? = some '/' := by
    unfold encryptedTempRoot
    split
    · split_ifs
      · rfl
      · rfl
    · rfl
  have hhead : (e.encryptedTempPath path).head? = some '/' := by
    rw [encryptedTempPath, List.head?_append, List.head?_append, hroot]
    rfl
  have hlast : (e.encryptedTempPath path).getLast? = some 't' := by
    rw [encryptedTempPath, List.getLast?_append]
    rfl
  generalize e.encryptedTempPath path = p at hhead hlast
  unfold MemFileSystem.normalizePath
  rw [if_neg, if_pos hhead, if_neg]
  · rintro ⟨-, h⟩
    rw [hlast] at h
    exact absurd (Option.some.inj h) (by decide)
  · rintro (rfl | rfl)
    · cases hhead
    · exact absurd hlast (by decide)

/-- **Writes with one staging file are writes of one path.** -/
theorem stagingKey_inj (hdigest : Function.Injective e.crypto.digest)
    (hhex : ∀ path, '/' ∉ e.crypto.digest path) {i j : ι}
    (h : stagingKey e calls i = stagingKey e calls j) : rooted (calls i).path = rooted (calls j).path := by
  have hname : ∀ path, (e.encryptedTempPath path).rtakeWhile (fun c => decide (c ≠ '/')) =
      e.crypto.digest (rooted path) ++ ".encrypt".toList := by
    intro path
    have hslash : '/' ∉ e.crypto.digest (rooted path) ++ ".encrypt".toList := by
      rw [List.mem_append, not_or]
      exact ⟨hhex _, by decide⟩
    rw [encryptedTempPath, List.append_assoc, List.cons_append]
    generalize e.crypto.digest (rooted path) ++ ".encrypt".toList = name at hslash ⊢
    rw [List.rtakeWhile, List.reverse_append, List.reverse_cons, List.append_assoc,
      List.takeWhile_append_of_pos]
    · simp
    · intro c hc
      rw [decide_eq_true_iff]
      rintro rfl
      exact hslash (List.mem_reverse.1 hc)
  unfold stagingKey at h
  rw [normalizePath_encryptedTempPath, normalizePath_encryptedTempPath] at h
  have hsuffix := congrArg (List.rtakeWhile fun c => decide (c ≠ '/')) h
  rw [hname, hname] at hsuffix
  exact hdigest (List.append_cancel_right hsuffix)

end Staged

/-! ## Phases of a write -/

/-- A call that touches no file. -/
inductive Quiet : EncCall → Prop
  | mkdir (path : Path) (mode : ℕ) : Quiet (.inner (.mkdir path mode))
  | tempRootReady (root : Path) : Quiet (.tempRootReady root)
  | markReady (root : Path) : Quiet (.markReady root)

/-- A write that has not staged its envelope, or has failed: when it stages it, `next` follows. -/
inductive Before (tempPath : Path) (envelope : Bytes) (next : Prog EncCall.Answer (Except Error ℕ)) :
    Prog EncCall.Answer (Except Error ℕ) → Prop
  | failed (err : Error) : Before tempPath envelope next (.ret (.error err))
  | crashed : Before tempPath envelope next .stuck
  | quiet {c : EncCall} {k : EncCall.Answer c → Prog EncCall.Answer (Except Error ℕ)} (hc : Quiet c)
      (hk : ∀ r, Before tempPath envelope next (k r)) : Before tempPath envelope next (.call c k)
  | stage {k : Except Error ℕ → Prog EncCall.Answer (Except Error ℕ)}
      (hok : k (.ok envelope.length) = next)
      (herr : ∀ err, (∀ path, err ≠ .alreadyExists path) → Before tempPath envelope next (k (.error err))) :
      Before tempPath envelope next (.call (.inner (.write tempPath envelope 0 .create)) k)

section Phases

variable {tempPath root path : Path} {envelope : Bytes} {next : Prog EncCall.Answer (Except Error ℕ)}

variable {f : Except Error Unit → Prog EncCall.Answer (Except Error ℕ)}

theorem before_mkdirs (mode : ℕ) (dirs : List Path) (hf : ∀ r, Before tempPath envelope next (f r)) :
    Before tempPath envelope next (mkdirs inner mode dirs >>= f) := by
  induction dirs with
  | nil => exact hf _
  | cons dir dirs ih =>
    refine .quiet (.mkdir dir mode) fun r => ?_
    rcases r with err | u
    · cases err with
      | alreadyExists => exact ih
      | _ => exact hf _
    · exact ih

theorem before_createTempRoot (hf : ∀ r, Before tempPath envelope next (f r)) :
    Before tempPath envelope next (createTempRoot root >>= f) := by
  rw [createTempRoot, Prog.bind_assoc]
  refine before_mkdirs _ _ fun r => ?_
  rcases r with err | u
  · exact hf _
  · exact .quiet (.markReady root) fun _ => hf _

theorem before_prepare (hf : ∀ r, Before tempPath envelope next (f r)) :
    Before tempPath envelope next (prepare root >>= f) := by
  refine .quiet (.tempRootReady root) fun r => ?_
  cases r with
  | true => exact hf _
  | false => exact before_createTempRoot hf

theorem before_stage {f : Except Error ℕ → Prog EncCall.Answer (Except Error ℕ)}
    (hok : f (.ok envelope.length) = next) (herr : ∀ err, Before tempPath envelope next (f (.error err))) :
    Before tempPath envelope next (stage root tempPath envelope >>= f) := by
  have hwrite : Before tempPath envelope next (inner (.write tempPath envelope 0 .create) >>= f) :=
    .stage hok fun err _ => herr err
  refine .stage hok fun err herr' => ?_
  cases err with
  | notFound q =>
    show Before tempPath envelope next ((createTempRoot root >>= _) >>= f)
    rw [Prog.bind_assoc]
    refine before_createTempRoot fun r => ?_
    rcases r with err | u
    · exact herr _
    · exact hwrite
  | alreadyExists q => exact absurd rfl (herr' q)
  | _ => exact herr _

/-- **A write starts before its staging.** -/
theorem before_write {e : EncryptionWrappedFS} {account : Path} {nonces : Nonces} {data : Bytes}
    {offset : ℕ} {flags : WriteFlag} (hpath : shouldPassthroughContent path = false) :
    Before (e.encryptedTempPath path) (e.envelope account nonces data)
      (publish path (e.encryptedTempPath path) (e.envelope account nonces data)
        (e.envelope account nonces data).length)
      (e.write account nonces path data offset flags) := by
  rw [EncryptionWrappedFS.write, if_neg (show ¬ shouldPassthroughContent path = true by
    rw [hpath]; decide)]
  split_ifs
  · exact .failed _
  · exact .failed _
  · exact .failed _
  · refine before_prepare fun r => ?_
    rcases r with err | u
    · exact .failed err
    · exact before_stage rfl fun err => .failed err

end Phases

/-! ## The invariant -/

section Invariant

variable {ι : Type} (e : EncryptionWrappedFS) (account : Path) (calls : ι → WriteCall)

/-- Where a write is: its program, and whose bytes are at its staging file and at its path; `D` holds of
the writes that have been published. -/
inductive Phase (D : ι → Prop) (x : Writers ι) (i : ι) : Prop
  | before
      (h : Before (e.encryptedTempPath (calls i).path) (sealedData e account calls i)
        (publish (calls i).path (e.encryptedTempPath (calls i).path) (sealedData e account calls i)
          (sealedData e account calls i).length) (x.prog i))
      (hauthor : ¬ Published calls x i)
  | staged
      (h : x.prog i = publish (calls i).path (e.encryptedTempPath (calls i).path)
        (sealedData e account calls i) (sealedData e account calls i).length)
      (hstaged : x.state.author (stagingKey e calls i) = some i) (hauthor : ¬ Published calls x i)
  | done (h : x.prog i = .ret (.ok (sealedData e account calls i).length)) (hdone : D i)

/-- What the writes keep, from a file system at the start. -/
structure WritersInv (fs : MemFileSystem) (D : ι → Prop) (x : Writers ι) : Prop where
  phase : ∀ i, Phase e account calls D x i
  place : ∀ p i, x.state.author p = some i → p = stagingKey e calls i ∨ p = targetKey calls i
  data : ∀ p i, x.state.author p = some i → ∃ entry, x.state.fs.get p = some entry ∧
    entry.isDir = false ∧ entry.data = sealedData e account calls i
  untouched : ∀ p, x.state.author p = none → (∀ i, p ≠ stagingKey e calls i) →
    (x.state.fs.get p).bind FileEntry.content = (fs.get p).bind FileEntry.content

variable {e account calls} {fs : MemFileSystem} {D D' : ι → Prop} {x y : Writers ι} {i : ι}

/-- The other writes are where they were, as long as no other bytes are at their files. -/
theorem Phase.of_prog {j : ι} (h : Phase e account calls D x j) (hD : D j → D' j) (hprog : y.prog j = x.prog j)
    (hstaged : aboutToPublish (x.prog j) = true → x.state.author (stagingKey e calls j) = some j →
      y.state.author (stagingKey e calls j) = some j)
    (htarget : Published calls y j → Published calls x j) : Phase e account calls D' y j := by
  cases h with
  | before h hauthor => exact .before (by rwa [hprog]) fun hp => hauthor (htarget hp)
  | staged h hauthor hp =>
    obtain ⟨k, hk, -, -⟩ := publish_eq_call (calls j).path (e.encryptedTempPath (calls j).path)
      (sealedData e account calls j)
    exact .staged (by rwa [hprog]) (hstaged (by rw [h, hk]; rfl) hauthor) fun hy => hp (htarget hy)
  | done h hdone => exact .done (by rwa [hprog]) (hD hdone)

/-- The files are the same; there may be more directories. -/
def SameFiles (fs fs' : MemFileSystem) : Prop :=
  (∀ p entry, fs.get p = some entry → fs'.get p = some entry) ∧
    ∀ p, (fs'.get p).bind FileEntry.content = (fs.get p).bind FileEntry.content

theorem SameFiles.refl (fs : MemFileSystem) : SameFiles fs fs := ⟨fun _ _ h => h, fun _ => rfl⟩

theorem sameFiles_mkdir (path : Path) (mode : ℕ) (fs : MemFileSystem) :
    SameFiles fs (MemFileSystem.mkdir path mode fs).2 := by
  unfold MemFileSystem.mkdir
  rcases MemFileSystem.insertNew_cases path (FileEntry.newDir mode) fs with ⟨err, he⟩ | ⟨hget, he⟩
  · rw [he]
    exact .refl fs
  · rw [he]
    refine ⟨fun p entry hp => ?_, fun p => ?_⟩
    · rw [Dict.get_set, if_neg]
      · exact hp
      · rintro rfl
        rw [hget] at hp
        cases hp
    · rw [Dict.get_set]
      split_ifs with h
      · rw [h, hget]
        rfl
      · rfl

theorem quiet_exec {c : EncCall} (hc : Quiet c) (s : Shared ι) (now : ℕ) :
    (sharedExec i c s now).2.author = s.author ∧ SameFiles s.fs (sharedExec i c s now).2.fs := by
  cases hc with
  | mkdir path mode => exact ⟨ite_self _, sameFiles_mkdir path mode s.fs⟩
  | tempRootReady root => exact ⟨rfl, .refl s.fs⟩
  | markReady root => exact ⟨rfl, .refl s.fs⟩

section

variable (hinv : WritersInv e account calls fs D x)

include hinv

/-- A step of one write that leaves the files and their authors alone. -/
theorem WritersInv.of_sameFiles (hD : ∀ j, D j → D' j)
    (hfiles : SameFiles x.state.fs y.state.fs) (hauthor : y.state.author = x.state.author)
    (hprog : ∀ j, j ≠ i → y.prog j = x.prog j) (hi : Phase e account calls D' y i) :
    WritersInv e account calls fs D' y where
  phase j := by
    by_cases hj : j = i
    · rwa [hj]
    · refine (hinv.phase j).of_prog (hD j) (hprog j hj) (fun _ h => ?_) fun h => ?_
      · rwa [hauthor]
      · unfold Published at h ⊢
        rwa [← hauthor]
  place := by
    rw [hauthor]
    exact hinv.place
  data p j hp := by
    rw [hauthor] at hp
    obtain ⟨entry, hget, hdata⟩ := hinv.data p j hp
    exact ⟨entry, hfiles.1 p entry hget, hdata⟩
  untouched p hp hstaging := by
    rw [hauthor] at hp
    rw [hfiles.2]
    exact hinv.untouched p hp hstaging

/-- An envelope is staged. -/
theorem WritersInv.of_stage (hD : ∀ j, D j → D' j) {entry : FileEntry}
    (hdir : entry.isDir = false) (hdata : entry.data = sealedData e account calls i)
    (hfs : y.state.fs = x.state.fs.set (stagingKey e calls i) entry)
    (hauthor : y.state.author = Function.update x.state.author (stagingKey e calls i) (some i))
    (hprog : ∀ j, j ≠ i → y.prog j = x.prog j)
    (hi : y.prog i = publish (calls i).path (e.encryptedTempPath (calls i).path)
        (sealedData e account calls i) (sealedData e account calls i).length)
    (hpublished : ¬ Published calls x i) (hkeys : ∀ j k, targetKey calls j ≠ stagingKey e calls k)
    (hothers : ∀ j, j ≠ i → aboutToPublish (x.prog j) = true → stagingKey e calls j ≠ stagingKey e calls i) :
    WritersInv e account calls fs D' y := by
  have htarget : ∀ j, Published calls y j ↔ Published calls x j := by
    intro j
    unfold Published
    rw [hauthor, Function.update_of_ne (hkeys j i)]
  refine ⟨fun j => ?_, fun p j hp => ?_, fun p j hp => ?_, fun p hp hstaging => ?_⟩
  · by_cases hj : j = i
    · subst hj
      exact .staged hi (by rw [hauthor, Function.update_self]) fun h => hpublished ((htarget j).1 h)
    · refine (hinv.phase j).of_prog (hD j) (hprog j hj) (fun hp h => ?_) (htarget j).1
      rw [hauthor, Function.update_of_ne (hothers j hj hp)]
      exact h
  · rw [hauthor] at hp
    by_cases hpi : p = stagingKey e calls i
    · rw [hpi, Function.update_self] at hp
      rw [hpi, Option.some.inj hp]
      exact .inl rfl
    · rw [Function.update_of_ne hpi] at hp
      exact hinv.place p j hp
  · rw [hauthor] at hp
    by_cases hpi : p = stagingKey e calls i
    · rw [hpi, Function.update_self] at hp
      rw [hpi, ← Option.some.inj hp, hfs, Dict.get_set, if_pos rfl]
      exact ⟨entry, rfl, hdir, hdata⟩
    · rw [Function.update_of_ne hpi] at hp
      rw [hfs, Dict.get_set, if_neg hpi]
      exact hinv.data p j hp
  · have hpi := hstaging i
    rw [hauthor, Function.update_of_ne hpi] at hp
    rw [hfs, Dict.get_set, if_neg hpi]
    exact hinv.untouched p hp hstaging

/-- What is staged is put in its place. -/
theorem WritersInv.of_replace (hD : ∀ j, D j → D' j) {entry : FileEntry}
    (hget : x.state.fs.get (stagingKey e calls i) = some entry)
    (hstaged : x.state.author (stagingKey e calls i) = some i)
    (hfs : y.state.fs = ((x.state.fs.erase (targetKey calls i)).erase (stagingKey e calls i)).set
      (targetKey calls i) entry)
    (hauthor : y.state.author = Function.update (Function.update x.state.author (stagingKey e calls i) none)
      (targetKey calls i) (some i)) (hprog : ∀ j, j ≠ i → y.prog j = x.prog j)
    (hi : y.prog i = .ret (.ok (sealedData e account calls i).length)) (hdone : D' i)
    (hkeys : ∀ j k, targetKey calls j ≠ stagingKey e calls k) : WritersInv e account calls fs D' y := by
  obtain ⟨entry', hget', hdata⟩ := hinv.data _ _ hstaged
  obtain rfl := Option.some.inj (hget.symm.trans hget')
  have hother : ∀ p, p ≠ targetKey calls i → p ≠ stagingKey e calls i →
      y.state.author p = x.state.author p ∧ y.state.fs.get p = x.state.fs.get p := by
    intro p hp hpi
    rw [hauthor, Function.update_of_ne hp, Function.update_of_ne hpi, hfs, MemFileSystem.get_replace,
      if_neg hp, if_neg hpi]
    exact ⟨rfl, rfl⟩
  have htarget : y.state.author (targetKey calls i) = some i := by rw [hauthor, Function.update_self]
  have hstaging : y.state.author (stagingKey e calls i) = none := by
    rw [hauthor, Function.update_of_ne (hkeys i i).symm, Function.update_self]
  refine ⟨fun j => ?_, fun p j hp => ?_, fun p j hp => ?_, fun p hp hstaging' => ?_⟩
  · by_cases hj : j = i
    · rw [hj]
      exact .done hi hdone
    · refine (hinv.phase j).of_prog (hD j) (hprog j hj) (fun _ h => ?_) fun h => ?_
      · have hne : stagingKey e calls j ≠ stagingKey e calls i := by
          intro heq
          rw [heq, hstaged] at h
          exact hj (Option.some.inj h).symm
        rw [(hother _ (hkeys i j).symm hne).1]
        exact h
      · unfold Published at h ⊢
        have hne : targetKey calls j ≠ targetKey calls i := by
          intro heq
          rw [heq, htarget] at h
          exact hj (Option.some.inj h).symm
        rwa [(hother _ hne (hkeys j i)).1] at h
  · by_cases ht : p = targetKey calls i
    · rw [ht, htarget] at hp
      rw [ht, Option.some.inj hp]
      exact .inr rfl
    · by_cases hs : p = stagingKey e calls i
      · rw [hs, hstaging] at hp
        cases hp
      · rw [(hother p ht hs).1] at hp
        exact hinv.place p j hp
  · by_cases ht : p = targetKey calls i
    · rw [ht, htarget] at hp
      rw [ht, ← Option.some.inj hp, hfs, MemFileSystem.get_replace, if_pos rfl]
      exact ⟨entry, rfl, hdata⟩
    · by_cases hs : p = stagingKey e calls i
      · rw [hs, hstaging] at hp
        cases hp
      · rw [(hother p ht hs).1] at hp
        rw [(hother p ht hs).2]
        exact hinv.data p j hp
  · have ht : p ≠ targetKey calls i := by
      rintro rfl
      rw [htarget] at hp
      cases hp
    obtain ⟨ha, hf⟩ := hother p ht (hstaging' i)
    rw [ha] at hp
    rw [hf]
    exact hinv.untouched p hp hstaging'

end

theorem sharedExec_error (i : ι) (c : Call) {err : Error} {s : Shared ι} (now : ℕ)
    (h : MemFileSystem.exec c s.fs = (.error err, s.fs)) :
    sharedExec i (.inner c) s now = (.error err, s) := by
  show ((MemFileSystem.exec c s.fs).1, (⟨(MemFileSystem.exec c s.fs).2, s.cache,
    if Except.isOk (MemFileSystem.exec c s.fs).1 then _ else s.author⟩ : Shared ι)) = _
  rw [h]
  rfl

theorem sharedExec_ok (i : ι) (c : Call) {r : c.Answer} {s : Shared ι} {fs' : MemFileSystem} (now : ℕ)
    (h : MemFileSystem.exec c s.fs = (.ok r, fs')) :
    sharedExec i (.inner c) s now = (.ok r, ⟨fs', s.cache, authored i s.author (.inner c)⟩) := by
  show ((MemFileSystem.exec c s.fs).1, (⟨(MemFileSystem.exec c s.fs).2, s.cache,
    if Except.isOk (MemFileSystem.exec c s.fs).1 then _ else s.author⟩ : Shared ι)) = _
  rw [h]
  rfl

theorem start_inv (hpass : ∀ i, shouldPassthroughContent (calls i).path = false) (cache : Dict Path ℕ) :
    WritersInv e account calls fs D (Writers.start e account calls fs cache) where
  phase i := by
    refine .before (before_write (hpass i)) fun h => ?_
    cases h
  place p i h := by cases h
  data p i h := by cases h
  untouched _ _ _ := rfl

variable [DecidableEq ι]

/-- **What a step of the writes keeps**, when no other write of the path has an envelope staged. -/
theorem step_inv (hdigest : Function.Injective e.crypto.digest) (hhex : ∀ path, '/' ∉ e.crypto.digest path)
    (hkeys : ∀ j k, targetKey calls j ≠ stagingKey e calls k) {a : WriterAct ι}
    (hinv : WritersInv e account calls fs D x) (hD : ∀ j, D j → D' j)
    (hpublished : ∀ j, Published calls y j → D' j) (hcond : Unshared calls x a) (hstep : x.step a = some y) :
    WritersInv e account calls fs D' y := by
  cases a with
  | crash i =>
    unfold Writers.step at hstep
    dsimp only at hstep
    split at hstep
    · next c k hprog =>
      obtain rfl := Option.some.inj hstep
      have hi : ¬ Published calls x i := by
        cases hinv.phase i with
        | before _ h => exact h
        | staged _ _ h => exact h
        | done h => cases hprog.symm.trans h
      refine hinv.of_sameFiles hD (i := i) (.refl _) rfl (fun j hj => Function.update_of_ne hj _ _) ?_
      refine .before ?_ hi
      show Before _ _ _ (Function.update x.prog i .stuck i)
      rw [Function.update_self]
      exact .crashed
    · cases hstep
  | call i now =>
    obtain ⟨c, k, hprog, hstate, hprogs⟩ := Pool.step_cases hstep
    have hothers : ∀ j, j ≠ i → y.prog j = x.prog j := by
      intro j hj
      rw [hprogs, Function.update_of_ne hj]
    have hself : y.prog i = k (sharedExec i c x.state now).1 := by rw [hprogs, Function.update_self]
    have hphase := hinv.phase i
    dsimp only at hprog hstate
    cases hphase with
    | before h hi =>
      rw [hprog] at h
      cases h with
      | quiet hc hk =>
        obtain ⟨hauthor, hfiles⟩ := quiet_exec (i := i) hc x.state now
        rw [← hstate] at hauthor hfiles
        refine hinv.of_sameFiles hD hfiles hauthor hothers (.before ?_ ?_)
        · rw [hself]
          exact hk _
        · unfold Published
          rwa [hauthor]
      | stage hok herr =>
        rcases MemFileSystem.write_cases (e.encryptedTempPath (calls i).path)
          (sealedData e account calls i) 0 .create x.state.fs with ⟨err, he⟩ | ⟨entry, hdir, hdata, he⟩
        · have hexec := sharedExec_error i (.write (e.encryptedTempPath (calls i).path)
            (sealedData e account calls i) 0 .create) now he
          rw [hexec] at hstate hself
          refine hinv.of_sameFiles hD (by rw [hstate]; exact .refl _) (by rw [hstate]) hothers
            (.before ?_ (by unfold Published; rwa [hstate]))
          rw [hself]
          refine herr err fun q hq => MemFileSystem.write_ne_alreadyExists _ _ _ _ _ q
            ((congrArg Prod.fst he).trans ?_)
          rw [hq]
        · have hexec := sharedExec_ok i (.write (e.encryptedTempPath (calls i).path)
            (sealedData e account calls i) 0 .create) now he
          rw [hexec] at hstate hself
          refine hinv.of_stage hD hdir (hdata (.inl rfl)) (by rw [hstate]; rfl) (by rw [hstate]; rfl) hothers
            (hself.trans hok) hi hkeys fun j hj hp heq => ?_
          exact hcond (by rw [hprog]; rfl) j hj hp (stagingKey_inj hdigest hhex heq)
    | staged h hstaged hi =>
      obtain ⟨k', hk', hok, herr⟩ := publish_eq_call (calls i).path (e.encryptedTempPath (calls i).path)
        (sealedData e account calls i)
      rw [h, hk'] at hprog
      cases hprog
      rcases MemFileSystem.replace_cases (e.encryptedTempPath (calls i).path) (calls i).path x.state.fs with
        ⟨err, he⟩ | ⟨entry, hget, hdir, he⟩
      · have hexec := sharedExec_error i (.replace (e.encryptedTempPath (calls i).path) (calls i).path) now he
        rw [hexec] at hstate hself
        refine hinv.of_sameFiles hD (by rw [hstate]; exact .refl _) (by rw [hstate]) hothers
          (.before ?_ (by unfold Published; rwa [hstate]))
        rw [hself, herr]
        exact .failed err
      · have hexec := sharedExec_ok i (.replace (e.encryptedTempPath (calls i).path) (calls i).path) now he
        rw [hexec] at hstate hself
        refine hinv.of_replace hD hget hstaged (by rw [hstate]; rfl) ?_ hothers (hself.trans hok)
          (hpublished i ?_) hkeys
        · rw [hstate, ← hstaged]
          rfl
        · unfold Published
          rw [hstate, ← hstaged]
          exact Function.update_self _ _ _
    | done h => cases hprog.symm.trans h

/-! ## Runs -/

/-- A write that is over stays over. -/
theorem ret_stays {C : Writers ι → WriterAct ι → Prop} {r : Except Error ℕ}
    (h : Reaches Writers.step C x y) (hx : x.prog i = .ret r) : y.prog i = .ret r := by
  induction h with
  | refl => exact hx
  | @tail t u a _ _ hstep ih =>
    cases a with
    | crash j =>
      unfold Writers.step at hstep
      dsimp only at hstep
      split at hstep
      · next c k hprog =>
        obtain rfl := Option.some.inj hstep
        have hij : i ≠ j := by
          rintro rfl
          cases hprog.symm.trans ih
        show Function.update t.prog j .stuck i = .ret r
        rwa [Function.update_of_ne hij]
      · cases hstep
    | call j now =>
      obtain ⟨c, k, hprog, -, hprogs⟩ := Pool.step_cases hstep
      have hij : i ≠ j := by
        rintro rfl
        cases hprog.symm.trans ih
      rwa [hprogs, Function.update_of_ne hij]

/-- The writes that have been published on the way to a state. -/
def HasPublished (e : EncryptionWrappedFS) (account : Path) (calls : ι → WriteCall) (fs : MemFileSystem)
    (cache : Dict Path ℕ) (y : Writers ι) (i : ι) : Prop :=
  ∃ x, Reaches Writers.step (Unshared calls) (Writers.start e account calls fs cache) x ∧
    Reaches Writers.step (Unshared calls) x y ∧ Published calls x i

/-- What holds all along a run. -/
theorem reaches_inv (hdigest : Function.Injective e.crypto.digest) (hhex : ∀ path, '/' ∉ e.crypto.digest path)
    (hpass : ∀ i, shouldPassthroughContent (calls i).path = false)
    (hkeys : ∀ j k, targetKey calls j ≠ stagingKey e calls k) {cache : Dict Path ℕ}
    (h : Reaches Writers.step (Unshared calls) (Writers.start e account calls fs cache) x) :
    WritersInv e account calls fs (HasPublished e account calls fs cache x) x := by
  induction h with
  | refl => exact start_inv hpass cache
  | tail hr hc hs ih =>
    refine step_inv hdigest hhex hkeys ih ?_ ?_ hc hs
    · rintro j ⟨z, hz, hzt, hp⟩
      exact ⟨z, hz, hzt.tail hc hs, hp⟩
    · intro j hp
      exact ⟨_, hr.tail hc hs, .refl, hp⟩

/-- **Encrypted writes publish atomically as long as no write stages over another.**  Each path outside
the staging files holds what it held or a whole envelope written to it, a write that succeeded has been
published, and one that failed never. -/
theorem writes_publish (e : EncryptionWrappedFS) (account : Path) (calls : ι → WriteCall)
    (hdigest : Function.Injective e.crypto.digest) (hhex : ∀ path, '/' ∉ e.crypto.digest path)
    (hpass : ∀ i, shouldPassthroughContent (calls i).path = false)
    (hkeys : ∀ i j, targetKey calls i ≠ stagingKey e calls j) (fs : MemFileSystem) (cache : Dict Path ℕ)
    (y : Writers ι)
    (hrun : Reaches Writers.step (Unshared calls) (Writers.start e account calls fs cache) y) :
    (∀ path, (∀ i, MemFileSystem.normalizePath path ≠ stagingKey e calls i) →
      y.state.fs.content path = fs.content path ∨
        ∃ i, MemFileSystem.normalizePath path = targetKey calls i ∧
          y.state.fs.content path = some (sealedData e account calls i)) ∧
    (∀ i n, y.prog i = .ret (.ok n) →
      ∃ x, Reaches Writers.step (Unshared calls) (Writers.start e account calls fs cache) x ∧
        Reaches Writers.step (Unshared calls) x y ∧ Published calls x i ∧
        x.state.fs.content (calls i).path = some (sealedData e account calls i)) ∧
    ∀ i err, y.prog i = .ret (.error err) →
      ∀ x, Reaches Writers.step (Unshared calls) (Writers.start e account calls fs cache) x →
        Reaches Writers.step (Unshared calls) x y → ¬ Published calls x i := by
  have hcontent : ∀ {D : ι → Prop} {x : Writers ι} {p : Path} {i : ι},
      WritersInv e account calls fs D x →
      x.state.author (MemFileSystem.normalizePath p) = some i →
      x.state.fs.content p = some (sealedData e account calls i) := by
    intro D x p i hx ha
    obtain ⟨entry, hget, hdir, hdata⟩ := hx.data _ i ha
    rw [MemFileSystem.content, hget, Option.bind_some, FileEntry.content, hdir, hdata]
    rfl
  have hinv := reaches_inv hdigest hhex hpass hkeys hrun
  refine ⟨fun path hpath => ?_, fun i n hy => ?_, fun i err hy x hx hxy hp => ?_⟩
  · cases ha : y.state.author (MemFileSystem.normalizePath path) with
    | none => exact .inl (hinv.untouched _ ha hpath)
    | some i => exact .inr ⟨i, (hinv.place _ i ha).resolve_left (hpath i), hcontent hinv ha⟩
  · cases hinv.phase i with
    | before h =>
      rw [hy] at h
      cases h
    | staged h =>
      obtain ⟨k, hk, -, -⟩ := publish_eq_call (calls i).path (e.encryptedTempPath (calls i).path)
        (sealedData e account calls i)
      cases hy.symm.trans (h.trans hk)
    | done _ hdone =>
      obtain ⟨x, hx, hxy, hp⟩ := hdone
      exact ⟨x, hx, hxy, hp, hcontent (reaches_inv hdigest hhex hpass hkeys hx) hp⟩
  · cases (reaches_inv hdigest hhex hpass hkeys hx).phase i with
    | before _ h => exact h hp
    | staged _ _ h => exact h hp
    | done h => cases (ret_stays hxy h).symm.trans hy

end Invariant

/-! ## Two writes of one path -/

/-- What a write has returned. -/
def result : Prog EncCall.Answer (Except Error ℕ) → Option (Except Error ℕ)
  | .ret r => some r
  | _ => none

theorem eq_ret_of_result {p : Prog EncCall.Answer (Except Error ℕ)} {r : Except Error ℕ}
    (h : result p = some r) : p = .ret r := by
  cases p with
  | ret a => exact congrArg _ (Option.some.inj h)
  | call c k => cases h
  | stuck => cases h

/-- Writes of two bytes to `/acme/x`. -/
def twoWrites : Bool → WriteCall
  | false => ⟨fixedNonces, "/acme/x".toList, [5, 6], 0, .create⟩
  | true => ⟨fixedNonces, "/acme/x".toList, [7, 8], 0, .create⟩

/-- They start with a directory for the account. -/
def startTwo : Writers Bool :=
  Writers.start taggedFS "acme".toList twoWrites
    (MemFileSystem.mkdir "/acme".toList 0o755 MemFileSystem.new).2 Dict.empty

/-- The run in which one write follows the other. -/
def oneAfterOther : List (WriterAct Bool) :=
  List.replicate 7 (.call false 0) ++ List.replicate 3 (.call true 0)

/-- The second write stages between the staging and the publication of the first. -/
def overlapping : List (WriterAct Bool) :=
  List.replicate 6 (.call false 0) ++ [.call true 0, .call true 0, .call false 0, .call true 0]

/-- `Unshared`, as a check. -/
def unsharedTwo (x : Writers Bool) : WriterAct Bool → Bool
  | .call i _ => !aboutToStage (x.prog i) || !aboutToPublish (x.prog !i)
  | .crash _ => true

theorem writes_publish_twice : ∃ y x,
    Reaches Writers.step (Unshared twoWrites) startTwo y ∧ y.prog true = .ret (.ok 102) ∧
      Reaches Writers.step (Unshared twoWrites) startTwo x ∧
      x.state.fs.content "/acme/x".toList = some (sealedData taggedFS "acme".toList twoWrites false) := by
  have hcheck : ∀ (x : Writers Bool) a, unsharedTwo x a = true → Unshared twoWrites x a := by
    intro x a ha
    cases a with
    | crash i => trivial
    | call i now =>
      intro hstage j hj hpublish
      have hji : j = !i := by cases i <;> cases j <;> simp_all
      rw [unsharedTwo, hstage, ← hji, hpublish] at ha
      cases ha
  obtain ⟨y, hy⟩ : ∃ y, runActs Writers.step startTwo oneAfterOther = some y := ⟨_, rfl⟩
  have hresult : ((runActs Writers.step startTwo oneAfterOther).map fun y =>
      (result (y.prog false), result (y.prog true))) = some (some (.ok 102), some (.ok 102)) := by
    decide +kernel
  rw [hy] at hresult
  obtain ⟨hfalse, htrue⟩ := Prod.mk.inj (Option.some.inj hresult)
  have hmeets : ActsMeet Writers.step (fun x a => unsharedTwo x a = true) startTwo oneAfterOther := by
    decide +kernel
  have hrun := Reaches.of_runActs (hmeets.mono hcheck) hy
  obtain ⟨-, hok, -⟩ := writes_publish taggedFS "acme".toList twoWrites digest_taggedCrypto_injective
    slash_not_mem_digest (by decide +kernel) (by decide +kernel) _ _ y hrun
  obtain ⟨x, hx, -, -, hcontent⟩ := hok false 102 (eq_ret_of_result hfalse)
  exact ⟨y, x, hrun, eq_ret_of_result htrue, hx, hcontent⟩

/-- The first write returns and its data is at no moment at the path; the second fails, and its data is
there. -/
theorem not_writes_publish : ∃ y, runActs Writers.step startTwo overlapping = some y ∧
    y.prog false = .ret (.ok 102) ∧ (∃ err, y.prog true = .ret (.error err)) ∧
    Always Writers.step (fun x => x.state.fs.content "/acme/x".toList ≠
      some (sealedData taggedFS "acme".toList twoWrites false)) startTwo overlapping ∧
    y.state.fs.content "/acme/x".toList = some (sealedData taggedFS "acme".toList twoWrites true) := by
  obtain ⟨y, hy⟩ : ∃ y, runActs Writers.step startTwo overlapping = some y := ⟨_, rfl⟩
  have hresult : ((runActs Writers.step startTwo overlapping).map fun y =>
      (result (y.prog false), result (y.prog true), y.state.fs.content "/acme/x".toList)) =
        some (some (.ok 102), some (.error (.notFound (taggedFS.encryptedTempPath "/acme/x".toList))),
          some (sealedData taggedFS "acme".toList twoWrites true)) := by
    decide +kernel
  rw [hy] at hresult
  obtain ⟨hfalse, hrest⟩ := Prod.mk.inj (Option.some.inj hresult)
  obtain ⟨htrue, hcontent⟩ := Prod.mk.inj hrest
  exact ⟨y, hy, eq_ret_of_result hfalse, ⟨_, eq_ret_of_result htrue⟩, by decide +kernel, hcontent⟩

end OpenViking.Ragfs
