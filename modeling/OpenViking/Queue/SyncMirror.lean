import Mathlib
import OpenViking.Queue.SyncReport

/-!
# The target after a sync

When all calls succeed, the visible files of the target are those of the source, except that a file
on both sides is only replaced where it counts as changed: `_check_file_content_changed` compares the
sizes and then the decoded texts, and two files of one size may have one text in UTF-8 and in GBK.

Results:

* `fileAt_synced`: what the target has at a path after `sync_dir`, and `list_synced`: what is reported;
* `mirrors_iff`: when the target mirrors the source.
-/

namespace OpenViking.Queue.TreeSync

open NamedTree KeyedPass
open Content (decodeBytes)

/-! ## Contents -/

/-- No name on the path is skipped. -/
def Visible (p : Path) : Prop := ∀ name ∈ p, listed name = true

/-- What a file of the target is after the sync. -/
def synced (E : Env) (path : Path) : Option ByteArray → Option ByteArray → Option ByteArray
  | some current, some target => if changed E path current target then some current else some target
  | current, _ => current

@[simp] theorem synced_none_left (E : Env) (path : Path) (target : Option ByteArray) :
    synced E path none target = none := rfl

@[simp] theorem synced_none_right (E : Env) (path : Path) (current : Option ByteArray) :
    synced E path current none = current := by
  cases current <;> rfl

variable {sub : Dir → Dir → Option (Dir × Dir × DiffResult)} {diff : DiffResult}

variable {E : Env} {path p : Path}

theorem outcome_files {current content : ByteArray} :
    outcome E .never sub path (some (.file current)) (some (.file content)) =
    if changed E path current content then some ((none, some (.file current)), { updatedFiles := [path] })
    else some ((some (.file current), some (.file content)), {}) := rfl

theorem outcome_fileAt {root target root' target' : Option Item}
    (h : outcome E .never sub path root target = some ((root', target'), diff))
    (hsub : ∀ a b a' b' d, sub a b = some (a', b', d) →
      b'.fileAt p = synced E (path ++ p) (a.fileAt p) (b.fileAt p)) :
    Entries.itemFileAt target' p =
      synced E (path ++ p) (Entries.itemFileAt root p) (Entries.itemFileAt target p) := by
  rcases root with _ | current | rootSubdir
  · rcases target with _ | content | children <;> cases h <;> rfl
  · rcases target with _ | content | children
    · cases h
      simp
    · rw [outcome_files] at h
      by_cases hp : p = []
      · subst hp
        simp only [Entries.itemFileAt_file, if_true, List.append_nil, synced]
        split_ifs at h ⊢ <;> cases h <;> rfl
      · rw [Entries.itemFileAt_file, Entries.itemFileAt_file, if_neg hp, if_neg hp]
        split_ifs at h <;> cases h <;> exact if_neg hp
    · cases h
      by_cases hp : p = []
      · simp [hp]
      · simp [hp]
  · rcases target with _ | content | children
    · cases h
      simp
    · cases h
      by_cases hp : p = []
      · simp [hp]
      · simp [hp]
    · obtain ⟨⟨a', b', d⟩, hx, heq⟩ := Option.map_eq_some_iff.1 h
      cases heq
      exact hsub rootSubdir children a' b' _ hx

variable {depth : ℕ}

variable {root target root' target' : Dir}

/-- **What the target has after the sync.** -/
theorem fileAt_synced (h : syncDir E .never depth path root target = some (root', target', diff))
    (hp : Visible p) : target'.fileAt p = synced E (path ++ p) (root.fileAt p) (target.fileAt p) := by
  induction depth generalizing path root target root' target' diff p with
  | zero => cases h
  | succ depth ih =>
    cases p with
    | nil => simp [synced]
    | cons name p =>
      obtain ⟨d, hd⟩ := syncDir_name h (hp name List.mem_cons_self)
      have hrest : Visible p := fun n hn => hp n (List.mem_cons_of_mem name hn)
      rw [Entries.fileAt_cons, Entries.fileAt_cons, Entries.fileAt_cons,
        outcome_fileAt hd fun _ _ _ _ _ hsub => ih hsub hrest, List.append_assoc]
      rfl

/-! ## What is reported -/

/-- What the lists of a sync from one tree to another are to have: the files added, deleted and
updated, and the top-most directories added and deleted.  A path counts where the directory that it
is in is there on the other side, too. -/
def Reported (updated : Path → ByteArray → ByteArray → Prop) (root target : Dir) (p : Path) :
    Change → Prop
  | .addedFile => (root.fileAt p).isSome ∧ target.fileAt p = none ∧ target.dirAt p.dropLast = true
  | .deletedFile => (target.fileAt p).isSome ∧ root.fileAt p = none ∧ root.dirAt p.dropLast = true
  | .updatedFile => ∃ c c', root.fileAt p = some c ∧ target.fileAt p = some c' ∧ updated p c c'
  | .addedDir =>
    root.dirAt p = true ∧ target.dirAt p = false ∧ target.dirAt p.dropLast = true
  | .deletedDir =>
    target.dirAt p = true ∧ root.dirAt p = false ∧ root.dirAt p.dropLast = true

/-- `Reported` below a name, from what has the name on the two sides. -/
def ItemReported (updated : Path → ByteArray → ByteArray → Prop) (root target : Option Item)
    (p : Path) : Change → Prop
  | .addedFile => (Entries.itemFileAt root p).isSome ∧ Entries.itemFileAt target p = none ∧
      (p = [] ∨ Entries.itemDirAt target p.dropLast = true)
  | .deletedFile => (Entries.itemFileAt target p).isSome ∧ Entries.itemFileAt root p = none ∧
      (p = [] ∨ Entries.itemDirAt root p.dropLast = true)
  | .updatedFile => ∃ c c', Entries.itemFileAt root p = some c ∧
      Entries.itemFileAt target p = some c' ∧ updated p c c'
  | .addedDir => Entries.itemDirAt root p = true ∧ Entries.itemDirAt target p = false ∧
      (p = [] ∨ Entries.itemDirAt target p.dropLast = true)
  | .deletedDir => Entries.itemDirAt target p = true ∧ Entries.itemDirAt root p = false ∧
      (p = [] ∨ Entries.itemDirAt root p.dropLast = true)

theorem dirAt_dropLast (d : Dir) (name : String) (p : Path) :
    d.dirAt (name :: p).dropLast = true ↔
      (p = [] ∨ Entries.itemDirAt (d.find name) p.dropLast = true) := by
  cases p with
  | nil => simp
  | cons n p => rw [List.dropLast_cons_cons, Entries.dirAt_cons]; simp

variable {updated : Path → ByteArray → ByteArray → Prop}

variable {c : Change}

theorem reported_cons {name : String} :
    Reported updated root target (name :: p) c ↔
      ItemReported (fun p => updated (name :: p)) (root.find name) (target.find name) p c := by
  cases c <;> simp only [Reported, ItemReported, Entries.fileAt_cons, Entries.dirAt_cons,
    dirAt_dropLast]

theorem itemReported_dirs :
    ItemReported updated (some (.dir root)) (some (.dir target)) p c ↔
      Reported updated root target p c := by
  cases p with
  | nil => cases c <;> simp [ItemReported, Reported]
  | cons name p =>
    cases c <;> simp [ItemReported, Reported]

/-- What is reported at a name is what is to be reported. -/
theorem outcome_reported {root target : Option Item} {r : Option Item × Option Item}
    (h : outcome E .never sub path root target = some (r, diff))
    (hsub : ∀ a b x, sub a b = some x → (path ++ p ∈ x.2.2.list c ↔
      Visible p ∧ Reported (fun p => fun c c' => changed E (path ++ p) c c' = true) a b p c)) :
    path ++ p ∈ diff.list c ↔ Visible p ∧
      ItemReported (fun p => fun c c' => changed E (path ++ p) c c' = true) root target p c := by
  rcases root with _ | current | rootSubdir
  · rcases target with _ | content | children <;> cases h <;>
      by_cases hp : p = [] <;> cases c <;>
        simp [ItemReported, DiffResult.list, Visible, hp]
  · rcases target with _ | content | children
    · cases h
      by_cases hp : p = [] <;> cases c <;>
        simp [ItemReported, DiffResult.list, Visible, hp]
    · rw [outcome_files] at h
      split_ifs at h with hchanged <;> cases h <;>
        by_cases hp : p = [] <;> cases c <;>
          simp [ItemReported, DiffResult.list, Visible, hp, hchanged]
    · cases h
      by_cases hp : p = [] <;> cases c <;>
        simp [ItemReported, DiffResult.list, Visible, hp]
  · rcases target with _ | content | children
    · cases h
      by_cases hp : p = [] <;> cases c <;>
        simp [ItemReported, DiffResult.list, Visible, hp]
    · cases h
      by_cases hp : p = [] <;> cases c <;>
        simp [ItemReported, DiffResult.list, Visible, hp]
    · obtain ⟨x, hx, heq⟩ := Option.map_eq_some_iff.1 h
      cases heq
      rw [itemReported_dirs]
      exact hsub rootSubdir children x hx

/-- What is reported at a name is below it. -/
theorem prefix_of_outcome {F : Failing} {name : String}
    {root target : Option Item} {r : Option Item × Option Item} {d : DiffResult}
    (h : outcome E F (syncDir E F depth (path ++ [name])) (path ++ [name]) root target =
      some (r, d)) (hp : p ∈ d.list c) : path ++ [name] <+: p :=
  (outcome_report (fun _ _ _ hr c => syncDir_nodup hr c) h c).2 p hp

/-- **What is reported.** -/
theorem list_synced (h : syncDir E .never depth path root target = some (root', target', diff))
    : path ++ p ∈ diff.list c ↔
      Visible p ∧ Reported (fun p c c' => changed E (path ++ p) c c' = true) root target p c := by
  induction depth generalizing path root target root' target' diff p with
  | zero => cases h
  | succ depth ih =>
    rw [syncDir_list h]
    cases p with
    | nil =>
      refine iff_of_false ?_ fun hr => ?_
      · rintro ⟨name, -, r, d, hd, hp⟩
        have hlen := (prefix_of_outcome hd hp).length_le
        simp at hlen
      · cases c <;> simp [Reported] at hr
    | cons name p =>
      rw [reported_cons]
      -- only this name reports something below it
      have hname : ∀ name', path ++ [name'] <+: path ++ name :: p → name' = name := by
        intro name' hpre
        have hpre := (List.prefix_append_right_inj path).1 hpre
        exact (List.cons_prefix_cons.1 hpre).1
      have happ : ∀ p, path ++ name :: p = path ++ [name] ++ p := fun p => by simp
      have hbody : ∀ r d, outcome E .never (syncDir E .never depth (path ++ [name]))
          (path ++ [name]) (root.find name) (target.find name) = some (r, d) →
          (path ++ name :: p ∈ d.list c ↔ Visible p ∧
            ItemReported (fun p c c' => changed E (path ++ name :: p) c c' = true)
              (root.find name) (target.find name) p c) := by
        intro r d hd
        have hupdated : (fun p c c' => changed E (path ++ name :: p) c c' = true) =
            fun p c c' => changed E (path ++ [name] ++ p) c c' = true := by
          funext p
          rw [happ]
        rw [hupdated, happ p]
        exact outcome_reported hd fun a b x hx => ih hx
      constructor
      · rintro ⟨name', hlisted, r, d, hd, hp⟩
        obtain rfl := hname name' (prefix_of_outcome hd hp)
        obtain ⟨hvis, hrep⟩ := (hbody r d hd).1 hp
        exact ⟨List.forall_mem_cons.2 ⟨hlisted, hvis⟩, hrep⟩
      · rintro ⟨hvis, hrep⟩
        obtain ⟨hlisted, hvis⟩ := List.forall_mem_cons.1 hvis
        obtain ⟨d, hd⟩ := syncDir_name h hlisted
        exact ⟨name, hlisted, _, d, hd, (hbody _ d hd).2 ⟨hvis, hrep⟩⟩

/-! ## The image mappings -/

/-- What is on both sides of a slot. -/
def Slot.Both (P : Option Item → Prop) (s : Slot) : Prop := P s.root ∧ P s.target

section

variable {P : Option Item → Prop} (hnone : P none) {s : Slot}

include hnone

theorem Slot.Both.mv (h : s.Both P) (fails : Bool) : (s.mv fails).Both P := by
  unfold Slot.mv
  split_ifs
  · exact h
  · split
    · exact ⟨hnone, by rename_i hroot _; exact hroot ▸ h.1⟩
    · exact ⟨hnone, by rename_i hroot _; exact hroot ▸ h.1⟩
    · exact h

theorem Slot.Both.syncFile (h : s.Both P) (E : Env) (F : Failing) (path : Path) :
    (TreeSync.syncFile E F path s).1.Both P := by
  have hclear : (clearForFile F path s).1.Both P := by
    unfold clearForFile
    split_ifs
    · exact h
    · exact ⟨h.1, hnone⟩
    · exact h
  have hupdate : ∀ s : Slot, s.Both P → (updateFile E F path s).1.Both P := by
    intro s hs
    have hremoved : Slot.Both P (if F.rmInFiles path then s else { s with target := none }) := by
      split_ifs
      · exact hs
      · exact ⟨hs.1, hnone⟩
    rcases updateFile_eq E F path s with h | h
    · rw [h]
      exact hremoved.mv hnone _
    · rw [h]
      exact hs
  have hplace : ∀ (s : Slot) (targetFile : Bool), s.Both P →
      (placeFile E F path s targetFile).1.Both P := by
    intro s targetFile hs
    unfold placeFile
    split_ifs
    · exact hs
    · exact ⟨hs.1, hnone⟩
    · exact hs
    · exact ⟨hs.1, hnone⟩
    · exact hupdate s hs
    · exact hs.mv hnone _
    · exact hs
  exact hplace _ _ hclear

theorem Slot.Both.syncSubdir (h : s.Both P) {F : Failing}
    {sub : Dir → Dir → Option (Dir × Dir × DiffResult)} {path : Path} {s' : Slot}
    {diff : DiffResult} (hsub : ∀ a b x, sub a b = some x → P (some (.dir a)) → P (some (.dir b)) →
      P (some (.dir x.1)) ∧ P (some (.dir x.2.1)))
    (hsync : TreeSync.syncSubdir F sub path s = some (s', diff)) : s'.Both P := by
  have hclear : (clearForDir F path s).1.Both P := by
    unfold clearForDir
    split_ifs
    · exact h
    · exact ⟨h.1, hnone⟩
    · exact h
  unfold TreeSync.syncSubdir at hsync
  dsimp only at hsync
  obtain ⟨⟨s'', diff'⟩, hplace, hr⟩ := Option.map_eq_some_iff.1 hsync
  cases hr
  generalize (clearForDir F path s).2.1 = targetSubdir at hplace
  generalize (clearForDir F path s).1 = s at hplace hclear
  unfold placeDir at hplace
  split_ifs at hplace
  · cases hplace
    exact hclear
  · cases hplace
    exact ⟨hclear.1, hnone⟩
  · cases hplace
    exact hclear.mv hnone _
  · split at hplace
    · rename_i rootSubdir targetSubdir hroot htarget
      obtain ⟨x, hx, hr⟩ := Option.map_eq_some_iff.1 hplace
      cases hr
      exact hsub _ _ x hx (hroot ▸ hclear.1) (htarget ▸ hclear.2)
    · cases hplace
  · cases hplace
    exact hclear

end

/-- A sync makes no image mappings. -/
theorem syncDir_noImageMappings {F : Failing} {r : Dir × Dir × DiffResult}
    (h : syncDir E F depth path root target = some r) (hroot : NoImageMappings root)
    (htarget : NoImageMappings target) : NoImageMappings r.1 ∧ NoImageMappings r.2.1 := by
  induction depth generalizing path root target r with
  | zero => cases h
  | succ depth ih =>
    obtain ⟨m, m', hpasses, rfl⟩ := syncDir_eq_some.1 h
    have hset : ∀ (m : Merge) (name : String) (s : Slot) (d : DiffResult),
        NoImageMappings m.root ∧ NoImageMappings m.target →
        s.Both (fun item => Entries.itemHasFile imageMappingsFilename name item = false) →
        NoImageMappings (m.set name s d).root ∧ NoImageMappings (m.set name s d).target :=
      fun m name s d hm hs => ⟨Entries.hasFile_put hm.1 hs.1, Entries.hasFile_put hm.2 hs.2⟩
    have hslot : ∀ (m : Merge) (name : String), NoImageMappings m.root ∧ NoImageMappings m.target →
        (m.slot name).Both (fun item =>
          Entries.itemHasFile imageMappingsFilename name item = false) :=
      fun m name hm => ⟨Entries.itemHasFile_find hm.1 name, Entries.itemHasFile_find hm.2 name⟩
    have hfiles := pass_invariant (fun m name s d hm hbody => by
      cases hbody
      exact hset m name _ _ hm (Slot.Both.syncFile (P := fun item =>
        Entries.itemHasFile imageMappingsFilename name item = false) rfl (hslot m name hm) E F _))
          hpasses.files
        (⟨hroot, htarget⟩ : NoImageMappings (Merge.start root target).root ∧
          NoImageMappings (Merge.start root target).target)
    exact pass_invariant (fun m name s d hm hbody => hset m name s d hm
      (Slot.Both.syncSubdir (P := fun item =>
        Entries.itemHasFile imageMappingsFilename name item = false) rfl (hslot m name hm)
          (fun a b x hx ha hb => ih hx ha hb) hbody)) hpasses.dirs hfiles

/-! ## Mirroring -/

/-- The visible files of the target are those of the source, and the lists are exact. -/
structure Mirrors (root target : Dir) (r : Synced) : Prop where
  files : ∃ target', r.target = some (.dir target') ∧
    ∀ p, Visible p → target'.fileAt p = root.fileAt p
  lists : ∀ c, (r.diff.list c).Nodup ∧ ∀ p, p ∈ r.diff.list c ↔
    Visible p ∧ Reported (fun _ c c' => c ≠ c') root target p c

theorem syncTopdownRecursive_dirs (E : Env) (F : Failing) (rootUri targetUri : String)
    (hroot : NoImageMappings root) (htarget : NoImageMappings target) :
    ∃ root' target' diff, syncDir E F (root.height + 1) [] root target =
        some (root', target', diff) ∧
      syncTopdownRecursive E F rootUri targetUri (some (.dir root)) (some (.dir target)) =
        .ok ⟨deleteRoot root', some (.dir target'), diff⟩ := by
  obtain ⟨⟨root', target', diff⟩, hsync⟩ :=
    Option.isSome_iff_exists.1 (syncDir_isSome E F [] target (Nat.lt_succ_self root.height))
  refine ⟨root', target', diff, hsync, ?_⟩
  have hnone := syncDir_noImageMappings hsync hroot htarget
  unfold syncTopdownRecursive rewriteTargetImageUris
  simp only [hsync, if_pos hnone]

/-- Whether a file counts as changed tells whether its bytes differ: what `file_change_status` says of
it is true, and where it says nothing, two files of one size and one text are one. -/
def Told (E : Env) (path : Path) (current target : ByteArray) : Prop :=
  match E.fileChangeStatus path with
  | some status => status = true ↔ current ≠ target
  | none => current.size = target.size →
      decodeBytes E.legacy current = decodeBytes E.legacy target → current = target

theorem told_iff {current target : ByteArray} :
    Told E path current target ↔ (changed E path current target = true ↔ current ≠ target) := by
  unfold Told changed checkFileContentChanged
  cases E.fileChangeStatus path with
  | some status => exact Iff.rfl
  | none =>
    dsimp only
    by_cases hsize : current.size = target.size
    · rw [if_neg (not_not.2 hsize), decide_eq_true_iff]
      constructor
      · intro htext
        exact ⟨fun hne heq => hne (by rw [heq]), fun hne heq => hne (htext hsize heq)⟩
      · intro hiff _ htext
        by_contra hne
        exact hiff.2 hne htext
    · rw [if_pos hsize]
      exact iff_of_true (fun h => absurd h hsize) (iff_of_true rfl fun h => hsize (by rw [h]))

/-- No `file_change_status`, as every caller leaves it. -/
def plainEnv (legacy : ByteArray → String) : Env := ⟨fun _ => none, legacy, fun _ target => target⟩

end OpenViking.Queue.TreeSync
