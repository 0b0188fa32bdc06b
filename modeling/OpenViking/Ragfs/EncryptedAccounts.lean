import OpenViking.Ragfs.Encryption
import OpenViking.Ragfs.Mounts
import OpenViking.Ragfs.MemFs

/-!
# Accounts under a mounted encryption wrapper

The wrapper below `MountableFS` gets paths relative to the mount, and tells control paths and accounts by
the absolute paths `/queue`, `/serverinfo` and `/local/{account_id}`.

Results:

* `encryptionAccountDomain_account`: the domain of a path below an account;
* `separated_iff`: which accounts are kept encrypted, and which renames between accounts are refused.
-/

namespace OpenViking.Ragfs

open EncryptionWrappedFS

/-- What a raw backend does for the calls of the wrapper: `content` is the bytes of the file at a path,
and paths with the same `norm` are one path. -/
structure LawfulBackend {σ : Type} (backend : Backend σ) (norm : Path → Path)
    (content : σ → Path → Option Bytes) : Prop where
  content_norm : ∀ s p q, norm p = norm q → content s p = content s q
  write_ok : ∀ {s s' p data flags n}, flags = .create ∨ flags = .truncate →
    backend (.write p data 0 flags) s = (.ok n, s') → content s' p = some data
  write_error : ∀ {s s' p data offset flags err},
    backend (.write p data offset flags) s = (.error err, s') → s' = s
  write_other : ∀ s p data offset flags q, norm q ≠ norm p →
    content (backend (.write p data offset flags) s).2 q = content s q
  replace_ok : ∀ {s s' p q}, backend (.replace p q) s = (.ok (), s') → content s' q = content s p
  replace_error : ∀ {s s' p q err}, backend (.replace p q) s = (.error err, s') → s' = s
  mkdir_content : ∀ s p mode q, content (backend (.mkdir p mode) s).2 q = content s q
  remove_ok : ∀ {s s' p}, backend (.remove p) s = (.ok (), s') → content s' p = none
  remove_error : ∀ {s s' p err}, backend (.remove p) s = (.error err, s') → s' = s
  remove_other : ∀ s p q, norm q ≠ norm p → content (backend (.remove p) s).2 q = content s q
  rename_error : ∀ {s s' p q err}, backend (.rename p q) s = (.error err, s') → s' = s

open MemFileSystem in
theorem lawful_memFileSystem :
    LawfulBackend MemFileSystem.exec MemFileSystem.normalizePath MemFileSystem.content where
  content_norm s p q h := by rw [content, content, h]
  write_ok := by
    intro s s' p data flags n hflags h
    rcases write_cases p data 0 flags s with ⟨err, he⟩ | ⟨entry, hdir, hdata, he⟩
    · cases he.symm.trans h
    · obtain ⟨-, rfl⟩ := Prod.mk.inj (he.symm.trans h)
      rw [content_set, if_pos rfl, FileEntry.content, hdir, hdata hflags]
      rfl
  write_error := by
    intro s s' p data offset flags err h
    rcases write_cases p data offset flags s with ⟨err', he⟩ | ⟨entry, -, -, he⟩
    · exact (Prod.mk.inj (he.symm.trans h)).2.symm
    · cases (Prod.mk.inj (he.symm.trans h)).1
  write_other := by
    intro s p data offset flags q hq
    show content (MemFileSystem.write p data offset flags s).2 q = _
    rcases write_cases p data offset flags s with ⟨err, he⟩ | ⟨entry, -, -, he⟩
    · rw [he]
    · rw [he, content_set, if_neg hq]
  replace_ok := by
    intro s s' p q h
    rcases replace_cases p q s with ⟨err, he⟩ | ⟨entry, hget, -, he⟩
    · cases he.symm.trans h
    · obtain ⟨-, rfl⟩ := Prod.mk.inj (he.symm.trans h)
      rw [content_set, if_pos rfl, content, hget]
      rfl
  replace_error := by
    intro s s' p q err h
    rcases replace_cases p q s with ⟨err', he⟩ | ⟨entry, -, -, he⟩
    · exact (Prod.mk.inj (he.symm.trans h)).2.symm
    · cases (Prod.mk.inj (he.symm.trans h)).1
  mkdir_content := by
    intro s p mode q
    show content (MemFileSystem.mkdir p mode s).2 q = _
    unfold MemFileSystem.mkdir
    rcases insertNew_cases p (FileEntry.newDir mode) s with ⟨err, he⟩ | ⟨hnone, he⟩
    · rw [he]
    · rw [he, content_set]
      split_ifs with h
      · rw [content, h, hnone]
        rfl
      · rfl
  remove_ok := by
    intro s s' p h
    rcases remove_cases p s with ⟨err, he⟩ | he
    · cases he.symm.trans h
    · obtain ⟨-, rfl⟩ := Prod.mk.inj (he.symm.trans h)
      rw [content, Dict.get_erase, if_pos rfl]
      rfl
  remove_error := by
    intro s s' p err h
    rcases remove_cases p s with ⟨err', he⟩ | he
    · exact (Prod.mk.inj (he.symm.trans h)).2.symm
    · cases (Prod.mk.inj (he.symm.trans h)).1
  remove_other := by
    intro s p q hq
    show content (MemFileSystem.remove p s).2 q = _
    rcases remove_cases p s with ⟨err, he⟩ | he
    · rw [he]
    · rw [he, content, Dict.get_erase, if_neg hq]
      rfl
  rename_error := fun h => MemFileSystem.rename_error h

/-! ## Routing to the mount -/

section Mounted

variable (t : MountTable) (e : EncryptionWrappedFS)

/-- `write` of `MountableFS` (762-765) on the mount of the path. -/
def mountedWrite (accountId : Path) (nonces : Nonces) (path : Path) (data : Bytes) (offset : ℕ)
    (flags : WriteFlag) : Prog EncCall.Answer (Except Error ℕ) :=
  match t.findMount path with
  | .error err => return .error err
  | .ok (_, rel) => e.write accountId nonces rel data offset flags

/-- `rename` of `MountableFS` (778-791). -/
def mountedRename (oldPath newPath : Path) : Prog EncCall.Answer (Except Error Unit) :=
  match t.findMount oldPath, t.findMount newPath with
  | .error err, _ => return .error err
  | _, .error err => return .error err
  | .ok (oldMount, oldRel), .ok (newMount, newRel) =>
    if normalizePath oldMount ≠ normalizePath newMount then
      return .error (.invalidOperation "Cannot rename across different mount points")
    else rename oldRel newRel

end Mounted

/-! ## Paths below an account -/

variable {account rest : Path}

theorem splitOn_account (hslash : '/' ∉ account) :
    (account ++ '/' :: rest).splitOn '/' = account :: rest.splitOn '/' :=
  List.splitOn_append_cons_self_of_not_mem hslash rest

theorem dropWhile_account (haccount : account ≠ []) (hslash : '/' ∉ account) :
    ('/' :: (account ++ '/' :: rest)).dropWhile (· = '/') = account ++ '/' :: rest := by
  cases account with
  | nil => exact absurd rfl haccount
  | cons c account =>
    rw [List.dropWhile_cons_of_pos (by decide), List.cons_append, List.dropWhile_cons_of_neg]
    rw [decide_eq_true_iff]
    rintro rfl
    exact hslash List.mem_cons_self

/-- The first component of a path without a slash in front. -/
theorem head_splitOn (t : Path) : ∃ more, t.splitOn '/' = t.takeWhile (· ≠ '/') :: more := by
  have hmem : '/' ∉ t.takeWhile (· ≠ '/') := fun h => by
    simpa using List.mem_takeWhile_imp h
  cases hdrop : t.dropWhile (· ≠ '/') with
  | nil =>
    have htake : t.takeWhile (· ≠ '/') = t := by
      have := List.takeWhile_append_dropWhile (p := fun c => decide (c ≠ '/')) (l := t)
      rwa [hdrop, List.append_nil] at this
    refine ⟨[], ?_⟩
    conv_lhs => rw [← htake]
    exact List.splitOn_eq_singleton hmem
  | cons c more =>
    have hc := List.head?_dropWhile_not (fun c => decide (c ≠ '/')) t
    rw [hdrop, List.head?_cons] at hc
    have hc : c = '/' := of_not_not (of_decide_eq_false hc)
    have hsplit := List.takeWhile_append_dropWhile (p := fun c => decide (c ≠ '/')) (l := t)
    rw [hdrop, hc] at hsplit
    refine ⟨more.splitOn '/', ?_⟩
    conv_lhs => rw [← hsplit]
    exact splitOn_account hmem

/-- **The domain of a path below an account**: another account, where the account is called `local`. -/
theorem encryptionAccountDomain_account (haccount : account ≠ []) (hslash : '/' ∉ account) :
    encryptionAccountDomain ('/' :: (account ++ '/' :: rest)) =
      if account = "local".toList ∧ rest.takeWhile (· ≠ '/') ≠ [] then rest.takeWhile (· ≠ '/')
      else systemAccountId := by
  obtain ⟨more, hmore⟩ := head_splitOn rest
  rw [encryptionAccountDomain, dropWhile_account haccount hslash, splitOn_account hslash, hmore]

theorem shouldPassthroughContent_account (hslash : '/' ∉ account) :
    shouldPassthroughContent ('/' :: (account ++ '/' :: rest)) = true ↔
      account ∈ ["queue", "serverinfo"].map String.toList := by
  have hprefix : ∀ name : Path, '/' ∉ name →
      ('/' :: (name ++ ['/']) <+: '/' :: (account ++ '/' :: rest) ↔ account = name) := by
    intro name hname
    rw [List.cons_prefix_cons, and_iff_right rfl]
    constructor
    · rintro ⟨tail, htail⟩
      have hsplit := congrArg (List.splitOn '/') htail
      rw [List.append_assoc, List.singleton_append, splitOn_account hname, splitOn_account hslash] at hsplit
      exact (List.cons.inj hsplit).1.symm
    · rintro rfl
      exact ⟨rest, by simp⟩
  have hne : ∀ name : Path, '/' ∉ name → '/' :: (account ++ '/' :: rest) ≠ '/' :: name := by
    intro name hname heq
    refine hname ?_
    rw [← (List.cons.inj heq).2]
    simp
  have hqueue := hprefix "queue".toList (by decide)
  have hserver := hprefix "serverinfo".toList (by decide)
  have hq := hne "queue".toList (by decide)
  have hs := hne "serverinfo".toList (by decide)
  rw [shouldPassthroughContent, decide_eq_true_iff]
  show _ = '/' :: "queue".toList ∨ '/' :: ("queue".toList ++ ['/']) <+: _ ∨
    _ = '/' :: "serverinfo".toList ∨ '/' :: ("serverinfo".toList ++ ['/']) <+: _ ↔ _
  rw [hqueue, hserver]
  simp only [hq, hs, false_or, List.map_cons, List.map_nil, List.mem_cons, List.not_mem_nil, or_false]

/-- The account is called `local`, and what follows it is taken for another account. -/
def TakenForLocal (account rest : Path) : Prop :=
  account = "local".toList ∧ rest.takeWhile (· ≠ '/') ∉ [[], systemAccountId]

/-- **When two accounts have different domains.** -/
theorem domains_ne_iff {b y : Path} (haccount : account ≠ []) (hslash : '/' ∉ account) (hb : b ≠ [])
    (hbslash : '/' ∉ b) (hne : account ≠ b) :
    encryptionAccountDomain ('/' :: (account ++ '/' :: rest)) ≠
        encryptionAccountDomain ('/' :: (b ++ '/' :: y)) ↔
      TakenForLocal account rest ∨ TakenForLocal b y := by
  rw [encryptionAccountDomain_account haccount hslash, encryptionAccountDomain_account hb hbslash]
  unfold TakenForLocal
  generalize rest.takeWhile (· ≠ '/') = first
  generalize y.takeWhile (· ≠ '/') = second
  generalize "local".toList = l
  simp only [List.mem_cons, List.not_mem_nil, or_false, not_or]
  by_cases ha : account = l
  · have hb' : b ≠ l := fun h => hne (ha.trans h.symm)
    simp only [ha, hb', true_and, false_and, if_false, or_false]
    by_cases hx : first = []
    · simp [hx]
    · simp [hx]
  · simp only [ha, false_and, if_false, false_or]
    by_cases hb' : b = l
    · simp only [hb', true_and]
      by_cases hy : second = []
      · simp [hy]
      · rw [if_pos hy]
        simp only [hy, not_false_eq_true, true_and]
        exact ne_comm
    · simp [hb']

/-! ## What is on the raw backend -/

section Separated

variable {σ : Type} {backend : Backend σ} {norm : Path → Path} {content : σ → Path → Option Bytes}
  {e : EncryptionWrappedFS} {s u : σ × Dict Path ℕ} {path : Path} {nonces : Nonces} {data : Bytes}
  {offset : ℕ} {flags : WriteFlag}

/-- What a write may leave at a path: what was there, nothing, or the envelope of the data. -/
def OnlyEnvelope (envelope : Bytes) (before after : Option Bytes) : Prop :=
  after = before ∨ after = none ∨ after = some envelope

/-- **Outside the control paths a write leaves only its envelope**, and when it succeeds the envelope is
there. -/
theorem write_onlyEnvelope (hb : LawfulBackend backend norm content) {r : Except Error ℕ}
    (hpath : shouldPassthroughContent path = false)
    (h : Prog.Run (exec backend) (e.write account nonces path data offset flags) s r u) :
    OnlyEnvelope (e.envelope account nonces data) (content s.1 path) (content u.1 path) ∧
      ∀ n, r = .ok n → content u.1 path = some (e.envelope account nonces data) := by
  rcases r with err | n
  · refine ⟨?_, fun n h => by cases h⟩
    refine write_error (P := fun v => OnlyEnvelope (e.envelope account nonces data) (content s.1 path)
      (content v path)) hpath ?_ ?_ h (.inl rfl)
    · intro c hc v hv
      have hwrite : ∀ p, p = e.encryptedTempPath path → OnlyEnvelope (e.envelope account nonces data)
          (content s.1 path)
          (content (backend (.write p (e.envelope account nonces data) 0 .create) v).2 path) := by
        intro p _
        cases hr : backend (.write p (e.envelope account nonces data) 0 .create) v with
        | mk r v' =>
          rcases r with err | n
          · rwa [hb.write_error hr]
          · by_cases hn : norm path = norm p
            · exact .inr (.inr ((hb.content_norm _ _ _ hn).trans (hb.write_ok (.inl rfl) hr)))
            · have := hb.write_other v p (e.envelope account nonces data) 0 .create path hn
              rw [hr] at this
              rwa [this]
      cases c with
      | mkdir p mode => rwa [hb.mkdir_content]
      | write p d o f =>
        obtain ⟨hp, rfl, rfl, rfl⟩ := hc
        exact hwrite p hp
      | remove p =>
        cases hr : backend (.remove p) v with
        | mk r v' =>
          rcases r with err | x
          · rwa [hb.remove_error hr]
          · by_cases hn : norm path = norm p
            · exact .inr (.inl ((hb.content_norm _ _ _ hn).trans (hb.remove_ok hr)))
            · have := hb.remove_other v p path hn
              rw [hr] at this
              rwa [this]
      | _ => exact hc.elim
    · intro v err' hr hv
      rwa [hb.replace_error hr]
  · obtain ⟨-, -, v, w, hstage, hreplace⟩ := write_ok hpath h
    have hcontent : content u.1 path = some (e.envelope account nonces data) := by
      rw [hb.replace_ok hreplace, hb.write_ok (.inl rfl) hstage]
    exact ⟨.inr (.inr hcontent), fun _ _ => hcontent⟩

/-- **How far a mounted wrapper separates accounts.**  A write below an account that succeeds leaves its
envelope exactly when the account is not called like a control path, and below the other accounts no
write leaves anything else; a rename between two accounts fails and changes nothing exactly when one of
them is called `local` and what follows is taken for another account, or when the backend itself refuses
the rename. -/
theorem separated_iff (backend : Backend σ) (norm : Path → Path) (content : σ → Path → Option Bytes)
    (hb : LawfulBackend backend norm content) (e : EncryptionWrappedFS) (he : Sound e.crypto)
    (t : MountTable) :
    (∀ path m rel a x, t.findMount path = .ok (m, rel) → rel = '/' :: (a ++ '/' :: x) → a ≠ [] →
      '/' ∉ a → ∀ nonces data offset flags s r u,
        Prog.Run (exec backend) (mountedWrite t e a nonces path data offset flags) s r u →
        (∀ n, r = .ok n → offset = 0 → flags = .create ∨ flags = .truncate →
          (content u.1 rel = some (e.envelope a nonces data) ↔
            a ∉ ["queue", "serverinfo"].map String.toList)) ∧
        (a ∉ ["queue", "serverinfo"].map String.toList →
          OnlyEnvelope (e.envelope a nonces data) (content s.1 rel) (content u.1 rel) ∧
            ∀ n, r = .ok n → content u.1 rel = some (e.envelope a nonces data))) ∧
    ∀ oldPath newPath m oldRel newRel a b x y, t.findMount oldPath = .ok (m, oldRel) →
      t.findMount newPath = .ok (m, newRel) → oldRel = '/' :: (a ++ '/' :: x) →
      newRel = '/' :: (b ++ '/' :: y) → a ≠ [] → '/' ∉ a → b ≠ [] → '/' ∉ b → a ≠ b → ∀ s r u,
        Prog.Run (exec backend) (mountedRename t oldPath newPath) s r u →
        ((∃ err, r = .error err ∧ u = s) ↔ TakenForLocal a x ∨ TakenForLocal b y ∨
          ∃ err, (backend (.rename oldRel newRel) s.1).1 = .error err) := by
  constructor
  · rintro path m rel a x hroute rfl ha hslash nonces data offset flags s r u hrun
    rw [mountedWrite, hroute] at hrun
    have hpass : shouldPassthroughContent ('/' :: (a ++ '/' :: x)) = true ↔
        a ∈ ["queue", "serverinfo"].map String.toList := shouldPassthroughContent_account hslash
    by_cases hcontrol : a ∈ ["queue", "serverinfo"].map String.toList
    · refine ⟨?_, fun h => absurd hcontrol h⟩
      rintro n rfl rfl hflags
      refine iff_of_false ?_ fun h => h hcontrol
      dsimp only at hrun
      rw [EncryptionWrappedFS.write, if_pos (hpass.2 hcontrol)] at hrun
      obtain ⟨hr, rfl⟩ := run_inner_iff.1 hrun
      -- the plain bytes are on the backend, and an envelope is longer
      rw [hb.write_ok hflags (Prod.ext hr.symm rfl), Option.some.injEq]
      intro heq
      have hlen := congrArg List.length heq
      rw [length_envelope he] at hlen
      omega
    · have hpath : shouldPassthroughContent ('/' :: (a ++ '/' :: x)) = false :=
        Bool.eq_false_iff.2 fun h => hcontrol (hpass.1 h)
      obtain ⟨honly, hok⟩ := write_onlyEnvelope hb hpath hrun
      exact ⟨fun n hn _ _ => iff_of_true (hok n hn) hcontrol, fun _ => ⟨honly, hok⟩⟩
  · rintro oldPath newPath m oldRel newRel a b x y hold hnew rfl rfl ha hslash hb' hbslash hne s r u hrun
    rw [mountedRename, hold, hnew] at hrun
    simp only [ne_eq, not_true_eq_false, if_false] at hrun
    have hdomains : encryptionAccountDomain ('/' :: (a ++ '/' :: x)) ≠
        encryptionAccountDomain ('/' :: (b ++ '/' :: y)) ↔ TakenForLocal a x ∨ TakenForLocal b y :=
      domains_ne_iff ha hslash hb' hbslash hne
    rw [rename, ensureSameEncryptionDomain] at hrun
    by_cases hdomain : encryptionAccountDomain ('/' :: (a ++ '/' :: x)) =
        encryptionAccountDomain ('/' :: (b ++ '/' :: y))
    · have hsame : ¬ (TakenForLocal a x ∨ TakenForLocal b y) := fun h => hdomains.2 h hdomain
      rw [not_or] at hsame
      simp only [hdomain, ne_eq, not_true_eq_false, if_false] at hrun
      obtain ⟨rfl, rfl⟩ := run_inner_iff.1 hrun
      rw [or_iff_right hsame.1, or_iff_right hsame.2]
      constructor
      · rintro ⟨err, herr, -⟩
        exact ⟨err, herr⟩
      · rintro ⟨err, herr⟩
        exact ⟨err, herr, Prod.ext (hb.rename_error (Prod.ext herr rfl)) rfl⟩
    · have hcross := hdomains.1 hdomain
      simp only [ne_eq, hdomain, not_false_eq_true, if_true] at hrun
      obtain ⟨rfl, rfl⟩ := Prog.run_ret_iff.1 hrun
      exact iff_of_true ⟨_, rfl, rfl⟩ (or_assoc.1 (.inl hcross))

end Separated

/-! ## Runs on a mount at `/local` -/

/-- A backend with the directories of three accounts. -/
def accountDirs : MemFileSystem :=
  ["/acme", "/queue", "/local"].foldl (fun fs dir => (MemFileSystem.mkdir dir.toList 0o755 fs).2)
    MemFileSystem.new

/-- A program of the mounted wrapper, run alone. -/
def runLocal {α : Type} (p : MountTable → Prog EncCall.Answer α) (fs : MemFileSystem) :
    Option (α × MemFileSystem × Dict Path ℕ) :=
  match localMount with
  | .error _ => none
  | .ok t => (p t).eval (exec MemFileSystem.exec) 0 (fs, Dict.empty)

/-- A write of two bytes under the context of an account. -/
def writeLocal (account path : Path) :
    Option (Except Error ℕ × MemFileSystem × Dict Path ℕ) :=
  runLocal (fun t => mountedWrite t taggedFS account fixedNonces path [5, 6] 0 .create) accountDirs

theorem exists_run {α : Type} (fs : MemFileSystem) (p : MountTable → Prog EncCall.Answer α)
    {t : MountTable} (ht : localMount = .ok t) (h : (runLocal p fs).isSome = true) :
    ∃ a u, runLocal p fs = some (a, u) ∧ Prog.Run (exec MemFileSystem.exec) (p t) (fs, Dict.empty) a u := by
  obtain ⟨⟨a, u⟩, hr⟩ := Option.isSome_iff_exists.1 h
  refine ⟨a, u, hr, Prog.run_of_eval (n := 0) ?_⟩
  rwa [runLocal, ht] at hr

theorem separated_iff_acme : ∃ t, localMount = .ok t ∧
    (∃ n u, Prog.Run (exec MemFileSystem.exec)
        (mountedWrite t taggedFS "acme".toList fixedNonces "/local/acme/x".toList [5, 6] 0 .create)
        (accountDirs, Dict.empty) (.ok n) u ∧
      u.1.content "/acme/x".toList = some (taggedFS.envelope "acme".toList fixedNonces [5, 6])) ∧
    ∀ s r u, Prog.Run (exec MemFileSystem.exec)
        (mountedRename t "/local/acme/x".toList "/local/local/beta/y".toList) s r u →
      ∃ err, r = .error err ∧ u = s := by
  obtain ⟨t, ht⟩ : ∃ t, localMount = .ok t := ⟨_, rfl⟩
  have hroute : ∀ path : Path, (localMount.map fun t => t.findMount path) = .ok (t.findMount path) := by
    intro path
    rw [ht]
    rfl
  have hacme : t.findMount "/local/acme/x".toList = .ok ("/local".toList, "/acme/x".toList) :=
    Except.ok.inj ((hroute _).symm.trans (by decide +kernel))
  have hlocal : t.findMount "/local/local/beta/y".toList = .ok ("/local".toList, "/local/beta/y".toList) :=
    Except.ok.inj ((hroute _).symm.trans (by decide +kernel))
  obtain ⟨hwrite, hrename⟩ := separated_iff MemFileSystem.exec _ _ lawful_memFileSystem taggedFS
    sound_taggedCrypto t
  refine ⟨t, ht, ?_, ?_⟩
  · obtain ⟨r, u, heval, hrun⟩ := exists_run accountDirs (fun t => mountedWrite t taggedFS
      "acme".toList fixedNonces "/local/acme/x".toList [5, 6] 0 .create) ht (by decide +kernel)
    have hr : (writeLocal "acme".toList "/local/acme/x".toList).map Prod.fst = some (.ok 102) := by
      decide +kernel
    rw [writeLocal, heval] at hr
    obtain rfl := Option.some.inj hr
    exact ⟨102, u, hrun, ((hwrite _ _ _ "acme".toList "x".toList hacme rfl (by decide) (by decide) _ _ _ _
      _ _ _ hrun).2 (by decide +kernel)).2 102 rfl⟩
  · intro s r u hrun
    exact (hrename _ _ _ _ _ "acme".toList "local".toList "x".toList "beta/y".toList hacme hlocal rfl rfl
      (by decide) (by decide) (by decide) (by decide) (by decide) s r u hrun).2
      (.inr (.inl ⟨rfl, by decide +kernel⟩))

/-- The backend after a write for one account. -/
def acmeWritten : MemFileSystem :=
  ((writeLocal "acme".toList "/local/acme/x".toList).map fun r => r.2.1).getD accountDirs

/-- A write below `/local/queue` leaves the plain bytes, and an envelope is moved from one account to
another. -/
theorem not_separated : ∃ t, localMount = .ok t ∧
    t.findMount "/local/queue/x".toList = .ok ("/local".toList, "/queue/x".toList) ∧
    (∃ u, Prog.Run (exec MemFileSystem.exec)
        (mountedWrite t taggedFS "queue".toList fixedNonces "/local/queue/x".toList [5, 6] 0 .create)
        (accountDirs, Dict.empty) (.ok 2) u ∧ u.1.content "/queue/x".toList = some [5, 6]) ∧
    ∃ u, acmeWritten.content "/acme/x".toList =
        some (taggedFS.envelope "acme".toList fixedNonces [5, 6]) ∧
      Prog.Run (exec MemFileSystem.exec)
        (mountedRename t "/local/acme/x".toList "/local/queue/y".toList) (acmeWritten, Dict.empty)
        (.ok ()) u ∧
      u.1.content "/queue/y".toList = acmeWritten.content "/acme/x".toList := by
  obtain ⟨t, ht⟩ : ∃ t, localMount = .ok t := ⟨_, rfl⟩
  refine ⟨t, ht, ?_, ?_, ?_⟩
  · have hroute : (localMount.map fun t => t.findMount "/local/queue/x".toList) =
        .ok (.ok ("/local".toList, "/queue/x".toList)) := by decide +kernel
    rw [ht] at hroute
    exact Except.ok.inj hroute
  · obtain ⟨r, u, heval, hrun⟩ := exists_run accountDirs (fun t => mountedWrite t taggedFS
      "queue".toList fixedNonces "/local/queue/x".toList [5, 6] 0 .create) ht (by decide +kernel)
    have hr : (writeLocal "queue".toList "/local/queue/x".toList).map
        (fun r => (r.1, r.2.1.content "/queue/x".toList)) = some (.ok 2, some [5, 6]) := by
      decide +kernel
    rw [writeLocal, heval] at hr
    obtain ⟨rfl, hcontent⟩ := Prod.mk.inj (Option.some.inj hr)
    exact ⟨u, hrun, hcontent⟩
  · obtain ⟨r, u, heval, hrun⟩ := exists_run acmeWritten (fun t => mountedRename t
      "/local/acme/x".toList "/local/queue/y".toList) ht (by decide +kernel)
    have hr : (runLocal (fun t => mountedRename t "/local/acme/x".toList "/local/queue/y".toList)
        acmeWritten).map (fun r => (r.1, r.2.1.content "/queue/y".toList)) =
          some (.ok (), acmeWritten.content "/acme/x".toList) := by
      decide +kernel
    rw [heval] at hr
    obtain ⟨rfl, hcontent⟩ := Prod.mk.inj (Option.some.inj hr)
    exact ⟨u, by decide +kernel, hrun, hcontent⟩

end OpenViking.Ragfs
