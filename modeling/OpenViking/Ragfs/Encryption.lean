import OpenViking.Common.Dict
import OpenViking.Ragfs.Basic

/-!
# The encryption wrapper

`EncryptionWrappedFS` (`crates/ragfs/src/core/encryption_wrapper.rs`) as programs over the calls of the
file system below it and its cache of staging directories.  A file is stored as an envelope
(`crypto/mod.rs`, 85-117): the key of the file under the key of the account, and the content under the
key of the file.

Results:

* `write_ok`, `write_error`: what a write has asked of the file system below.
-/

namespace OpenViking.Ragfs

/-- HKDF, AES-GCM and the hexadecimal SHA-256 of a path. -/
structure Crypto where
  hkdfSha256 : Bytes → Path → Bytes
  aesGcmEncrypt : Bytes → Bytes → Bytes → Bytes
  aesGcmDecrypt : Bytes → Bytes → Bytes → Option Bytes
  digest : Path → Path

/-! ## Envelopes -/

/-- `MAGIC`. -/
def magic : Bytes := [0x4f, 0x56, 0x45, 0x31]

/-- `VERSION`. -/
def version : UInt8 := 1

/-- `u16::to_be_bytes` of `n as u16`. -/
def be16 (n : ℕ) : Bytes := [UInt8.ofNat (n / 256), UInt8.ofNat n]

/-- `build_envelope` (86-117). -/
def buildEnvelope (providerType : UInt8) (encryptedFileKey keyIv dataIv encryptedContent : Bytes) :
    Bytes :=
  magic ++ version :: providerType :: (be16 encryptedFileKey.length ++ be16 keyIv.length ++
    be16 dataIv.length ++ encryptedFileKey ++ keyIv ++ dataIv ++ encryptedContent)

/-- `EncryptionWrappedFS`: what is fixed at construction. -/
structure EncryptionWrappedFS where
  crypto : Crypto
  rootKey : Bytes
  providerType : UInt8

/-- The random bytes of a write. -/
structure Nonces where
  fileKey : Bytes
  dataIv : Bytes
  keyIv : Bytes
  fileKey_length : fileKey.length = 32
  dataIv_length : dataIv.length = 12
  keyIv_length : keyIv.length = 12

namespace EncryptionWrappedFS

variable (e : EncryptionWrappedFS)

/-- `get_account_key` (59-70). -/
def getAccountKey (accountId : Path) : Bytes := e.crypto.hkdfSha256 e.rootKey accountId

/-- What `write` makes of the data (277-285). -/
def envelope (accountId : Path) (nonces : Nonces) (data : Bytes) : Bytes :=
  buildEnvelope e.providerType
    (e.crypto.aesGcmEncrypt (e.getAccountKey accountId) nonces.keyIv nonces.fileKey) nonces.keyIv
    nonces.dataIv (e.crypto.aesGcmEncrypt nonces.fileKey nonces.dataIv data)

/-! ## Paths -/

/-- `should_passthrough_content` (104-109). -/
def shouldPassthroughContent (path : Path) : Bool :=
  decide (path = "/queue".toList ∨ "/queue/".toList <+: path ∨ path = "/serverinfo".toList ∨
    "/serverinfo/".toList <+: path)

/-- `SYSTEM_ACCOUNT_ID`. -/
def systemAccountId : Path := "_system".toList

/-- `encryption_account_domain` (120-127). -/
def encryptionAccountDomain (path : Path) : Path :=
  match (path.dropWhile (· = '/')).splitOn '/' with
  | first :: accountId :: _ =>
    if first = "local".toList ∧ accountId ≠ [] then accountId else systemAccountId
  | _ => systemAccountId

/-- `ensure_same_encryption_domain` (130-140). -/
def ensureSameEncryptionDomain (oldPath newPath : Path) : Except Error Unit :=
  let oldAccount := encryptionAccountDomain oldPath
  let newAccount := encryptionAccountDomain newPath
  if oldAccount ≠ newAccount then
    .error (.internal ("cross-account rename is not supported for encrypted blobs: \"" ++
      String.ofList oldAccount ++ "\" -> \"" ++ String.ofList newAccount ++ "\""))
  else .ok ()

/-- The path with a slash in front. -/
def rooted (path : Path) : Path := if path.head? = some '/' then path else '/' :: path

/-- `encrypted_temp_root` (143-155). -/
def encryptedTempRoot (path : Path) : Path :=
  match ((rooted path).splitOn '/').filter (· ≠ []) with
  | first :: second :: _ =>
    if first = "local".toList then "/local/".toList ++ second ++ "/temp/.encrypt_stage".toList
    else '/' :: first ++ "/temp/.encrypt_stage".toList
  | _ => "/temp/.encrypt_stage".toList

/-- `encrypted_temp_path` (158-167). -/
def encryptedTempPath (path : Path) : Path :=
  encryptedTempRoot (rooted path) ++ '/' :: e.crypto.digest (rooted path) ++ ".encrypt".toList

/-! ## The cache of staging directories -/

/-- What the wrapper calls: the file system below it, and its cache. -/
inductive EncCall where
  | inner (c : Call)
  | tempRootReady (root : Path)
  | markReady (root : Path)

abbrev EncCall.Answer : EncCall → Type
  | .inner c => c.Result
  | .tempRootReady _ => Bool
  | .markReady _ => Unit

/-- `TEMP_ROOT_CACHE_TTL` in seconds. -/
def tempRootCacheTtl : ℕ := 15 * 60

/-- `TEMP_ROOT_CACHE_CAP`. -/
def tempRootCacheCap : ℕ := 1024

/-- `temp_root_cache_is_fresh` (170-172). -/
def tempRootCacheIsFresh (seenAt now : ℕ) : Bool := decide (now - seenAt ≤ tempRootCacheTtl)

/-- The loop that evicts the oldest entries. -/
def evict : ℕ → Dict Path ℕ → Dict Path ℕ
  | 0, cache => cache
  | fuel + 1, cache =>
    if tempRootCacheCap < cache.length then
      match cache.entries.find? fun entry => cache.entries.all fun other => entry.2 ≤ other.2 with
      | some entry => evict fuel (cache.erase entry.1)
      | none => cache
    else cache

/-- `prune_temp_root_cache` (175-189). -/
def pruneTempRootCache (cache : Dict Path ℕ) (now : ℕ) : Dict Path ℕ :=
  evict cache.length (cache.filter fun _ seenAt => tempRootCacheIsFresh seenAt now)

/-- How the calls are carried out over a backend, at a time. -/
def exec {σ : Type} (backend : Backend σ) : (c : EncCall) → σ × Dict Path ℕ → ℕ →
    EncCall.Answer c × (σ × Dict Path ℕ)
  | .inner c, s, _ => ((backend c s.1).1, (backend c s.1).2, s.2)
  | .tempRootReady root, s, now => ((s.2.get root).any fun seenAt => tempRootCacheIsFresh seenAt now, s)
  | .markReady root, s, now => ((), s.1, pruneTempRootCache (s.2.set root now) now)

/-- A call of the file system below. -/
def inner (c : Call) : Prog EncCall.Answer c.Result := Prog.call (EncCall.inner c) Prog.ret

/-- A look into the cache. -/
def tempRootReady (root : Path) : Prog EncCall.Answer Bool :=
  Prog.call (EncCall.tempRootReady root) Prog.ret

/-- A change of the cache. -/
def markReady (root : Path) : Prog EncCall.Answer Unit := Prog.call (EncCall.markReady root) Prog.ret

/-! ## Operations -/

/-- `create_temp_root` (192-201). -/
def createTempRoot (root : Path) : Prog EncCall.Answer (Except Error Unit) := do
  match ← ensureParentDirs inner (root ++ "/.probe".toList) 0o755 with
  | .error err => return .error err
  | .ok () => do
    markReady root
    return .ok ()

/-- The staged write with what follows a failure (296-318). -/
def stage (root tempPath : Path) (envelope : Bytes) : Prog EncCall.Answer (Except Error ℕ) := do
  match ← inner (.write tempPath envelope 0 .create) with
  | .ok written => return .ok written
  | .error (.notFound _) => do
    match ← createTempRoot root with
    | .error err => return .error err
    | .ok () => inner (.write tempPath envelope 0 .create)
  | .error (.alreadyExists _) => do
    match ← inner (.remove tempPath) with
    | .ok () => inner (.write tempPath envelope 0 .create)
    | .error (.notFound _) => inner (.write tempPath envelope 0 .create)
    | .error err => return .error err
  | .error err => return .error err

/-- The end of `write` (319-327): what is staged is published. -/
def publish (path tempPath : Path) (envelope : Bytes) (written : ℕ) :
    Prog EncCall.Answer (Except Error ℕ) :=
  if written ≠ envelope.length then
    return .error (.internal ("encrypted temp write incomplete: wrote " ++ toString written ++
      " of " ++ toString envelope.length ++ " bytes"))
  else do
    match ← inner (.replace tempPath path) with
    | .ok () => return .ok written
    | .error err => return .error err

/-- The staging directory of a write is made ready (287-295). -/
def prepare (root : Path) : Prog EncCall.Answer (Except Error Unit) := do
  match ← tempRootReady root with
  | true => return .ok ()
  | false => createTempRoot root

/-- `write` (255-327). -/
def write (accountId : Path) (nonces : Nonces) (path : Path) (data : Bytes) (offset : ℕ)
    (flags : WriteFlag) : Prog EncCall.Answer (Except Error ℕ) :=
  if shouldPassthroughContent path then inner (.write path data offset flags)
  else if offset ≠ 0 then
    return .error (.internal "encrypted write only supports whole-file write (offset must be 0)")
  else if flags ≠ .create ∧ flags ≠ .truncate then
    return .error (.internal
      "encrypted write requires whole-blob replacement (flags must be Create or Truncate)")
  else if accountId = [] then return .error (.internal "account_id missing in FsContext")
  else do
    let envelope := e.envelope accountId nonces data
    let root := encryptedTempRoot path
    let tempPath := e.encryptedTempPath path
    match ← prepare root with
    | .error err => return .error err
    | .ok () => do
      match ← stage root tempPath envelope with
      | .error err => return .error err
      | .ok written => publish path tempPath envelope written

/-- `rename` (407-412). -/
def rename (oldPath newPath : Path) : Prog EncCall.Answer (Except Error Unit) :=
  match ensureSameEncryptionDomain oldPath newPath with
  | .error err => return .error err
  | .ok () => inner (.rename oldPath newPath)

/-! ## The length of an envelope -/

/-- What is assumed of AES-GCM: decryption undoes encryption, and the tag has 16 bytes. -/
structure Sound (c : Crypto) : Prop where
  decrypt_encrypt : ∀ key iv plaintext,
    c.aesGcmDecrypt key iv (c.aesGcmEncrypt key iv plaintext) = some plaintext
  length_encrypt : ∀ key iv plaintext,
    (c.aesGcmEncrypt key iv plaintext).length = plaintext.length + 16

variable {e} in
theorem length_envelope {e : EncryptionWrappedFS} (h : Sound e.crypto) (accountId : Path)
    (nonces : Nonces) (data : Bytes) : (e.envelope accountId nonces data).length = data.length + 100 := by
  rw [envelope, buildEnvelope]
  simp only [List.length_append, List.length_cons, h.length_encrypt, nonces.keyIv_length,
    nonces.dataIv_length, nonces.fileKey_length, magic, be16, List.length_nil]
  omega

/-! ## A cipher for runs on fixed inputs -/

/-- The tag of a key. -/
def keyTag (key : Bytes) : Bytes := (key ++ List.replicate 16 0).take 16

/-- A code of characters without a slash. -/
def escape (c : Char) : Path := if c = '/' then ['0', '0'] else ['1', c]

/-- A cipher whose tag is the key: it opens what was sealed under the same first bytes of a key. -/
def taggedCrypto : Crypto where
  hkdfSha256 rootKey accountId := accountId.map (fun c => UInt8.ofNat c.toNat) ++ rootKey
  aesGcmEncrypt key _ plaintext := plaintext ++ keyTag key
  aesGcmDecrypt key _ ciphertext :=
    if ciphertext.drop (ciphertext.length - 16) = keyTag key then
      some (ciphertext.take (ciphertext.length - 16))
    else none
  digest path := path.flatMap escape

theorem length_escape (c : Char) : (escape c).length = 2 := by
  unfold escape
  split_ifs
  · rfl
  · rfl

theorem escape_append_inj {c d : Char} {p q : Path} (h : escape c ++ p = escape d ++ q) :
    c = d ∧ p = q := by
  unfold escape at h
  split_ifs at h with hc hd hd
  · exact ⟨hc.trans hd.symm, (List.cons.inj (List.cons.inj h).2).2⟩
  · exact absurd (List.cons.inj h).1 (by decide)
  · exact absurd (List.cons.inj h).1 (by decide)
  · obtain ⟨hcd, hpq⟩ := List.cons.inj (List.cons.inj h).2
    exact ⟨hcd, hpq⟩

theorem digest_taggedCrypto_injective : Function.Injective taggedCrypto.digest := by
  intro p q h
  replace h : p.flatMap escape = q.flatMap escape := h
  induction p generalizing q with
  | nil =>
    cases q with
    | nil => rfl
    | cons d q =>
      have hlen := congrArg List.length h
      rw [List.flatMap_nil, List.flatMap_cons, List.length_append, length_escape, List.length_nil] at hlen
      omega
  | cons c p ih =>
    cases q with
    | nil =>
      have hlen := congrArg List.length h
      rw [List.flatMap_nil, List.flatMap_cons, List.length_append, length_escape, List.length_nil] at hlen
      omega
    | cons d q =>
      rw [List.flatMap_cons, List.flatMap_cons] at h
      obtain ⟨rfl, hpq⟩ := escape_append_inj h
      rw [ih hpq]

theorem slash_not_mem_digest (path : Path) : '/' ∉ taggedCrypto.digest path := by
  intro h
  obtain ⟨c, -, hc⟩ := List.mem_flatMap.1 (show '/' ∈ path.flatMap escape from h)
  unfold escape at hc
  split_ifs at hc with hslash
  · exact absurd hc (by decide)
  · rcases List.mem_cons.1 hc with h1 | h1
    · exact absurd h1 (by decide)
    · exact hslash (List.mem_singleton.1 h1).symm

theorem length_keyTag (key : Bytes) : (keyTag key).length = 16 := by
  rw [keyTag, List.length_take, List.length_append, List.length_replicate]
  omega

theorem sound_taggedCrypto : Sound taggedCrypto where
  decrypt_encrypt key iv plaintext := by
    have hlen : (plaintext ++ keyTag key).length - 16 = plaintext.length := by
      rw [List.length_append, length_keyTag, Nat.add_sub_cancel]
    show (if _ then _ else _) = _
    rw [taggedCrypto, hlen, List.drop_left, List.take_left, if_pos rfl]
  length_encrypt key iv plaintext := by
    show (plaintext ++ keyTag key).length = _
    rw [List.length_append, length_keyTag]

/-- A wrapper over that cipher. -/
def taggedFS : EncryptionWrappedFS := ⟨taggedCrypto, List.replicate 32 7, 0⟩

/-- Random bytes that are not random. -/
def fixedNonces : Nonces where
  fileKey := List.replicate 32 1
  dataIv := List.replicate 12 2
  keyIv := List.replicate 12 3
  fileKey_length := rfl
  dataIv_length := rfl
  keyIv_length := rfl

/-! ## Runs -/

section Runs

variable {e} {σ : Type} {backend : Backend σ} {s t : σ × Dict Path ℕ} {root tempPath path : Path}
  {data : Bytes}

theorem run_inner_iff {c : Call} {r : c.Result} :
    Prog.Run (exec backend) (inner c) s r t ↔
      r = (backend c s.1).1 ∧ t = ((backend c s.1).2, s.2) := by
  rw [inner, Prog.run_call_iff]
  exact ⟨fun ⟨_, h⟩ => Prog.run_ret_iff.1 h, fun h => ⟨0, Prog.run_ret_iff.2 h⟩⟩

/-- The calls that come before an envelope is published. -/
def Staging (tempPath : Path) (envelope : Bytes) : EncCall → Prop
  | .inner (.mkdir _ _) => True
  | .inner (.write path data offset flags) =>
    path = tempPath ∧ data = envelope ∧ offset = 0 ∧ flags = .create
  | .inner (.remove path) => path = tempPath
  | .inner _ => False
  | .tempRootReady _ => True
  | .markReady _ => True

variable {envelope : Bytes}

theorem mkdirs_staging (mode : ℕ) (dirs : List Path) :
    (mkdirs inner mode dirs).All (Staging tempPath envelope) := by
  induction dirs with
  | nil => trivial
  | cons dir dirs ih =>
    refine ⟨trivial, fun r => ?_⟩
    rcases r with err | u
    · cases err with
      | alreadyExists => exact ih
      | _ => trivial
    · exact ih

theorem createTempRoot_staging : (createTempRoot root).All (Staging tempPath envelope) := by
  refine (mkdirs_staging _ _).bind fun r => ?_
  rcases r with err | u
  · trivial
  · exact ⟨trivial, fun _ => trivial⟩

theorem prepare_staging : (prepare root).All (Staging tempPath envelope) := by
  refine ⟨trivial, fun r => ?_⟩
  cases r with
  | true => trivial
  | false => exact createTempRoot_staging

theorem write_staging : (inner (.write tempPath envelope 0 .create)).All (Staging tempPath envelope) :=
  ⟨⟨rfl, rfl, rfl, rfl⟩, fun _ => trivial⟩

theorem stage_staging : (stage root tempPath envelope).All (Staging tempPath envelope) := by
  refine write_staging.bind fun r => ?_
  rcases r with err | written
  · cases err with
    | notFound =>
      refine createTempRoot_staging.bind fun r => ?_
      rcases r with err | u
      · trivial
      · exact write_staging
    | alreadyExists =>
      refine ⟨rfl, fun r => ?_⟩
      rcases r with err | u
      · cases err with
        | notFound => exact write_staging
        | _ => trivial
      · exact write_staging
    | _ => trivial
  · trivial

variable {written w : ℕ}

/-- **A staged write ends with the write of the envelope.** -/
theorem stage_ok (h : Prog.Run (exec backend) (stage root tempPath envelope) s (.ok written) t) :
    ∃ u, backend (.write tempPath envelope 0 .create) u = (.ok written, t.1) := by
  have hwrite : ∀ {s t : σ × Dict Path ℕ},
      Prog.Run (exec backend) (inner (.write tempPath envelope 0 .create)) s (.ok written) t →
        ∃ u, backend (.write tempPath envelope 0 .create) u = (.ok written, t.1) := by
    intro s t h
    obtain ⟨hr, rfl⟩ := run_inner_iff.1 h
    exact ⟨s.1, Prod.ext hr.symm rfl⟩
  obtain ⟨r, u, hr, h⟩ := Prog.run_bind_iff.1 h
  rcases r with err | w
  · cases err with
    | notFound =>
      obtain ⟨r', v, -, h⟩ := Prog.run_bind_iff.1 h
      rcases r' with err | x
      · cases h
      · exact hwrite h
    | alreadyExists =>
      obtain ⟨r', v, -, h⟩ := Prog.run_bind_iff.1 h
      rcases r' with err | x
      · cases err with
        | notFound => exact hwrite h
        | _ => cases h
      · exact hwrite h
    | _ => cases h
  · obtain ⟨hw, rfl⟩ := Prog.run_ret_iff.1 h
    obtain rfl := Except.ok.inj hw
    exact hwrite hr

/-- What follows the staging of an envelope. -/
theorem publish_eq_call (path tempPath : Path) (envelope : Bytes) :
    ∃ k, publish path tempPath envelope envelope.length = .call (.inner (.replace tempPath path)) k ∧
      k (.ok ()) = .ret (.ok envelope.length) ∧ ∀ err, k (.error err) = .ret (.error err) := by
  rw [publish, if_neg (not_not.2 rfl)]
  exact ⟨_, rfl, rfl, fun _ => rfl⟩

theorem publish_ok (h : Prog.Run (exec backend) (publish path tempPath envelope written) s (.ok w) t) :
    w = written ∧ written = envelope.length ∧ backend (.replace tempPath path) s.1 = (.ok (), t.1) := by
  rw [publish] at h
  split_ifs at h with hlen
  · cases h
  · obtain ⟨r, u, hr, h⟩ := Prog.run_bind_iff.1 h
    obtain ⟨hreply, rfl⟩ := run_inner_iff.1 hr
    rcases r with err | x
    · cases h
    · obtain ⟨hw, rfl⟩ := Prog.run_ret_iff.1 h
      exact ⟨Except.ok.inj hw, of_not_not hlen, Prod.ext hreply.symm rfl⟩

theorem publish_error {err : Error}
    (h : Prog.Run (exec backend) (publish path tempPath envelope written) s (.error err) t) :
    t = s ∨ ∃ err', backend (.replace tempPath path) s.1 = (.error err', t.1) := by
  rw [publish] at h
  split_ifs at h with hlen
  · exact .inl (Prog.run_ret_iff.1 h).2
  · obtain ⟨r, u, hr, h⟩ := Prog.run_bind_iff.1 h
    obtain ⟨hreply, rfl⟩ := run_inner_iff.1 hr
    rcases r with err' | x
    · obtain ⟨-, rfl⟩ := Prog.run_ret_iff.1 h
      exact .inr ⟨err', Prod.ext hreply.symm rfl⟩
    · cases h

variable {accountId : Path} {nonces : Nonces} {offset : ℕ} {flags : WriteFlag}

/-- **A write that succeeds has staged its envelope and put it in place.** -/
theorem write_ok (hpath : shouldPassthroughContent path = false)
    (h : Prog.Run (exec backend) (e.write accountId nonces path data offset flags) s (.ok w) t) :
    (offset = 0 ∧ (flags = .create ∨ flags = .truncate) ∧ accountId ≠ []) ∧
      w = (e.envelope accountId nonces data).length ∧ ∃ u v,
      backend (.write (e.encryptedTempPath path) (e.envelope accountId nonces data) 0 .create) u =
          (.ok w, v) ∧
        backend (.replace (e.encryptedTempPath path) path) v = (.ok (), t.1) := by
  rw [write, if_neg (show ¬ shouldPassthroughContent path = true by rw [hpath]; decide)] at h
  split_ifs at h with hoffset hflags haccount
  · cases h
  · cases h
  · cases h
  · obtain ⟨r, u, -, h⟩ := Prog.run_bind_iff.1 h
    rcases r with err | x
    · cases h
    · obtain ⟨r, v, hstage, h⟩ := Prog.run_bind_iff.1 h
      rcases r with err | written
      · cases h
      · obtain ⟨u', hu'⟩ := stage_ok hstage
        obtain ⟨rfl, hlen, hreplace⟩ := publish_ok h
        refine ⟨⟨of_not_not hoffset, ?_, haccount⟩, hlen, u', v.1, hu', hreplace⟩
        by_contra hno
        exact hflags ⟨fun hc => hno (.inl hc), fun ht => hno (.inr ht)⟩

/-- A write that fails has made no other calls than those that stage, except for a replacement that
failed. -/
theorem write_error {err : Error} (hpath : shouldPassthroughContent path = false) {P : σ → Prop}
    (hstaging : ∀ c, Staging (e.encryptedTempPath path) (e.envelope accountId nonces data) (.inner c) →
      ∀ u, P u → P (backend c u).2)
    (hreplace : ∀ u err', backend (.replace (e.encryptedTempPath path) path) u = (.error err', t.1) →
      P u → P t.1)
    (h : Prog.Run (exec backend) (e.write accountId nonces path data offset flags) s (.error err) t)
    (hs : P s.1) : P t.1 := by
  have hkeep : ∀ c, Staging (e.encryptedTempPath path) (e.envelope accountId nonces data) c →
      ∀ (s : σ × Dict Path ℕ) (n : ℕ), P s.1 → P (exec backend c s n).2.1 := by
    intro c hc s n hP
    cases c with
    | inner c => exact hstaging c hc s.1 hP
    | tempRootReady => exact hP
    | markReady => exact hP
  rw [write, if_neg (show ¬ shouldPassthroughContent path = true by rw [hpath]; decide)] at h
  split_ifs at h with hoffset hflags haccount
  · rwa [(Prog.run_ret_iff.1 h).2]
  · rwa [(Prog.run_ret_iff.1 h).2]
  · rwa [(Prog.run_ret_iff.1 h).2]
  · obtain ⟨r, u, hprepare, h⟩ := Prog.run_bind_iff.1 h
    have hu : P u.1 := Prog.Run.invariant (P := fun s : σ × Dict Path ℕ => P s.1) prepare_staging
      hkeep hprepare hs
    rcases r with err' | x
    · rwa [(Prog.run_ret_iff.1 h).2]
    · obtain ⟨r, v, hstage, h⟩ := Prog.run_bind_iff.1 h
      have hv : P v.1 := Prog.Run.invariant (P := fun s : σ × Dict Path ℕ => P s.1) stage_staging hkeep
        hstage hu
      rcases r with err' | written
      · rwa [(Prog.run_ret_iff.1 h).2]
      · rcases publish_error h with rfl | ⟨err', hr⟩
        · exact hv
        · exact hreplace _ _ hr hv

end Runs

end EncryptionWrappedFS

end OpenViking.Ragfs
