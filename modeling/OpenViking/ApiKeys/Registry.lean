import OpenViking.ApiKeys.Manager
import Mathlib.Data.Option.Basic

/-!
# Who has which key

A registry says which users there are, with their keys and roles.  It is what the records in memory
stand for; the key index only has to point at records that are there.

* `Holds.resolve_current`, `Holds.resolve_other`: what `resolve` answers;
* `Holds.resolve_congr`: it depends on the registry alone.
-/

namespace OpenViking.ApiKeys

open Fs (Str)

local instance Str.lawfulBEqKeys : LawfulBEq Str := inferInstance

/-! ## The index -/

/-- The entry is in the index, under the prefix. -/
def Indexed (index : PrefixIndex) (keyPrefix : Str) (e : UserKeyEntry) : Prop :=
  e ∈ (index.get keyPrefix).getD []

variable {index : PrefixIndex} {p q a u role : Str} {e : UserKeyEntry}

theorem indexed_dropEntries :
    Indexed (dropEntries index p a u) q e ↔
      Indexed index q e ∧ ¬ (q = p ∧ e.accountId = a ∧ e.userId = u) := by
  unfold Indexed dropEntries
  cases hget : index.get p with
  | none =>
    have hne : e ∈ (index.get q).getD [] → q ≠ p := by
      rintro hmem rfl
      simp [hget] at hmem
    constructor
    · intro hmem
      exact ⟨hmem, fun hq => hne hmem hq.1⟩
    · exact And.left
  | some entries =>
    dsimp only
    by_cases hq : q = p
    · subst hq
      split_ifs with hnil
      · rw [List.filter_eq_nil_iff] at hnil
        simp only [Dict.get_erase, hget, if_true, Option.getD_none, Option.getD_some,
          List.not_mem_nil, true_and, false_iff, not_and]
        intro hmem
        simpa using hnil e hmem
      · simp only [Dict.get_set, hget, if_true, Option.getD_some, List.mem_filter, true_and]
        simp [imp_iff_not_or]
    · have hother : ∀ d : PrefixIndex, d.get q = index.get q →
          (e ∈ (d.get q).getD [] ↔
            e ∈ (index.get q).getD [] ∧ ¬ (q = p ∧ e.accountId = a ∧ e.userId = u)) := by
        intro d hd
        rw [hd]
        simp [hq]
      split_ifs
      · exact hother _ (by simp [hq])
      · exact hother _ (by simp [hq])

theorem indexed_addEntry {e' : UserKeyEntry} :
    Indexed (addEntry index p e') q e ↔ Indexed index q e ∨ p ≠ [] ∧ q = p ∧ e = e' := by
  unfold Indexed addEntry
  split_ifs with hp
  · simp [hp]
  · by_cases hq : q = p
    · subst hq
      simp [hp]
    · simp [hq]

/-- The entries differ in their roles at most. -/
def SameKey (e e' : UserKeyEntry) : Prop := ∃ role, e = { e' with role := role }

theorem sameKey_of_mem_setFirstRole {entries : List UserKeyEntry}
    (h : e ∈ setFirstRole a u role entries) : ∃ e' ∈ entries, SameKey e e' := by
  induction entries with
  | nil => simp [setFirstRole] at h
  | cons first entries ih =>
    unfold setFirstRole at h
    split_ifs at h with hfirst
    · obtain rfl | h := List.mem_cons.1 h
      · exact ⟨first, List.mem_cons_self, role, rfl⟩
      · exact ⟨e, List.mem_cons_of_mem _ h, e.role, rfl⟩
    · obtain rfl | h := List.mem_cons.1 h
      · exact ⟨e, List.mem_cons_self, e.role, rfl⟩
      · obtain ⟨e', he', hsame⟩ := ih h
        exact ⟨e', List.mem_cons_of_mem _ he', hsame⟩

theorem indexed_setEntryRole
    (h : Indexed (setEntryRole index p a u role) q e) : ∃ e', Indexed index q e' ∧ SameKey e e' := by
  unfold Indexed setEntryRole at h
  cases hget : index.get p with
  | none =>
    rw [hget] at h
    exact ⟨e, h, e.role, rfl⟩
  | some entries =>
    rw [hget] at h
    dsimp only at h
    rw [Dict.get_set] at h
    split_ifs at h with hq
    · subst hq
      obtain ⟨e', he', hsame⟩ := sameKey_of_mem_setFirstRole h
      exact ⟨e', by rwa [Indexed, hget], hsame⟩
    · exact ⟨e, h, e.role, rfl⟩

/-! ## Records and what they stand for -/

/-- A user's key and role. -/
structure Credential where
  key : Str
  role : Str
  deriving DecidableEq

/-- The users of all accounts. -/
abbrev Registry := Str → Str → Option Credential

/-- The record in memory of a user. -/
def Manager.held (m : Manager) (accountId userId : Str) : Option UserInfo :=
  (m.accounts.get accountId).bind fun account => account.users.get userId

/-- The record has the role, and the key or a hash of it. -/
structure Represents (P : Primitives) (accountId userId : Str) (info : UserInfo)
    (c : Credential) : Prop where
  role : info.role = c.role
  issued : ∃ secret, c.key = generateApiKey P accountId userId secret
  stored : info.key = c.key ∧ info.keyPrefix = none ∨
    ∃ salt, info.key = P.hash salt c.key ∧ info.keyPrefix = some (getKeyPrefix c.key)

/-- The entry is one that the record may have in the index, under the prefix. -/
structure Describes (info : UserInfo) (keyPrefix : Str) (e : UserKeyEntry) : Prop where
  keyPrefix : keyPrefix = info.indexPrefix
  keyOrHash : e.keyOrHash = info.key
  isHashed : e.isHashed = isHash info.key

/-- Every entry of the index is that of a record. -/
def IndexSound (held : Str → Str → Option UserInfo) (index : PrefixIndex) : Prop :=
  ∀ p e, Indexed index p e → ∃ info, held e.accountId e.userId = some info ∧ Describes info p e

/-- The manager has the users of the registry, and its index is sound. -/
structure Holds (P : Primitives) (m : Manager) (reg : Registry) : Prop where
  users : ∀ a u, Option.Rel (Represents P a u) (m.held a u) (reg a u)
  index : IndexSound m.held m.prefixIndex

section Represents

variable {P : Primitives} {a u : Str} {info : UserInfo} {c : Credential}

/-- **A record is checked against its own key and no other.** -/
theorem Represents.plain_or_hashed (hP : P.Sound) (h : Represents P a u info c) :
    isHash info.key = false ∧ info.key = c.key ∧ info.keyPrefix = none ∨
      isHash info.key = true ∧ (∀ key, P.verify info.key key = some (decide (key = c.key))) ∧
        info.keyPrefix = some (getKeyPrefix c.key) := by
  obtain ⟨hkey, hkeyPrefix⟩ | ⟨salt, hkey, hkeyPrefix⟩ := h.stored
  · left
    refine ⟨?_, hkey, hkeyPrefix⟩
    obtain ⟨secret, hissued⟩ := h.issued
    rw [hkey, hissued]
    exact not_isHash_generateApiKey hP _ _ _
  · right
    rw [hkey]
    exact ⟨isHash_hash hP _ _, hP.verify_hash _ _, hkeyPrefix⟩

theorem Represents.key_isAscii (hP : P.Sound) (h : Represents P a u info c) : isAscii c.key = true := by
  obtain ⟨secret, hissued⟩ := h.issued
  rw [hissued]
  exact generateApiKey_isAscii hP _ _ _

theorem Represents.credential_ne_nil (h : Represents P a u info c) : c.key ≠ [] := by
  obtain ⟨secret, hissued⟩ := h.issued
  rw [hissued]
  exact generateApiKey_ne_nil _ _ _ _

theorem Represents.key_ne_nil (hP : P.Sound) (h : Represents P a u info c) : info.key ≠ [] := by
  obtain ⟨-, hkey, -⟩ | ⟨hhash, -, -⟩ := h.plain_or_hashed hP
  · rw [hkey]
    exact h.credential_ne_nil
  · intro hnil
    rw [hnil] at hhash
    exact absurd hhash (by decide +kernel)

theorem Represents.indexPrefix_eq (hP : P.Sound) (h : Represents P a u info c) :
    info.indexPrefix = getKeyPrefix c.key := by
  unfold UserInfo.indexPrefix
  obtain ⟨-, hkey, hkeyPrefix⟩ | ⟨-, -, hkeyPrefix⟩ := h.plain_or_hashed hP
  · simp [hkey, hkeyPrefix]
  · simp [hkeyPrefix, getKeyPrefix_ne_nil h.credential_ne_nil]

end Represents

/-! ## What `resolve` answers -/

section Resolve

variable {P : Primitives} {m : Manager} {reg : Registry} {k : Str}

/-- The fast path accepts a user's key, and no other key that names the user. -/
theorem decodeIdentity_eq (hP : P.Sound) {a u secret : Str} {info : UserInfo} {c : Credential}
    (hk : isAscii k = true) (hnew : isNewFormatKey k = true)
    (hparse : parseApiKey P k = some (a, u, secret)) (hheld : m.held a u = some info)
    (hinfo : Represents P a u info c) :
    decodeIdentity P m k = if k = c.key then some ⟨c.role, some a, some u⟩ else none := by
  unfold decodeIdentity
  rw [if_pos hnew, hparse]
  dsimp only
  rw [show (m.accounts.get a).bind (fun account => account.users.get u) = some info from hheld]
  dsimp only
  rw [if_neg (hinfo.key_ne_nil hP), hinfo.role]
  obtain ⟨hhash, hkey, hkeyPrefix⟩ | ⟨hhash, hverify, -⟩ := hinfo.plain_or_hashed hP
  · have hnot : isHash [] = false := by decide +kernel
    rw [hkey] at hhash
    rw [hkey, hkeyPrefix, Option.getD_none, hnot, hhash, Bool.or_self,
      compareDigest_of_isAscii hk (hinfo.key_isAscii hP)]
    by_cases hkc : k = c.key <;> simp [hkc]
  · rw [hhash, Bool.or_true, if_pos rfl, hverify]
    by_cases hkc : k = c.key <;> simp [hkc]

/-- What the fast path accepts is the key of a user. -/
theorem Holds.decodeIdentity_other (hP : P.Sound) (h : Holds P m reg) (hk : isAscii k = true)
    (hother : ∀ a u r, reg a u ≠ some ⟨k, r⟩) : decodeIdentity P m k = none := by
  by_cases hnew : isNewFormatKey k = true
  · cases hparse : parseApiKey P k with
    | none => simp [decodeIdentity, hparse]
    | some ids =>
      obtain ⟨a, u, secret⟩ := ids
      have hrel := h.users a u
      cases hheld : m.held a u with
      | none =>
        unfold decodeIdentity
        rw [if_pos hnew, hparse]
        dsimp only
        rw [show (m.accounts.get a).bind (fun account => account.users.get u) = none from hheld]
      | some info =>
        rw [hheld] at hrel
        cases hreg : reg a u with
        | none => simp [hreg] at hrel
        | some c =>
          rw [hreg, Option.rel_some_some] at hrel
          rw [decodeIdentity_eq hP hk hnew hparse hheld hrel, if_neg]
          rintro rfl
          exact hother a u c.role hreg
  · simp [decodeIdentity, hnew]

/-- No entry of a sound index accepts a key that nobody has. -/
theorem Holds.matchEntries_other (hP : P.Sound) (h : Holds P m reg) (hk : isAscii k = true)
    (hother : ∀ a u r, reg a u ≠ some ⟨k, r⟩) {p : Str} {entries : List UserKeyEntry}
    (hindexed : ∀ e ∈ entries, Indexed m.prefixIndex p e) :
    matchEntries P k entries = .error (.unauthenticated "Invalid API Key") := by
  induction entries with
  | nil => rfl
  | cons e entries ih =>
    rw [List.forall_mem_cons] at hindexed
    obtain ⟨info, hheld, hdescribes⟩ := h.index p e hindexed.1
    have hrel := h.users e.accountId e.userId
    rw [hheld] at hrel
    cases hreg : reg e.accountId e.userId with
    | none => simp [hreg] at hrel
    | some c =>
      rw [hreg, Option.rel_some_some] at hrel
      have hkc : k ≠ c.key := by
        rintro rfl
        exact hother _ _ c.role hreg
      rw [matchEntries, hdescribes.isHashed, hdescribes.keyOrHash]
      obtain ⟨hhash, hkey, -⟩ | ⟨hhash, hverify, -⟩ := hrel.plain_or_hashed hP
      · rw [hhash, hkey, compareDigest_of_isAscii hk (hrel.key_isAscii hP)]
        simpa [hkc] using ih hindexed.2
      · rw [hhash, if_pos rfl, hverify]
        simpa [hkc] using ih hindexed.2

/-- **A user's key opens that user's account.** -/
theorem Holds.resolve_current (hP : P.Sound) (h : Holds P m reg) (hroot : isAscii m.rootKey = true)
    (hne : k ≠ m.rootKey) {a u r : Str} (hreg : reg a u = some ⟨k, r⟩) :
    m.resolve P k = .ok ⟨r, some a, some u⟩ := by
  have hrel := h.users a u
  rw [hreg] at hrel
  cases hheld : m.held a u with
  | none => simp [hheld] at hrel
  | some info =>
    rw [hheld, Option.rel_some_some] at hrel
    have hk : isAscii k = true := hrel.key_isAscii hP
    have hnil : k ≠ [] := hrel.credential_ne_nil
    obtain ⟨secret, hissued⟩ := hrel.issued
    have hissued : k = generateApiKey P a u secret := hissued
    have hnew : isNewFormatKey k = true := by
      rw [hissued]
      exact isNewFormatKey_generateApiKey hP _ _ _
    have hparse : parseApiKey P k = some (a, u, secret) := by
      rw [hissued]
      exact parseApiKey_generateApiKey hP _ _ _
    rw [Manager.resolve, if_neg hnil, compareDigest_of_isAscii hk hroot, decide_eq_false hne]
    dsimp only
    rw [decodeIdentity_eq hP hk hnew hparse hheld hrel, if_pos rfl]

/-- **A key that nobody has opens nothing.** -/
theorem Holds.resolve_other (hP : P.Sound) (h : Holds P m reg) (hroot : isAscii m.rootKey = true)
    (hk : isAscii k = true) (hne : k ≠ m.rootKey) (hother : ∀ a u r, reg a u ≠ some ⟨k, r⟩) :
    m.resolve P k =
      .error (.unauthenticated (if k = [] then "Missing API Key" else "Invalid API Key")) := by
  unfold Manager.resolve
  split_ifs with hnil
  · rfl
  · rw [compareDigest_of_isAscii hk hroot, decide_eq_false hne]
    dsimp only
    rw [h.decodeIdentity_other hP hk hother]
    dsimp only
    rw [legacyResolve, if_neg hnil, compareDigest_of_isAscii hk hroot, decide_eq_false hne]
    exact h.matchEntries_other hP hk hother fun e he => he

/-- The comparison with the root key decides, or the key is another and both are ASCII. -/
theorem compareDigest_cases (a b : Str) :
    (∃ error, compareDigest a b = .error error) ∨ compareDigest a b = .ok true ∨
      isAscii a = true ∧ isAscii b = true ∧ a ≠ b := by
  unfold compareDigest
  split_ifs with hascii
  · rw [Bool.and_eq_true] at hascii
    by_cases hab : a = b
    · exact .inr (.inl (by simp [hab]))
    · exact .inr (.inr ⟨hascii.1, hascii.2, hab⟩)
  · exact .inl ⟨_, rfl⟩

/-- **What resolves is the root key or the key of a user.** -/
theorem Holds.resolve_ok (hP : P.Sound) (h : Holds P m reg) (hne : k ≠ m.rootKey)
    (hother : ∀ a u r, reg a u ≠ some ⟨k, r⟩) (identity : ResolvedIdentity) :
    m.resolve P k ≠ .ok identity := by
  obtain ⟨error, herror⟩ | htrue | ⟨hk, hroot, -⟩ := compareDigest_cases k m.rootKey
  · unfold Manager.resolve
    split_ifs
    · simp
    · simp [herror]
  · unfold compareDigest at htrue
    split_ifs at htrue
    exact absurd (of_decide_eq_true (Except.ok.inj htrue)) hne
  · rw [h.resolve_other hP hroot hk hne hother]
    simp

/-- **Managers with the same users answer alike.** -/
theorem Holds.resolve_congr (hP : P.Sound) {m' : Manager} (h : Holds P m reg)
    (h' : Holds P m' reg) (hroots : m'.rootKey = m.rootKey) (k : Str) : m'.resolve P k = m.resolve P k := by
  obtain ⟨error, herror⟩ | htrue | ⟨hk, hroot, hne⟩ := compareDigest_cases k m.rootKey
  · simp [Manager.resolve, hroots, herror]
  · simp [Manager.resolve, hroots, htrue]
  · have hroot' : isAscii m'.rootKey = true := by rwa [hroots]
    have hne' : k ≠ m'.rootKey := by rwa [hroots]
    by_cases hcurrent : ∃ a u r, reg a u = some ⟨k, r⟩
    · obtain ⟨a, u, r, hreg⟩ := hcurrent
      rw [h.resolve_current hP hroot hne hreg, h'.resolve_current hP hroot' hne' hreg]
    · simp only [not_exists] at hcurrent
      rw [h.resolve_other hP hroot hk hne hcurrent, h'.resolve_other hP hroot' hk hne' hcurrent]

end Resolve

end OpenViking.ApiKeys
