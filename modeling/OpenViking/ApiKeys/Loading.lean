import OpenViking.ApiKeys.Operations
import OpenViking.Common.Crashes

/-!
# What the files stand for, and what `load` makes of them

The files stand for a registry as the memory does.  A manager that has loaded them has the same
users; wherever a load is cut off or raises, the files still stand for the registry.

* `loadUsers_crashWp`, `loadAccounts_crashWp`: the two loops;
* `load_crashWp`: the load of a new manager.
-/

namespace OpenViking.ApiKeys

open Fs (Str)

/-! ## Files -/

/-- The accounts in `accounts.json`. -/
def Files.accounts (files : Files) : Dict Str Str :=
  ((files.get accountsPath).map Document.accountsData).getD Dict.empty

/-- The users in an account's `users.json`. -/
def Files.usersOf (files : Files) (accountId : Str) : Dict Str UserInfo :=
  ((files.get (usersPath accountId)).map Document.usersData).getD Dict.empty

/-- The record of a user of an account that is listed. -/
def Files.held (files : Files) (accountId userId : Str) : Option UserInfo :=
  if (Files.accounts files).contains accountId then (Files.usersOf files accountId).get userId
  else none

/-- The files have the users of the registry; before the first run there are none. -/
structure Stored (P : Primitives) (reg : Registry) (files : Files) : Prop where
  users : ∀ a u, Option.Rel (Represents P a u) (Files.held files a u) (reg a u)
  fresh : files.get accountsPath = none → ∀ a u, (Files.usersOf files a).get u = none

/-- The files stand for the registry, and list every account that the manager has. -/
structure Backed (P : Primitives) (reg : Registry) (m : Manager) (files : Files) : Prop where
  stored : Stored P reg files
  listed : files.get accountsPath ≠ none
  accounts : ∀ a, m.accounts.contains a = true → (Files.accounts files).contains a = true

section Files

variable {files : Files} {a b : Str}

variable (data : Document)

@[simp] theorem accounts_set_usersPath :
    Files.accounts (files.set (usersPath a) data) = Files.accounts files := by
  simp [Files.accounts, Ne.symm (usersPath_ne_accountsPath a)]

@[simp] theorem accounts_set_accountsPath :
    Files.accounts (files.set accountsPath data) = data.accountsData := by
  simp [Files.accounts]

@[simp] theorem usersOf_set_accountsPath :
    Files.usersOf (files.set accountsPath data) a = Files.usersOf files a := by
  simp [Files.usersOf, usersPath_ne_accountsPath a]

theorem usersOf_set_usersPath :
    Files.usersOf (files.set (usersPath a) data) b =
      if b = a then data.usersData else Files.usersOf files b := by
  by_cases hb : b = a
  · subst hb
    simp [Files.usersOf]
  · have hpath : usersPath b ≠ usersPath a := fun h => hb (usersPath_injective h)
    simp [Files.usersOf, hpath, hb]

theorem listed_set_usersPath :
    (files.set (usersPath a) data).get accountsPath = files.get accountsPath := by
  simp [Ne.symm (usersPath_ne_accountsPath a)]

theorem Backed.users {P : Primitives} {reg : Registry} {m : Manager} (h : Backed P reg m files)
    (hcontains : m.accounts.contains a = true) (u : Str) :
    Option.Rel (Represents P a u) ((Files.usersOf files a).get u) (reg a u) := by
  have hrel := h.stored.users a u
  rwa [Files.held, if_pos (h.accounts a hcontains)] at hrel

end Files

/-! ## The loops -/

section Load

variable {P : Primitives} {reg : Registry}

/-- A load under way: the accounts of `accounts.json` are there but for the rest, and agree with
their files. -/
structure Loading (P : Primitives) (reg : Registry) (rest : List Str) (m : Manager)
    (files : Files) : Prop where
  stored : Stored P reg files
  listed : files.get accountsPath ≠ none
  accounts : ∀ a, m.accounts.contains a = true ↔
    (Files.accounts files).contains a = true ∧ a ∉ rest
  rest : ∀ a ∈ rest, (Files.accounts files).contains a = true
  index : IndexSound m.held m.prefixIndex
  users : ∀ a account, m.accounts.get a = some account →
    ∀ u, (Files.usersOf files a).get u = account.users.get u

variable {rest : List Str} {m : Manager} {files : Files} {a u : Str}

variable {account : AccountInfo}

theorem Loading.contains (h : Loading P reg rest m files)
    (hget : m.accounts.get a = some account) : (Files.accounts files).contains a = true :=
  ((h.accounts a).1 (by rw [Dict.contains, hget]; rfl)).1

theorem Loading.held_eq (h : Loading P reg rest m files)
    (hget : m.accounts.get a = some account) (u : Str) : Files.held files a u = m.held a u := by
  rw [Files.held, if_pos (h.contains hget), held_of_get hget, h.users a account hget]

variable {info : UserInfo}

/-- The records loaded are those of the registry. -/
theorem Loading.represents (h : Loading P reg rest m files)
    (hheld : m.held a u = some info) : ∃ c, reg a u = some c ∧ Represents P a u info c := by
  obtain ⟨account, hget, -⟩ := Option.bind_eq_some_iff.1 hheld
  have hrel := h.stored.users a u
  rw [h.held_eq hget, hheld] at hrel
  cases hreg : reg a u with
  | none => simp [hreg] at hrel
  | some c =>
    rw [hreg, Option.rel_some_some] at hrel
    exact ⟨c, rfl, hrel⟩

theorem Loading.done (h : Loading P reg [] m files) : Holds P m reg ∧ Backed P reg m files := by
  have haccounts : ∀ a, m.accounts.contains a = true ↔
      (Files.accounts files).contains a = true := by
    intro a
    rw [h.accounts a]
    simp
  refine ⟨⟨fun a u => ?_, h.index⟩, h.stored, h.listed, fun a => (haccounts a).1⟩
  have hrel := h.stored.users a u
  cases hget : m.accounts.get a with
  | some account => rwa [h.held_eq hget] at hrel
  | none =>
    have hnot : ¬ (Files.accounts files).contains a = true := by
      rw [← haccounts a, Dict.contains, hget]
      exact Bool.false_ne_true
    rw [Files.held, if_neg hnot] at hrel
    rwa [held_of_get_eq_none hget]

theorem Loading.addEntry (h : Loading P reg rest m files) {p : Str} {e : UserKeyEntry}
    (hheld : m.held e.accountId e.userId = some info) (hdescribes : Describes info p e) :
    Loading P reg rest { m with prefixIndex := addEntry m.prefixIndex p e } files :=
  ⟨h.stored, h.listed, h.accounts, h.rest, h.index.addEntry hheld hdescribes, h.users⟩

/-- The record of a user is replaced in memory and in the file. -/
theorem Loading.migrate (h : Loading P reg rest m files)
    {c : Credential} (hget : m.accounts.get a = some account)
    (hreg : reg a u = some c) (hinfo : Represents P a u info c) (hno : Unindexed m.prefixIndex a u) :
    Loading P reg rest (m.setUser a u info)
      (files.set (usersPath a) (.users (account.users.set u info))) := by
  have hheld := held_setUser hget u info
  have haccounts : ∀ b, b ≠ a → (m.setUser a u info).accounts.get b = m.accounts.get b := by
    intro b hb
    rw [setUser_of_get hget]
    simp [hb]
  refine ⟨⟨fun a' u' => ?_, ?_⟩, ?_, fun b => ?_, ?_, ?_, fun b account' hget' u' => ?_⟩
  · rw [Files.held, accounts_set_usersPath, usersOf_set_usersPath]
    by_cases ha : a' = a
    · subst ha
      rw [if_pos (h.contains hget), if_pos rfl, Document.usersData, Dict.get_set]
      split_ifs with hu
      · subst hu
        rw [hreg]
        exact .some hinfo
      · rw [← held_of_get hget, ← h.held_eq hget]
        exact h.stored.users a' u'
    · rw [if_neg ha]
      exact h.stored.users a' u'
  · rw [listed_set_usersPath]
    exact fun hnone => absurd hnone h.listed
  · rw [listed_set_usersPath]
    exact h.listed
  · rw [accounts_set_usersPath, ← h.accounts b, setUser_of_get hget]
    by_cases hb : b = a <;> simp [Dict.contains, hb, hget]
  · rw [accounts_set_usersPath]
    exact h.rest
  · have hindex : (m.setUser a u info).prefixIndex = m.prefixIndex := by rw [setUser_of_get hget]
    rw [hindex]
    exact h.index.of_unindexed hno fun a' u' hne => (hheld a' u').trans (if_neg hne)
  · rw [usersOf_set_usersPath]
    by_cases hb : b = a
    · subst hb
      rw [setUser_of_get hget, Dict.get_set, if_pos rfl] at hget'
      rw [if_pos rfl, ← Option.some_inj.1 hget', Document.usersData]
    · rw [haccounts b hb] at hget'
      rw [if_neg hb]
      exact h.users b account' hget' u'

theorem Unindexed.addEntry {index : PrefixIndex} (h : Unindexed index a u) {p : Str}
    {e : UserKeyEntry} (hne : e.userId ≠ u) : Unindexed (addEntry index p e) a u := by
  intro q e' he'
  obtain he' | ⟨-, -, rfl⟩ := indexed_addEntry.1 he'
  · exact h q e' he'
  · exact fun hau => hne hau.2

theorem saveUsersJson_of_get (h : m.accounts.get a = some account) :
    saveUsersJson m a = writeJson (usersPath a) (.users account.users) := by
  rw [saveUsersJson, h]

/-- A write that succeeds, or raises when its resolution is not `0`. -/
theorem crashWp_writeJson {allowed : ℕ → Prop} {path : Str} {data : Document}
    {Q : Except ApiError Unit → Files → Prop} {K : Files → Prop} (hK : K files)
    (hok : Q (.ok ()) (files.set path data))
    (herror : (∃ n, allowed n ∧ n ≠ 0) → Q (.error .saveFailed) files) :
    (writeJson path data).CrashWp exec allowed Q K files := by
  refine Prog.CrashWp.perform hK fun n hn => ?_
  cases n with
  | zero => exact hok
  | succ n => exact herror ⟨n + 1, hn, n.succ_ne_zero⟩

/-- How a load ends: it goes on, or raises because a save did. -/
def LoadEnds (P : Primitives) (reg : Registry) (rest : List Str) (rootKey : Str)
    (allowed : ℕ → Prop) : Except ApiError Manager → Files → Prop
  | .ok m, files => Loading P reg rest m files ∧ m.rootKey = rootKey
  | .error _, files => Stored P reg files ∧ ∃ n, allowed n ∧ n ≠ 0

variable (hP : P.Sound) (allowed : ℕ → Prop)
include hP

theorem loadUsers_crashWp (salts : Str → ℕ) {users : List (Str × UserInfo)}
    (h : Loading P reg rest m files) (hnodup : (users.map Prod.fst).Nodup)
    (htodo : ∀ user ∈ users, m.held a user.1 = some user.2 ∧ Unindexed m.prefixIndex a user.1) :
    (loadUsers P a salts users m).CrashWp exec allowed (LoadEnds P reg rest m.rootKey allowed)
      (Stored P reg) files := by
  induction users generalizing m files with
  | nil => exact ⟨h, rfl⟩
  | cons user users ih =>
    obtain ⟨u, info⟩ := user
    rw [List.map_cons, List.nodup_cons] at hnodup
    rw [List.forall_mem_cons] at htodo
    obtain ⟨⟨hheld, hno⟩, htodo⟩ := htodo
    obtain ⟨c, hreg, hinfo⟩ := h.represents hheld
    have hindexed := hinfo.indexPrefix_eq hP
    have hother : ∀ user ∈ users, u ≠ user.1 := by
      rintro user hmem rfl
      exact hnodup.1 (List.mem_map.2 ⟨user, hmem, rfl⟩)
    -- an entry of this user leaves the users to come without entries
    have hnext : ∀ (m' : Manager) (p : Str) (e : UserKeyEntry), e.userId = u →
        m'.prefixIndex = m.prefixIndex → (∀ u', u' ≠ u → m'.held a u' = m.held a u') →
        ∀ user ∈ users, m'.held a user.1 = some user.2 ∧
          Unindexed (addEntry m'.prefixIndex p e) a user.1 := by
      intro m' p e he hindex hheld' user hmem
      obtain ⟨huser, hunindexed⟩ := htodo user hmem
      rw [hindex, hheld' _ (Ne.symm (hother user hmem))]
      refine ⟨huser, hunindexed.addEntry ?_⟩
      rw [he]
      exact hother user hmem
    rw [loadUsers, if_neg (hinfo.key_ne_nil hP)]
    obtain ⟨hhash, hkey, -⟩ | ⟨hhash, -, hkeyPrefix⟩ := hinfo.plain_or_hashed hP
    · rw [hhash, if_neg Bool.false_ne_true]
      split_ifs with hhashing
      · obtain ⟨account, hget, -⟩ := Option.bind_eq_some_iff.1 hheld
        have hinfo' : Represents P a u (info.migrate P (salts u)) c :=
          ⟨hinfo.role, hinfo.issued, .inr ⟨salts u, by rw [UserInfo.migrate, hkey],
            by rw [UserInfo.migrate, hkey]⟩⟩
        have hset := setUser_of_get hget u (info.migrate P (salts u))
        have hheld' := held_setUser hget u (info.migrate P (salts u))
        have hroot : (m.setUser a u (info.migrate P (salts u))).rootKey = m.rootKey := by rw [hset]
        refine Prog.CrashWp.bind ?_
        rw [saveUsersJson_of_get (by rw [hset, Dict.get_set, if_pos rfl])]
        refine crashWp_writeJson h.stored ?_ fun hn => ⟨h.stored, hn⟩
        rw [← hroot]
        refine ih ((h.migrate hget hreg hinfo' hno).addEntry
          ((hheld' a u).trans (if_pos ⟨rfl, rfl⟩)) ⟨?_, rfl, (isHash_hash hP _ _).symm⟩) hnodup.2
          (hnext (m.setUser a u (info.migrate P (salts u))) _ _ rfl (by rw [hset]) ?_)
        · rw [hinfo'.indexPrefix_eq hP, hkey]
        · intro u' hu'
          exact (hheld' a u').trans (if_neg fun hau => hu' hau.2)
      · refine ih (h.addEntry hheld ⟨?_, rfl, hhash.symm⟩) hnodup.2
          (hnext m _ _ rfl rfl fun _ _ => rfl)
        rw [hindexed, hkey]
    · rw [hhash, if_pos rfl]
      refine ih (h.addEntry hheld ⟨?_, rfl, hhash.symm⟩) hnodup.2
        (hnext m _ _ rfl rfl fun _ _ => rfl)
      rw [hindexed, hkeyPrefix, Option.getD_some]

omit hP in
/-- The next account is read. -/
theorem Loading.read (h : Loading P reg (a :: rest) m files) (hnot : a ∉ rest) (createdAt : Str) :
    Loading P reg rest
        { m with accounts := m.accounts.set a ⟨createdAt, Files.usersOf files a⟩ } files ∧
      ∀ u, Unindexed m.prefixIndex a u := by
  have hget : m.accounts.get a = none := by
    have hcontains := mt (h.accounts a).1 fun hmem => hmem.2 List.mem_cons_self
    simpa [Dict.contains] using hcontains
  have hheld := held_set (m := m) (a := a)
    { m with accounts := m.accounts.set a ⟨createdAt, Files.usersOf files a⟩ } rfl
  have hno : ∀ u, Unindexed m.prefixIndex a u :=
    fun u => h.index.unindexed (held_of_get_eq_none hget u)
  refine ⟨⟨h.stored, h.listed, fun b => ?_, ?_, ?_, fun b account' hget' u' => ?_⟩, hno⟩
  · by_cases hb : b = a
    · subst hb
      simp [Dict.contains, hnot]
      simpa [Dict.contains] using h.rest b List.mem_cons_self
    · have haccounts := h.accounts b
      rw [List.mem_cons, not_or] at haccounts
      simpa [Dict.contains, hb] using haccounts
  · exact fun b hb => h.rest b (List.mem_cons_of_mem _ hb)
  · intro p e he
    obtain ⟨info, hinfo, hdescribes⟩ := h.index p e he
    exact ⟨info, ((hheld _ _).trans (if_neg fun ha => hno _ p e he ⟨ha, rfl⟩)).trans hinfo,
      hdescribes⟩
  · rw [Dict.get_set] at hget'
    split_ifs at hget' with hb
    · rw [hb, ← Option.some_inj.1 hget']
    · exact h.users b account' hget' u'

theorem loadAccounts_crashWp (salts : Str → Str → ℕ) {accounts : List (Str × Str)}
    (h : Loading P reg (accounts.map Prod.fst) m files) (hnodup : (accounts.map Prod.fst).Nodup) :
    (loadAccounts P salts accounts m).CrashWp exec allowed (LoadEnds P reg [] m.rootKey allowed)
      (Stored P reg) files := by
  induction accounts generalizing m files with
  | nil => exact ⟨h, rfl⟩
  | cons account accounts ih =>
    obtain ⟨a, createdAt⟩ := account
    rw [List.map_cons, List.nodup_cons] at hnodup
    obtain ⟨hread, hno⟩ := h.read hnodup.1 createdAt
    rw [loadAccounts]
    refine Prog.CrashWp.bind (Prog.CrashWp.perform h.stored fun n hn => ?_)
    refine Prog.CrashWp.bind ?_
    refine Prog.CrashWp.mono (fun r files' hends => ?_)
      (loadUsers_crashWp hP allowed (salts a) hread (Files.usersOf files a).nodup ?_)
    · cases r with
      | error error => exact hends
      | ok m' =>
        obtain ⟨hloading, hroot⟩ := hends
        have hrest := ih hloading hnodup.2
        rw [hroot] at hrest
        exact hrest
    · intro user hmem
      refine ⟨?_, hno user.1⟩
      have hget := Dict.get_eq_some_iff.2 hmem
      simpa [Manager.held] using hget

/-- **A load makes of the files what they stand for**; where it is cut off or raises, they still
stand for it. -/
theorem load_crashWp (h : Stored P reg files) (rootKey : Str) (hashing : Bool)
    (salts : Str → Str → ℕ) (now : Str) :
    (load P rootKey hashing salts now).CrashWp exec allowed (LoadEnds P reg [] rootKey allowed)
      (Stored P reg) files := by
  have hload : ∀ {files : Files} {data : Document}, Stored P reg files →
      files.get accountsPath = some data →
      (loadAccounts P salts data.accountsData.entries (newManager rootKey hashing)).CrashWp exec
        allowed (LoadEnds P reg [] rootKey allowed) (Stored P reg) files := by
    intro files data hstored hget
    have hdata : data.accountsData = Files.accounts files := by simp [Files.accounts, hget]
    rw [hdata]
    refine loadAccounts_crashWp hP allowed salts (m := newManager rootKey hashing)
      ⟨hstored, by simp [hget], fun a => ?_, fun a ha => ?_, fun p e he => ?_, fun a account ha => ?_⟩
      (Files.accounts files).nodup
    · rw [← Dict.get_eq_none_iff]
      simp [newManager, Dict.contains, Option.isSome_iff_ne_none]
    · rw [Dict.contains, Option.isSome_iff_ne_none]
      exact fun hnone => Dict.get_eq_none_iff.1 hnone ha
    · cases he
    · cases ha
  rw [load]
  refine Prog.CrashWp.bind (Prog.CrashWp.perform h fun n hn => ?_)
  dsimp only [exec]
  cases hget : files.get accountsPath with
  | some data => exact hload h hget
  | none =>
    have hstored : Stored P reg
        (files.set accountsPath (.accounts (Dict.empty.set "default".toList now))) := by
      refine ⟨fun a u => ?_, fun hnone => by simp at hnone⟩
      have hnone : reg a u = none := by
        have hrel := h.users a u
        rw [Files.held, Files.accounts, hget] at hrel
        cases hreg : reg a u with
        | none => rfl
        | some c => simp [hreg, Dict.contains] at hrel
      rw [Files.held, usersOf_set_accountsPath, h.fresh hget, ite_self, hnone]
      exact .none
    refine Prog.CrashWp.bind (crashWp_writeJson h ?_ fun hn => ⟨h, hn⟩)
    exact hload hstored (by rw [Dict.get_set, if_pos rfl])

end Load

end OpenViking.ApiKeys
