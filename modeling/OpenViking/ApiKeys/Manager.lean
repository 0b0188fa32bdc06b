import OpenViking.ApiKeys.Keys
import OpenViking.Common.Dict
import OpenViking.Common.Prog

/-!
# The API key managers

`LegacyAPIKeyManager` (`server/api_keys/legacy.py`) and `NewAPIKeyManager`
(`server/api_keys/new.py`): the accounts and the key index in memory, and the JSON files behind
them.  An operation is a program over the reads and writes of the files; it ends with what it
returns or raises and the manager it leaves behind.

* `usersPath_injective`, `usersPath_ne_accountsPath`: no two files share a path.
-/

namespace OpenViking.ApiKeys

open Fs (Str validateAccountId validateUserId)

/-! ## Data -/

/-- A user's entry in `users.json`. -/
structure UserInfo where
  role : Str
  key : Str
  keyPrefix : Option Str
  deriving DecidableEq

/-- `AccountInfo`. -/
structure AccountInfo where
  createdAt : Str
  users : Dict Str UserInfo

/-- `UserKeyEntry`. -/
structure UserKeyEntry where
  accountId : Str
  userId : Str
  role : Str
  keyOrHash : Str
  isHashed : Bool
  deriving DecidableEq

/-- `_prefix_index`. -/
abbrev PrefixIndex := Dict Str (List UserKeyEntry)

/-- A manager: what `__init__` is given, the accounts and the index. -/
structure Manager where
  rootKey : Str
  hashingEnabled : Bool
  accounts : Dict Str AccountInfo
  prefixIndex : PrefixIndex

/-- `ResolvedIdentity`; the root key has no account. -/
structure ResolvedIdentity where
  role : Str
  accountId : Option Str
  userId : Option Str
  deriving DecidableEq

/-- What `secrets.token_hex(32)`, Argon2 and the clock give to one operation. -/
structure Draw where
  secret : Str
  salt : ℕ
  now : Str

/-! ## Files -/

/-- A JSON file: `{"accounts": ...}` with the times of creation, or `{"users": ...}`. -/
inductive Document where
  | accounts (data : Dict Str Str)
  | users (data : Dict Str UserInfo)

/-- `data.get("accounts", {})`. -/
def Document.accountsData : Document → Dict Str Str
  | accounts data => data
  | users _ => Dict.empty

/-- `data.get("users", {})`. -/
def Document.usersData : Document → Dict Str UserInfo
  | accounts _ => Dict.empty
  | users data => data

/-- The files by their paths. -/
abbrev Files := Dict Str Document

/-- `ACCOUNTS_PATH`. -/
def accountsPath : Str := "/local/_system/accounts.json".toList

/-- `USERS_PATH_TEMPLATE`. -/
def usersPath (accountId : Str) : Str :=
  "/local/".toList ++ (accountId ++ "/_system/users.json".toList)

theorem usersPath_injective {a b : Str} (h : usersPath a = usersPath b) : a = b :=
  List.append_cancel_right (List.append_cancel_left h)

theorem usersPath_ne_accountsPath (a : Str) : usersPath a ≠ accountsPath := by
  intro h
  have hname : "/users.json".toList <:+ "/_system/users.json".toList := by decide +kernel
  have hsuffix : "/users.json".toList <:+ usersPath a :=
    hname.trans ((List.suffix_append _ _).trans (List.suffix_append _ _))
  rw [h] at hsuffix
  exact absurd hsuffix (by decide +kernel)

/-- Reads and writes of JSON files. -/
inductive Call where
  | readJson (path : Str)
  | writeJson (path : Str) (data : Document)

/-- `_read_json` gives `None` for a file that is not there; `_write_json` may raise. -/
abbrev Answer : Call → Type
  | .readJson _ => Option Document
  | .writeJson _ _ => Except ApiError Unit

/-- A write that is resolved by `0` succeeds; any other raises and leaves its file unchanged. -/
def exec : (c : Call) → Files → ℕ → Answer c × Files
  | .readJson path, files, _ => (files.get path, files)
  | .writeJson path data, files, 0 => (.ok (), files.set path data)
  | .writeJson _ _, files, _ + 1 => (.error .saveFailed, files)

/-- `_read_json` (624-636). -/
def readJson (path : Str) : Prog Answer (Option Document) := Prog.perform (Call.readJson path)

/-- `_write_json` (638-645). -/
def writeJson (path : Str) (data : Document) : Prog Answer (Except ApiError Unit) :=
  Prog.perform (Call.writeJson path data)

/-! ## The key index -/

/-- The prefix under which `info` is indexed (92-94, 369-371): its own, else that of its key. -/
def UserInfo.indexPrefix (info : UserInfo) : Str :=
  let keyPrefix := info.keyPrefix.getD []
  if keyPrefix = [] then getKeyPrefix info.key else keyPrefix

/-- Drop the entries of a user under a prefix, and the prefix when no entry is left (96-105). -/
def dropEntries (index : PrefixIndex) (keyPrefix accountId userId : Str) : PrefixIndex :=
  match index.get keyPrefix with
  | none => index
  | some entries =>
    let entries := entries.filter fun e => !(e.accountId == accountId && e.userId == userId)
    if entries = [] then index.erase keyPrefix else index.set keyPrefix entries

/-- Append an entry under its prefix, when there is a prefix (172-176). -/
def addEntry (index : PrefixIndex) (keyPrefix : Str) (entry : UserKeyEntry) : PrefixIndex :=
  if keyPrefix = [] then index
  else index.set keyPrefix ((index.get keyPrefix).getD [] ++ [entry])

/-- Set the role of the first entry of a user (474-477). -/
def setFirstRole (accountId userId role : Str) : List UserKeyEntry → List UserKeyEntry
  | [] => []
  | e :: entries =>
    if e.accountId = accountId ∧ e.userId = userId then { e with role := role } :: entries
    else e :: setFirstRole accountId userId role entries

def setEntryRole (index : PrefixIndex) (keyPrefix accountId userId role : Str) : PrefixIndex :=
  match index.get keyPrefix with
  | none => index
  | some entries => index.set keyPrefix (setFirstRole accountId userId role entries)

/-! ## `resolve` -/

/-- The candidates of a prefix, one after the other (192-214). -/
def matchEntries (P : Primitives) (apiKey : Str) :
    List UserKeyEntry → Except ApiError ResolvedIdentity
  | [] => .error (.unauthenticated "Invalid API Key")
  | e :: entries =>
    if e.isHashed then
      match P.verify e.keyOrHash apiKey with
      | none => .error .invalidHash
      | some true => .ok ⟨e.role, some e.accountId, some e.userId⟩
      | some false => matchEntries P apiKey entries
    else
      match compareDigest apiKey e.keyOrHash with
      | .error error => .error error
      | .ok true => .ok ⟨e.role, some e.accountId, some e.userId⟩
      | .ok false => matchEntries P apiKey entries

/-- `LegacyAPIKeyManager.resolve` (184-214). -/
def legacyResolve (P : Primitives) (m : Manager) (apiKey : Str) :
    Except ApiError ResolvedIdentity :=
  if apiKey = [] then .error (.unauthenticated "Missing API Key")
  else
    match compareDigest apiKey m.rootKey with
    | .error error => .error error
    | .ok true => .ok ⟨"root".toList, none, none⟩
    | .ok false => matchEntries P apiKey ((m.prefixIndex.get (getKeyPrefix apiKey)).getD [])

/-- The fast path for keys in the new format (127-159); where it raises it is left. -/
def decodeIdentity (P : Primitives) (m : Manager) (apiKey : Str) : Option ResolvedIdentity :=
  if isNewFormatKey apiKey then
    match parseApiKey P apiKey with
    | none => none
    | some (accountId, userId, _) =>
      match (m.accounts.get accountId).bind fun account => account.users.get userId with
      | none => none
      | some info =>
        if info.key = [] then none
        else if isHash (info.keyPrefix.getD []) || isHash info.key then
          match P.verify info.key apiKey with
          | some true => some ⟨info.role, some accountId, some userId⟩
          | _ => none
        else
          match compareDigest apiKey info.key with
          | .ok true => some ⟨info.role, some accountId, some userId⟩
          | _ => none
  else none

/-- `NewAPIKeyManager.resolve` (112-162). -/
def Manager.resolve (P : Primitives) (m : Manager) (apiKey : Str) :
    Except ApiError ResolvedIdentity :=
  if apiKey = [] then .error (.unauthenticated "Missing API Key")
  else
    match compareDigest apiKey m.rootKey with
    | .error error => .error error
    | .ok true => .ok ⟨"root".toList, none, none⟩
    | .ok false =>
      match decodeIdentity P m apiKey with
      | some identity => .ok identity
      | none => legacyResolve P m apiKey

/-! ## Saves -/

/-- The accounts as they are listed. -/
def Manager.createdAt (m : Manager) : Dict Str Str := m.accounts.mapValues AccountInfo.createdAt

/-- `_save_accounts_json` (654-672). -/
def saveAccountsJson (m : Manager) : Prog Answer (Except ApiError Unit) :=
  writeJson accountsPath (.accounts m.createdAt)

/-- `_save_users_json` (674-690). -/
def saveUsersJson (m : Manager) (accountId : Str) : Prog Answer (Except ApiError Unit) :=
  match m.accounts.get accountId with
  | none => .ret (.ok ())
  | some account => writeJson (usersPath accountId) (.users account.users)

/-- What an operation returns (a key or `None`) or raises, and the manager. -/
abbrev Outcome := Except ApiError (Option Str) × Manager

/-- The end of an operation that has changed a user in memory: save the users and return. -/
def saveAndReturn (m : Manager) (accountId : Str) (result : Option Str) : Prog Answer Outcome := do
  match ← saveUsersJson m accountId with
  | .error error => return (.error error, m)
  | .ok () => return (.ok result, m)

/-! ## Operations -/

/-- A new key as it is stored and indexed (`new.py` 200-224, 274-298). -/
def newUserInfo (P : Primitives) (m : Manager) (role key : Str) (salt : ℕ) : UserInfo :=
  if m.hashingEnabled then ⟨role, P.hash salt key, some (getKeyPrefix key)⟩ else ⟨role, key, none⟩

def newEntry (m : Manager) (accountId userId : Str) (info : UserInfo) : UserKeyEntry :=
  ⟨accountId, userId, info.role, info.key, m.hashingEnabled⟩

/-- Set the entry of a user of an account that is there. -/
def Manager.setUser (m : Manager) (accountId userId : Str) (info : UserInfo) : Manager :=
  match m.accounts.get accountId with
  | none => m
  | some account =>
    { m with
      accounts := m.accounts.set accountId { account with users := account.users.set userId info } }

/-- `_discard_account_state` (81-105). -/
def discardAccountState (m : Manager) (accountId : Str) : Manager :=
  match m.accounts.get accountId with
  | none => m
  | some account =>
    { m with
      accounts := m.accounts.erase accountId
      prefixIndex := account.users.entries.foldl
        (fun index e =>
          if e.2.key = [] then index else dropEntries index e.2.indexPrefix accountId e.1)
        m.prefixIndex }

/-- `_rollback_create_account` (107-113), and the error again. -/
def rollbackCreateAccount (m : Manager) (accountId : Str) (error : ApiError) :
    Prog Answer Outcome := do
  let m := discardAccountState m accountId
  let _ ← saveAccountsJson m
  return (.error error, m)

/-- The end of `create_account` (235-241): save the account and its user, or undo it. -/
def saveNewAccount (m : Manager) (accountId : Str) (result : Option Str) : Prog Answer Outcome := do
  match ← saveAccountsJson m with
  | .error error => rollbackCreateAccount m accountId error
  | .ok () =>
    match ← saveUsersJson m accountId with
    | .error error => rollbackCreateAccount m accountId error
    | .ok () => return (.ok result, m)

/-- `NewAPIKeyManager.create_account` (164-241). -/
def createAccount (P : Primitives) (m : Manager) (accountId adminUserId : Str) (draw : Draw) :
    Prog Answer Outcome :=
  match validateAccountId accountId with
  | some verr => .ret (.error (.invalidArgument verr), m)
  | none =>
    match validateUserId adminUserId with
    | some verr => .ret (.error (.invalidArgument verr), m)
    | none =>
      let key := generateApiKey P accountId adminUserId draw.secret
      if m.accounts.contains accountId then .ret (.error (.alreadyExists accountId "account"), m)
      else
        let info := newUserInfo P m "admin".toList key draw.salt
        let m :=
          { m with
            accounts := m.accounts.set accountId ⟨draw.now, Dict.empty.set adminUserId info⟩
            prefixIndex := addEntry m.prefixIndex (getKeyPrefix key)
              (newEntry m accountId adminUserId info) }
        saveNewAccount m accountId (some key)

/-- The end of `delete_account`. -/
def saveAccountsAndReturn (m : Manager) (result : Option Str) : Prog Answer Outcome := do
  match ← saveAccountsJson m with
  | .error error => return (.error error, m)
  | .ok () => return (.ok result, m)

/-- `delete_account` (287-294). -/
def deleteAccount (m : Manager) (accountId : Str) : Prog Answer Outcome :=
  if m.accounts.contains accountId then
    saveAccountsAndReturn (discardAccountState m accountId) none
  else .ret (.error (.notFound accountId "account"), m)

/-- `NewAPIKeyManager.register_user` (247-306). -/
def registerUser (P : Primitives) (m : Manager) (accountId userId role : Str) (draw : Draw) :
    Prog Answer Outcome :=
  match validateUserId userId with
  | some verr => .ret (.error (.invalidArgument verr), m)
  | none =>
    match m.accounts.get accountId with
    | none => .ret (.error (.notFound accountId "account"), m)
    | some account =>
      if account.users.contains userId then .ret (.error (.alreadyExists userId "user"), m)
      else
        let key := generateApiKey P accountId userId draw.secret
        let info := newUserInfo P m role key draw.salt
        let m :=
          { m.setUser accountId userId info with
            prefixIndex := addEntry m.prefixIndex (getKeyPrefix key)
              (newEntry m accountId userId info) }
        saveAndReturn m accountId (some key)

/-- The checks that `remove_user`, `regenerate_key` and `set_role` begin with. -/
def withUser (m : Manager) (accountId userId : Str)
    (body : AccountInfo → UserInfo → Prog Answer Outcome) : Prog Answer Outcome :=
  match m.accounts.get accountId with
  | none => .ret (.error (.notFound accountId "account"), m)
  | some account =>
    match account.users.get userId with
    | none => .ret (.error (.notFound userId "user"), m)
    | some info => body account info

/-- `remove_user` (356-384). -/
def removeUser (m : Manager) (accountId userId : Str) : Prog Answer Outcome :=
  withUser m accountId userId fun account info =>
    let m :=
      { m with
        accounts := m.accounts.set accountId { account with users := account.users.erase userId }
        prefixIndex :=
          if info.key = [] then m.prefixIndex
          else dropEntries m.prefixIndex info.indexPrefix accountId userId }
    saveAndReturn m accountId none

/-- `NewAPIKeyManager.regenerate_key` (312-385). -/
def regenerateKey (P : Primitives) (m : Manager) (accountId userId : Str) (draw : Draw) :
    Prog Answer Outcome :=
  withUser m accountId userId fun _ info =>
    let index := dropEntries m.prefixIndex info.indexPrefix accountId userId
    let newKey := generateApiKey P accountId userId draw.secret
    let info := newUserInfo P m info.role newKey draw.salt
    let m :=
      { m.setUser accountId userId info with
        prefixIndex := addEntry index (getKeyPrefix newKey) (newEntry m accountId userId info) }
    saveAndReturn m accountId (some newKey)

/-- `set_role` (454-479). -/
def setRole (m : Manager) (accountId userId role : Str) : Prog Answer Outcome :=
  withUser m accountId userId fun _ info =>
    let m :=
      { m.setUser accountId userId { info with role := role } with
        prefixIndex :=
          if info.key = [] then m.prefixIndex
          else setEntryRole m.prefixIndex info.indexPrefix accountId userId role }
    saveAndReturn m accountId none

/-- The six operations. -/
inductive Op where
  | createAccount (accountId adminUserId : Str)
  | deleteAccount (accountId : Str)
  | registerUser (accountId userId role : Str)
  | removeUser (accountId userId : Str)
  | regenerateKey (accountId userId : Str)
  | setRole (accountId userId role : Str)

def Op.run (P : Primitives) (m : Manager) (draw : Draw) : Op → Prog Answer Outcome
  | createAccount accountId adminUserId => ApiKeys.createAccount P m accountId adminUserId draw
  | deleteAccount accountId => ApiKeys.deleteAccount m accountId
  | registerUser accountId userId role => ApiKeys.registerUser P m accountId userId role draw
  | removeUser accountId userId => ApiKeys.removeUser m accountId userId
  | regenerateKey accountId userId => ApiKeys.regenerateKey P m accountId userId draw
  | setRole accountId userId role => ApiKeys.setRole m accountId userId role

/-! ## `load` -/

/-- A record with a plain key, migrated (144-153). -/
def UserInfo.migrate (P : Primitives) (info : UserInfo) (salt : ℕ) : UserInfo :=
  { info with key := P.hash salt info.key, keyPrefix := some (getKeyPrefix info.key) }

/-- The keys of one account (134-176): index them, and hash the plain ones if hashing is on. -/
def loadUsers (P : Primitives) (accountId : Str) (salts : Str → ℕ) :
    List (Str × UserInfo) → Manager → Prog Answer (Except ApiError Manager)
  | [], m => .ret (.ok m)
  | (userId, info) :: users, m =>
    if info.key = [] then loadUsers P accountId salts users m
    else if isHash info.key then
      loadUsers P accountId salts users
        { m with
          prefixIndex := addEntry m.prefixIndex (info.keyPrefix.getD [])
            ⟨accountId, userId, info.role, info.key, true⟩ }
    else if m.hashingEnabled then do
      let migrated := info.migrate P (salts userId)
      let m := m.setUser accountId userId migrated
      match ← saveUsersJson m accountId with
      | .error error => return .error error
      | .ok () =>
        loadUsers P accountId salts users
          { m with
            prefixIndex := addEntry m.prefixIndex (getKeyPrefix info.key)
              ⟨accountId, userId, info.role, migrated.key, true⟩ }
    else
      loadUsers P accountId salts users
        { m with
          prefixIndex := addEntry m.prefixIndex (getKeyPrefix info.key)
            ⟨accountId, userId, info.role, info.key, false⟩ }

/-- The accounts, one after the other (124-132). -/
def loadAccounts (P : Primitives) (salts : Str → Str → ℕ) :
    List (Str × Str) → Manager → Prog Answer (Except ApiError Manager)
  | [], m => .ret (.ok m)
  | (accountId, createdAt) :: accounts, m => do
    let usersData ← readJson (usersPath accountId)
    let users : Dict Str UserInfo := (usersData.map Document.usersData).getD Dict.empty
    let m := { m with accounts := m.accounts.set accountId ⟨createdAt, users⟩ }
    match ← loadUsers P accountId (salts accountId) users.entries m with
    | .error error => return .error error
    | .ok m => loadAccounts P salts accounts m

/-- A new manager (`__init__`). -/
def newManager (rootKey : Str) (hashingEnabled : Bool) : Manager :=
  ⟨rootKey, hashingEnabled, Dict.empty, Dict.empty⟩

/-- `load` (115-182) of a new manager; the first run makes the account `default`. -/
def load (P : Primitives) (rootKey : Str) (hashingEnabled : Bool) (salts : Str → Str → ℕ)
    (now : Str) : Prog Answer (Except ApiError Manager) := do
  match ← readJson accountsPath with
  | some data =>
    loadAccounts P salts data.accountsData.entries (newManager rootKey hashingEnabled)
  | none =>
    let data : Dict Str Str := Dict.empty.set "default".toList now
    match ← writeJson accountsPath (.accounts data) with
    | .error error => return .error error
    | .ok () => loadAccounts P salts data.entries (newManager rootKey hashingEnabled)

end OpenViking.ApiKeys
