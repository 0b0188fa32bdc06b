import OpenViking.ApiKeys.Histories

/-!
# The admin API

The endpoints that make, list and remove users (`server/routers/admin.py`), in `api_key` mode, over
the manager.  What the endpoints do besides (directories, user configurations) is left out.

Results:

* `adminHistory_inv`: the calls of any callers keep the memory, the files and the registry together.
-/

namespace OpenViking.ApiKeys

open Fs (Str validateUserId)

local instance Str.lawfulBEqAdminApi : LawfulBEq Str := inferInstance

/-! ## Model -/

/-- `Role.ROOT`, `Role.ADMIN` and `Role.USER` (`identity.py`). -/
def roleRoot : Str := "root".toList

def roleAdmin : Str := "admin".toList

def roleUser : Str := "user".toList

/-- What the checks see of a `RequestContext`. -/
structure RequestContext where
  role : Str
  accountId : Str

/-- `get_request_context` on what `ApiKeyAuthPlugin.resolve_identity` makes of the key (77-80). -/
def ResolvedIdentity.context (identity : ResolvedIdentity) : RequestContext where
  role := identity.role
  accountId :=
    if identity.accountId.getD [] = [] then "default".toList else identity.accountId.getD []

/-- A call of an endpoint. -/
inductive AdminCall where
  | createAccount (accountId adminUserId : Str)
  | deleteAccount (accountId : Str)
  | registerUser (accountId userId role : Str)
  | listUsers (accountId : Str) (limit : ℤ) (name role : Option Str)
  | removeUser (accountId userId : Str)
  | setUserRole (accountId userId role : Str)
  | regenerateKey (accountId userId : Str)

/-- `require_auth_role` (`auth/__init__.py`, 257-302); the message where it raises. -/
def requireAuthRole (allowedRoles : List Str) (ctx : RequestContext) : Option Str :=
  if ctx.role ∈ allowedRoles then none
  else some ("Requires role: ".toList ++ List.intercalate ", ".toList allowedRoles)

/-- `_check_account_access` (81-84). -/
def checkAccountAccess (ctx : RequestContext) (accountId : Str) : Option Str :=
  if ctx.role = roleAdmin ∧ ctx.accountId ≠ accountId then
    some ("ADMIN can only manage account: ".toList ++ ctx.accountId)
  else none

/-- `_validate_register_user_role` (120-137). -/
def validateRegisterUserRole (role : Str) : Option Str :=
  if role = roleRoot then
    some ("register_user cannot mint ROOT users; ".toList ++
      "use the ROOT-only set_role endpoint instead.".toList)
  else none

/-- The message of the `PermissionDeniedError` that a call ends with. -/
def AdminCall.denied (ctx : RequestContext) : AdminCall → Option Str
  | createAccount _ _ => requireAuthRole [roleRoot] ctx
  | deleteAccount _ => requireAuthRole [roleRoot] ctx
  | registerUser accountId _ role =>
    (requireAuthRole [roleRoot, roleAdmin] ctx).or
      ((checkAccountAccess ctx accountId).or (validateRegisterUserRole role))
  | listUsers accountId _ _ _ =>
    (requireAuthRole [roleRoot, roleAdmin] ctx).or (checkAccountAccess ctx accountId)
  | removeUser accountId _ =>
    (requireAuthRole [roleRoot, roleAdmin] ctx).or (checkAccountAccess ctx accountId)
  | setUserRole _ _ _ => requireAuthRole [roleRoot] ctx
  | regenerateKey accountId _ =>
    (requireAuthRole [roleRoot, roleAdmin] ctx).or (checkAccountAccess ctx accountId)

/-- An entry of the list of users. -/
structure UserData where
  userId : Str
  role : Str
  keyPrefix : Option Str
  apiKey : Option Str
  deriving DecidableEq

/-- The entry of a user, with `expose_key` (`legacy.py`, 519-534). -/
def UserInfo.data (userId : Str) (info : UserInfo) : UserData where
  userId := userId
  role := info.role
  keyPrefix := if isHash info.key then info.keyPrefix.filter (· ≠ []) else none
  apiKey := if info.key = [] ∨ isHash info.key then none else some info.key

/-- The filters of `get_users`, where they are given (507-513). -/
def UserInfo.selected (fnmatch : Str → Str → Bool) (name role : Option Str) (userId : Str)
    (info : UserInfo) : Bool :=
  (name.getD [] = [] || fnmatch userId (name.getD [])) &&
    (role.getD [] = [] || info.role = role.getD [])

/-- The loop of `get_users` (503-537), with the number of users listed so far. -/
def listEntries (fnmatch : Str → Str → Bool) (limit : ℤ) (name role : Option Str) :
    List (Str × UserInfo) → ℕ → List (Str × UserInfo)
  | [], _ => []
  | e :: users, count =>
    if UserInfo.selected fnmatch name role e.1 e.2 then
      if limit ≤ count then [] else e :: listEntries fnmatch limit name role users (count + 1)
    else listEntries fnmatch limit name role users count

/-- What an endpoint answers. -/
inductive AdminResponse where
  | permissionDenied (message : Str)
  | error (error : ApiError)
  | userKey (key : Str)
  | users (data : List UserData)
  | done

/-- The keys in a response. -/
def AdminResponse.keys : AdminResponse → List Str
  | userKey key => [key]
  | users data => data.filterMap UserData.apiKey
  | _ => []

/-- The operation of the manager that an endpoint calls; `list_users` changes nothing. -/
def AdminCall.op : AdminCall → Option Op
  | createAccount accountId adminUserId => some (.createAccount accountId adminUserId)
  | deleteAccount accountId => some (.deleteAccount accountId)
  | registerUser accountId userId role => some (.registerUser accountId userId role)
  | listUsers _ _ _ _ => none
  | removeUser accountId userId => some (.removeUser accountId userId)
  | setUserRole accountId userId role => some (.setRole accountId userId role)
  | regenerateKey accountId userId => some (.regenerateKey accountId userId)

/-- What the manager's answer is made into. -/
def respond : Except ApiError (Option Str) → AdminResponse
  | .error error => .error error
  | .ok (some key) => .userKey key
  | .ok none => .done

/-- `get_users` (487-540). -/
def getUsers (fnmatch : Str → Str → Bool) (m : Manager) (accountId : Str) (limit : ℤ)
    (name role : Option Str) : AdminResponse :=
  match m.accounts.get accountId with
  | none => .error (.notFound accountId "account")
  | some account =>
    .users ((listEntries fnmatch limit name role account.users.entries 0).map fun e => e.2.data e.1)

/-- What an endpoint answers that calls no operation. -/
def AdminCall.look (fnmatch : Str → Str → Bool) (m : Manager) : AdminCall → AdminResponse
  | listUsers accountId limit name role => getUsers fnmatch m accountId limit name role
  | _ => .done

/-- A request: the caller's key is resolved, the checks are made, and the endpoint runs. -/
def serve (P : Primitives) (fnmatch : Str → Str → Bool) (s : System) (callerKey : Str)
    (call : AdminCall) (draw : Draw) : Option (AdminResponse × System) :=
  match s.manager.resolve P callerKey with
  | .error error => some (.error error, s)
  | .ok identity =>
    match call.denied identity.context with
    | some message => some (.permissionDenied message, s)
    | none =>
      match call.op with
      | none => some (call.look fnmatch s.manager, s)
      | some op =>
        ((op.run P s.manager draw).eval exec 0 s.files).map fun end' =>
          (respond end'.1.1, ⟨end'.1.2, end'.2, s.registry.record op end'.1.1⟩)

/-- A request of a caller, or a restart of the server. -/
inductive AdminEvent where
  | request (callerKey : Str) (call : AdminCall) (draw : Draw)
  | restart (start : Start)

def adminStep (P : Primitives) (fnmatch : Str → Str → Bool) (rootKey : Str) (s : System) :
    AdminEvent → Option System
  | .request callerKey call draw => (serve P fnmatch s callerKey call draw).map Prod.snd
  | .restart start => boot P rootKey start s.files s.registry

/-- The first manager loads an empty store; then the requests come. -/
def adminHistory (P : Primitives) (fnmatch : Str → Str → Bool) (rootKey : Str) (first : Start)
    (events : List AdminEvent) : Option System :=
  (boot P rootKey first Dict.empty fun _ _ => none).bind fun s =>
    events.foldlM (adminStep P fnmatch rootKey) s

/-! ## What is asked for -/

/-- Every key of the response opens the account after the call, and not as `ROOT`, and no user who is
`ROOT` is removed or has the key replaced. -/
structure Contained (P : Primitives) (accountId : Str) (s s' : System) (response : AdminResponse) :
    Prop where
  keys : ∀ key ∈ response.keys, ∃ role userId,
    s'.manager.resolve P key = .ok ⟨role, some accountId, userId⟩ ∧ role ≠ roleRoot
  roots : ∀ a u info, s.manager.held a u = some info → info.role = roleRoot →
    ∃ info', s'.manager.held a u = some info' ∧ info'.key = info.key

/-- The call of an administrator is about no user who is `ROOT`, and about no key that is the root
key; for a user there is nothing to ask. -/
def Unprivileged (P : Primitives) (fnmatch : Str → Str → Bool) (m : Manager) (callerRole : Str)
    (accountId : Str) (draw : Draw) : AdminCall → Prop
  | .registerUser a u role =>
    callerRole = roleAdmin → a = accountId → role ≠ roleRoot → validateUserId u = none →
      (m.accounts.get a).isSome → m.held a u = none → generateApiKey P a u draw.secret ≠ m.rootKey
  | .listUsers a limit name role =>
    callerRole = roleAdmin → a = accountId → ∀ account, m.accounts.get a = some account →
      ∀ e ∈ listEntries fnmatch limit name role account.users.entries 0,
        isHash e.2.key = false → e.2.role ≠ roleRoot ∧ e.2.key ≠ m.rootKey
  | .removeUser a u =>
    callerRole = roleAdmin → a = accountId → ∀ info, m.held a u = some info → info.role ≠ roleRoot
  | .regenerateKey a u =>
    callerRole = roleAdmin → a = accountId → ∀ info, m.held a u = some info →
      info.role ≠ roleRoot ∧ generateApiKey P a u draw.secret ≠ m.rootKey
  | _ => True

/-! ## Histories -/

section Histories

variable {P : Primitives} (hP : P.Sound) {fnmatch : Str → Str → Bool} {rootKey : Str}
include hP

variable {s : System}

/-- An operation that ends well has done what the registry records. -/
theorem holds_of_eval (h : s.Inv P rootKey) {op : Op} {draw : Draw}
    {result : Option Str} {m' : Manager} {files' : Files}
    (heval : (op.run P s.manager draw).eval exec 0 s.files = some ((.ok result, m'), files')) :
    Holds P m' (s.registry.record op (.ok result)) ∧ m'.rootKey = s.manager.rootKey := by
  obtain ⟨error, hrun⟩ | ⟨m'', result', hrun, hholds, heffect⟩ := h.holds.run_splits hP op draw
  · rw [hrun] at heval
    cases heval
  · obtain ⟨files'', hsave, -⟩ := Op.save_succeeds h.backed heffect hholds
    rw [hrun, hsave] at heval
    cases heval
    exact ⟨hholds, heffect.rootKey⟩

/-- A request keeps the memory, the files and the registry together. -/
theorem serve_inv (fnmatch : Str → Str → Bool) (h : s.Inv P rootKey) (callerKey : Str) (call : AdminCall)
    (draw : Draw) :
    ∃ response s', serve P fnmatch s callerKey call draw = some (response, s') ∧
      s'.Inv P rootKey := by
  unfold serve
  cases s.manager.resolve P callerKey with
  | error error => exact ⟨_, s, rfl, h⟩
  | ok identity =>
    cases hdenied : call.denied identity.context with
    | some message => exact ⟨.permissionDenied message, s, by simp only [hdenied], h⟩
    | none =>
      cases hop : call.op with
      | none => exact ⟨call.look fnmatch s.manager, s, by simp only [hdenied], h⟩
      | some op =>
        obtain ⟨s', hstep, hinv⟩ := step_inv hP h (.call op draw)
        unfold step at hstep
        obtain ⟨end', heval, rfl⟩ := Option.map_eq_some_iff.1 hstep
        refine ⟨respond end'.1.1, _, ?_, hinv⟩
        simp only [hdenied, heval]
        rfl

/-- The calls of any callers keep the memory, the files and the registry together. -/
theorem adminHistory_inv {first : Start} {events : List AdminEvent}
    (h : adminHistory P fnmatch rootKey first events = some s) : s.Inv P rootKey := by
  obtain ⟨s₀, hboot, hinv, -⟩ := boot_inv hP (stored_empty (P := P)) rootKey first
  unfold adminHistory at h
  rw [hboot, Option.bind_some] at h
  clear hboot
  induction events generalizing s₀ with
  | nil =>
    obtain rfl := Option.some.inj h
    exact hinv
  | cons event events ih =>
    rw [List.foldlM_cons] at h
    obtain ⟨s₁, hstep, hrest⟩ := Option.bind_eq_some_iff.1 h
    refine ih s₁ hrest ?_
    cases event with
    | request callerKey call draw =>
      obtain ⟨response, s', hserve, hinv'⟩ := serve_inv hP fnmatch hinv callerKey call draw
      simp only [adminStep, hserve] at hstep
      obtain rfl := Option.some.inj hstep
      exact hinv'
    | restart start =>
      obtain ⟨s', hs', hinv', -⟩ := boot_inv hP hinv.backed.stored rootKey start
      simp only [adminStep, hs'] at hstep
      obtain rfl := Option.some.inj hstep
      exact hinv'

end Histories

end OpenViking.ApiKeys
