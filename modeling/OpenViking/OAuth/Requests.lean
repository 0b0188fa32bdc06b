import OpenViking.OAuth.Store
import OpenViking.Common.System

/-!
# OAuth requests

The requests that turn an approval into tokens: `authorize` and the two exchanges of
`OpenVikingOAuthProvider` (`openviking/server/oauth/provider.py`), and `authorize_page_status` and
`oauth_verify` (`openviking/server/oauth/router.py`).  Any number of them are under way at a time.  A
request is a thread that makes one call of the store at each step, so its state is the point before
its next call, with what it has read so far; between two calls of a request come calls of the others
and runs of `gc_expired`.

A request mints at most one secret of each sort, and a minted secret never repeats: a secret is named
by the request that minted it.  Clients may present any secret.

An exchange is made the way the token handler of the protocol library makes it: it loads the code or
the token and, if that returns one, exchanges it.  What the handler checks in between of a code (its
challenge) may end the request there, as may anything that stops a request: it is then never advanced
again.
-/

namespace OpenViking.OAuth

/-! ## Credentials -/

/-- What a request mints, named by the request. -/
inductive Credential where
  | pending (request : ℕ)
  | code (request : ℕ)
  | access (request : ℕ)
  | refresh (request : ℕ)
  deriving DecidableEq

/-- The request that minted it. -/
def Credential.minter : Credential → ℕ
  | .pending i => i
  | .code i => i
  | .access i => i
  | .refresh i => i

def Credential.isAccess : Credential → Bool
  | .access _ => true
  | _ => false

/-- A credential that was put in the store, with the one that it was issued from. -/
abbrev Issue := Credential × Credential

/-! ## What the requests take as given -/

/-- The settings of the server, and the string functions of the language. -/
structure Server where
  accessTtl : ℕ
  refreshTtl : ℕ
  codeTtl : ℕ
  /-- `Role._CUSTOM_RANK` -/
  customRank : String → Option ℤ
  /-- `str.strip` -/
  strip : String → String
  /-- `str.lower` -/
  lower : String → String
  /-- `str.upper` -/
  upper : String → String
  /-- `str.split` -/
  split : String → List String

/-- `Role.rank` (`openviking/server/identity.py`, lines 33-53). -/
def Server.rank (V : Server) (role : String) : ℤ :=
  if role = "user" then 0
  else if role = "admin" then 1
  else if role = "root" then 2
  else (V.customRank role).getD 0

/-- The role check of `exchange_refresh_token` (lines 294-317); `currentRole` is what the role
resolver returns, and `none` when there is none or it raises. -/
def Server.downgraded (V : Server) (role : String) (currentRole : Option String) : Bool :=
  currentRole.any fun current => V.rank role > V.rank current

/-! ## Threads -/

/-- The body of an `oauth_verify` request and the context of its caller. -/
structure VerifyRequest where
  fromOauth : Bool
  accountId : String
  userId : String
  role : String
  /-- what `get_user_key_fingerprint` returns for the caller -/
  verifierFp : Option String
  decision : String
  pendingId : Option ℕ
  code : Option String
  deriving DecidableEq

/-- An answer. -/
inductive Reply where
  /-- the URL of the authorize page -/
  | authorizePage (pendingId : ℕ)
  /-- the page's status -/
  | expired
  | pending
  | approved (code : ℕ) (redirectUri : String) (state : Option String)
  /-- `oauth_verify` -/
  | denied
  | verified (clientId : String)
  | permissionDenied (message : String)
  | invalidArgument (message : String)
  /-- the token endpoint; the handler's own refusal when nothing was loaded -/
  | notLoaded
  | invalidGrant (description : String)
  | tokens (access refresh : ℕ) (scope : Option String)
  deriving DecidableEq

/-- A request, by its next call of the store.

`replayed` says that the request presented a refresh token which an earlier exchange had consumed,
and `respond` and `answered` whose it was; `answered` keeps what was issued before the answer.  The
code does not keep them. -/
inductive Thread where
  /-- `oauth_verify`: the look-up -/
  | verify (request : VerifyRequest)
  /-- `oauth_verify`: `delete_pending_authorization` -/
  | deny (pendingId : ℕ)
  /-- `oauth_verify`: `mark_pending_verified` -/
  | approve (pendingId : ℕ) (clientId : String) (verifier : Verifier)
  /-- `authorize_page_status`: `load_pending_authorization` -/
  | poll (pendingId : ℕ)
  /-- `authorize_page_status`: `insert_auth_code` -/
  | mint (pendingId : ℕ) (record : PendingRow) (verifier : Verifier)
  /-- `authorize_page_status`: `delete_pending_authorization` -/
  | tearDown (pendingId : ℕ) (record : PendingRow)
  /-- `load_authorization_code`: `peek_auth_code` -/
  | loadCode (clientId : String) (code : ℕ)
  /-- `exchange_authorization_code`: `consume_auth_code` -/
  | consumeCode (code : ℕ) (claims : Claims)
  /-- `load_refresh_token`: `peek_refresh` -/
  | loadRefresh (clientId : String) (token : ℕ) (scopes : List String)
  /-- `exchange_refresh_token`: `consume_refresh` -/
  | consumeRefresh (token : ℕ) (claims : Claims) (scopes : List String)
  /-- `exchange_refresh_token`: `is_refresh_known_but_consumed` -/
  | checkReplay (token : ℕ) (claims : Claims) (replayed : Bool)
  /-- `exchange_refresh_token`: `revoke_user_tokens` -/
  | revoke (owner : Owner) (replayed : Bool)
  /-- `_issue_token_pair`: `insert_access` -/
  | insertAccess (source : Credential) (claims : Claims)
  /-- `_issue_token_pair`: `insert_refresh` -/
  | insertRefresh (source : Credential) (claims : Claims)
  /-- the answer -/
  | respond (reply : Reply) (replay : Option Owner)
  | answered (reply : Reply) (replay : Option Owner) (before : List Issue)
  deriving DecidableEq

/-- A request arrives. -/
inductive Request where
  | authorize (params : AuthorizationParams) (displayCode : String)
  | oauthVerify (request : VerifyRequest)
  | authorizePageStatus (pending : Option ℕ)
  | exchangeCode (clientId : String) (code : ℕ)
  | exchangeRefresh (clientId : String) (token : ℕ) (scopes : List String)
  deriving DecidableEq

/-- The refresh token that the client presents was consumed by an exchange, and has not expired:
only an exchange sets `replaced_by`. -/
def Store.replayed (s : Store) (now : ℕ) (clientId : String) (token : ℕ) : Bool :=
  (s.refreshTokens token).any fun row =>
    row.consumed && row.replacedBy.isSome && now < row.expiresAt && row.claims.clientId == clientId

/-- Whose token it is, when it is replayed. -/
def Store.replayOwner (s : Store) (now : ℕ) (clientId : String) (token : ℕ) : Option Owner :=
  if s.replayed now clientId token then (s.refreshTokens token).map fun row => row.claims.owner
  else none

/-! ## The calls of a request -/

namespace Thread

/-- What a call of a request leaves: where the request is then, the store, and what was issued. -/
structure Outcome where
  thread : Thread
  store : Store
  issued : List Issue := []

/-- What `oauth_verify` does with the row that it has looked up (lines 459-486). -/
def decide (request : VerifyRequest) (decision : String) (record : PendingRow) : Thread :=
  if decision = "deny" then .deny record.pendingId
  else
    match request.verifierFp.filter fun fp => !fp.isEmpty with
    | none => .respond (.invalidArgument
        ("OAuth authorization requires a verifier with a registered API key " ++
          "(ROOT or trusted-mode identities cannot authorize OAuth clients).")) none
    | some fp => .approve record.pendingId record.params.clientId
        { accountId := request.accountId, userId := request.userId, role := request.role,
          keyFp := fp }

/-- `oauth_verify` up to its look-up, and what it does with the row (router, lines 440-486). -/
def oauthVerify (V : Server) (now : ℕ) (s : Store) (request : VerifyRequest) : Thread :=
  if request.fromOauth then
    .respond (.permissionDenied
      ("OAuth-issued tokens cannot authorize new OAuth clients. " ++
        "Use your API key or sign in to OpenViking Studio to verify.")) none
  else
    let decision := V.strip (V.lower request.decision)
    if decision ≠ "approve" ∧ decision ≠ "deny" then
      .respond (.invalidArgument "decision must be 'approve' or 'deny'") none
    else
      match request.pendingId, request.code.filter fun code => !code.isEmpty with
      | some pendingId, _ =>
        match (s.loadPendingAuthorization now pendingId).filter fun row => row.verified.isNone with
        | none => .respond (.invalidArgument "Invalid or expired pending authorization") none
        | some record => decide request decision record
      | none, some code =>
        match s.findPendingByDisplayCode now (V.upper (V.strip code)) with
        | none => .respond (.invalidArgument "Invalid or expired verification code") none
        | some record => decide request decision record
      | none, none =>
        .respond (.invalidArgument "Must provide either 'pending_id' or 'code'") none

/-- `authorize_page_status` after `load_pending_authorization` (router, lines 291-297). -/
def pageStatus (now : ℕ) (s : Store) (pendingId : ℕ) : Thread :=
  match s.loadPendingAuthorization now pendingId with
  | none => .respond .expired none
  | some record =>
    match record.verified with
    | none => .respond .pending none
    | some verifier => .mint pendingId record verifier

/-- The claims of the code that a verified row leads to (router, lines 301-318). -/
def codeClaims (record : PendingRow) (verifier : Verifier) : Claims where
  clientId := record.params.clientId
  accountId := verifier.accountId
  userId := verifier.userId
  role := verifier.role
  scope := record.params.scopes.map fun scopes => " ".intercalate scopes
  resource := record.params.resource
  authorizingKeyFp := verifier.keyFp

/-- `" ".join(scopes) if scopes else None` -/
def joinScopes (scopes : List String) : Option String :=
  if scopes.isEmpty then none else some (" ".intercalate scopes)

/-- The scopes of a loaded code or token: `(record.get("scope") or "").split()`, and none of a record
without. -/
def loadedScopes (V : Server) (claims : Claims) : List String :=
  match claims.scope.filter fun scope => !scope.isEmpty with
  | none => []
  | some scope => V.split scope

/-- The scope of a refreshed pair: what was asked for, or else the token's (provider, lines 343-352). -/
def refreshedScope (V : Server) (scopes : List String) (claims : Claims) : Option String :=
  ((joinScopes scopes).filter fun scope => !scope.isEmpty).or
    ((joinScopes (loadedScopes V claims)).filter fun scope => !scope.isEmpty)

/-- One call of the request `i`, at the time `now`; `issued` is what was issued so far. -/
def advance (V : Server) (i now : ℕ) (currentRole : Option String) (s : Store)
    (issued : List Issue) : Thread → Option Outcome
  | .verify request => some { thread := oauthVerify V now s request, store := s }
  | .deny pendingId => some
      { thread := .respond .denied none, store := s.deletePendingAuthorization pendingId }
  | .approve pendingId clientId verifier =>
    let (ok, s) := s.markPendingVerified now pendingId verifier
    some
      { thread := .respond (if ok then .verified clientId else
          .invalidArgument "Verification raced — please restart from the authorize page") none
        store := s }
  | .poll pendingId => some { thread := pageStatus now s pendingId, store := s }
  | .mint pendingId record verifier => some
      { thread := .tearDown pendingId record
        store := s.insertAuthCode now i (codeClaims record verifier) record.params.redirectUri
          record.params.codeChallenge V.codeTtl
        issued := [(.pending pendingId, .code i)] }
  | .tearDown pendingId record => some
      { thread := .respond (.approved i record.params.redirectUri record.params.state) none
        store := s.deletePendingAuthorization pendingId }
  | .loadCode clientId code => some
      { thread :=
          match (s.peekAuthCode now code).filter fun row => row.claims.clientId == clientId with
          | none => .respond .notLoaded none
          | some row =>
            .consumeCode code { row.claims with scope := joinScopes (loadedScopes V row.claims) }
        store := s }
  | .consumeCode code claims =>
    match s.consumeAuthCode now code with
    | (none, s) => some
        { thread := .respond (.invalidGrant "code is invalid or reused") none, store := s }
    | (some _, s) => some { thread := .insertAccess (.code code) claims, store := s }
  | .loadRefresh clientId token scopes => some
      { thread :=
          match (s.peekRefresh now token).filter fun row => row.claims.clientId == clientId with
          | none => .respond .notLoaded (s.replayOwner now clientId token)
          | some row => .consumeRefresh token row.claims scopes
        store := s }
  | .consumeRefresh token claims scopes =>
    let replayed := s.replayed now claims.clientId token
    if V.downgraded claims.role currentRole then some
      { thread := .respond
          (.invalidGrant "user role has been downgraded; please re-authorize the client")
          (if replayed then some claims.owner else none)
        store := s }
    else
      match s.consumeRefresh now token (some i) with
      | (none, s) => some { thread := .checkReplay token claims replayed, store := s }
      | (some _, s) => some
          { thread := .insertAccess (.refresh token)
              { claims with scope := refreshedScope V scopes claims }
            store := s }
  | .checkReplay token claims replayed => some
      { thread := if s.isRefreshKnownButConsumed token then .revoke claims.owner replayed else
          .respond (.invalidGrant "refresh token invalid")
            (if replayed then some claims.owner else none)
        store := s }
  | .revoke owner replayed => some
      { thread := .respond (.invalidGrant "refresh token invalid")
          (if replayed then some owner else none)
        store := s.revokeUserTokens owner }
  | .insertAccess source claims => some
      { thread := .insertRefresh source claims
        store := s.insertAccess now i claims V.accessTtl
        issued := [(source, .access i)] }
  | .insertRefresh source claims => some
      { thread := .respond (.tokens i i claims.scope) none
        store := s.insertRefresh now i claims V.refreshTtl
        issued := [(source, .refresh i)] }
  | .respond reply replay => some { thread := .answered reply replay issued, store := s }
  | .answered _ _ _ => none

end Thread

/-! ## Runs -/

/-- The store, the requests by their names, and what was issued so far. -/
structure World where
  store : Store
  threads : List Thread
  issued : List Issue

/-- What can happen: a request arrives, makes its next call, or the expired rows are removed. -/
inductive Act where
  | arrive (now : ℕ) (request : Request)
  | advance (i now : ℕ) (currentRole : Option String)
  | gc (now : ℕ)
  deriving DecidableEq

namespace World

/-- An empty store and no requests. -/
def start : World where
  store := .empty
  threads := []
  issued := []

/-- The world with one more request. -/
def join (w : World) (th : Thread) : World :=
  { w with threads := w.threads ++ [th] }

/-- One step.  `authorize` is one call (provider, lines 185-213), made as it arrives. -/
def step (V : Server) (w : World) : Act → Option World
  | .arrive now (.authorize params displayCode) =>
    let i := w.threads.length
    some ({ w with store := w.store.createPendingAuthorization now i params displayCode 600 }.join
      (.respond (.authorizePage i) none))
  | .arrive _ (.oauthVerify request) => some (w.join (.verify request))
  | .arrive _ (.authorizePageStatus (some pendingId)) => some (w.join (.poll pendingId))
  | .arrive _ (.authorizePageStatus none) => some (w.join (.respond .expired none))
  | .arrive _ (.exchangeCode clientId code) => some (w.join (.loadCode clientId code))
  | .arrive _ (.exchangeRefresh clientId token scopes) =>
    some (w.join (.loadRefresh clientId token scopes))
  | .advance i now currentRole =>
    w.threads[i]?.bind fun th =>
      (th.advance V i now currentRole w.store w.issued).map fun o =>
        { store := o.store, threads := w.threads.set i o.thread, issued := w.issued ++ o.issued }
  | .gc now => some { w with store := w.store.gcExpired now }

end World

end OpenViking.OAuth
