import Mathlib.Data.Nat.Notation
import Mathlib.Logic.Function.Basic

/-!
# The OAuth store

`OAuthStore` (`openviking/server/oauth/storage.py`): the tables of pending authorizations, codes,
refresh tokens and access tokens.  Each call is one SQL statement under the store's lock (the three of
`revoke_user_tokens` and the four of `gc_expired` are made under it together), with the time that its
caller has read.

A row is found by the hash of its secret, which is its primary key.  Here a table maps the secret
itself to its row.  The pending rows are a list, in the order of their creation: one look-up of them
is not by the primary key.  The columns that no call reads are left out.
-/

namespace OpenViking.OAuth

/-! ## Rows -/

/-- The (account, user) that a credential is for. -/
abbrev Owner := String × String

/-- The columns that a code hands on to its tokens, and a refresh token to its successors. -/
structure Claims where
  clientId : String
  accountId : String
  userId : String
  role : String
  scope : Option String
  resource : Option String
  authorizingKeyFp : String
  deriving DecidableEq

def Claims.owner (c : Claims) : Owner := (c.accountId, c.userId)

/-- A row of `oauth_codes`. -/
structure CodeRow where
  claims : Claims
  redirectUri : String
  codeChallenge : String
  expiresAt : ℕ
  used : Bool
  deriving DecidableEq

/-- A row of `oauth_refresh_tokens`. -/
structure RefreshRow where
  claims : Claims
  expiresAt : ℕ
  consumed : Bool
  replacedBy : Option ℕ
  deriving DecidableEq

/-- A row of `oauth_access_tokens`. -/
structure AccessRow where
  claims : Claims
  expiresAt : ℕ
  revoked : Bool
  deriving DecidableEq

/-- The columns `verified_account_id`, `verified_user_id`, `verified_role` and `verified_key_fp`,
which are written together with `verified = 1`. -/
structure Verifier where
  accountId : String
  userId : String
  role : String
  keyFp : String
  deriving DecidableEq

/-- What a client asks for at the authorize endpoint. -/
structure AuthorizationParams where
  clientId : String
  redirectUri : String
  redirectUriProvidedExplicitly : Bool
  codeChallenge : String
  scopes : Option (List String)
  resource : Option String
  state : Option String
  deriving DecidableEq

/-- A row of `oauth_pending_authorizations`; `verified` is `none` for `verified = 0`. -/
structure PendingRow where
  pendingId : ℕ
  params : AuthorizationParams
  displayCode : String
  verified : Option Verifier
  expiresAt : ℕ
  deriving DecidableEq

/-- The tables. -/
structure Store where
  pending : List PendingRow
  codes : ℕ → Option CodeRow
  refreshTokens : ℕ → Option RefreshRow
  accessTokens : ℕ → Option AccessRow

namespace Store

def empty : Store where
  pending := []
  codes _ := none
  refreshTokens _ := none
  accessTokens _ := none

/-! ## Authorization codes -/

/-- `insert_auth_code` (lines 274-320). -/
def insertAuthCode (s : Store) (now : ℕ) (code : ℕ) (claims : Claims)
    (redirectUri codeChallenge : String) (ttl : ℕ) : Store :=
  { s with
    codes := Function.update s.codes code
      (some { claims, redirectUri, codeChallenge, expiresAt := now + ttl, used := false }) }

/-- `peek_auth_code` (lines 325-353). -/
def peekAuthCode (s : Store) (now : ℕ) (code : ℕ) : Option CodeRow :=
  (s.codes code).filter fun row => !row.used && now < row.expiresAt

/-- `consume_auth_code` (lines 322-323, 355-377): `UPDATE … RETURNING`. -/
def consumeAuthCode (s : Store) (now : ℕ) (code : ℕ) : Option CodeRow × Store :=
  match s.peekAuthCode now code with
  | none => (none, s)
  | some row =>
    let row := { row with used := true }
    (some row, { s with codes := Function.update s.codes code (some row) })

/-! ## Refresh tokens -/

/-- `insert_refresh` (lines 381-420). -/
def insertRefresh (s : Store) (now : ℕ) (token : ℕ) (claims : Claims) (ttl : ℕ) : Store :=
  { s with
    refreshTokens := Function.update s.refreshTokens token
      (some { claims, expiresAt := now + ttl, consumed := false, replacedBy := none }) }

/-- `peek_refresh` (lines 422-441). -/
def peekRefresh (s : Store) (now : ℕ) (token : ℕ) : Option RefreshRow :=
  (s.refreshTokens token).filter fun row => !row.consumed && now < row.expiresAt

/-- `consume_refresh` (lines 443-475). -/
def consumeRefresh (s : Store) (now : ℕ) (token : ℕ) (replacedBy : Option ℕ) :
    Option RefreshRow × Store :=
  match s.peekRefresh now token with
  | none => (none, s)
  | some row =>
    let row := { row with consumed := true, replacedBy }
    (some row, { s with refreshTokens := Function.update s.refreshTokens token (some row) })

/-- `is_refresh_known_but_consumed` (lines 477-491). -/
def isRefreshKnownButConsumed (s : Store) (token : ℕ) : Bool :=
  (s.refreshTokens token).any fun row => row.consumed

/-! ## Access tokens -/

/-- `insert_access` (lines 495-534). -/
def insertAccess (s : Store) (now : ℕ) (token : ℕ) (claims : Claims) (ttl : ℕ) : Store :=
  { s with
    accessTokens := Function.update s.accessTokens token
      (some { claims, expiresAt := now + ttl, revoked := false }) }

/-- `revoke_user_tokens` (lines 571-603). -/
def revokeUserTokens (s : Store) (owner : Owner) : Store :=
  { s with
    accessTokens := fun token => (s.accessTokens token).map fun row =>
      if row.claims.owner = owner then { row with revoked := true } else row
    refreshTokens := fun token => (s.refreshTokens token).map fun row =>
      if row.claims.owner = owner then { row with consumed := true } else row
    codes := fun code => (s.codes code).map fun row =>
      if row.claims.owner = owner then { row with used := true } else row }

/-! ## Pending authorizations -/

/-- `create_pending_authorization` (lines 607-653). -/
def createPendingAuthorization (s : Store) (now : ℕ) (pendingId : ℕ) (params : AuthorizationParams)
    (displayCode : String) (ttl : ℕ) : Store :=
  { s with
    pending := s.pending ++ [{
      pendingId
      params := { params with scopes := params.scopes.filter fun scopes => !scopes.isEmpty }
      displayCode
      verified := none
      expiresAt := now + ttl }] }

/-- `load_pending_authorization` (lines 655-677). -/
def loadPendingAuthorization (s : Store) (now : ℕ) (pendingId : ℕ) : Option PendingRow :=
  s.pending.find? fun row => row.pendingId == pendingId && now < row.expiresAt

/-- `find_pending_by_display_code` (lines 679-705), for the normalized code. -/
def findPendingByDisplayCode (s : Store) (now : ℕ) (normalized : String) : Option PendingRow :=
  s.pending.find? fun row =>
    row.displayCode == normalized && now < row.expiresAt && row.verified.isNone

/-- The `WHERE` clause of `mark_pending_verified`. -/
def markable (now : ℕ) (pendingId : ℕ) (row : PendingRow) : Bool :=
  row.pendingId == pendingId && row.verified.isNone && now < row.expiresAt

/-- `mark_pending_verified` (lines 707-739). -/
def markPendingVerified (s : Store) (now : ℕ) (pendingId : ℕ) (verifier : Verifier) :
    Bool × Store :=
  (s.pending.any (markable now pendingId),
    { s with
      pending := s.pending.map fun row =>
        if markable now pendingId row then { row with verified := some verifier } else row })

/-- `delete_pending_authorization` (lines 741-750). -/
def deletePendingAuthorization (s : Store) (pendingId : ℕ) : Store :=
  { s with pending := s.pending.filter fun row => row.pendingId != pendingId }

/-! ## Maintenance -/

/-- `gc_expired` (lines 754-788).  The refresh tokens that are consumed stay until they expire. -/
def gcExpired (s : Store) (now : ℕ) : Store where
  codes code := (s.codes code).filter fun row => !(row.expiresAt < now || row.used)
  refreshTokens token := (s.refreshTokens token).filter fun row => !(row.expiresAt < now)
  accessTokens token := (s.accessTokens token).filter fun row => !(row.expiresAt < now || row.revoked)
  pending := s.pending.filter fun row => !(row.expiresAt < now)

end Store

end OpenViking.OAuth
