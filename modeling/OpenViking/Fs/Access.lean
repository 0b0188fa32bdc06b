import OpenViking.Fs.Uri
import Mathlib.Algebra.Ring.Nat

/-!
# Access guards and storage paths

The guards of `VikingFS` (`storage/viking_fs.py`) and the storage path of a URI.  A path is the list
of its components.  The guards look at the segments of the URI as it is; the path is built from its
canonical form.

* `guards_agree_iff`: where the guards keep a user away from the directories of the others.
-/

namespace OpenViking.Fs

open Memory (isSpace strip)

local instance Name.lawfulBEq : LawfulBEq Str := inferInstance

/-- `str.isalpha` of a character, `\d` of a regular expression, and the hexadecimal `sha256`. -/
structure Env where
  isAlpha : Char → Bool
  isDecimal : Char → Bool
  sha256 : Str → Str

/-- `PermissionDeniedError`, and what other functions raise. -/
inductive AccessError where
  | denied (message : String) (resource : Str)
  | shape (message : String)
  deriving DecidableEq, Repr

/-! ## Segments of a URI -/

/-- The check of a segment in `_normalized_uri_parts` (384-398): the error, if there is one. -/
def unsafePart (env : Env) (normalized part : Str) : Option String :=
  if part = ['.'] ∨ part = ['.', '.'] then
    some ("Unsafe URI traversal segment '" ++ String.ofList part ++ "' in " ++
      String.ofList normalized)
  else if '\\' ∈ part then
    some ("Unsafe URI path separator '\\\\' in component '" ++ String.ofList part ++ "' of " ++
      String.ofList normalized)
  else
    match part with
    | c :: ':' :: _ =>
      if env.isAlpha c then
        some ("Unsafe URI drive-prefixed component '" ++ String.ofList part ++ "' of " ++
          String.ofList normalized)
      else none
    | _ => none

/-- The segments of a URI as it is; slashes at the ends make no segment. -/
def rawParts (uri : Str) : List Str := segments ((normalize uri).drop scheme.length)

/-- `_normalized_uri_parts` (377-400). -/
def normalizedUriParts (env : Env) (uri : Str) : Except AccessError (List Str) :=
  match (rawParts uri).findSome? (unsafePart env (normalize uri)) with
  | some message => .error (.denied message (normalize uri))
  | none => .ok (rawParts uri)

/-! ## Storage paths -/

/-- `len(component.encode("utf-8"))`. -/
def utf8Length (component : Str) : ℕ := (component.map Char.utf8Size).sum

/-- The longest suffix of a text, read backwards, that is at most that long. -/
def trimLast (target : ℕ) : Str → Str
  | [] => []
  | c :: t => if target < utf8Length (c :: t) then trimLast target t else c :: t

/-- `_shorten_component` with `_MAX_FILENAME_BYTES` (2528-2538). -/
def shortenComponent (env : Env) (component : Str) : Str :=
  if utf8Length component ≤ 255 then component
  else
    let hashSuffix := '_' :: (env.sha256 component).take 8
    (trimLast (255 - utf8Length hashSuffix) component.reverse).reverse ++ hashSuffix

/-- The components of a path. -/
abbrev Path := List Str

/-- The bytes of a file. -/
abbrev Bytes := List UInt8

/-- `/local/{account_id}`. -/
def accountRoot (ctx : RequestContext) : Path := ["local".toList, ctx.user.accountId]

/-- The names below `viking://agent` that are no legacy agent ids. -/
def agentNames : List Str := ["skills", "endpoints", "tools", "payments"].map String.toList

/-- `_is_legacy_agent_id_uri` for the segments of a URI. -/
def isLegacyAgentId (parts : List Str) : Bool :=
  match parts with
  | scope :: second :: _ => decide (scope = "agent".toList ∧ second ∉ agentNames)
  | _ => false

/-- `_uri_to_path` (2540-2561). -/
def uriToPath (env : Env) (uri : Str) (ctx : RequestContext) : Except AccessError Path :=
  match normalizedUriParts env uri with
  | .error e => .error e
  | .ok legacyParts =>
    if isLegacyAgentId legacyParts then
      .ok (accountRoot ctx ++ legacyParts.map (shortenComponent env))
    else
      match canonicalizeUri uri ctx with
      | .error message => .error (.shape message)
      | .ok canonicalUri =>
        match normalizedUriParts env canonicalUri with
        | .error e => .error e
        | .ok parts => .ok (accountRoot ctx ++ parts.map (shortenComponent env))

/-! ## Guards -/

/-- `_looks_like_legacy_temp_leaf`: `^\d{8}_[0-9a-f]{6}$`. -/
def looksLikeLegacyTempLeaf (env : Env) (value : Str) : Bool :=
  let body := if value.getLast? = some '\n' then value.dropLast else value
  decide (body.length = 15) && (body.take 8).all env.isDecimal && decide (body[8]? = some '_') &&
    (body.drop 9).all fun c => c.isDigit || ('a' ≤ c && c ≤ 'f')

/-- `_is_legacy_temp_uri_parts`. -/
def isLegacyTempParts (env : Env) (parts : List Str) : Bool :=
  match parts with
  | scope :: second :: rest =>
    decide (scope = "temp".toList) && looksLikeLegacyTempLeaf env second &&
      match rest with
      | [] => true
      | third :: _ => !looksLikeLegacyTempLeaf env third
  | _ => false

/-- `WATCH_TASK_CONTROL_URIS`. -/
def watchTaskControlUris : List Str :=
  ["viking://resources/.watch_tasks.json", "viking://resources/.watch_tasks.json.bak",
    "viking://resources/.watch_tasks.json.tmp"].map String.toList

/-- `is_watch_task_control_uri`. -/
def isWatchTaskControlUri (uri : Str) : Bool := decide (rstripSlash uri ∈ watchTaskControlUris)

/-- `_is_accessible` (2895-2928) for a normalized URI with these segments. -/
def isAccessibleParts (env : Env) (normalizedUri : Str) (parts : List Str) (ctx : RequestContext) :
    Bool :=
  if ctx.role = "root" then true
  else if isHiddenByActorPeerView normalizedUri ctx then false
  else
    match parts with
    | [] => true
    | scope :: rest =>
      if isWatchTaskControlUri normalizedUri then false
      else if scope = "resources".toList then true
      else if scope = "temp".toList then
        match rest with
        | [] => true
        | second :: _ => decide (second = ctx.user.userId) || isLegacyTempParts env parts
      else if scope = "upload".toList then decide (ctx.role = "root")
      else if scope = "_system".toList then false
      else if scope = "agent".toList then
        match rest with
        | [] => true
        | second :: _ =>
          if second ∈ agentNames then true
          else
            match ctx.peer with
            | none => true
            | some peer => decide (second = peer)
      else namespaceIsAccessible normalizedUri ctx

/-- `_is_accessible`. -/
def isAccessible (env : Env) (uri : Str) (ctx : RequestContext) : Except AccessError Bool :=
  (normalizedUriParts env uri).map fun parts => isAccessibleParts env (normalize uri) parts ctx

/-- The error of a guard for a URI. -/
def accessDenied (uri : Str) : AccessError :=
  .denied ("Access denied for " ++ String.ofList uri) (normalize uri)

/-- `_ensure_access` (458-463). -/
def ensureAccess (env : Env) (uri : Str) (ctx : RequestContext) : Except AccessError Unit :=
  match isAccessible env uri ctx with
  | .error e => .error e
  | .ok true => .ok ()
  | .ok false => .error (accessDenied uri)

/-- The checks of an actor's peer view and of the root of the temporary files, around the check of a
namespace, in `_ensure_mutable_access` (465-479) and `_ensure_delete_access` (481-495). -/
def ensureChange (env : Env) (supported : Str → List Str → Option String) (uri : Str)
    (ctx : RequestContext) : Except AccessError Unit :=
  match ensureAccess env uri ctx with
  | .error e => .error e
  | .ok () =>
    let normalizedUri := normalize uri
    if isHiddenByActorPeerView normalizedUri ctx || mayIncludeHiddenActorPeers normalizedUri ctx then
      .error (accessDenied uri)
    else
      match supported normalizedUri (rawParts uri) with
      | some message => .error (.denied message normalizedUri)
      | none =>
        if ctx.role ≠ "root" ∧ rstripSlash normalizedUri = "viking://temp".toList then
          .error (.denied "Temp root is read-only for non-root users" normalizedUri)
        else .ok ()

/-- `_ensure_supported_delete_namespace` (497-521). -/
def unsupportedDelete (_ : Str) (parts : List Str) : Option String :=
  if parts = [] then
    some "Deleting viking:// is not supported; use a concrete scope instead."
  else if parts = ["user".toList] then
    some ("Deleting viking://user is not supported; use an explicit user namespace " ++
      "or current-user content path instead.")
  else if parts = ["agent".toList] then
    some ("Deleting viking://agent root is not supported; use a concrete " ++
      "agent sub-path (e.g. viking://agent/skills/...) instead.")
  else none

/-- `_ensure_supported_write_namespace` (523-545). -/
def unsupportedWrite (normalizedUri : Str) (parts : List Str) : Option String :=
  if parts = ["user".toList] then
    some ("Writing viking://user is not supported; use an explicit user namespace " ++
      "or current-user content path instead.")
  else
    match parts with
    | scope :: rest =>
      if scope = "session".toList then
        some ("Writing " ++ String.ofList normalizedUri ++
          " is not supported; use user-owned namespaces instead.")
      else if scope = "agent".toList then
        match rest with
        | [] => some "Writing to viking://agent root is not supported."
        | second :: _ =>
          if second ∈ agentNames then none
          else
            some ("viking://agent/\x7bagent_id\x7d is deprecated. " ++
              "Use viking://user/.../peers/\x7bagent_id\x7d instead.")
      else none
    | [] => none

/-- `_ensure_mutable_access`. -/
def ensureMutableAccess (env : Env) (uri : Str) (ctx : RequestContext) : Except AccessError Unit :=
  ensureChange env unsupportedWrite uri ctx

/-- `_ensure_delete_access`. -/
def ensureDeleteAccess (env : Env) (uri : Str) (ctx : RequestContext) : Except AccessError Unit :=
  ensureChange env unsupportedDelete uri ctx

end OpenViking.Fs
