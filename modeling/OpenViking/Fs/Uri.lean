import OpenViking.Common.Slashes
import OpenViking.Memory.FieldsComment
import Mathlib.Tactic.SplitIfs

/-!
# Viking URIs

Identifiers, `VikingURI` (`openviking_cli/utils/uri.py`), the namespaces of an account
(`core/namespace.py`) and `validate_viking_uri` (`core/uri_validation.py`).  A text is a list of
characters; a function that raises returns an error.

* `uriParts_of_pathText`: what `uri_parts` reads in a URI that is built from segments;
* `resolveUri_user`: who owns a URI in the user scope, and its canonical form.
-/

namespace OpenViking.Fs

open Memory (isSpace strip)

/-- A text. -/
abbrev Str := List Char

local instance Str.lawfulBEq : LawfulBEq Str := inferInstance

/-! ## Identifiers -/

/-- A character of `_VALIDATION_PATTERN` (`core/identifiers.py`). -/
def isIdentifierChar (c : Char) : Bool :=
  c.isAlphanum || c == '_' || c == '.' || c == '@' || c == '-'

/-- `re.match(r"^[a-zA-Z0-9_.@-]+$", part)`; the dollar also matches before a last newline. -/
def matchesIdentifier (part : Str) : Bool :=
  let body := if part.getLast? = some '\n' then part.dropLast else part
  !body.isEmpty && body.all isIdentifierChar

/-- `validate_identifier_part` (11-23): the error, if there is one. -/
def validateIdentifierPart (part : Str) (partName : String) : Option String :=
  if part = [] then some (partName ++ " is empty")
  else if part = ['.'] ∨ part = ['.', '.'] then some (partName ++ " must not be '.' or '..'")
  else if !matchesIdentifier part then some (partName ++ " must be alpha_numeric string.")
  else if 1 < part.count '@' then some (partName ++ " must have at most one @.")
  else none

/-- `normalize_identifier_part` (26-38). -/
def normalizeIdentifierPart (part : Option String) (partName : String) :
    Except String (Option String) :=
  match part with
  | none => .ok none
  | some part =>
    let normalized := strip part.toList
    if normalized = [] then .ok none
    else
      match validateIdentifierPart normalized partName with
      | some error => .error error
      | none => .ok (some (String.ofList normalized))

/-- `normalize_peer_id` (`core/peer_id.py`). -/
def normalizePeerId (peerId : Option String) : Except String (Option String) :=
  match normalizeIdentifierPart peerId "peer_id" with
  | .ok peerId => .ok peerId
  | .error exc => .error ("Invalid peer_id: " ++ exc)

/-- `validate_account_id`. -/
def validateAccountId (accountId : Str) : Option String :=
  match validateIdentifierPart accountId "account_id" with
  | some error => some error
  | none =>
    if accountId.head? = some '_' then some "account_id cannot start with underscore _." else none

/-- `validate_user_id`. -/
def validateUserId (userId : Str) : Option String := validateIdentifierPart userId "user_id"

/-- `UserIdentifier`; its constructor raises on an invalid id. -/
structure UserIdentifier where
  accountId : Str
  userId : Str
  accountId_valid : validateAccountId accountId = none
  userId_valid : validateUserId userId = none

/-- `RequestContext`; `user_space_name` is the user id. -/
structure RequestContext where
  user : UserIdentifier
  role : String
  actorPeerId : Option Str

/-- `ctx.actor_peer_id`, when it is true. -/
def RequestContext.peer (ctx : RequestContext) : Option Str := ctx.actorPeerId.filter (· ≠ [])

/-! ## `VikingURI` -/

/-- `viking://`. -/
def scheme : Str := "viking://".toList

/-- `PUBLIC_SCOPES`. -/
def publicScopes : List Str := ["resources", "wiki", "user", "agent"].map String.toList

/-- `LEGACY_SCOPES`. -/
def legacyScopes : List Str := ["session".toList]

/-- `INTERNAL_SCOPES`. -/
def internalScopes : List Str := ["temp", "queue", "upload"].map String.toList

/-- `VISITABLE_SCOPES`. -/
def visitableScopes : List Str := publicScopes ++ legacyScopes ++ internalScopes

/-- `uri.lstrip("/")`. -/
def lstripSlash (t : Str) : Str := t.dropWhile (· = '/')

/-- `uri.rstrip("/")`. -/
def rstripSlash (t : Str) : Str := t.rdropWhile (· = '/')

/-- `VikingURI.normalize`. -/
def normalize (uri : Str) : Str := if scheme <+: uri then uri else scheme ++ lstripSlash uri

/-- `[p for p in path.split("/") if p]`. -/
def segments (path : Str) : List Str := (path.splitOn '/').filter (· ≠ [])

/-- `"/".join(parts)`. -/
def joinSlash (parts : List Str) : Str := ['/'].intercalate parts

/-- `VikingURI(uri).scope`; none when `_parse` raises. -/
def parseScope (uri : Str) : Option Str :=
  let path := (normalize uri).drop scheme.length
  if rstripSlash (lstripSlash path) = [] then some []
  else
    let scope := (path.splitOn '/').headD []
    if scope ∈ visitableScopes then some scope else none

/-! ## `validate_viking_uri` -/

/-- `re.match(r"^[A-Za-z][A-Za-z0-9+.-]*:", uri)`: the scheme. -/
def schemeMatch (uri : Str) : Option Str :=
  match uri with
  | [] => none
  | c :: t =>
    if c.isAlpha then
      let body := t.takeWhile fun d => d.isAlphanum || d == '+' || d == '.' || d == '-'
      if (t.drop body.length).head? = some ':' then some (c :: body) else none
    else none

/-- `InvalidURIError`. -/
structure InvalidURI where
  uri : Str
  reason : String
  deriving DecidableEq, Repr

/-- `_format_scope_names`. -/
def formatScopeNames (scopes : List Str) : String :=
  ", ".intercalate (((scopes.filter (· ≠ [])).map String.ofList).mergeSort fun a b => decide (a ≤ b))

/-- `_invalid_scope_reason`. -/
def invalidScopeReason (scope : Str) (scopes : List Str) : String :=
  if scope = [] then "URI must include one of: " ++ formatScopeNames scopes
  else "Invalid scope '" ++ String.ofList scope ++ "'. Must be one of: " ++ formatScopeNames scopes

/-- `_scope_from_uri`. -/
def scopeFromUri (uri : Str) : Str :=
  let path := (normalize uri).drop scheme.length
  if rstripSlash (lstripSlash path) = [] then [] else (path.splitOn '/').headD []

/-- `_scope_set`; `allowed` is `allowed_scopes`. -/
def scopeSet (allowInternal : Bool) (allowed : Option (List Str)) : List Str :=
  match allowed with
  | some scopes => scopes
  | none => if allowInternal then [] :: visitableScopes else [] :: (publicScopes ++ legacyScopes)

/-- `validate_viking_uri` (54-97). -/
def validateVikingUri (uri : Str) (fieldName : String) (allowInternal : Bool)
    (allowed : Option (List Str)) : Except InvalidURI Str :=
  let rawUri := strip uri
  if rawUri = [] then .error ⟨uri, fieldName ++ " must not be empty"⟩
  else
    match (if scheme <+: rawUri then none else schemeMatch rawUri) with
    | some name =>
      .error ⟨rawUri,
        if name = "viking".toList then "URI must start with 'viking://'"
        else "unsupported URI scheme '" ++ String.ofList name ++ "'"⟩
    | none =>
      let scopes := scopeSet allowInternal allowed
      match parseScope rawUri with
      | none => .error ⟨rawUri, invalidScopeReason (scopeFromUri rawUri) scopes⟩
      | some scope =>
        if scope ∈ scopes then .ok rawUri else .error ⟨rawUri, invalidScopeReason scope scopes⟩

/-! ## Namespaces -/

/-- `uri_parts` (86-93): the segments before a question mark. -/
def uriParts (uri : Str) : List Str :=
  let normalized := rstripSlash (normalize (uri.takeWhile (· ≠ '?')))
  let normalized := if normalized = "viking:".toList then scheme else normalized
  if normalized = scheme then [] else segments (normalized.drop scheme.length)

/-- `ResolvedNamespace`. -/
structure ResolvedNamespace where
  uri : Str
  scope : Str
  ownerUserId : Option Str
  isContainer : Bool
  deriving DecidableEq, Repr

/-- `_CONTENT_TYPES_BY_SCOPE["user"]` and `_USER_RELATIVE_ROOT_SEGMENTS`. -/
def userRelativeRootSegments : List Str :=
  ["memories", "resources", "skills", "peers", "privacy", "sessions"].map String.toList

/-- `_is_current_user_relative_uri` for a context. -/
def isCurrentUserRelative (parts : List Str) (ctx : RequestContext) : Bool :=
  match parts with
  | scope :: second :: _ =>
    decide (scope = "user".toList) && decide (second ≠ ctx.user.userId) &&
      decide (second ∈ userRelativeRootSegments)
  | _ => false

/-- `_require_peer_id_segment`: the error, if there is one. -/
def requirePeerIdSegment (peerId : Str) : Option String :=
  match normalizePeerId (some (String.ofList peerId)) with
  | .error exc => some exc
  | .ok none => some "peer_id must not be empty"
  | .ok (some _) => none

/-- `_validate_peer_id_segments` for parts in the user scope. -/
def validatePeerIdSegments (parts : List Str) : Option String :=
  match parts with
  | _ :: second :: third :: rest =>
    if second = "peers".toList then requirePeerIdSegment third
    else
      match rest with
      | fourth :: _ => if third = "peers".toList then requirePeerIdSegment fourth else none
      | [] => none
  | _ => none

/-- `canonical_user_root`. -/
def canonicalUserRoot (ctx : RequestContext) : Str := scheme ++ "user/".toList ++ ctx.user.userId

/-- `canonical_session_uri` and `_resolve_session_uri` (the URI of a session scope). -/
def canonicalSessionUri (ctx : RequestContext) (rest : List Str) : Str :=
  canonicalUserRoot ctx ++ "/sessions".toList ++ rest.flatMap fun part => '/' :: part

/-- `_resolve_user_uri` (287-330); `resolve` is the call for the URI that a shorthand stands for. -/
def resolveUserUri (resolve : Str → Except String ResolvedNamespace) (parts : List Str)
    (ctx : RequestContext) : Except String ResolvedNamespace :=
  match parts with
  | _ :: second :: suffix =>
    if isCurrentUserRelative parts ctx then
      resolve (joinSlash ((canonicalUserRoot ctx).drop scheme.length :: second :: suffix))
    else
      match validateUserId second with
      | some error => .error ("Invalid user_id: " ++ error)
      | none =>
        if suffix = [] then .ok ⟨scheme ++ "user/".toList ++ second, "user".toList, some second, false⟩
        else
          match validatePeerIdSegments parts with
          | some error => .error error
          | none =>
            .ok ⟨scheme ++ "user/".toList ++ second ++ '/' :: joinSlash suffix, "user".toList,
              some second, false⟩
  | _ => .ok ⟨scheme ++ "user".toList, "user".toList, none, true⟩

/-- One call of `resolve_uri` (197-219) with a context. -/
def resolveWith (resolve : Str → Except String ResolvedNamespace) (uri : Str)
    (ctx : RequestContext) : Except String ResolvedNamespace :=
  match uriParts uri with
  | [] => .ok ⟨scheme, [], none, true⟩
  | scope :: rest =>
    if scope = "user".toList then resolveUserUri resolve (scope :: rest) ctx
    else if scope = "session".toList then
      .ok ⟨canonicalSessionUri ctx rest, "user".toList, some ctx.user.userId, decide (rest = [])⟩
    else .ok ⟨rstripSlash (normalize uri), scope, none, false⟩

/-- `resolve_uri`: what a shorthand stands for is no shorthand. -/
def resolveUri (uri : Str) (ctx : RequestContext) : Except String ResolvedNamespace :=
  resolveWith (fun uri => resolveWith (fun _ => .error "") uri ctx) uri ctx

/-- `canonicalize_uri`. -/
def canonicalizeUri (uri : Str) (ctx : RequestContext) : Except String Str :=
  (resolveUri uri ctx).map ResolvedNamespace.uri

/-- `is_accessible` (227-250) of `core/namespace.py`. -/
def namespaceIsAccessible (uri : Str) (ctx : RequestContext) : Bool :=
  if ctx.role = "root" then true
  else
    match resolveUri uri ctx with
    | .error _ => false
    | .ok target =>
      if target.scope ∈ [[], "resources".toList, "temp".toList, "queue".toList] then true
      else if target.scope = "upload".toList then false
      else if target.scope = "user".toList then
        match target.ownerUserId with
        | none => true
        | some owner => decide (owner = [] ∨ owner = ctx.user.userId)
      else if target.scope = "agent".toList then
        match ctx.peer, uriParts target.uri with
        | some peer, _ :: second :: _ => decide (second = peer)
        | _, _ => true
      else true

/-- `_actor_peer_view_user_suffix` (171-191). -/
def actorPeerViewUserSuffix (uri : Str) (ctx : RequestContext) : Option (List Str) :=
  match ctx.peer, canonicalizeUri uri ctx with
  | some _, .ok canonical =>
    let parts := uriParts canonical
    if parts.take 2 = ["user".toList, ctx.user.userId] then some (parts.drop 2) else none
  | _, _ => none

/-- `is_hidden_by_actor_peer_view`. -/
def isHiddenByActorPeerView (uri : Str) (ctx : RequestContext) : Bool :=
  match actorPeerViewUserSuffix uri ctx with
  | some (first :: second :: _) => decide (first = "peers".toList ∧ some second ≠ ctx.actorPeerId)
  | _ => false

/-- `may_include_hidden_actor_peers`. -/
def mayIncludeHiddenActorPeers (uri : Str) (ctx : RequestContext) : Bool :=
  match actorPeerViewUserSuffix uri ctx with
  | some suffix => decide (suffix = [] ∨ suffix = ["peers".toList])
  | none => false

/-! ## Segments -/

theorem segments_nil : segments [] = [] := by decide

theorem segments_slash (t : Str) : segments ('/' :: t) = segments t := by
  have h : (([] : Str) ++ '/' :: t).splitOn '/' = [] :: t.splitOn '/' :=
    List.splitOn_append_cons_self_of_not_mem (by simp) t
  rw [segments, segments, show '/' :: t = [] ++ '/' :: t from rfl, h, List.filter_cons_of_neg (by simp)]

variable {part t uri second : Str}

/-- The first segment of a text, and the others. -/
theorem segments_append (hne : part ≠ []) (hslash : '/' ∉ part) (t : Str) :
    segments (part ++ '/' :: t) = part :: segments t := by
  rw [segments, segments, List.splitOn_append_cons_self_of_not_mem hslash,
    List.filter_cons_of_pos (by simpa using hne)]

theorem segments_single (hne : part ≠ []) (hslash : '/' ∉ part) : segments part = [part] := by
  rw [segments, List.splitOn_eq_singleton hslash, List.filter_cons_of_pos (by simpa using hne)]
  rfl

theorem segments_append_slashes (t : Str) (k : ℕ) : segments (t ++ List.replicate k '/') = segments t := by
  induction k with
  | zero => rw [List.replicate_zero, List.append_nil]
  | succ k ih =>
    rw [List.replicate_succ', ← List.append_assoc]
    have h : ((t ++ List.replicate k '/') ++ ['/']).splitOn '/' =
        (t ++ List.replicate k '/').splitOn '/' ++ [[]] := by
      rw [List.splitOn_append_cons_self]
      rfl
    rw [segments, h, List.filter_append, ← segments, ih]
    simp

/-- A text and its slashes at the end. -/
theorem rstripSlash_append (t : Str) : ∃ k, t = rstripSlash t ++ List.replicate k '/' := by
  induction t using List.reverseRecOn with
  | nil => exact ⟨0, rfl⟩
  | append_singleton t c ih =>
    obtain ⟨k, hk⟩ := ih
    by_cases hc : c = '/'
    · refine ⟨k + 1, ?_⟩
      rw [rstripSlash, List.rdropWhile_concat_pos _ _ c (by simpa using hc), ← rstripSlash,
        List.replicate_succ', ← List.append_assoc, ← hk, hc]
    · refine ⟨0, ?_⟩
      rw [rstripSlash, List.rdropWhile_concat_neg _ _ c (by simpa using hc), List.replicate_zero,
        List.append_nil]

theorem segments_rstripSlash (t : Str) : segments (rstripSlash t) = segments t := by
  obtain ⟨k, hk⟩ := rstripSlash_append t
  conv_rhs => rw [hk]
  rw [segments_append_slashes]

/-- What segments are made of. -/
theorem mem_segments (h : part ∈ segments t) : part ≠ [] ∧ '/' ∉ part ∧ part ⊆ t := by
  obtain ⟨hmem, hne⟩ := List.mem_filter.1 h
  exact ⟨of_decide_eq_true hne, mem_splitOn hmem⟩

variable {parts rest suffix : List Str}

theorem segments_joinSlash (h : ∀ part ∈ parts, part ≠ [] ∧ '/' ∉ part) :
    segments (joinSlash parts) = parts := by
  cases parts with
  | nil => decide
  | cons part parts =>
    rw [segments, joinSlash, List.splitOn_intercalate _ (fun p hp => (h p hp).2) (List.cons_ne_nil _ _),
      List.filter_eq_self]
    intro p hp
    simpa using (h p hp).1

/-! ## The segments of a URI -/

/-- The text after the scheme. -/
def pathText (uri : Str) : Str := (normalize uri).drop scheme.length

theorem normalize_eq (uri : Str) : normalize uri = scheme ++ pathText uri := by
  rw [pathText, normalize]
  split_ifs with h
  · obtain ⟨t, rfl⟩ := h
    rw [List.drop_left]
  · rw [List.drop_left]

theorem normalize_scheme (t : Str) : normalize (scheme ++ t) = scheme ++ t := by
  rw [normalize, if_pos (List.prefix_append _ _)]

theorem pathText_scheme (t : Str) : pathText (scheme ++ t) = t := by
  rw [pathText, normalize_scheme, List.drop_left]

/-- The query is cut off before or after the scheme is put in front. -/
theorem pathText_takeWhile (uri : Str) :
    pathText (uri.takeWhile (· ≠ '?')) = (pathText uri).takeWhile (· ≠ '?') := by
  by_cases h : scheme <+: uri
  · obtain ⟨t, rfl⟩ := h
    have hscheme : (scheme.all fun c => decide (c ≠ '?')) = true := by decide
    rw [pathText_scheme, List.takeWhile_append_of_pos (List.all_eq_true.1 hscheme), pathText_scheme]
  · have h' : ¬ scheme <+: uri.takeWhile (· ≠ '?') := fun hp =>
      h (hp.trans (List.takeWhile_prefix _))
    rw [pathText, pathText, normalize, normalize, if_neg h, if_neg h', List.drop_left, List.drop_left]
    clear h h'
    rw [lstripSlash, lstripSlash]
    induction uri with
    | nil => rfl
    | cons c uri ih =>
      by_cases hc : c = '/'
      · subst hc
        rw [List.takeWhile_cons_of_pos (by decide), List.dropWhile_cons_of_pos (by decide),
          List.dropWhile_cons_of_pos (by decide), ih]
      · rw [List.dropWhile_cons_of_neg (a := c) (by simpa using hc)]
        by_cases hq : c = '?'
        · rw [List.takeWhile_cons_of_neg (by simpa using hq)]
          rfl
        · rw [List.takeWhile_cons_of_pos (by simpa using hq),
            List.dropWhile_cons_of_neg (by simpa using hc)]

theorem rstripSlash_append_slashes (t : Str) (k : ℕ) :
    rstripSlash (t ++ List.replicate k '/') = rstripSlash t := by
  induction k with
  | zero => rw [List.replicate_zero, List.append_nil]
  | succ k ih =>
    rw [List.replicate_succ', ← List.append_assoc, rstripSlash,
      List.rdropWhile_concat_pos _ _ _ (by decide), ← rstripSlash, ih]

/-- A text that ends with no slash is what is left of it, behind any other. -/
theorem rstripSlash_append_of_ne_nil (a : Str) (h : rstripSlash t ≠ []) :
    rstripSlash (a ++ t) = a ++ rstripSlash t := by
  obtain ⟨k, hk⟩ := rstripSlash_append t
  have hlast : ¬ (rstripSlash t).getLast h = '/' := fun heq =>
    List.rdropWhile_last_not _ t h (decide_eq_true heq)
  conv_lhs => rw [hk]
  rw [← List.append_assoc, rstripSlash_append_slashes, rstripSlash, List.rdropWhile_eq_self_iff]
  intro hne
  rw [List.getLast_append_of_ne_nil _ h]
  simpa using hlast

theorem rstripSlash_scheme (h : rstripSlash t = []) : rstripSlash (scheme ++ t) = "viking:".toList := by
  obtain ⟨k, hk⟩ := rstripSlash_append t
  have hscheme : scheme = "viking:".toList ++ List.replicate 2 '/' := by decide
  rw [hk, h, List.nil_append, hscheme, rstripSlash_append_slashes, rstripSlash_append_slashes]
  decide

/-- `uri_parts` are the segments before a question mark. -/
theorem uriParts_eq (uri : Str) : uriParts uri = segments ((pathText uri).takeWhile (· ≠ '?')) := by
  rw [uriParts, normalize_eq, pathText_takeWhile]
  generalize (pathText uri).takeWhile (· ≠ '?') = q
  by_cases hq : rstripSlash q = []
  · rw [rstripSlash_scheme hq]
    simp only [if_true]
    rw [← segments_rstripSlash, hq, segments_nil]
  · rw [rstripSlash_append_of_ne_nil scheme hq]
    have hne : scheme ++ rstripSlash q ≠ "viking:".toList := by
      intro heq
      have := congrArg List.length heq
      rw [List.length_append] at this
      have h9 : scheme.length = 9 := by decide
      have h7 : "viking:".toList.length = 7 := by decide
      omega
    have hne' : scheme ++ rstripSlash q ≠ scheme := by simpa using hq
    simp only [if_neg hne, if_neg hne']
    rw [List.drop_left, segments_rstripSlash]

/-! ## Who owns a URI -/

variable {ctx : RequestContext}

/-- A segment of `uri_parts`. -/
theorem mem_uriParts (h : part ∈ uriParts uri) : part ≠ [] ∧ '/' ∉ part ∧ '?' ∉ part := by
  rw [uriParts_eq] at h
  obtain ⟨hne, hslash, hsub⟩ := mem_segments h
  refine ⟨hne, hslash, fun hq => ?_⟩
  simpa using List.mem_takeWhile_imp (hsub hq)

theorem identifier_chars {name : String} (h : validateIdentifierPart part name = none) :
    part ≠ [] ∧ '/' ∉ part ∧ '?' ∉ part := by
  unfold validateIdentifierPart at h
  split_ifs at h with hnil hdots hmatch hat
  have hmatch : matchesIdentifier part = true := by simpa using hmatch
  have hall : ∀ c ∈ part, isIdentifierChar c = true ∨ c = '\n' := by
    intro c hc
    rw [matchesIdentifier, Bool.and_eq_true] at hmatch
    have hbody := List.all_eq_true.1 hmatch.2
    by_cases hlast : part.getLast? = some '\n'
    · rw [if_pos hlast] at hbody
      obtain ⟨init, rfl⟩ := List.getLast?_eq_some_iff.1 hlast
      rw [List.dropLast_concat] at hbody
      rcases List.mem_append.1 hc with hc | hc
      · exact .inl (hbody c hc)
      · exact .inr (List.mem_singleton.1 hc)
    · rw [if_neg hlast] at hbody
      exact .inl (hbody c hc)
  refine ⟨hnil, fun hc => ?_, fun hc => ?_⟩
  · rcases hall _ hc with h | h
    · exact absurd h (by decide)
    · exact absurd h (by decide)
  · rcases hall _ hc with h | h
    · exact absurd h (by decide)
    · exact absurd h (by decide)

/-- The user of a context is one segment. -/
theorem userId_chars (ctx : RequestContext) :
    ctx.user.userId ≠ [] ∧ '/' ∉ ctx.user.userId ∧ '?' ∉ ctx.user.userId :=
  identifier_chars ctx.user.userId_valid

theorem joinSlash_cons (part : Str) (h : parts ≠ []) :
    joinSlash (part :: parts) = part ++ '/' :: joinSlash parts := by
  obtain ⟨p, ps, rfl⟩ := List.exists_cons_of_ne_nil h
  rw [joinSlash, List.intercalate_cons_cons, joinSlash]
  simp

theorem mem_joinSlash {c : Char} (h : c ∈ joinSlash parts) : c = '/' ∨ ∃ part ∈ parts, c ∈ part := by
  induction parts with
  | nil => cases h
  | cons part parts ih =>
    by_cases hparts : parts = []
    · rw [hparts, joinSlash, List.intercalate_singleton] at h
      exact .inr ⟨part, List.mem_cons_self, h⟩
    · rw [joinSlash_cons part hparts] at h
      rcases List.mem_append.1 h with h | h
      · exact .inr ⟨part, List.mem_cons_self, h⟩
      · rcases List.mem_cons.1 h with h | h
        · exact .inl h
        · rcases ih h with h | ⟨p, hp, hc⟩
          · exact .inl h
          · exact .inr ⟨p, List.mem_cons_of_mem _ hp, hc⟩

/-- Segments that stay what they are in a URI. -/
def Clean (parts : List Str) : Prop := ∀ part ∈ parts, part ≠ [] ∧ '/' ∉ part ∧ '?' ∉ part

theorem Clean.cons (h : part ≠ [] ∧ '/' ∉ part ∧ '?' ∉ part)
    (hs : Clean parts) : Clean (part :: parts) := List.forall_mem_cons.2 ⟨h, hs⟩

theorem uriParts_clean (uri : Str) : Clean (uriParts uri) := fun _ h => mem_uriParts h

theorem uriParts_of_pathText (hpath : pathText uri = joinSlash parts)
    (h : Clean parts) : uriParts uri = parts := by
  have hq : ∀ c ∈ joinSlash parts, decide (c ≠ '?') = true := by
    intro c hc
    rw [decide_eq_true_iff]
    rintro rfl
    rcases mem_joinSlash hc with hc | ⟨part, hpart, hc⟩
    · exact absurd hc (by decide)
    · exact (h part hpart).2.2 hc
  rw [uriParts_eq, hpath, List.takeWhile_eq_self_iff.2 hq,
    segments_joinSlash fun part hpart => ⟨(h part hpart).1, (h part hpart).2.1⟩]

/-- What a text without a scheme stands for. -/
theorem pathText_of_head (hslash : ∀ c ∈ t.head?, c ≠ '/' ∧ c ≠ 'v') : pathText t = t := by
  have hscheme : ¬ scheme <+: t := by
    rintro ⟨r, rfl⟩
    exact (hslash 'v' rfl).2 rfl
  rw [pathText, normalize, if_neg hscheme, List.drop_left, lstripSlash]
  cases t with
  | nil => rfl
  | cons c t => exact List.dropWhile_cons_of_neg (by simpa using (hslash c rfl).1)

/-- The canonical URI of segments in the user scope. -/
def userUri (owner : Str) (suffix : List Str) : Str :=
  scheme ++ joinSlash ("user".toList :: owner :: suffix)

theorem user_clean : "user".toList ≠ [] ∧ '/' ∉ "user".toList ∧ '?' ∉ "user".toList := by decide

theorem userUri_eq (owner : Str) (suffix : List Str) : userUri owner suffix =
    if suffix = [] then scheme ++ "user/".toList ++ owner
    else scheme ++ "user/".toList ++ owner ++ '/' :: joinSlash suffix := by
  have huser : "user/".toList = "user".toList ++ ['/'] := by decide
  rw [userUri, joinSlash_cons _ (List.cons_ne_nil _ _), huser]
  split_ifs with h
  · rw [h, joinSlash, List.intercalate_singleton]
    simp
  · rw [joinSlash_cons _ h]
    simp

theorem canonicalSessionUri_eq (ctx : RequestContext) (rest : List Str) :
    canonicalSessionUri ctx rest = userUri ctx.user.userId ("sessions".toList :: rest) := by
  have hjoin : ∀ (part : Str) (parts : List Str),
      joinSlash (part :: parts) = part ++ parts.flatMap fun p => '/' :: p := by
    intro part parts
    induction parts generalizing part with
    | nil => simp [joinSlash]
    | cons p ps ih =>
      rw [joinSlash_cons _ (List.cons_ne_nil _ _), ih, List.flatMap_cons]
      rfl
  have huser : "user/".toList = "user".toList ++ ['/'] := by decide
  have hsessions : "/sessions".toList = '/' :: "sessions".toList := by decide
  rw [canonicalSessionUri, canonicalUserRoot, userUri, hjoin, huser, hsessions]
  simp

/-! ### Resolving -/

theorem resolveUri_other {scope : Str} (h : uriParts uri = scope :: rest)
    (huser : scope ≠ "user".toList) (hsession : scope ≠ "session".toList) :
    resolveUri uri ctx = .ok ⟨rstripSlash (normalize uri), scope, none, false⟩ := by
  rw [resolveUri, resolveWith, h]
  simp only [if_neg huser, if_neg hsession]

theorem resolveUri_session (h : uriParts uri = "session".toList :: rest) :
    resolveUri uri ctx = .ok ⟨userUri ctx.user.userId ("sessions".toList :: rest), "user".toList,
      some ctx.user.userId, decide (rest = [])⟩ := by
  have hne : "session".toList ≠ "user".toList := by decide
  rw [resolveUri, resolveWith, h]
  simp only [if_neg hne, if_true, canonicalSessionUri_eq]

theorem resolveUri_userRoot (h : uriParts uri = ["user".toList]) :
    resolveUri uri ctx = .ok ⟨scheme ++ "user".toList, "user".toList, none, true⟩ := by
  rw [resolveUri, resolveWith, h]
  simp only [if_true, resolveUserUri]

/-- A user and what is below: the owner is the user. -/
theorem resolveUserUri_explicit {resolve : Str → Except String ResolvedNamespace}
    (hrel : isCurrentUserRelative ("user".toList :: second :: suffix) ctx = false) {r : ResolvedNamespace}
    (h : resolveUserUri resolve ("user".toList :: second :: suffix) ctx = .ok r) :
    r = ⟨userUri second suffix, "user".toList, some second, false⟩ := by
  rw [resolveUserUri, if_neg (by rw [hrel]; decide)] at h
  rw [userUri_eq]
  split at h
  · cases h
  · split_ifs at h ⊢ with hs
    · exact (Except.ok.inj h).symm
    · split at h
      · cases h
      · exact (Except.ok.inj h).symm

/-- **Who owns a URI in the user scope**, and its canonical form. -/
theorem resolveUri_user (h : uriParts uri = "user".toList :: second :: suffix) {r : ResolvedNamespace}
    (hr : resolveUri uri ctx = .ok r) :
    ∃ owner tail, Clean (owner :: tail) ∧
      r = ⟨userUri owner tail, "user".toList, some owner, false⟩ := by
  have hclean : Clean (second :: suffix) := fun part hpart =>
    uriParts_clean uri part (h ▸ List.mem_cons_of_mem _ hpart)
  rw [resolveUri, resolveWith, h] at hr
  simp only [if_true] at hr
  cases hrel : isCurrentUserRelative ("user".toList :: second :: suffix) ctx with
  | false => exact ⟨second, suffix, hclean, resolveUserUri_explicit hrel hr⟩
  | true =>
    -- the shorthand is for the user of the context
    have hparts : uriParts (joinSlash ((canonicalUserRoot ctx).drop scheme.length :: second :: suffix)) =
        "user".toList :: ctx.user.userId :: second :: suffix := by
      have hjoin : joinSlash ((canonicalUserRoot ctx).drop scheme.length :: second :: suffix) =
          joinSlash ("user".toList :: ctx.user.userId :: second :: suffix) := by
        have huser : "user/".toList = "user".toList ++ ['/'] := by decide
        rw [canonicalUserRoot, List.append_assoc, List.drop_left,
          joinSlash_cons _ (List.cons_ne_nil _ _), joinSlash_cons _ (List.cons_ne_nil _ _),
          joinSlash_cons _ (List.cons_ne_nil _ _), huser]
        simp
      rw [hjoin]
      refine uriParts_of_pathText (pathText_of_head ?_) ((hclean.cons (userId_chars ctx)).cons user_clean)
      rw [joinSlash_cons _ (List.cons_ne_nil _ _)]
      intro c hc
      obtain rfl : 'u' = c := Option.some_inj.1 hc
      decide
    rw [resolveUserUri, if_pos hrel, resolveWith, hparts] at hr
    simp only [if_true] at hr
    have hexplicit : isCurrentUserRelative
        ("user".toList :: ctx.user.userId :: second :: suffix) ctx = false := by
      rw [isCurrentUserRelative]
      simp
    exact ⟨_, _, hclean.cons (userId_chars ctx), resolveUserUri_explicit hexplicit hr⟩

end OpenViking.Fs
