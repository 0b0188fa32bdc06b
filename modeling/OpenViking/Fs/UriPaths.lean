import Mathlib.Data.List.Forall2
import OpenViking.Fs.Guards

/-!
# URIs and storage paths

`_path_to_uri` and `_uri_to_path` of `VikingFS` (`storage/viking_fs.py`, 2527-2561 and 2861-2882)
against each other.  A path of the user scope goes through `uri_parts`, which cuts off what follows a
question mark, and a component of more than 255 bytes gets a name that an ordinary component can have.

Results:

* `uriToPath_pathToUri_iff`: which storage paths come back from their URIs;
* `shortenComponent_eq_iff`: which components get the same name;
* `correspond_iff`: both, for whole paths and for pairs of URIs.
-/

namespace OpenViking.Fs

variable {env : Env} {ctx : RequestContext}

/-- `_path_to_uri` (2861-2882) of a storage path. -/
def pathToUri (path : Path) (ctx : RequestContext) : Str :=
  let inner := path.drop 1
  scheme ++ joinSlash (if inner.head? = some ctx.user.accountId then inner.drop 1 else inner)

/-! ## Shortened components -/

/-- What `hashlib.sha256(…).hexdigest()` is like: 64 digits in lower case. -/
def HexDigest (env : Env) : Prop :=
  ∀ t, (env.sha256 t).length = 64 ∧ ∀ c ∈ env.sha256 t, c.isDigit = true ∨ 'a' ≤ c ∧ c ≤ 'f'

/-- The digits that `_shorten_component` puts behind the underscore. -/
def hashDigits (env : Env) (component : Str) : Str := (env.sha256 component).take 8

/-- What `_shorten_component` keeps of a component that is too long. -/
def keptPart (component : Str) : Str := (trimLast 246 component.reverse).reverse

theorem utf8Size_of_hex {c : Char} (h : c.isDigit = true ∨ 'a' ≤ c ∧ c ≤ 'f') : c.utf8Size = 1 := by
  have hle : c.val ≤ 0x7f := by
    rcases h with h | ⟨-, h⟩
    · rw [Char.isDigit, Bool.and_eq_true, decide_eq_true_iff, decide_eq_true_iff] at h
      exact UInt32.le_trans h.2 (by decide)
    · exact UInt32.le_trans (show c.val ≤ 'f'.val from h) (by decide)
  rw [Char.utf8Size]
  exact if_pos hle

theorem HexDigest.length (h : HexDigest env) (t : Str) : (hashDigits env t).length = 8 := by
  rw [hashDigits, List.length_take, (h t).1]
  rfl

theorem HexDigest.hex (h : HexDigest env) {t : Str} {c : Char} (hc : c ∈ hashDigits env t) :
    c.isDigit = true ∨ 'a' ≤ c ∧ c ≤ 'f' := (h t).2 c (List.mem_of_mem_take hc)

theorem HexDigest.utf8Length (h : HexDigest env) (t : Str) : utf8Length ('_' :: hashDigits env t) = 9 := by
  have hsum : ∀ l : Str, (∀ c ∈ l, c.utf8Size = 1) → Fs.utf8Length l = l.length := by
    intro l hl
    induction l with
    | nil => rfl
    | cons c l ih =>
      rw [List.forall_mem_cons] at hl
      rw [Fs.utf8Length, List.map_cons, List.sum_cons, hl.1, List.length_cons]
      have := ih hl.2
      rw [Fs.utf8Length] at this
      omega
  rw [hsum, List.length_cons, h.length]
  intro c hc
  rcases List.mem_cons.1 hc with rfl | hc
  · decide
  · exact utf8Size_of_hex (h.hex hc)

/-- A component that is too long becomes what is kept of it, an underscore and eight digits. -/
theorem shortenComponent_long (h : HexDigest env) {c : Str} (hc : 255 < utf8Length c) :
    shortenComponent env c = keptPart c ++ '_' :: hashDigits env c := by
  rw [shortenComponent, if_neg (by omega)]
  show (trimLast (255 - utf8Length ('_' :: hashDigits env c)) c.reverse).reverse ++ _ = _
  rw [h.utf8Length]
  rfl

theorem trimLast_suffix (target : ℕ) (t : Str) : trimLast target t <:+ t := by
  induction t with
  | nil => exact List.suffix_refl _
  | cons c t ih =>
    rw [trimLast]
    split_ifs
    · exact ih.trans (List.suffix_cons c t)
    · exact List.suffix_refl _

theorem keptPart_isPrefix (c : Str) : keptPart c <+: c := by
  have := List.reverse_prefix.2 (trimLast_suffix 246 c.reverse)
  rwa [List.reverse_reverse] at this

/-- When `_shorten_component` gives two components one name: they are the same, one is the shortened
form of the other, or both are too long and what is left of them and of their digests is the same. -/
def Confused (env : Env) (c c' : Str) : Prop :=
  c = c' ∨
  255 < utf8Length c ∧ utf8Length c' ≤ 255 ∧ c' = keptPart c ++ '_' :: hashDigits env c ∨
  utf8Length c ≤ 255 ∧ 255 < utf8Length c' ∧ c = keptPart c' ++ '_' :: hashDigits env c' ∨
  255 < utf8Length c ∧ 255 < utf8Length c' ∧ keptPart c = keptPart c' ∧
    hashDigits env c = hashDigits env c'

/-- **Which components get the same name.** -/
theorem shortenComponent_eq_iff (h : HexDigest env) {c c' : Str} :
    shortenComponent env c = shortenComponent env c' ↔ Confused env c c' := by
  unfold Confused
  by_cases hc : utf8Length c ≤ 255
  · by_cases hc' : utf8Length c' ≤ 255
    · rw [shortenComponent_short hc, shortenComponent_short hc']
      simp only [Nat.not_lt.2 hc, Nat.not_lt.2 hc', false_and, and_false, or_false]
    · rw [shortenComponent_short hc, shortenComponent_long h (by omega)]
      have hne : c ≠ c' := by
        rintro rfl
        exact hc' hc
      simp only [hne, hc, Nat.not_lt.2 hc, Nat.lt_of_not_le hc', false_and, false_or, true_and, or_false]
  · by_cases hc' : utf8Length c' ≤ 255
    · rw [shortenComponent_long h (by omega), shortenComponent_short hc']
      have hne : c ≠ c' := by
        rintro rfl
        exact hc hc'
      simp only [hne, hc, hc', Nat.not_lt.2 hc', Nat.lt_of_not_le hc, false_and, and_false, false_or,
        true_and, or_false]
      exact eq_comm
    · rw [shortenComponent_long h (by omega), shortenComponent_long h (by omega)]
      have hlength : ('_' :: hashDigits env c).length = ('_' :: hashDigits env c').length := by
        rw [List.length_cons, List.length_cons, h.length, h.length]
      have hsplit : keptPart c ++ '_' :: hashDigits env c = keptPart c' ++ '_' :: hashDigits env c' ↔
          keptPart c = keptPart c' ∧ hashDigits env c = hashDigits env c' := by
        constructor
        · intro heq
          obtain ⟨hkept, hdigits⟩ := List.append_inj' heq hlength
          exact ⟨hkept, (List.cons.inj hdigits).2⟩
        · rintro ⟨hkept, hdigits⟩
          rw [hkept, hdigits]
      rw [hsplit]
      simp only [hc, hc', Nat.lt_of_not_le hc, Nat.lt_of_not_le hc', false_and, and_false, false_or,
        true_and]
      refine (or_iff_right_of_imp ?_).symm
      rintro rfl
      exact ⟨rfl, rfl⟩

theorem map_shortenComponent_eq_iff (h : HexDigest env) {parts parts' : List Str} :
    parts.map (shortenComponent env) = parts'.map (shortenComponent env) ↔
      List.Forall₂ (Confused env) parts parts' := by
  rw [← List.forall₂_eq_eq_eq, List.forall₂_map_left_iff, List.forall₂_map_right_iff]
  simp only [shortenComponent_eq_iff h]

/-- A question mark is in no shortened form. -/
theorem query_not_mem_shortenComponent (h : HexDigest env) {c : Str} (hc : '?' ∉ c) :
    '?' ∉ shortenComponent env c := by
  by_cases hlen : utf8Length c ≤ 255
  · rwa [shortenComponent_short hlen]
  · rw [shortenComponent_long h (by omega)]
    intro hmem
    rcases List.mem_append.1 hmem with hkept | hdigits
    · exact hc ((keptPart_isPrefix c).subset hkept)
    · rcases List.mem_cons.1 hdigits with heq | hdigits
      · exact absurd heq (by decide)
      · have hhex := h.hex hdigits
        revert hhex
        decide

/-! ## From a path to its URI and back -/

/-- The segments of the canonical form of a URI. -/
def canonicalSegments (env : Env) (uri : Str) (ctx : RequestContext) : Except AccessError (List Str) :=
  match canonicalizeUri uri ctx with
  | .error message => .error (.shape message)
  | .ok canonicalUri => normalizedUriParts env canonicalUri

/-- The paths below an account that the interface shows: `/local/{account}/{scope}/…` with components
that are neither empty nor unsafe, in the user scope below the caller. -/
structure Stored (env : Env) (ctx : RequestContext) (scope : Str) (rest : List Str) : Prop where
  scope_mem : scope ∈ publicScopes
  owner : scope = "user".toList → rest.head? = some ctx.user.userId
  proper : ∀ part ∈ scope :: rest, part ≠ [] ∧ '/' ∉ part
  safe : ∀ part ∈ scope :: rest, ∀ normalized, unsafePart env normalized part = none

variable {scope : Str} {rest : List Str}

/-- The URI is only in the text of the error. -/
theorem unsafePart_eq_none {part : Str} (normalized : Str) :
    unsafePart env normalized part = none ↔ unsafePart env [] part = none := by
  unfold unsafePart
  split_ifs
  · simp
  · simp
  · split
    · split_ifs <;> simp
    · simp

theorem safe_of_all {parts : List Str} (h : (parts.all fun p => (unsafePart env [] p).isNone) = true) :
    ∀ part ∈ parts, ∀ normalized, unsafePart env normalized part = none := by
  intro part hpart normalized
  rw [unsafePart_eq_none]
  exact Option.isNone_iff_eq_none.1 (List.all_eq_true.1 h part hpart)

theorem pathToUri_accountRoot (parts : List Str) :
    pathToUri (accountRoot ctx ++ parts) ctx = scheme ++ joinSlash parts := by
  rw [pathToUri, accountRoot]
  show scheme ++ joinSlash (if some ctx.user.accountId = some ctx.user.accountId then parts else _) = _
  rw [if_pos rfl]

theorem Stored.rawParts_eq (h : Stored env ctx scope rest) :
    rawParts (pathToUri (accountRoot ctx ++ scope :: rest) ctx) = scope :: rest := by
  rw [pathToUri_accountRoot, rawParts_scheme, segments_joinSlash h.proper]

theorem Stored.uriParts_eq (h : Stored env ctx scope rest) :
    ∃ rest', uriParts (pathToUri (accountRoot ctx ++ scope :: rest) ctx) = scope :: rest' := by
  refine uriParts_of_rawParts h.rawParts_eq ?_
  have hquery : ∀ scope ∈ publicScopes, '?' ∉ scope := by decide
  exact hquery scope h.scope_mem

theorem normalizedUriParts_of_safe {uri : Str}
    (h : ∀ part ∈ Fs.rawParts uri, ∀ normalized, unsafePart env normalized part = none) :
    normalizedUriParts env uri = .ok (Fs.rawParts uri) := by
  rw [normalizedUriParts, List.findSome?_eq_none_iff.2 fun part hpart => h part hpart _]

theorem Stored.normalized (h : Stored env ctx scope rest) :
    normalizedUriParts env (pathToUri (accountRoot ctx ++ scope :: rest) ctx) =
      .ok (scope :: rest) := by
  rw [normalizedUriParts_of_safe (by rw [h.rawParts_eq]; exact h.safe), h.rawParts_eq]

/-- The path of a URI is made of the segments of its canonical form. -/
theorem uriToPath_segments {uri : Str} {path : Path} (h : uriToPath env uri ctx = .ok path)
    {parts : List Str} (hparts : canonicalSegments env uri ctx = .ok parts) :
    path = accountRoot ctx ++ parts.map (shortenComponent env) := by
  rw [canonicalSegments, canonicalizeUri] at hparts
  rcases uriToPath_ok h with ⟨hagent, rfl⟩ | ⟨r, hr, rfl⟩
  · -- the old form of an agent URI is its canonical form, slashes at the end aside
    cases hraw : rawParts uri with
    | nil =>
      rw [hraw] at hagent
      cases hagent
    | cons scope rest =>
      have hscope := agent_of_isLegacyAgentId (hraw ▸ hagent)
      subst hscope
      obtain ⟨rest', hrest⟩ := uriParts_of_rawParts hraw (by decide)
      rw [resolveUri_other hrest (by decide) (by decide)] at hparts
      have hsame := @rawParts_rstripSlash uri (by rw [hraw]; exact List.cons_ne_nil _ _)
      rw [normalizedUriParts_ok hparts, hsame, hraw]
  · rw [hr] at hparts
    rw [normalizedUriParts_ok hparts]

theorem Stored.resolve_other (h : Stored env ctx scope rest) (huser : scope ≠ "user".toList) :
    resolveUri (pathToUri (accountRoot ctx ++ scope :: rest) ctx) ctx =
      .ok ⟨rstripSlash (normalize (pathToUri (accountRoot ctx ++ scope :: rest) ctx)), scope, none,
        false⟩ := by
  obtain ⟨rest', hrest⟩ := h.uriParts_eq
  have hsession : "session".toList ∉ publicScopes := by decide
  refine resolveUri_other hrest huser ?_
  rintro rfl
  exact hsession h.scope_mem

/-- A path of the user scope that has a question mark is not that of its URI. -/
theorem Stored.query (hsha : HexDigest env) (h : Stored env ctx "user".toList rest)
    (hquery : ∃ part ∈ rest, '?' ∈ part) :
    uriToPath env (pathToUri (accountRoot ctx ++ "user".toList :: rest) ctx) ctx ≠
      .ok (accountRoot ctx ++ "user".toList :: rest) := by
  intro hpath
  obtain ⟨part, hpart, hq⟩ := hquery
  -- the segments of the canonical form are those before the question mark
  have hclean : ∀ r, resolveUri (pathToUri (accountRoot ctx ++ "user".toList :: rest) ctx) ctx =
      .ok r → Clean (rawParts r.uri) := by
    intro r hr
    obtain ⟨rest', hrest⟩ := h.uriParts_eq
    cases rest' with
    | nil =>
      rw [resolveUri_userRoot hrest] at hr
      obtain rfl := Except.ok.inj hr
      have huser : rawParts (scheme ++ "user".toList) = ["user".toList] := by decide +kernel
      rw [huser]
      exact Clean.cons user_clean fun _ h => (List.not_mem_nil h).elim
    | cons second suffix =>
      obtain ⟨owner, tail, howner, rfl⟩ := resolveUri_user hrest hr
      rw [rawParts_userUri howner]
      exact howner.cons user_clean
  rcases uriToPath_ok hpath with ⟨hagent, -⟩ | ⟨r, hr, heq⟩
  · rw [h.rawParts_eq] at hagent
    exact absurd (agent_of_isLegacyAgentId hagent) (by decide)
  · have hmem : part ∈ (rawParts r.uri).map (shortenComponent env) := by
      rw [← List.append_cancel_left heq]
      exact List.mem_cons_of_mem _ hpart
    obtain ⟨c, hc, rfl⟩ := List.mem_map.1 hmem
    exact query_not_mem_shortenComponent hsha (hclean r hr c hc).2.2 hq

/-- Without question marks the canonical form is the URI, if the peer ids are valid. -/
theorem Stored.resolve_user (h : Stored env ctx "user".toList rest) (hquery : ∀ part ∈ rest, '?' ∉ part) :
    canonicalizeUri (pathToUri (accountRoot ctx ++ "user".toList :: rest) ctx) ctx =
      match validatePeerIdSegments ("user".toList :: rest) with
      | some error => .error error
      | none => .ok (pathToUri (accountRoot ctx ++ "user".toList :: rest) ctx) := by
  obtain ⟨suffix, rfl⟩ : ∃ suffix, rest = ctx.user.userId :: suffix := by
    have howner := h.owner rfl
    cases rest with
    | nil => cases howner
    | cons second suffix => exact ⟨suffix, by rw [Option.some.inj howner]⟩
  have hclean : Clean ("user".toList :: ctx.user.userId :: suffix) :=
    Clean.cons user_clean fun part hpart =>
      ⟨(h.proper part (List.mem_cons_of_mem _ hpart)).1,
        (h.proper part (List.mem_cons_of_mem _ hpart)).2, hquery part hpart⟩
  have hparts := uriParts_of_pathText (pathText_scheme _) hclean
  have hrel : isCurrentUserRelative ("user".toList :: ctx.user.userId :: suffix) ctx = false := by
    simp [isCurrentUserRelative]
  have hvalid : validateUserId ctx.user.userId = none := ctx.user.userId_valid
  rw [pathToUri_accountRoot, canonicalizeUri, resolveUri, resolveWith, hparts]
  simp only [if_true, resolveUserUri, hrel, hvalid]
  have huri := userUri_eq ctx.user.userId suffix
  rw [userUri] at huri
  rw [huri]
  by_cases hnil : suffix = []
  · subst hnil
    rfl
  · rw [if_neg hnil, if_neg hnil]
    cases validatePeerIdSegments ("user".toList :: ctx.user.userId :: suffix) <;> rfl

/-- **Which paths come back from their URIs**: outside the user scope all, in the user scope those
without a question mark whose peer ids are valid. -/
theorem uriToPath_pathToUri_iff (hsha : HexDigest env) (h : Stored env ctx scope rest)
    (hlen : ∀ part ∈ scope :: rest, utf8Length part ≤ 255) :
    uriToPath env (pathToUri (accountRoot ctx ++ scope :: rest) ctx) ctx =
        .ok (accountRoot ctx ++ scope :: rest) ↔
      (scope = "user".toList →
        (∀ part ∈ rest, '?' ∉ part) ∧ validatePeerIdSegments (scope :: rest) = none) := by
  have hshort : (scope :: rest).map (shortenComponent env) = scope :: rest :=
    (List.map_congr_left fun part hpart => shortenComponent_short (hlen part hpart)).trans
      (List.map_id _)
  by_cases huser : scope = "user".toList
  · subst huser
    simp only [true_implies]
    by_cases hquery : ∃ part ∈ rest, '?' ∈ part
    · refine iff_of_false (h.query hsha hquery) fun hplain => ?_
      obtain ⟨part, hpart, hq⟩ := hquery
      exact hplain.1 part hpart hq
    · have hno : ∀ part ∈ rest, '?' ∉ part := fun part hpart hq => hquery ⟨part, hpart, hq⟩
      have hagent : ¬ isLegacyAgentId ("user".toList :: rest) = true := fun hagent =>
        absurd (agent_of_isLegacyAgentId hagent) (by decide)
      rw [uriToPath, h.normalized]
      simp only [if_neg hagent, h.resolve_user hno]
      cases hpeer : validatePeerIdSegments ("user".toList :: rest) with
      | some error => simp
      | none =>
        simp only [h.normalized, hshort, true_iff]
        exact ⟨hno, trivial⟩
  · simp only [huser, false_implies, iff_true]
    rw [uriToPath, h.normalized]
    dsimp only
    by_cases hagent : isLegacyAgentId (scope :: rest) = true
    · rw [if_pos hagent, hshort]
    · have hsame := @rawParts_rstripSlash (pathToUri (accountRoot ctx ++ scope :: rest) ctx)
        (by rw [h.rawParts_eq]; exact List.cons_ne_nil _ _)
      have hsafe := @normalizedUriParts_of_safe env
        (rstripSlash (normalize (pathToUri (accountRoot ctx ++ scope :: rest) ctx)))
      rw [hsame, h.rawParts_eq] at hsafe
      rw [if_neg hagent, canonicalizeUri, h.resolve_other huser]
      simp only [Except.map, hsafe h.safe, hshort]

/-! ## Both ways -/

/-- **How far URIs and storage paths correspond.**  A storage path comes back from its URI unless it is in
the user scope and has a question mark or an invalid peer id; and two URIs with different canonical
segments have different paths unless the segments are confused one by one. -/
theorem correspond_iff (env : Env) (hsha : HexDigest env) (ctx : RequestContext) :
    (∀ scope rest, Stored env ctx scope rest → (∀ part ∈ scope :: rest, utf8Length part ≤ 255) →
      (uriToPath env (pathToUri (accountRoot ctx ++ scope :: rest) ctx) ctx =
          .ok (accountRoot ctx ++ scope :: rest) ↔
        (scope = "user".toList →
          (∀ part ∈ rest, '?' ∉ part) ∧ validatePeerIdSegments (scope :: rest) = none))) ∧
    ∀ uri uri' path path' parts parts', uriToPath env uri ctx = .ok path →
      uriToPath env uri' ctx = .ok path' → canonicalSegments env uri ctx = .ok parts →
      canonicalSegments env uri' ctx = .ok parts' → parts ≠ parts' →
      (path ≠ path' ↔ ¬ List.Forall₂ (Confused env) parts parts') := by
  refine ⟨fun scope rest h hlen => uriToPath_pathToUri_iff hsha h hlen, ?_⟩
  intro uri uri' path path' parts parts' hpath hpath' hparts hparts' _
  rw [uriToPath_segments hpath hparts, uriToPath_segments hpath' hparts', ne_eq,
    List.append_cancel_left_eq, map_shortenComponent_eq_iff hsha]

/-! ## Where they do not correspond -/

/-- The letters and digits of ASCII, and the digest of 256 times the letter a. -/
def digestEnv : Env :=
  ⟨Char.isAlpha, Char.isDigit, fun _ =>
    "02d7160d77e18c6447be80c2e355c7ed4388545271702c50253b0914c65ce5fe".toList⟩

theorem hexDigest_digestEnv : HexDigest digestEnv := by
  intro t
  show "02d7160d77e18c6447be80c2e355c7ed4388545271702c50253b0914c65ce5fe".toList.length = 64 ∧
    ∀ c ∈ "02d7160d77e18c6447be80c2e355c7ed4388545271702c50253b0914c65ce5fe".toList, _
  refine ⟨by decide, ?_⟩
  have hall : ("02d7160d77e18c6447be80c2e355c7ed4388545271702c50253b0914c65ce5fe".toList.all fun c =>
      c.isDigit || decide ('a' ≤ c ∧ c ≤ 'f')) = true := by decide +kernel
  intro c hc
  simpa using List.all_eq_true.1 hall c hc

theorem correspond_iff_notes :
    uriToPath digestEnv (pathToUri (["local", "acme", "user", "alice", "notes"].map String.toList) alice)
        alice = .ok (["local", "acme", "user", "alice", "notes"].map String.toList) ∧
      ∀ path path', uriToPath digestEnv "viking://resources/a".toList alice = .ok path →
        uriToPath digestEnv "viking://resources/b".toList alice = .ok path' → path ≠ path' := by
  have hstored : Stored digestEnv alice "user".toList (["alice", "notes"].map String.toList) :=
    ⟨by decide, fun _ => by decide, by decide, safe_of_all (by decide)⟩
  obtain ⟨hback, happart⟩ := correspond_iff digestEnv hexDigest_digestEnv alice
  refine ⟨(hback _ _ hstored (by decide)).2 fun _ => ⟨by decide, by decide⟩, fun path path' h h' => ?_⟩
  refine (happart _ _ path path' (["resources", "a"].map String.toList)
    (["resources", "b"].map String.toList) h h' (by decide +kernel) (by decide +kernel) (by decide)).2 ?_
  intro hconfused
  have hmap := (map_shortenComponent_eq_iff hexDigest_digestEnv).2 hconfused
  revert hmap
  decide

/-- A component of 256 bytes. -/
def overlong : Str := List.replicate 256 'a'

/-- The name that it gets. -/
def shortened : Str := List.replicate 246 'a' ++ "_02d7160d".toList

/-- The path of a file of the user scope with a question mark in its name does not come back, and a long
name and an ordinary one have the same path. -/
theorem not_correspond :
    (Stored digestEnv alice "user".toList (["alice", "x?y"].map String.toList) ∧
      uriToPath digestEnv
          (pathToUri (["local", "acme", "user", "alice", "x?y"].map String.toList) alice) alice =
        .ok (["local", "acme", "user", "alice", "x"].map String.toList)) ∧
    canonicalSegments digestEnv ("viking://resources/".toList ++ overlong) alice =
        .ok ["resources".toList, overlong] ∧
      canonicalSegments digestEnv ("viking://resources/".toList ++ shortened) alice =
        .ok ["resources".toList, shortened] ∧ overlong ≠ shortened ∧
      uriToPath digestEnv ("viking://resources/".toList ++ overlong) alice =
        .ok (["local", "acme", "resources"].map String.toList ++ [shortened]) ∧
      uriToPath digestEnv ("viking://resources/".toList ++ shortened) alice =
        .ok (["local", "acme", "resources"].map String.toList ++ [shortened]) := by
  have hne : overlong ≠ shortened := fun heq =>
    absurd (congrArg List.getLast? heq) (by decide +kernel)
  exact ⟨⟨⟨by decide, fun _ => by decide, by decide, safe_of_all (by decide)⟩, by decide +kernel⟩,
    by decide +kernel, by decide +kernel, hne, by decide +kernel, by decide +kernel⟩

end OpenViking.Fs
