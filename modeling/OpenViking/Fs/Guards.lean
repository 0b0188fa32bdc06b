import OpenViking.Fs.Access

/-!
# The guards and the storage paths

What a user who passes the guards of `VikingFS` can reach: the guards look at the segments of the URI,
and the storage path is built from its canonical form, in which a question mark ends a URI of the user
scope.  Deleting `viking://user` is refused, deleting `viking://user/?` is not.

* `reachable_of_access`: the path of a URI that can be accessed;
* `guards_agree_iff`: the URIs for which guards and paths agree.
-/

namespace OpenViking.Fs

open Memory (isSpace strip)

variable {env : Env} {ctx : RequestContext} {uri : Str}

/-! ## Validated URIs -/

variable {t scope owner : Str}

/-- A text without segments has nothing but slashes. -/
theorem eq_slash_of_segments_eq_nil (h : segments t = []) {c : Char} (hc : c ∈ t) : c = '/' := by
  have hjoin : joinSlash (t.splitOn '/') = t := List.intercalate_splitOn '/'
  rw [← hjoin] at hc
  rcases mem_joinSlash hc with hc | ⟨part, hpart, hc⟩
  · exact hc
  · have hmem : part ∈ segments t :=
      List.mem_filter.2 ⟨hpart, decide_eq_true (List.ne_nil_of_mem hc)⟩
    rw [h] at hmem
    cases hmem

theorem segments_lstripSlash (t : Str) : segments (lstripSlash t) = segments t := by
  induction t with
  | nil => rfl
  | cons c t ih =>
    by_cases hc : c = '/'
    · rw [hc, segments_slash, ← ih, lstripSlash, List.dropWhile_cons_of_pos (by decide)]
      rfl
    · rw [lstripSlash, List.dropWhile_cons_of_neg (by simpa using hc)]

/-- The scopes have no slash and no question mark in them. -/
theorem visitableScopes_clean : Clean visitableScopes := by
  intro scope h
  have hall : (visitableScopes.all fun s => !s.isEmpty && !s.contains '/' && !s.contains '?') = true := by
    decide
  have := List.all_eq_true.1 hall scope h
  simpa [and_assoc] using this

/-- A scope is the first segment of both readings of a URI. -/
theorem parts_of_parseScope (h : parseScope uri = some scope) :
    (scope = [] ∧ rawParts uri = [] ∧ uriParts uri = []) ∨
      (scope ∈ visitableScopes ∧ ∃ rest rest', rawParts uri = scope :: rest ∧
        uriParts uri = scope :: rest') := by
  rw [parseScope, ← pathText] at h
  rw [uriParts_eq, rawParts, ← pathText]
  dsimp only at h
  generalize pathText uri = path at h
  split_ifs at h with hblank hvisit
  · obtain rfl := Option.some_inj.1 h
    have hraw : segments path = [] := by
      rw [← segments_lstripSlash, ← segments_rstripSlash, hblank, segments_nil]
    have hq : path.takeWhile (· ≠ '?') = path := by
      refine List.takeWhile_eq_self_iff.2 fun c hc => ?_
      rw [eq_slash_of_segments_eq_nil hraw hc]
      decide
    exact .inl ⟨rfl, hraw, by rw [hq, hraw]⟩
  · obtain rfl := Option.some_inj.1 h
    obtain ⟨first, rest, hsplit⟩ := List.exists_cons_of_ne_nil (List.splitOn_ne_nil '/' path)
    rw [hsplit, List.headD_cons] at hvisit ⊢
    obtain ⟨hne, hslash, hq⟩ := visitableScopes_clean first hvisit
    have hwhile : ∀ t, (first ++ t).takeWhile (· ≠ '?') = first ++ t.takeWhile (· ≠ '?') := by
      refine fun t => List.takeWhile_append_of_pos fun c hc => ?_
      rw [decide_eq_true_iff]
      rintro rfl
      exact hq hc
    have hjoin : joinSlash (path.splitOn '/') = path := List.intercalate_splitOn '/'
    rw [hsplit] at hjoin
    refine .inr ⟨hvisit, ?_⟩
    by_cases hrest : rest = []
    · rw [hrest, joinSlash, List.intercalate_singleton] at hjoin
      have htake := hwhile []
      rw [List.append_nil, List.takeWhile_nil, List.append_nil] at htake
      rw [← hjoin, htake, segments_single hne hslash]
      exact ⟨[], [], rfl, rfl⟩
    · rw [joinSlash_cons _ hrest] at hjoin
      rw [← hjoin, hwhile, List.takeWhile_cons_of_pos (by decide), segments_append hne hslash,
        segments_append hne hslash]
      exact ⟨_, _, rfl, rfl⟩

theorem validated_parts {raw : Str} {fieldName : String} {allowInternal : Bool} {allowed : Option (List Str)}
    (h : validateVikingUri uri fieldName allowInternal allowed = .ok raw) :
    (rawParts raw = [] ∧ uriParts raw = []) ∨ ∃ scope ∈ visitableScopes, ∃ rest rest',
      rawParts raw = scope :: rest ∧ uriParts raw = scope :: rest' := by
  rw [validateVikingUri] at h
  dsimp only at h
  by_cases hblank : strip uri = []
  · rw [if_pos hblank] at h
    cases h
  · rw [if_neg hblank] at h
    generalize (if scheme <+: strip uri then none else schemeMatch (strip uri)) = name at h
    cases name with
    | some name => cases h
    | none =>
      dsimp only at h
      cases hscope : parseScope (strip uri) with
      | none =>
        rw [hscope] at h
        cases h
      | some scope =>
        rw [hscope] at h
        dsimp only at h
        split_ifs at h
        obtain rfl := Except.ok.inj h
        rcases parts_of_parseScope hscope with ⟨-, hparts⟩ | ⟨hvisit, hparts⟩
        · exact .inl hparts
        · exact .inr ⟨scope, hvisit, hparts⟩

/-! ## Scopes -/

variable {rest parts : List Str}

/-- A question mark ends no segment before the first. -/
theorem segments_takeWhile (h : segments t = scope :: rest)
    (hq : '?' ∉ scope) : ∃ rest', segments (t.takeWhile (· ≠ '?')) = scope :: rest' := by
  induction t with
  | nil => cases h
  | cons c t ih =>
    by_cases hc : c = '/'
    · rw [hc, segments_slash] at h
      obtain ⟨rest', h'⟩ := ih h
      refine ⟨rest', ?_⟩
      rw [hc, List.takeWhile_cons_of_pos (by decide), segments_slash, h']
    · -- the first segment is what stands before the next slash
      have hsplit := List.takeWhile_append_dropWhile (p := fun c => decide (c ≠ '/')) (l := c :: t)
      have hne : (c :: t).takeWhile (fun c => decide (c ≠ '/')) ≠ [] := by
        rw [List.takeWhile_cons_of_pos (by simpa using hc)]
        exact List.cons_ne_nil _ _
      have hslash : '/' ∉ (c :: t).takeWhile (fun c => decide (c ≠ '/')) := fun hmem => by
        have := List.mem_takeWhile_imp hmem
        simp at this
      generalize (c :: t).takeWhile (fun c => decide (c ≠ '/')) = part at hsplit hne hslash
      have hwhile : ∀ tail : Str, (∀ c ∈ part, c ≠ '?') →
          (part ++ tail).takeWhile (· ≠ '?') = part ++ tail.takeWhile (· ≠ '?') := fun tail hpart =>
        List.takeWhile_append_of_pos fun c hc => decide_eq_true (hpart c hc)
      cases hdrop : (c :: t).dropWhile (fun c => decide (c ≠ '/')) with
      | nil =>
        rw [hdrop, List.append_nil] at hsplit
        rw [← hsplit, segments_single hne hslash] at h
        obtain ⟨rfl, -⟩ := List.cons.inj h
        refine ⟨[], ?_⟩
        rw [← hsplit, List.takeWhile_eq_self_iff.2 fun c hc => ?_, segments_single hne hslash]
        rw [decide_eq_true_iff]
        rintro rfl
        exact hq hc
      | cons d tail =>
        have hd := List.head?_dropWhile_not (fun c => decide (c ≠ '/')) (c :: t)
        rw [hdrop, List.head?_cons] at hd
        have hd : d = '/' := of_not_not (of_decide_eq_false hd)
        rw [hdrop, hd] at hsplit
        rw [← hsplit, segments_append hne hslash] at h
        obtain ⟨rfl, -⟩ := List.cons.inj h
        refine ⟨segments (tail.takeWhile (· ≠ '?')), ?_⟩
        rw [← hsplit, hwhile _ fun c hc heq => hq (heq ▸ hc), List.takeWhile_cons_of_pos (by decide),
          segments_append hne hslash]

theorem uriParts_of_rawParts {uri : Str} (h : rawParts uri = scope :: rest)
    (hq : '?' ∉ scope) : ∃ rest', uriParts uri = scope :: rest' := by
  rw [uriParts_eq]
  exact segments_takeWhile h hq

/-! ## Paths -/

theorem normalizedUriParts_ok (h : normalizedUriParts env uri = .ok parts) : parts = rawParts uri := by
  unfold normalizedUriParts at h
  split at h
  · cases h
  · exact (Except.ok.inj h).symm

theorem rawParts_scheme (t : Str) : rawParts (scheme ++ t) = segments t := by
  rw [rawParts, ← pathText, pathText_scheme]

theorem rawParts_userUri {suffix : List Str} (h : Clean (owner :: suffix)) :
    rawParts (userUri owner suffix) = "user".toList :: owner :: suffix := by
  rw [userUri, rawParts_scheme]
  exact segments_joinSlash fun part hpart =>
    ⟨(h.cons user_clean part hpart).1, (h.cons user_clean part hpart).2.1⟩

theorem pathText_rstripSlash (uri : Str) (h : rawParts uri ≠ []) :
    pathText (rstripSlash (normalize uri)) = rstripSlash (pathText uri) := by
  have hne : rstripSlash (pathText uri) ≠ [] := by
    intro hnil
    refine h ?_
    rw [rawParts, ← pathText, ← segments_rstripSlash, hnil, segments_nil]
  rw [normalize_eq, rstripSlash_append_of_ne_nil _ hne, pathText_scheme]

/-- Without the slashes at its end a URI has the segments it had. -/
theorem rawParts_rstripSlash (h : rawParts uri ≠ []) :
    rawParts (rstripSlash (normalize uri)) = rawParts uri := by
  rw [rawParts, ← pathText, pathText_rstripSlash uri h, segments_rstripSlash]
  rfl

theorem shortenComponent_short {component : Str} (h : utf8Length component ≤ 255) :
    shortenComponent env component = component := by
  rw [shortenComponent, if_pos h]

theorem agent_of_isLegacyAgentId (h : isLegacyAgentId (scope :: rest) = true) : scope = "agent".toList := by
  cases rest with
  | nil => cases h
  | cons second rest =>
    rw [isLegacyAgentId, decide_eq_true_iff] at h
    exact h.1

variable {path d : Path}

theorem uriToPath_ok (h : uriToPath env uri ctx = .ok path) :
    (isLegacyAgentId (rawParts uri) = true ∧
      path = accountRoot ctx ++ (rawParts uri).map (shortenComponent env)) ∨
    ∃ r, resolveUri uri ctx = .ok r ∧
      path = accountRoot ctx ++ (rawParts r.uri).map (shortenComponent env) := by
  rw [uriToPath] at h
  cases hlegacy : normalizedUriParts env uri with
  | error e =>
    rw [hlegacy] at h
    cases h
  | ok legacyParts =>
    rw [hlegacy, normalizedUriParts_ok hlegacy] at h
    dsimp only at h
    by_cases hagent : isLegacyAgentId (rawParts uri) = true
    · rw [if_pos hagent] at h
      exact .inl ⟨hagent, (Except.ok.inj h).symm⟩
    · rw [if_neg hagent, canonicalizeUri] at h
      cases hr : resolveUri uri ctx with
      | error e =>
        rw [hr] at h
        cases h
      | ok r =>
        rw [hr] at h
        dsimp only [Except.map] at h
        cases hparts : normalizedUriParts env r.uri with
        | error e =>
          rw [hparts] at h
          cases h
        | ok parts =>
          rw [hparts, normalizedUriParts_ok hparts] at h
          exact .inr ⟨r, rfl, (Except.ok.inj h).symm⟩

/-! ## The directories of others -/

/-- The directories that a user may not touch: those of the other users, the uploads and the system. -/
inductive Forbidden (ctx : RequestContext) : Path → Prop
  | user {v : Str} (h : v ≠ ctx.user.userId) : Forbidden ctx (accountRoot ctx ++ ["user".toList, v])
  | upload : Forbidden ctx (accountRoot ctx ++ ["upload".toList])
  | system : Forbidden ctx (accountRoot ctx ++ ["_system".toList])

/-- Where the path of a URI that can be accessed is: in the account itself, at the directory of all
users, in that of the user of the context, or below another scope. -/
inductive Reachable (ctx : RequestContext) (uri : Str) : Path → Prop
  | account (h : rawParts uri = []) : Reachable ctx uri (accountRoot ctx)
  | users (h : uriParts uri = ["user".toList]) :
      Reachable ctx uri (accountRoot ctx ++ ["user".toList])
  | own (rest : List Str) :
      Reachable ctx uri (accountRoot ctx ++ "user".toList :: ctx.user.userId :: rest)
  | scope {scope : Str} (huser : scope ≠ "user".toList) (hupload : scope ≠ "upload".toList)
      (hsystem : scope ≠ "_system".toList) (rest : List Str) :
      Reachable ctx uri (accountRoot ctx ++ scope :: rest)

theorem Reachable.not_below (h : Reachable ctx uri path) (hd : Forbidden ctx d) : ¬ d <+: path := by
  cases h with
  | account =>
    intro hp
    have := hp.length_le
    cases hd <;> simp at this
  | users =>
    cases hd with
    | user hv => simp
    | upload => simp
    | system => simp
  | own rest =>
    cases hd with
    | user hv => simpa using hv
    | upload => simp
    | system => simp
  | scope hu hup hs rest =>
    cases hd with
    | user hv => simpa using fun h => absurd h.symm hu
    | upload => simpa using hup.symm
    | system => simpa using hs.symm

theorem Reachable.not_above (h : Reachable ctx uri path) (hd : Forbidden ctx d)
    (hraw : rawParts uri ≠ []) (huri : uriParts uri ≠ ["user".toList]) : ¬ path <+: d := by
  cases h with
  | account h => exact absurd h hraw
  | users h => exact absurd h huri
  | own rest =>
    intro hp
    cases hd with
    | user hv =>
      rw [List.prefix_append_right_inj, List.cons_prefix_cons, List.cons_prefix_cons] at hp
      exact hv hp.2.1.symm
    | upload =>
      have := hp.length_le
      simp at this
    | system =>
      have := hp.length_le
      simp at this
  | scope hu hup hs rest =>
    intro hp
    cases hd with
    | user hv =>
      rw [List.prefix_append_right_inj, List.cons_prefix_cons] at hp
      exact hu hp.1
    | upload =>
      rw [List.prefix_append_right_inj, List.cons_prefix_cons] at hp
      exact hup hp.1
    | system =>
      rw [List.prefix_append_right_inj, List.cons_prefix_cons] at hp
      exact hs hp.1

/-! ## What can be accessed -/

theorem normalize_normalize (uri : Str) : normalize (normalize uri) = normalize uri := by
  rw [normalize_eq uri, normalize_scheme]

theorem uriParts_normalize (uri : Str) : uriParts (normalize uri) = uriParts uri := by
  rw [uriParts_eq, uriParts_eq, pathText, normalize_normalize]
  rfl

theorem resolveUri_normalize (uri : Str) : resolveUri (normalize uri) ctx = resolveUri uri ctx := by
  rw [resolveUri, resolveUri, resolveWith, resolveWith, uriParts_normalize, normalize_normalize]

theorem isAccessible_of_ensureAccess (h : ensureAccess env uri ctx = .ok ()) :
    isAccessibleParts env (normalize uri) (rawParts uri) ctx = true := by
  rw [ensureAccess, isAccessible] at h
  cases hparts : normalizedUriParts env uri with
  | error e =>
    rw [hparts] at h
    cases h
  | ok parts =>
    rw [hparts, normalizedUriParts_ok hparts] at h
    dsimp only [Except.map] at h
    cases hacc : isAccessibleParts env (normalize uri) (rawParts uri) ctx with
    | true => rfl
    | false =>
      rw [hacc] at h
      cases h

/-- A user may access the whole user scope or what is its own. -/
theorem owner_of_accessible (hrole : ctx.role ≠ "root") {r : ResolvedNamespace}
    (hr : resolveUri uri ctx = .ok r) (hscope : r.scope = "user".toList)
    (howner : r.ownerUserId = some owner) (hne : owner ≠ [])
    (h : namespaceIsAccessible uri ctx = true) : owner = ctx.user.userId := by
  have h1 : "user".toList ∉ [[], "resources".toList, "temp".toList, "queue".toList] := by decide
  have h2 : "user".toList ≠ "upload".toList := by decide
  rw [namespaceIsAccessible, if_neg hrole, hr] at h
  dsimp only at h
  rw [hscope, if_neg h1, if_neg h2, if_pos rfl, howner] at h
  exact (of_decide_eq_true h).resolve_left hne

/-- **The path of a URI that can be accessed.** -/
theorem reachable_of_access (hrole : ctx.role ≠ "root") (hlen : utf8Length ctx.user.userId ≤ 255)
    (hparts : (rawParts uri = [] ∧ uriParts uri = []) ∨ ∃ scope ∈ visitableScopes, ∃ rest rest',
      rawParts uri = scope :: rest ∧ uriParts uri = scope :: rest')
    (haccess : ensureAccess env uri ctx = .ok ())
    (hpath : uriToPath env uri ctx = .ok path) : Reachable ctx uri path := by
  have hacc := isAccessible_of_ensureAccess haccess
  have huserShort : shortenComponent env "user".toList = "user".toList :=
    shortenComponent_short (by decide)
  unfold isAccessibleParts at hacc
  rw [if_neg hrole] at hacc
  by_cases hhidden : isHiddenByActorPeerView (normalize uri) ctx = true
  · rw [if_pos hhidden] at hacc
    cases hacc
  rw [if_neg hhidden] at hacc
  rcases hparts with ⟨hraw, huri⟩ | ⟨scope, hvisit, rest, rest', hraw, huri⟩
  · rcases uriToPath_ok hpath with ⟨hagent, -⟩ | ⟨r, hr, rfl⟩
    · rw [hraw] at hagent
      cases hagent
    · rw [resolveUri, resolveWith, huri] at hr
      obtain rfl := Except.ok.inj hr
      have hroot : rawParts scheme = [] := by decide
      rw [hroot, List.map_nil, List.append_nil]
      exact .account hraw
  · rw [hraw] at hacc
    dsimp only at hacc
    by_cases hwatch : isWatchTaskControlUri (normalize uri) = true
    · rw [if_pos hwatch] at hacc
      cases hacc
    rw [if_neg hwatch] at hacc
    by_cases huser : scope = "user".toList
    · -- the owner of a URI in the user scope is the user
      subst huser
      rw [if_neg (by decide), if_neg (by decide), if_neg (by decide), if_neg (by decide),
        if_neg (by decide)] at hacc
      rcases uriToPath_ok hpath with ⟨hagent, -⟩ | ⟨r, hr, rfl⟩
      · rw [hraw] at hagent
        exact absurd (agent_of_isLegacyAgentId hagent) (by decide)
      · cases rest' with
        | nil =>
          rw [resolveUri_userRoot huri] at hr
          obtain rfl := Except.ok.inj hr
          have hroot : rawParts (scheme ++ "user".toList) = ["user".toList] := by decide
          rw [hroot, List.map_singleton, huserShort]
          exact .users huri
        | cons second suffix =>
          obtain ⟨owner, tail, hclean, rfl⟩ := resolveUri_user huri hr
          have howner := owner_of_accessible hrole ((resolveUri_normalize uri).trans hr) rfl rfl
            (hclean owner List.mem_cons_self).1 hacc
          rw [rawParts_userUri hclean, List.map_cons, List.map_cons, huserShort, howner,
            shortenComponent_short hlen]
          exact .own _
    · by_cases hsession : scope = "session".toList
      · -- a session is below the user
        subst hsession
        rcases uriToPath_ok hpath with ⟨hagent, -⟩ | ⟨r, hr, rfl⟩
        · rw [hraw] at hagent
          exact absurd (agent_of_isLegacyAgentId hagent) (by decide)
        · rw [resolveUri_session huri] at hr
          obtain rfl := Except.ok.inj hr
          have hclean : Clean (ctx.user.userId :: "sessions".toList :: rest') := by
            refine .cons (userId_chars ctx) (.cons (by decide) fun part hpart => ?_)
            exact uriParts_clean uri part (huri ▸ List.mem_cons_of_mem _ hpart)
          rw [rawParts_userUri hclean, List.map_cons, List.map_cons, huserShort,
            shortenComponent_short hlen]
          exact .own _
      · -- any other scope is the first component of the path
        have hshort : shortenComponent env scope = scope := by
          refine shortenComponent_short ?_
          have hall : (visitableScopes.all fun s => decide (utf8Length s ≤ 255)) = true := by decide
          exact of_decide_eq_true (List.all_eq_true.1 hall scope hvisit)
        have hupload : scope ≠ "upload".toList := by
          rintro rfl
          rw [if_neg (by decide), if_neg (by decide), if_pos rfl] at hacc
          exact hrole (of_decide_eq_true hacc)
        have hsystem : scope ≠ "_system".toList := by
          rintro rfl
          exact absurd hvisit (by decide)
        have hmapped : path = accountRoot ctx ++ (rawParts uri).map (shortenComponent env) := by
          rcases uriToPath_ok hpath with ⟨-, hp⟩ | ⟨r, hr, hp⟩
          · exact hp
          · rw [resolveUri_other huri huser hsession] at hr
            obtain rfl := Except.ok.inj hr
            rw [hp]
            dsimp only
            rw [rawParts_rstripSlash (by rw [hraw]; exact List.cons_ne_nil _ _)]
        rw [hmapped, hraw, List.map_cons, hshort]
        exact .scope huser hupload hsystem _

/-! ## What can be deleted -/

theorem access_of_change {supported : Str → List Str → Option String}
    (h : ensureChange env supported uri ctx = .ok ()) : ensureAccess env uri ctx = .ok () := by
  rw [ensureChange] at h
  split at h
  · cases h
  · assumption

theorem delete_guards (h : ensureDeleteAccess env uri ctx = .ok ()) :
    ensureAccess env uri ctx = .ok () ∧ unsupportedDelete (normalize uri) (rawParts uri) = none := by
  rw [ensureDeleteAccess, ensureChange] at h
  cases hacc : ensureAccess env uri ctx with
  | error e =>
    rw [hacc] at h
    cases h
  | ok u =>
    rw [hacc] at h
    dsimp only at h
    refine ⟨rfl, ?_⟩
    cases hdel : unsupportedDelete (normalize uri) (rawParts uri) with
    | none => rfl
    | some message =>
      rw [hdel] at h
      dsimp only at h
      split_ifs at h

/-- The URI of all users, with a query behind it. -/
structure QueriedUsers (env : Env) (uri : Str) : Prop where
  uriParts : uriParts uri = ["user".toList]
  rawParts : rawParts uri ≠ ["user".toList]
  isSafe : normalizedUriParts env uri = .ok (Fs.rawParts uri)

theorem rawParts_of_queried {second : Str} (h : rawParts uri = "user".toList :: second :: rest)
    (hparts : rawParts (rstripSlash (normalize uri)) = parts) :
    parts = "user".toList :: second :: rest := by
  rw [← hparts, rawParts_rstripSlash (by rw [h]; exact List.cons_ne_nil _ _), h]

theorem actorPeerViewUserSuffix_users (h : uriParts uri = ["user".toList]) :
    actorPeerViewUserSuffix uri ctx = none := by
  have hroot : uriParts (scheme ++ "user".toList) = ["user".toList] := by decide
  rw [actorPeerViewUserSuffix, canonicalizeUri, resolveUri_userRoot h]
  cases ctx.peer with
  | none => rfl
  | some peer =>
    dsimp only [Except.map]
    rw [hroot]
    exact if_neg (by simp)

/-- Everyone may delete it, and its path is the directory of all users. -/
theorem delete_queriedUsers (hscope : ∃ rest, rawParts uri = "user".toList :: rest)
    (h : QueriedUsers env uri) : ensureDeleteAccess env uri ctx = .ok () ∧
      uriToPath env uri ctx = .ok (accountRoot ctx ++ ["user".toList]) := by
  obtain ⟨rest, hraw⟩ := hscope
  have hnormal : uriParts (normalize uri) = ["user".toList] := (uriParts_normalize uri).trans h.uriParts
  have hsuffix : actorPeerViewUserSuffix (normalize uri) ctx = none :=
    actorPeerViewUserSuffix_users hnormal
  obtain ⟨second, tail, rfl⟩ : ∃ second tail, rest = second :: tail := by
    cases rest with
    | nil => exact absurd hraw h.rawParts
    | cons second tail => exact ⟨second, tail, rfl⟩
  have hwatch : isWatchTaskControlUri (normalize uri) = false := by
    rw [isWatchTaskControlUri, decide_eq_false_iff_not]
    intro hmem
    have hall : (watchTaskControlUris.all fun u => decide ((rawParts u).head? ≠ some "user".toList)) =
        true := by decide
    have := of_decide_eq_true (List.all_eq_true.1 hall _ hmem)
    rw [rawParts_of_queried hraw rfl] at this
    exact this rfl
  have hhidden : isHiddenByActorPeerView (normalize uri) ctx = false := by
    rw [isHiddenByActorPeerView, hsuffix]
  have hmay : mayIncludeHiddenActorPeers (normalize uri) ctx = false := by
    rw [mayIncludeHiddenActorPeers, hsuffix]
  have hnamespace : namespaceIsAccessible (normalize uri) ctx = true := by
    have h1 : "user".toList ∉ [[], "resources".toList, "temp".toList, "queue".toList] := by decide
    have h2 : "user".toList ≠ "upload".toList := by decide
    rw [namespaceIsAccessible, resolveUri_userRoot hnormal]
    dsimp only
    rw [if_neg h1, if_neg h2, if_pos rfl, ite_self]
  have haccess : ensureAccess env uri ctx = .ok () := by
    have hparts : isAccessibleParts env (normalize uri) (rawParts uri) ctx = true := by
      unfold isAccessibleParts
      rw [hraw, hhidden, hwatch, hnamespace]
      dsimp only
      by_cases hroot : ctx.role = "root"
      · rw [if_pos hroot]
      · rw [if_neg hroot, if_neg (by decide), if_neg (by decide), if_neg (by decide),
          if_neg (by decide), if_neg (by decide), if_neg (by decide), if_neg (by decide)]
    rw [ensureAccess, isAccessible, h.isSafe]
    dsimp only [Except.map]
    rw [hparts]
  have hdelete : unsupportedDelete (normalize uri) (rawParts uri) = none := by
    rw [unsupportedDelete, hraw, if_neg (by simp), if_neg (by simp), if_neg (by simp)]
  have htemp : rstripSlash (normalize uri) ≠ "viking://temp".toList := by
    intro htemp
    have hparts : rawParts "viking://temp".toList = ["temp".toList] := by decide
    have := rawParts_of_queried hraw (htemp ▸ hparts)
    exact absurd (List.cons.inj this).1 (by decide)
  constructor
  · rw [ensureDeleteAccess, ensureChange, haccess]
    dsimp only
    rw [hhidden, hmay, hdelete]
    dsimp only
    rw [if_neg (by decide), if_neg fun ht => htemp ht.2]
  · have hagent : isLegacyAgentId (rawParts uri) = false := by
      rw [Bool.eq_false_iff]
      intro hagent
      rw [hraw] at hagent
      exact absurd (agent_of_isLegacyAgentId hagent) (by decide)
    have hroot : normalizedUriParts env (scheme ++ "user".toList) = .ok ["user".toList] := rfl
    rw [uriToPath, h.isSafe]
    dsimp only
    rw [hagent, if_neg (by decide), canonicalizeUri, resolveUri_userRoot h.uriParts]
    dsimp only [Except.map]
    rw [hroot]
    dsimp only
    rw [List.map_singleton, shortenComponent_short (by decide)]

/-- What the guards of `VikingFS` promise of a URI, with the directories of others below `Forbidden`. -/
structure Guarded (env : Env) (ctx : RequestContext) (uri : Str) : Prop where
  access : ∀ path, ensureAccess env uri ctx = .ok () → uriToPath env uri ctx = .ok path →
    accountRoot ctx <+: path ∧ ∀ d, Forbidden ctx d → ¬ d <+: path
  delete : ∀ path, ensureDeleteAccess env uri ctx = .ok () → uriToPath env uri ctx = .ok path →
    ∀ d, Forbidden ctx d → ¬ path <+: d

theorem Reachable.inside (h : Reachable ctx uri path) : accountRoot ctx <+: path := by
  cases h with
  | account => exact List.prefix_rfl
  | users | own rest | scope hu hup hs rest => exact List.prefix_append _ _

/-- **The guards and the storage paths agree** on every validated URI but one for all users with a
query behind it. -/
theorem guards_agree_iff (hrole : ctx.role ≠ "root") (hlen : utf8Length ctx.user.userId ≤ 255)
    {given : Str} {fieldName : String} {allowInternal : Bool} {allowed : Option (List Str)}
    (hvalid : validateVikingUri given fieldName allowInternal allowed = .ok uri) :
    Guarded env ctx uri ↔ ¬ QueriedUsers env uri := by
  have hparts := validated_parts hvalid
  constructor
  · intro h hq
    have hscope : ∃ rest, rawParts uri = "user".toList :: rest := by
      rcases hparts with ⟨-, huri⟩ | ⟨scope, -, rest, rest', hraw, huri⟩
      · rw [hq.uriParts] at huri
        cases huri
      · rw [hq.uriParts] at huri
        exact ⟨rest, (List.cons.inj huri).1 ▸ hraw⟩
    obtain ⟨hdelete, hpath⟩ : ensureDeleteAccess env uri ctx = .ok () ∧ _ :=
      delete_queriedUsers hscope hq
    have hother : 'x' :: ctx.user.userId ≠ ctx.user.userId := fun heq => by
      have := congrArg List.length heq
      simp at this
    exact h.delete _ hdelete hpath _ (.user hother)
      (List.prefix_append_right_inj _ |>.2 ⟨['x' :: ctx.user.userId], rfl⟩)
  · intro hq
    constructor
    · intro path haccess hpath
      have hreach := reachable_of_access hrole hlen hparts haccess hpath
      exact ⟨hreach.inside, fun d hd => hreach.not_below hd⟩
    · intro path hdelete hpath d hd
      obtain ⟨haccess, hsupported⟩ := delete_guards hdelete
      have hreach := reachable_of_access hrole hlen hparts haccess hpath
      rw [unsupportedDelete] at hsupported
      split_ifs at hsupported with hnil huser hagent
      refine hreach.not_above hd hnil fun huri => hq ⟨huri, huser, ?_⟩
      rw [ensureAccess, isAccessible] at haccess
      cases hsafe : normalizedUriParts env uri with
      | error e =>
        rw [hsafe] at haccess
        cases haccess
      | ok parts => rw [normalizedUriParts_ok hsafe]

/-- The letters and digits of ASCII, and a digest of eight zeros. -/
def asciiEnv : Env := ⟨Char.isAlpha, Char.isDigit, fun _ => List.replicate 8 '0'⟩

/-- A user of an account. -/
def alice : RequestContext :=
  ⟨⟨"acme".toList, "alice".toList, by decide, by decide⟩, "user", none⟩

theorem guards_agree_iff_resources : Guarded asciiEnv alice "viking://resources/notes.md".toList := by
  have hvalid : validateVikingUri "viking://resources/notes.md".toList "uri" false none =
      .ok "viking://resources/notes.md".toList := by decide +kernel
  refine (guards_agree_iff (by decide) (by decide) hvalid).2 fun h => ?_
  have hparts := h.uriParts
  revert hparts
  decide +kernel

/-- Every user may delete `viking://user/?`, which is the directory of all users. -/
theorem queried_users_not_guarded :
    validateVikingUri "viking://user/?".toList "uri" false none = .ok "viking://user/?".toList ∧
      ensureDeleteAccess asciiEnv "viking://user/?".toList alice = .ok () ∧
      uriToPath asciiEnv "viking://user/?".toList alice =
        .ok (["local", "acme", "user"].map String.toList) ∧
      ¬ Guarded asciiEnv alice "viking://user/?".toList := by
  have hq : QueriedUsers asciiEnv "viking://user/?".toList :=
    ⟨by decide +kernel, by decide +kernel, by rfl⟩
  have hdelete : ensureDeleteAccess asciiEnv "viking://user/?".toList alice = .ok () ∧ _ :=
    delete_queriedUsers ⟨["?".toList], by decide +kernel⟩ hq
  refine ⟨by decide +kernel, hdelete.1, hdelete.2, fun h => ?_⟩
  have hbob : "bob".toList ≠ alice.user.userId := by decide
  exact h.delete _ hdelete.1 hdelete.2 _ (.user hbob) ⟨["bob".toList], rfl⟩

end OpenViking.Fs
