import OpenViking.Cache.Generations

/-!
# Cached objects

What the probes, the fills and the invalidations of `CachedFileSystem`
(`crates/ragfs/src/cache/wrapper.rs`, 629-947, 974-1177) do to the cached files and listings, whatever the
provider drops and whichever of its calls fail.

An envelope is served when the wrapper holds it, its scope is not bypassed and its generations are not
behind.  Results:

* `wp_fill`: a fill adds at most the one envelope;
* `wp_invalidate`: what a mutation touches is no longer served.
-/

namespace OpenViking.Cache

open StateSpec

variable {H : Type}

/-! ## Envelopes -/

/-- An envelope as the wrapper makes it: one generation for each scope above its path, none ahead. -/
structure Filed (cfg : CacheConfig H) (s : Wrapper H) (e : CacheEnvelope H) : Prop where
  keys : e.generations.map GenerationSnapshot.key = e.path.inits.map cfg.hash
  count_le : ∀ g ∈ e.generations, cfg.count g.value ≤ cfg.age s g.key

/-- What the provider holds of objects are envelopes, each under its own key. -/
def Objects (cfg : CacheConfig H) (s : Wrapper H) : Prop :=
  ∀ kind path x, s.values (cfg.key kind path) = some x →
    ∃ e, x = .envelope e ∧ cfg.key e.kind e.path = cfg.key kind path ∧ Filed cfg s e

/-- The envelope is there, and the wrapper would look at it. -/
structure Held (cfg : CacheConfig H) (s : Wrapper H) (e : CacheEnvelope H) : Prop where
  values : s.values (cfg.key e.kind e.path) = some (.envelope e)
  bypass : s.isRuntimeBypassed e.path = false

/-- The generations of the envelope are not from before `s`. -/
def Since (cfg : CacheConfig H) (s : Wrapper H) (e : CacheEnvelope H) : Prop :=
  ∀ g ∈ e.generations, cfg.age s g.key ≤ cfg.count g.value

/-- The cache answers with this envelope. -/
def Served (cfg : CacheConfig H) (s : Wrapper H) (e : CacheEnvelope H) : Prop :=
  Held cfg s e ∧ Since cfg s e

/-- Nothing of this kind and path is served. -/
def Lost (cfg : CacheConfig H) (s : Wrapper H) (kind : CacheObjectKind) (path : Path) : Prop :=
  ∀ e, e.kind = kind → e.path = path → ¬ Served cfg s e

/-- From `s` to `t`, with no other envelopes than before and new ones. -/
structure Progress (cfg : CacheConfig H) (n : ℕ) (s t : Wrapper H) (new : CacheEnvelope H → Prop) :
    Prop where
  ages : Ages cfg n t
  later : Later cfg s t
  objects : Objects cfg t
  held : ∀ e, Held cfg t e → Held cfg s e ∨ new e

section Envelopes

variable {cfg : CacheConfig H} {n n' : ℕ} {s t u : Wrapper H} {e : CacheEnvelope H}
  {kind : CacheObjectKind} {path : Path} {new new' : CacheEnvelope H → Prop}

theorem Filed.later (h : Filed cfg s e) (hst : Later cfg s t) : Filed cfg t e :=
  ⟨h.keys, fun g hg => (h.count_le g hg).trans (hst.age g.key)⟩

theorem Since.earlier (h : Since cfg t e) (hst : Later cfg s t) : Since cfg s e :=
  fun g hg => (hst.age g.key).trans (h g hg)

theorem Objects.onward (h : Objects cfg s) (hst : Onward cfg n s t) : Objects cfg t := by
  intro kind path x hx
  obtain ⟨e, rfl, hkey, hfiled⟩ := h kind path x (hst.kept kind path x hx)
  exact ⟨e, rfl, hkey, hfiled.later hst.later⟩

theorem not_bypassed (hst : Later cfg s t) (h : t.isRuntimeBypassed path = false) :
    s.isRuntimeBypassed path = false := by
  rcases hs : s.isRuntimeBypassed path with _ | _
  · rfl
  · rw [hst.bypass path hs] at h
    exact h

theorem Held.onward (h : Held cfg t e) (hst : Onward cfg n s t) : Held cfg s e :=
  ⟨hst.kept e.kind e.path _ h.values, not_bypassed hst.later h.bypass⟩

theorem Onward.progress (h : Onward cfg n s t) (hs : Objects cfg s) :
    Progress cfg n s t fun _ => False :=
  ⟨h.ages, h.later, hs.onward h, fun _ he => .inl (he.onward h)⟩

theorem Progress.refl (hs : Ages cfg n s) (ho : Objects cfg s) : Progress cfg n s s fun _ => False :=
  (Onward.refl hs).progress ho

theorem Progress.trans (h : Progress cfg n s t new) (h' : Progress cfg n' t u new')
    : Progress cfg n' s u fun e => new e ∨ new' e :=
  ⟨h'.ages, h.later.trans h'.later, h'.objects, fun e he =>
    (h'.held e he).elim (fun ht => (h.held e ht).imp_right .inl) fun hnew => .inr (.inr hnew)⟩

theorem Progress.mono (h : Progress cfg n s t new) (hnew : ∀ e, new e → new' e) :
    Progress cfg n s t new' :=
  ⟨h.ages, h.later, h.objects, fun e he => (h.held e he).imp_right (hnew e)⟩

/-- What is served later was served, or is new. -/
theorem Progress.served (h : Progress cfg n s t new) (he : Served cfg t e) : Served cfg s e ∨ new e :=
  (h.held e he.1).imp_left fun hs => ⟨hs, he.2.earlier h.later⟩

/-- What is not served stays so. -/
theorem Lost.onward (h : Lost cfg s kind path) (hst : Onward cfg n s t) : Lost cfg t kind path :=
  fun e hkind hpath he => h e hkind hpath ⟨he.1.onward hst, he.2.earlier hst.later⟩

theorem lost_of_none (h : s.values (cfg.key kind path) = none) : Lost cfg s kind path := by
  rintro e rfl rfl he
  rw [he.1.values] at h
  cases h

theorem lost_of_bypassed (h : s.isRuntimeBypassed path = true) : Lost cfg s kind path := by
  rintro e rfl rfl he
  rw [he.1.bypass] at h
  cases h

theorem bypassed_under {scope : Path} (h : s.isRuntimeBypassed scope = true) (hpre : scope <+: path) :
    s.isRuntimeBypassed path = true := by
  obtain ⟨p, hp, hle⟩ := List.any_eq_true.1 h
  exact List.any_eq_true.2 ⟨p, hp, decide_eq_true ((of_decide_eq_true hle).trans hpre)⟩

/-- Once the generation of a scope has moved on, what was cached under it is not served. -/
theorem lost_of_older {scope : Path} (hs : Objects cfg s) (hst : Onward cfg n s t)
    (hage : cfg.age s (cfg.hash scope) < cfg.age t (cfg.hash scope)) (hpre : scope <+: path) :
    Lost cfg t kind path := by
  rintro e rfl rfl he
  obtain ⟨e', heq, -, hfiled⟩ := hs _ _ _ (he.1.onward hst).values
  obtain rfl : e = e' := by simpa using heq
  have hmem : cfg.hash scope ∈ e.generations.map GenerationSnapshot.key := by
    rw [hfiled.keys]
    exact List.mem_map.2 ⟨scope, (List.mem_inits scope e.path).2 hpre, rfl⟩
  obtain ⟨g, hg, hkey⟩ := List.mem_map.1 hmem
  have h1 := hfiled.count_le g hg
  have h2 := he.2 g hg
  rw [hkey] at h1 h2
  omega

theorem wp_markBypass_onward (path : Path) (hs : Ages cfg n s) :
    wp (markBypass path) (fun _ t => Onward cfg n s t ∧ t.isRuntimeBypassed path = true) s :=
  wp_mono (wp_markBypass path) fun _ _ ht =>
    ⟨onward_of_values hs ht.2.2.1 ht.2.2.2.1 ht.2.2.2.2 ht.2.1, ht.1⟩

theorem key_ne_subtree (cfg : CacheConfig H) (kind : CacheObjectKind) (path : Path) (key : H) :
    cfg.key kind path ≠ .subtree key := by
  cases kind <;> nofun

end Envelopes

/-! ## Deletes and bumps -/

section Deletes

variable [DecidableEq H] {cfg : CacheConfig H} {n : ℕ} {s : Wrapper H} {kind : CacheObjectKind}
  {path : Path}

/-- A failed delete bypasses the path. -/
theorem wp_cacheDelete (kind : CacheObjectKind) (path : Path) (hs : Ages cfg n s) :
    wp (cacheDelete (cfg.key kind path) path)
      (fun _ t => Onward cfg n s t ∧ Lost cfg t kind path) s := by
  refine wp_bind (wp_mono wp_call ?_)
  intro f t ht
  have hst := ht.onward hs
  by_cases hf : f.fails = true
  · rw [if_pos hf]
    refine wp_mono (wp_markBypass_onward path hst.ages) fun _ u hu => ⟨hst.trans hu.1, ?_⟩
    exact lost_of_bypassed hu.2
  · rw [if_neg hf]
    refine wp_modify ⟨?_, lost_of_none (Function.update_self ..)⟩
    have hdrop : Dropped t { t with values := Function.update t.values (cfg.key kind path) none } := by
      refine ⟨⟨rfl, rfl, rfl⟩, fun k => ?_⟩
      show Function.update t.values (cfg.key kind path) none k = t.values k ∨
        Function.update t.values (cfg.key kind path) none k = none
      by_cases hk : k = cfg.key kind path
      · rw [hk, Function.update_self]
        exact .inr rfl
      · rw [Function.update_of_ne hk]
        exact .inl rfl
    exact hst.trans (hdrop.onward hst.ages)

/-- A bump takes everything under the path out of the cache. -/
theorem wp_bumpGeneration_lost (path : Path) (hs : Ages cfg n s) (hobj : Objects cfg s)
    (hn : n + 1 < 2 ^ 64) : wp (bumpGeneration cfg path)
      (fun _ t => Onward cfg (n + 1) s t ∧ ∀ kind q, path <+: q → Lost cfg t kind q) s := by
  refine wp_mono (wp_bumpGeneration path hs hn) fun _ t ht => ⟨ht.1, fun kind q hpre => ?_⟩
  rcases ht.2 with hage | hby
  · exact lost_of_older hobj ht.1 hage hpre
  · exact lost_of_bypassed (bypassed_under hby hpre)

end Deletes

/-! ## Probes and fills -/

section Probes

variable [DecidableEq H] {cfg : CacheConfig H} {n : ℕ} {s₀ s : Wrapper H} {kind : CacheObjectKind}
  {path : Path} {α : Type} {accept : CachePayload → Option α}

/-- A `grep` that is going on has cached no generation from before `s₀`. -/
def NoOlder (cfg : CacheConfig H) (s₀ s : Wrapper H) : Prop :=
  ∀ cache key v, s.generationCache = some cache → cache key = some v → cfg.age s₀ key ≤ cfg.count v

omit [DecidableEq H] in
theorem NoOlder.later {t : Wrapper H} (h : NoOlder cfg s₀ s) (h₀ : Later cfg s₀ s) (hst : Later cfg s t) :
    NoOlder cfg s₀ t := by
  intro cache key v hc hv
  obtain ⟨old, hold, hnew⟩ := hst.cached cache hc
  rcases hnew key v hv with hov | hle
  · exact h old key v hold hov
  · exact (h₀.age key).trans hle

/-- From `s` to `t`, a probe gives what an envelope holds whose generations are not from before `s₀`. -/
def Probed (cfg : CacheConfig H) (n : ℕ) (s₀ s : Wrapper H) (kind : CacheObjectKind) (path : Path)
    (accept : CachePayload → Option α) (r : Option α) (t : Wrapper H) : Prop :=
  Onward cfg n s t ∧ ∀ a, r = some a → ∃ e, Held cfg s e ∧ Since cfg s₀ e ∧
    e.kind = kind ∧ e.path = path ∧ accept e.payload = some a

theorem wp_probe (kind : CacheObjectKind) (path : Path) (accept : CachePayload → Option α)
    (hs : Ages cfg n s) (h₀ : Later cfg s₀ s) (hno : NoOlder cfg s₀ s)
    (hby : s.isRuntimeBypassed path = false) :
    wp (probe cfg kind path accept) (Probed cfg n s₀ s kind path accept) s := by
  have hdelete : ∀ t, Onward cfg n s t → wp (do cacheDelete (cfg.key kind path) path; return none)
      (Probed cfg n s₀ s kind path accept) t := fun t ht =>
    wp_bind (wp_mono (wp_cacheDelete kind path ht.ages) fun _ _ hu => wp_pure ⟨ht.trans hu.1, nofun⟩)
  have hmark : ∀ t, Onward cfg n s t → wp (do markBypass path; return none)
      (Probed cfg n s₀ s kind path accept) t := fun t ht =>
    wp_bind (wp_mono (wp_markBypass_onward path ht.ages) fun _ _ hu => wp_pure ⟨ht.trans hu.1, nofun⟩)
  refine wp_bind (wp_mono wp_cacheGet ?_)
  intro r t ⟨hdrop, hr⟩
  have hst := hdrop.onward hs
  rcases r with _ | x
  · exact hmark t hst
  have hx := hr x rfl
  rcases x with _ | x
  · exact wp_pure ⟨hst, nofun⟩
  rcases x with v | e
  · exact hdelete t hst
  by_cases hmatch : e.kind = kind ∧ e.path = path
  · simp only [if_pos hmatch]
    refine wp_bind (wp_mono (wp_generationsMatch e hst.ages) ?_)
    intro r u ⟨htu, _, hgen⟩
    have hsu := hst.trans htu
    rcases r with _ | matching
    · exact hmark u hsu
    rcases matching with _ | _
    · exact hdelete u hsu
    generalize haccept : accept e.payload = given
    rcases given with _ | a
    · exact hdelete u hsu
    · refine wp_pure ⟨hsu, fun a' ha' => ⟨e, ⟨?_, ?_⟩, ?_, hmatch.1, hmatch.2, haccept.trans ha'⟩⟩
      · rw [hmatch.1, hmatch.2]
        exact hdrop.of_some hx
      · rw [hmatch.2]
        exact hby
      · intro g hg
        rcases hgen rfl g hg with hle | ⟨cache, hc, hv⟩
        · exact ((h₀.trans hst.later).age g.key).trans hle
        · exact hno.later h₀ hst.later cache g.key g.value hc hv
  · simp only [if_neg hmatch]
    exact hdelete t hst

/-- Storing an envelope under its own key adds no other. -/
theorem progress_stored {e : CacheEnvelope H} (es : List (Key H × Value H)) (hs : Ages cfg n s)
    (hobj : Objects cfg s) (he : Filed cfg s e) (hes : ∀ d ∈ es, d = (cfg.key e.kind e.path, .envelope e)) :
    Progress cfg n s (stored es s) (· = e) := by
  have hsubtree : ∀ key, (stored es s).values (.subtree key) = s.values (.subtree key) := by
    intro key
    rcases stored_values es s (.subtree key) with ⟨d, hd, hk, -⟩ | ⟨-, hval⟩
    · rw [hes d hd] at hk
      exact absurd hk (key_ne_subtree cfg e.kind e.path key)
    · exact hval
  have hage : ∀ key, cfg.age (stored es s) key = cfg.age s key := by
    intro key
    rw [CacheConfig.age, CacheConfig.age, CacheConfig.generation, CacheConfig.generation, hsubtree]
    rfl
  have hlater : Later cfg s (stored es s) :=
    ⟨fun key => (hage key).ge, fun _ hp => hp, cached_of_eq rfl⟩
  -- what is under an object key is the new envelope, or it was there
  have hvalues : ∀ kind path x, (stored es s).values (cfg.key kind path) = some x →
      (x = .envelope e ∧ cfg.key e.kind e.path = cfg.key kind path) ∨
        s.values (cfg.key kind path) = some x := by
    intro kind path x hx
    rcases stored_values es s (cfg.key kind path) with ⟨d, hd, hk, hval⟩ | ⟨-, hval⟩
    · rw [hes d hd] at hk hval
      exact .inl ⟨(Option.some.inj (hval.symm.trans hx)).symm, hk⟩
    · exact .inr (hval ▸ hx)
  refine ⟨⟨fun key x hx => hs.held key x (hsubtree key ▸ hx), hs.bound⟩, hlater, ?_, ?_⟩
  · intro kind path x hx
    rcases hvalues kind path x hx with ⟨rfl, hkey⟩ | hold
    · exact ⟨e, rfl, hkey, he.later hlater⟩
    · obtain ⟨e', rfl, hkey, hfiled⟩ := hobj kind path x hold
      exact ⟨e', rfl, hkey, hfiled.later hlater⟩
  · intro e' he'
    rcases hvalues _ _ _ he'.values with ⟨heq, -⟩ | hold
    · exact .inr (by simpa using heq)
    · exact .inl ⟨hold, he'.bypass⟩

/-- A fill adds at most one envelope, of what it was given. -/
theorem wp_fill (kind : CacheObjectKind) (path : Path) (payload : CachePayload) (hs : Ages cfg n s)
    (hobj : Objects cfg s) : wp (fill cfg kind path payload) (fun _ t => Progress cfg n s t
      fun e => e.kind = kind ∧ e.path = path ∧ e.payload = payload) s := by
  have hnone : ∀ t, Onward cfg n s t → Progress cfg n s t
      fun e => e.kind = kind ∧ e.path = path ∧ e.payload = payload := fun t ht =>
    (ht.progress hobj).mono fun _ => False.elim
  refine wp_bind (wp_bind (wp_mono (wp_currentGenerations (path.inits.map cfg.hash) hs) ?_))
  intro r t ⟨hst, _, _, hr⟩
  rcases r with _ | values
  · exact wp_pure (wp_pure (hnone t hst))
  obtain ⟨hlen, -, hread⟩ := hr values rfl
  refine wp_pure (wp_bind (wp_mono wp_providerPut ?_))
  rintro ok u ⟨w, es, hw, hes, -, rfl⟩
  have hsw := hst.trans (hw.onward hst.ages)
  have hput := progress_stored es hsw.ages (hobj.onward hsw) (e := ⟨kind, path,
    ((path.inits.map cfg.hash).zip values).map fun e => ⟨e.1, e.2⟩, payload⟩) ?_ fun d hd =>
      List.mem_singleton.1 (hes d hd)
  · have hall : Progress cfg n s (stored es w) fun e => e.kind = kind ∧ e.path = path ∧ e.payload = payload := by
      refine ((hsw.progress hobj).trans hput).mono fun e he => ?_
      obtain rfl := he.resolve_left id
      exact ⟨rfl, rfl, rfl⟩
    rcases ok with _ | _
    · refine wp_mono (wp_markBypass_onward path hall.ages) fun _ v hv => ?_
      exact (hall.trans (hv.1.progress hall.objects)).mono fun e he => he.elim id False.elim
    · exact wp_pure hall
  · refine ⟨?_, fun g hg => ?_⟩
    · rw [List.map_map]
      exact List.map_fst_zip (by omega)
    · obtain ⟨d, hd, rfl⟩ := List.mem_map.1 hg
      exact (hread d hd).2.trans ((hw.onward hst.ages).later.age d.1)

end Probes

/-! ## Invalidations -/

/-- The objects that a mutation touches: those that it takes out of the cache. -/
def Touches : Mutation → CacheObjectKind → Path → Prop
  | .create path, kind, q => q = path ∨ (kind = .directory ∧ q = path.dropLast)
  | .mkdir path _, kind, q => path <+: q ∨ (kind = .directory ∧ q = path.dropLast)
  | .remove path, kind, q => path <+: q ∨ (kind = .directory ∧ q = path.dropLast)
  | .removeAll path, kind, q => path <+: q ∨ (kind = .directory ∧ q = path.dropLast)
  | .write path _ _ _, kind, q =>
    (kind = .file ∧ q = path) ∨ (kind = .directory ∧ q = path.dropLast)
  | .rename oldPath newPath, kind, q => oldPath <+: q ∨ newPath <+: q ∨
    (kind = .directory ∧ (q = oldPath.dropLast ∨ q = newPath.dropLast))
  | .replace srcPath dstPath, kind, q => srcPath <+: q ∨ dstPath <+: q ∨
    (kind = .directory ∧ (q = srcPath.dropLast ∨ q = dstPath.dropLast))
  | .chmod path _, kind, q => q = path ∨ (kind = .directory ∧ q = path.dropLast)
  | .truncate path _, kind, q =>
    (kind = .file ∧ q = path) ∨ (kind = .directory ∧ q = path.dropLast)
  | .ensureParentDirs path _, kind, q => kind = .directory ∧ q <+: path.dropLast

/-- The envelope holds what the mutation wrote. -/
def Written : Mutation → CacheEnvelope H → Prop
  | .write path data offset flags, e => offset = 0 ∧ (flags = .create ∨ flags = .truncate) ∧
    e.kind = .file ∧ e.path = path ∧ e.payload = .file data
  | _, _ => False

section Invalidations

variable [DecidableEq H] {cfg : CacheConfig H} {n n' : ℕ} {s t : Wrapper H} {kind : CacheObjectKind}
  {path oldPath newPath : Path}

/-- Onward from `s` to `t`, where objects of these kinds and paths are not served. -/
def Takes (cfg : CacheConfig H) (n : ℕ) (s t : Wrapper H) (T : CacheObjectKind → Path → Prop) : Prop :=
  Onward cfg n s t ∧ ∀ kind q, T kind q → Lost cfg t kind q

variable {T T' : CacheObjectKind → Path → Prop}

omit [DecidableEq H] in
theorem Takes.trans {u : Wrapper H} (h : Takes cfg n s t T)
    (h' : Takes cfg n' t u T') : Takes cfg n' s u fun kind q => T kind q ∨ T' kind q :=
  ⟨h.1.trans h'.1, fun kind q hT => hT.elim (fun hT => (h.2 kind q hT).onward h'.1) (h'.2 kind q)⟩

omit [DecidableEq H] in
theorem Takes.mono (h : Takes cfg n s t T) (hn : n ≤ n')
    (hT : ∀ kind q, T' kind q → T kind q) : Takes cfg n' s t T' :=
  ⟨⟨h.1.ages.mono hn, h.1.later, h.1.kept⟩, fun kind q hq => h.2 kind q (hT kind q hq)⟩

theorem wp_delete_takes (kind : CacheObjectKind) (path : Path) (hs : Ages cfg n s) :
    wp (cacheDelete (cfg.key kind path) path)
      (fun _ t => Takes cfg n s t fun k q => k = kind ∧ q = path) s :=
  wp_mono (wp_cacheDelete kind path hs) fun _ _ ht => ⟨ht.1, fun _ _ h => h.1 ▸ h.2 ▸ ht.2⟩

theorem wp_bump_takes (path : Path) (hs : Ages cfg n s) (hobj : Objects cfg s) (hn : n + 1 < 2 ^ 64) :
    wp (bumpGeneration cfg path) (fun _ t => Takes cfg (n + 1) s t fun _ q => path <+: q) s :=
  wp_mono (wp_bumpGeneration_lost path hs hobj hn) fun _ _ ht => ht

theorem wp_invalidatePathObjects (path : Path) (hs : Ages cfg n s) :
    wp (invalidatePathObjects cfg path) (fun _ t => Takes cfg n s t fun _ q => q = path) s := by
  refine wp_bind (wp_mono (wp_delete_takes .file path hs) fun _ t ht => ?_)
  refine wp_mono (wp_delete_takes .directory path ht.1.ages) fun _ u hu => ?_
  refine (ht.trans hu).mono le_rfl fun kind q hq => ?_
  cases kind
  · exact .inl ⟨rfl, hq⟩
  · exact .inr ⟨rfl, hq⟩

theorem wp_invalidateParentDirectory (path : Path) (hs : Ages cfg n s) :
    wp (invalidateParentDirectory cfg path)
      (fun _ t => Takes cfg n s t fun kind q => kind = .directory ∧ q = path.dropLast) s :=
  wp_delete_takes .directory path.dropLast hs

theorem wp_deletes (scopes : List Path) (hs : Ages cfg n s) :
    wp (scopes.forM fun scope => cacheDelete (cfg.key .directory scope) scope)
      (fun _ t => Takes cfg n s t fun kind q => kind = .directory ∧ q ∈ scopes) s := by
  induction scopes generalizing s with
  | nil => exact wp_pure ⟨Onward.refl hs, fun _ _ h => nomatch h.2⟩
  | cons scope scopes ih =>
    refine wp_bind (wp_mono (wp_delete_takes .directory scope hs) fun _ t ht => ?_)
    refine wp_mono (ih ht.1.ages) fun _ u hu => (ht.trans hu).mono le_rfl fun kind q hq => ?_
    rcases List.mem_cons.1 hq.2 with rfl | hmem
    · exact .inl ⟨hq.1, rfl⟩
    · exact .inr ⟨hq.1, hmem⟩

theorem wp_invalidateRemoved (path : Path) (hs : Ages cfg n s) (hobj : Objects cfg s)
    (hn : n + 1 < 2 ^ 64) : wp (invalidateRemoved cfg path)
      (fun _ t => Takes cfg (n + 1) s t (Touches (.remove path))) s := by
  refine wp_bind (wp_mono (wp_bump_takes path hs hobj hn) fun _ t ht => ?_)
  refine wp_bind (wp_mono (wp_invalidatePathObjects path ht.1.ages) fun _ u hu => ?_)
  refine wp_mono (wp_invalidateParentDirectory path hu.1.ages) fun _ v hv => ?_
  exact ((ht.trans hu).trans hv).mono le_rfl fun kind q hq => hq.imp_left .inl

theorem wp_invalidateMove (oldPath newPath : Path) (hs : Ages cfg n s) (hobj : Objects cfg s)
    (hn : n + 2 < 2 ^ 64) : wp (invalidateMove cfg oldPath newPath)
      (fun _ t => Takes cfg (n + 2) s t (Touches (.rename oldPath newPath))) s := by
  refine wp_bind (wp_mono (wp_bump_takes oldPath hs hobj (by omega)) fun _ t1 h1 => ?_)
  refine wp_bind (wp_mono (wp_bump_takes newPath h1.1.ages (hobj.onward h1.1) (by omega))
    fun _ t2 h2 => ?_)
  refine wp_bind (wp_mono (wp_invalidatePathObjects oldPath h2.1.ages) fun _ t3 h3 => ?_)
  refine wp_bind (wp_mono (wp_invalidatePathObjects newPath h3.1.ages) fun _ t4 h4 => ?_)
  refine wp_bind (wp_mono (wp_invalidateParentDirectory oldPath h4.1.ages) fun _ t5 h5 => ?_)
  refine wp_mono (wp_invalidateParentDirectory newPath h5.1.ages) fun _ t6 h6 => ?_
  refine (((((h1.trans h2).trans h3).trans h4).trans h5).trans h6).mono le_rfl fun kind q hq => ?_
  rcases hq with hold | hnew | ⟨hk, hold | hnew⟩
  · exact .inl (.inl (.inl (.inl (.inl hold))))
  · exact .inl (.inl (.inl (.inl (.inr hnew))))
  · exact .inl (.inr ⟨hk, hold⟩)
  · exact .inr ⟨hk, hnew⟩

/-- What a mutation that succeeded does to the cache: what it touches is not served, but for what it
wrote. -/
structure Invalidated (cfg : CacheConfig H) (n : ℕ) (s t : Wrapper H) (m : Mutation) : Prop where
  ages : Ages cfg n t
  later : Later cfg s t
  objects : Objects cfg t
  served : ∀ e, Served cfg t e → (Served cfg s e ∧ ¬ Touches m e.kind e.path) ∨ Written m e

omit [DecidableEq H] in
theorem Takes.invalidated {m : Mutation} (h : Takes cfg n s t (Touches m)) (hobj : Objects cfg s)
    (hn : n ≤ n') : Invalidated cfg n' s t m := by
  refine ⟨h.1.ages.mono hn, h.1.later, hobj.onward h.1, fun e he => .inl ⟨?_, fun htouch => ?_⟩⟩
  · exact ⟨he.1.onward h.1, he.2.earlier h.1.later⟩
  · exact h.2 _ _ htouch e rfl rfl he

/-- A write takes out the file and the listing, and puts in what it wrote. -/
theorem wp_invalidate_write (path : Path) (data : Bytes) (offset : ℕ) (flags : WriteFlag)
    (hs : Ages cfg n s) (hobj : Objects cfg s) : wp (invalidate cfg (.write path data offset flags))
      (fun _ t => Invalidated cfg n s t (.write path data offset flags)) s := by
  refine wp_bind (wp_mono (wp_delete_takes .file path hs) fun _ t ht => ?_)
  have hobjt := hobj.onward ht.1
  have hparent : ∀ u, Progress cfg n t u (Written (.write path data offset flags)) →
      wp (invalidateParentDirectory cfg path)
        (fun _ v => Invalidated cfg n s v (.write path data offset flags)) u := by
    intro u hu
    refine wp_mono (wp_invalidateParentDirectory path hu.ages) fun _ v hv => ?_
    have hall := (hu.trans (hv.1.progress hu.objects)).mono fun e he => he.elim id False.elim
    refine ⟨hall.ages, ht.1.later.trans hall.later, hall.objects, fun e he => ?_⟩
    rcases hall.served he with het | hnew
    · refine .inl ⟨⟨het.1.onward ht.1, het.2.earlier ht.1.later⟩, fun htouch => ?_⟩
      rcases htouch with hfile | hdir
      · exact ht.2 _ _ hfile e rfl rfl het
      · exact hv.2 _ _ hdir e rfl rfl he
    · exact .inr hnew
  refine wp_bind (wp_get ?_)
  by_cases hfill : offset = 0 ∧ (flags = .create ∨ flags = .truncate) ∧
      cfg.policy.cacheFile path data.length = true ∧ t.isRuntimeBypassed path = false
  · rw [if_pos hfill]
    refine wp_bind (wp_mono ?_ fun _ u hu => hparent u hu)
    rw [fillFile, if_pos hfill.2.2.1]
    refine wp_mono (wp_fill .file path (.file data) ht.1.ages hobjt) fun _ u hu => ?_
    exact hu.mono fun e he => ⟨hfill.1, hfill.2.1, he⟩
  · rw [if_neg hfill]
    exact hparent t ((Progress.refl ht.1.ages hobjt).mono fun _ => False.elim)

/-- What a mutation touches is no longer served, whatever the provider does. -/
theorem wp_invalidate (m : Mutation) (hs : Ages cfg n s) (hobj : Objects cfg s) (hn : n + 2 < 2 ^ 64) :
    wp (invalidate cfg m) (fun _ t => Invalidated cfg (n + 2) s t m) s := by
  cases m with
  | create path =>
    refine wp_bind (wp_mono (wp_invalidatePathObjects path hs) fun _ t ht => ?_)
    refine wp_mono (wp_invalidateParentDirectory path ht.1.ages) fun _ u hu => ?_
    exact (ht.trans hu).invalidated hobj (by omega)
  | mkdir path mode =>
    refine wp_bind (wp_mono (wp_bump_takes path hs hobj (by omega)) fun _ t ht => ?_)
    refine wp_bind (wp_mono (wp_delete_takes .directory path ht.1.ages) fun _ u hu => ?_)
    refine wp_mono (wp_invalidateParentDirectory path hu.1.ages) fun _ v hv => ?_
    refine Takes.invalidated (n := n + 1) ?_ hobj (by omega)
    exact ((ht.trans hu).trans hv).mono le_rfl fun kind q hq => hq.imp_left .inl
  | remove path =>
    exact wp_mono (wp_invalidateRemoved path hs hobj (by omega)) fun _ t ht =>
      ht.invalidated hobj (by omega)
  | removeAll path =>
    exact wp_mono (wp_invalidateRemoved path hs hobj (by omega)) fun _ t ht =>
      Takes.invalidated (m := .removeAll path) ht hobj (by omega)
  | write path data offset flags =>
    refine wp_mono (wp_invalidate_write path data offset flags hs hobj) fun _ t ht => ?_
    exact ⟨ht.ages.mono (by omega), ht.later, ht.objects, ht.served⟩
  | rename oldPath newPath =>
    exact wp_mono (wp_invalidateMove oldPath newPath hs hobj hn) fun _ t ht =>
      ht.invalidated hobj le_rfl
  | replace srcPath dstPath =>
    exact wp_mono (wp_invalidateMove srcPath dstPath hs hobj hn) fun _ t ht =>
      Takes.invalidated (m := .replace srcPath dstPath) ht hobj le_rfl
  | chmod path mode =>
    refine wp_bind (wp_mono (wp_invalidatePathObjects path hs) fun _ t ht => ?_)
    refine wp_mono (wp_invalidateParentDirectory path ht.1.ages) fun _ u hu => ?_
    exact Takes.invalidated (m := .chmod path mode) (ht.trans hu) hobj (by omega)
  | truncate path size =>
    refine wp_bind (wp_mono (wp_delete_takes .file path hs) fun _ t ht => ?_)
    refine wp_mono (wp_invalidateParentDirectory path ht.1.ages) fun _ u hu => ?_
    exact Takes.invalidated (m := .truncate path size) (ht.trans hu) hobj (by omega)
  | ensureParentDirs path mode =>
    refine wp_mono (wp_deletes path.dropLast.inits hs) fun _ t ht => ?_
    refine Takes.invalidated (ht.mono le_rfl fun kind q hq => ⟨hq.1, ?_⟩) hobj (by omega)
    exact (List.mem_inits q path.dropLast).2 hq.2

end Invalidations

end OpenViking.Cache
