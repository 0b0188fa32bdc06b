import OpenViking.Cache.Wrapper
import OpenViking.Common.MapM
import Mathlib.Tactic.Common

/-!
# Generations

How the generations of the subtrees move (`crates/ragfs/src/cache/wrapper.rs`, 452-627), counted from the
first one, whatever the provider drops and whichever of its calls fail.

The generation of a subtree is what the provider holds, or else what the wrapper remembers, which is never
less.  Results:

* `wp_currentGenerations`: a reading of generations lies between those before and those after it;
* `wp_bumpGeneration`: a bump moves a generation on, or the subtree is bypassed.
-/

namespace OpenViking.Cache

open StateSpec

variable {H : Type}

/-! ## Counting -/

section Counting

variable {cfg : CacheConfig H} {v w : UInt64}

/-- How many steps a generation is after the first. -/
def CacheConfig.count (cfg : CacheConfig H) (v : UInt64) : ℕ := (v - cfg.generationEpoch).toNat

theorem count_epoch : cfg.count cfg.generationEpoch = 0 := by
  rw [CacheConfig.count, UInt64.sub_self]
  rfl

theorem count_succ (h : cfg.count v + 1 < 2 ^ 64) : cfg.count (v + 1) = cfg.count v + 1 := by
  have heq : v + 1 - cfg.generationEpoch = (v - cfg.generationEpoch) + 1 := by
    rw [UInt64.sub_eq_add_neg, UInt64.sub_eq_add_neg, UInt64.add_assoc, UInt64.add_comm 1,
      ← UInt64.add_assoc]
  rw [CacheConfig.count] at h ⊢
  rw [heq, UInt64.toNat_add]
  exact Nat.mod_eq_of_lt h

end Counting

/-! ## The generation of a subtree -/

/-- What the wrapper remembers of a generation. -/
def CacheConfig.localGeneration (cfg : CacheConfig H) (s : Wrapper H) (key : H) : UInt64 :=
  (s.generations key).getD cfg.generationEpoch

/-- The generation of a subtree. -/
def CacheConfig.generation (cfg : CacheConfig H) (s : Wrapper H) (key : H) : UInt64 :=
  match s.values (.subtree key) with
  | some (.generation value) => value
  | _ => cfg.localGeneration s key

/-- The steps of a subtree after the first generation. -/
def CacheConfig.age (cfg : CacheConfig H) (s : Wrapper H) (key : H) : ℕ :=
  cfg.count (cfg.generation s key)

/-- The generations, none of them more than `n` steps old: what the provider holds the wrapper has
remembered, or more. -/
structure Ages (cfg : CacheConfig H) (n : ℕ) (s : Wrapper H) : Prop where
  held : ∀ key x, s.values (.subtree key) = some x → ∃ v l, x = .generation v ∧
    s.generations key = some l ∧ cfg.count v ≤ cfg.count l
  bound : ∀ key l, s.generations key = some l → cfg.count l ≤ n

/-- What no later state takes back: generations do not go back, scopes stay bypassed, and a generation
that a `grep` has cached since is not from before. -/
structure Later (cfg : CacheConfig H) (s t : Wrapper H) : Prop where
  age : ∀ key, cfg.age s key ≤ cfg.age t key
  bypass : ∀ path, s.isRuntimeBypassed path = true → t.isRuntimeBypassed path = true
  cached : ∀ cache, t.generationCache = some cache → ∃ old, s.generationCache = some old ∧
    ∀ key v, cache key = some v → old key = some v ∨ cfg.age s key ≤ cfg.count v

/-- No cached object that was not there. -/
def Kept (cfg : CacheConfig H) (s t : Wrapper H) : Prop :=
  ∀ kind path x, t.values (cfg.key kind path) = some x → s.values (cfg.key kind path) = some x

/-- Onward from `s`, with generations at most `n` steps old and no new cached object. -/
structure Onward (cfg : CacheConfig H) (n : ℕ) (s t : Wrapper H) : Prop where
  ages : Ages cfg n t
  later : Later cfg s t
  kept : Kept cfg s t

/-- What a call of the provider leaves alone. -/
structure SameBooks (s t : Wrapper H) : Prop where
  bypassScopes : t.bypassScopes = s.bypassScopes
  generations : t.generations = s.generations
  generationCache : t.generationCache = s.generationCache

/-- The provider has dropped some of its values. -/
structure Dropped (s t : Wrapper H) : Prop extends SameBooks s t where
  values : ∀ k, t.values k = s.values k ∨ t.values k = none

section Ages

variable {cfg : CacheConfig H} {n n' : ℕ} {s t u : Wrapper H} {key : H} {v : UInt64}

/-- The cache of a `grep` as it was is not from before. -/
theorem cached_of_eq (h : t.generationCache = s.generationCache) : ∀ cache, t.generationCache = some cache →
    ∃ old, s.generationCache = some old ∧
      ∀ key v, cache key = some v → old key = some v ∨ cfg.age s key ≤ cfg.count v :=
  fun cache hc => ⟨cache, h ▸ hc, fun _ _ hv => .inl hv⟩

theorem Later.refl (s : Wrapper H) : Later cfg s s :=
  ⟨fun _ => le_rfl, fun _ h => h, cached_of_eq rfl⟩

theorem Later.trans (h : Later cfg s t) (h' : Later cfg t u) : Later cfg s u where
  age key := (h.age key).trans (h'.age key)
  bypass path hs := h'.bypass path (h.bypass path hs)
  cached cache hc := by
    obtain ⟨mid, hmid, hnew⟩ := h'.cached cache hc
    obtain ⟨old, hold, hnew'⟩ := h.cached mid hmid
    refine ⟨old, hold, fun key v hv => ?_⟩
    rcases hnew key v hv with hm | hle
    · exact hnew' key v hm
    · exact .inr ((h.age key).trans hle)

theorem Kept.refl (s : Wrapper H) : Kept cfg s s := fun _ _ _ hx => hx

theorem Kept.trans (h : Kept cfg s t) (h' : Kept cfg t u) : Kept cfg s u :=
  fun kind path x hx => h kind path x (h' kind path x hx)

theorem Onward.refl (h : Ages cfg n s) : Onward cfg n s s := ⟨h, Later.refl s, Kept.refl s⟩

theorem Onward.trans (h : Onward cfg n s t) (h' : Onward cfg n' t u) : Onward cfg n' s u :=
  ⟨h'.ages, h.later.trans h'.later, h.kept.trans h'.kept⟩

theorem SameBooks.refl (s : Wrapper H) : SameBooks s s := ⟨rfl, rfl, rfl⟩

theorem SameBooks.trans (h : SameBooks s t) (h' : SameBooks t u) : SameBooks s u :=
  ⟨h'.bypassScopes.trans h.bypassScopes, h'.generations.trans h.generations,
    h'.generationCache.trans h.generationCache⟩

theorem Ages.mono (h : Ages cfg n s) (hn : n ≤ n') : Ages cfg n' s :=
  ⟨h.held, fun key l hl => (h.bound key l hl).trans hn⟩

theorem generation_of_some (h : s.values (.subtree key) = some (.generation v)) :
    cfg.generation s key = v := by
  rw [CacheConfig.generation, h]

theorem generation_of_none (h : s.values (.subtree key) = none) :
    cfg.generation s key = cfg.localGeneration s key := by
  rw [CacheConfig.generation, h]

theorem localGeneration_of_some (h : s.generations key = some v) : cfg.localGeneration s key = v := by
  rw [CacheConfig.localGeneration, h]
  rfl

/-- A generation is held or remembered. -/
theorem Ages.cases (h : Ages cfg n s) (key : H) :
    (∃ v, s.values (.subtree key) = some (.generation v) ∧ cfg.generation s key = v) ∨
      (s.values (.subtree key) = none ∧ cfg.generation s key = cfg.localGeneration s key) := by
  rcases hx : s.values (.subtree key) with _ | x
  · exact .inr ⟨rfl, generation_of_none hx⟩
  · obtain ⟨v, l, rfl, -, -⟩ := h.held key x hx
    exact .inl ⟨v, rfl, generation_of_some hx⟩

theorem Ages.age_le_local (h : Ages cfg n s) (key : H) :
    cfg.age s key ≤ cfg.count (cfg.localGeneration s key) := by
  rw [CacheConfig.age]
  rcases h.cases key with ⟨v, hv, hgen⟩ | ⟨-, hgen⟩
  · obtain ⟨v', l, heq, hl, hle⟩ := h.held key _ hv
    obtain rfl : v = v' := by simpa using heq
    rw [hgen, localGeneration_of_some hl]
    exact hle
  · rw [hgen]

theorem Ages.local_le (h : Ages cfg n s) (key : H) : cfg.count (cfg.localGeneration s key) ≤ n := by
  rcases hl : s.generations key with _ | l
  · rw [CacheConfig.localGeneration, hl, Option.getD_none, count_epoch]
    exact Nat.zero_le n
  · rw [localGeneration_of_some hl]
    exact h.bound key l hl

theorem Dropped.refl (s : Wrapper H) : Dropped s s := ⟨SameBooks.refl s, fun _ => .inl rfl⟩

theorem Dropped.trans (h : Dropped s t) (h' : Dropped t u) : Dropped s u where
  toSameBooks := h.toSameBooks.trans h'.toSameBooks
  values k := by
    rcases h'.values k with h1 | h1
    · rw [h1]
      exact h.values k
    · exact .inr h1

theorem Dropped.of_some (h : Dropped s t) {k : Key H} {x : Value H} (hx : t.values k = some x) :
    s.values k = some x := by
  rcases h.values k with h1 | h1
  · rw [← h1, hx]
  · rw [h1] at hx
    cases hx

theorem Dropped.local_eq (h : Dropped s t) (key : H) :
    cfg.localGeneration t key = cfg.localGeneration s key := by
  rw [CacheConfig.localGeneration, h.generations, CacheConfig.localGeneration]

/-- Where a generation was dropped, what the wrapper remembers takes its place. -/
theorem Dropped.onward (h : Dropped s t) (hs : Ages cfg n s) : Onward cfg n s t := by
  have ht : Ages cfg n t := by
    refine ⟨fun key x hx => ?_, fun key l hl => hs.bound key l ?_⟩
    · rw [h.generations]
      exact hs.held key x (h.of_some hx)
    · rw [← h.generations]
      exact hl
  refine ⟨ht, ⟨fun key => ?_, fun path hp => ?_, cached_of_eq h.generationCache⟩,
    fun kind path x hx => h.of_some hx⟩
  · rcases ht.cases key with ⟨v, hv, hgen⟩ | ⟨-, hgen⟩
    · rw [CacheConfig.age, CacheConfig.age, hgen, generation_of_some (h.of_some hv)]
    · rw [CacheConfig.age.eq_def cfg t, hgen, h.local_eq]
      exact hs.age_le_local key
  · rw [Wrapper.isRuntimeBypassed, h.bypassScopes]
    exact hp

/-- Nothing but the bypassed scopes has moved. -/
theorem onward_of_values (hs : Ages cfg n s) (hval : t.values = s.values)
    (hgen : t.generations = s.generations) (hcache : t.generationCache = s.generationCache)
    (hby : ∀ p, s.isRuntimeBypassed p = true → t.isRuntimeBypassed p = true) : Onward cfg n s t := by
  refine ⟨⟨fun key x hx => ?_, fun key l hl => ?_⟩, ⟨fun key => le_of_eq ?_, hby, cached_of_eq hcache⟩,
    fun kind path x hx => ?_⟩
  · rw [hgen]
    exact hs.held key x (hval ▸ hx)
  · exact hs.bound key l (hgen ▸ hl)
  · rw [CacheConfig.age, CacheConfig.age, CacheConfig.generation, CacheConfig.generation, hval,
      CacheConfig.localGeneration, CacheConfig.localGeneration, hgen]
  · exact hval ▸ hx

end Ages

/-! ## Provider calls -/

section Calls

variable {cfg : CacheConfig H} {n : ℕ} {s : Wrapper H}

theorem wp_call : wp call (fun _ t => Dropped s t) s := by
  refine ⟨⟨rfl, rfl, rfl⟩, fun k => ?_⟩
  show (if _ then none else s.values k) = s.values k ∨ (if _ then none else s.values k) = none
  split
  · exact .inr rfl
  · exact .inl rfl

theorem wp_markBypass (path : Path) : wp (markBypass path) (fun _ t =>
    t.isRuntimeBypassed path = true ∧ (∀ p, s.isRuntimeBypassed p = true → t.isRuntimeBypassed p = true) ∧
      t.values = s.values ∧ t.generations = s.generations ∧ t.generationCache = s.generationCache) s := by
  refine wp_bind (wp_get ?_)
  by_cases hany : (s.bypassScopes.any fun scope => decide (scope <+: path)) = true
  · rw [if_pos hany]
    exact wp_pure ⟨hany, fun _ h => h, rfl, rfl, rfl⟩
  · rw [if_neg hany]
    refine wp_set ⟨?_, fun p hp => ?_, rfl, rfl, rfl⟩
    · exact List.any_eq_true.2 ⟨path, List.mem_append_right _ (List.mem_singleton_self _),
        decide_eq_true List.prefix_rfl⟩
    · obtain ⟨scope, hscope, hpre⟩ := List.any_eq_true.1 hp
      have hpre := of_decide_eq_true hpre
      by_cases hunder : path <+: scope
      · exact List.any_eq_true.2 ⟨path, List.mem_append_right _ (List.mem_singleton_self _),
          decide_eq_true (hunder.trans hpre)⟩
      · refine List.any_eq_true.2 ⟨scope, List.mem_append_left _ (List.mem_filter.2 ⟨hscope, ?_⟩),
          decide_eq_true hpre⟩
        rw [decide_eq_false hunder]
        rfl

theorem wp_cacheGet {key : Key H} : wp (cacheGet key)
    (fun r t => Dropped s t ∧ ∀ x, r = some x → t.values key = x) s := by
  refine wp_bind (wp_mono wp_call fun f t ht => wp_bind (wp_get (wp_pure ⟨ht, fun x hx => ?_⟩)))
  split at hx
  · cases hx
  · exact Option.some.inj hx

/-- What a look at some keys found, from `s` to `t`: what is there is there throughout, and what is gone
stays gone. -/
structure Got (s t : Wrapper H) (found : List (Key H × Option (Value H))) : Prop where
  dropped : Dropped s t
  held : ∀ e ∈ found, ∀ x, e.2 = some x → s.values e.1 = some x
  kept : ∀ e ∈ found, ∀ x, t.values e.1 = some x → e.2 = some x
  gone : found.Pairwise fun e e' => e'.1 = e.1 → e.2 = none → e'.2 = none

theorem wp_cacheGetAll (keys : List (Key H)) (s : Wrapper H) : wp (cacheGetAll keys)
    (fun r t => Dropped s t ∧
      ∀ answers, r = some answers → answers.length = keys.length ∧ Got s t (keys.zip answers)) s := by
  induction keys generalizing s with
  | nil =>
    refine wp_pure ⟨Dropped.refl s, fun answers h => ?_⟩
    obtain rfl : [] = answers := Option.some.inj h
    exact ⟨rfl, Dropped.refl s, nofun, nofun, List.Pairwise.nil⟩
  | cons key keys ih =>
    refine wp_bind (wp_mono wp_cacheGet ?_)
    intro r t ⟨hst, hr⟩
    rcases r with _ | x
    · exact wp_pure ⟨hst, nofun⟩
    · have hx : t.values key = x := hr x rfl
      refine wp_bind (wp_mono (ih t) ?_)
      intro r' u ⟨htu, hr'⟩
      rcases r' with _ | answers
      · exact wp_pure ⟨hst.trans htu, nofun⟩
      · obtain ⟨hlen, hgot⟩ := hr' answers rfl
        refine wp_pure ⟨hst.trans htu, fun answers' h => ?_⟩
        obtain rfl : x :: answers = answers' := Option.some.inj h
        refine ⟨by rw [List.length_cons, List.length_cons, hlen], hst.trans htu, ?_, ?_, ?_⟩
        · intro e he y hy
          rcases List.mem_cons.1 he with rfl | he
          · exact hst.of_some (hx.trans hy)
          · exact hst.of_some (hgot.held e he y hy)
        · intro e he y hy
          rcases List.mem_cons.1 he with rfl | he
          · exact hx.symm.trans (htu.of_some hy)
          · exact hgot.kept e he y hy
        · refine List.Pairwise.cons (fun e he heq hnone => ?_) hgot.gone
          have hkey : t.values key = none := hx.trans hnone
          rcases hy : e.2 with _ | y
          · rfl
          · have := hgot.held e he y hy
            rw [heq, hkey] at this
            cases this

theorem wp_cacheBatchGet (cfg : CacheConfig H) (keys : List (Key H)) (s : Wrapper H) :
    wp (cacheBatchGet cfg keys) (fun r t => Dropped s t ∧
      ∀ answers, r = some answers → answers.length = keys.length ∧ Got s t (keys.zip answers)) s := by
  by_cases hnil : keys = []
  · subst hnil
    exact wp_cacheGetAll [] s
  by_cases hone : (keys.length = 1 || !cfg.batchGet) = true
  · have heq : cacheBatchGet cfg keys = cacheGetAll keys := by
      rw [cacheBatchGet, if_neg hnil, if_pos hone]
    rw [heq]
    exact wp_cacheGetAll keys s
  · have heq : cacheBatchGet cfg keys = (do
        let f ← call
        let s ← get
        return if f.fails then none else some (keys.map s.values)) := by
      rw [cacheBatchGet, if_neg hnil, if_neg hone]
    rw [heq]
    refine wp_bind (wp_mono wp_call fun f t ht => wp_bind (wp_get (wp_pure ⟨ht, fun answers h => ?_⟩)))
    split at h
    · cases h
    · obtain rfl : keys.map t.values = answers := Option.some.inj h
      have hmem : ∀ e ∈ keys.zip (keys.map t.values), e.2 = t.values e.1 := by
        intro e he
        rw [← List.map_prod_left_eq_zip, List.mem_map] at he
        obtain ⟨key, -, rfl⟩ := he
        rfl
      refine ⟨List.length_map .., ht, fun e he x hx => ?_, fun e he x hx => ?_, ?_⟩
      · exact ht.of_some ((hmem e he).symm.trans hx)
      · exact (hmem e he).trans hx
      · refine List.Pairwise.imp_of_mem ?_ (List.pairwise_of_forall fun _ _ => True.intro)
        intro e e' he he' _ heq hnone
        rw [hmem e' he', heq, ← hmem e he]
        exact hnone

end Calls

section Puts

variable [DecidableEq H] {cfg : CacheConfig H} {n : ℕ} {s : Wrapper H}

/-- A value after some entries were stored: one of them, or the old one. -/
theorem stored_values (entries : List (Key H × Value H)) (s : Wrapper H) (k : Key H) :
    (∃ e ∈ entries, e.1 = k ∧ (stored entries s).values k = some e.2) ∨
      ((∀ e ∈ entries, e.1 ≠ k) ∧ (stored entries s).values k = s.values k) := by
  induction entries generalizing s with
  | nil => exact .inr ⟨nofun, rfl⟩
  | cons e entries ih =>
    have hstep : stored (e :: entries) s =
        stored entries { s with values := Function.update s.values e.1 (some e.2) } := rfl
    rw [hstep]
    rcases ih { s with values := Function.update s.values e.1 (some e.2) } with
      ⟨e', he', heq, hval⟩ | ⟨hne, hval⟩
    · exact .inl ⟨e', List.mem_cons_of_mem _ he', heq, hval⟩
    · by_cases hk : e.1 = k
      · refine .inl ⟨e, List.mem_cons_self .., hk, hval.trans ?_⟩
        show Function.update s.values e.1 (some e.2) k = _
        rw [hk, Function.update_self]
      · refine .inr ⟨?_, hval.trans ?_⟩
        · intro e' he'
          rcases List.mem_cons.1 he' with rfl | he'
          · exact hk
          · exact hne e' he'
        · show Function.update s.values e.1 (some e.2) k = _
          rw [Function.update_of_ne (Ne.symm hk)]

theorem wp_providerPut {entries : List (Key H × Value H)} : wp (providerPut entries)
    (fun ok t => ∃ s' es, Dropped s s' ∧ (∀ e ∈ es, e ∈ entries) ∧ (ok = true → es = entries) ∧
      t = stored es s') s := by
  refine wp_bind (wp_mono wp_call fun f s' hs' => wp_bind (wp_modify (wp_pure
    ⟨s', _, hs', fun e he => (List.mem_filter.1 he).1, fun hok => ?_, rfl⟩)))
  rw [Bool.not_eq_true'] at hok
  exact List.filter_eq_self.2 fun e _ => by rw [hok]; rfl

/-- Storing generations that the wrapper remembers. -/
theorem onward_stored (es : List (Key H × Value H)) (hs : Ages cfg n s)
    (hes : ∀ e ∈ es, ∃ key v, e = (.subtree key, .generation v) ∧ s.generations key = some v) :
    Onward cfg n s (stored es s) := by
  have hgen : (stored es s).generations = s.generations := rfl
  have hages : Ages cfg n (stored es s) := by
    refine ⟨fun key x hx => ?_, hs.bound⟩
    rw [hgen]
    rcases stored_values es s (.subtree key) with ⟨e, he, hk, hval⟩ | ⟨-, hval⟩
    · obtain ⟨key', v, rfl, hv⟩ := hes e he
      obtain rfl : key' = key := by simpa using hk
      rw [hval] at hx
      exact ⟨v, v, (Option.some.inj hx).symm, hv, le_rfl⟩
    · rw [hval] at hx
      exact hs.held key x hx
  refine ⟨hages, ⟨fun key => ?_, fun _ hp => hp, cached_of_eq rfl⟩, fun kind path x hx => ?_⟩
  · rcases stored_values es s (.subtree key) with ⟨e, he, hk, hval⟩ | ⟨-, hval⟩
    · obtain ⟨key', v, rfl, hv⟩ := hes e he
      obtain rfl : key' = key := by simpa using hk
      have := hs.age_le_local key'
      rw [localGeneration_of_some hv] at this
      rw [CacheConfig.age.eq_def cfg (stored es s), generation_of_some hval]
      exact this
    · refine le_of_eq ?_
      rw [CacheConfig.age, CacheConfig.age, CacheConfig.generation, CacheConfig.generation, hval]
      rfl
  · rcases stored_values es s (cfg.key kind path) with ⟨e, he, hk, hval⟩ | ⟨-, hval⟩
    · obtain ⟨key', v, rfl, hv⟩ := hes e he
      cases kind <;> cases hk
    · rwa [hval] at hx

end Puts

/-! ## Readings -/

section Readings

variable {cfg : CacheConfig H} {n : ℕ} {s t u : Wrapper H} {found : List (H × Option (Value H))}
  {value : H × Option (Value H) → UInt64} {e : H × Option (Value H)}

/-- What a program over a list of options gives, element by element. -/
theorem mapM_eq_map {α β : Type} {f : α → Option β} {l : List α} {l' : List β} [Inhabited β]
    (h : l.mapM f = some l') : ∃ g : α → β, (∀ a ∈ l, f a = some (g a)) ∧ l' = l.map g := by
  refine ⟨fun a => (f a).getD default, ?_⟩
  rw [mapM_eq_some] at h
  induction h with
  | nil => simp
  | cons hb _ ih => simpa [hb] using ih

/-- The keys with the values that came of their answers. -/
theorem zip_map_answers {α β γ : Type} (keys : List α) (answers : List β) (g : α × β → γ)
    (h : answers.length = keys.length) :
    keys.zip ((keys.zip answers).map g) = (keys.zip answers).map fun e => (e.1, g e) := by
  induction keys generalizing answers with
  | nil => rfl
  | cons key keys ih =>
    rcases answers with _ | ⟨a, answers⟩
    · cases h
    · have hlen := Nat.succ.inj h
      rw [List.zip_cons_cons, List.map_cons, List.zip_cons_cons, ih answers hlen, List.map_cons]

/-- What the answers of a look at the generations come to: `value` of each. -/
structure Reading (cfg : CacheConfig H) (n : ℕ) (s u : Wrapper H)
    (found : List (H × Option (Value H))) (value : H × Option (Value H) → UInt64) : Prop where
  ages : Ages cfg n s
  dropped : Dropped s u
  got : Got s u (found.map fun e => (.subtree e.1, e.2))
  value_of : ∀ e ∈ found, u.generationOf cfg e.1 e.2 = some (value e)

namespace Reading

section

variable (h : Reading cfg n s u found value)

include h

section

variable (he : e ∈ found)

include he

theorem value_of_none (hnone : e.2 = none) : value e = cfg.localGeneration s e.1 := by
  have hval := h.value_of e he
  rw [hnone] at hval
  rw [← h.dropped.local_eq]
  exact (Option.some.inj hval).symm

/-- A generation that was found, and what the wrapper remembered of it. -/
theorem value_of_some {x : Value H}
    (hx : e.2 = some x) : x = .generation (value e) ∧ cfg.generation s e.1 = value e ∧
      cfg.count (value e) ≤ cfg.count (cfg.localGeneration s e.1) := by
  have hheld := h.got.held _ (List.mem_map.2 ⟨e, he, rfl⟩) x hx
  obtain ⟨v, l, rfl, hl, hle⟩ := h.ages.held e.1 x hheld
  have hval := h.value_of e he
  rw [hx] at hval
  obtain rfl : v = value e := Option.some.inj hval
  rw [localGeneration_of_some hl]
  exact ⟨rfl, generation_of_some hheld, hle⟩

/-- A value that is still held was found. -/
theorem value_of_held {x : Value H}
    (hx : u.values (.subtree e.1) = some x) : x = .generation (value e) :=
  (h.value_of_some he (h.got.kept _ (List.mem_map.2 ⟨e, he, rfl⟩) x hx)).1

theorem age_le : cfg.age s e.1 ≤ cfg.count (value e) := by
  rcases hx : e.2 with _ | x
  · rw [h.value_of_none he hx]
    exact h.ages.age_le_local e.1
  · exact le_of_eq (by rw [CacheConfig.age, (h.value_of_some he hx).2.1])

theorem count_le : cfg.count (value e) ≤ n := by
  rcases hx : e.2 with _ | x
  · rw [h.value_of_none he hx]
    exact h.ages.local_le e.1
  · exact (h.value_of_some he hx).2.2.trans (h.ages.local_le e.1)

end

end

end Reading

variable {cache : H → Option UInt64}

/-- What stands in a place was cached, or it is what was found for a key that was missing. -/
theorem inPlace_cases {keys : List H} {values l : List UInt64}
    (h : inPlace cache keys values = some l) : l.length = keys.length ∧ ∀ e ∈ keys.zip l,
      cache e.1 = some e.2 ∨ e ∈ (keys.filter fun key => (cache key).isNone).zip values := by
  induction keys generalizing values l with
  | nil =>
    obtain rfl : [] = l := Option.some.inj h
    exact ⟨rfl, nofun⟩
  | cons key keys ih =>
    rw [inPlace.eq_def] at h
    dsimp only at h
    rcases hc : cache key with _ | v
    · rw [hc] at h
      rcases values with _ | ⟨v, values⟩
      · cases h
      · obtain ⟨l', hl', rfl⟩ := Option.map_eq_some_iff.1 h
        obtain ⟨hlen, hall⟩ := ih hl'
        refine ⟨by rw [List.length_cons, List.length_cons, hlen], fun e he => ?_⟩
        rw [List.filter_cons_of_pos (by rw [hc]; rfl)]
        rcases List.mem_cons.1 he with rfl | he
        · exact .inr (List.mem_cons_self ..)
        · exact (hall e he).imp_right (List.mem_cons_of_mem _)
    · rw [hc] at h
      obtain ⟨l', hl', rfl⟩ := Option.map_eq_some_iff.1 h
      obtain ⟨hlen, hall⟩ := ih hl'
      refine ⟨by rw [List.length_cons, List.length_cons, hlen], fun e he => ?_⟩
      rw [List.filter_cons_of_neg (by rw [hc]; nofun)]
      rcases List.mem_cons.1 he with rfl | he
      · exact .inl hc
      · exact hall e he

variable [DecidableEq H]

variable {entries : List (H × UInt64)} {g : H → Option UInt64}

theorem recorded_of_not_mem {key : H} (h : ∀ e ∈ entries, e.1 ≠ key) : recorded entries g key = g key := by
  induction entries generalizing g with
  | nil => rfl
  | cons e entries ih =>
    have := ih (g := Function.update g e.1 (some e.2)) fun d hd => h d (List.mem_cons_of_mem _ hd)
    exact this.trans (Function.update_of_ne (Ne.symm (h e (List.mem_cons_self ..))) _ _)

/-- The last of the entries of a key is recorded. -/
theorem recorded_map {α : Type} {R : H × α → H × α → Prop} (v : H × α → UInt64) (g : H → Option UInt64)
    {entries : List (H × α)} (hR : entries.Pairwise R) {e : H × α} (he : e ∈ entries) :
    ∃ e' ∈ entries, e'.1 = e.1 ∧ (e' = e ∨ R e e') ∧
      recorded (entries.map fun e => (e.1, v e)) g e.1 = some (v e') := by
  induction entries generalizing g e with
  | nil => cases he
  | cons d entries ih =>
    have hrest := List.Pairwise.of_cons hR
    have hhead : ∀ a ∈ entries, R d a := fun a => List.rel_of_pairwise_cons hR
    show ∃ e' ∈ d :: entries, e'.1 = e.1 ∧ (e' = e ∨ R e e') ∧
      recorded (entries.map fun e => (e.1, v e)) (Function.update g d.1 (some (v d))) e.1 = some (v e')
    by_cases hin : ∃ d' ∈ entries, d'.1 = e.1
    · obtain ⟨d', hd', heq⟩ := hin
      rcases List.mem_cons.1 he with rfl | he
      · obtain ⟨e', he', heq', -, hrec⟩ := ih (Function.update g e.1 (some (v e))) hrest hd'
        refine ⟨e', List.mem_cons_of_mem _ he', heq'.trans heq, .inr (hhead e' he'), ?_⟩
        rw [← heq]
        exact heq ▸ hrec
      · obtain ⟨e', he', heq', hor, hrec⟩ := ih (Function.update g d.1 (some (v d))) hrest he
        exact ⟨e', List.mem_cons_of_mem _ he', heq', hor, hrec⟩
    · rcases List.mem_cons.1 he with rfl | he
      · refine ⟨e, List.mem_cons_self .., rfl, .inl rfl, ?_⟩
        rw [recorded_of_not_mem, Function.update_self]
        intro d hd heq
        obtain ⟨d', hd', rfl⟩ := List.mem_map.1 hd
        exact hin ⟨d', hd', heq⟩
      · exact absurd ⟨e, he, rfl⟩ hin

/-- What is recorded for a key: the value of its last entry, which is no older than the others. -/
theorem Reading.recorded_last (h : Reading cfg n s u found value) (he : e ∈ found) (g : H → Option UInt64) :
    ∃ e' ∈ found, e'.1 = e.1 ∧
      recorded (found.map fun e => (e.1, value e)) g e.1 = some (value e') ∧
      cfg.count (value e) ≤ cfg.count (value e') ∧ (e.2 = none → value e' = value e) := by
  have hpair : found.Pairwise fun e e' => e'.1 = e.1 → e.2 = none → e'.2 = none := by
    refine (List.pairwise_map.1 h.got.gone).imp fun {a b} hab heq => hab ?_
    show Key.subtree b.1 = Key.subtree a.1
    rw [heq]
  obtain ⟨e', he', heq, hor, hrec⟩ := recorded_map value g hpair he
  refine ⟨e', he', heq, hrec, ?_⟩
  have hgone : e.2 = none → e'.2 = none := by
    rcases hor with rfl | hR
    · exact id
    · exact hR heq
  rcases hx : e.2 with _ | x
  · have hval : value e' = value e := by
      rw [h.value_of_none he hx, h.value_of_none he' (hgone hx), heq]
    exact ⟨le_of_eq (by rw [hval]), fun _ => hval⟩
  · refine ⟨?_, nofun⟩
    obtain ⟨-, hgen, hle⟩ := h.value_of_some he hx
    rcases hx' : e'.2 with _ | x'
    · rw [h.value_of_none he' hx', heq]
      exact hle
    · rw [← hgen, ← heq, (h.value_of_some he' hx').2.1]

/-- Recording the values goes onward, and none of them is younger than the generations then. -/
theorem Reading.onward_recorded (h : Reading cfg n s u found value) :
    let w := { u with generations := recorded (found.map fun e => (e.1, value e)) u.generations }
    Onward cfg n s w ∧ ∀ e ∈ found, cfg.count (value e) ≤ cfg.age w e.1 := by
  intro w
  have hu := h.dropped.onward h.ages
  have hother : ∀ key, (∀ e ∈ found, e.1 ≠ key) → w.generations key = u.generations key := by
    refine fun key hne => recorded_of_not_mem fun d hd => ?_
    obtain ⟨e, he, rfl⟩ := List.mem_map.1 hd
    exact hne e he
  have hages : Ages cfg n w := by
    refine ⟨fun key x hx => ?_, fun key l hl => ?_⟩
    · by_cases hin : ∃ e ∈ found, e.1 = key
      · obtain ⟨e, he, rfl⟩ := hin
        obtain ⟨e', he', heq, hrec, -, -⟩ := h.recorded_last he u.generations
        have hval : x = .generation (value e') := h.value_of_held he' (by rw [heq]; exact hx)
        exact ⟨value e', value e', hval, hrec, le_rfl⟩
      · rw [hother key fun e he heq => hin ⟨e, he, heq⟩]
        exact hu.ages.held key x hx
    · by_cases hin : ∃ e ∈ found, e.1 = key
      · obtain ⟨e, he, rfl⟩ := hin
        obtain ⟨e', he', -, hrec, -, -⟩ := h.recorded_last he u.generations
        obtain rfl : value e' = l := Option.some.inj (hrec.symm.trans hl)
        exact h.count_le he'
      · rw [hother key fun e he heq => hin ⟨e, he, heq⟩] at hl
        exact hu.ages.bound key l hl
  have hle : ∀ e ∈ found, cfg.count (value e) ≤ cfg.age w e.1 := by
    intro e he
    obtain ⟨e', he', heq, hrec, hcount, -⟩ := h.recorded_last he u.generations
    rcases hages.cases e.1 with ⟨v, hv, hgen⟩ | ⟨-, hgen⟩
    · have hval := h.value_of_held he hv
      rw [CacheConfig.age, hgen, show v = value e by simpa using hval]
    · rw [CacheConfig.age, hgen, localGeneration_of_some hrec]
      exact hcount
  refine ⟨⟨hages, ⟨fun key => ?_, hu.later.bypass, hu.later.cached⟩, hu.kept⟩, hle⟩
  by_cases hin : ∃ e ∈ found, e.1 = key
  · obtain ⟨e, he, rfl⟩ := hin
    exact (h.age_le he).trans (hle e he)
  · refine (hu.later.age key).trans (le_of_eq ?_)
    rw [CacheConfig.age, CacheConfig.age, CacheConfig.generation, CacheConfig.generation,
      CacheConfig.localGeneration, CacheConfig.localGeneration,
      hother key fun e he heq => hin ⟨e, he, heq⟩]

/-- Storing generations that the wrapper remembers, or some of them. -/
theorem wp_providerPut_generations {entries : List (Key H × Value H)} (hs : Ages cfg n s)
    (h : ∀ e ∈ entries, ∃ key v, e = (.subtree key, .generation v) ∧ s.generations key = some v) :
    wp (providerPut entries) (fun _ t => Onward cfg n s t ∧ SameBooks s t) s := by
  refine wp_mono wp_providerPut ?_
  rintro ok t ⟨u, es, hu, hes, -, rfl⟩
  have hou := hu.onward hs
  refine ⟨hou.trans (onward_stored es hou.ages fun e he => ?_),
    hu.bypassScopes, hu.generations, hu.generationCache⟩
  rw [hu.generations]
  exact h e (hes e he)

theorem wp_putMissingGenerations {missing : List (H × UInt64)} (hs : Ages cfg n s)
    (h : ∀ e ∈ missing, s.generations e.1 = some e.2) :
    wp (putMissingGenerations cfg missing) (fun _ t => Onward cfg n s t ∧ SameBooks s t) s := by
  have hentries : ∀ e ∈ missing.map (fun e => (Key.subtree e.1, (Value.generation e.2 : Value H))),
      ∃ key v, e = (.subtree key, .generation v) ∧ s.generations key = some v := by
    intro e he
    obtain ⟨d, hd, rfl⟩ := List.mem_map.1 he
    exact ⟨d.1, d.2, rfl, h d hd⟩
  rw [putMissingGenerations]
  by_cases hnil : missing = []
  · rw [if_pos hnil]
    exact wp_pure ⟨Onward.refl hs, SameBooks.refl s⟩
  rw [if_neg hnil]
  by_cases hbatch : (decide (1 < missing.length) && cfg.batchPut) = true
  · rw [if_pos hbatch]
    exact wp_bind (wp_mono (wp_providerPut_generations hs hentries) fun _ _ ht => wp_pure ht)
  · rw [if_neg hbatch]
    refine wp_forM (P := fun t => Onward cfg n s t ∧ SameBooks s t) ?_ ⟨Onward.refl hs, SameBooks.refl s⟩
    intro e he t ⟨hst, hsame⟩
    refine wp_bind (wp_mono (wp_providerPut_generations hst.ages fun d hd => ?_) fun _ u hu =>
      wp_pure ⟨hst.trans hu.1, hsame.trans hu.2⟩)
    obtain rfl := List.mem_singleton.1 hd
    rw [hsame.generations]
    exact hentries _ he

/-- A reading of generations lies between those before and those after it. -/
theorem wp_currentGenerations (keys : List H) (hs : Ages cfg n s) : wp (currentGenerations cfg keys)
    (fun r t => Onward cfg n s t ∧ t.bypassScopes = s.bypassScopes ∧
      t.generationCache = s.generationCache ∧ ∀ values, r = some values →
        values.length = keys.length ∧ t.generations = recorded (keys.zip values) s.generations ∧
        ∀ e ∈ keys.zip values, cfg.age s e.1 ≤ cfg.count e.2 ∧ cfg.count e.2 ≤ cfg.age t e.1) s := by
  refine wp_bind (wp_mono (wp_cacheBatchGet cfg (keys.map .subtree) s) ?_)
  intro r u ⟨hdrop, hr⟩
  rcases r with _ | answers
  · exact wp_pure ⟨hdrop.onward hs, hdrop.bypassScopes, hdrop.generationCache, nofun⟩
  obtain ⟨hlen, hgot⟩ := hr answers rfl
  rw [List.length_map] at hlen
  refine wp_bind (wp_get ?_)
  generalize hvals : ((keys.zip answers).mapM fun e => u.generationOf cfg e.1 e.2) = given
  rcases given with _ | values
  · exact wp_pure ⟨hdrop.onward hs, hdrop.bypassScopes, hdrop.generationCache, nofun⟩
  obtain ⟨value, hval, rfl⟩ := mapM_eq_map hvals
  have hzip := zip_map_answers keys answers value hlen
  have hfound : (keys.map Key.subtree).zip answers =
      (keys.zip answers).map fun e => (Key.subtree e.1, e.2) := by
    rw [List.zip_map_left]
    rfl
  have hreading : Reading cfg n s u (keys.zip answers) value := ⟨hs, hdrop, hfound ▸ hgot, hval⟩
  obtain ⟨honward, hle⟩ := hreading.onward_recorded
  have hsize : ((keys.zip answers).map value).length = keys.length := by
    rw [List.length_map, List.length_zip, hlen, Nat.min_self]
  refine wp_bind (wp_set (wp_bind (wp_mono (wp_putMissingGenerations (n := n) ?_ ?_) ?_)))
  · rw [hzip]
    exact honward.ages
  · -- what is put was missing, so it is what the last entry of its key has as well
    intro d hd
    have hsnd : answers = (keys.zip answers).map Prod.snd := (List.map_snd_zip (by omega)).symm
    rw [hzip] at hd
    nth_rewrite 2 [hsnd] at hd
    rw [List.zip_map', List.mem_filterMap] at hd
    obtain ⟨a, ha, hd⟩ := hd
    obtain ⟨e, he, rfl⟩ := List.mem_map.1 ha
    split at hd
    · obtain rfl : (e.1, value e) = d := Option.some.inj hd
      obtain ⟨e', -, -, hrec, -, hsame⟩ := hreading.recorded_last he u.generations
      rw [hzip, ← hsame (Option.isNone_iff_eq_none.1 ‹_›)]
      exact hrec
    · cases hd
  · intro _ w ⟨hw, hsame⟩
    rw [hzip] at hw hsame
    refine wp_pure ⟨honward.trans hw, hsame.bypassScopes.trans hdrop.bypassScopes,
      hsame.generationCache.trans hdrop.generationCache, fun values h => ?_⟩
    obtain rfl : (keys.zip answers).map value = values := Option.some.inj h
    refine ⟨hsize, ?_, fun d hd => ?_⟩
    · rw [hzip, hsame.generations, ← hdrop.generations]
    · rw [hzip, List.mem_map] at hd
      obtain ⟨e, he, rfl⟩ := hd
      exact ⟨hreading.age_le he, (hle e he).trans (hw.later.age e.1)⟩

theorem recorded_cases {key : H} {v : UInt64}
    (h : recorded entries g key = some v) : (key, v) ∈ entries ∨ g key = some v := by
  induction entries generalizing g with
  | nil => exact .inr h
  | cons e entries ih =>
    rcases ih (g := Function.update g e.1 (some e.2)) h with hmem | hg
    · exact .inl (List.mem_cons_of_mem _ hmem)
    · by_cases hk : key = e.1
      · subst hk
        rw [Function.update_self] at hg
        exact .inl (List.mem_cons.2 (.inl (Prod.ext rfl (Option.some.inj hg).symm)))
      · rw [Function.update_of_ne hk] at hg
        exact .inr hg

theorem wp_currentGenerationsMemoized (keys : List H) (hs : Ages cfg n s)
    (hcache : s.generationCache = some cache) : wp (currentGenerationsMemoized cfg keys cache)
      (fun r t => Onward cfg n s t ∧ t.bypassScopes = s.bypassScopes ∧ ∀ values, r = some values →
        values.length = keys.length ∧
        ∀ e ∈ keys.zip values, cache e.1 = some e.2 ∨ cfg.age s e.1 ≤ cfg.count e.2) s := by
  refine wp_bind (wp_mono (wp_currentGenerations (keys.filter fun key => (cache key).isNone) hs) ?_)
  intro r t ⟨hst, hby, _, hr⟩
  rcases r with _ | values
  · exact wp_pure ⟨hst, hby, nofun⟩
  obtain ⟨-, -, hread⟩ := hr values rfl
  refine wp_bind (wp_modify (wp_pure ⟨⟨⟨hst.ages.held, hst.ages.bound⟩, ⟨hst.later.age, hst.later.bypass,
    ?_⟩, hst.kept⟩, hby, fun values' h => ?_⟩))
  · intro cache' hc
    obtain rfl := Option.some.inj hc
    refine ⟨cache, hcache, fun key v hv => ?_⟩
    rcases recorded_cases hv with hmem | hold
    · exact .inr (hread _ hmem).1
    · exact .inl hold
  · obtain ⟨hlen, hall⟩ := inPlace_cases h
    exact ⟨hlen, fun e he => (hall e he).imp_right fun hmem => (hread e hmem).1⟩

/-- Generations that match are not from before, or the `grep` had them cached. -/
theorem wp_generationsMatch (envelope : CacheEnvelope H) (hs : Ages cfg n s) :
    wp (generationsMatch cfg envelope) (fun r t => Onward cfg n s t ∧ t.bypassScopes = s.bypassScopes ∧
      (r = some true → ∀ g ∈ envelope.generations, cfg.age s g.key ≤ cfg.count g.value ∨
        ∃ cache, s.generationCache = some cache ∧ cache g.key = some g.value)) s := by
  have hmatch : ∀ values : List UInt64,
      values.length = (envelope.generations.map GenerationSnapshot.key).length →
      ((envelope.generations.zip values).all fun e => e.1.value == e.2) = true →
      ∀ g ∈ envelope.generations, (g.key, g.value) ∈
        (envelope.generations.map GenerationSnapshot.key).zip values := by
    intro values hlen hall g hg
    rw [List.length_map] at hlen
    have hfst : (envelope.generations.zip values).map Prod.fst = envelope.generations :=
      List.map_fst_zip (by omega)
    rw [← hfst] at hg
    obtain ⟨⟨g', v⟩, hmem, rfl⟩ := List.mem_map.1 hg
    have hv : g'.value = v := beq_iff_eq.1 (List.all_eq_true.1 hall _ hmem)
    rw [List.zip_map_left]
    exact List.mem_map.2 ⟨(g', v), hmem, by rw [hv]; rfl⟩
  refine wp_bind (wp_get ?_)
  rcases hc : s.generationCache with _ | cache
  · refine wp_bind (wp_mono (wp_currentGenerations _ hs) ?_)
    intro r t ⟨hst, hby, _, hr⟩
    rcases r with _ | values
    · exact wp_pure ⟨hst, hby, nofun⟩
    · obtain ⟨hlen, -, hread⟩ := hr values rfl
      refine wp_pure ⟨hst, hby, fun h g hg => .inl ?_⟩
      exact (hread _ (hmatch values hlen (Option.some.inj h) g hg)).1
  · refine wp_bind (wp_mono (wp_currentGenerationsMemoized _ hs hc) ?_)
    intro r t ⟨hst, hby, hr⟩
    rcases r with _ | values
    · exact wp_pure ⟨hst, hby, nofun⟩
    · obtain ⟨hlen, hread⟩ := hr values rfl
      refine wp_pure ⟨hst, hby, fun h g hg => ?_⟩
      rcases hread _ (hmatch values hlen (Option.some.inj h) g hg) with hcached | hle
      · exact .inr ⟨cache, rfl, hcached⟩
      · exact .inl hle

/-- The wrapper remembers the generation after the one it had. -/
theorem onward_remembered {key : H} {v v' : UInt64} (hs : Ages cfg n s)
    (hv : s.generations key = some v) (hcount : cfg.count v' = cfg.count v + 1) :
    Onward cfg (n + 1) s { s with generations := Function.update s.generations key (some v') } := by
  refine ⟨⟨fun k x hx => ?_, fun k l hl => ?_⟩, ⟨fun k => ?_, fun _ hp => hp, cached_of_eq rfl⟩,
    fun _ _ _ hx => hx⟩
  · obtain ⟨w, l, rfl, hl, hle⟩ := hs.held k x hx
    by_cases hk : k = key
    · subst hk
      obtain rfl : v = l := Option.some.inj (hv.symm.trans hl)
      exact ⟨w, v', rfl, Function.update_self .., by omega⟩
    · exact ⟨w, l, rfl, (Function.update_of_ne hk ..).trans hl, hle⟩
  · have hl : Function.update s.generations key (some v') k = some l := hl
    by_cases hk : k = key
    · subst hk
      rw [Function.update_self] at hl
      have := hs.bound k v hv
      rw [← Option.some.inj hl]
      omega
    · rw [Function.update_of_ne hk] at hl
      exact (hs.bound k l hl).trans (Nat.le_succ n)
  · generalize ht : { s with generations := Function.update s.generations key (some v') } = t
    have hvalues : t.values = s.values := by rw [← ht]
    have hgens : t.generations = Function.update s.generations key (some v') := by rw [← ht]
    rcases hs.cases k with ⟨w, hw, hgen⟩ | ⟨hnone, hgen⟩
    · rw [CacheConfig.age, hgen, CacheConfig.age, generation_of_some (hvalues ▸ hw)]
    · rw [CacheConfig.age, hgen, CacheConfig.age, generation_of_none (hvalues ▸ hnone)]
      by_cases hk : k = key
      · subst hk
        have hv' : t.generations k = some v' := by rw [hgens, Function.update_self]
        rw [localGeneration_of_some hv, localGeneration_of_some hv', hcount]
        exact Nat.le_succ _
      · rw [CacheConfig.localGeneration, CacheConfig.localGeneration, hgens, Function.update_of_ne hk]

/-- A bump moves a generation on, or the subtree is bypassed. -/
theorem wp_bumpGeneration (path : Path) (hs : Ages cfg n s) (hn : n + 1 < 2 ^ 64) :
    wp (bumpGeneration cfg path) (fun _ t => Onward cfg (n + 1) s t ∧
      (cfg.age s (cfg.hash path) < cfg.age t (cfg.hash path) ∨ t.isRuntimeBypassed path = true)) s := by
  have hbypass : ∀ t, Onward cfg n s t → wp (markBypass path) (fun _ u => Onward cfg (n + 1) s u ∧
      (cfg.age s (cfg.hash path) < cfg.age u (cfg.hash path) ∨ u.isRuntimeBypassed path = true)) t := by
    intro t hst
    refine wp_mono (wp_markBypass path) fun _ u hu => ⟨?_, .inr hu.1⟩
    exact hst.trans (onward_of_values (hst.ages.mono (Nat.le_succ n)) hu.2.2.1 hu.2.2.2.1 hu.2.2.2.2 hu.2.1)
  refine wp_bind (wp_mono (wp_currentGenerations [cfg.hash path] hs) ?_)
  intro r t ⟨hst, _, _, hr⟩
  rcases r with _ | values
  · exact hbypass t hst
  rcases values with _ | ⟨current, values⟩
  · exact hbypass t hst
  obtain ⟨hlen, hgen, hread⟩ := hr _ rfl
  obtain rfl : values = [] := List.length_eq_zero_iff.1 (Nat.succ.inj hlen)
  have hlocal : t.generations (cfg.hash path) = some current := by
    rw [hgen]
    exact Function.update_self ..
  have hcount : cfg.count (current + 1) = cfg.count current + 1 := by
    have := hst.ages.bound _ _ hlocal
    exact count_succ (by omega)
  have hle := (hread (cfg.hash path, current) (List.mem_singleton_self _)).1
  have hnext : Onward cfg (n + 1) t
      { t with generations := Function.update t.generations (cfg.hash path) (some (current + 1)) } :=
    onward_remembered hst.ages hlocal hcount
  refine wp_bind (wp_modify (wp_bind (wp_mono wp_providerPut ?_)))
  rintro ok u ⟨w, es, hw, hes, hok, rfl⟩
  have hwages := hw.onward hnext.ages
  have hwnext : w.generations (cfg.hash path) = some (current + 1) := by
    rw [hw.generations]
    exact Function.update_self ..
  have hput := onward_stored es hwages.ages fun e he =>
    ⟨cfg.hash path, current + 1, List.mem_singleton.1 (hes e he), hwnext⟩
  have hsu := hst.trans (hnext.trans (hwages.trans hput))
  rcases ok with _ | _
  · refine wp_mono (wp_markBypass path) fun _ u hu => ⟨?_, .inr hu.1⟩
    exact hsu.trans (onward_of_values hput.ages hu.2.2.1 hu.2.2.2.1 hu.2.2.2.2 hu.2.1)
  · refine wp_pure ⟨hsu, .inl ?_⟩
    obtain rfl := hok rfl
    have hval : (stored [(Key.subtree (cfg.hash path), Value.generation (current + 1))] w).values
        (.subtree (cfg.hash path)) = some (.generation (current + 1)) := Function.update_self ..
    rw [CacheConfig.age.eq_def cfg (stored _ w), generation_of_some hval, hcount]
    exact Nat.lt_succ_of_le hle

end Readings

end OpenViking.Cache
