import OpenViking.Cache.Objects
import OpenViking.Common.System

/-!
# Transparency of the cache

What is read through `CachedFileSystem` against what its backend alone would answer, over runs of requests.

A mutation takes the objects that it touches out of the cache, once the backend has succeeded.  An object
store changes others too: its directories are the prefixes of its objects, so a write can make a directory
and all that is above it, of which only the nearest listing is dropped.  And a mutation that fails drops
nothing, whatever the backend had done by then.  Results:

* `answers_of_atomic`: when the answers are the backend's, over one whose failures leave it unchanged;
* `answers_of_tidy`: the same over any backend.
-/

namespace OpenViking.Cache

open StateSpec

variable {H σ E : Type}

/-! ## What is compared -/

/-- The name and the kind of an entry and, for a file, its size. -/
def FileInfo.seen (i : FileInfo) : FileInfo :=
  { i with size := if i.isDir then 0 else i.size, mode := 0, modTime := 0 }

/-- A listing as it is compared. -/
def seenEntries (r : Except E (List FileInfo)) : Except E (List FileInfo) := r.map (·.map FileInfo.seen)

/-- An answer as it is compared. -/
def Answer.seen : Answer E → Answer E
  | .entries r => .entries (seenEntries r)
  | a => a

/-- The file or the listing reads the same from both. -/
def Unchanged (b : Backend σ E) (s t : σ) : CacheObjectKind → Path → Prop
  | .file, path => b.read t path 0 0 = b.read s path 0 0
  | .directory, path => seenEntries (b.readDir t path) = seenEntries (b.readDir s path)

/-- The envelope holds what the backend would answer. -/
def Right (b : Backend σ E) (s : σ) (e : CacheEnvelope H) : Prop :=
  match e.kind with
  | .file => ∀ data, e.payload = .file data → b.read s e.path 0 0 = .ok data
  | .directory => ∀ entries, e.payload = .directory entries →
    seenEntries (b.readDir s e.path) = seenEntries (.ok entries)

theorem Right.unchanged {b : Backend σ E} {s t : σ} {e : CacheEnvelope H} (h : Right b s e)
    (hst : Unchanged b s t e.kind e.path) : Right b t e := by
  rw [Right] at h ⊢
  rcases hk : e.kind with _ | _
  · rw [hk] at h hst
    exact fun data hp => hst.trans (h data hp)
  · rw [hk] at h hst
    exact fun entries hp => hst.trans (h entries hp)

/-! ## Reads -/

/-- During a request that began in `s₀`: what is held and not from before is right. -/
structure Reads (cfg : CacheConfig H) (b : Backend σ E) (backend : σ) (n : ℕ) (s₀ s : Wrapper H) :
    Prop where
  ages : Ages cfg n s
  later : Later cfg s₀ s
  noOlder : NoOlder cfg s₀ s
  objects : Objects cfg s
  right : ∀ e, Held cfg s e → Since cfg s₀ e → Right b backend e

section Reads

variable {cfg : CacheConfig H} {b : Backend σ E} {backend : σ} {n : ℕ} {s₀ s t : Wrapper H} {path : Path}
  {new : CacheEnvelope H → Prop}

theorem Reads.progress (h : Reads cfg b backend n s₀ s) (hst : Progress cfg n s t new)
    (hnew : ∀ e, new e → Right b backend e) : Reads cfg b backend n s₀ t :=
  ⟨hst.ages, h.later.trans hst.later, h.noOlder.later h.later hst.later, hst.objects, fun e he hsince =>
    (hst.held e he).elim (fun hs => h.right e hs hsince) (hnew e)⟩

theorem Reads.onward (h : Reads cfg b backend n s₀ s) (hst : Onward cfg n s t) :
    Reads cfg b backend n s₀ t :=
  h.progress (hst.progress h.objects) fun _ => False.elim

variable [DecidableEq H]

theorem wp_read (path : Path) (offset size : ℕ) (h : Reads cfg b backend n s₀ s) :
    wp (read cfg path offset size (b.read backend path))
      (fun r t => r = b.read backend path offset size ∧ Reads cfg b backend n s₀ t) s := by
  refine wp_bind (wp_get ?_)
  by_cases hskip : offset ≠ 0 ∨ size ≠ 0 ∨ cfg.policy.cacheFile path 0 = false ∨
      s.isRuntimeBypassed path = true
  · rw [if_pos hskip]
    exact wp_pure ⟨rfl, h⟩
  rw [if_neg hskip]
  have hby : s.isRuntimeBypassed path = false := by
    by_contra hne
    exact hskip (.inr (.inr (.inr (Bool.of_not_eq_false hne))))
  obtain ⟨rfl, rfl⟩ : offset = 0 ∧ size = 0 := by
    constructor
    · by_contra hne
      exact hskip (.inl hne)
    · by_contra hne
      exact hskip (.inr (.inl hne))
  refine wp_bind (wp_mono (wp_probe .file path _ h.ages h.later h.noOlder hby) ?_)
  intro r t ⟨hst, hfound⟩
  have ht := h.onward hst
  rcases r with _ | data
  · generalize hb : b.read backend path 0 0 = answer
    rcases answer with e | data
    · exact wp_pure ⟨rfl, ht⟩
    · refine wp_bind (wp_mono (Q := fun _ u => Reads cfg b backend n s₀ u) ?_ fun _ u hu =>
        wp_pure ⟨rfl, hu⟩)
      rw [fillFile]
      by_cases hadmit : cfg.policy.cacheFile path data.length = true
      · rw [if_pos hadmit]
        refine wp_mono (wp_fill .file path (.file data) ht.ages ht.objects) fun _ u hu => ?_
        refine ht.progress hu ?_
        rintro e ⟨hkind, rfl, hpayload⟩
        rw [Right, hkind]
        intro data' hdata
        rw [hb, show data = data' by simpa using hpayload.symm.trans hdata]
      · rw [if_neg hadmit]
        exact wp_pure ht
  · obtain ⟨e, hheld, hsince, hkind, rfl, haccept⟩ := hfound data rfl
    refine wp_pure ⟨?_, ht⟩
    have hright := h.right e hheld hsince
    rw [Right, hkind] at hright
    rcases hp : e.payload with data' | entries
    · rw [hp] at haccept
      rw [hright data' hp, show data = data' from (Option.some.inj haccept).symm]
    · rw [hp] at haccept
      cases haccept

theorem wp_readDir (path : Path) (h : Reads cfg b backend n s₀ s) :
    wp (readDir cfg path (b.readDir backend path))
      (fun r t => seenEntries r = seenEntries (b.readDir backend path) ∧
        Reads cfg b backend n s₀ t) s := by
  refine wp_bind (wp_get ?_)
  by_cases hskip : cfg.policy.cacheDirectory path = false ∨ s.isRuntimeBypassed path = true
  · rw [if_pos hskip]
    exact wp_pure ⟨rfl, h⟩
  rw [if_neg hskip]
  have hby : s.isRuntimeBypassed path = false := by
    by_contra hne
    exact hskip (.inr (Bool.of_not_eq_false hne))
  refine wp_bind (wp_mono (wp_probe .directory path _ h.ages h.later h.noOlder hby) ?_)
  intro r t ⟨hst, hfound⟩
  have ht := h.onward hst
  rcases r with _ | entries
  · generalize hb : b.readDir backend path = answer
    rcases answer with e | entries
    · exact wp_pure ⟨rfl, ht⟩
    · refine wp_bind (wp_mono (Q := fun _ u => Reads cfg b backend n s₀ u) ?_ fun _ u hu =>
        wp_pure ⟨rfl, hu⟩)
      rw [fillDirectory]
      by_cases hadmit : cfg.policy.cacheDirectoryEntries path entries.length = true
      · rw [if_pos hadmit]
        refine wp_mono (wp_fill .directory path (.directory entries) ht.ages ht.objects) fun _ u hu => ?_
        refine ht.progress hu ?_
        rintro e ⟨hkind, rfl, hpayload⟩
        rw [Right, hkind]
        intro entries' hentries
        rw [hb, show entries = entries' by simpa using hpayload.symm.trans hentries]
      · rw [if_neg hadmit]
        exact wp_pure ht
  · obtain ⟨e, hheld, hsince, hkind, rfl, haccept⟩ := hfound entries rfl
    refine wp_pure ⟨?_, ht⟩
    have hright := h.right e hheld hsince
    rw [Right, hkind] at hright
    rcases hp : e.payload with data | entries'
    · rw [hp] at haccept
      cases haccept
    · rw [hp] at haccept
      dsimp only at haccept
      split at haccept
      · rw [hright entries' hp, show entries = entries' from (Option.some.inj haccept).symm]
      · cases haccept

theorem wp_visit (visits : List Visit) (h : Reads cfg b backend n s₀ s) :
    wp (visit cfg b backend visits)
      (fun r t => r.map Answer.seen = (visits.map (plainVisit b backend)).map Answer.seen ∧
        Reads cfg b backend n s₀ t) s := by
  induction visits generalizing s with
  | nil => exact wp_pure ⟨rfl, h⟩
  | cons v visits ih =>
    rcases v with path | path
    · refine wp_bind (wp_mono (wp_read path 0 0 h) ?_)
      intro r t ⟨hr, ht⟩
      refine wp_bind (wp_mono (ih ht) fun rs u hu => wp_pure ⟨?_, hu.2⟩)
      rw [List.map_cons, List.map_cons, List.map_cons, hu.1, hr]
      rfl
    · refine wp_bind (wp_mono (wp_readDir path h) ?_)
      intro r t ⟨hr, ht⟩
      refine wp_bind (wp_mono (ih ht) fun rs u hu => wp_pure ⟨?_, hu.2⟩)
      rw [List.map_cons, List.map_cons, List.map_cons, hu.1]
      show Answer.entries (seenEntries r) :: _ = Answer.entries (seenEntries (b.readDir backend path)) :: _
      rw [hr]

end Reads

/-! ## Requests -/

/-- Between two requests: what is served is right. -/
structure Coherent (cfg : CacheConfig H) (b : Backend σ E) (n : ℕ) (s : Session σ H) : Prop where
  ages : Ages cfg n s.wrapper
  objects : Objects cfg s.wrapper
  idle : s.wrapper.generationCache = none
  right : ∀ e, Served cfg s.wrapper e → Right b s.backend e

/-- A successful mutation changes nothing that is served but what it touches, and what it wrote is
there. -/
structure Confined (cfg : CacheConfig H) (b : Backend σ E) (s : Session σ H) (m : Mutation) : Prop where
  unchanged : ∀ e, Served cfg s.wrapper e → ¬ Touches m e.kind e.path →
    Unchanged b s.backend (b.run m s.backend).2 e.kind e.path
  written : ∀ path data flags, m = .write path data 0 flags → (flags = .create ∨ flags = .truncate) →
    b.read (b.run m s.backend).2 path 0 0 = .ok data

/-- A mutation changes nothing that is served. -/
def Untouched (cfg : CacheConfig H) (b : Backend σ E) (s : Session σ H) (m : Mutation) : Prop :=
  ∀ e, Served cfg s.wrapper e → Unchanged b s.backend (b.run m s.backend).2 e.kind e.path

/-- The condition on a request that succeeds. -/
def SuccessConfined (cfg : CacheConfig H) (b : Backend σ E) (s : Session σ H) : Request → Prop
  | .mutate m => (b.run m s.backend).1.isOk = true → Confined cfg b s m
  | _ => True

/-- The condition on a request: a success is confined, and a failure leaves alone what is served. -/
def Tidy (cfg : CacheConfig H) (b : Backend σ E) (s : Session σ H) (r : Request) : Prop :=
  SuccessConfined cfg b s r ∧
    ∀ m, r = .mutate m → (b.run m s.backend).1.isOk = false → Untouched cfg b s m

section Requests

variable {cfg : CacheConfig H} {b : Backend σ E} {n n' : ℕ} {s : Session σ H}

theorem Coherent.mono (h : Coherent cfg b n s) (hn : n ≤ n') : Coherent cfg b n' s :=
  ⟨h.ages.mono hn, h.objects, h.idle, h.right⟩

theorem Coherent.reads (h : Coherent cfg b n s) :
    Reads cfg b s.backend n s.wrapper s.wrapper :=
  ⟨h.ages, Later.refl _, fun _ _ _ hc => (nomatch h.idle.symm.trans hc), h.objects,
    fun e hheld hsince => h.right e ⟨hheld, hsince⟩⟩

theorem idle_later {s t : Wrapper H} (h : s.generationCache = none) (hst : Later cfg s t) :
    t.generationCache = none := by
  rcases hc : t.generationCache with _ | cache
  · rfl
  · obtain ⟨old, hold, -⟩ := hst.cached cache hc
    cases h.symm.trans hold

theorem Reads.coherent {t : Wrapper H} (h : Reads cfg b s.backend n s.wrapper t)
    (hidle : s.wrapper.generationCache = none) : Coherent cfg b n ⟨t, s.backend⟩ :=
  ⟨h.ages, h.objects, idle_later hidle h.later, fun e he => h.right e he.1 (he.2.earlier h.later)⟩

theorem coherent_fresh (faults : ℕ → Fault H) (backend : σ) :
    Coherent cfg b 0 ⟨fresh faults, backend⟩ :=
  ⟨⟨nofun, nofun⟩, nofun, rfl, fun _ he => nomatch he.1.values⟩

theorem Objects.withCache {s : Wrapper H} (h : Objects cfg s) (cache : Option (H → Option UInt64)) :
    Objects cfg { s with generationCache := cache } := by
  intro kind path x hx
  obtain ⟨e, rfl, hkey, hfiled⟩ := h kind path x hx
  exact ⟨e, rfl, hkey, hfiled.keys, hfiled.count_le⟩

variable [DecidableEq H]

/-- A `grep` leaves the cache coherent, and answers as the backend would. -/
theorem coherent_grep (visits : List Visit) (h : Coherent cfg b n s) :
    wp (grep cfg b s.backend visits)
      (fun r t => r.map Answer.seen = (visits.map (plainVisit b s.backend)).map Answer.seen ∧
        Coherent cfg b n ⟨t, s.backend⟩) s.wrapper := by
  refine wp_bind (wp_modify ?_)
  have hreads : Reads cfg b s.backend n { s.wrapper with generationCache := some fun _ => none }
      { s.wrapper with generationCache := some fun _ => none } := by
    refine ⟨⟨h.ages.held, h.ages.bound⟩, Later.refl _, fun cache key v hc hv => ?_,
      h.objects.withCache _, ?_⟩
    · rw [← Option.some.inj hc] at hv
      cases hv
    · exact fun e hheld hsince => h.right e ⟨⟨hheld.values, hheld.bypass⟩, hsince⟩
  refine wp_bind (wp_mono (wp_visit visits hreads) fun r t ht => ?_)
  refine wp_bind (wp_modify (wp_pure ⟨ht.1, ⟨ht.2.ages.held, ht.2.ages.bound⟩,
    ht.2.objects.withCache none, rfl, fun e he => ?_⟩))
  have hsince : Since cfg t e := he.2
  exact ht.2.right e ⟨he.1.values, he.1.bypass⟩ (hsince.earlier ht.2.later)

/-- A mutation leaves the cache coherent, when it meets the condition. -/
theorem coherent_mutate (m : Mutation) (h : Coherent cfg b n s) (hn : n + 2 < 2 ^ 64)
    (htidy : Tidy cfg b s (.mutate m)) : Coherent cfg b (n + 2) (handle cfg b s (.mutate m)).2 := by
  obtain ⟨hok, herr⟩ := htidy
  rw [SuccessConfined] at hok
  have herr := herr m rfl
  rcases hrun : b.run m s.backend with ⟨_ | _, backend⟩
  · have hhandle : (handle cfg b s (.mutate m)).2 = ⟨s.wrapper, backend⟩ := by
      rw [handle.eq_def]
      dsimp only
      rw [hrun]
    rw [hrun] at herr
    rw [hhandle]
    refine ⟨h.ages.mono (by omega), h.objects, h.idle, fun e he => ?_⟩
    have hun := herr rfl e he
    rw [hrun] at hun
    exact (h.right e he).unchanged hun
  · have hhandle : (handle cfg b s (.mutate m)).2 = ⟨(invalidate cfg m s.wrapper).2, backend⟩ := by
      rw [handle.eq_def]
      dsimp only
      rw [hrun]
    rw [hrun] at hok
    rw [hhandle]
    have hinv : Invalidated cfg (n + 2) s.wrapper (invalidate cfg m s.wrapper).2 m :=
      wp_invalidate m h.ages h.objects hn
    refine ⟨hinv.ages, hinv.objects, idle_later h.idle hinv.later, fun e he => ?_⟩
    rcases hinv.served e he with ⟨hserved, huntouched⟩ | hwritten
    · have hun := (hok rfl).unchanged e hserved huntouched
      rw [hrun] at hun
      exact (h.right e hserved).unchanged hun
    · cases m with
      | write path data offset flags =>
        obtain ⟨rfl, hflags, hkind, rfl, hpayload⟩ := hwritten
        have hread := (hok rfl).written e.path data flags rfl hflags
        rw [hrun] at hread
        rw [Right, hkind]
        intro data' hdata
        rw [hread, show data = data' by simpa using hpayload.symm.trans hdata]
      | _ => exact hwritten.elim

/-- One request through the cache: the backend moves as it would alone, the answers are its own, and the
cache stays coherent. -/
theorem handle_spec (r : Request) (h : Coherent cfg b n s) (hn : n + 2 < 2 ^ 64)
    (htidy : Tidy cfg b s r) : Coherent cfg b (n + 2) (handle cfg b s r).2 ∧
      (handle cfg b s r).2.backend = (plainHandle b s.backend r).2 ∧
      (handle cfg b s r).1.map Answer.seen = (plainHandle b s.backend r).1.map Answer.seen := by
  cases r with
  | mutate m =>
    refine ⟨coherent_mutate m h hn htidy, ?_⟩
    rcases hrun : b.run m s.backend with ⟨_ | _, backend⟩
    all_goals
      rw [handle.eq_def, plainHandle.eq_def]
      dsimp only
      rw [hrun]
      exact ⟨rfl, rfl⟩
  | read path offset size =>
    obtain ⟨hr, ht⟩ := wp_read path offset size h.reads
    refine ⟨(ht.coherent h.idle).mono (by omega), rfl, ?_⟩
    show [Answer.seen (.bytes _)] = [Answer.seen (.bytes _)]
    rw [hr]
  | readDir path =>
    obtain ⟨hr, ht⟩ := wp_readDir path h.reads
    refine ⟨(ht.coherent h.idle).mono (by omega), rfl, ?_⟩
    show [Answer.entries (seenEntries _)] = [Answer.entries (seenEntries _)]
    rw [hr]
  | grep visits =>
    obtain ⟨hr, ht⟩ := coherent_grep visits h
    exact ⟨ht.mono (by omega), rfl, hr⟩

/-! ## Runs -/

/-- The state after a request. -/
def next (cfg : CacheConfig H) (b : Backend σ E) (s : Session σ H) (r : Request) :
    Option (Session σ H) := some (handle cfg b s r).2

/-- The answers of a run whose requests meet the condition are those of the backend. -/
theorem transparent {requests : List Request} (h : Coherent cfg b n s)
    (hn : n + 2 * requests.length < 2 ^ 64) (hmeet : ActsMeet (next cfg b) (Tidy cfg b) s requests) :
    (answers cfg b s requests).map Answer.seen = (plainAnswers b s.backend requests).map Answer.seen := by
  induction requests generalizing n s with
  | nil => rfl
  | cons r requests ih =>
    rw [List.length_cons] at hn
    obtain ⟨hcoherent, hbackend, hanswers⟩ := handle_spec r h (by omega) hmeet.1
    rw [answers, plainAnswers, List.map_append, List.map_append, hanswers, ← hbackend,
      ih hcoherent (by omega) (hmeet.2 _ rfl)]

end Requests

/-! ## An object store -/

/-- A store of objects by their keys, as `S3FileSystem` puts and lists them: a directory is there as long as
an object lies below it.  With `breaks`, the connection fails in the middle of a `remove_all`, which has
deleted the object itself by then. -/
def objectStore (breaks : Bool) : Backend (List (Path × Bytes)) Unit where
  run
    | .create path, objects =>
      if (objects.lookup path).isSome then (.error (), objects) else (.ok (), (path, []) :: objects)
    | .write path data _ _, objects => (.ok (), (path, data) :: objects.filter fun o => o.1 != path)
    | .remove path, objects =>
      if (objects.lookup path).isSome then (.ok (), objects.filter fun o => o.1 != path)
      else (.error (), objects)
    | .removeAll path, objects =>
      if breaks then (.error (), objects.filter fun o => o.1 != path)
      else (.ok (), objects.filter fun o => !decide (path <+: o.1))
    | .ensureParentDirs _ _, objects => (.ok (), objects)
    | _, objects => (.error (), objects)
  read objects path offset size :=
    match objects.lookup path with
    | some data => .ok (if size = 0 then data.drop offset else (data.drop offset).take size)
    | none => .error ()
  readDir objects path := .ok <| List.dedup <| objects.filterMap fun o =>
    match if path <+: o.1 then o.1.drop path.length else [] with
    | [] => none
    | [name] => some ⟨name, o.2.length, 0, 0, false⟩
    | name :: _ => some ⟨name, 0, 0, 0, true⟩

/-- Paths as their own hashes, and the default policy. -/
def plainConfig : CacheConfig Path := ⟨id, ⟨1048576, 4096, []⟩, 1, false, false⟩

/-- A provider that keeps everything and does not fail. -/
def healthy : ℕ → Fault Path := fun _ => ⟨fun _ => false, false, fun _ => true⟩

theorem objectStore_atomic (m : Mutation) (objects : List (Path × Bytes)) :
    ((objectStore false).run m objects).1.isOk = false →
      ((objectStore false).run m objects).2 = objects := by
  cases m with
  | create path =>
    simp only [objectStore]
    split
    · exact fun _ => rfl
    · exact nofun
  | remove path =>
    simp only [objectStore]
    split
    · exact nofun
    · exact fun _ => rfl
  | write | removeAll | ensureParentDirs => exact nofun
  | _ => exact fun _ => rfl

/-- A file that is written and then read. -/
def writeAndRead : List Request := [.mutate (.write ["f"] [1] 0 .create), .read ["f"] 0 0, .readDir []]

/-- With nothing in the cache, a write of the object store is confined. -/
theorem writeAndRead_confined (breaks : Bool) :
    ActsMeet (next plainConfig (objectStore breaks)) (SuccessConfined plainConfig (objectStore breaks))
      ⟨fresh healthy, []⟩ writeAndRead := by
  refine ⟨fun _ => ⟨fun _ he => (nomatch he.1.values), ?_⟩, ?_⟩
  · intro path data flags h _
    cases h
    rfl
  · exact fun _ _ => ⟨trivial, fun _ _ => ⟨trivial, fun _ _ => trivial⟩⟩

theorem writeAndRead_tidy (breaks : Bool) :
    ActsMeet (next plainConfig (objectStore breaks)) (Tidy plainConfig (objectStore breaks))
      ⟨fresh healthy, []⟩ writeAndRead := by
  obtain ⟨h, -⟩ := writeAndRead_confined breaks
  refine ⟨⟨h, ?_⟩, ?_⟩
  · intro m hm hfail
    cases hm
    cases hfail
  · exact fun _ _ => ⟨⟨trivial, nofun⟩, fun _ _ => ⟨⟨trivial, nofun⟩, fun _ _ => trivial⟩⟩

/-! ## Main results -/

section Results

variable [DecidableEq H] {cfg : CacheConfig H} {b : Backend σ E}

/-- **Through the cache one reads what the backend holds**, whatever the provider drops and whichever of
its calls fail, over a backend whose failures leave it unchanged: when no success changes a file or a listing
that is served and that it does not touch, and the generations do not wrap around. -/
theorem answers_of_atomic (faults : ℕ → Fault H) (backend : σ) (requests : List Request)
    (hatomic : ∀ m s, (b.run m s).1.isOk = false → (b.run m s).2 = s) (hlen : 2 * requests.length < 2 ^ 64)
    (hmeet : ActsMeet (next cfg b) (SuccessConfined cfg b) ⟨fresh faults, backend⟩ requests) :
    (answers cfg b ⟨fresh faults, backend⟩ requests).map Answer.seen =
      (plainAnswers b backend requests).map Answer.seen := by
  refine transparent (coherent_fresh faults backend) (by omega) (hmeet.mono fun s r hr => ⟨hr, ?_⟩)
  rintro m rfl hfail e -
  rw [hatomic m s.backend hfail]
  cases e.kind <;> rfl

/-- Over the object store, a written file reads as the store has it. -/
theorem answers_writeAndRead :
    (answers plainConfig (objectStore false) ⟨fresh healthy, []⟩ writeAndRead).map Answer.seen =
      (plainAnswers (objectStore false) [] writeAndRead).map Answer.seen :=
  answers_of_atomic healthy [] writeAndRead objectStore_atomic (by decide) (writeAndRead_confined false)

/-- The listing of the root, cached before a write makes a directory in it, is stale. -/
theorem stale_listing : (∀ m objects, ((objectStore false).run m objects).1.isOk = false →
      ((objectStore false).run m objects).2 = objects) ∧
    ¬ ∀ requests, (answers plainConfig (objectStore false) ⟨fresh healthy, []⟩ requests).map Answer.seen =
      (plainAnswers (objectStore false) [] requests).map Answer.seen := by
  refine ⟨objectStore_atomic, fun h => ?_⟩
  have := h [.readDir [], .mutate (.write ["x", "y"] [1] 0 .create), .readDir []]
  revert this
  decide +kernel

/-- **Failed mutations do no harm where they leave alone what is served**: then, and when no success changes
anything served that it does not touch, every answer is the backend's. -/
theorem answers_of_tidy (faults : ℕ → Fault H) (backend : σ) (requests : List Request)
    (hlen : 2 * requests.length < 2 ^ 64)
    (hmeet : ActsMeet (next cfg b) (Tidy cfg b) ⟨fresh faults, backend⟩ requests) :
    (answers cfg b ⟨fresh faults, backend⟩ requests).map Answer.seen =
      (plainAnswers b backend requests).map Answer.seen :=
  transparent (coherent_fresh faults backend) (by omega) hmeet

/-- And over one that breaks, as long as it does not. -/
theorem answers_writeAndRead_breaks :
    (answers plainConfig (objectStore true) ⟨fresh healthy, []⟩ writeAndRead).map Answer.seen =
      (plainAnswers (objectStore true) [] writeAndRead).map Answer.seen :=
  answers_of_tidy healthy [] writeAndRead (by decide) (writeAndRead_tidy true)

/-- A file that a failed `remove_all` has deleted is still read from the cache. -/
theorem stale_file :
    ¬ ∀ requests, (answers plainConfig (objectStore true) ⟨fresh healthy, []⟩ requests).map Answer.seen =
      (plainAnswers (objectStore true) [] requests).map Answer.seen := by
  intro h
  have := h [.mutate (.write ["f"] [1] 0 .create), .read ["f"] 0 0, .mutate (.removeAll ["f"]),
    .read ["f"] 0 0]
  revert this
  decide +kernel

end Results

end OpenViking.Cache
