import OpenViking.Common.Lineage
import OpenViking.OAuth.Minting

/-!
# One chain of tokens for an approval

A pending authorization, once verified, is turned into a code, a code into a pair of tokens, and a
refresh token into the next pair.  Codes and refresh tokens are taken by one atomic `UPDATE`.  A
verified authorization is not: `authorize_page_status` loads it, inserts a code, and then deletes it,
so two polls that both load it before either deletes it make two codes.  The rest holds in every run
in which no poll loads a verified authorization that another poll has loaded and not yet deleted.

Results:

* `one_chain`: in every state of such a run an approval has led to one chain of tokens;
* `one_chain_fails`: two polls of one page lead to two unconsumed refresh tokens.
-/

namespace OpenViking.OAuth

def Credential.isCode : Credential → Bool
  | .code _ => true
  | _ => false

def Credential.isRefresh : Credential → Bool
  | .refresh _ => true
  | _ => false

namespace World

/-! ## The property -/

/-- What was issued from `g`, of the sort `sort`. -/
def products (w : World) (g : Credential) (sort : Credential → Bool) : List Credential :=
  (w.issued.filter fun e => e.1 == g && sort e.2).map Prod.snd

/-- `g` was issued from the pending authorization `p`, by way of codes and refresh tokens. -/
def Descends (w : World) (p : ℕ) (g : Credential) : Prop :=
  Relation.ReflTransGen (fun a b => (a, b) ∈ w.issued ∧ b.isAccess = false) (.pending p) g

/-- The store has the refresh token, not consumed. -/
def Unconsumed (w : World) (r : ℕ) : Prop :=
  ∃ row, w.store.refreshTokens r = some row ∧ row.consumed = false

/-- One approval has given at most one chain of tokens. -/
structure OneChain (w : World) : Prop where
  code_once : ∀ p, (w.products (.pending p) Credential.isCode).length ≤ 1
  pair_once : ∀ c, (w.products (.code c) Credential.isAccess).length ≤ 1 ∧
    (w.products (.code c) Credential.isRefresh).length ≤ 1
  successor_once : ∀ r, (w.products (.refresh r) Credential.isAccess).length ≤ 1 ∧
    (w.products (.refresh r) Credential.isRefresh).length ≤ 1
  unconsumed_once : ∀ p r r', w.Descends p (.refresh r) → w.Descends p (.refresh r') →
    w.Unconsumed r → w.Unconsumed r' → r = r'

/-- No poll loads a verified authorization while another poll has loaded it and not deleted it. -/
def PollsApart (w : World) : Act → Prop
  | .advance i now _ =>
    match w.threads[i]? with
    | some (.poll q) =>
      (w.store.loadPendingAuthorization now q).any (fun row => row.verified.isSome) = true →
        ∀ th ∈ w.threads, th.tearing ≠ some q
    | _ => True
  | _ => True

instance (w : World) : (a : Act) → Decidable (w.PollsApart a)
  | .advance i now currentRole => by
    unfold PollsApart
    dsimp only
    split <;> infer_instance
  | .arrive _ _ => .isTrue trivial
  | .gc _ => .isTrue trivial

/-! ## The requests as takers of grants -/

/-- The credentials as one-shot grants, which the requests take.  A verified authorization is taken by
the poll that loads it, though its row is only deleted later. -/
def lineage (w : World) : Lineage Credential ℕ Bool where
  live g := w.store.live g = true ∧ ∀ th ∈ w.threads, ∀ q, th.tearing = some q → g ≠ .pending q
  holds i g isAccess := ∃ th, w.threads[i]? = some th ∧ th.holds g isAccess
  issued := w.issued

variable {V : Server} {w w' : World}

theorem untouched_of_not_mentioned {g : Credential} (h : ¬ w.Mentioned g) : w.lineage.Untouched g := by
  refine ⟨fun i k hheld => ?_, fun p hp => h (.source hp)⟩
  obtain ⟨th, hth, hholds⟩ := hheld
  exact h (.held (List.mem_of_getElem? hth) hholds)

theorem mem_or_mem_set {l : List Thread} {i : ℕ} {th th' t : Thread} (hth : l[i]? = some th)
    (h : t ∈ l) : t = th ∨ t ∈ l.set i th' := by
  obtain ⟨j, hj⟩ := List.mem_iff_getElem?.1 h
  by_cases hij : i = j
  · subst hij
    exact .inl (Option.some.inj (hj.symm.trans hth))
  · right
    rw [← List.getElem?_set_ne hij] at hj
    exact List.mem_of_getElem? hj

section Advance

variable {i : ℕ} {th : Thread} {o : Thread.Outcome}

/-- What is live after a call was so before, unless the call drops the guard of a pending
authorization that is still there. -/
theorem live_of_advance (hth : w.threads[i]? = some th)
    (htorn : ∀ q, th.tearing = some q → o.thread.tearing = some q ∨ ¬ o.store.live (.pending q))
    {g : Credential} (hstore : o.store.live g → w.store.live g)
    (h : (lineage { store := o.store
                    threads := w.threads.set i o.thread
                    issued := w.issued ++ o.issued }).live g) : w.lineage.live g := by
  refine ⟨hstore h.1, fun t ht q hq => ?_⟩
  rcases mem_or_mem_set hth ht with rfl | ht
  · rcases htorn q hq with hkept | hgone
    · have hmem : o.thread ∈ w.threads.set i o.thread := by
        exact List.mem_set (List.getElem?_eq_some_iff.1 hth).1 _
      exact h.2 _ hmem q hkept
    · rintro rfl
      exact hgone h.1
  · exact h.2 t ht q hq

theorem holds_of_advance (hth : w.threads[i]? = some th) {j : ℕ} {g : Credential} {k : Bool}
    (h : (lineage { store := o.store
                    threads := w.threads.set i o.thread
                    issued := w.issued ++ o.issued }).holds j g k) :
    j = i ∧ o.thread.holds g k ∨ w.lineage.holds j g k := by
  obtain ⟨t, ht, hholds⟩ := h
  by_cases hij : i = j
  · subst hij
    rw [List.getElem?_set_self (List.getElem?_eq_some_iff.1 hth).1] at ht
    obtain rfl := Option.some.inj ht
    exact .inl ⟨rfl, hholds⟩
  · rw [List.getElem?_set_ne hij] at ht
    exact .inr ⟨t, ht, hholds⟩

end Advance

/-- A poll that has begun to tear a pending authorization down has found it verified. -/
theorem verified_of_tearing {q : ℕ} {now : ℕ} {s : Store} (h : (Thread.pageStatus now s q).tearing = some q) :
    (s.loadPendingAuthorization now q).any (fun row => row.verified.isSome) = true := by
  rcases Thread.pageStatus_cases now s q with ⟨_, heq⟩ | ⟨record, verifier, hload, hverified, -⟩
  · rw [heq] at h
    cases h
  · simp [hload, hverified]

/-- **A step whose polls are apart is one that one-shot grants allow.** -/
theorem lineage_step (hminted : w.Minted) {a : Act} (ha : w.PollsApart a) (hstep : w.step V a = some w') :
    Lineage.Step Credential.isAccess w.lineage w'.lineage := by
  cases a with
  | arrive now request =>
    obtain ⟨th, store, rfl, hholds, htearing, hlive⟩ := step_arrive hstep
    refine .seed (.pending w.threads.length) (untouched_of_not_mentioned hminted.fresh_next)
      (fun g hg => ?_) (fun j g k hg => ?_) rfl
    · refine (hlive _ g hg.1).imp (fun hstore => ⟨hstore, fun t ht q hq => ?_⟩) id
      exact hg.2 t (List.mem_append_left _ ht) q hq
    · obtain ⟨t, ht, hg⟩ := hg
      rcases List.mem_append.1 (List.mem_of_getElem? ht) with hmem | hmem
      · by_cases hj : j < w.threads.length
        · exact ⟨t, by rw [← ht, List.getElem?_append_left hj], hg⟩
        · rw [List.getElem?_append_right (by omega)] at ht
          obtain rfl := List.mem_singleton.1 (List.mem_of_getElem? ht)
          exact absurd hg (hholds g k)
      · obtain rfl := List.mem_singleton.1 hmem
        exact absurd hg (hholds g k)
  | gc now =>
    obtain rfl := step_gc hstep
    exact .quiet (fun g hg => ⟨Store.liveWith_gcExpired hg.1, hg.2⟩) (fun j g k hg => hg) rfl
  | advance i now currentRole =>
    obtain ⟨th, o, hth, ho, rfl⟩ := step_advance hstep
    have hself : o.thread ∈ w.threads.set i o.thread :=
      List.mem_set (List.getElem?_eq_some_iff.1 hth).1 _
    cases Thread.advance_effect ho with
    | quiet hissued hlive hholds htearing htorn =>
      refine .quiet (fun g hg => ?_) (fun j g k hg => ?_)
        (by simp only [lineage, hissued, List.append_nil])
      · exact live_of_advance hth (fun q hq => .inr (htorn q hq)) hlive hg
      · rcases holds_of_advance hth hg with ⟨-, hg⟩ | hg
        · exact absurd hg (hholds g k)
        · exact hg
    | take g hissued hg hlive hdead hholds htorn =>
      have hnone : ∀ q, th.tearing = some q →
          o.thread.tearing = some q ∨ ¬ o.store.live (.pending q) := by
        intro q hq
        rw [htorn] at hq
        cases hq
      refine .take i g ⟨hg, ?_⟩ ?_ (fun g' hg' => live_of_advance hth hnone hlive hg')
        (fun j g' k hg' => ?_) (by simp only [lineage, hissued, List.append_nil])
      · intro t ht q hq
        rcases hdead with ⟨-, hne⟩ | ⟨q', rfl, rfl, htear⟩
        · exact hne q
        · rintro heq
          obtain rfl := Credential.pending.inj heq
          obtain rfl := (Option.some.inj ho).symm
          simp only [PollsApart, hth] at ha
          exact ha (verified_of_tearing htear) t ht hq
      · rintro ⟨hstore, hguard⟩
        rcases hdead with ⟨hgone, -⟩ | ⟨q, rfl, -, htear⟩
        · exact hgone hstore
        · exact hguard _ hself q htear rfl
      · rcases holds_of_advance hth hg' with ⟨rfl, hheld⟩ | hheld
        · exact .inr ⟨rfl, hholds g' k hheld⟩
        · exact .inl hheld
    | issue g p claims hissued _ hg hlive hdone hholds htearing hminter hstage _ =>
      have hkept : ∀ q, th.tearing = some q →
          o.thread.tearing = some q ∨ ¬ o.store.live (.pending q) := by
        intro q hq
        rw [htearing]
        exact .inl hq
      refine .issue i g p ⟨th, hth, hg⟩
        (untouched_of_not_mentioned (hminted.fresh hth hminter hstage)) ?_ (fun g' hg' => ?_)
        (fun j g' k hg' => ?_) (by simp only [lineage, hissued])
      · rintro ⟨t, ht, hheld⟩
        rw [List.getElem?_set_self (List.getElem?_eq_some_iff.1 hth).1] at ht
        obtain rfl := Option.some.inj ht
        exact hdone hheld
      · by_cases hp : g' = p
        · exact .inr hp
        · exact .inl (live_of_advance hth hkept
            (fun hstore => (hlive hstore).resolve_right fun heq => hp heq.1) hg')
      · rcases holds_of_advance hth hg' with ⟨rfl, hheld⟩ | hheld
        · exact ⟨th, hth, hholds g' k hheld⟩
        · exact hheld

/-! ## Runs -/

/-- The invariant: what is about was minted, and the credentials are one-shot grants. -/
structure ChainInv (w : World) : Prop where
  minted : w.Minted
  chain : Lineage.Inv Credential.isAccess w.lineage

theorem chainInv_start : start.ChainInv := by
  refine ⟨minted_start, Lineage.inv_start (fun g hg => ?_) (fun i g k hg => ?_) rfl⟩
  · cases g <;> cases hg.1
  · obtain ⟨th, hth, -⟩ := hg
    cases hth

theorem ChainInv.step (h : w.ChainInv) {a : Act} (ha : w.PollsApart a)
    (hstep : w.step V a = some w') : w'.ChainInv :=
  ⟨h.minted.step hstep, h.chain.step (lineage_step h.minted ha hstep)⟩

theorem Unconsumed.live {r : ℕ} (h : w.Unconsumed r) : w.lineage.live (.refresh r) := by
  obtain ⟨row, hrow, hconsumed⟩ := h
  refine ⟨?_, fun t ht q hq => Credential.noConfusion⟩
  exact (Option.any_eq_true _ _).2 ⟨row, hrow, by rw [hconsumed]; rfl⟩

/-- From one grant one product of each sort is issued. -/
theorem products_once (hinv : Lineage.Inv Credential.isAccess w.lineage) (g : Credential)
    {sort : Credential → Bool} {isAccess : Bool}
    (hsort : ∀ p, sort p = true → p.isAccess = isAccess) : (w.products g sort).length ≤ 1 := by
  unfold products
  rw [List.length_map]
  refine hinv.length_filter_issued _ fun a b ha hb => ?_
  simp only [Bool.and_eq_true, beq_iff_eq] at ha hb
  exact ⟨ha.1.trans hb.1.symm, (hsort _ ha.2).trans (hsort _ hb.2).symm⟩

theorem isAccess_of_isCode (p : Credential) (h : p.isCode = true) : p.isAccess = false := by
  cases p <;> first | rfl | cases h

theorem isAccess_of_isRefresh (p : Credential) (h : p.isRefresh = true) : p.isAccess = false := by
  cases p <;> first | rfl | cases h

/-- **One approval gives one chain of tokens, where the polls are apart.**  In every state of a run in
which no poll loads a verified authorization that another poll has loaded and not yet deleted, an
approval has led to at most one code, a code and a refresh token to at most one pair each, and at most
one refresh token that descends from an approval is unconsumed. -/
theorem one_chain (V : Server) (w : World) (hrun : Reaches (step V) PollsApart start w) : w.OneChain := by
  have hinv := (hrun.invariant chainInv_start fun _ _ _ h ha hstep => h.step ha hstep).chain
  refine ⟨fun p => ?_, fun c => ⟨?_, ?_⟩, fun r => ⟨?_, ?_⟩, fun p r r' hr hr' hu hu' => ?_⟩
  · exact products_once hinv _ isAccess_of_isCode
  · exact products_once hinv _ fun p => id
  · exact products_once hinv _ isAccess_of_isRefresh
  · exact products_once hinv _ fun p => id
  · exact products_once hinv _ isAccess_of_isRefresh
  · exact Credential.refresh.inj (hinv.live_unique hu.live hu'.live hr hr')

/-! ## Runs with two polls -/

/-- The settings of a server with plain names of roles. -/
def plainServer : Server where
  accessTtl := 3600
  refreshTtl := 2592000
  codeTtl := 300
  customRank _ := none
  strip := id
  lower := id
  upper := id
  split scope := [scope]

/-- The client of the runs below. -/
def pageParams : AuthorizationParams where
  clientId := "client"
  redirectUri := "https://client/callback"
  redirectUriProvidedExplicitly := true
  codeChallenge := "challenge"
  scopes := none
  resource := none
  state := none

/-- `alice` approves the pending authorization 0 from the page. -/
def consent : VerifyRequest where
  fromOauth := false
  accountId := "acme"
  userId := "alice"
  role := "user"
  verifierFp := some "fp"
  decision := "approve"
  pendingId := some 0
  code := none

/-- A client opens the authorize page, and `alice` approves it. -/
def approvedPage : List Act :=
  [.arrive 0 (.authorize pageParams "ABC123"), .arrive 0 (.oauthVerify consent),
    .advance 1 1 none, .advance 1 1 none]

/-- The page is polled twice, one poll after the other; then the code is exchanged, and the refresh
token. -/
def pollTwice : List Act :=
  approvedPage ++
    [.arrive 2 (.authorizePageStatus (some 0)), .arrive 2 (.authorizePageStatus (some 0)),
      .advance 2 2 none, .advance 2 2 none, .advance 2 2 none, .advance 3 2 none,
      .arrive 3 (.exchangeCode "client" 2),
      .advance 4 3 none, .advance 4 3 none, .advance 4 3 none, .advance 4 3 none,
      .arrive 4 (.exchangeRefresh "client" 4 []),
      .advance 5 4 none, .advance 5 4 none, .advance 5 4 none, .advance 5 4 none]

/-- The page is polled twice, and each poll finds the authorization verified before either deletes it;
then both codes are exchanged. -/
def pollTogether : List Act :=
  approvedPage ++
    [.arrive 2 (.authorizePageStatus (some 0)), .arrive 2 (.authorizePageStatus (some 0)),
      .advance 2 2 none, .advance 3 2 none, .advance 2 2 none, .advance 3 2 none,
      .advance 2 2 none, .advance 3 2 none,
      .arrive 3 (.exchangeCode "client" 2), .arrive 3 (.exchangeCode "client" 3),
      .advance 4 3 none, .advance 4 3 none, .advance 4 3 none, .advance 4 3 none,
      .advance 5 3 none, .advance 5 3 none, .advance 5 3 none, .advance 5 3 none]

/-- The polls of `pollTwice` are apart, and it ends with one unconsumed refresh token of the
approval, the second. -/
theorem one_chain_pollTwice :
    ∃ w, Reaches (step plainServer) PollsApart start w ∧ w.OneChain ∧
      w.products (.pending 0) Credential.isCode = [.code 2] ∧ w.Unconsumed 5 ∧ ¬ w.Unconsumed 4 := by
  have hmeet : ActsMeet (step plainServer) PollsApart start pollTwice := by decide +kernel
  obtain ⟨w, hw⟩ : ∃ w, runActs (step plainServer) start pollTwice = some w := ⟨_, rfl⟩
  have hrun := Reaches.of_runActs hmeet hw
  refine ⟨w, hrun, one_chain plainServer w hrun, ?_, ?_, ?_⟩
  · obtain rfl := Option.some.inj hw
    rfl
  · obtain rfl := Option.some.inj hw
    exact ⟨_, rfl, rfl⟩
  · obtain rfl := Option.some.inj hw
    rintro ⟨row, hrow, hconsumed⟩
    obtain rfl := Option.some.inj hrow
    cases hconsumed

/-- **One approval can give two chains of tokens**: after `pollTogether` two unconsumed refresh tokens
descend from the pending authorization 0. -/
theorem one_chain_fails :
    ¬ ∀ (V : Server) (acts : List Act) (w : World), runActs (step V) start acts = some w →
      w.OneChain := by
  intro h
  obtain ⟨w, hw⟩ : ∃ w, runActs (step plainServer) start pollTogether = some w := ⟨_, rfl⟩
  have hchain := h plainServer pollTogether w hw
  obtain rfl := Option.some.inj hw
  have hfour : (4 : ℕ) = 5 := by
    refine hchain.unconsumed_once 0 4 5 ?_ ?_ ⟨_, rfl, rfl⟩ ⟨_, rfl, rfl⟩
    · exact .tail (.single ⟨.head _, rfl⟩) ⟨by decide +kernel, rfl⟩
    · exact .tail (.single (b := .code 3) ⟨by decide +kernel, rfl⟩) ⟨by decide +kernel, rfl⟩
  omega

end World

end OpenViking.OAuth
