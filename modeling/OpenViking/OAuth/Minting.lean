import OpenViking.OAuth.Requests

/-!
# What the calls of OAuth requests do

A credential is live while a call of the store may still use it up.  The calls of a request fall into
three kinds: most leave nothing live that was not; one takes a live credential, and from then on only
that request may issue others from it; and one issues a credential that its request has minted.

Results:

* `Thread.advance_effect`: each call of a request is of one of the three kinds;
* `World.Minted.step`: what is live, held or issued was issued by the request that minted it.
-/

namespace OpenViking.OAuth

/-! ## Live credentials -/

/-- The store has the row, for claims that `p` accepts, and it is not used up; whether it has expired
is not asked. -/
def Store.liveWith (s : Store) (p : Claims → Bool) : Credential → Bool
  | .pending q => s.pending.any fun row => row.pendingId == q
  | .code c => (s.codes c).any fun row => !row.used && p row.claims
  | .access a => (s.accessTokens a).any fun row => !row.revoked && p row.claims
  | .refresh r => (s.refreshTokens r).any fun row => !row.consumed && p row.claims

/-- The store has the row, and it is not used up. -/
def Store.live (s : Store) (g : Credential) : Bool := s.liveWith (fun _ => true) g

theorem any_of_any_map {α : Type} {f : α → α} {p q : α → Bool} {o : Option α}
    (h : (o.map f).any q) (hpq : ∀ a, q (f a) → p a) : o.any p := by
  rw [Option.any_map, Option.any_eq_true] at h
  obtain ⟨a, ha, hq⟩ := h
  rw [Option.any_eq_true]
  exact ⟨a, ha, hpq a hq⟩

theorem any_of_any_filter {α : Type} {p q : α → Bool} {o : Option α} (h : (o.filter p).any q) :
    o.any q := by
  obtain ⟨a, ha, hq⟩ := (Option.any_eq_true _ _).1 h
  exact (Option.any_eq_true _ _).2 ⟨a, (Option.filter_eq_some_iff.1 ha).1, hq⟩

namespace Store

variable {s s' : Store} {now i ttl : ℕ} {claims : Claims} {p : Claims → Bool} {g : Credential}

theorem liveWith_insertAuthCode {redirectUri codeChallenge : String}
    (h : (s.insertAuthCode now i claims redirectUri codeChallenge ttl).liveWith p g) :
    s.liveWith p g ∨ g = .code i ∧ p claims := by
  cases g with
  | code c =>
    by_cases hc : c = i
    · right
      subst hc
      simpa [insertAuthCode, liveWith] using h
    · left
      simpa [insertAuthCode, liveWith, hc] using h
  | pending q => exact .inl h
  | access a => exact .inl h
  | refresh r => exact .inl h

theorem liveWith_insertAccess (h : (s.insertAccess now i claims ttl).liveWith p g) :
    s.liveWith p g ∨ g = .access i ∧ p claims := by
  cases g with
  | access a =>
    by_cases ha : a = i
    · right
      subst ha
      simpa [insertAccess, liveWith] using h
    · left
      simpa [insertAccess, liveWith, ha] using h
  | pending q => exact .inl h
  | code c => exact .inl h
  | refresh r => exact .inl h

theorem liveWith_insertRefresh (h : (s.insertRefresh now i claims ttl).liveWith p g) :
    s.liveWith p g ∨ g = .refresh i ∧ p claims := by
  cases g with
  | refresh r =>
    by_cases hr : r = i
    · right
      subst hr
      simpa [insertRefresh, liveWith] using h
    · left
      simpa [insertRefresh, liveWith, hr] using h
  | pending q => exact .inl h
  | code c => exact .inl h
  | access a => exact .inl h

theorem liveWith_createPending {params : AuthorizationParams} {displayCode : String}
    (h : (s.createPendingAuthorization now i params displayCode ttl).liveWith p g) :
    s.liveWith p g ∨ g = .pending i := by
  cases g with
  | pending q =>
    simp only [createPendingAuthorization, liveWith, List.any_append, List.any_cons, List.any_nil,
      Bool.or_false, Bool.or_eq_true, beq_iff_eq] at h
    rcases h with h | h
    · exact .inl h
    · exact .inr (by rw [h])
  | code c => exact .inl h
  | access a => exact .inl h
  | refresh r => exact .inl h

theorem liveWith_deletePending (h : (s.deletePendingAuthorization i).liveWith p g) :
    s.liveWith p g ∧ g ≠ .pending i := by
  cases g with
  | pending q =>
    simp only [deletePendingAuthorization, liveWith, List.any_eq_true, List.mem_filter, bne_iff_ne,
      beq_iff_eq] at h ⊢
    obtain ⟨row, ⟨hmem, hne⟩, rfl⟩ := h
    exact ⟨⟨row, hmem, rfl⟩, fun heq => hne (Credential.pending.inj heq)⟩
  | code c | access a | refresh r => exact ⟨h, Credential.noConfusion⟩

theorem liveWith_markPending {verifier : Verifier}
    (h : (s.markPendingVerified now i verifier).2.liveWith p g) : s.liveWith p g := by
  cases g with
  | pending q =>
    simp only [markPendingVerified, liveWith, List.any_map, List.any_eq_true, Function.comp_apply,
      beq_iff_eq] at h ⊢
    obtain ⟨row, hmem, hrow⟩ := h
    refine ⟨row, hmem, ?_⟩
    split_ifs at hrow <;> exact hrow
  | code c => exact h
  | access a => exact h
  | refresh r => exact h

/-- After `revoke_user_tokens` nothing of the owner is live, but pending authorizations. -/
theorem liveWith_revokeUserTokens {owner : Owner} (h : (s.revokeUserTokens owner).liveWith p g) :
    s.liveWith (fun c => p c && c.owner ≠ owner) g := by
  cases g with
  | pending q => exact h
  | code c | access a | refresh r =>
    refine any_of_any_map h fun row hrow => ?_
    split_ifs at hrow with howner
    · cases hrow
    · simpa [howner] using hrow

theorem liveWith_gcExpired (h : (s.gcExpired now).liveWith p g) : s.liveWith p g := by
  cases g with
  | pending q =>
    simp only [gcExpired, liveWith, List.any_eq_true, List.mem_filter] at h ⊢
    obtain ⟨row, ⟨hmem, -⟩, hrow⟩ := h
    exact ⟨row, hmem, hrow⟩
  | code c | access a | refresh r => exact any_of_any_filter h

theorem any_and_mono {α : Type*} {row : Option α} {live : α → Bool} {claims : α → Claims} {q : Claims → Bool}
    (hpq : ∀ c, p c → q c) (h : row.any (fun row => live row && p (claims row)) = true) :
    row.any (fun row => live row && q (claims row)) = true := by
  obtain ⟨row, hrow, hlive⟩ := (Option.any_eq_true _ _).1 h
  rw [Bool.and_eq_true] at hlive
  exact (Option.any_eq_true _ _).2 ⟨row, hrow, by rw [hlive.1, hpq _ hlive.2]; rfl⟩

theorem liveWith_mono {q : Claims → Bool} (hpq : ∀ c, p c → q c) (h : s.liveWith p g) : s.liveWith q g := by
  cases g with
  | pending q => exact h
  | code c | access a | refresh r => exact any_and_mono hpq h

/-- `consume_auth_code` takes a live code, or changes nothing. -/
theorem consumeAuthCode_cases (s : Store) (now c : ℕ) :
    s.consumeAuthCode now c = (none, s) ∨
      ∃ row s', s.consumeAuthCode now c = (some row, s') ∧ s.live (.code c) ∧
        ∀ {p g}, s'.liveWith p g → s.liveWith p g ∧ g ≠ .code c := by
  unfold consumeAuthCode
  cases hpeek : s.peekAuthCode now c with
  | none => exact .inl rfl
  | some row =>
    obtain ⟨hrow, hlive⟩ := Option.filter_eq_some_iff.1 hpeek
    rw [Bool.and_eq_true] at hlive
    refine .inr ⟨_, _, rfl, ?_, fun {p g} h => ?_⟩
    · exact (Option.any_eq_true _ _).2 ⟨row, hrow, by rw [hlive.1]; rfl⟩
    · cases g with
      | code c' =>
        by_cases hc : c' = c
        · subst hc
          simp [liveWith] at h
        · exact ⟨by simpa [liveWith, hc] using h, fun heq => hc (Credential.code.inj heq)⟩
      | pending q | access a | refresh r => exact ⟨h, Credential.noConfusion⟩

/-- `consume_refresh` takes a live refresh token, or changes nothing. -/
theorem consumeRefresh_cases (s : Store) (now r : ℕ) (replacedBy : Option ℕ) :
    s.consumeRefresh now r replacedBy = (none, s) ∨
      ∃ row s', s.consumeRefresh now r replacedBy = (some row, s') ∧ s.live (.refresh r) ∧
        ∀ {p g}, s'.liveWith p g → s.liveWith p g ∧ g ≠ .refresh r := by
  unfold consumeRefresh
  cases hpeek : s.peekRefresh now r with
  | none => exact .inl rfl
  | some row =>
    obtain ⟨hrow, hlive⟩ := Option.filter_eq_some_iff.1 hpeek
    rw [Bool.and_eq_true] at hlive
    refine .inr ⟨_, _, rfl, ?_, fun {p g} h => ?_⟩
    · exact (Option.any_eq_true _ _).2 ⟨row, hrow, by rw [hlive.1]; rfl⟩
    · cases g with
      | refresh r' =>
        by_cases hr : r' = r
        · subst hr
          simp [liveWith] at h
        · exact ⟨by simpa [liveWith, hr] using h, fun heq => hr (Credential.refresh.inj heq)⟩
      | pending q | code c | access a => exact ⟨h, Credential.noConfusion⟩

end Store

/-! ## The three kinds of calls -/

namespace Thread

/-- The request may still issue a credential from `g`: an access token, or one of another sort. -/
def holds : Thread → Credential → Bool → Prop
  | .mint q _ _, g, isAccess => g = .pending q ∧ isAccess = false
  | .insertAccess source _, g, _ => g = source
  | .insertRefresh source _, g, isAccess => g = source ∧ isAccess = false
  | _, _, _ => False

/-- The pending authorization that the poll has found verified, and not yet deleted. -/
def tearing : Thread → Option ℕ
  | .mint q _ _ => some q
  | .tearDown q _ => some q
  | _ => none

/-- The claims of what the request issues next. -/
def issuing : Thread → Option Claims
  | .mint _ record verifier => some (codeClaims record verifier)
  | .insertAccess _ claims => some claims
  | .insertRefresh _ claims => some claims
  | _ => none

/-- How much of what it mints the request may have issued. -/
def stage : Thread → ℕ
  | .tearDown _ _ => 1
  | .insertRefresh _ _ => 1
  | .respond _ _ => 2
  | .answered _ _ _ => 2
  | _ => 0

end Thread

/-- The stage from which on the request that mints a credential has issued it. -/
def Credential.stage : Credential → ℕ
  | .pending _ => 0
  | .code _ => 1
  | .access _ => 1
  | .refresh _ => 2

/-- What one call of the request `i` does. -/
inductive Effect (i : ℕ) (s : Store) (th : Thread) (o : Thread.Outcome) : Prop
  /-- It makes nothing live, and the request has no right to issue anything. -/
  | quiet (hissued : o.issued = [])
      (hlive : ∀ {a g}, o.store.liveWith a g → s.liveWith a g)
      (hholds : ∀ g k, ¬ o.thread.holds g k) (htearing : o.thread.tearing = none)
      (htorn : ∀ q, th.tearing = some q → ¬ o.store.live (.pending q))
  /-- It takes the live credential `g`, which is used up or is a pending authorization that the
  request will delete. -/
  | take (g : Credential) (hissued : o.issued = []) (hg : s.live g)
      (hlive : ∀ {a g}, o.store.liveWith a g → s.liveWith a g)
      (hdead : (¬ o.store.live g ∧ ∀ q, g ≠ .pending q) ∨
        ∃ q, g = .pending q ∧ th = .poll q ∧ o.thread.tearing = some q)
      (hholds : ∀ g' k, o.thread.holds g' k → g' = g) (htorn : th.tearing = none)
  /-- It issues `p` from `g`. -/
  | issue (g p : Credential) (claims : Claims) (hissued : o.issued = [(g, p)])
      (hclaims : th.issuing = some claims) (hg : th.holds g p.isAccess)
      (hlive : ∀ {a g}, o.store.liveWith a g → s.liveWith a g ∨ g = p ∧ a claims)
      (hdone : ¬ o.thread.holds g p.isAccess)
      (hholds : ∀ g k, o.thread.holds g k → th.holds g k)
      (htearing : o.thread.tearing = th.tearing) (hminter : p.minter = i)
      (hstage : th.stage < p.stage) (hstage' : p.stage ≤ o.thread.stage)

namespace Thread

variable {V : Server} {i now : ℕ} {currentRole : Option String} {s : Store} {issued : List Issue}
  {th : Thread} {o : Outcome}

/-- A request that changes nothing in the store and is then at a point with no rights. -/
theorem quiet_of_same (hissued : o.issued = []) (hstore : o.store = s)
    (hholds : ∀ g k, ¬ o.thread.holds g k) (htearing : o.thread.tearing = none)
    (htorn : th.tearing = none) : Effect i s th o := by
  refine .quiet hissued (fun {a g} hg => ?_) hholds htearing fun q hq => ?_
  · rwa [hstore] at hg
  · rw [htorn] at hq
    cases hq

/-- After its look-up `oauth_verify` answers, deletes the row or marks it. -/
theorem oauthVerify_cases (V : Server) (now : ℕ) (s : Store) (request : VerifyRequest) :
    (∃ reply, oauthVerify V now s request = .respond reply none) ∨
      (∃ q, oauthVerify V now s request = .deny q) ∨
        ∃ q clientId verifier, oauthVerify V now s request = .approve q clientId verifier := by
  have hdecide : ∀ decision record, (∃ reply, decide request decision record = .respond reply none) ∨
      (∃ q, decide request decision record = .deny q) ∨
        ∃ q clientId verifier, decide request decision record = .approve q clientId verifier := by
    intro decision record
    unfold decide
    split_ifs
    · exact .inr (.inl ⟨_, rfl⟩)
    · split
      · exact .inl ⟨_, rfl⟩
      · exact .inr (.inr ⟨_, _, _, rfl⟩)
  unfold oauthVerify
  split_ifs
  · exact .inl ⟨_, rfl⟩
  · dsimp only
    split_ifs
    · exact .inl ⟨_, rfl⟩
    · split
      · split
        · exact .inl ⟨_, rfl⟩
        · exact hdecide _ _
      · split
        · exact .inl ⟨_, rfl⟩
        · exact hdecide _ _
      · exact .inl ⟨_, rfl⟩

/-- After its look-up a poll answers, or mints a code for the verified row. -/
theorem pageStatus_cases (now : ℕ) (s : Store) (q : ℕ) :
    (∃ reply, pageStatus now s q = .respond reply none) ∨
      ∃ record verifier, s.loadPendingAuthorization now q = some record ∧
        record.verified = some verifier ∧ pageStatus now s q = .mint q record verifier := by
  unfold pageStatus
  cases hload : s.loadPendingAuthorization now q with
  | none => exact .inl ⟨_, rfl⟩
  | some record =>
    cases hverified : record.verified with
    | none => exact .inl ⟨.pending, by simp only [hverified]⟩
    | some verifier => exact .inr ⟨record, verifier, rfl, hverified, by simp only [hverified]⟩

theorem live_of_load {q : ℕ} {row : PendingRow}
    (h : s.loadPendingAuthorization now q = some row) : s.live (.pending q) := by
  unfold Store.loadPendingAuthorization at h
  have hmem := List.mem_of_find?_eq_some h
  have hrow := List.find?_some h
  rw [Bool.and_eq_true] at hrow
  exact List.any_eq_true.2 ⟨row, hmem, hrow.1⟩

/-- **What one call of a request does.** -/
theorem advance_effect (h : th.advance V i now currentRole s issued = some o) : Effect i s th o := by
  cases th with
  | verify request =>
    obtain rfl := (Option.some.inj h).symm
    rcases oauthVerify_cases V now s request with ⟨_, heq⟩ | ⟨_, heq⟩ | ⟨_, _, _, heq⟩
    · rw [heq]
      exact quiet_of_same rfl rfl (fun g k => id) rfl rfl
    · rw [heq]
      exact quiet_of_same rfl rfl (fun g k => id) rfl rfl
    · rw [heq]
      exact quiet_of_same rfl rfl (fun g k => id) rfl rfl
  | deny q =>
    obtain rfl := (Option.some.inj h).symm
    exact .quiet rfl (fun hg => (Store.liveWith_deletePending hg).1) (fun g k => id) rfl
      fun q hq => by cases hq
  | approve q clientId verifier =>
    obtain rfl := (Option.some.inj h).symm
    exact .quiet rfl (fun hg => Store.liveWith_markPending hg) (fun g k => id) rfl
      fun q hq => by cases hq
  | poll q =>
    obtain rfl := (Option.some.inj h).symm
    rcases pageStatus_cases now s q with ⟨_, heq⟩ | ⟨record, verifier, hload, -, heq⟩
    · rw [heq]
      exact quiet_of_same rfl rfl (fun g k => id) rfl rfl
    · rw [heq]
      exact .take (.pending q) rfl (live_of_load hload) id (.inr ⟨q, rfl, rfl, rfl⟩)
        (fun g' k hg' => hg'.1) rfl
  | mint q record verifier =>
    obtain rfl := (Option.some.inj h).symm
    exact .issue (.pending q) (.code i) _ rfl rfl ⟨rfl, rfl⟩ Store.liveWith_insertAuthCode id
      (fun g k => False.elim) rfl rfl (by show 0 < 1; omega) (by show 1 ≤ 1; omega)
  | tearDown q record =>
    obtain rfl := (Option.some.inj h).symm
    refine .quiet rfl (fun hg => (Store.liveWith_deletePending hg).1) (fun g k => id) rfl
      fun q' hq' hlive => ?_
    obtain rfl := Option.some.inj hq'
    exact (Store.liveWith_deletePending hlive).2 rfl
  | loadCode clientId c =>
    obtain rfl := (Option.some.inj h).symm
    cases hload : (s.peekAuthCode now c).filter fun row => row.claims.clientId == clientId with
    | none | some row =>
      exact quiet_of_same rfl rfl (fun g k => id) rfl rfl
  | consumeCode c claims =>
    unfold advance at h
    rcases s.consumeAuthCode_cases now c with hnone | ⟨row, s', hsome, hlive, hweak⟩
    · simp only [hnone] at h
      obtain rfl := (Option.some.inj h).symm
      exact quiet_of_same rfl rfl (fun g k => id) rfl rfl
    · simp only [hsome] at h
      obtain rfl := (Option.some.inj h).symm
      exact .take (.code c) rfl hlive (fun hg => (hweak hg).1)
        (.inl ⟨fun hg => (hweak hg).2 rfl, fun q => Credential.noConfusion⟩) (fun g' k => id) rfl
  | loadRefresh clientId r scopes =>
    obtain rfl := (Option.some.inj h).symm
    cases hload : (s.peekRefresh now r).filter fun row => row.claims.clientId == clientId with
    | none | some row =>
      exact quiet_of_same rfl rfl (fun g k => id) rfl rfl
  | consumeRefresh r claims scopes =>
    unfold advance at h
    by_cases hrole : V.downgraded claims.role currentRole = true
    · simp only [hrole, if_true] at h
      obtain rfl := (Option.some.inj h).symm
      exact quiet_of_same rfl rfl (fun g k => id) rfl rfl
    · simp only [hrole, if_false, Bool.false_eq_true] at h
      rcases s.consumeRefresh_cases now r (some i) with hnone | ⟨row, s', hsome, hlive, hweak⟩
      · simp only [hnone] at h
        obtain rfl := (Option.some.inj h).symm
        exact quiet_of_same rfl rfl (fun g k => id) rfl rfl
      · simp only [hsome] at h
        obtain rfl := (Option.some.inj h).symm
        exact .take (.refresh r) rfl hlive (fun hg => (hweak hg).1)
          (.inl ⟨fun hg => (hweak hg).2 rfl, fun q => Credential.noConfusion⟩) (fun g' k => id) rfl
  | checkReplay r claims replayed =>
    obtain rfl := (Option.some.inj h).symm
    by_cases hknown : s.isRefreshKnownButConsumed r = true
    · simp only [hknown, if_true]
      exact quiet_of_same rfl rfl (fun g k => id) rfl rfl
    · simp only [hknown, if_false, Bool.false_eq_true]
      exact quiet_of_same rfl rfl (fun g k => id) rfl rfl
  | revoke owner replayed =>
    obtain rfl := (Option.some.inj h).symm
    refine .quiet rfl (fun {a g} hg => ?_) (fun g k => id) rfl fun q hq => by cases hq
    refine Store.liveWith_mono (fun c hc => ?_) (Store.liveWith_revokeUserTokens hg)
    exact (Bool.and_eq_true _ _ ▸ hc).1
  | insertAccess source claims =>
    obtain rfl := (Option.some.inj h).symm
    exact .issue source (.access i) claims rfl rfl rfl Store.liveWith_insertAccess
      (fun hd => Bool.noConfusion hd.2) (fun g k hg => hg.1) rfl rfl (by show 0 < 1; omega)
      (by show 1 ≤ 1; omega)
  | insertRefresh source claims =>
    obtain rfl := (Option.some.inj h).symm
    exact .issue source (.refresh i) claims rfl rfl ⟨rfl, rfl⟩ Store.liveWith_insertRefresh id
      (fun g k => False.elim) rfl rfl (by show 1 < 2; omega) (by show 2 ≤ 2; omega)
  | respond reply replay =>
    obtain rfl := (Option.some.inj h).symm
    exact quiet_of_same rfl rfl (fun g k => id) rfl rfl
  | answered reply replay before => cases h

theorem stage_le (h : th.advance V i now currentRole s issued = some o) : th.stage ≤ o.thread.stage := by
  cases th with
  | tearDown q record | insertRefresh source claims =>
    obtain rfl := (Option.some.inj h).symm
    show 1 ≤ 2
    omega
  | respond reply replay =>
    obtain rfl := (Option.some.inj h).symm
    show 2 ≤ 2
    omega
  | answered reply replay before => cases h
  | _ => exact Nat.zero_le _

end Thread

/-! ## What was minted -/

namespace World

/-- A request may issue from `g`, or `g` is live, or in the record of what was issued. -/
inductive Mentioned (w : World) (g : Credential) : Prop
  | live (h : w.store.live g)
  | held {th : Thread} {k : Bool} (hth : th ∈ w.threads) (h : th.holds g k)
  | source {p : Credential} (h : (g, p) ∈ w.issued)
  | product {src : Credential} (h : (src, g) ∈ w.issued)

/-- The request that mints `g` has got so far that it may have issued it. -/
def Born (w : World) (g : Credential) : Prop :=
  ∃ th, w.threads[g.minter]? = some th ∧ g.stage ≤ th.stage

/-- Every credential that is about was issued by the request that minted it. -/
def Minted (w : World) : Prop := ∀ g, w.Mentioned g → w.Born g

variable {V : Server} {w w' : World}

theorem minted_start : start.Minted := by
  intro g h
  cases h with
  | live h => cases g <;> cases h
  | held hth h => cases hth
  | source h => cases h
  | product h => cases h

variable {currentRole : Option String}

variable {i now : ℕ}

/-- A call of a request, as a step of the world. -/
theorem step_advance (hstep : w.step V (.advance i now currentRole) = some w') :
    ∃ th o, w.threads[i]? = some th ∧
      th.advance V i now currentRole w.store w.issued = some o ∧
      w' = { store := o.store, threads := w.threads.set i o.thread, issued := w.issued ++ o.issued } := by
  unfold step at hstep
  obtain ⟨th, hth, hrest⟩ := Option.bind_eq_some_iff.1 hstep
  obtain ⟨o, ho, heq⟩ := Option.map_eq_some_iff.1 hrest
  exact ⟨th, o, hth, ho, heq.symm⟩

theorem step_gc (hstep : w.step V (.gc now) = some w') :
    w' = { w with store := w.store.gcExpired now } :=
  (Option.some.inj hstep).symm

/-- An arrival adds a request that has no rights; `authorize` creates a pending authorization. -/
theorem step_arrive {request : Request} (hstep : w.step V (.arrive now request) = some w') :
    ∃ th store, w' = { w with store, threads := w.threads ++ [th] } ∧
      (∀ g k, ¬ th.holds g k) ∧ th.tearing = none ∧
      ∀ p g, store.liveWith p g → w.store.liveWith p g ∨ g = .pending w.threads.length := by
  cases request with
  | authorize params displayCode =>
    obtain rfl := (Option.some.inj hstep).symm
    exact ⟨_, _, rfl, fun g k => id, rfl, fun p g hg => Store.liveWith_createPending hg⟩
  | oauthVerify request =>
    obtain rfl := (Option.some.inj hstep).symm
    exact ⟨_, _, rfl, fun g k => id, rfl, fun p g => .inl⟩
  | authorizePageStatus pending =>
    cases pending with
    | none | some q =>
      obtain rfl := (Option.some.inj hstep).symm
      exact ⟨_, _, rfl, fun g k => id, rfl, fun p g => .inl⟩
  | exchangeCode clientId c | exchangeRefresh clientId r scopes =>
    obtain rfl := (Option.some.inj hstep).symm
    exact ⟨_, _, rfl, fun g k => id, rfl, fun p g => .inl⟩

theorem mem_set {l : List Thread} {th' t : Thread} (h : t ∈ l.set i th') :
    t = th' ∨ t ∈ l :=
  (List.mem_or_eq_of_mem_set h).symm

theorem Born.advance {g : Credential}
    {th : Thread} {o : Thread.Outcome} (h : w.Born g) (hth : w.threads[i]? = some th)
    (ho : th.advance V i now currentRole w.store w.issued = some o) :
    Born { store := o.store, threads := w.threads.set i o.thread, issued := w.issued ++ o.issued }
      g := by
  obtain ⟨t, ht, hstage⟩ := h
  by_cases hi : i = g.minter
  · subst hi
    obtain rfl := Option.some.inj (hth.symm.trans ht)
    refine ⟨o.thread, ?_, hstage.trans (Thread.stage_le ho)⟩
    exact List.getElem?_set_self (List.getElem?_eq_some_iff.1 hth).1
  · exact ⟨t, by rw [← ht]; exact List.getElem?_set_ne hi, hstage⟩

/-- **What is live, held or issued was issued by the request that minted it**, and every step keeps
it so. -/
theorem Minted.step (h : w.Minted) {a : Act} (hstep : w.step V a = some w') : w'.Minted := by
  cases a with
  | arrive now request =>
    obtain ⟨th, store, rfl, hholds, -, hlive⟩ := step_arrive hstep
    have hold : ∀ {g}, w.Mentioned g → Born { w with store, threads := w.threads ++ [th] } g := by
      intro g hg
      obtain ⟨t, ht, hstage⟩ := h g hg
      refine ⟨t, ?_, hstage⟩
      exact (List.getElem?_append_left (List.getElem?_eq_some_iff.1 ht).1).trans ht
    intro g hg
    cases hg with
    | live hg =>
      rcases hlive _ g hg with hg | rfl
      · exact hold (.live hg)
      · exact ⟨th, List.getElem?_concat_length, Nat.zero_le _⟩
    | held hth hg =>
      rcases List.mem_append.1 hth with hth | hth
      · exact hold (.held hth hg)
      · rw [List.mem_singleton] at hth
        subst hth
        exact absurd hg (hholds _ _)
    | source hg => exact hold (.source hg)
    | product hg => exact hold (.product hg)
  | gc now =>
    obtain rfl := step_gc hstep
    intro g hg
    cases hg with
    | live hg => exact h g (.live (Store.liveWith_gcExpired hg))
    | held hth hg => exact h g (.held hth hg)
    | source hg => exact h g (.source hg)
    | product hg => exact h g (.product hg)
  | advance i now currentRole =>
    obtain ⟨th, o, hth, ho, rfl⟩ := step_advance hstep
    have hmem : th ∈ w.threads := List.mem_of_getElem? hth
    have hold : ∀ {g}, w.Mentioned g → _ := fun {g} hg => (h g hg).advance hth ho
    intro g hg
    cases Thread.advance_effect ho with
    | quiet hissued hlive hholds _ _ =>
      simp only [hissued, List.append_nil] at hg hold ⊢
      cases hg with
      | live hg => exact hold (.live (hlive hg))
      | held hth' hg =>
        rcases mem_set hth' with rfl | hth'
        · exact absurd hg (hholds _ _)
        · exact hold (.held hth' hg)
      | source hg => exact hold (.source hg)
      | product hg => exact hold (.product hg)
    | take g₀ hissued hg₀ hlive _ hholds _ =>
      simp only [hissued, List.append_nil] at hg hold ⊢
      cases hg with
      | live hg => exact hold (.live (hlive hg))
      | held hth' hg =>
        rcases mem_set hth' with rfl | hth'
        · rw [hholds _ _ hg]
          exact hold (.live hg₀)
        · exact hold (.held hth' hg)
      | source hg => exact hold (.source hg)
      | product hg => exact hold (.product hg)
    | issue g₀ p claims hissued _ hg₀ hlive _ hholds _ hminter _ hstage =>
      have hnew : Born { store := o.store
                         threads := w.threads.set i o.thread
                         issued := w.issued ++ o.issued } p := by
        refine ⟨o.thread, ?_, hstage⟩
        rw [hminter]
        exact List.getElem?_set_self (List.getElem?_eq_some_iff.1 hth).1
      cases hg with
      | live hg =>
        rcases hlive hg with hg | ⟨rfl, -⟩
        · exact hold (.live hg)
        · exact hnew
      | held hth' hg =>
        rcases mem_set hth' with rfl | hth'
        · exact hold (.held hmem (hholds _ _ hg))
        · exact hold (.held hth' hg)
      | source hg =>
        rw [hissued, List.mem_append, List.mem_singleton] at hg
        rcases hg with hg | heq
        · exact hold (.source hg)
        · obtain ⟨rfl, -⟩ := Prod.mk.inj heq
          exact hold (.held hmem hg₀)
      | product hg =>
        rw [hissued, List.mem_append, List.mem_singleton] at hg
        rcases hg with hg | heq
        · exact hold (.product hg)
        · obtain ⟨-, rfl⟩ := Prod.mk.inj heq
          exact hnew

/-- What a request has minted and not issued is not about. -/
theorem Minted.fresh (h : w.Minted) {th : Thread} (hth : w.threads[i]? = some th)
    {p : Credential} (hminter : p.minter = i) (hstage : th.stage < p.stage) : ¬ w.Mentioned p := by
  intro hp
  obtain ⟨t, ht, hle⟩ := h p hp
  rw [hminter, hth] at ht
  obtain rfl := Option.some.inj ht
  omega

/-- The credential that the next request will be named after is not about. -/
theorem Minted.fresh_next (h : w.Minted) : ¬ w.Mentioned (.pending w.threads.length) := by
  intro hp
  obtain ⟨t, ht, -⟩ := h _ hp
  exact absurd (List.getElem?_eq_some_iff.1 ht).1 (lt_irrefl _)

end World

end OpenViking.OAuth
