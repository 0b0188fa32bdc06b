import OpenViking.ApiKeys.AdminApi

/-!
# Calls of administrators and users

Results:

* `opens_iff`: when a user's key opens the account and not as `ROOT`;
* `contained_iff`: when a call of an administrator or user hands out no more than its caller has.
-/

namespace OpenViking.ApiKeys

open Fs (Str validateUserId)

local instance Str.lawfulBEqAdminCalls : LawfulBEq Str := inferInstance

/-! ## Operations that save -/

section Operations

variable {P : Primitives} {m : Manager} {files : Files} {a u : Str}

theorem eval_saveAndReturn (m : Manager) (a : Str) (result : Option Str) (files : Files) :
    ∃ files', (saveAndReturn m a result).eval exec 0 files = some ((.ok result, m), files') := by
  unfold saveAndReturn
  cases hget : m.accounts.get a with
  | none =>
    unfold saveUsersJson
    rw [hget]
    exact ⟨files, rfl⟩
  | some account =>
    rw [saveUsersJson_of_get hget]
    exact ⟨_, rfl⟩

variable {info : UserInfo}

theorem withUser_of_held (h : m.held a u = some info) (body : AccountInfo → UserInfo → Prog Answer Outcome) :
    ∃ account, m.accounts.get a = some account ∧ account.users.get u = some info ∧
      withUser m a u body = body account info := by
  cases hget : m.accounts.get a with
  | none =>
    rw [held_of_get_eq_none hget] at h
    cases h
  | some account =>
    rw [held_of_get hget] at h
    refine ⟨account, rfl, h, ?_⟩
    unfold withUser
    simp only [hget, h]

theorem withUser_of_none (h : m.held a u = none) (body : AccountInfo → UserInfo → Prog Answer Outcome) :
    ∃ error, withUser m a u body = .ret (.error error, m) := by
  unfold withUser
  cases hget : m.accounts.get a with
  | none => exact ⟨_, rfl⟩
  | some account =>
    rw [held_of_get hget] at h
    simp only [h]
    exact ⟨_, rfl⟩

theorem removeUser_eval (h : m.held a u = some info) (files : Files) :
    ∃ m' files', (removeUser m a u).eval exec 0 files = some ((.ok none, m'), files') ∧
      ∀ a' u', m'.held a' u' = if a' = a ∧ u' = u then none else m.held a' u' := by
  obtain ⟨account, hget, -, hrun⟩ := withUser_of_held h fun account info =>
    saveAndReturn
      { m with
        accounts := m.accounts.set a { account with users := account.users.erase u }
        prefixIndex :=
          if info.key = [] then m.prefixIndex
          else dropEntries m.prefixIndex info.indexPrefix a u } a none
  obtain ⟨files', heval⟩ := eval_saveAndReturn
    { m with
      accounts := m.accounts.set a { account with users := account.users.erase u }
      prefixIndex :=
        if info.key = [] then m.prefixIndex
        else dropEntries m.prefixIndex info.indexPrefix a u } a none files
  refine ⟨_, files', (congrArg (Prog.eval exec 0 · files) hrun).trans heval, fun a' u' => ?_⟩
  rw [held_set _ rfl]
  by_cases ha : a' = a
  · subst ha
    by_cases hu : u' = u <;> simp [hu, held_of_get hget]
  · simp [ha]

theorem regenerateKey_eval (h : m.held a u = some info) (draw : Draw) (files : Files) :
    ∃ m' files', (regenerateKey P m a u draw).eval exec 0 files =
        some ((.ok (some (generateApiKey P a u draw.secret)), m'), files') ∧
      ∀ a' u', ¬ (a' = a ∧ u' = u) → m'.held a' u' = m.held a' u' := by
  unfold regenerateKey
  obtain ⟨account, hget, -, hrun⟩ := withUser_of_held h _
  rw [hrun]
  obtain ⟨files', heval⟩ := eval_saveAndReturn _ a _ files
  refine ⟨_, files', heval, fun a' u' hne => ?_⟩
  exact (held_setUser hget u _ a' u').trans (if_neg hne)

theorem registerUser_eval (role : Str) (hvalid : validateUserId u = none)
    (haccount : (m.accounts.get a).isSome) (h : m.held a u = none) (draw : Draw) (files : Files) :
    ∃ m' files', (registerUser P m a u role draw).eval exec 0 files =
        some ((.ok (some (generateApiKey P a u draw.secret)), m'), files') ∧
      ∀ a' u', ¬ (a' = a ∧ u' = u) → m'.held a' u' = m.held a' u' := by
  obtain ⟨account, hget⟩ := Option.isSome_iff_exists.1 haccount
  have huser : account.users.contains u = false := by
    rw [held_of_get hget] at h
    simpa [Dict.contains] using h
  unfold registerUser
  simp only [hvalid, hget, huser]
  obtain ⟨files', heval⟩ := eval_saveAndReturn _ a _ files
  refine ⟨_, files', heval, fun a' u' hne => ?_⟩
  exact (held_setUser hget u _ a' u').trans (if_neg hne)

theorem registerUser_rejected (role : Str) (draw : Draw)
    (h : ¬ (validateUserId u = none ∧ (m.accounts.get a).isSome ∧ m.held a u = none)) :
    ∃ error, registerUser P m a u role draw = .ret (.error error, m) := by
  unfold registerUser
  cases hvalid : validateUserId u with
  | some verr => exact ⟨_, rfl⟩
  | none =>
    cases hget : m.accounts.get a with
    | none => exact ⟨_, rfl⟩
    | some account =>
      dsimp only
      split_ifs with huser
      · exact ⟨_, rfl⟩
      · refine absurd ⟨hvalid, by rw [hget]; rfl, ?_⟩ h
        rw [held_of_get hget]
        simpa [Dict.contains] using huser

end Operations

/-! ## Calls of administrators -/

section Calls

variable {P : Primitives} (hP : P.Sound) {fnmatch : Str → Str → Bool} {rootKey : Str}
include hP

variable {a key u role : Str}

omit hP in
theorem Contained.of_no_keys {s s' : System} {response : AdminResponse}
    (hmanager : s'.manager = s.manager) (h : response.keys = []) : Contained P a s s' response where
  keys key hkey := by
    rw [h] at hkey
    cases hkey
  roots _ _ info hinfo _ := ⟨info, by rw [hmanager, hinfo], rfl⟩

variable {m : Manager}

omit hP in
theorem isAscii_of_resolve {identity : ResolvedIdentity}
    (h : m.resolve P key = .ok identity) : isAscii m.rootKey = true := by
  by_contra hnot
  have herror : compareDigest key m.rootKey = .error .typeError := by
    unfold compareDigest
    rw [if_neg]
    simp [hnot]
  unfold Manager.resolve at h
  rw [herror] at h
  split_ifs at h

omit hP in
theorem resolve_rootKey (hne : m.rootKey ≠ []) (hascii : isAscii m.rootKey = true) :
    m.resolve P m.rootKey = .ok ⟨roleRoot, none, none⟩ := by
  have heq : compareDigest m.rootKey m.rootKey = .ok true := by
    unfold compareDigest
    rw [if_pos (by simp [hascii])]
    simp
  unfold Manager.resolve
  rw [if_neg hne, heq]
  rfl

/-- A user's key opens the account and not as `ROOT`, exactly when the user is not `ROOT` and the key
is not the root key. -/
theorem opens_iff {reg : Registry} (h : Holds P m reg)
    (hascii : isAscii m.rootKey = true) {c : Credential} (hreg : reg a u = some c) :
    (∃ role userId, m.resolve P c.key = .ok ⟨role, some a, userId⟩ ∧ role ≠ roleRoot) ↔
      c.role ≠ roleRoot ∧ c.key ≠ m.rootKey := by
  by_cases hroot : c.key = m.rootKey
  · have hne : m.rootKey ≠ [] := by
      have hrel := h.users a u
      rw [hreg] at hrel
      cases hheld : m.held a u with
      | none => simp [hheld] at hrel
      | some info =>
        rw [hheld, Option.rel_some_some] at hrel
        rw [← hroot]
        exact hrel.credential_ne_nil
    refine iff_of_false ?_ fun hboth => hboth.2 hroot
    rintro ⟨role, userId, hresolve, -⟩
    rw [hroot, resolve_rootKey hne hascii] at hresolve
    cases hresolve
  · rw [h.resolve_current hP hascii hroot (show reg a u = some ⟨c.key, c.role⟩ from hreg)]
    constructor
    · rintro ⟨role, userId, hresolve, hrole⟩
      cases hresolve
      exact ⟨hrole, hroot⟩
    · rintro ⟨hrole, -⟩
      exact ⟨c.role, some u, rfl, hrole⟩

variable {ctx : RequestContext}

omit hP in
/-- An administrator may manage the own account. -/
theorem allowed_of_admin (hrole : ctx.role = roleAdmin) :
    (requireAuthRole [roleRoot, roleAdmin] ctx).or (checkAccountAccess ctx ctx.accountId) = none := by
  unfold requireAuthRole checkAccountAccess
  rw [if_pos (by simp [hrole]), if_neg (by simp)]
  rfl

omit hP in
/-- Who is allowed, and is not `ROOT`, is an administrator of the account. -/
theorem admin_of_allowed {accountId : Str} (hroot : ctx.role ≠ roleRoot) {rest : Option Str}
    (h : (requireAuthRole [roleRoot, roleAdmin] ctx).or
      ((checkAccountAccess ctx accountId).or rest) = none) :
    ctx.role = roleAdmin ∧ accountId = ctx.accountId ∧ rest = none := by
  obtain ⟨hallowed, hrest⟩ := Option.or_eq_none_iff.1 h
  obtain ⟨haccess, hrest⟩ := Option.or_eq_none_iff.1 hrest
  unfold requireAuthRole at hallowed
  split_ifs at hallowed with hmem
  have hadmin : ctx.role = roleAdmin := by simpa [hroot] using hmem
  unfold checkAccountAccess at haccess
  split_ifs at haccess with hother
  exact ⟨hadmin, (by_contra fun hne => hother ⟨hadmin, Ne.symm hne⟩), hrest⟩

omit hP in
theorem not_allowed_of_root (hroot : ctx.role ≠ roleRoot) : requireAuthRole [roleRoot] ctx ≠ none := by
  unfold requireAuthRole
  rw [if_neg (by simpa using hroot)]
  exact Option.some_ne_none _

omit hP in
/-- A call that is denied has nothing asked of it. -/
theorem unprivileged_of_denied {draw : Draw} {call : AdminCall}
    (h : call.denied ctx ≠ none) : Unprivileged P fnmatch m ctx.role ctx.accountId draw call := by
  cases call with
  | createAccount a u => trivial
  | deleteAccount a => trivial
  | setUserRole a u role => trivial
  | registerUser a u role =>
    rintro hadmin rfl hrole
    refine absurd ?_ h
    show (requireAuthRole _ ctx).or ((checkAccountAccess ctx _).or (validateRegisterUserRole role)) = none
    obtain ⟨hauth, haccess⟩ := Option.or_eq_none_iff.1 (allowed_of_admin hadmin)
    rw [hauth, haccess]
    exact if_neg hrole
  | listUsers a limit name role | removeUser a u | regenerateKey a u =>
    rintro hadmin rfl
    exact absurd (allowed_of_admin hadmin) h

omit hP in
theorem listEntries_subset {limit : ℤ} {name role : Option Str} {users : List (Str × UserInfo)}
    {count : ℕ} : listEntries fnmatch limit name role users count ⊆ users := by
  induction users generalizing count with
  | nil => exact List.Subset.refl _
  | cons e users ih =>
    unfold listEntries
    split_ifs
    · exact List.nil_subset _
    · exact List.cons_subset_cons e ih
    · exact List.Subset.trans ih (List.subset_cons_self e users)

variable {s : System}

/-- What a list of users gives away. -/
theorem contained_listUsers_iff (h : s.Inv P rootKey)
    (hascii : isAscii s.manager.rootKey = true) (a : Str) (limit : ℤ) (name role : Option Str) :
    Contained P a s s (getUsers fnmatch s.manager a limit name role) ↔
      ∀ account, s.manager.accounts.get a = some account →
        ∀ e ∈ listEntries fnmatch limit name role account.users.entries 0,
          isHash e.2.key = false → e.2.role ≠ roleRoot ∧ e.2.key ≠ s.manager.rootKey := by
  cases hget : s.manager.accounts.get a with
  | none =>
    unfold getUsers
    rw [hget]
    exact iff_of_true (.of_no_keys rfl rfl) (by simp)
  | some account =>
    have hget' : getUsers fnmatch s.manager a limit name role =
        .users ((listEntries fnmatch limit name role account.users.entries 0).map
          fun e => e.2.data e.1) := by
      unfold getUsers
      rw [hget]
    rw [hget']
    -- each listed user, with what the registry has of it
    have hopens : ∀ e ∈ listEntries fnmatch limit name role account.users.entries 0,
        isHash e.2.key = false →
          ((∃ role userId, s.manager.resolve P e.2.key = .ok ⟨role, some a, userId⟩ ∧
            role ≠ roleRoot) ↔ e.2.role ≠ roleRoot ∧ e.2.key ≠ s.manager.rootKey) ∧ e.2.key ≠ [] := by
      intro e he hplain
      have hheld : s.manager.held a e.1 = some e.2 := by
        rw [held_of_get hget]
        exact Dict.get_eq_some_iff.2 (listEntries_subset he)
      obtain ⟨c, hreg, hrep⟩ := h.holds.exists_credential hheld
      have hiff := opens_iff hP h.holds hascii hreg
      obtain ⟨-, hkey, -⟩ | ⟨hhash, -⟩ := hrep.plain_or_hashed hP
      · rw [hkey, hrep.role]
        exact ⟨hiff, hrep.credential_ne_nil⟩
      · rw [hplain] at hhash
        cases hhash
    have hkeys : ∀ key, key ∈ (AdminResponse.users ((listEntries fnmatch limit name role
          account.users.entries 0).map fun e => e.2.data e.1)).keys ↔
        ∃ e ∈ listEntries fnmatch limit name role account.users.entries 0,
          isHash e.2.key = false ∧ e.2.key ≠ [] ∧ e.2.key = key := by
      intro key
      show key ∈ List.filterMap UserData.apiKey (List.map _ _) ↔ _
      rw [List.filterMap_map, List.mem_filterMap]
      refine exists_congr fun e => and_congr_right fun _ => ?_
      show (if e.2.key = [] ∨ isHash e.2.key then none else some e.2.key) = some key ↔ _
      by_cases hnone : e.2.key = [] ∨ isHash e.2.key
      · rw [if_pos hnone]
        refine iff_of_false (by simp) ?_
        rintro ⟨hplain, hne, -⟩
        rcases hnone with hnil | hhash
        · exact hne hnil
        · rw [hplain] at hhash
          cases hhash
      · rw [if_neg hnone]
        push Not at hnone
        simp [hnone]
    constructor
    · intro hcontained account' haccount e he hplain
      obtain rfl := Option.some.inj haccount
      obtain ⟨hiff, hne⟩ := hopens e he hplain
      exact hiff.1 (hcontained.keys _ ((hkeys _).2 ⟨e, he, hplain, hne, rfl⟩))
    · intro hall
      refine ⟨fun key hkey => ?_, fun _ _ info hinfo _ => ⟨info, hinfo, rfl⟩⟩
      obtain ⟨e, he, hplain, -, rfl⟩ := (hkeys key).1 hkey
      exact (hopens e he hplain).1.2 (hall account rfl e he hplain)

omit hP in
/-- An operation that is rejected gives nothing away. -/
theorem contained_rejected (a : Str) (op : Op) (draw : Draw) {error : ApiError}
    (hrun : op.run P s.manager draw = .ret (.error error, s.manager)) :
    ∃ end', (op.run P s.manager draw).eval exec 0 s.files = some end' ∧
      Contained P a s ⟨end'.1.2, end'.2, s.registry.record op end'.1.1⟩ (respond end'.1.1) := by
  rw [hrun]
  exact ⟨_, rfl, .of_no_keys rfl rfl⟩

omit hP in
/-- Removing a user. -/
theorem contained_removeUser_iff (a u : Str) (draw : Draw) :
    ∃ end', ((Op.removeUser a u).run P s.manager draw).eval exec 0 s.files = some end' ∧
      (Contained P a s ⟨end'.1.2, end'.2, s.registry.record (.removeUser a u) end'.1.1⟩
          (respond end'.1.1) ↔
        ∀ info, s.manager.held a u = some info → info.role ≠ roleRoot) := by
  cases hheld : s.manager.held a u with
  | none =>
    obtain ⟨error, hrun⟩ := withUser_of_none hheld _
    obtain ⟨end', heval, hcontained⟩ := contained_rejected a (.removeUser a u) draw hrun
    exact ⟨end', heval, iff_of_true hcontained (by simp)⟩
  | some info =>
    obtain ⟨m', files', heval, hheld'⟩ := removeUser_eval hheld s.files
    refine ⟨_, heval, fun hcontained info' hinfo hrole => ?_, fun hall => ⟨by simp [respond,
      AdminResponse.keys], fun a' u' info' hinfo hrole => ?_⟩⟩
    · obtain rfl := Option.some.inj hinfo
      obtain ⟨info', hinfo', -⟩ := hcontained.roots a u info hheld hrole
      rw [hheld', if_pos ⟨rfl, rfl⟩] at hinfo'
      cases hinfo'
    · refine ⟨info', ?_, rfl⟩
      rw [hheld', if_neg, hinfo]
      rintro ⟨rfl, rfl⟩
      rw [hheld] at hinfo
      obtain rfl := Option.some.inj hinfo
      exact hall info rfl hrole

/-- A new key for a user, of a role that is told apart. -/
theorem contained_userKey_iff (h : s.Inv P rootKey)
    (hascii : isAscii s.manager.rootKey = true) (op : Op) {draw : Draw} {m' : Manager} {files' : Files}
    (heval : (op.run P s.manager draw).eval exec 0 s.files = some ((.ok (some key), m'), files'))
    (hreg : s.registry.record op (.ok (some key)) a u = some ⟨key, role⟩)
    (hothers : ∀ a' u', ¬ (a' = a ∧ u' = u) → m'.held a' u' = s.manager.held a' u')
    (hbefore : ∀ info, s.manager.held a u = some info → info.role = role) :
    Contained P a s ⟨m', files', s.registry.record op (.ok (some key))⟩ (.userKey key) ↔
      role ≠ roleRoot ∧ key ≠ s.manager.rootKey := by
  obtain ⟨hholds, hroot⟩ := holds_of_eval hP h heval
  have hiff := opens_iff hP hholds (by rwa [hroot]) hreg
  rw [hroot] at hiff
  constructor
  · intro hcontained
    exact hiff.1 (hcontained.keys key (List.mem_singleton_self key))
  · intro hboth
    refine ⟨fun key' hkey' => ?_, fun a' u' info hinfo hrole => ⟨info, ?_, rfl⟩⟩
    · obtain rfl := List.mem_singleton.1 hkey'
      exact hiff.2 hboth
    · rw [hothers, hinfo]
      rintro ⟨rfl, rfl⟩
      exact hboth.1 ((hbefore info hinfo).symm.trans hrole)

/-- Replacing the key of a user. -/
theorem contained_regenerateKey_iff (h : s.Inv P rootKey)
    (hascii : isAscii s.manager.rootKey = true) (a u : Str) (draw : Draw) :
    ∃ end', ((Op.regenerateKey a u).run P s.manager draw).eval exec 0 s.files = some end' ∧
      (Contained P a s ⟨end'.1.2, end'.2, s.registry.record (.regenerateKey a u) end'.1.1⟩
          (respond end'.1.1) ↔
        ∀ info, s.manager.held a u = some info →
          info.role ≠ roleRoot ∧ generateApiKey P a u draw.secret ≠ s.manager.rootKey) := by
  cases hheld : s.manager.held a u with
  | none =>
    obtain ⟨error, hrun⟩ := withUser_of_none hheld _
    obtain ⟨end', heval, hcontained⟩ := contained_rejected a (.regenerateKey a u) draw hrun
    exact ⟨end', heval, iff_of_true hcontained (by simp)⟩
  | some info =>
    obtain ⟨m', files', heval, hothers⟩ := regenerateKey_eval (P := P) hheld draw s.files
    obtain ⟨c, hreg, hrep⟩ := h.holds.exists_credential hheld
    have hrecord : s.registry.record (.regenerateKey a u)
        (.ok (some (generateApiKey P a u draw.secret))) a u =
          some ⟨generateApiKey P a u draw.secret, info.role⟩ := by
      show Registry.assign _ a u _ a u = _
      unfold Registry.assign
      rw [if_pos ⟨rfl, rfl⟩, hreg, hrep.role]
      rfl
    refine ⟨_, heval, (contained_userKey_iff hP h hascii (.regenerateKey a u) heval hrecord hothers
      fun info' hinfo' => ?_).trans ⟨fun hboth info' hinfo' => ?_, fun hall => hall info rfl⟩⟩
    · rw [hheld] at hinfo'
      rw [Option.some.inj hinfo']
    · obtain rfl := Option.some.inj hinfo'
      exact hboth

/-- Making a user. -/
theorem contained_registerUser_iff (h : s.Inv P rootKey)
    (hascii : isAscii s.manager.rootKey = true) (a u : Str) (hrole : role ≠ roleRoot) (draw : Draw) :
    ∃ end', ((Op.registerUser a u role).run P s.manager draw).eval exec 0 s.files = some end' ∧
      (Contained P a s ⟨end'.1.2, end'.2, s.registry.record (.registerUser a u role) end'.1.1⟩
          (respond end'.1.1) ↔
        (validateUserId u = none → (s.manager.accounts.get a).isSome → s.manager.held a u = none →
          generateApiKey P a u draw.secret ≠ s.manager.rootKey)) := by
  by_cases haccepted : validateUserId u = none ∧ (s.manager.accounts.get a).isSome ∧
      s.manager.held a u = none
  · obtain ⟨hvalid, haccount, hnone⟩ := haccepted
    obtain ⟨m', files', heval, hothers⟩ := registerUser_eval (P := P) role hvalid haccount hnone draw
      s.files
    have hrecord : s.registry.record (.registerUser a u role)
        (.ok (some (generateApiKey P a u draw.secret))) a u =
          some ⟨generateApiKey P a u draw.secret, role⟩ := by
      show Registry.assign _ a u _ a u = _
      unfold Registry.assign
      rw [if_pos ⟨rfl, rfl⟩]
    refine ⟨_, heval, (contained_userKey_iff hP h hascii (.registerUser a u role) heval hrecord
      hothers fun info hinfo => ?_).trans ⟨fun hboth _ _ _ => hboth.2, fun hall =>
        ⟨hrole, hall hvalid haccount hnone⟩⟩⟩
    rw [hnone] at hinfo
    cases hinfo
  · obtain ⟨error, hrun⟩ := registerUser_rejected (P := P) role draw haccepted
    obtain ⟨end', heval, hcontained⟩ :=
      contained_rejected a (.registerUser a u role) draw hrun
    exact ⟨end', heval, iff_of_true hcontained fun h1 h2 h3 => absurd ⟨h1, h2, h3⟩ haccepted⟩

end Calls

/-- **The admin API hands out no more than its caller has**, after any requests of any callers and any
restarts, exactly when the call of an administrator is about no user who is `ROOT` (in the list with
a plain key, removed, or given a new key) and about no key that is the root key.  A user's call
always does. -/
theorem contained_iff {P : Primitives} (hP : P.Sound) (fnmatch : Str → Str → Bool) {rootKey : Str}
    {first : Start} {events : List AdminEvent} {s : System}
    (hrun : adminHistory P fnmatch rootKey first events = some s) {callerKey : Str}
    {identity : ResolvedIdentity} (hcaller : s.manager.resolve P callerKey = .ok identity)
    (hrole : identity.role = roleAdmin ∨ identity.role = roleUser) (call : AdminCall) (draw : Draw) :
    ∃ response s', serve P fnmatch s callerKey call draw = some (response, s') ∧
      (Contained P identity.context.accountId s s' response ↔
        Unprivileged P fnmatch s.manager identity.role identity.context.accountId draw call) := by
  have h := adminHistory_inv hP hrun
  have hascii := isAscii_of_resolve hcaller
  have hroot : identity.context.role ≠ roleRoot := by
    show identity.role ≠ roleRoot
    rcases hrole with hrole | hrole
    · rw [hrole]
      decide +kernel
    · rw [hrole]
      decide +kernel
  unfold serve
  simp only [hcaller]
  cases hdenied : call.denied identity.context with
  | some message =>
    refine ⟨_, s, rfl, iff_of_true (.of_no_keys rfl rfl) ?_⟩
    have hne : call.denied identity.context ≠ none := by rw [hdenied]; exact Option.some_ne_none _
    exact unprivileged_of_denied hne
  | none =>
    cases call with
    | createAccount a u => exact absurd hdenied (not_allowed_of_root hroot)
    | deleteAccount a => exact absurd hdenied (not_allowed_of_root hroot)
    | setUserRole a u role => exact absurd hdenied (not_allowed_of_root hroot)
    | listUsers a limit name role =>
      obtain ⟨hadmin, ha, -⟩ := admin_of_allowed hroot (show _ = none by rwa [Option.or_none])
      rw [← ha]
      refine ⟨_, s, rfl, (contained_listUsers_iff hP h hascii a limit name role).trans ?_⟩
      exact ⟨fun hall _ _ => hall, fun hall => hall hadmin rfl⟩
    | removeUser a u =>
      obtain ⟨hadmin, ha, -⟩ := admin_of_allowed hroot (show _ = none by rwa [Option.or_none])
      obtain ⟨end', heval, hiff⟩ := contained_removeUser_iff (P := P) (s := s) a u draw
      rw [← ha]
      refine ⟨_, _, congrArg (Option.map _) heval, hiff.trans ?_⟩
      exact ⟨fun hall _ _ => hall, fun hall => hall hadmin rfl⟩
    | registerUser a u role =>
      obtain ⟨hadmin, ha, hnew⟩ := admin_of_allowed hroot hdenied
      have hrole' : role ≠ roleRoot := by
        intro heq
        unfold validateRegisterUserRole at hnew
        rw [if_pos heq] at hnew
        cases hnew
      obtain ⟨end', heval, hiff⟩ := contained_registerUser_iff hP h hascii a u hrole' draw
      rw [← ha]
      refine ⟨_, _, congrArg (Option.map _) heval, hiff.trans ?_⟩
      exact ⟨fun hall _ _ _ => hall, fun hall => hall hadmin rfl hrole'⟩
    | regenerateKey a u =>
      obtain ⟨hadmin, ha, -⟩ := admin_of_allowed hroot (show _ = none by rwa [Option.or_none])
      obtain ⟨end', heval, hiff⟩ := contained_regenerateKey_iff hP h hascii a u draw
      rw [← ha]
      refine ⟨_, _, congrArg (Option.map _) heval, hiff.trans ?_⟩
      exact ⟨fun hall _ _ => hall, fun hall => hall hadmin rfl⟩

/-- The key that a user gets with a secret. -/
def someKey (userId secret : String) : Str :=
  generateApiKey textbook "acme".toList userId.toList secret.toList

/-- The root makes an account with its administrator, who makes a user. -/
def adminAndUser : List AdminEvent :=
  [.request "rootkey".toList (.createAccount "acme".toList "alice".toList) ⟨"s1".toList, 0, []⟩,
    .request (someKey "alice" "s1") (.registerUser "acme".toList "bob".toList roleUser)
      ⟨"s2".toList, 0, []⟩]

theorem contained_regenerateKey_bob :
    ∃ s, adminHistory textbook (fun _ _ => true) "rootkey".toList ⟨false, fun _ _ => 0, []⟩
        adminAndUser = some s ∧
      ∃ response s', serve textbook (fun _ _ => true) s (someKey "alice" "s1")
          (.regenerateKey "acme".toList "bob".toList) ⟨"s3".toList, 0, []⟩ = some (response, s') ∧
        Contained textbook "acme".toList s s' response := by
  have hsome : (adminHistory textbook (fun _ _ => true) "rootkey".toList ⟨false, fun _ _ => 0, []⟩
      adminAndUser).map (fun s => (s.manager.resolve textbook (someKey "alice" "s1"),
        s.manager.rootKey, (s.manager.held "acme".toList "bob".toList).map (·.role))) =
        some (.ok ⟨roleAdmin, some "acme".toList, some "alice".toList⟩, "rootkey".toList,
          some roleUser) := by decide +kernel
  obtain ⟨s, hs, hstate⟩ := Option.map_eq_some_iff.1 hsome
  simp only [Prod.mk.injEq] at hstate
  obtain ⟨hcaller, hroot, hrole⟩ := hstate
  obtain ⟨response, s', hserve, hiff⟩ := contained_iff sound_textbook (fun _ _ => true) hs hcaller
    (.inl rfl) (.regenerateKey "acme".toList "bob".toList) ⟨"s3".toList, 0, []⟩
  refine ⟨s, hs, response, s', hserve, hiff.2 fun _ _ info hinfo => ?_⟩
  rw [hinfo] at hrole
  have hrole : info.role = roleUser := Option.some_inj.1 hrole
  rw [hrole, hroot]
  exact ⟨by decide, by decide +kernel⟩

/-- The root gives the user the role `ROOT`, and the administrator replaces that user's key: the new
one opens everything. -/
theorem contained_fails :
    ∃ s, adminHistory textbook (fun _ _ => true) "rootkey".toList ⟨false, fun _ _ => 0, []⟩
        (adminAndUser ++ [.request "rootkey".toList
          (.setUserRole "acme".toList "bob".toList roleRoot) ⟨[], 0, []⟩]) = some s ∧
      s.manager.resolve textbook (someKey "alice" "s1") =
        .ok ⟨roleAdmin, some "acme".toList, some "alice".toList⟩ ∧
      ∃ response s', serve textbook (fun _ _ => true) s (someKey "alice" "s1")
          (.regenerateKey "acme".toList "bob".toList) ⟨"s3".toList, 0, []⟩ = some (response, s') ∧
        ¬ Contained textbook "acme".toList s s' response := by
  have hall : (adminHistory textbook (fun _ _ => true) "rootkey".toList ⟨false, fun _ _ => 0, []⟩
      (adminAndUser ++ [.request "rootkey".toList
        (.setUserRole "acme".toList "bob".toList roleRoot) ⟨[], 0, []⟩])).map (fun s =>
          (s.manager.resolve textbook (someKey "alice" "s1"),
            (serve textbook (fun _ _ => true) s (someKey "alice" "s1")
              (.regenerateKey "acme".toList "bob".toList) ⟨"s3".toList, 0, []⟩).map fun r =>
                (r.1.keys, r.2.manager.resolve textbook (someKey "bob" "s3")))) =
        some (.ok ⟨roleAdmin, some "acme".toList, some "alice".toList⟩,
          some ([someKey "bob" "s3"],
            .ok ⟨roleRoot, some "acme".toList, some "bob".toList⟩)) := by decide +kernel
  obtain ⟨s, hs, hpair⟩ := Option.map_eq_some_iff.1 hall
  obtain ⟨hcaller, hserve⟩ := Prod.mk.inj hpair
  obtain ⟨⟨response, s'⟩, hresponse, hkeys⟩ := Option.map_eq_some_iff.1 hserve
  obtain ⟨hkeys, hresolve⟩ := Prod.mk.inj hkeys
  refine ⟨s, hs, hcaller, response, s', hresponse, fun hcontained => ?_⟩
  obtain ⟨role, userId, hopen, hrole⟩ := hcontained.keys _ (by
    rw [show response.keys = _ from hkeys]
    exact List.mem_singleton_self _)
  rw [show s'.manager.resolve textbook (someKey "bob" "s3") = _ from hresolve] at hopen
  cases hopen
  exact hrole rfl

end OpenViking.ApiKeys
