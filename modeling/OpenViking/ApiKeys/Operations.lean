import OpenViking.ApiKeys.Registry

/-!
# What an operation does in memory

An operation is rejected and nothing has changed, or it changes the records and the index as its
result will say and goes on to save them.

* `Holds.discardAccountState`: an account goes with all its entries;
* `Holds.run_splits`: the operations, up to their saves.
-/

namespace OpenViking.ApiKeys

open Fs (Str validateAccountId validateUserId)

/-! ## Registries -/

/-- Give a user a key and role, or take the user away. -/
def Registry.assign (reg : Registry) (accountId userId : Str) (c : Option Credential) : Registry :=
  fun a u => if a = accountId ∧ u = userId then c else reg a u

/-- Give an account these users and no others. -/
def Registry.replace (reg : Registry) (accountId : Str) (users : Str → Option Credential) :
    Registry :=
  fun a u => if a = accountId then users u else reg a u

/-- What an operation that ended so says about the users. -/
def Registry.record (reg : Registry) : Op → Except ApiError (Option Str) → Registry
  | .createAccount a u, .ok (some key) =>
    reg.replace a fun u' => if u' = u then some ⟨key, "admin".toList⟩ else none
  | .deleteAccount a, .ok _ => reg.replace a fun _ => none
  | .registerUser a u role, .ok (some key) => reg.assign a u (some ⟨key, role⟩)
  | .removeUser a u, .ok _ => reg.assign a u none
  | .regenerateKey a u, .ok (some key) =>
    reg.assign a u ((reg a u).map fun c => ⟨key, c.role⟩)
  | .setRole a u role, .ok _ => reg.assign a u ((reg a u).map fun c => ⟨c.key, role⟩)
  | _, _ => reg

@[simp] theorem Registry.record_error (reg : Registry) (op : Op) (error : ApiError) :
    reg.record op (.error error) = reg := by
  cases op <;> rfl

/-! ## The account an operation is about -/

def Op.account : Op → Str
  | createAccount a _ => a
  | deleteAccount a => a
  | registerUser a _ _ => a
  | removeUser a _ => a
  | regenerateKey a _ => a
  | setRole a _ _ => a

def Op.creates : Op → Bool
  | createAccount _ _ => true
  | _ => false

def Op.deletes : Op → Bool
  | deleteAccount _ => true
  | _ => false

theorem Registry.record_other (reg : Registry) {op : Op} (r : Except ApiError (Option Str))
    {b : Str} (hb : b ≠ op.account) (u : Str) : reg.record op r b u = reg b u := by
  cases op <;> rcases r with _ | _ | _ <;>
    simp_all [Registry.record, Registry.replace, Registry.assign, Op.account]

/-- The checks of an operation let it through. -/
def Op.Accepted (m : Manager) : Op → Prop
  | createAccount a u =>
    validateAccountId a = none ∧ validateUserId u = none ∧ m.accounts.get a = none
  | deleteAccount a => m.accounts.get a ≠ none
  | registerUser a u _ => validateUserId u = none ∧ m.accounts.get a ≠ none ∧ m.held a u = none
  | removeUser a u => m.held a u ≠ none
  | regenerateKey a u => m.held a u ≠ none
  | setRole a u _ => m.held a u ≠ none

/-- The saves of an operation. -/
def Op.save (op : Op) (m : Manager) (result : Option Str) : Prog Answer Outcome :=
  match op with
  | createAccount a _ => saveNewAccount m a result
  | deleteAccount _ => saveAccountsAndReturn m result
  | op => saveAndReturn m op.account result

/-- What the operation may change in memory. -/
structure Op.Effect (op : Op) (m m' : Manager) : Prop where
  accepted : op.Accepted m
  rootKey : m'.rootKey = m.rootKey
  hashingEnabled : m'.hashingEnabled = m.hashingEnabled
  others : ∀ b, b ≠ op.account → m'.accounts.get b = m.accounts.get b
  before : (m.accounts.get op.account).isSome = !op.creates
  after : (m'.accounts.get op.account).isSome = !op.deletes

/-! ## Sound indexes -/

section Index

variable {held held' : Str → Str → Option UserInfo} {index : PrefixIndex} {a u : Str}

/-- The user has no entry. -/
def Unindexed (index : PrefixIndex) (accountId userId : Str) : Prop :=
  ∀ p e, Indexed index p e → ¬ (e.accountId = accountId ∧ e.userId = userId)

section

variable (h : IndexSound held index)

include h

theorem IndexSound.unindexed (hnone : held a u = none) : Unindexed index a u := by
  rintro p e he ⟨rfl, rfl⟩
  obtain ⟨info, hheld, -⟩ := h p e he
  rw [hnone] at hheld
  cases hheld

theorem IndexSound.of_unindexed (hno : Unindexed index a u)
    (hothers : ∀ a' u', ¬ (a' = a ∧ u' = u) → held' a' u' = held a' u') : IndexSound held' index := by
  intro p e he
  obtain ⟨info, hheld, hdescribes⟩ := h p e he
  exact ⟨info, (hothers _ _ (hno p e he)).trans hheld, hdescribes⟩

/-- The entries of a user are all under the prefix of the user's record. -/
theorem IndexSound.dropEntries {info : UserInfo} (hinfo : held a u = some info)
    (hothers : ∀ a' u', ¬ (a' = a ∧ u' = u) → held' a' u' = held a' u') :
    IndexSound held' (dropEntries index info.indexPrefix a u) := by
  intro p e he
  obtain ⟨he, hnot⟩ := indexed_dropEntries.1 he
  obtain ⟨info', hheld, hdescribes⟩ := h p e he
  refine ⟨info', ?_, hdescribes⟩
  rw [hothers, hheld]
  rintro ⟨rfl, rfl⟩
  obtain rfl := Option.some_inj.1 (hinfo.symm.trans hheld)
  exact hnot ⟨hdescribes.keyPrefix, rfl, rfl⟩

theorem IndexSound.addEntry {p : Str} {e : UserKeyEntry}
    {info : UserInfo} (hheld : held e.accountId e.userId = some info)
    (hdescribes : Describes info p e) : IndexSound held (addEntry index p e) := by
  intro q e' he'
  obtain he' | ⟨-, rfl, rfl⟩ := indexed_addEntry.1 he'
  · exact h q e' he'
  · exact ⟨info, hheld, hdescribes⟩

end

theorem indexed_foldl_dropEntries {users : List (Str × UserInfo)} {p : Str} {e : UserKeyEntry}
    (h : Indexed (users.foldl (fun index user =>
      if user.2.key = [] then index else ApiKeys.dropEntries index user.2.indexPrefix a user.1) index) p e) :
    Indexed index p e ∧ ∀ user ∈ users, user.2.key ≠ [] →
      ¬ (p = user.2.indexPrefix ∧ e.accountId = a ∧ e.userId = user.1) := by
  induction users generalizing index with
  | nil => exact ⟨h, by simp⟩
  | cons user users ih =>
    rw [List.foldl_cons] at h
    obtain ⟨hindexed, husers⟩ := ih h
    rw [List.forall_mem_cons]
    split_ifs at hindexed with hkey
    · exact ⟨hindexed, fun hne => absurd hkey hne, husers⟩
    · obtain ⟨hindexed, hnot⟩ := indexed_dropEntries.1 hindexed
      exact ⟨hindexed, fun _ => hnot, husers⟩

end Index

/-! ## Records -/

section Records

variable {P : Primitives} {m : Manager} {reg : Registry} {a u : Str}

variable {account : AccountInfo}

theorem held_of_get (h : m.accounts.get a = some account) (u : Str) : m.held a u = account.users.get u := by
  rw [Manager.held, h, Option.bind_some]

theorem held_of_get_eq_none (h : m.accounts.get a = none) (u : Str) : m.held a u = none := by
  rw [Manager.held, h, Option.bind_none]

theorem held_set (m' : Manager) (h : m'.accounts = m.accounts.set a account) (a' u' : Str) :
    m'.held a' u' = if a' = a then account.users.get u' else m.held a' u' := by
  rw [Manager.held, h, Dict.get_set]
  by_cases ha : a' = a
  · simp [ha]
  · simp [ha, Manager.held]

theorem setUser_of_get (h : m.accounts.get a = some account) (u : Str) (info : UserInfo) :
    m.setUser a u info =
      { m with
        accounts := m.accounts.set a { account with users := account.users.set u info } } := by
  rw [Manager.setUser, h]

theorem held_setUser (h : m.accounts.get a = some account) (u : Str) (info : UserInfo) (a' u' : Str) :
    (m.setUser a u info).held a' u' = if a' = a ∧ u' = u then some info else m.held a' u' := by
  rw [setUser_of_get h, held_set _ rfl]
  by_cases ha : a' = a
  · subst ha
    by_cases hu : u' = u <;> simp [hu, held_of_get h]
  · simp [ha]

theorem represents_newUserInfo (role : Str) (draw : Draw) :
    Represents P a u (newUserInfo P m role (generateApiKey P a u draw.secret) draw.salt)
      ⟨generateApiKey P a u draw.secret, role⟩ := by
  unfold newUserInfo
  split_ifs
  · exact ⟨rfl, ⟨_, rfl⟩, .inr ⟨_, rfl, rfl⟩⟩
  · exact ⟨rfl, ⟨_, rfl⟩, .inl ⟨rfl, rfl⟩⟩

theorem describes_newEntry (hP : P.Sound) (role : Str) (draw : Draw) :
    Describes (newUserInfo P m role (generateApiKey P a u draw.secret) draw.salt)
      (getKeyPrefix (generateApiKey P a u draw.secret))
      (newEntry m a u
        (newUserInfo P m role (generateApiKey P a u draw.secret) draw.salt)) where
  keyPrefix := ((represents_newUserInfo role draw).indexPrefix_eq hP).symm
  keyOrHash := rfl
  isHashed := by
    unfold newEntry newUserInfo
    split_ifs with hhash
    · simp [hhash, isHash_hash hP]
    · simp [hhash, not_isHash_generateApiKey hP]

end Records

/-! ## The operations -/

/-- A program that rejects the operation, or has changed the records as it will say and saves. -/
def Op.Splits (op : Op) (P : Primitives) (m : Manager) (reg : Registry)
    (p : Prog Answer Outcome) : Prop :=
  (∃ error, p = .ret (.error error, m)) ∨
    ∃ m' result, p = op.save m' result ∧ Holds P m' (reg.record op (.ok result)) ∧ op.Effect m m'

section Operations

variable {P : Primitives} {m : Manager} {reg : Registry} {a u : Str}

/-- The record of one user has changed. -/
theorem Holds.assign (h : Holds P m reg) {m' : Manager} {info : Option UserInfo} {c : Option Credential}
    (hheld : ∀ a' u', m'.held a' u' = if a' = a ∧ u' = u then info else m.held a' u')
    (hinfo : Option.Rel (Represents P a u) info c)
    (hindex : IndexSound m'.held m'.prefixIndex) : Holds P m' (reg.assign a u c) := by
  refine ⟨fun a' u' => ?_, hindex⟩
  rw [hheld, Registry.assign]
  split_ifs with hau
  · obtain ⟨rfl, rfl⟩ := hau
    exact hinfo
  · exact h.users a' u'

/-- The records of one account have changed. -/
theorem Holds.replace (h : Holds P m reg) {m' : Manager} (infos : Str → Option UserInfo)
    {users : Str → Option Credential}
    (hheld : ∀ a' u', m'.held a' u' = if a' = a then infos u' else m.held a' u')
    (hinfos : ∀ u, Option.Rel (Represents P a u) (infos u) (users u))
    (hindex : IndexSound m'.held m'.prefixIndex) : Holds P m' (reg.replace a users) := by
  refine ⟨fun a' u' => ?_, hindex⟩
  rw [hheld, Registry.replace]
  split_ifs with ha
  · subst ha
    exact hinfos u'
  · exact h.users a' u'

/-- A user that is there has a key and role. -/
theorem Holds.exists_credential (h : Holds P m reg) {info : UserInfo} (hheld : m.held a u = some info) :
    ∃ c, reg a u = some c ∧ Represents P a u info c := by
  have hrel := h.users a u
  rw [hheld] at hrel
  cases hreg : reg a u with
  | none => simp [hreg] at hrel
  | some c =>
    rw [hreg, Option.rel_some_some] at hrel
    exact ⟨c, rfl, hrel⟩

theorem Holds.eq_none (h : Holds P m reg) (hheld : m.held a u = none) : reg a u = none := by
  have hrel := h.users a u
  rw [hheld] at hrel
  cases hreg : reg a u with
  | none => rfl
  | some c => simp [hreg] at hrel

theorem withUser_splits {op : Op} {body : AccountInfo → UserInfo → Prog Answer Outcome}
    (h : ∀ account info, m.accounts.get a = some account → account.users.get u = some info →
      op.Splits P m reg (body account info)) : op.Splits P m reg (withUser m a u body) := by
  unfold withUser
  cases hget : m.accounts.get a with
  | none => exact .inl ⟨_, rfl⟩
  | some account =>
    dsimp only
    cases huser : account.users.get u with
    | none => exact .inl ⟨_, rfl⟩
    | some info => exact h account info hget huser

theorem effect_of_set {op : Op} (haccepted : op.Accepted m) (hcreates : op.creates = false) (hdeletes : op.deletes = false)
    {account account' : AccountInfo} (hget : m.accounts.get op.account = some account) (index : PrefixIndex) :
    op.Effect m { m with
      accounts := m.accounts.set op.account account'
      prefixIndex := index } where
  accepted := haccepted
  rootKey := rfl
  hashingEnabled := rfl
  others b hb := by simp [hb]
  before := by simp [hget, hcreates]
  after := by simp [hdeletes]

variable (hP : P.Sound)
include hP

section

variable (h : Holds P m reg)

include h

theorem removeUser_splits (a u : Str) : (Op.removeUser a u).Splits P m reg (removeUser m a u) := by
  refine withUser_splits fun account info hget huser => .inr ⟨_, none, rfl, ?_, ?_⟩
  · have hheld : m.held a u = some info := by rw [held_of_get hget, huser]
    obtain ⟨c, -, hinfo⟩ := h.exists_credential hheld
    have hheld' : ∀ a' u', Manager.held { m with
        accounts := m.accounts.set a { account with users := account.users.erase u } } a' u' =
          if a' = a ∧ u' = u then none else m.held a' u' := by
      intro a' u'
      rw [held_set _ rfl]
      by_cases ha : a' = a
      · subst ha
        by_cases hu : u' = u <;> simp [hu, held_of_get hget]
      · simp [ha]
    rw [if_neg (hinfo.key_ne_nil hP)]
    refine h.assign hheld' .none (h.index.dropEntries hheld fun a' u' hne => ?_)
    exact (hheld' a' u').trans (if_neg hne)
  · exact effect_of_set (by simp [Op.Accepted, held_of_get hget, huser]) rfl rfl hget _

theorem registerUser_splits (a u role : Str) (draw : Draw) :
    (Op.registerUser a u role).Splits P m reg (registerUser P m a u role draw) := by
  unfold registerUser
  cases hvalid : validateUserId u with
  | some verr => exact .inl ⟨_, rfl⟩
  | none =>
    cases hget : m.accounts.get a with
    | none => exact .inl ⟨_, rfl⟩
    | some account =>
      dsimp only
      split_ifs with huser
      · exact .inl ⟨_, rfl⟩
      · have hnone : m.held a u = none := by
          rw [held_of_get hget]
          simpa [Dict.contains] using huser
        refine .inr ⟨_, some _, rfl, ?_, ?_⟩
        · have hheld' := held_setUser hget u
            (newUserInfo P m role (generateApiKey P a u draw.secret) draw.salt)
          refine h.assign hheld' (.some (represents_newUserInfo role draw)) ?_
          refine (h.index.of_unindexed (h.index.unindexed hnone) fun a' u' hne => ?_).addEntry ?_
            (describes_newEntry hP role draw)
          · exact (hheld' a' u').trans (if_neg hne)
          · exact (hheld' a u).trans (if_pos ⟨rfl, rfl⟩)
        · rw [setUser_of_get hget]
          have haccepted : (Op.registerUser a u role).Accepted m := ⟨hvalid, by simp [hget], hnone⟩
          exact effect_of_set haccepted rfl rfl hget _

theorem regenerateKey_splits (a u : Str) (draw : Draw) :
    (Op.regenerateKey a u).Splits P m reg (regenerateKey P m a u draw) := by
  refine withUser_splits fun account info hget huser => .inr ⟨_, some _, rfl, ?_, ?_⟩
  · have hheld : m.held a u = some info := by rw [held_of_get hget, huser]
    obtain ⟨c, hreg, hinfo⟩ := h.exists_credential hheld
    have hheld' := held_setUser hget u
      (newUserInfo P m info.role (generateApiKey P a u draw.secret) draw.salt)
    rw [Registry.record, hreg, Option.map_some, ← hinfo.role]
    refine h.assign hheld' (.some (represents_newUserInfo _ draw)) ?_
    refine (h.index.dropEntries hheld fun a' u' hne => ?_).addEntry ?_
      (describes_newEntry hP _ draw)
    · exact (hheld' a' u').trans (if_neg hne)
    · exact (hheld' a u).trans (if_pos ⟨rfl, rfl⟩)
  · rw [setUser_of_get hget]
    exact effect_of_set (by simp [Op.Accepted, held_of_get hget, huser]) rfl rfl hget _

theorem setRole_splits (a u role : Str) : (Op.setRole a u role).Splits P m reg (setRole m a u role) := by
  refine withUser_splits fun account info hget huser => .inr ⟨_, none, rfl, ?_, ?_⟩
  · have hheld : m.held a u = some info := by rw [held_of_get hget, huser]
    obtain ⟨c, hreg, hinfo⟩ := h.exists_credential hheld
    have hheld' := held_setUser hget u { info with role := role }
    rw [Registry.record, hreg, Option.map_some, if_neg (hinfo.key_ne_nil hP)]
    refine h.assign hheld' (.some ⟨rfl, hinfo.issued, hinfo.stored⟩) ?_
    intro p e he
    obtain ⟨e', he', r, rfl⟩ := indexed_setEntryRole he
    obtain ⟨info', hinfo', hdescribes⟩ := h.index p e' he'
    by_cases hau : e'.accountId = a ∧ e'.userId = u
    · obtain ⟨ha, hu⟩ := hau
      rw [ha, hu, hheld] at hinfo'
      obtain rfl := Option.some_inj.1 hinfo'
      exact ⟨_, (hheld' _ _).trans (if_pos ⟨ha, hu⟩), hdescribes.1, hdescribes.2, hdescribes.3⟩
    · exact ⟨info', ((hheld' _ _).trans (if_neg hau)).trans hinfo',
        hdescribes.1, hdescribes.2, hdescribes.3⟩
  · rw [setUser_of_get hget]
    exact effect_of_set (by simp [Op.Accepted, held_of_get hget, huser]) rfl rfl hget _

/-- **An account goes with all its entries.** -/
theorem Holds.discardAccountState (a : Str) :
    Holds P (discardAccountState m a) (reg.replace a fun _ => none) := by
  unfold ApiKeys.discardAccountState
  cases hget : m.accounts.get a with
  | none =>
    refine h.replace (fun _ => none) (fun a' u' => ?_) (fun _ => .none) h.index
    split_ifs with ha
    · subst ha
      exact held_of_get_eq_none hget u'
    · rfl
  | some account =>
    dsimp only
    have hheld' : ∀ a' u', Manager.held { m with accounts := m.accounts.erase a } a' u' =
        if a' = a then none else m.held a' u' := by
      intro a' u'
      by_cases ha : a' = a <;> simp [Manager.held, ha]
    refine h.replace (fun _ => none) hheld' (fun _ => .none) ?_
    intro p e he
    obtain ⟨he, hnot⟩ := indexed_foldl_dropEntries he
    obtain ⟨info, hinfo, hdescribes⟩ := h.index p e he
    refine ⟨info, ((hheld' _ _).trans (if_neg ?_)).trans hinfo, hdescribes⟩
    intro ha
    obtain ⟨c, -, hrepresents⟩ := h.exists_credential hinfo
    rw [ha, held_of_get hget, Dict.get_eq_some_iff] at hinfo
    exact hnot _ hinfo (hrepresents.key_ne_nil hP) ⟨hdescribes.keyPrefix, ha, rfl⟩

end

omit hP in
theorem get_discardAccountState (m : Manager) (a b : Str) :
    (discardAccountState m a).accounts.get b = if b = a then none else m.accounts.get b := by
  unfold discardAccountState
  cases hget : m.accounts.get a with
  | none =>
    by_cases hb : b = a
    · simp [hb, hget]
    · simp [hb]
  | some account => simp

theorem deleteAccount_splits (h : Holds P m reg) (a : Str) :
    (Op.deleteAccount a).Splits P m reg (deleteAccount m a) := by
  unfold deleteAccount
  split_ifs with hget
  · refine .inr ⟨_, none, rfl, h.discardAccountState hP a, ?_⟩
    constructor
    · simpa [Op.Accepted, Dict.contains, Option.isSome_iff_ne_none] using hget
    · unfold discardAccountState
      split <;> rfl
    · unfold discardAccountState
      split <;> rfl
    · intro b hb
      rw [get_discardAccountState]
      exact if_neg hb
    · exact hget
    · simp [get_discardAccountState, Op.account, Op.deletes]
  · exact .inl ⟨_, rfl⟩

theorem createAccount_splits (h : Holds P m reg) (a u : Str) (draw : Draw) :
    (Op.createAccount a u).Splits P m reg (createAccount P m a u draw) := by
  unfold createAccount
  cases hvalid : validateAccountId a with
  | some verr => exact .inl ⟨_, rfl⟩
  | none =>
    cases hvalid' : validateUserId u with
    | some verr => exact .inl ⟨_, rfl⟩
    | none =>
      dsimp only
      split_ifs with hget
      · exact .inl ⟨_, rfl⟩
      · have hnone : m.accounts.get a = none := by simpa [Dict.contains] using hget
        refine .inr ⟨_, some _, rfl, ?_, ?_⟩
        · have hheld' := held_set (m := m) (a := a)
            ({ m with accounts := m.accounts.set a ⟨draw.now, Dict.empty.set u
              (newUserInfo P m "admin".toList (generateApiKey P a u draw.secret) draw.salt)⟩ }) rfl
          refine h.replace _ hheld' (fun u' => ?_) ?_
          · rw [Dict.get_set, Dict.get_empty]
            split_ifs with hu
            · subst hu
              exact .some (represents_newUserInfo _ draw)
            · exact .none
          · have hno := h.index.unindexed (held_of_get_eq_none hnone u)
            refine (h.index.of_unindexed hno fun a' u' hne => ?_).addEntry ?_
              (describes_newEntry hP _ draw)
            · refine (hheld' a' u').trans ?_
              split_ifs with ha
              · subst ha
                rw [held_of_get_eq_none hnone, Dict.get_set, if_neg fun hu => hne ⟨rfl, hu⟩,
                  Dict.get_empty]
              · rfl
            · refine (hheld' a u).trans ?_
              simp
        · exact
            { accepted := ⟨hvalid, hvalid', hnone⟩
              rootKey := rfl
              hashingEnabled := rfl
              others := fun b hb => by simp [show b ≠ a from hb]
              before := by simp [Op.account, Op.creates, hnone]
              after := by simp [Op.account, Op.deletes] }

/-- **An operation is rejected, or changes the records as it will say and saves.** -/
theorem Holds.run_splits (h : Holds P m reg) (op : Op) (draw : Draw) :
    op.Splits P m reg (op.run P m draw) := by
  cases op with
  | createAccount a u => exact createAccount_splits hP h a u draw
  | deleteAccount a => exact deleteAccount_splits hP h a
  | registerUser a u role => exact registerUser_splits hP h a u role draw
  | removeUser a u => exact removeUser_splits hP h a u
  | regenerateKey a u => exact regenerateKey_splits hP h a u draw
  | setRole a u role => exact setRole_splits hP h a u role

end Operations

end OpenViking.ApiKeys
