import OpenViking.ApiKeys.Loading

/-!
# What the saves of an operation leave behind

An operation changes the memory first and then saves one file, or for a new account two, with a
rollback.  Each save that succeeds writes what the memory has.

* `Op.save_succeeds`: the saves of an operation, when none fails;
* `Op.save_play`: the saves of an operation, when some fail or it is cut off.
-/

namespace OpenViking.ApiKeys

open Fs (Str validateAccountId validateUserId)

/-! ## One save -/

section Save

variable {P : Primitives} {reg reg' : Registry} {m m' : Manager} {files : Files} {a : Str}

theorem contains_createdAt (m : Manager) (b : Str) : m.createdAt.contains b = m.accounts.contains b := by
  simp [Dict.contains, Manager.createdAt]

theorem held_saveAccounts (b u : Str) :
    Files.held (files.set accountsPath (.accounts m.createdAt)) b u =
      if m.accounts.contains b then (Files.usersOf files b).get u else none := by
  rw [Files.held, accounts_set_accountsPath, usersOf_set_accountsPath, Document.accountsData,
    contains_createdAt]

/-- A user that the memory does not have is not in the registry. -/
theorem Holds.eq_none_of_contains (h : Holds P m reg) (hnot : ¬ m.accounts.contains a = true)
    (u : Str) : reg a u = none :=
  h.eq_none (held_of_get_eq_none (by simpa [Dict.contains] using hnot) u)

/-- **The account list is saved**; the users that it opens are those of the registry. -/
theorem Holds.backed_saveAccounts (h : Holds P m reg) (husers : ∀ b, m.accounts.contains b = true →
      ∀ u, Option.Rel (Represents P b u) ((Files.usersOf files b).get u) (reg b u)) :
    Backed P reg m (files.set accountsPath (.accounts m.createdAt)) where
  stored :=
    { users := fun b u => by
        rw [held_saveAccounts]
        split_ifs with hcontains
        · exact husers b hcontains u
        · rw [h.eq_none_of_contains hcontains]
          exact .none
      fresh := fun hnone => by simp at hnone }
  listed := by simp
  accounts b hb := by rwa [accounts_set_accountsPath, Document.accountsData, contains_createdAt]

/-- **The users of one account are saved.** -/
theorem Holds.backed_saveUsers (h : Holds P m reg) (hlisted : files.get accountsPath ≠ none)
    (haccounts : ∀ b, m.accounts.contains b = true → (Files.accounts files).contains b = true)
    (husers : ∀ b, b ≠ a → ∀ u, Option.Rel (Represents P b u) (Files.held files b u) (reg b u))
    {account : AccountInfo} (hget : m.accounts.get a = some account) :
    Backed P reg m (files.set (usersPath a) (.users account.users)) where
  stored :=
    { users := fun b u => by
        rw [Files.held, accounts_set_usersPath, usersOf_set_usersPath]
        by_cases hb : b = a
        · subst hb
          rw [if_pos (haccounts b (by rw [Dict.contains, hget]; rfl)), if_pos rfl,
            Document.usersData, ← held_of_get hget]
          exact h.users b u
        · rw [if_neg hb]
          exact husers b hb u
      fresh := fun hnone => by
        rw [listed_set_usersPath] at hnone
        exact absurd hnone hlisted }
  listed := by rwa [listed_set_usersPath]
  accounts b hb := by
    rw [accounts_set_usersPath]
    exact haccounts b hb

end Save

/-! ## The saves of an operation -/

section Saves

variable {P : Primitives} {reg : Registry} {op : Op} {m m' : Manager} {files : Files} {a u : Str}

theorem Op.Effect.contains_other (h : op.Effect m m') {b : Str} (hb : b ≠ op.account) :
    m'.accounts.contains b = m.accounts.contains b := by
  rw [Dict.contains, Dict.contains, h.others b hb]

theorem Op.Effect.exists_account (h : op.Effect m m') (hdeletes : op.deletes = false) :
    ∃ account, m'.accounts.get op.account = some account := by
  rw [← Option.isSome_iff_exists, h.after, hdeletes]
  rfl

variable {r : Except ApiError (Option Str)}

/-- The users of the other accounts are as they were. -/
theorem Op.Effect.users_other (h : op.Effect m m') (hbacked : Backed P reg m files)
    {b : Str} (hb : b ≠ op.account) (hcontains : m'.accounts.contains b = true) (u : Str) :
    Option.Rel (Represents P b u) ((Files.usersOf files b).get u) (reg.record op r b u) := by
  rw [Registry.record_other reg r hb]
  exact hbacked.users (by rwa [← h.contains_other hb]) u

/-- The users of an account are saved, when the account was there. -/
theorem Op.Effect.backed_saveUsers (h : op.Effect m m') (hbacked : Backed P reg m files)
    (hholds : Holds P m' (reg.record op r)) (hcreates : op.creates = false) {account : AccountInfo}
    (hget : m'.accounts.get op.account = some account) :
    Backed P (reg.record op r) m' (files.set (usersPath op.account) (.users account.users)) := by
  refine hholds.backed_saveUsers hbacked.listed (fun b hb => ?_) (fun b hb u => ?_) hget
  · by_cases hb' : b = op.account
    · refine hbacked.accounts b ?_
      rw [hb', Dict.contains, h.before, hcreates]
      rfl
    · exact hbacked.accounts b (by rwa [← h.contains_other hb'])
  · rw [Registry.record_other reg r hb]
    exact hbacked.stored.users b u

/-- A new account is saved. -/
theorem Op.Effect.backed_saveNew (h : (Op.createAccount a u).Effect m m') (hbacked : Backed P reg m files)
    (hholds : Holds P m' (reg.record (.createAccount a u) r)) {account : AccountInfo}
    (hget : m'.accounts.get a = some account) :
    Backed P (reg.record (.createAccount a u) r) m'
      ((files.set accountsPath (.accounts m'.createdAt)).set (usersPath a)
        (.users account.users)) := by
  refine hholds.backed_saveUsers (by simp) (fun b hb => ?_) (fun b hb u' => ?_) hget
  · rwa [accounts_set_accountsPath, Document.accountsData, contains_createdAt]
  · rw [held_saveAccounts]
    split_ifs with hcontains
    · exact h.users_other hbacked hb hcontains u'
    · rw [hholds.eq_none_of_contains hcontains]
      exact .none

/-- An account is deleted from the list. -/
theorem Op.Effect.backed_saveDeleted (h : (Op.deleteAccount a).Effect m m') (hbacked : Backed P reg m files)
    (hholds : Holds P m' (reg.record (.deleteAccount a) r)) :
    Backed P (reg.record (.deleteAccount a) r) m'
      (files.set accountsPath (.accounts m'.createdAt)) := by
  refine hholds.backed_saveAccounts fun b hb u => ?_
  refine h.users_other hbacked (fun hba => ?_) hb u
  have hafter := h.after
  rw [← hba, ← Dict.contains, hb] at hafter
  cases hafter

/-- **The saves of an operation, when none fails.** -/
theorem Op.save_succeeds (hbacked : Backed P reg m files) (h : op.Effect m m')
    {result : Option Str} (hholds : Holds P m' (reg.record op (.ok result))) :
    ∃ files', (op.save m' result).eval exec 0 files = some ((.ok result, m'), files') ∧
      Backed P (reg.record op (.ok result)) m' files' := by
  have hother : op.creates = false → op.deletes = false →
      ∃ files', (saveAndReturn m' op.account result).eval exec 0 files =
        some ((.ok result, m'), files') ∧ Backed P (reg.record op (.ok result)) m' files' := by
    intro hcreates hdeletes
    obtain ⟨account, hget⟩ := h.exists_account hdeletes
    refine ⟨_, ?_, h.backed_saveUsers hbacked hholds hcreates hget⟩
    rw [saveAndReturn, saveUsersJson_of_get hget]
    rfl
  cases op with
  | createAccount a u =>
    obtain ⟨account, hget⟩ := h.exists_account rfl
    replace hget : m'.accounts.get a = some account := hget
    refine ⟨_, ?_, h.backed_saveNew hbacked hholds hget⟩
    show (saveNewAccount m' a result).eval exec 0 files = _
    rw [saveNewAccount, saveUsersJson_of_get hget]
    rfl
  | deleteAccount a => exact ⟨_, rfl, h.backed_saveDeleted hbacked hholds⟩
  | registerUser a u role | removeUser a u | regenerateKey a u | setRole a u role => exact hother rfl rfl

/-! ## Saves that fail -/

/-- The first save raises. -/
def firstFails : List ℕ → Bool
  | (_ + 1) :: _ => true
  | _ => false

/-- The account list is saved, and then neither the users nor the rollback. -/
def leavesListed : List ℕ → Bool
  | [0] => true
  | [0, _ + 1] => true
  | 0 :: (_ + 1) :: (_ + 1) :: _ => true
  | _ => false

/-- The call is rejected before its saves, or the saves that fail do no harm: the first one does not
fail, unless the operation changes nothing for any user; and where only the account list is saved,
no users are left over in the file of an earlier account. -/
def Op.Harmless (op : Op) (m : Manager) (files : Files) (saves : List ℕ) : Prop :=
  op.Accepted m →
    match op with
    | createAccount a _ => leavesListed saves = true → ∀ u, (Files.usersOf files a).get u = none
    | deleteAccount a => firstFails saves = true → ∀ u, m.held a u = none
    | setRole a u role =>
      firstFails saves = true → ∀ info, m.held a u = some info → info.role = role
    | _ => firstFails saves = false

/-- The memory and the files after an operation, or the files when it was cut off. -/
def Consistent (P : Primitives) (reg : Registry) (op : Op) (m : Manager) :
    Option Outcome × Files → Prop
  | (some (r, m'), files) =>
    Holds P m' (reg.record op r) ∧ Backed P (reg.record op r) m' files ∧ m'.rootKey = m.rootKey
  | (none, files) => Stored P reg files

/-- An account that is listed, and has no users in its file, changes nothing. -/
theorem Op.Effect.stored_listed (h : (Op.createAccount a u).Effect m m')
    (hholds : Holds P m reg) (hbacked : Backed P reg m files)
    (husers : ∀ u, (Files.usersOf files a).get u = none) :
    Stored P reg (files.set accountsPath (.accounts m'.createdAt)) where
  users b u' := by
    rw [held_saveAccounts]
    by_cases hb : b = a
    · subst hb
      have hbefore : m.accounts.contains b = false := h.before
      rw [husers, ite_self, hholds.eq_none_of_contains (by simp [hbefore])]
      exact .none
    · split_ifs with hcontains
      · exact hbacked.users (by rwa [← h.contains_other hb]) u'
      · rw [hholds.eq_none_of_contains (by rwa [← h.contains_other hb])]
        exact .none
  fresh hnone := by simp at hnone

/-! ## What a failed save has changed -/

theorem Holds.record_setRole (h : Holds P m reg) {role : Str}
    (hrole : ∀ info, m.held a u = some info → info.role = role) (result : Option Str) :
    reg.record (.setRole a u role) (.ok result) = reg := by
  funext a' u'
  rw [Registry.record, Registry.assign]
  split_ifs with hau
  · obtain ⟨rfl, rfl⟩ := hau
    cases hheld : m.held a' u' with
    | none => rw [h.eq_none hheld, Option.map_none]
    | some info =>
      obtain ⟨c, hreg, hinfo⟩ := h.exists_credential hheld
      rw [hreg, Option.map_some, ← hrole info hheld, hinfo.role]
  · rfl

theorem Registry.replace_none (hnone : ∀ u, reg a u = none) : reg.replace a (fun _ => none) = reg := by
  funext a' u'
  rw [Registry.replace]
  split_ifs with ha
  · rw [ha, hnone]
  · rfl

theorem Registry.replace_record_createAccount (hnone : ∀ u, reg a u = none)
    (r : Except ApiError (Option Str)) :
    (reg.record (.createAccount a u) r).replace a (fun _ => none) = reg := by
  funext a' u'
  rw [Registry.replace]
  split_ifs with ha
  · rw [ha, hnone]
  · exact Registry.record_other reg r ha u'

/-- A save that fails leaves the files as they were. -/
theorem Op.Effect.backed_still (h : op.Effect m m') (hbacked : Backed P reg m files)
    (hcreates : op.creates = false) : Backed P reg m' files := by
  refine ⟨hbacked.stored, hbacked.listed, fun b hb => hbacked.accounts b ?_⟩
  by_cases hb' : b = op.account
  · rw [hb', Dict.contains, h.before, hcreates]
    rfl
  · rwa [← h.contains_other hb']

variable (hP : P.Sound) (hholds : Holds P m reg) (hbacked : Backed P reg m files)
include hP hholds hbacked

/-- The rollback takes the new account out of the memory, and out of the list if it is saved. -/
theorem Op.Effect.rollback_play (h : (Op.createAccount a u).Effect m m')
    (hholds' : Holds P m' (reg.record (.createAccount a u) r))
    {files' : Files} (husers : ∀ b, Files.usersOf files' b = Files.usersOf files b) {saves : List ℕ}
    (hstored : saves.head? ≠ some 0 → Stored P reg files' ∧ files'.get accountsPath ≠ none ∧
      ∀ b, b ≠ a → m.accounts.contains b = true → (Files.accounts files').contains b = true)
    (error : ApiError) :
    Consistent P reg (.createAccount a u) m
      ((rollbackCreateAccount m' a error).play exec saves files') := by
  have hnone : ∀ u, reg a u = none := by
    refine hholds.eq_none_of_contains ?_
    have hbefore : m.accounts.contains a = false := h.before
    simp [hbefore]
  have hrolled := hholds'.discardAccountState hP a
  rw [Registry.replace_record_createAccount hnone] at hrolled
  have hroot : (discardAccountState m' a).rootKey = m.rootKey := by
    rw [← h.rootKey]
    unfold discardAccountState
    split <;> rfl
  have hcontains : ∀ b, (discardAccountState m' a).accounts.contains b = true →
      b ≠ a ∧ m.accounts.contains b = true := by
    intro b hb
    rw [Dict.contains, get_discardAccountState] at hb
    by_cases hba : b = a
    · rw [if_pos hba] at hb
      cases hb
    · rw [if_neg hba, ← Dict.contains, h.contains_other hba] at hb
      exact ⟨hba, hb⟩
  cases saves with
  | nil => exact (hstored (by simp)).1
  | cons n saves =>
    cases n with
    | zero =>
      refine ⟨hrolled, hrolled.backed_saveAccounts fun b hb u' => ?_, hroot⟩
      rw [husers]
      exact hbacked.users (hcontains b hb).2 u'
    | succ n =>
      obtain ⟨hstored, hlisted, haccounts⟩ := hstored (by simp)
      exact ⟨hrolled, ⟨hstored, hlisted, fun b hb =>
        haccounts b (hcontains b hb).1 (hcontains b hb).2⟩, hroot⟩

/-- **The saves of an operation, when those that fail do no harm.** -/
theorem Op.save_play (h : op.Effect m m') {result : Option Str}
    (hholds' : Holds P m' (reg.record op (.ok result))) {saves : List ℕ}
    (hharmless : op.Harmless m files saves) :
    Consistent P reg op m ((op.save m' result).play exec saves files) := by
  have hother : op.creates = false → op.deletes = false →
      (firstFails saves = true → reg.record op (.ok result) = reg) →
      Consistent P reg op m ((saveAndReturn m' op.account result).play exec saves files) := by
    intro hcreates hdeletes hsame
    obtain ⟨account, hget⟩ := h.exists_account hdeletes
    rw [saveAndReturn, saveUsersJson_of_get hget]
    cases saves with
    | nil => exact hbacked.stored
    | cons n saves =>
      cases n with
      | zero => exact ⟨hholds', h.backed_saveUsers hbacked hholds' hcreates hget, h.rootKey⟩
      | succ n =>
        refine ⟨?_, ?_, h.rootKey⟩
        · rw [Registry.record_error, ← hsame rfl]
          exact hholds'
        · rw [Registry.record_error]
          exact h.backed_still hbacked hcreates
  have hfails : ∀ {p : Prop}, firstFails saves = false → firstFails saves = true → p := by
    intro p hfalse htrue
    rw [hfalse] at htrue
    cases htrue
  replace hharmless := hharmless h.accepted
  cases op with
  | registerUser a u role | removeUser a u | regenerateKey a u => exact hother rfl rfl (hfails hharmless)
  | setRole a u role =>
    exact hother rfl rfl fun hfirst => hholds.record_setRole (hharmless hfirst) result
  | deleteAccount a =>
    cases saves with
    | nil => exact hbacked.stored
    | cons n saves =>
      cases n with
      | zero => exact ⟨hholds', h.backed_saveDeleted hbacked hholds', h.rootKey⟩
      | succ n =>
        have hsame : reg.record (.deleteAccount a) (.ok result) = reg :=
          Registry.replace_none fun u => hholds.eq_none (hharmless rfl u)
        rw [hsame] at hholds'
        exact ⟨hholds', h.backed_still hbacked rfl, h.rootKey⟩
  | createAccount a u =>
    obtain ⟨account, hget⟩ := h.exists_account rfl
    replace hget : m'.accounts.get a = some account := hget
    show Consistent P reg (.createAccount a u) m ((saveNewAccount m' a result).play exec saves files)
    rw [saveNewAccount, saveUsersJson_of_get hget]
    -- the list is saved or not; then the users are, or the rollback has to undo the rest
    cases saves with
    | nil => exact hbacked.stored
    | cons n saves =>
      cases n with
      | succ n =>
        exact h.rollback_play hP hholds hbacked hholds' (fun _ => rfl)
          (fun _ => ⟨hbacked.stored, hbacked.listed, fun b _ => hbacked.accounts b⟩) .saveFailed
      | zero =>
        cases saves with
        | nil => exact h.stored_listed hholds hbacked (hharmless rfl)
        | cons n saves =>
          cases n with
          | zero => exact ⟨hholds', h.backed_saveNew hbacked hholds' hget, h.rootKey⟩
          | succ n =>
            have husers : ∀ b, Files.usersOf (files.set accountsPath (.accounts m'.createdAt)) b =
                Files.usersOf files b := fun _ => usersOf_set_accountsPath _
            refine h.rollback_play hP hholds hbacked hholds' husers (fun hhead => ?_) .saveFailed
            have hleaves : leavesListed (0 :: (n + 1) :: saves) = true := by
              cases saves with
              | nil => rfl
              | cons k saves =>
                cases k with
                | zero => exact absurd rfl hhead
                | succ k => rfl
            refine ⟨h.stored_listed hholds hbacked (hharmless hleaves), by simp, fun b hb hcontains => ?_⟩
            rw [accounts_set_accountsPath, Document.accountsData, contains_createdAt,
              h.contains_other hb]
            exact hcontains

end Saves

end OpenViking.ApiKeys
