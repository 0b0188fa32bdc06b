import OpenViking.Session.Retention

/-!
# Pending tokens

The counter of the tokens that the next commit archives (`session/session.py`): `_rebuild_pending_tokens`
(643-679) computes it, `_apply_appended_messages_to_state` (1189-1212) adds to it and `commit_async` (1649-1930)
sets it to zero.  A commit reads the messages and the metadata anew under its lock; what it reads, and how it
moves large tool outputs out of the messages of a turn, are parameters, as are the archives that exist.

Results:

* `synced_applyAppendedMessages`, `synced_commitAsync`: the counter stays what would be computed;
* `run_synced`: after every sequence of them.
-/

namespace OpenViking.Session

/-! ## The state -/

/-- `SessionMeta`, as far as these functions use it. -/
structure SessionMeta where
  messageCount : ℕ
  totalMessageCount : Option ℕ
  commitCount : ℕ
  pendingTokens : ℕ
  keepRecentCount : ℤ
  retentionMode : String
  keepRecentTurnCount : ℤ
  retainedMessageTokenBudget : ℤ
  minRawTailSteps : ℤ

/-- `SessionStats`, as far as these functions use it. -/
structure SessionStats where
  totalTurns : ℕ
  totalTokens : ℕ

/-- The state of a `Session`. -/
structure SessionState where
  messages : List Message
  metadata : SessionMeta
  stats : SessionStats
  compressionIndex : ℕ

/-- `RETENTION_MODE_TURN_BUDGET`. -/
def turnBudgetMode : String := "turn_budget"

/-! ## Counting -/

/-- The tokens of the messages outside the last `keep`. -/
def pendingOutside (messages : List Message) (keepRecentCount : ℤ) : ℕ :=
  let keep := keepRecentCount.toNat
  if keep = 0 then messageTokens id messages
  else if keep < messages.length then messageTokens id (messages.take (messages.length - keep))
  else 0

/-- The tokens of the messages that the plan archives and does not retain. -/
def pendingArchived (plan : RetentionPlan Message) : ℕ :=
  messageTokens id (plan.archiveMessages.filter fun message =>
    message.id ∉ plan.retainedMessages.map Message.id)

/-- What `_rebuild_pending_tokens` computes. -/
def pendingTokensOf (messages : List Message) (metadata : SessionMeta) : ℕ :=
  if metadata.retentionMode = turnBudgetMode ∧ 0 < metadata.keepRecentTurnCount ∧
      0 < metadata.retainedMessageTokenBudget then
    pendingArchived (planRetention id messages metadata.keepRecentTurnCount
      metadata.retainedMessageTokenBudget metadata.minRawTailSteps)
  else pendingOutside messages metadata.keepRecentCount

namespace SessionState

/-- `_rebuild_pending_tokens` (643-679). -/
def rebuildPendingTokens (state : SessionState) : SessionState :=
  { state with metadata :=
      { state.metadata with pendingTokens := pendingTokensOf state.messages state.metadata } }

/-- The loop of `_apply_appended_messages_to_state` (1191-1204). -/
def applyMessage (state : SessionState) (message : Message) : SessionState :=
  let messages := state.messages ++ [message]
  let keep := state.metadata.keepRecentCount
  let pushed :=
    if state.metadata.retentionMode = turnBudgetMode then 0
    else if keep ≤ 0 then message.estimatedTokens
    else if keep < messages.length then
      ((messages[messages.length - (keep.toNat + 1)]?).map Message.estimatedTokens).getD 0
    else 0
  { state with
    messages
    stats := {
      totalTurns := state.stats.totalTurns + if isUserQuery message then 1 else 0
      totalTokens := state.stats.totalTokens + message.estimatedTokens }
    metadata := { state.metadata with pendingTokens := state.metadata.pendingTokens + pushed } }

/-- `_apply_appended_messages_to_state` (1189-1212). -/
def applyAppendedMessages (state : SessionState) (messages : List Message) : SessionState :=
  let applied := messages.foldl applyMessage state
  let counted :=
    if applied.metadata.retentionMode = turnBudgetMode then applied.rebuildPendingTokens else applied
  { counted with metadata := { counted.metadata with
      messageCount := counted.messages.length
      totalMessageCount := counted.metadata.totalMessageCount.map (· + messages.length) } }

end SessionState

/-! ## Commits -/

/-- The arguments of `commit_async`. -/
structure CommitArgs where
  keepRecentCount : ℤ
  retentionMode : Option String
  keepRecentTurnCount : Option ℤ
  retainedMessageTokenBudget : Option ℤ
  minRawTailSteps : Option ℤ

/-- What a commit finds in the store, and what it does to the tool outputs of a turn. -/
structure CommitStore where
  liveMessages : List Message
  metadata : Option SessionMeta
  archiveIndexes : List ℕ
  externalize : List Message → List Message

/-- `ValueError` with its text. -/
inductive CommitError where
  | valueError (text : String)
  deriving DecidableEq

/-- `_remember_retention_policy` (1405-1420). -/
def SessionMeta.rememberRetentionPolicy (metadata : SessionMeta) (keepRecentCount : ℤ)
    (retentionMode : Option String) (keepRecentTurnCount retainedMessageTokenBudget minRawTailSteps : ℤ) :
    SessionMeta :=
  { metadata with
    keepRecentCount
    retentionMode := retentionMode.getD ""
    keepRecentTurnCount
    retainedMessageTokenBudget
    minRawTailSteps }

/-- The messages that a commit archives and retains (1801-1822). -/
def splitMessages (externalize : List Message → List Message) (messages : List Message) (turnMode : Bool)
    (keepRecentCount keepRecentTurnCount tokenBudget minRawTailSteps : ℤ) :
    List Message × List Message :=
  if turnMode then
    let externalized := (buildTurns id messages).flatMap fun turn => externalize turn.messages
    let plan := planRetention id externalized keepRecentTurnCount tokenBudget minRawTailSteps
    (plan.archiveMessages, plan.retainedMessages)
  else if 0 < keepRecentCount then
    let splitIdx := messages.length - keepRecentCount.toNat
    (messages.take splitIdx, messages.drop splitIdx)
  else (messages, [])

/-- The state that a successful `commit_async` (1649-1930) leaves. -/
def SessionState.commitAsync (state : SessionState) (store : CommitStore) (args : CommitArgs) :
    Except CommitError SessionState :=
  let keepRecentCount := max 0 args.keepRecentCount
  if args.retentionMode ≠ none ∧ args.retentionMode ≠ some turnBudgetMode then
    .error (.valueError ("Unsupported retention_mode: " ++ args.retentionMode.getD "None"))
  else if args.retentionMode = none ∧ (args.keepRecentTurnCount.isSome ||
      args.retainedMessageTokenBudget.isSome || args.minRawTailSteps.isSome) then
    .error (.valueError "retention_mode='turn_budget' is required when Turn retention fields are set")
  else
    let turnMode := decide (args.retentionMode = some turnBudgetMode)
    let keepTurns := max 0 (args.keepRecentTurnCount.getD 3)
    let tokenBudget := max 0 (args.retainedMessageTokenBudget.getD 12000)
    let minTail := max 0 (args.minRawTailSteps.getD 1)
    if turnMode ∧ tokenBudget ≤ 0 then
      .error (.valueError "retained_message_token_budget must be greater than 0")
    else
      let metadata := (store.metadata.getD state.metadata).rememberRetentionPolicy keepRecentCount
        args.retentionMode (if turnMode then keepTurns else 0) (if turnMode then tokenBudget else 0) minTail
      let compressionIndex := store.archiveIndexes.foldl max 0
      if store.liveMessages.isEmpty then
        .ok { state with
          messages := store.liveMessages
          metadata := { metadata with pendingTokens := 0 }
          compressionIndex }
      else
        let split := splitMessages store.externalize store.liveMessages turnMode keepRecentCount keepTurns
          tokenBudget minTail
        if split.1.isEmpty then
          .ok { state with
            messages := split.2
            metadata := { metadata with pendingTokens := 0, messageCount := store.liveMessages.length }
            compressionIndex }
        else
          .ok { state with
            messages := split.2
            metadata := { metadata with
              pendingTokens := 0
              messageCount := split.2.length
              commitCount := max metadata.commitCount (compressionIndex + 1) }
            compressionIndex := compressionIndex + 1 }

/-- A call to a session. -/
inductive SessionCall where
  | append (messages : List Message)
  | commit (store : CommitStore) (args : CommitArgs)

/-- A call, which leaves the state as it is when it raises. -/
def SessionState.call (state : SessionState) : SessionCall → SessionState
  | .append messages => state.applyAppendedMessages messages
  | .commit store args =>
    match state.commitAsync store args with
    | .ok state => state
    | .error _ => state

/-! ## The counter -/

/-- The stored counter is what would be computed. -/
def Synced (state : SessionState) : Prop :=
  state.metadata.pendingTokens = pendingTokensOf state.messages state.metadata

theorem synced_rebuildPendingTokens (state : SessionState) : Synced state.rebuildPendingTokens := rfl

section Append

variable {state : SessionState}

variable (messages : List Message)

/-- One message more pushes one message out of the window. -/
theorem pendingOutside_concat (message : Message) (keep : ℤ) :
    pendingOutside (messages ++ [message]) keep = pendingOutside messages keep +
      if keep ≤ 0 then message.estimatedTokens
      else if keep < (messages ++ [message]).length then
        (((messages ++ [message])[(messages ++ [message]).length - (keep.toNat + 1)]?).map
          Message.estimatedTokens).getD 0
      else 0 := by
  unfold pendingOutside
  dsimp only
  rw [List.length_append, List.length_singleton]
  by_cases hkeep : keep ≤ 0
  · have hzero : keep.toNat = 0 := by omega
    rw [if_pos hzero, if_pos hzero, if_pos hkeep, messageTokens_append]
    rfl
  · have hpos : keep.toNat ≠ 0 := by omega
    rw [if_neg hpos, if_neg hpos, if_neg hkeep]
    by_cases hlong : keep.toNat < messages.length + 1
    · have hlong' : keep < ((messages.length + 1 : ℕ) : ℤ) := by omega
      have hplace : messages.length + 1 - (keep.toNat + 1) = messages.length - keep.toNat := by omega
      have hnext : messages.length + 1 - keep.toNat = messages.length - keep.toNat + 1 := by omega
      have htake : (messages ++ [message]).take (messages.length - keep.toNat) =
          messages.take (messages.length - keep.toNat) := List.take_append_of_le_length (Nat.sub_le _ _)
      have hone : ∀ pushedOut : Option Message,
          messageTokens id pushedOut.toList = (pushedOut.map Message.estimatedTokens).getD 0 := by
        intro pushedOut
        cases pushedOut with
        | none => rfl
        | some pushedOut => rfl
      rw [if_pos hlong, if_pos hlong', hplace, hnext, List.take_add_one, messageTokens_append, htake, hone]
      by_cases hfull : keep.toNat < messages.length
      · rw [if_pos hfull]
      · have hzero : messages.length - keep.toNat = 0 := by omega
        rw [if_neg hfull, hzero]
        rfl
    · have hlong' : ¬ keep < ((messages.length + 1 : ℕ) : ℤ) := by omega
      have hfull : ¬ keep.toNat < messages.length := by omega
      rw [if_neg hlong, if_neg hlong', if_neg hfull]

theorem synced_applyMessage (hmode : state.metadata.retentionMode ≠ turnBudgetMode) (h : Synced state)
    (message : Message) : Synced (state.applyMessage message) := by
  have hold : state.metadata.pendingTokens = pendingOutside state.messages state.metadata.keepRecentCount := by
    rw [h, pendingTokensOf, if_neg fun hturn => hmode hturn.1]
  show (state.applyMessage message).metadata.pendingTokens = _
  rw [pendingTokensOf, if_neg fun hturn => hmode hturn.1]
  show _ = pendingOutside (state.messages ++ [message]) state.metadata.keepRecentCount
  rw [pendingOutside_concat, ← hold]
  unfold SessionState.applyMessage
  dsimp only
  rw [if_neg hmode]

theorem retentionMode_foldl (state : SessionState) :
    (messages.foldl SessionState.applyMessage state).metadata.retentionMode = state.metadata.retentionMode := by
  induction messages generalizing state with
  | nil => rfl
  | cons message messages ih => exact ih (state.applyMessage message)

theorem synced_foldl (hmode : state.metadata.retentionMode ≠ turnBudgetMode)
    (h : Synced state) : Synced (messages.foldl SessionState.applyMessage state) := by
  induction messages generalizing state with
  | nil => exact h
  | cons message messages ih => exact ih hmode (synced_applyMessage hmode h message)

theorem synced_applyAppendedMessages (h : Synced state) (messages : List Message) :
    Synced (state.applyAppendedMessages messages) := by
  have hmode := retentionMode_foldl messages state
  unfold SessionState.applyAppendedMessages
  dsimp only
  split_ifs with hturn
  · exact synced_rebuildPendingTokens (messages.foldl SessionState.applyMessage state)
  · rw [hmode] at hturn
    exact synced_foldl messages hturn h

end Append

section Commit

theorem pendingArchived_eq_zero {plan : RetentionPlan Message} (h : plan.archiveMessages = []) :
    pendingArchived plan = 0 := by
  rw [pendingArchived, h]
  rfl

theorem pendingTokensOf_nil (metadata : SessionMeta) : pendingTokensOf [] metadata = 0 := by
  unfold pendingTokensOf
  split_ifs
  · exact pendingArchived_eq_zero (planRetention_fits rfl (Nat.zero_le _) (Nat.zero_le _) _)
  · unfold pendingOutside
    simp

/-- What a commit retains is within the window that it remembers. -/
theorem pendingTokensOf_splitMessages (externalize : List Message → List Message) (messages : List Message)
    {metadata : SessionMeta} {turnMode : Bool} {keepRecentCount keepTurns tokenBudget minTail : ℤ}
    (hmode : metadata.retentionMode = turnBudgetMode ↔ turnMode = true)
    (hcount : metadata.keepRecentCount = keepRecentCount)
    (hpolicy : turnMode = true → metadata.keepRecentTurnCount = keepTurns ∧
      metadata.retainedMessageTokenBudget = tokenBudget ∧ metadata.minRawTailSteps = minTail)
    (hbudget : turnMode = true → 0 < tokenBudget) :
    pendingTokensOf
      (splitMessages externalize messages turnMode keepRecentCount keepTurns tokenBudget minTail).2 metadata = 0 := by
  cases turnMode with
  | true =>
    obtain ⟨hturns, htokens, htail⟩ := hpolicy rfl
    by_cases hkeep : 0 < keepTurns
    · rw [pendingTokensOf, hturns, htokens, htail, if_pos ⟨hmode.2 rfl, hkeep, hbudget rfl⟩]
      exact pendingArchived_eq_zero (planRetention_again id _ keepTurns tokenBudget minTail)
    · -- no turn is kept, so that nothing stays
      have hnone : (splitMessages externalize messages true keepRecentCount keepTurns tokenBudget minTail).2 = [] := by
        unfold splitMessages planRetention
        dsimp only
        rw [if_pos rfl, if_pos (by simp; omega)]
      rw [hnone]
      exact pendingTokensOf_nil metadata
  | false =>
    have hnot : metadata.retentionMode ≠ turnBudgetMode := fun h => Bool.false_ne_true (hmode.1 h)
    rw [pendingTokensOf, if_neg fun h => hnot h.1, hcount]
    unfold splitMessages
    rw [if_neg Bool.false_ne_true]
    by_cases hkeep : 0 < keepRecentCount
    · have hpos : keepRecentCount.toNat ≠ 0 := by omega
      have hshort : ¬ keepRecentCount.toNat < (messages.drop (messages.length - keepRecentCount.toNat)).length := by
        rw [List.length_drop]
        omega
      rw [if_pos hkeep]
      show pendingOutside (messages.drop (messages.length - keepRecentCount.toNat)) keepRecentCount = 0
      unfold pendingOutside
      rw [if_neg hpos, if_neg hshort]
    · rw [if_neg hkeep]
      show pendingOutside [] keepRecentCount = 0
      unfold pendingOutside
      simp

/-- The mode that is remembered is the mode of the commit. -/
theorem remembered_mode {retentionMode : Option String}
    (h : ¬ (retentionMode ≠ none ∧ retentionMode ≠ some turnBudgetMode)) :
    retentionMode.getD "" = turnBudgetMode ↔ decide (retentionMode = some turnBudgetMode) = true := by
  rw [decide_eq_true_iff]
  cases retentionMode with
  | none => decide
  | some mode => simp

theorem synced_commitAsync {state state' : SessionState} {store : CommitStore} {args : CommitArgs}
    (h : state.commitAsync store args = .ok state') : Synced state' := by
  unfold SessionState.commitAsync at h
  dsimp only at h
  by_cases hmode : args.retentionMode ≠ none ∧ args.retentionMode ≠ some turnBudgetMode
  · rw [if_pos hmode] at h
    cases h
  rw [if_neg hmode] at h
  have hremembered := remembered_mode hmode
  generalize decide (args.retentionMode = some turnBudgetMode) = turnMode at h hremembered
  split at h
  · cases h
  by_cases hbudget : turnMode = true ∧ max 0 (args.retainedMessageTokenBudget.getD 12000) ≤ 0
  · rw [if_pos hbudget] at h
    cases h
  rw [if_neg hbudget] at h
  have hpositive : turnMode = true → 0 < max 0 (args.retainedMessageTokenBudget.getD 12000) := fun hturn =>
    lt_of_not_ge fun hle => hbudget ⟨hturn, hle⟩
  by_cases hlive : store.liveMessages.isEmpty = true
  · rw [if_pos hlive] at h
    obtain rfl := Except.ok.inj h
    show 0 = pendingTokensOf store.liveMessages _
    rw [List.isEmpty_iff.1 hlive, pendingTokensOf_nil]
  rw [if_neg hlive] at h
  split at h
  · obtain rfl := Except.ok.inj h
    refine (pendingTokensOf_splitMessages _ _ hremembered rfl (fun hturn => ?_) hpositive).symm
    exact ⟨if_pos hturn, if_pos hturn, rfl⟩
  · obtain rfl := Except.ok.inj h
    refine (pendingTokensOf_splitMessages _ _ hremembered rfl (fun hturn => ?_) hpositive).symm
    exact ⟨if_pos hturn, if_pos hturn, rfl⟩

end Commit

/-- **After every sequence of appends and commits** the counter is what would be computed. -/
theorem run_synced (state : SessionState) (calls : List SessionCall) :
    Synced (calls.foldl SessionState.call state.rebuildPendingTokens) := by
  have hrun : ∀ start, Synced start → Synced (calls.foldl SessionState.call start) := by
    induction calls with
    | nil => exact fun start h => h
    | cons call calls ih =>
      intro start h
      refine ih _ ?_
      cases call with
      | append messages => exact synced_applyAppendedMessages h messages
      | commit store args =>
        show Synced (match start.commitAsync store args with
          | .ok state => state
          | .error _ => start)
        cases hcommit : start.commitAsync store args with
        | ok state' => exact synced_commitAsync hcommit
        | error err => exact h
  exact hrun _ (synced_rebuildPendingTokens state)

end OpenViking.Session
