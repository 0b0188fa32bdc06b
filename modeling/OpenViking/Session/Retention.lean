import Mathlib.Data.List.Nodup
import OpenViking.Session.Turns

/-!
# Retention plans

`plan_retention` (`session/retention.py`, 372-495): which messages of a session are archived and which stay live.

Results:

* `planRetention_again`: planning what stays archives nothing;
* `planRetention_splits`: a plan splits the messages between steps.
-/

namespace OpenViking.Session

/-- `RetentionPlan`. -/
structure RetentionPlan (α : Type*) where
  archiveMessages : List α
  retainedMessages : List α
  turnAnchor : Option α
  checkpointSourceMessageIds : List String
  rawTailStartMessageId : Option String
  estimatedActiveTokens : ℕ
  budgetExceeded : Bool
  partialTurn : Bool

/-- `_CHECKPOINT_TOKEN_RESERVE`. -/
def checkpointTokenReserve : ℕ := 1024

section Model

variable {α : Type*} (msg : α → Message)

/-- The last steps that always stay (`max(1, min_raw_tail_steps)` of them). -/
def rawTail (steps : List (AssistantStep α)) (minRawTailSteps : ℤ) : List (AssistantStep α) :=
  steps.drop (steps.length - (max 1 minRawTailSteps).toNat)

/-- The loop of `_partial_latest_turn_plan` (399-405): the steps before the tail, newest first, join it while
they fit. -/
def extendTail (rawBudget : ℕ) :
    List (AssistantStep α) → List (AssistantStep α) → ℕ → List (AssistantStep α) × List (AssistantStep α)
  | [], retainedSteps, _ => ([], retainedSteps)
  | candidate :: before, retainedSteps, retainedTokens =>
    if rawBudget < retainedTokens + candidate.estimatedTokens msg then
      ((candidate :: before).reverse, retainedSteps)
    else
      extendTail rawBudget before (candidate :: retainedSteps)
        (retainedTokens + candidate.estimatedTokens msg)

/-- `_partial_latest_turn_plan` (372-438). -/
def partialLatestTurnPlan (olderTurns : List (UserTurn α)) (latestTurn : UserTurn α) (tokenBudget : ℕ)
    (minRawTailSteps : ℤ) : RetentionPlan α :=
  let anchor := latestTurn.anchor
  let steps := latestTurn.steps
  let tail := rawTail steps minRawTailSteps
  let retainedTokens := messageTokens msg anchor.toList +
    (tail.map fun step => step.estimatedTokens msg).sum
  let rawBudget := tokenBudget - min checkpointTokenReserve (tokenBudget / 4)
  let cut := extendTail msg rawBudget (steps.take (steps.length - tail.length)).reverse tail retainedTokens
  let archivedSourceMessages := flattenSteps cut.1
  let retainedMessages := anchor.toList ++ flattenSteps cut.2
  { archiveMessages := flattenTurns olderTurns ++
      if archivedSourceMessages.isEmpty then [] else anchor.toList ++ archivedSourceMessages
    retainedMessages
    turnAnchor := anchor
    checkpointSourceMessageIds := archivedSourceMessages.map fun message => (msg message).id
    rawTailStartMessageId :=
      cut.2.head?.bind fun step => step.messages.head?.map fun message => (msg message).id
    estimatedActiveTokens := messageTokens msg retainedMessages
    budgetExceeded := decide (tokenBudget < messageTokens msg retainedMessages)
    partialTurn := !archivedSourceMessages.isEmpty }

/-- `sum(t.estimated_tokens for t in turns)`. -/
def turnTokens (turns : List (UserTurn α)) : ℕ := (turns.map fun turn => turn.estimatedTokens msg).sum

/-- The loop of `plan_retention` (466-470) on the retained turns: the oldest go while they exceed the budget. -/
def evictOldest (tokenBudget : ℕ) : List (UserTurn α) → ℕ → ℕ
  | turn :: next :: turns, selectedStart =>
    if tokenBudget < turnTokens msg (turn :: next :: turns) then
      evictOldest tokenBudget (next :: turns) (selectedStart + 1)
    else selectedStart
  | _, selectedStart => selectedStart

/-- `plan_retention` (441-495). -/
def planRetention (messages : List α) (keepRecentTurnCount tokenBudget minRawTailSteps : ℤ) :
    RetentionPlan α :=
  let keepRecentTurnCount := keepRecentTurnCount.toNat
  let tokenBudget := tokenBudget.toNat
  let turns := buildTurns msg messages
  if turns.isEmpty || decide (keepRecentTurnCount = 0) then ⟨messages, [], none, [], none, 0, false, false⟩
  else
    let start := turns.length - keepRecentTurnCount
    let selectedStart := evictOldest msg tokenBudget (turns.drop start) start
    let retainedTurns := turns.drop selectedStart
    let olderTurns := turns.take selectedStart
    match retainedTurns.getLast? with
    | none => ⟨messages, [], none, [], none, 0, false, false⟩
    | some latestTurn =>
      if tokenBudget < latestTurn.estimatedTokens msg then
        if latestTurn.anchor.isNone then
          ⟨flattenTurns (olderTurns ++ [latestTurn]), [], none, [], none, 0, false, false⟩
        else partialLatestTurnPlan msg olderTurns latestTurn tokenBudget minRawTailSteps
      else
        let retainedMessages := flattenTurns retainedTurns
        ⟨flattenTurns olderTurns, retainedMessages, none, [], none, messageTokens msg retainedMessages, false,
          false⟩

end Model

/-! ## What a plan does -/

section Cases

variable {α : Type*} {msg : α → Message}

variable (steps : List (AssistantStep α))

theorem sum_steps_estimatedTokens :
    (steps.map fun step => step.estimatedTokens msg).sum = messageTokens msg (flattenSteps steps) := by
  induction steps with
  | nil => rfl
  | cons step steps ih =>
    rw [List.map_cons, List.sum_cons, ih, ← List.singleton_append, flattenSteps_append, messageTokens_append,
      flattenSteps_singleton]
    rfl

theorem turnTokens_eq (turns : List (UserTurn α)) :
    turnTokens msg turns = messageTokens msg (flattenTurns turns) := by
  induction turns with
  | nil => rfl
  | cons turn turns ih =>
    rw [turnTokens, List.map_cons, List.sum_cons, ← turnTokens, ih, ← List.singleton_append, flattenTurns_append,
      messageTokens_append, flattenTurns_singleton]
    rfl

/-- The steps that join the tail are the last ones, and with them the budget holds. -/
theorem extendTail_spec (msg : α → Message) (rawBudget : ℕ) (before retainedSteps : List (AssistantStep α))
    (anchorTokens : ℕ) : let retainedTokens := anchorTokens + messageTokens msg (flattenSteps retainedSteps)
    let cut := extendTail msg rawBudget before retainedSteps retainedTokens
    cut.1 ++ cut.2 = before.reverse ++ retainedSteps ∧
      (cut.2 = retainedSteps ∨ anchorTokens + messageTokens msg (flattenSteps cut.2) ≤ rawBudget) := by
  induction before generalizing retainedSteps with
  | nil => exact ⟨rfl, .inl rfl⟩
  | cons candidate before ih =>
    dsimp only
    rw [extendTail]
    split_ifs with hfull
    · exact ⟨rfl, .inl rfl⟩
    · have htokens : anchorTokens + messageTokens msg (flattenSteps retainedSteps) + candidate.estimatedTokens msg =
          anchorTokens + messageTokens msg (flattenSteps (candidate :: retainedSteps)) := by
        rw [← List.singleton_append, flattenSteps_append, messageTokens_append, flattenSteps_singleton]
        unfold AssistantStep.estimatedTokens
        omega
      rw [htokens] at hfull ⊢
      obtain ⟨hjoin, hor⟩ := ih (candidate :: retainedSteps)
      refine ⟨?_, .inr ?_⟩
      · rw [hjoin, List.reverse_cons, List.append_assoc, List.singleton_append]
      · rcases hor with heq | hle
        · rw [heq]
          omega
        · exact hle

theorem take_append_rawTail (minRawTailSteps : ℤ) :
    steps.take (steps.length - (rawTail steps minRawTailSteps).length) ++ rawTail steps minRawTailSteps = steps := by
  unfold rawTail
  rw [List.length_drop, Nat.sub_sub_self (Nat.sub_le _ _)]
  exact List.take_append_drop _ _

variable {latestTurn : UserTurn α}

/-- A turn is cut between two steps: the tail that stays is the last steps, or more of them that fit. -/
theorem partialLatestTurnPlan_cases (msg : α → Message) (olderTurns : List (UserTurn α))
    {anchor : α} (hanchor : latestTurn.anchor = some anchor) (tokenBudget : ℕ) (minRawTailSteps : ℤ) :
    ∃ before tail, latestTurn.steps = before ++ tail ∧
      (tail = rawTail latestTurn.steps minRawTailSteps ∨
        messageTokens msg (anchor :: flattenSteps tail) ≤ tokenBudget) ∧
      partialLatestTurnPlan msg olderTurns latestTurn tokenBudget minRawTailSteps =
        { archiveMessages := flattenTurns olderTurns ++
            if (flattenSteps before).isEmpty then [] else anchor :: flattenSteps before
          retainedMessages := anchor :: flattenSteps tail
          turnAnchor := some anchor
          checkpointSourceMessageIds := (flattenSteps before).map fun message => (msg message).id
          rawTailStartMessageId :=
            tail.head?.bind fun step => step.messages.head?.map fun message => (msg message).id
          estimatedActiveTokens := messageTokens msg (anchor :: flattenSteps tail)
          budgetExceeded := decide (tokenBudget < messageTokens msg (anchor :: flattenSteps tail))
          partialTurn := !(flattenSteps before).isEmpty } := by
  unfold partialLatestTurnPlan
  dsimp only
  rw [hanchor, sum_steps_estimatedTokens]
  obtain ⟨hjoin, hor⟩ := extendTail_spec msg (tokenBudget - min checkpointTokenReserve (tokenBudget / 4))
    (latestTurn.steps.take (latestTurn.steps.length - (rawTail latestTurn.steps minRawTailSteps).length)).reverse
    (rawTail latestTurn.steps minRawTailSteps) (messageTokens msg (some anchor).toList)
  rw [List.reverse_reverse, take_append_rawTail] at hjoin
  refine ⟨_, _, hjoin.symm, hor.imp id fun hle => ?_, rfl⟩
  rw [messageTokens_cons]
  refine le_trans ?_ (hle.trans (Nat.sub_le _ _))
  exact le_of_eq rfl

theorem partialLatestTurnPlan_short (olderTurns : List (UserTurn α))
    {minRawTailSteps : ℤ} (hshort : rawTail latestTurn.steps minRawTailSteps = latestTurn.steps)
    (tokenBudget : ℕ) :
    (partialLatestTurnPlan msg olderTurns latestTurn tokenBudget minRawTailSteps).archiveMessages =
      flattenTurns olderTurns := by
  unfold partialLatestTurnPlan
  dsimp only
  rw [hshort, Nat.sub_self, List.take_zero, List.reverse_nil, extendTail]
  exact List.append_nil _

theorem rawTail_rawTail (minRawTailSteps : ℤ) :
    rawTail (rawTail steps minRawTailSteps) minRawTailSteps = rawTail steps minRawTailSteps := by
  have hlen : (rawTail steps minRawTailSteps).length - (max 1 minRawTailSteps).toNat = 0 := by
    unfold rawTail
    rw [List.length_drop]
    omega
  rw [rawTail, hlen, List.drop_zero]

/-- The turns that stay after the oldest have gone: the last ones, and all of them fit, or one is left. -/
theorem evictOldest_spec (msg : α → Message) (tokenBudget : ℕ) (turns : List (UserTurn α)) {start : ℕ}
    (hstart : start < turns.length) :
    let selectedStart := evictOldest msg tokenBudget (turns.drop start) start
    start ≤ selectedStart ∧ selectedStart < turns.length ∧
      (turnTokens msg (turns.drop selectedStart) ≤ tokenBudget ∨ selectedStart + 1 = turns.length) := by
  induction hgap : turns.length - start generalizing start with
  | zero => omega
  | succ gap ih =>
    dsimp only
    rw [List.drop_eq_getElem_cons hstart]
    by_cases hone : start + 1 = turns.length
    · have hnil : turns.drop (start + 1) = [] := List.drop_eq_nil_of_le (by omega)
      rw [hnil, evictOldest]
      · exact ⟨le_refl _, hstart, .inr hone⟩
      · rintro turn next turns heq
        cases heq
    · have hnext : start + 1 < turns.length := by omega
      rw [List.drop_eq_getElem_cons hnext, evictOldest, ← List.drop_eq_getElem_cons hnext]
      split_ifs with hover
      · obtain ⟨hle, hlt, hor⟩ := ih hnext (by omega)
        exact ⟨by omega, hlt, hor⟩
      · refine ⟨le_refl _, hstart, .inl ?_⟩
        rw [List.drop_eq_getElem_cons hstart]
        omega

/-- The plan that archives everything. -/
def archiveAll (messages : List α) : RetentionPlan α := ⟨messages, [], none, [], none, 0, false, false⟩

/-- What a plan can be. -/
theorem planRetention_cases (msg : α → Message) (messages : List α)
    (keepRecentTurnCount tokenBudget minRawTailSteps : ℤ) :
    let plan := planRetention msg messages keepRecentTurnCount tokenBudget minRawTailSteps
    ((messages = [] ∨ keepRecentTurnCount.toNat = 0) ∧ plan = archiveAll messages) ∨
    (∃ older turns, buildTurns msg messages = older ++ turns ∧ turns.length ≤ keepRecentTurnCount.toNat ∧
      messageTokens msg (flattenTurns turns) ≤ tokenBudget.toNat ∧
      plan = ⟨flattenTurns older, flattenTurns turns, none, [], none, messageTokens msg (flattenTurns turns),
        false, false⟩) ∨
    ∃ older latest, buildTurns msg messages = older ++ [latest] ∧ 1 ≤ keepRecentTurnCount.toNat ∧
      tokenBudget.toNat < latest.estimatedTokens msg ∧
      ((latest.anchor = none ∧ plan = archiveAll messages) ∨
        ∃ anchor, latest.anchor = some anchor ∧
          plan = partialLatestTurnPlan msg older latest tokenBudget.toNat minRawTailSteps) := by
  intro plan
  have hflat := flattenTurns_buildTurns msg messages
  have hplan : plan = planRetention msg messages keepRecentTurnCount tokenBudget minRawTailSteps := rfl
  unfold planRetention at hplan
  dsimp only at hplan
  by_cases hall : buildTurns msg messages = [] ∨ keepRecentTurnCount.toNat = 0
  · left
    refine ⟨hall.imp (buildTurns_eq_nil_iff messages).1 id, ?_⟩
    rw [hplan, if_pos (by simpa using hall)]
    rfl
  · right
    obtain ⟨hturns, hkeep⟩ := not_or.1 hall
    rw [if_neg (by simpa using hall)] at hplan
    have hlen := List.length_pos_of_ne_nil hturns
    obtain ⟨hle, hlt, hor⟩ := evictOldest_spec msg tokenBudget.toNat (buildTurns msg messages)
      (show (buildTurns msg messages).length - keepRecentTurnCount.toNat < (buildTurns msg messages).length by omega)
    generalize evictOldest msg tokenBudget.toNat _ _ = selectedStart at hplan hle hlt hor
    obtain ⟨init, latest, hlast⟩ := exists_concat_of_ne_nil
      (show (buildTurns msg messages).drop selectedStart ≠ [] by
        rw [ne_eq, List.drop_eq_nil_iff]
        omega)
    rw [hlast, List.getLast?_concat] at hplan
    dsimp only at hplan
    have hsplit := List.take_append_drop selectedStart (buildTurns msg messages)
    have hcount := congrArg List.length hlast
    rw [List.length_drop, List.length_append, List.length_singleton] at hcount
    rw [hlast, turnTokens_eq, flattenTurns_append, messageTokens_append, flattenTurns_singleton] at hor
    by_cases hover : tokenBudget.toNat < latest.estimatedTokens msg
    · right
      -- the turns that stay exceed the budget, so that one is left
      have hinit : init = [] := by
        rcases hor with hfits | hone
        · unfold UserTurn.estimatedTokens at hover
          omega
        · exact List.length_eq_zero_iff.1 (by omega)
      rw [hinit, List.nil_append] at hlast
      rw [if_pos hover] at hplan
      rw [hlast] at hsplit
      refine ⟨_, latest, hsplit.symm, by omega, hover, ?_⟩
      cases hanchor : latest.anchor with
      | none =>
        rw [hanchor, if_pos Option.isNone_none, hsplit, hflat] at hplan
        exact .inl ⟨rfl, hplan⟩
      | some anchor =>
        rw [hanchor, if_neg (by simp)] at hplan
        exact .inr ⟨anchor, rfl, hplan⟩
    · left
      rw [if_neg hover] at hplan
      refine ⟨_, _, hsplit.symm, ?_, ?_, ?_⟩
      · rw [List.length_drop]
        omega
      · rw [hlast, flattenTurns_append, messageTokens_append, flattenTurns_singleton]
        rcases hor with hfits | hone
        · exact hfits
        · have hinit : init = [] := List.length_eq_zero_iff.1 (by omega)
          rw [hinit]
          unfold UserTurn.estimatedTokens at hover
          show 0 + _ ≤ _
          omega
      · rw [hplan, hlast]

end Cases

/-! ## Planning again -/

section Again

variable {α : Type*} {msg : α → Message}

variable {keepRecentTurnCount tokenBudget : ℤ}

/-- Turns that are few enough and fit stay as they are. -/
theorem planRetention_fits {messages : List α} {turns : List (UserTurn α)}
    (hturns : buildTurns msg messages = turns) (hcount : turns.length ≤ keepRecentTurnCount.toNat)
    (htokens : messageTokens msg (flattenTurns turns) ≤ tokenBudget.toNat) (minRawTailSteps : ℤ) :
    (planRetention msg messages keepRecentTurnCount tokenBudget minRawTailSteps).archiveMessages = [] := by
  by_cases hnil : turns = []
  · rw [hnil] at hturns
    have hmessages := (buildTurns_eq_nil_iff messages).1 hturns
    unfold planRetention
    dsimp only
    rw [hturns, if_pos (by simp)]
    exact hmessages
  · have hlen := List.length_pos_of_ne_nil hnil
    have hzero : turns.length - keepRecentTurnCount.toNat = 0 := by omega
    have hstay : evictOldest msg tokenBudget.toNat turns 0 = 0 := by
      match turns with
      | [] => rfl
      | [turn] => rfl
      | turn :: next :: turns =>
        rw [evictOldest, turnTokens_eq]
        exact if_neg (by omega)
    unfold planRetention
    dsimp only
    rw [hturns, if_neg (by simp [hnil]; omega), hzero, List.drop_zero, hstay, List.drop_zero, List.take_zero]
    obtain ⟨init, latest, rfl⟩ := exists_concat_of_ne_nil hnil
    rw [flattenTurns_append, messageTokens_append, flattenTurns_singleton] at htokens
    rw [List.getLast?_concat]
    dsimp only
    rw [if_neg (by unfold UserTurn.estimatedTokens; omega)]
    rfl

/-- A turn whose steps are no more than the raw tail is not cut. -/
theorem planRetention_tail {messages : List α} {anchor : α} {steps : List (AssistantStep α)}
    (hturns : buildTurns msg messages = [⟨some anchor, steps⟩])
    (hcount : 1 ≤ keepRecentTurnCount.toNat) {minRawTailSteps : ℤ}
    (htail : rawTail steps minRawTailSteps = steps) :
    (planRetention msg messages keepRecentTurnCount tokenBudget minRawTailSteps).archiveMessages = [] := by
  by_cases htokens : messageTokens msg (flattenTurns [⟨some anchor, steps⟩]) ≤ tokenBudget.toNat
  · exact planRetention_fits hturns hcount htokens minRawTailSteps
  · rw [flattenTurns_singleton] at htokens
    have hzero : 1 - keepRecentTurnCount.toNat = 0 := by omega
    unfold planRetention
    dsimp only
    rw [hturns, if_neg (by simp; omega), List.length_singleton, hzero, List.drop_zero]
    show (if tokenBudget.toNat < UserTurn.estimatedTokens msg ⟨some anchor, steps⟩ then _ else _ :
      RetentionPlan α).archiveMessages = []
    rw [if_pos (by unfold UserTurn.estimatedTokens; omega), if_neg (by simp)]
    exact partialLatestTurnPlan_short [] htail _

/-- Planning what stays archives nothing. -/
theorem planRetention_again (msg : α → Message) (messages : List α)
    (keepRecentTurnCount tokenBudget minRawTailSteps : ℤ) :
    (planRetention msg
      (planRetention msg messages keepRecentTurnCount tokenBudget minRawTailSteps).retainedMessages
      keepRecentTurnCount tokenBudget minRawTailSteps).archiveMessages = [] := by
  have hempty : (planRetention msg [] keepRecentTurnCount tokenBudget minRawTailSteps).archiveMessages = [] :=
    planRetention_fits rfl (Nat.zero_le _) (Nat.zero_le _) _
  rcases planRetention_cases msg messages keepRecentTurnCount tokenBudget minRawTailSteps with
    ⟨-, hplan⟩ | ⟨older, turns, hturns, hcount, htokens, hplan⟩ | ⟨older, latest, hturns, hcount, hover, hplan⟩
  · rw [hplan]
    exact hempty
  · rw [hplan]
    exact planRetention_fits (buildTurns_suffix messages hturns) hcount htokens minRawTailSteps
  · rcases hplan with ⟨-, hplan⟩ | ⟨anchor, hanchor, hplan⟩
    · rw [hplan]
      exact hempty
    · obtain ⟨before, tail, hsteps, hor, hcut⟩ :=
        partialLatestTurnPlan_cases msg older hanchor tokenBudget.toNat minRawTailSteps
      rw [hplan, hcut]
      have hbuild := buildTurns_steps_suffix messages (by rw [hturns]; simp) hanchor hsteps
      rcases hor with htail | hfits
      · refine planRetention_tail hbuild hcount ?_
        rw [htail]
        exact rawTail_rawTail _ _
      · refine planRetention_fits hbuild hcount ?_ minRawTailSteps
        rw [flattenTurns_singleton]
        exact hfits

end Again

/-! ## The split -/

section Split

variable {α : Type*} {msg : α → Message}

/-- A plan splits the messages of a session without loss and between its steps. -/
structure Splits (msg : α → Message) (messages : List α) (keepRecentTurnCount tokenBudget minRawTailSteps : ℤ)
    (plan : RetentionPlan α) : Prop where
  /-- What is archived and what stays are the messages in order; a turn that is cut has its anchor in both. -/
  order : if plan.partialTurn then
      ∃ anchor rest, plan.turnAnchor = some anchor ∧ anchor ∈ plan.archiveMessages ∧
        plan.retainedMessages = anchor :: rest ∧ plan.archiveMessages ++ rest = messages
    else plan.archiveMessages ++ plan.retainedMessages = messages
  shared : ∀ message ∈ plan.archiveMessages, message ∈ plan.retainedMessages →
    plan.partialTurn = true ∧ plan.turnAnchor = some message
  steps : ∀ turn ∈ buildTurns msg messages, ∀ step ∈ turn.steps,
    (∀ message ∈ step.messages, message ∈ plan.archiveMessages ∧ message ∉ plan.retainedMessages) ∨
      ∀ message ∈ step.messages, message ∉ plan.archiveMessages ∧ message ∈ plan.retainedMessages
  turns : (buildTurns msg plan.retainedMessages).length ≤ keepRecentTurnCount.toNat
  /-- Only the anchor and the raw tail of the last turn exceed the budget. -/
  budget : tokenBudget.toNat < messageTokens msg plan.retainedMessages → plan.budgetExceeded = true ∧
    ∃ latest anchor, (buildTurns msg messages).getLast? = some latest ∧ latest.anchor = some anchor ∧
      plan.retainedMessages = anchor :: flattenSteps (rawTail latest.steps minRawTailSteps)
  /-- The sources of the checkpoint are the messages of the last turn that are archived, if it is cut. -/
  sources : plan.checkpointSourceMessageIds =
    if plan.partialTurn then
      (((buildTurns msg messages).getLast?.elim [] fun latest => flattenSteps latest.steps).map
        fun message => (msg message).id).filter fun id =>
          id ∈ plan.archiveMessages.map fun message => (msg message).id
    else []
  again : (planRetention msg plan.retainedMessages keepRecentTurnCount tokenBudget
    minRawTailSteps).archiveMessages = []

variable {turns older : List (UserTurn α)}

theorem mem_flattenTurns {turn : UserTurn α} (hturn : turn ∈ turns)
    {step : AssistantStep α} (hstep : step ∈ turn.steps) {message : α} (hmessage : message ∈ step.messages) :
    message ∈ flattenTurns turns :=
  List.mem_flatMap.2 ⟨turn, hturn, List.mem_append_right _ (List.mem_flatMap.2 ⟨step, hstep, hmessage⟩)⟩

variable {messages : List α}

theorem splits_archiveAll (keepRecentTurnCount tokenBudget minRawTailSteps : ℤ) :
    Splits msg messages keepRecentTurnCount tokenBudget minRawTailSteps (archiveAll messages) where
  order := List.append_nil _
  shared := fun message _ hmem => absurd hmem List.not_mem_nil
  steps := fun turn hturn step hstep => .inl fun message hmessage => by
    refine ⟨?_, List.not_mem_nil⟩
    have hmem := mem_flattenTurns hturn hstep hmessage
    rwa [flattenTurns_buildTurns] at hmem
  turns := Nat.zero_le _
  budget := fun h => absurd h (Nat.not_lt_zero _)
  sources := rfl
  again := planRetention_fits rfl (Nat.zero_le _) (Nat.zero_le _) _

variable {keepRecentTurnCount : ℤ}

theorem splits_whole (hnodup : messages.Nodup) (hturns : buildTurns msg messages = older ++ turns)
    (hcount : turns.length ≤ keepRecentTurnCount.toNat) {tokenBudget : ℤ}
    (htokens : messageTokens msg (flattenTurns turns) ≤ tokenBudget.toNat) (minRawTailSteps : ℤ) (active : ℕ) :
    Splits msg messages keepRecentTurnCount tokenBudget minRawTailSteps
      ⟨flattenTurns older, flattenTurns turns, none, [], none, active, false, false⟩ := by
  have hflat : flattenTurns older ++ flattenTurns turns = messages := by
    rw [← flattenTurns_append, ← hturns, flattenTurns_buildTurns]
  have hdisjoint : ∀ message ∈ flattenTurns older, message ∉ flattenTurns turns := by
    rw [← hflat] at hnodup
    exact fun message hold hnew => (List.nodup_append.1 hnodup).2.2 message hold message hnew rfl
  exact {
    order := hflat
    shared := fun message hold hnew => absurd hnew (hdisjoint message hold)
    steps := by
      intro turn hturn step hstep
      rw [hturns] at hturn
      rcases List.mem_append.1 hturn with hturn | hturn
      · left
        intro message hmessage
        have hold := mem_flattenTurns hturn hstep hmessage
        exact ⟨hold, hdisjoint message hold⟩
      · right
        intro message hmessage
        have hnew := mem_flattenTurns hturn hstep hmessage
        exact ⟨fun hold => hdisjoint message hold hnew, hnew⟩
    turns := by
      show (buildTurns msg (flattenTurns turns)).length ≤ _
      rw [buildTurns_suffix messages hturns]
      exact hcount
    budget := fun h => absurd h (Nat.not_lt.2 htokens)
    sources := rfl
    again := planRetention_fits (buildTurns_suffix messages hturns) hcount htokens minRawTailSteps }

/-- The messages of the last turn that are archived, by their ids. -/
theorem filter_sources {key : α → String} {archived before tail : List α}
    (hbefore : ∀ message ∈ before, key message ∈ archived.map key)
    (htail : ∀ message ∈ tail, key message ∉ archived.map key) :
    (((before ++ tail).map key).filter fun id => id ∈ archived.map key) = before.map key := by
  rw [List.map_append, List.filter_append, List.filter_eq_self.2, List.filter_eq_nil_iff.2, List.append_nil]
  · intro id hid
    obtain ⟨message, hmessage, rfl⟩ := List.mem_map.1 hid
    simpa using htail message hmessage
  · intro id hid
    obtain ⟨message, hmessage, rfl⟩ := List.mem_map.1 hid
    exact decide_eq_true (hbefore message hmessage)

theorem splits_cut (hids : (messages.map fun message => (msg message).id).Nodup)
    {latest : UserTurn α} (hturns : buildTurns msg messages = older ++ [latest])
    {anchor : α} (hanchor : latest.anchor = some anchor) {before tail : List (AssistantStep α)}
    (hsteps : latest.steps = before ++ tail) (hcount : 1 ≤ keepRecentTurnCount.toNat)
    {tokenBudget minRawTailSteps : ℤ} (hor : tail = rawTail latest.steps minRawTailSteps ∨
      messageTokens msg (anchor :: flattenSteps tail) ≤ tokenBudget.toNat)
    (rawStart : Option String) (active : ℕ)
    (hagain : (planRetention msg (anchor :: flattenSteps tail) keepRecentTurnCount tokenBudget
      minRawTailSteps).archiveMessages = []) :
    Splits msg messages keepRecentTurnCount tokenBudget minRawTailSteps
      { archiveMessages := flattenTurns older ++
          if (flattenSteps before).isEmpty then [] else anchor :: flattenSteps before
        retainedMessages := anchor :: flattenSteps tail
        turnAnchor := some anchor
        checkpointSourceMessageIds := (flattenSteps before).map fun message => (msg message).id
        rawTailStartMessageId := rawStart
        estimatedActiveTokens := active
        budgetExceeded := decide (tokenBudget.toNat < messageTokens msg (anchor :: flattenSteps tail))
        partialTurn := !(flattenSteps before).isEmpty } := by
  have hflat : flattenTurns older ++ anchor :: (flattenSteps before ++ flattenSteps tail) = messages := by
    rw [← flattenTurns_buildTurns msg messages, hturns, flattenTurns_append, flattenTurns_singleton,
      UserTurn.messages, hanchor, hsteps, flattenSteps_append]
    rfl
  rw [← hflat] at hids
  have hnodup := List.Nodup.of_map _ hids
  obtain ⟨-, hlatest, holder⟩ := List.nodup_append.1 hnodup
  obtain ⟨hfresh, hsplit⟩ := List.nodup_cons.1 hlatest
  obtain ⟨-, -, hapart⟩ := List.nodup_append.1 hsplit
  have hold : ∀ message ∈ flattenTurns older, message ∉ anchor :: flattenSteps tail := by
    intro message hmem hnew
    refine holder message hmem message ?_ rfl
    rcases List.mem_cons.1 hnew with rfl | hnew
    · exact List.mem_cons_self
    · exact List.mem_cons_of_mem _ (List.mem_append_right _ hnew)
  have hbefore : ∀ message ∈ flattenSteps before, message ∉ anchor :: flattenSteps tail := by
    intro message hmem hnew
    rcases List.mem_cons.1 hnew with rfl | hnew
    · exact hfresh (List.mem_append_left _ hmem)
    · exact hapart message hmem message hnew rfl
  have htail : ∀ message ∈ flattenSteps tail, message ∉ flattenTurns older ∧
      message ∉ anchor :: flattenSteps before := by
    intro message hmem
    refine ⟨fun hmem' => hold message hmem' (List.mem_cons_of_mem _ hmem), fun hmem' => ?_⟩
    rcases List.mem_cons.1 hmem' with rfl | hmem'
    · exact hfresh (List.mem_append_right _ hmem)
    · exact hapart message hmem' message hmem rfl
  have hbuild : buildTurns msg (anchor :: flattenSteps tail) = [⟨some anchor, tail⟩] :=
    buildTurns_steps_suffix messages (by rw [hturns]; simp) hanchor hsteps
  have harchive : ∀ message, (message ∈ flattenTurns older ++
      if (flattenSteps before).isEmpty then [] else anchor :: flattenSteps before) ↔
        message ∈ flattenTurns older ∨ flattenSteps before ≠ [] ∧ message ∈ anchor :: flattenSteps before := by
    intro message
    rw [List.mem_append]
    by_cases hnil : flattenSteps before = []
    · simp [hnil]
    · simp [hnil]
  exact {
    order := by
      by_cases hnil : flattenSteps before = []
      · simpa [hnil] using hflat
      · rw [List.isEmpty_eq_false_iff.2 hnil, Bool.not_false, if_pos rfl, if_neg Bool.false_ne_true]
        refine ⟨anchor, _, rfl, by simp, rfl, ?_⟩
        rw [← hflat, List.append_assoc, List.cons_append]
    shared := by
      intro message hmem hnew
      rcases (harchive message).1 hmem with hmem | ⟨hne, hmem⟩
      · exact absurd hnew (hold message hmem)
      · rcases List.mem_cons.1 hmem with rfl | hmem
        · exact ⟨by simp [hne], rfl⟩
        · exact absurd hnew (hbefore message hmem)
    steps := by
      intro turn hturn step hstep
      rw [hturns] at hturn
      rcases List.mem_append.1 hturn with hturn | hturn
      · left
        intro message hmessage
        have hmem := mem_flattenTurns hturn hstep hmessage
        exact ⟨(harchive message).2 (.inl hmem), hold message hmem⟩
      · rw [List.mem_singleton.1 hturn, hsteps] at hstep
        rcases List.mem_append.1 hstep with hstep | hstep
        · left
          intro message hmessage
          have hmem : message ∈ flattenSteps before := List.mem_flatMap.2 ⟨step, hstep, hmessage⟩
          exact ⟨(harchive message).2 (.inr ⟨List.ne_nil_of_mem hmem, List.mem_cons_of_mem _ hmem⟩),
            hbefore message hmem⟩
        · right
          intro message hmessage
          have hmem : message ∈ flattenSteps tail := List.mem_flatMap.2 ⟨step, hstep, hmessage⟩
          refine ⟨fun hmem' => ?_, List.mem_cons_of_mem _ hmem⟩
          rcases (harchive message).1 hmem' with hmem' | ⟨-, hmem'⟩
          · exact (htail message hmem).1 hmem'
          · exact (htail message hmem).2 hmem'
    turns := by
      show (buildTurns msg (anchor :: flattenSteps tail)).length ≤ _
      rw [hbuild]
      exact hcount
    budget := by
      intro hover
      refine ⟨decide_eq_true hover, latest, anchor, by rw [hturns, List.getLast?_concat], hanchor, ?_⟩
      rcases hor with heq | hle
      · rw [← heq]
      · exact absurd hover (Nat.not_lt.2 hle)
    sources := by
      rw [hturns, List.getLast?_concat]
      by_cases hnil : flattenSteps before = []
      · simp [hnil]
      · rw [List.isEmpty_eq_false_iff.2 hnil, Bool.not_false, if_pos rfl, if_neg Bool.false_ne_true,
          Option.elim_some, hsteps, flattenSteps_append]
        rw [← List.cons_append, ← List.append_assoc, List.map_append, List.nodup_append] at hids
        refine (filter_sources (fun message hmem => ?_) fun message hmem hid => ?_).symm
        · exact List.mem_map_of_mem (List.mem_append_right _ (List.mem_cons_of_mem _ hmem))
        · exact hids.2.2 _ hid _ (List.mem_map_of_mem hmem) rfl
    again := hagain }

/-- **A plan splits** the messages. -/
theorem planRetention_splits (msg : α → Message) (messages : List α)
    (hids : (messages.map fun message => (msg message).id).Nodup)
    (keepRecentTurnCount tokenBudget minRawTailSteps : ℤ) :
    Splits msg messages keepRecentTurnCount tokenBudget minRawTailSteps
      (planRetention msg messages keepRecentTurnCount tokenBudget minRawTailSteps) := by
  have hagain := planRetention_again msg messages keepRecentTurnCount tokenBudget minRawTailSteps
  rcases planRetention_cases msg messages keepRecentTurnCount tokenBudget minRawTailSteps with
    ⟨-, hplan⟩ | ⟨older, turns, hturns, hcount, htokens, hplan⟩ | ⟨older, latest, hturns, hcount, hover, hplan⟩
  · rw [hplan]
    exact splits_archiveAll _ _ _
  · rw [hplan]
    exact splits_whole (List.Nodup.of_map _ hids) hturns hcount htokens _ _
  · rcases hplan with ⟨-, hplan⟩ | ⟨anchor, hanchor, hplan⟩
    · rw [hplan]
      exact splits_archiveAll _ _ _
    · obtain ⟨before, tail, hsteps, hor, hcut⟩ :=
        partialLatestTurnPlan_cases msg older hanchor tokenBudget.toNat minRawTailSteps
      rw [hplan, hcut] at hagain ⊢
      exact splits_cut hids hturns hanchor hsteps hcount hor _ _ hagain

/-- A message with one text. -/
def plainMessage (id role text : String) : Message := ⟨id, role, [.text text], none, none, none, none, none⟩

/-- A query and two answers, of which the budget holds one. -/
def cutSession : List Message :=
  [plainMessage "q" "user" "Plan it", plainMessage "a1" "assistant" "The first", plainMessage "a2" "assistant" "Done"]

theorem planRetention_splits_cut :
    Splits id cutSession 3 3 1 (planRetention id cutSession 3 3 1) :=
  planRetention_splits id cutSession (by decide) 3 3 1

example : (planRetention id cutSession 3 3 1).checkpointSourceMessageIds = ["a1"] := by decide

/-- A session of old with no query exceeds the budget: it is archived, but is no source of a checkpoint. -/
theorem planRetention_legacy_sources :
    let messages := [plainMessage "a1" "assistant" "The first"]
    let plan := planRetention id messages 3 1 1
    plan.checkpointSourceMessageIds ≠
      (((buildTurns id messages).getLast?.elim [] fun latest => flattenSteps latest.steps).map
        Message.id).filter fun id => id ∈ plan.archiveMessages.map Message.id := by
  decide

end Split

end OpenViking.Session
