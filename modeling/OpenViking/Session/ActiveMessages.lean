import Mathlib.Data.List.Flatten
import Mathlib.Data.List.Pairwise
import OpenViking.Common.Dict
import OpenViking.Session.GroupTruncation

/-!
# Active messages under a budget

`fit_active_messages_to_budget` (`session/retention.py`, 230-369): the anchor and the last step of the latest turn,
its checkpoints and its other steps, then the turns before it.  The messages are numbered, and what is selected is a
dictionary from their numbers.

Results:

* `selectGroup_cases`, `Picked.selectWhile`: what is selected are whole groups, each at most once, within the budget;
* `returned_perm`: in their order they are what was selected.
-/

namespace OpenViking.Session

/-! ## Model -/

/-- A message and its number. -/
abbrev Numbered := Message × ℕ

/-- `ActiveMessageBudgetPlan`. -/
structure ActiveMessageBudgetPlan where
  messages : List Message
  estimatedTokens : ℕ
  droppedMessageIds : List String
  truncatedMessageIds : List String

/-- `selected`, `truncated_ids` and `used_tokens` of `fit_active_messages_to_budget`. -/
structure Selection where
  selected : List (ℕ × Message)
  truncatedIds : List String
  usedTokens : ℕ

/-- The messages of a group. -/
def groupMessages (group : List Numbered) : List Message := group.map Prod.fst

/-- The entries of `selected` for a group. -/
def entriesOf (group : List Numbered) (chosen : List Message) : List (ℕ × Message) :=
  (group.map Prod.snd).zip chosen

section Model

variable (tokenBudget : ℕ)

/-- The end of `_select_group` (286-290). -/
def Selection.record (selection : Selection) (group : List Numbered) (chosen : List Message)
    (truncated : List String) : Selection where
  selected := entriesOf group chosen ++ selection.selected
  truncatedIds := truncated ++ selection.truncatedIds
  usedTokens := selection.usedTokens + messageTokens id chosen

/-- What is left of the budget for a group (270-272). -/
def remainingFor (maxBudget : Option ℤ) (usedTokens : ℕ) : ℕ :=
  let remaining := tokenBudget - usedTokens
  maxBudget.elim remaining fun limit => min remaining limit.toNat

/-- `_select_group` (260-290). -/
def selectGroup (group : List Numbered) (allowTruncate : Bool) (maxBudget : Option ℤ) (selection : Selection) :
    Bool × Selection :=
  if group.isEmpty then (true, selection)
  else
    let remaining := remainingFor tokenBudget maxBudget selection.usedTokens
    if remaining < messageTokens Prod.fst group then
      if !allowTruncate || decide (remaining = 0) then (false, selection)
      else
        let chosen := truncateMessageGroup (groupMessages group) remaining
        if chosen.1.isEmpty then (false, selection)
        else (true, selection.record group chosen.1 chosen.2)
    else (true, selection.record group (groupMessages group) [])

/-- A loop over groups that ends with the first that does not fit. -/
def selectWhile (allowTruncate : Bool) : List (List Numbered) → Selection → Selection
  | [], selection => selection
  | group :: groups, selection =>
    let (taken, selection) := selectGroup tokenBudget group allowTruncate none selection
    if taken then selectWhile allowTruncate groups selection else selection

/-- `_minimum_group_budget` (297-315). -/
def minimumGroupBudget (group : List Numbered) : Option ℕ :=
  let groupTokens := messageTokens Prod.fst group
  if group.isEmpty || decide (groupTokens = 0) then some 0
  else
    let high := min groupTokens tokenBudget
    bisectFirst (fun candidate => !(truncateMessageGroup (groupMessages group) candidate).1.isEmpty) high 1 high none

/-- `final_reserve` (320-333). -/
def finalReserve (anchorGroup finalGroup : List Numbered) : ℕ :=
  if anchorGroup.isEmpty || finalGroup.isEmpty then 0
  else
    match minimumGroupBudget tokenBudget anchorGroup, minimumGroupBudget tokenBudget finalGroup with
    | some anchorMinimum, some finalMinimum =>
      if anchorMinimum + finalMinimum ≤ tokenBudget then
        min (min (messageTokens Prod.fst finalGroup) (max finalMinimum (tokenBudget / 2)))
          (tokenBudget - anchorMinimum)
      else 0
    | _, _ => 0

end Model

/-- A step with a checkpoint. -/
def hasCheckpoint (step : AssistantStep Numbered) : Bool :=
  step.messages.any fun message => decide (message.1.messageKind = some "checkpoint")

/-- The groups of a turn. -/
structure TurnGroups where
  anchor : List Numbered
  final : List Numbered
  checkpoints : List (List Numbered)
  recent : List (List Numbered)

/-- The groups of the latest turn (292-295 and 346-358). -/
def turnGroups (latest : UserTurn Numbered) : TurnGroups where
  anchor := latest.anchor.toList
  final := latest.steps.getLast?.elim [] AssistantStep.messages
  checkpoints := (latest.steps.dropLast.filter hasCheckpoint).map AssistantStep.messages
  recent := (latest.steps.dropLast.reverse.filter fun step => !hasCheckpoint step).map AssistantStep.messages

/-- The selection from the latest turn (334-358). -/
def selectLatest (tokenBudget : ℕ) (groups : TurnGroups) : Selection :=
  let reserve := finalReserve tokenBudget groups.anchor groups.final
  let selection := (selectGroup tokenBudget groups.anchor true (some (tokenBudget - reserve)) ⟨[], [], 0⟩).2
  let selection := (selectGroup tokenBudget groups.final true none selection).2
  let selection := selectWhile tokenBudget true groups.checkpoints selection
  selectWhile tokenBudget false groups.recent selection

/-- The selection from messages that exceed the budget (251-362). -/
def selectActive (messages : List Message) (tokenBudget : ℕ) : Selection :=
  let turns := buildTurns Prod.fst messages.zipIdx
  match turns.getLast? with
  | none => ⟨[], [], 0⟩
  | some latest =>
    selectWhile tokenBudget false (turns.dropLast.reverse.map UserTurn.messages)
      (selectLatest tokenBudget (turnGroups latest))

/-- The selected messages in order. -/
def Selection.returned (selection : Selection) (count : ℕ) : List Message :=
  (List.range count).filterMap fun index => selection.selected.lookup index

/-- `fit_active_messages_to_budget` (230-369). -/
def fitActiveMessagesToBudget (messages : List Message) (tokenBudget : ℤ) : ActiveMessageBudgetPlan :=
  if messages.isEmpty || decide (tokenBudget.toNat = 0) then ⟨[], 0, messages.map Message.id, []⟩
  else if messageTokens id messages ≤ tokenBudget.toNat then ⟨messages, messageTokens id messages, [], []⟩
  else
    let selection := selectActive messages tokenBudget.toNat
    let returned := selection.returned messages.length
    { messages := returned
      estimatedTokens := messageTokens id returned
      droppedMessageIds := (messages.zipIdx.filter fun message =>
        (selection.selected.lookup message.2).isNone).map fun message => message.1.id
      truncatedMessageIds := sortedIds selection.truncatedIds }

/-! ## One group -/

section Group

variable {tokenBudget : ℕ}

@[simp] theorem messageTokens_groupMessages (group : List Numbered) :
    messageTokens id (groupMessages group) = messageTokens Prod.fst group := by
  unfold messageTokens groupMessages
  rw [List.map_map]
  rfl

theorem groupMessages_ne_nil {group : List Numbered} (h : group ≠ []) : groupMessages group ≠ [] :=
  fun hnil => h (List.map_eq_nil_iff.1 hnil)

/-- The search finds the least budget that a group fits, if it is in its range. -/
theorem minimumGroupBudget_eq {group : List Numbered} (hne : group ≠ [])
    (htokens : messageTokens Prod.fst group ≠ 0) :
    minimumGroupBudget tokenBudget group =
      if max 1 (fixedTokens (groupMessages group)) ≤ min (messageTokens Prod.fst group) tokenBudget then
        some (max 1 (fixedTokens (groupMessages group)))
      else none := by
  have hfits : ∀ candidate : ℕ, (!(truncateMessageGroup (groupMessages group) candidate).1.isEmpty) = true ↔
      max 1 (fixedTokens (groupMessages group)) ≤ candidate := by
    intro candidate
    have hiff := truncateMessageGroup_ne_nil_iff (groupMessages group) candidate
    rw [Bool.not_eq_true', List.isEmpty_eq_false_iff, hiff, Int.toNat_natCast]
    have hmessages := groupMessages_ne_nil hne
    constructor
    · rintro ⟨-, hpos, hfixed⟩
      omega
    · intro hle
      exact ⟨hmessages, by omega, by omega⟩
  unfold minimumGroupBudget
  dsimp only
  rw [if_neg (by simp [hne, htokens])]
  exact bisectFirst_eq hfits _ (le_refl 1) (le_max_left _ _) (by omega) none

/-- A group fits a room: whole, or shortened where that is allowed. -/
def Fits (allowTruncate : Bool) (group : List Numbered) (room : ℕ) : Prop :=
  messageTokens Prod.fst group ≤ room ∨
    allowTruncate = true ∧ 0 < room ∧ fixedTokens (groupMessages group) ≤ room

/-- What selecting a group does. -/
theorem selectGroup_cases (tokenBudget : ℕ) (group : List Numbered) (allowTruncate : Bool) (maxBudget : Option ℤ)
    (selection : Selection) :
    (¬ Fits allowTruncate group (remainingFor tokenBudget maxBudget selection.usedTokens) ∧
      selectGroup tokenBudget group allowTruncate maxBudget selection = (false, selection)) ∨
    (Fits allowTruncate group (remainingFor tokenBudget maxBudget selection.usedTokens) ∧
      ∃ chosen truncated, List.Forall₂ MessageCopy (groupMessages group) chosen ∧
        messageTokens id chosen ≤ remainingFor tokenBudget maxBudget selection.usedTokens ∧
        selectGroup tokenBudget group allowTruncate maxBudget selection =
          (true, selection.record group chosen truncated)) := by
  unfold selectGroup
  by_cases hnil : group = []
  · rw [hnil]
    exact .inr ⟨.inl (Nat.zero_le _), [], [], .nil, Nat.zero_le _, rfl⟩
  rw [if_neg (by simpa using hnil)]
  dsimp only
  generalize remainingFor tokenBudget maxBudget selection.usedTokens = room
  by_cases hover : room < messageTokens Prod.fst group
  · rw [if_pos hover]
    by_cases hnone : allowTruncate = false ∨ room = 0
    · left
      refine ⟨?_, if_pos (by simpa using hnone)⟩
      rintro (hwhole | ⟨hallow, hpos, -⟩)
      · omega
      · rcases hnone with hnone | hnone
        · exact Bool.false_ne_true (hnone.symm.trans hallow)
        · omega
    · obtain ⟨hallow, hroom⟩ := not_or.1 hnone
      rw [if_neg (by simpa using hnone)]
      have hiff := truncateMessageGroup_ne_nil_iff (groupMessages group) room
      rw [Int.toNat_natCast] at hiff
      by_cases hchosen : (truncateMessageGroup (groupMessages group) room).1 = []
      · left
        rw [if_pos (by simpa using hchosen)]
        refine ⟨?_, rfl⟩
        rintro (hwhole | ⟨-, -, hfixed⟩)
        · omega
        · exact hiff.2 ⟨groupMessages_ne_nil hnil, by omega, hfixed⟩ hchosen
      · right
        obtain ⟨hcopies, htokens⟩ := truncateMessageGroup_spec hchosen
        rw [if_neg (by simpa using hchosen)]
        rw [Int.toNat_natCast] at htokens
        exact ⟨.inr ⟨Bool.eq_true_of_not_eq_false hallow, by omega, (hiff.1 hchosen).2.2⟩, _, _, hcopies, htokens,
          rfl⟩
  · right
    rw [if_neg hover]
    refine ⟨.inl (not_lt.1 hover), groupMessages group, [], copies_refl _, ?_, rfl⟩
    rw [messageTokens_groupMessages]
    exact not_lt.1 hover

end Group

/-! ## Whole groups -/

/-- Some of the groups, newest first, and the copies that were selected for them. -/
abbrev Picks := List (List Numbered × List Message)

/-- The selection is made of these groups. -/
structure Picked (tokenBudget : ℕ) (groups : List (List Numbered)) (selection : Selection) (picks : Picks) : Prop where
  entries : selection.selected = picks.flatMap fun pick => entriesOf pick.1 pick.2
  copies : ∀ pick ∈ picks, List.Forall₂ MessageCopy (groupMessages pick.1) pick.2
  sublist : (picks.map Prod.fst).reverse.Sublist groups
  tokens : selection.usedTokens = (picks.map fun pick => messageTokens id pick.2).sum
  within : selection.usedTokens ≤ tokenBudget

section Picks

variable {tokenBudget : ℕ} {groups : List (List Numbered)} {selection : Selection} {picks : Picks}

theorem remainingFor_le (tokenBudget : ℕ) (maxBudget : Option ℤ) (usedTokens : ℕ) :
    remainingFor tokenBudget maxBudget usedTokens ≤ tokenBudget - usedTokens := by
  unfold remainingFor
  cases maxBudget with
  | none => exact le_refl _
  | some limit => exact min_le_left _ _

section

variable (h : Picked tokenBudget groups selection picks)

include h

theorem Picked.more {groups' : List (List Numbered)}
    (hsub : groups.Sublist groups') : Picked tokenBudget groups' selection picks :=
  ⟨h.entries, h.copies, h.sublist.trans hsub, h.tokens, h.within⟩

theorem Picked.record {group : List Numbered}
    {chosen : List Message} (hcopies : List.Forall₂ MessageCopy (groupMessages group) chosen)
    (htokens : selection.usedTokens + messageTokens id chosen ≤ tokenBudget) (truncated : List String) :
    Picked tokenBudget (groups ++ [group]) (selection.record group chosen truncated) ((group, chosen) :: picks) where
  entries := by
    rw [List.flatMap_cons, ← h.entries]
    rfl
  copies := by
    intro pick hpick
    rcases List.mem_cons.1 hpick with rfl | hpick
    · exact hcopies
    · exact h.copies pick hpick
  sublist := by
    rw [List.map_cons, List.reverse_cons]
    exact List.Sublist.append h.sublist (List.Sublist.refl _)
  tokens := by
    rw [List.map_cons, List.sum_cons, ← h.tokens]
    exact Nat.add_comm _ _
  within := htokens

/-- A group is picked, or nothing changes. -/
theorem Picked.selectGroup (group : List Numbered) (allowTruncate : Bool) (maxBudget : Option ℤ) :
    ∃ picks', Picked tokenBudget (groups ++ [group])
      (selectGroup tokenBudget group allowTruncate maxBudget selection).2 picks' ∧ picks <:+ picks' ∧
      (Fits allowTruncate group (remainingFor tokenBudget maxBudget selection.usedTokens) →
        group ∈ picks'.map Prod.fst) ∧
      (OpenViking.Session.selectGroup tokenBudget group allowTruncate maxBudget selection).2.usedTokens ≤
        selection.usedTokens + remainingFor tokenBudget maxBudget selection.usedTokens := by
  have hle := remainingFor_le tokenBudget maxBudget selection.usedTokens
  have hwithin := h.within
  rcases selectGroup_cases tokenBudget group allowTruncate maxBudget selection with
    ⟨hnot, heq⟩ | ⟨-, chosen, truncated, hcopies, htokens, heq⟩
  · rw [heq]
    exact ⟨picks, h.more (List.sublist_append_left _ _), List.suffix_refl _, fun hfits => absurd hfits hnot,
      Nat.le_add_right _ _⟩
  · rw [heq]
    exact ⟨(group, chosen) :: picks, h.record hcopies (by omega) truncated, List.suffix_cons _ _,
      fun _ => List.mem_cons_self, Nat.add_le_add_left htokens _⟩

end

theorem Picked.selectWhile (more : List (List Numbered)) (h : Picked tokenBudget groups selection picks)
    (allowTruncate : Bool) :
    ∃ picks', Picked tokenBudget (groups ++ more) (selectWhile tokenBudget allowTruncate more selection) picks' ∧
      picks <:+ picks' := by
  induction more generalizing groups selection picks with
  | nil =>
    rw [List.append_nil]
    exact ⟨picks, h, List.suffix_refl _⟩
  | cons group more ih =>
    obtain ⟨picks', h', hsuffix, -⟩ := h.selectGroup group allowTruncate none
    rw [OpenViking.Session.selectWhile]
    dsimp only
    split_ifs with htaken
    · obtain ⟨picks'', h'', hsuffix'⟩ := ih h'
      rw [List.append_assoc, List.singleton_append] at h''
      exact ⟨picks'', h'', hsuffix.trans hsuffix'⟩
    · refine ⟨picks', h'.more ?_, hsuffix⟩
      exact List.Sublist.append (List.Sublist.refl _) (List.Sublist.cons_cons _ (List.nil_sublist _))

end Picks

/-! ## All groups -/

/-- The groups of a conversation, in the order in which they are tried. -/
def allGroups (older : List (UserTurn Numbered)) (latest : UserTurn Numbered) : List (List Numbered) :=
  [(turnGroups latest).anchor, (turnGroups latest).final] ++ (turnGroups latest).checkpoints ++
    (turnGroups latest).recent ++ older.reverse.map UserTurn.messages

section Groups

theorem flatten_map_messages (steps : List (AssistantStep Numbered)) :
    (steps.map AssistantStep.messages).flatten = flattenSteps steps := (List.flatMap_def ..).symm

/-- The groups of a turn hold its messages. -/
theorem turnGroups_perm (latest : UserTurn Numbered) :
    ((turnGroups latest).anchor ++ ((turnGroups latest).final ++ ((turnGroups latest).checkpoints.flatten ++
      (turnGroups latest).recent.flatten))).Perm latest.messages := by
  unfold turnGroups UserTurn.messages
  dsimp only
  refine List.Perm.append_left _ ?_
  rw [flatten_map_messages, flatten_map_messages]
  by_cases hnil : latest.steps = []
  · rw [hnil]
    exact List.Perm.refl _
  · obtain ⟨init, final, heq⟩ := exists_concat_of_ne_nil hnil
    rw [heq, List.getLast?_concat, List.dropLast_concat, flattenSteps_append, flattenSteps_singleton]
    refine List.perm_append_comm.trans (List.Perm.append_right _ ?_)
    rw [← flattenSteps_append]
    refine List.Perm.flatMap_right _ ?_
    refine (List.Perm.append_left _ ((List.reverse_perm init).filter _)).trans ?_
    exact List.filter_append_perm _ init

theorem allGroups_perm (older : List (UserTurn Numbered)) (latest : UserTurn Numbered) :
    (allGroups older latest).flatten.Perm (flattenTurns (older ++ [latest])) := by
  have hlatest := turnGroups_perm latest
  have holder : (older.reverse.map UserTurn.messages).flatten.Perm (flattenTurns older) := by
    rw [← List.flatMap_def]
    exact List.Perm.flatMap_right _ (List.reverse_perm older)
  unfold allGroups
  rw [List.flatten_append, List.flatten_append, List.flatten_append, flattenTurns_append, flattenTurns_singleton]
  refine List.Perm.trans ?_ List.perm_append_comm
  refine List.Perm.append (List.Perm.trans (List.Perm.of_eq ?_) hlatest) holder
  simp [List.append_assoc]

variable {tokenBudget : ℕ} {groups : List (List Numbered)} {selection : Selection} {picks : Picks}

theorem groupMessages_length (group : List Numbered) : (groupMessages group).length = group.length :=
  List.length_map _

variable {group : List Numbered}

theorem keys_entriesOf {chosen : List Message} (h : List.Forall₂ MessageCopy (groupMessages group) chosen) :
    (entriesOf group chosen).map Prod.fst = group.map Prod.snd := by
  have hlen := h.length_eq
  rw [groupMessages_length] at hlen
  exact List.map_fst_zip (by rw [List.length_map, hlen])

theorem values_entriesOf {chosen : List Message} (h : List.Forall₂ MessageCopy (groupMessages group) chosen) :
    (entriesOf group chosen).map Prod.snd = chosen := by
  have hlen := h.length_eq
  rw [groupMessages_length] at hlen
  exact List.map_snd_zip (by rw [List.length_map, hlen])

section

variable (h : Picked tokenBudget groups selection picks)

include h

/-- The numbers that are selected are those of the groups that were picked. -/
theorem Picked.keys : selection.selected.map Prod.fst = (picks.map Prod.fst).flatten.map Prod.snd := by
  rw [h.entries, List.map_flatMap, ← List.flatMap_def, List.map_flatMap]
  exact List.flatMap_congr fun pick hpick => keys_entriesOf (h.copies pick hpick)

theorem Picked.values :
    (selection.selected.map fun entry => entry.2.estimatedTokens).sum = selection.usedTokens := by
  rw [h.entries, h.tokens]
  have hcopies := h.copies
  clear h
  induction picks with
  | nil => rfl
  | cons pick picks ih =>
    rw [List.flatMap_cons, List.map_append, List.sum_append, List.map_cons, List.sum_cons,
      ih fun pick' hpick => hcopies pick' (List.mem_cons_of_mem _ hpick)]
    congr 1
    have hvalues := values_entriesOf (hcopies pick List.mem_cons_self)
    calc ((entriesOf pick.1 pick.2).map fun entry => entry.2.estimatedTokens).sum
        = (((entriesOf pick.1 pick.2).map Prod.snd).map Message.estimatedTokens).sum := by rw [List.map_map]; rfl
      _ = messageTokens id pick.2 := by rw [hvalues]; rfl

/-- No number is selected twice. -/
theorem Picked.nodup
    (hgroups : (groups.flatten.map Prod.snd).Nodup) : (selection.selected.map Prod.fst).Nodup := by
  rw [h.keys]
  have hsub : ((picks.map Prod.fst).reverse.flatten.map Prod.snd).Nodup :=
    hgroups.sublist (h.sublist.flatten.map _)
  refine List.Perm.nodup (List.Perm.map _ ?_) hsub
  exact List.Perm.flatten (List.reverse_perm _)

/-- A group that was tried was picked, or none of its numbers is selected. -/
theorem Picked.whole (hgroups : (groups.flatten.map Prod.snd).Nodup) (hgroup : group ∈ groups) :
    group ∈ picks.map Prod.fst ∨
      ∀ message ∈ group, message.2 ∉ selection.selected.map Prod.fst := by
  by_cases hpicked : group ∈ picks.map Prod.fst
  · exact .inl hpicked
  right
  intro message hmessage hkey
  rw [h.keys] at hkey
  obtain ⟨message', hmem, hnumber⟩ := List.mem_map.1 hkey
  obtain ⟨group', hpick, hmem'⟩ := List.mem_flatten.1 hmem
  have hgroup' : group' ∈ groups := h.sublist.subset (List.mem_reverse.2 hpick)
  have hne : group' ≠ group := fun heq => hpicked (heq ▸ hpick)
  -- two groups that are tried share no number
  have hapart : groups.Pairwise fun first second => ∀ x ∈ first, ∀ y ∈ second, x.2 ≠ y.2 := by
    rw [List.Nodup, List.pairwise_map, List.pairwise_flatten] at hgroups
    exact hgroups.2
  have hsymm : Std.Symm fun first second : List Numbered => ∀ x ∈ first, ∀ y ∈ second, x.2 ≠ y.2 :=
    ⟨fun first second hdiff x hx y hy heq => hdiff y hy x hx heq.symm⟩
  exact hapart.forall hgroup' hgroup hne message' hmem' message hmessage hnumber

theorem Picked.selected_of_mem
    (hgroup : group ∈ picks.map Prod.fst) {message : Numbered} (hmessage : message ∈ group) :
    message.2 ∈ selection.selected.map Prod.fst := by
  rw [h.keys]
  exact List.mem_map_of_mem (List.mem_flatten.2 ⟨group, hgroup, hmessage⟩)

/-- What is selected for a number is a copy of the message with this number. -/
theorem Picked.copy_of_mem {number : ℕ} {copy : Message} (hmem : (number, copy) ∈ selection.selected) :
    ∃ message, (message, number) ∈ groups.flatten ∧ MessageCopy message copy := by
  rw [h.entries] at hmem
  obtain ⟨pick, hpick, hentry⟩ := List.mem_flatMap.1 hmem
  have hgroup : pick.1 ∈ groups := h.sublist.subset (List.mem_reverse.2 (List.mem_map_of_mem hpick))
  have hcopies := h.copies pick hpick
  unfold entriesOf at hentry
  unfold groupMessages at hcopies
  rw [List.forall₂_map_left_iff] at hcopies
  suffices hfound : ∃ message, (message, number) ∈ pick.1 ∧ MessageCopy message copy by
    obtain ⟨message, hmessage, hcopy⟩ := hfound
    exact ⟨message, List.mem_flatten.2 ⟨_, hgroup, hmessage⟩, hcopy⟩
  clear hgroup hpick hmem h
  obtain ⟨group, chosen⟩ := pick
  dsimp only at hcopies hentry ⊢
  induction hcopies with
  | nil => cases hentry
  | cons hcopy hrest ih =>
    rw [List.map_cons, List.zip_cons_cons] at hentry
    rcases List.mem_cons.1 hentry with heq | hentry
    · obtain ⟨rfl, rfl⟩ := Prod.mk.inj heq
      exact ⟨_, List.mem_cons_self, hcopy⟩
    · obtain ⟨message, hmessage, hcopy'⟩ := ih hentry
      exact ⟨message, List.mem_cons_of_mem _ hmessage, hcopy'⟩

end

end Groups

/-! ## In order -/

section Returned

variable {selection : Selection} {count : ℕ}

/-- In their order, the selected messages are what was selected. -/
theorem returned_perm (hnodup : (selection.selected.map Prod.fst).Nodup)
    (hlt : ∀ number ∈ selection.selected.map Prod.fst, number < count) :
    (selection.returned count).Perm (selection.selected.map Prod.snd) := by
  have hentries : ((List.range count).filterMap fun number =>
      (selection.selected.lookup number).map fun copy => (number, copy)).Perm selection.selected := by
    refine (List.perm_ext_iff_of_nodup ?_ (List.Nodup.of_map _ hnodup)).2 ?_
    · refine List.Nodup.filterMap (fun number number' entry hentry hentry' => ?_) List.nodup_range
      obtain ⟨copy, -, rfl⟩ := Option.map_eq_some_iff.1 hentry
      obtain ⟨copy', -, heq⟩ := Option.map_eq_some_iff.1 hentry'
      exact (congrArg Prod.fst heq).symm
    · rintro ⟨number, copy⟩
      rw [List.mem_filterMap, ← Dict.lookup_eq_some_iff hnodup]
      constructor
      · rintro ⟨number', -, heq⟩
        obtain ⟨copy', hlookup, heq'⟩ := Option.map_eq_some_iff.1 heq
        obtain ⟨rfl, rfl⟩ := Prod.mk.inj heq'
        exact hlookup
      · intro hlookup
        refine ⟨number, List.mem_range.2 (hlt number ?_), by rw [hlookup]; rfl⟩
        exact List.mem_map_of_mem ((Dict.lookup_eq_some_iff hnodup).1 hlookup)
  have hvalues := hentries.map Prod.snd
  rw [List.map_filterMap] at hvalues
  refine (List.Perm.of_eq ?_).trans hvalues
  unfold Selection.returned
  refine List.filterMap_congr fun number _ => ?_
  rw [Option.map_map]
  cases selection.selected.lookup number with
  | none => rfl
  | some copy => rfl

end Returned

end OpenViking.Session
