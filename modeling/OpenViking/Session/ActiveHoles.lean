import OpenViking.Session.ActiveBudget

/-!
# Holes in the budgeted view

The turns before the latest are tried even where a part of the latest turn did not fit, and one that fits the room
that is left is shown behind a hole.  The room is counted here from the sizes of the groups alone.

Results:

* `olderTurns_contiguous`: the turns before the latest are shown from some turn on;
* `noHole_iff`: when there is no hole.
-/

namespace OpenViking.Session

/-! ## Room -/

/-- The tokens that a group takes in a room, if it fits. -/
def tokensTaken (allowTruncate : Bool) (group : List Numbered) (room : ℕ) : Option ℕ :=
  if messageTokens Prod.fst group ≤ room then some (messageTokens Prod.fst group)
  else if allowTruncate then
    let chosen := (truncateMessageGroup (groupMessages group) room).1
    if chosen.isEmpty then none else some (messageTokens id chosen)
  else none

/-- The groups that find room one after the other, until one does not, and the room that is left. -/
def place (allowTruncate : Bool) : List (List Numbered) → ℕ → List (List Numbered) × ℕ
  | [], room => ([], room)
  | group :: groups, room =>
    match tokensTaken allowTruncate group room with
    | none => ([], room)
    | some tokens =>
      let rest := place allowTruncate groups (room - tokens)
      (group :: rest.1, rest.2)

/-- The groups of the latest turn that find room, and the room that is left. -/
structure Placement where
  anchor : List (List Numbered)
  final : List (List Numbered)
  checkpoints : List (List Numbered)
  recent : List (List Numbered)
  room : ℕ

/-- The anchor, beside the reserve for the last step, then the last step, the checkpoints and the other steps. -/
def placeLatest (tokenBudget : ℕ) (groups : TurnGroups) : Placement :=
  let reserve := finalReserve tokenBudget groups.anchor groups.final
  let anchor := place true [groups.anchor] (tokenBudget - reserve)
  let final := place true [groups.final] (anchor.2 + reserve)
  let checkpoints := place true groups.checkpoints final.2
  let recent := place false groups.recent checkpoints.2
  ⟨anchor.1, final.1, checkpoints.1, recent.1, recent.2⟩

/-- A turn is shown whole, but for steps with a checkpoint. -/
def ShownWhole {α : Type*} (msg : α → Message) (shown : α → Prop) (turn : UserTurn α) : Prop :=
  (∀ message ∈ turn.anchor.toList, shown message) ∧
    ∀ step ∈ turn.steps, (∀ message ∈ step.messages, (msg message).messageKind ≠ some "checkpoint") →
      ∀ message ∈ step.messages, shown message

/-- Where a message of a turn is shown, every later turn is shown whole. -/
def Contiguous {α : Type*} (msg : α → Message) (shown : α → Prop) (turns : List (UserTurn α)) : Prop :=
  turns.Pairwise fun turn later => (∃ message ∈ turn.messages, shown message) → ShownWhole msg shown later

/-- The numbers of the messages that are returned (`returned_ids`, 361). -/
def returnedNumbers (messages : List Message) (tokenBudget : ℤ) : List ℕ :=
  if messages.isEmpty || decide (tokenBudget.toNat = 0) then []
  else if messageTokens id messages ≤ tokenBudget.toNat then List.range messages.length
  else (selectActive messages tokenBudget.toNat).selected.map Prod.fst

/-- The view has no hole. -/
def NoHole (messages : List Message) (tokenBudget : ℤ) : Prop :=
  Contiguous Prod.fst (fun message => message.2 ∈ returnedNumbers messages tokenBudget)
    (buildTurns Prod.fst messages.zipIdx)

/-- All of the latest turn finds room, but for checkpoints. -/
structure FitsWhole (tokenBudget : ℕ) (latest : UserTurn Numbered) : Prop where
  anchor : (placeLatest tokenBudget (turnGroups latest)).anchor = [(turnGroups latest).anchor]
  final : (∃ final ∈ latest.steps.getLast?, hasCheckpoint final = true) ∨
    (placeLatest tokenBudget (turnGroups latest)).final = [(turnGroups latest).final]
  recent : (placeLatest tokenBudget (turnGroups latest)).recent = (turnGroups latest).recent

/-- The whole conversation fits, or the turn before the latest finds no room, or the latest turn fits whole. -/
def LeavesNoHole (messages : List Message) (tokenBudget : ℤ) : Prop :=
  tokenBudget.toNat = 0 ∨ messageTokens id messages ≤ tokenBudget.toNat ∨
    ∀ before previous latest, buildTurns Prod.fst messages.zipIdx = before ++ [previous, latest] →
      (placeLatest tokenBudget.toNat (turnGroups latest)).room < previous.estimatedTokens Prod.fst ∨
        FitsWhole tokenBudget.toNat latest

/-! ## What is selected is what has room -/

section Placing

variable {tokenBudget : ℕ}

/-- The numbers that are selected. -/
def Selection.numbers (selection : Selection) : List ℕ := selection.selected.map Prod.fst

theorem tokensTaken_le {allowTruncate : Bool} {group : List Numbered} {room tokens : ℕ}
    (h : tokensTaken allowTruncate group room = some tokens) : tokens ≤ room := by
  unfold tokensTaken at h
  by_cases hwhole : messageTokens Prod.fst group ≤ room
  · rw [if_pos hwhole] at h
    obtain rfl := Option.some.inj h
    exact hwhole
  rw [if_neg hwhole] at h
  cases allowTruncate with
  | false => cases h
  | true =>
    rw [if_pos rfl] at h
    dsimp only at h
    by_cases hchosen : (truncateMessageGroup (groupMessages group) room).1 = []
    · rw [if_pos (by simpa using hchosen)] at h
      cases h
    · rw [if_neg (by simpa using hchosen)] at h
      obtain rfl := Option.some.inj h
      exact (truncateMessageGroup_spec hchosen).2

variable (allowTruncate : Bool)

variable (groups : List (List Numbered))

theorem place_room_le (room : ℕ) :
    (place allowTruncate groups room).2 ≤ room := by
  induction groups generalizing room with
  | nil => exact le_refl _
  | cons group groups ih =>
    rw [place]
    cases htaken : tokensTaken allowTruncate group room with
    | none => exact le_refl _
    | some tokens => exact (ih _).trans (Nat.sub_le _ _)

theorem place_starts (room : ℕ) :
    (place allowTruncate groups room).1 <+: groups := by
  induction groups generalizing room with
  | nil => exact List.prefix_refl _
  | cons group groups ih =>
    rw [place]
    cases htaken : tokensTaken allowTruncate group room with
    | none => exact List.nil_prefix
    | some tokens => exact List.prefix_cons_inj group |>.2 (ih _)

/-- Selecting a group takes the tokens that it takes in the room that is left. -/
theorem selectGroup_taken (tokenBudget : ℕ) (group : List Numbered) (allowTruncate : Bool)
    (maxBudget : Option ℤ) (selection : Selection) :
    (tokensTaken allowTruncate group (remainingFor tokenBudget maxBudget selection.usedTokens) = none ∧
      selectGroup tokenBudget group allowTruncate maxBudget selection = (false, selection)) ∨
    ∃ tokens selection', tokensTaken allowTruncate group
        (remainingFor tokenBudget maxBudget selection.usedTokens) = some tokens ∧
      selectGroup tokenBudget group allowTruncate maxBudget selection = (true, selection') ∧
      selection'.usedTokens = selection.usedTokens + tokens ∧
      selection'.numbers = group.map Prod.snd ++ selection.numbers := by
  have hrecord : ∀ chosen truncated, List.Forall₂ MessageCopy (groupMessages group) chosen →
      (selection.record group chosen truncated).numbers = group.map Prod.snd ++ selection.numbers := by
    intro chosen truncated hcopies
    unfold Selection.numbers Selection.record
    rw [List.map_append, keys_entriesOf hcopies]
  unfold selectGroup
  by_cases hnil : group = []
  · right
    rw [hnil, if_pos List.isEmpty_nil]
    exact ⟨0, selection, if_pos (Nat.zero_le _), rfl, rfl, rfl⟩
  rw [if_neg (by simpa using hnil)]
  dsimp only
  generalize remainingFor tokenBudget maxBudget selection.usedTokens = room
  unfold tokensTaken
  by_cases hover : room < messageTokens Prod.fst group
  · rw [if_pos hover, if_neg (not_le.2 hover)]
    cases allowTruncate with
    | false => exact .inl ⟨rfl, if_pos rfl⟩
    | true =>
      rw [if_pos rfl]
      dsimp only
      by_cases hchosen : (truncateMessageGroup (groupMessages group) room).1 = []
      · left
        have hempty : (truncateMessageGroup (groupMessages group) room).1.isEmpty = true := by simpa using hchosen
        rw [hempty, if_pos rfl, if_pos rfl]
        exact ⟨rfl, ite_self _⟩
      · right
        have hroom : (!true || decide (room = 0)) = false := by
          have hpos := ((truncateMessageGroup_ne_nil_iff _ _).1 hchosen).2.1
          have hne : room ≠ 0 := by omega
          rw [decide_eq_false hne]
          rfl
        have hfull : (truncateMessageGroup (groupMessages group) room).1.isEmpty = false := by simpa using hchosen
        rw [hroom, hfull, if_neg Bool.false_ne_true, if_neg Bool.false_ne_true, if_neg Bool.false_ne_true]
        exact ⟨_, _, rfl, rfl, rfl, hrecord _ _ (truncateMessageGroup_spec hchosen).1⟩
  · right
    rw [if_neg hover, if_pos (not_lt.1 hover)]
    refine ⟨_, _, rfl, rfl, ?_, hrecord _ _ (copies_refl _)⟩
    show selection.usedTokens + messageTokens id (groupMessages group) = _
    rw [messageTokens_groupMessages]

/-- Selecting groups one after the other selects those that find room. -/
theorem selectWhile_place (selection : Selection)
    (hused : selection.usedTokens ≤ tokenBudget) :
    let placed := place allowTruncate groups (tokenBudget - selection.usedTokens)
    (selectWhile tokenBudget allowTruncate groups selection).usedTokens = tokenBudget - placed.2 ∧
      ∀ number, number ∈ (selectWhile tokenBudget allowTruncate groups selection).numbers ↔
        number ∈ placed.1.flatten.map Prod.snd ∨ number ∈ selection.numbers := by
  induction groups generalizing selection with
  | nil =>
    refine ⟨?_, fun number => ?_⟩
    · show selection.usedTokens = tokenBudget - (tokenBudget - selection.usedTokens)
      omega
    · show _ ↔ number ∈ [] ∨ _
      rw [or_iff_right List.not_mem_nil]
      rfl
  | cons group groups ih =>
    dsimp only
    rw [selectWhile, place]
    rcases selectGroup_taken tokenBudget group allowTruncate none selection with
      ⟨hnone, heq⟩ | ⟨tokens, selection', htaken, heq, hused', hnumbers⟩
    · have hnone' : tokensTaken allowTruncate group (tokenBudget - selection.usedTokens) = none := hnone
      rw [heq, hnone']
      dsimp only
      rw [if_neg Bool.false_ne_true]
      refine ⟨by omega, fun number => ?_⟩
      rw [List.flatten_nil, List.map_nil, or_iff_right List.not_mem_nil]
    · have htaken' : tokensTaken allowTruncate group (tokenBudget - selection.usedTokens) = some tokens := htaken
      have hle := tokensTaken_le htaken'
      have hroom : tokenBudget - selection.usedTokens - tokens = tokenBudget - selection'.usedTokens := by omega
      rw [heq, htaken']
      dsimp only
      rw [if_pos rfl, hroom]
      obtain ⟨hrest, hmem⟩ := ih selection' (by omega)
      refine ⟨hrest, fun number => ?_⟩
      rw [hmem, hnumbers, List.mem_append, List.flatten_cons, List.map_append, List.mem_append, or_left_comm,
        or_assoc]

/-- One group, where it is tried alone. -/
theorem selectGroup_place (tokenBudget : ℕ) (group : List Numbered) (allowTruncate : Bool) (maxBudget : Option ℤ)
    (selection : Selection) :
    let placed := place allowTruncate [group] (remainingFor tokenBudget maxBudget selection.usedTokens)
    let selection' := (selectGroup tokenBudget group allowTruncate maxBudget selection).2
    selection'.usedTokens + placed.2 =
        selection.usedTokens + remainingFor tokenBudget maxBudget selection.usedTokens ∧
      ∀ number, number ∈ selection'.numbers ↔
        number ∈ placed.1.flatten.map Prod.snd ∨ number ∈ selection.numbers := by
  dsimp only
  rw [place]
  rcases selectGroup_taken tokenBudget group allowTruncate maxBudget selection with
    ⟨hnone, heq⟩ | ⟨tokens, selection', htaken, heq, hused', hnumbers⟩
  · rw [heq, hnone]
    dsimp only
    refine ⟨rfl, fun number => ?_⟩
    rw [List.flatten_nil, List.map_nil, or_iff_right List.not_mem_nil]
  · have hle := tokensTaken_le htaken
    rw [heq, htaken]
    dsimp only [place]
    refine ⟨by omega, fun number => ?_⟩
    rw [hnumbers, List.mem_append, List.flatten_singleton]

theorem finalReserve_le (tokenBudget : ℕ) (anchorGroup finalGroup : List Numbered) :
    finalReserve tokenBudget anchorGroup finalGroup ≤ tokenBudget := by
  unfold finalReserve
  split
  · exact Nat.zero_le _
  · split
    · split
      · omega
      · exact Nat.zero_le _
    · exact Nat.zero_le _

/-- From the latest turn what finds room is selected. -/
theorem selectLatest_place (tokenBudget : ℕ) (groups : TurnGroups) :
    let placed := placeLatest tokenBudget groups
    (selectLatest tokenBudget groups).usedTokens = tokenBudget - placed.room ∧ placed.room ≤ tokenBudget ∧
      ∀ number, number ∈ (selectLatest tokenBudget groups).numbers ↔
        number ∈ (placed.anchor ++ placed.final ++ placed.checkpoints ++ placed.recent).flatten.map Prod.snd := by
  have hreserve := finalReserve_le tokenBudget groups.anchor groups.final
  have hcap : remainingFor tokenBudget
      (some (tokenBudget - finalReserve tokenBudget groups.anchor groups.final)) 0 =
        tokenBudget - finalReserve tokenBudget groups.anchor groups.final := by
    unfold remainingFor
    rw [Option.elim_some]
    omega
  have hA := selectGroup_place tokenBudget groups.anchor true
    (some (tokenBudget - finalReserve tokenBudget groups.anchor groups.final)) ⟨[], [], 0⟩
  dsimp only at hA
  rw [hcap] at hA
  obtain ⟨husedA, hmemA⟩ := hA
  have hleA := place_room_le true [groups.anchor]
    (tokenBudget - finalReserve tokenBudget groups.anchor groups.final)
  generalize hselA : (selectGroup tokenBudget groups.anchor true
    (some (tokenBudget - finalReserve tokenBudget groups.anchor groups.final)) ⟨[], [], 0⟩).2 = selA
    at husedA hmemA
  have hroomF : remainingFor tokenBudget none selA.usedTokens =
      (place true [groups.anchor] (tokenBudget - finalReserve tokenBudget groups.anchor groups.final)).2 +
        finalReserve tokenBudget groups.anchor groups.final := by
    show tokenBudget - selA.usedTokens = _
    omega
  have hF := selectGroup_place tokenBudget groups.final true none selA
  dsimp only at hF
  rw [hroomF] at hF
  obtain ⟨husedF, hmemF⟩ := hF
  generalize hselF : (selectGroup tokenBudget groups.final true none selA).2 = selF at husedF hmemF
  have hleF := place_room_le true [groups.final]
    ((place true [groups.anchor] (tokenBudget - finalReserve tokenBudget groups.anchor groups.final)).2 +
      finalReserve tokenBudget groups.anchor groups.final)
  have hC := selectWhile_place true groups.checkpoints selF (show selF.usedTokens ≤ tokenBudget by omega)
  unfold placeLatest
  dsimp only
  generalize hpA : place true [groups.anchor] (tokenBudget - finalReserve tokenBudget groups.anchor groups.final) = pA
    at *
  generalize hpF : place true [groups.final] (pA.2 + finalReserve tokenBudget groups.anchor groups.final) = pF at *
  dsimp only at hC
  rw [show tokenBudget - selF.usedTokens = pF.2 by omega] at hC
  obtain ⟨husedC, hmemC⟩ := hC
  have hleC := place_room_le true groups.checkpoints pF.2
  generalize hpC : place true groups.checkpoints pF.2 = pC at *
  generalize hselC : selectWhile tokenBudget true groups.checkpoints selF = selC at husedC hmemC
  have hR := selectWhile_place false groups.recent selC (show selC.usedTokens ≤ tokenBudget by omega)
  dsimp only at hR
  rw [show tokenBudget - selC.usedTokens = pC.2 by omega] at hR
  obtain ⟨husedR, hmemR⟩ := hR
  have hleR := place_room_le false groups.recent pC.2
  have hlatest : selectLatest tokenBudget groups = selectWhile tokenBudget false groups.recent selC := by
    unfold selectLatest
    dsimp only
    rw [hselA, hselF, hselC]
  rw [hlatest]
  refine ⟨husedR, by omega, fun number => ?_⟩
  have hnone : number ∉ Selection.numbers ⟨[], [], 0⟩ := List.not_mem_nil
  rw [hmemR, hmemC, hmemF, hmemA, or_iff_left hnone]
  simp only [List.flatten_append, List.map_append, List.mem_append]
  tauto

end Placing

/-! ## Numbers -/

section Numbers

/-- The numbers in groups. -/
def groupNumbers (groups : List (List Numbered)) : List ℕ := groups.flatten.map Prod.snd

@[simp] theorem groupNumbers_append (first rest : List (List Numbered)) :
    groupNumbers (first ++ rest) = groupNumbers first ++ groupNumbers rest := by
  unfold groupNumbers
  rw [List.flatten_append, List.map_append]

theorem mem_groupNumbers {groups : List (List Numbered)} {group : List Numbered} (hgroup : group ∈ groups)
    {message : Numbered} (hmessage : message ∈ group) : message.2 ∈ groupNumbers groups :=
  List.mem_map_of_mem (List.mem_flatten.2 ⟨group, hgroup, hmessage⟩)

variable {first groups : List (List Numbered)}

theorem groupNumbers_subset (h : first <+: groups) : groupNumbers first ⊆ groupNumbers groups := by
  obtain ⟨rest, rfl⟩ := h
  rw [groupNumbers_append]
  exact List.subset_append_left _ _

/-- The first groups are all of them if they hold every number. -/
theorem prefix_eq_of_numbers (hstart : first <+: groups)
    (hnodup : (groupNumbers groups).Nodup) (hne : ∀ group ∈ groups, group ≠ [])
    (hall : groupNumbers groups ⊆ groupNumbers first) : first = groups := by
  obtain ⟨rest, rfl⟩ := hstart
  cases rest with
  | nil => exact (List.append_nil _).symm
  | cons group rest =>
    obtain ⟨message, hmessage⟩ := List.exists_mem_of_ne_nil _ (hne group (by simp))
    have hrest : message.2 ∈ groupNumbers (group :: rest) := mem_groupNumbers List.mem_cons_self hmessage
    rw [groupNumbers_append] at hnodup hall
    have hfirst := hall (List.mem_append_right _ hrest)
    exact absurd hrest (List.disjoint_of_nodup_append hnodup hfirst)

theorem place_one_eq {allowTruncate : Bool} {group : List Numbered} {room : ℕ}
    (hnodup : (groupNumbers [group]).Nodup)
    (hall : groupNumbers [group] ⊆ groupNumbers (place allowTruncate [group] room).1) :
    (place allowTruncate [group] room).1 = [group] := by
  by_cases hnil : group = []
  · rw [hnil]
    have htaken : tokensTaken allowTruncate [] room = some 0 := if_pos (Nat.zero_le _)
    rw [place, htaken]
    rfl
  · refine prefix_eq_of_numbers (place_starts _ _ _) hnodup (fun group' hgroup' => ?_) hall
    rwa [List.mem_singleton.1 hgroup']

/-- A number of a part of a list without repetition that is in a part of it is in the part of the part. -/
theorem mem_of_apart {a f c r o a' f' c' r' o' : List ℕ} (hnodup : (a ++ f ++ c ++ r ++ o).Nodup)
    (ha : a' ⊆ a) (hf : f' ⊆ f) (hc : c' ⊆ c) (hr : r' ⊆ r) (ho : o' ⊆ o) {n : ℕ}
    (h : n ∈ a' ++ f' ++ c' ++ r' ++ o') :
    (n ∈ a → n ∈ a') ∧ (n ∈ f → n ∈ f') ∧ (n ∈ r → n ∈ r') ∧ (n ∈ o → n ∈ o') := by
  simp only [List.nodup_append, List.mem_append] at hnodup h
  grind

end Numbers

/-! ## Turns that are shown -/

section Shown

variable {α : Type*} {msg : α → Message}

theorem shownWhole_of_all {shown : α → Prop} {turn : UserTurn α} (h : ∀ message ∈ turn.messages, shown message) :
    ShownWhole msg shown turn :=
  ⟨fun message hmessage => h message (List.mem_append_left _ hmessage), fun step hstep _ message hmessage =>
    h message (List.mem_append_right _ (List.mem_flatMap.2 ⟨step, hstep, hmessage⟩))⟩

end Shown

/-! ## The view -/

section View

variable {messages : List Message} {older : List (UserTurn Numbered)} {latest : UserTurn Numbered}

theorem hasCheckpoint_eq_false_iff (step : AssistantStep Numbered) :
    hasCheckpoint step = false ↔ ∀ message ∈ step.messages, message.1.messageKind ≠ some "checkpoint" := by
  unfold hasCheckpoint
  rw [List.any_eq_false]
  simp

/-- The numbers of the groups that find room. -/
def Placement.numbers (placed : Placement) : List ℕ :=
  groupNumbers placed.anchor ++ groupNumbers placed.final ++ groupNumbers placed.checkpoints ++
    groupNumbers placed.recent

/-- The turns before the latest that find room, newest first. -/
def placeOlder (tokenBudget : ℕ) (older : List (UserTurn Numbered)) (latest : UserTurn Numbered) :
    List (List Numbered) :=
  (place false (older.reverse.map UserTurn.messages) (placeLatest tokenBudget (turnGroups latest)).room).1

section

variable (hturns : buildTurns Prod.fst messages.zipIdx = older ++ [latest])

include hturns

theorem mem_selectActive_numbers (tokenBudget number : ℕ) :
    number ∈ (selectActive messages tokenBudget).numbers ↔
      number ∈ (placeLatest tokenBudget (turnGroups latest)).numbers ++
        groupNumbers (placeOlder tokenBudget older latest) := by
  obtain ⟨hused, hroom, hmem⟩ := selectLatest_place tokenBudget (turnGroups latest)
  have holder := selectWhile_place false (older.reverse.map UserTurn.messages)
    (selectLatest tokenBudget (turnGroups latest)) (show _ ≤ tokenBudget by omega)
  dsimp only at holder
  rw [show tokenBudget - (selectLatest tokenBudget (turnGroups latest)).usedTokens =
    (placeLatest tokenBudget (turnGroups latest)).room by omega] at holder
  rw [selectActive_eq tokenBudget hturns, holder.2, hmem, List.mem_append, or_comm]
  unfold Placement.numbers
  rw [← groupNumbers_append, ← groupNumbers_append, ← groupNumbers_append]
  rfl

/-- A number of a group is selected where it found room. -/
theorem selected_part {tokenBudget number : ℕ} (h : number ∈ (selectActive messages tokenBudget).numbers) :
    (number ∈ groupNumbers [(turnGroups latest).anchor] →
        number ∈ groupNumbers (placeLatest tokenBudget (turnGroups latest)).anchor) ∧
      (number ∈ groupNumbers [(turnGroups latest).final] →
        number ∈ groupNumbers (placeLatest tokenBudget (turnGroups latest)).final) ∧
      (number ∈ groupNumbers (turnGroups latest).recent →
        number ∈ groupNumbers (placeLatest tokenBudget (turnGroups latest)).recent) ∧
      (number ∈ groupNumbers (older.reverse.map UserTurn.messages) →
        number ∈ groupNumbers (placeOlder tokenBudget older latest)) := by
  have hnodup : (groupNumbers (allGroups older latest)).Nodup := allGroups_nodup hturns
  have hgroups : allGroups older latest = [(turnGroups latest).anchor] ++ [(turnGroups latest).final] ++
      (turnGroups latest).checkpoints ++ (turnGroups latest).recent ++ older.reverse.map UserTurn.messages := rfl
  rw [hgroups, groupNumbers_append, groupNumbers_append, groupNumbers_append, groupNumbers_append] at hnodup
  rw [mem_selectActive_numbers hturns] at h
  exact mem_of_apart hnodup (groupNumbers_subset (place_starts _ _ _)) (groupNumbers_subset (place_starts _ _ _))
    (groupNumbers_subset (place_starts _ _ _)) (groupNumbers_subset (place_starts _ _ _))
    (groupNumbers_subset (place_starts _ _ _)) h

variable (tokenBudget : ℕ)

/-- The latest turn is shown whole exactly if it finds room. -/
theorem shownWhole_latest_iff :
    ShownWhole Prod.fst (fun message => message.2 ∈ (selectActive messages tokenBudget).numbers) latest ↔
      FitsWhole tokenBudget latest := by
  have hgroups : (groupNumbers (allGroups older latest)).Nodup := allGroups_nodup hturns
  have hnodup : ∀ groups, groups.Sublist (allGroups older latest) → (groupNumbers groups).Nodup :=
    fun groups hsub => hgroups.sublist (hsub.flatten.map _)
  have hfilled : latest.Filled := buildTurns_filled messages.zipIdx latest (by rw [hturns]; simp)
  constructor
  · rintro ⟨hanchor, hsteps⟩
    refine ⟨?_, ?_, ?_⟩
    · refine place_one_eq (hnodup _ (by simp [allGroups])) fun number hnumber => ?_
      obtain ⟨message, hmessage, rfl⟩ := List.mem_map.1 hnumber
      rw [List.flatten_singleton] at hmessage
      exact (selected_part hturns (hanchor message hmessage)).1 hnumber
    · by_cases hcheckpoint : ∃ final ∈ latest.steps.getLast?, hasCheckpoint final = true
      · exact .inl hcheckpoint
      right
      refine place_one_eq (hnodup _ (by simp [allGroups])) fun number hnumber => ?_
      obtain ⟨message, hmessage, rfl⟩ := List.mem_map.1 hnumber
      rw [List.flatten_singleton] at hmessage
      refine (selected_part hturns ?_).2.1 hnumber
      cases hlast : latest.steps.getLast? with
      | none =>
        unfold turnGroups at hmessage
        rw [hlast] at hmessage
        exact absurd hmessage List.not_mem_nil
      | some final =>
        unfold turnGroups at hmessage
        rw [hlast] at hmessage hcheckpoint
        refine hsteps final (List.mem_of_getLast? hlast) ((hasCheckpoint_eq_false_iff final).1 ?_) message hmessage
        exact Bool.eq_false_of_not_eq_true fun htrue => hcheckpoint ⟨final, rfl, htrue⟩
    · refine prefix_eq_of_numbers (place_starts _ _ _) (hnodup _ ?_) ?_ fun number hnumber => ?_
      · unfold allGroups
        exact (List.sublist_append_right _ _).trans (List.sublist_append_left _ _)
      · intro group hgroup
        obtain ⟨step, hstep, rfl⟩ := List.mem_map.1 hgroup
        exact hfilled.2 step (List.mem_of_mem_dropLast (List.mem_reverse.1 (List.mem_filter.1 hstep).1))
      · obtain ⟨message, hmessage, rfl⟩ := List.mem_map.1 hnumber
        refine (selected_part hturns ?_).2.2.1 hnumber
        obtain ⟨group, hgroup, hmessage⟩ := List.mem_flatten.1 hmessage
        obtain ⟨step, hstep, rfl⟩ := List.mem_map.1 hgroup
        obtain ⟨hmem, hcheckpoint⟩ := List.mem_filter.1 hstep
        refine hsteps step (List.mem_of_mem_dropLast (List.mem_reverse.1 hmem)) ?_ message hmessage
        exact (hasCheckpoint_eq_false_iff step).1 (Bool.not_eq_true' _ ▸ hcheckpoint)
  · rintro ⟨hanchor, hfinal, hrecent⟩
    have hmem : ∀ number, number ∈ (placeLatest tokenBudget (turnGroups latest)).numbers →
        number ∈ (selectActive messages tokenBudget).numbers := fun number hnumber =>
      (mem_selectActive_numbers hturns tokenBudget number).2 (List.mem_append_left _ hnumber)
    unfold Placement.numbers at hmem
    rw [hanchor, hrecent] at hmem
    refine ⟨fun message hmessage => ?_, fun step hstep hkinds message hmessage => ?_⟩
    · refine hmem _ ?_
      simp only [List.mem_append]
      exact .inl (.inl (.inl (mem_groupNumbers (List.mem_singleton_self _) hmessage)))
    · have hcheckpoint := (hasCheckpoint_eq_false_iff step).2 hkinds
      obtain ⟨init, final, heq⟩ := exists_concat_of_ne_nil (List.ne_nil_of_mem hstep)
      refine hmem _ ?_
      simp only [List.mem_append]
      rw [heq] at hstep
      rcases List.mem_append.1 hstep with hinit | hlast
      · refine .inr (mem_groupNumbers ?_ hmessage)
        unfold turnGroups
        rw [heq, List.dropLast_concat]
        refine List.mem_map_of_mem (List.mem_filter.2 ⟨List.mem_reverse.2 hinit, ?_⟩)
        rw [hcheckpoint]
        rfl
      · rw [List.mem_singleton.1 hlast] at hcheckpoint hmessage
        rcases hfinal with ⟨final', hfinal', htrue⟩ | hfinal
        · rw [heq, List.getLast?_concat] at hfinal'
          rw [← Option.some.inj hfinal', hcheckpoint] at htrue
          exact absurd htrue Bool.false_ne_true
        · refine .inl (.inl (.inr ?_))
          rw [hfinal]
          refine mem_groupNumbers (List.mem_singleton_self _) ?_
          unfold turnGroups
          rw [heq, List.getLast?_concat]
          exact hmessage

/-- The turns before the latest are shown from some turn on, the one before the latest if it finds room. -/
theorem olderTurns_contiguous :
    ∃ hidden kept, older = hidden ++ kept ∧
      (∀ turn ∈ hidden, ∀ message ∈ turn.messages, message.2 ∉ (selectActive messages tokenBudget).numbers) ∧
      (∀ turn ∈ kept, ∀ message ∈ turn.messages, message.2 ∈ (selectActive messages tokenBudget).numbers) ∧
      (kept = [] ↔ ∀ previous ∈ older.getLast?,
        (placeLatest tokenBudget (turnGroups latest)).room < previous.estimatedTokens Prod.fst) := by
  have hstart : placeOlder tokenBudget older latest <+: older.reverse.map UserTurn.messages := place_starts _ _ _
  have hplaced := List.prefix_iff_eq_take.1 hstart
  generalize hcount : (placeOlder tokenBudget older latest).length = count at hplaced
  rw [← List.map_take] at hplaced
  have hturn : ∀ turns : List (UserTurn Numbered), ∀ turn ∈ turns, ∀ message ∈ turn.messages,
      message.2 ∈ groupNumbers (turns.map UserTurn.messages) := fun turns turn hturn message hmessage =>
    mem_groupNumbers (List.mem_map_of_mem hturn) hmessage
  refine ⟨(older.reverse.drop count).reverse, (older.reverse.take count).reverse, ?_, ?_, ?_, ?_⟩
  · rw [← List.reverse_append, List.take_append_drop, List.reverse_reverse]
  · intro turn hhidden message hmessage hselected
    rw [List.mem_reverse] at hhidden
    have hin := (selected_part hturns hselected).2.2.2
      (hturn _ turn (List.mem_of_mem_drop hhidden) message hmessage)
    have hnodup : (groupNumbers (older.reverse.map UserTurn.messages)).Nodup := by
      have hgroups : (groupNumbers (allGroups older latest)).Nodup := allGroups_nodup hturns
      exact hgroups.sublist ((List.sublist_append_right _ _).flatten.map _)
    rw [← List.take_append_drop count older.reverse, List.map_append, groupNumbers_append] at hnodup
    rw [hplaced] at hin
    exact List.disjoint_of_nodup_append hnodup hin (hturn _ turn hhidden message hmessage)
  · intro turn hkept message hmessage
    refine (mem_selectActive_numbers hturns tokenBudget _).2 (List.mem_append_right _ ?_)
    rw [hplaced]
    exact hturn _ turn (List.mem_reverse.1 hkept) message hmessage
  · rw [List.reverse_eq_nil_iff, ← List.map_eq_nil_iff (f := UserTurn.messages), ← hplaced]
    by_cases hnil : older = []
    · rw [hnil]
      exact ⟨fun _ previous hprevious => absurd hprevious (Option.not_mem_none previous), fun _ => rfl⟩
    obtain ⟨init, previous, rfl⟩ := exists_concat_of_ne_nil hnil
    unfold placeOlder
    rw [List.reverse_concat, List.map_cons, place, List.getLast?_concat]
    unfold tokensTaken UserTurn.estimatedTokens
    by_cases hfits : messageTokens Prod.fst previous.messages ≤
        (placeLatest tokenBudget (turnGroups latest)).room
    · rw [if_pos hfits]
      dsimp only
      exact ⟨fun hcons => absurd hcons (List.cons_ne_nil _ _),
        fun hless => absurd hfits (not_le.2 (hless previous rfl))⟩
    · rw [if_neg hfits, if_neg Bool.false_ne_true]
      refine ⟨fun _ previous' hprevious => ?_, fun _ => rfl⟩
      rw [← Option.some.inj hprevious]
      exact not_le.1 hfits

/-- In what is selected there is no hole exactly if the turn before the latest, or the latest, lets none be. -/
theorem contiguous_selectActive_iff :
    Contiguous Prod.fst (fun message => message.2 ∈ (selectActive messages tokenBudget).numbers)
        (buildTurns Prod.fst messages.zipIdx) ↔
      (∀ previous ∈ older.getLast?,
        (placeLatest tokenBudget (turnGroups latest)).room < previous.estimatedTokens Prod.fst) ∨
        FitsWhole tokenBudget latest := by
  obtain ⟨hidden, kept, hsplit, hhidden, hkept, hnone⟩ := olderTurns_contiguous hturns tokenBudget
  have hwhole : ∀ turn ∈ kept, ShownWhole Prod.fst
      (fun message => message.2 ∈ (selectActive messages tokenBudget).numbers) turn := by
    exact fun turn hturn => shownWhole_of_all (hkept turn hturn)
  rw [← hnone, ← shownWhole_latest_iff hturns tokenBudget]
  unfold Contiguous
  rw [hturns, List.pairwise_append]
  constructor
  · rintro ⟨-, -, hlatest⟩
    by_cases hnil : kept = []
    · exact .inl hnil
    right
    obtain ⟨turn, hturn⟩ := List.exists_mem_of_ne_nil _ hnil
    have hmem : turn ∈ older := by
      rw [hsplit]
      exact List.mem_append_right _ hturn
    have hfilled : turn.Filled := buildTurns_filled messages.zipIdx turn (by
      rw [hturns]
      exact List.mem_append_left _ hmem)
    obtain ⟨message, hmessage⟩ := List.exists_mem_of_ne_nil _ hfilled.1
    exact hlatest turn hmem latest (List.mem_singleton_self _)
      ⟨message, hmessage, hkept turn hturn message hmessage⟩
  · intro h
    refine ⟨?_, List.pairwise_singleton _ _, ?_⟩
    · rw [hsplit, List.pairwise_append]
      refine ⟨List.pairwise_of_forall_mem_list ?_, List.pairwise_of_forall_mem_list ?_, ?_⟩
      · rintro turn hturn later - ⟨message, hmessage, hshown⟩
        exact absurd hshown (hhidden turn hturn message hmessage)
      · exact fun _ _ later hlater _ => hwhole later hlater
      · exact fun _ _ later hlater _ => hwhole later hlater
    · rintro turn hturn later hlater ⟨message, hmessage, hshown⟩
      rw [List.mem_singleton.1 hlater]
      rcases h with hnil | hlatest
      · rw [hsplit, hnil, List.append_nil] at hturn
        exact absurd hshown (hhidden turn hturn message hmessage)
      · exact hlatest

end

theorem mem_zipIdx_lt {message : Numbered} (h : message ∈ messages.zipIdx) : message.2 < messages.length :=
  (List.getElem?_eq_some_iff.1 (List.mem_zipIdx_iff_getElem?.1 h)).1

/-- **There is no hole** exactly if the turn before the latest finds no room, or the latest turn does. -/
theorem noHole_iff (messages : List Message) (tokenBudget : ℤ) :
    NoHole messages tokenBudget ↔ LeavesNoHole messages tokenBudget := by
  unfold NoHole LeavesNoHole returnedNumbers
  by_cases hnone : messages = [] ∨ tokenBudget.toNat = 0
  · rw [if_pos (by simpa using hnone)]
    refine ⟨fun _ => ?_, fun _ => List.pairwise_of_forall_mem_list ?_⟩
    · rcases hnone with rfl | hzero
      · exact .inr (.inl (Nat.zero_le _))
      · exact .inl hzero
    · rintro turn - later - ⟨message, -, hnumber⟩
      exact absurd hnumber List.not_mem_nil
  rw [if_neg (by simpa using hnone)]
  by_cases hall : messageTokens id messages ≤ tokenBudget.toNat
  · rw [if_pos hall]
    refine ⟨fun _ => .inr (.inl hall), fun _ => List.pairwise_of_forall_mem_list ?_⟩
    rintro turn - later hlater -
    refine shownWhole_of_all fun message hmessage => ?_
    have hmem := mem_flattenTurns_of_turn hlater hmessage
    rw [flattenTurns_buildTurns] at hmem
    exact List.mem_range.2 (mem_zipIdx_lt hmem)
  rw [if_neg hall, or_iff_right (not_or.1 hnone).2, or_iff_right hall]
  have hne : buildTurns Prod.fst messages.zipIdx ≠ [] := by
    rw [ne_eq, buildTurns_eq_nil_iff, List.zipIdx_eq_nil_iff]
    exact (not_or.1 hnone).1
  obtain ⟨older, latest, hturns⟩ := exists_concat_of_ne_nil hne
  refine (contiguous_selectActive_iff hturns tokenBudget.toNat).trans ?_
  rw [hturns]
  constructor
  · intro hleaves before previous latest' heq
    have hconcat : before ++ [previous, latest'] = (before ++ [previous]) ++ [latest'] := by simp
    obtain ⟨rfl, hlatest⟩ := List.append_inj' (heq.trans hconcat) rfl
    obtain rfl := (List.cons.inj hlatest).1
    exact hleaves.imp_left fun hless => hless previous List.getLast?_concat
  · intro hleaves
    by_cases hnil : older = []
    · rw [hnil]
      exact .inl fun previous hprevious => absurd hprevious (Option.not_mem_none previous)
    obtain ⟨before, previous, rfl⟩ := exists_concat_of_ne_nil hnil
    refine (hleaves before previous latest (by simp)).imp_left fun hless previous' hprevious => ?_
    rw [List.getLast?_concat] at hprevious
    rwa [← Option.some.inj hprevious]

/-- A long step of the latest turn finds no room, and the turn before finds it. -/
def holeSession : List Message :=
  [plainMessage "q0" "user" "Hi", plainMessage "a0" "assistant" "Yes", plainMessage "q1" "user" "Go",
    plainMessage "s1" "assistant" "Reading every file of the tree", plainMessage "f1" "assistant" "Done"]

/-- The turn before the latest is returned without a step of the latest. -/
theorem noHole_fails : ¬ NoHole holeSession 6 := by
  intro h
  have hnumbers : returnedNumbers holeSession 6 = [0, 1, 4, 2] := by decide
  unfold NoHole Contiguous at h
  rw [hnumbers] at h
  have hlatest := (List.pairwise_cons.1 h).1 _ (List.mem_singleton_self _)
  have hstep := (hlatest ⟨_, List.mem_cons_self, by decide⟩).2 _ List.mem_cons_self (by decide) _
    List.mem_cons_self
  exact absurd hstep (by decide)

example : (fitActiveMessagesToBudget holeSession 6).ids = ["q0", "a0", "q1", "f1"] := by decide

end View

end OpenViking.Session
