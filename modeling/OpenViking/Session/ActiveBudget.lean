import OpenViking.Session.ActiveMessages
import OpenViking.Session.Retention

/-!
# The budgeted view is strict

What `fit_active_messages_to_budget` returns fits the budget, and the anchor and the last step of the latest turn are
in it where any two budgets within the whole let them fit.

Results:

* `selectLatest_picked`: the anchor and the last step get the room they need;
* `fitActive_strict`: the view.
-/

namespace OpenViking.Session

/-! ## The reserve -/

section Reserve

variable {tokenBudget : ℕ}

theorem fixedTokens_le_tokens (group : List Numbered) :
    fixedTokens (groupMessages group) ≤ messageTokens Prod.fst group := by
  have hle := fixedTokens_le (copies_refl (groupMessages group))
  rwa [messageTokens_groupMessages] at hle

/-- A budget that a group fits is at least the least one, and from this one on the group fits. -/
theorem minimumGroupBudget_le {group : List Numbered} {budget : ℤ}
    (hfits : (truncateMessageGroup (groupMessages group) budget).1 ≠ []) (hle : budget ≤ tokenBudget) :
    ∃ minimum, minimumGroupBudget tokenBudget group = some minimum ∧ (minimum : ℤ) ≤ budget ∧
      ∀ room, minimum ≤ room → Fits true group room := by
  obtain ⟨hne, hpos, hfixed⟩ := (truncateMessageGroup_ne_nil_iff _ _).1 hfits
  have hgroup : group ≠ [] := fun hnil => hne (by rw [hnil]; rfl)
  by_cases htokens : messageTokens Prod.fst group = 0
  · refine ⟨0, ?_, le_of_lt hpos, fun room _ => .inl (by omega)⟩
    unfold minimumGroupBudget
    rw [htokens]
    simp
  · have hfixed' := fixedTokens_le_tokens group
    refine ⟨max 1 (fixedTokens (groupMessages group)), ?_, by omega, fun room hroom => .inr ⟨rfl, by omega, by omega⟩⟩
    rw [minimumGroupBudget_eq hgroup htokens, if_pos (by omega)]

/-- The reserve leaves the anchor its room, and is room for the last step. -/
theorem finalReserve_spec {anchorGroup finalGroup : List Numbered} {anchorBudget finalBudget : ℤ}
    (hanchor : (truncateMessageGroup (groupMessages anchorGroup) anchorBudget).1 ≠ [])
    (hfinal : (truncateMessageGroup (groupMessages finalGroup) finalBudget).1 ≠ [])
    (hsum : anchorBudget + finalBudget ≤ tokenBudget) :
    finalReserve tokenBudget anchorGroup finalGroup ≤ tokenBudget ∧
      Fits true anchorGroup (tokenBudget - finalReserve tokenBudget anchorGroup finalGroup) ∧
      ∀ room, finalReserve tokenBudget anchorGroup finalGroup ≤ room → Fits true finalGroup room := by
  obtain ⟨hneA, hposA, -⟩ := (truncateMessageGroup_ne_nil_iff _ _).1 hanchor
  obtain ⟨hneF, hposF, -⟩ := (truncateMessageGroup_ne_nil_iff _ _).1 hfinal
  obtain ⟨minA, heqA, hleA, hfitsA⟩ := minimumGroupBudget_le hanchor (show anchorBudget ≤ tokenBudget by omega)
  obtain ⟨minF, heqF, hleF, hfitsF⟩ := minimumGroupBudget_le hfinal (show finalBudget ≤ tokenBudget by omega)
  have hreserve : finalReserve tokenBudget anchorGroup finalGroup =
      min (min (messageTokens Prod.fst finalGroup) (max minF (tokenBudget / 2))) (tokenBudget - minA) := by
    have hnilA : anchorGroup ≠ [] := fun hnil => hneA (by rw [hnil]; rfl)
    have hnilF : finalGroup ≠ [] := fun hnil => hneF (by rw [hnil]; rfl)
    unfold finalReserve
    rw [if_neg (by simp [hnilA, hnilF]), heqA, heqF]
    exact if_pos (by omega)
  rw [hreserve]
  refine ⟨by omega, hfitsA _ (by omega), fun room hroom => ?_⟩
  by_cases hwhole : messageTokens Prod.fst finalGroup ≤ room
  · exact .inl hwhole
  · exact hfitsF room (by omega)

end Reserve

/-! ## What is picked -/

section Latest

/-- From the latest turn whole groups are picked, its anchor and its last step among them where they fit. -/
theorem selectLatest_picked (tokenBudget : ℕ) (groups : TurnGroups) :
    ∃ picks, Picked tokenBudget ([groups.anchor, groups.final] ++ groups.checkpoints ++ groups.recent)
      (selectLatest tokenBudget groups) picks ∧
      ∀ anchorBudget finalBudget : ℤ, anchorBudget + finalBudget ≤ tokenBudget →
        (truncateMessageGroup (groupMessages groups.anchor) anchorBudget).1 ≠ [] →
        (truncateMessageGroup (groupMessages groups.final) finalBudget).1 ≠ [] →
        groups.anchor ∈ picks.map Prod.fst ∧ groups.final ∈ picks.map Prod.fst := by
  have hempty : Picked tokenBudget [] ⟨[], [], 0⟩ [] :=
    ⟨rfl, fun _ h => absurd h List.not_mem_nil, List.Sublist.refl _, rfl, Nat.zero_le _⟩
  have hroom : remainingFor tokenBudget
      (some (tokenBudget - finalReserve tokenBudget groups.anchor groups.final)) 0 =
        tokenBudget - finalReserve tokenBudget groups.anchor groups.final := by
    unfold remainingFor
    rw [Option.elim_some]
    omega
  obtain ⟨picks₁, h₁, -, hanchor, hused⟩ := hempty.selectGroup groups.anchor true
    (some (tokenBudget - finalReserve tokenBudget groups.anchor groups.final))
  obtain ⟨picks₂, h₂, hsuffix₂, hfinal, -⟩ := h₁.selectGroup groups.final true none
  obtain ⟨picks₃, h₃, hsuffix₃⟩ := h₂.selectWhile groups.checkpoints true
  obtain ⟨picks₄, h₄, hsuffix₄⟩ := h₃.selectWhile groups.recent false
  dsimp only at hroom hanchor hused
  rw [hroom, Nat.zero_add] at hused
  rw [hroom] at hanchor
  refine ⟨picks₄, h₄, fun anchorBudget finalBudget hsum hfitsA hfitsF => ?_⟩
  obtain ⟨hle, hfitA, hfitF⟩ := finalReserve_spec hfitsA hfitsF hsum
  have hsub := (hsuffix₃.trans hsuffix₄).subset
  refine ⟨List.map_subset _ (fun pick hpick => hsub (hsuffix₂.subset hpick)) (hanchor hfitA),
    List.map_subset _ hsub (hfinal (hfitF _ ?_))⟩
  unfold remainingFor
  dsimp only [Option.elim_none]
  omega

variable {older : List (UserTurn Numbered)} {latest : UserTurn Numbered} {messages : List Message}

theorem selectActive_eq (tokenBudget : ℕ) (hturns : buildTurns Prod.fst messages.zipIdx = older ++ [latest]) :
    selectActive messages tokenBudget =
      selectWhile tokenBudget false (older.reverse.map UserTurn.messages)
        (selectLatest tokenBudget (turnGroups latest)) := by
  unfold selectActive
  rw [hturns]
  dsimp only
  rw [List.getLast?_concat, List.dropLast_concat]

/-- From a conversation whole groups are picked. -/
theorem selectActive_picked (messages : List Message) (tokenBudget : ℕ)
    (hturns : buildTurns Prod.fst messages.zipIdx = older ++ [latest]) :
    ∃ picks, Picked tokenBudget (allGroups older latest) (selectActive messages tokenBudget) picks ∧
      ∀ anchorBudget finalBudget : ℤ, anchorBudget + finalBudget ≤ tokenBudget →
        (truncateMessageGroup (groupMessages (turnGroups latest).anchor) anchorBudget).1 ≠ [] →
        (truncateMessageGroup (groupMessages (turnGroups latest).final) finalBudget).1 ≠ [] →
        (turnGroups latest).anchor ∈ picks.map Prod.fst ∧ (turnGroups latest).final ∈ picks.map Prod.fst := by
  obtain ⟨picks, h, hessentials⟩ := selectLatest_picked tokenBudget (turnGroups latest)
  obtain ⟨picks', h', hsuffix⟩ := h.selectWhile (older.reverse.map UserTurn.messages) false
  rw [selectActive_eq tokenBudget hturns]
  refine ⟨picks', h', fun anchorBudget finalBudget hsum hfitsA hfitsF => ?_⟩
  obtain ⟨hanchor, hfinal⟩ := hessentials anchorBudget finalBudget hsum hfitsA hfitsF
  exact ⟨List.map_subset _ hsuffix.subset hanchor, List.map_subset _ hsuffix.subset hfinal⟩

/-- Every number is in one group. -/
theorem allGroups_numbers (hturns : buildTurns Prod.fst messages.zipIdx = older ++ [latest]) :
    (allGroups older latest).flatten.Perm messages.zipIdx := by
  have hperm := allGroups_perm older latest
  rwa [← hturns, flattenTurns_buildTurns] at hperm

end Latest

/-! ## The view -/

/-- The ids of what is returned. -/
def ActiveMessageBudgetPlan.ids (plan : ActiveMessageBudgetPlan) : List String := plan.messages.map Message.id

/-- A view of messages that fits a budget, of whole steps and turns. -/
structure StrictView (messages : List Message) (tokenBudget : ℤ) (plan : ActiveMessageBudgetPlan) : Prop where
  within : messageTokens id plan.messages ≤ tokenBudget.toNat
  /-- What is returned are shortened copies of some of the messages, in their order. -/
  copies : ∃ originals, originals.Sublist messages ∧ List.Forall₂ MessageCopy originals plan.messages
  steps : ∀ turn ∈ buildTurns id messages, ∀ step ∈ turn.steps,
    (∀ message ∈ step.messages, message.id ∈ plan.ids) ∨ ∀ message ∈ step.messages, message.id ∉ plan.ids
  olderTurns : ∀ turn ∈ (buildTurns id messages).dropLast,
    (∀ message ∈ turn.messages, message.id ∈ plan.ids) ∨ ∀ message ∈ turn.messages, message.id ∉ plan.ids
  dropped : plan.droppedMessageIds = (messages.map Message.id).filter fun id => id ∉ plan.ids
  /-- The anchor and the last step of the latest turn are there, where two budgets let them fit. -/
  essentials : ∀ latest anchor final, (buildTurns id messages).getLast? = some latest →
    latest.anchor = some anchor → latest.steps.getLast? = some final →
    ∀ anchorBudget finalBudget : ℤ, anchorBudget + finalBudget ≤ tokenBudget →
      (truncateMessageGroup [anchor] anchorBudget).1 ≠ [] →
      (truncateMessageGroup final.messages finalBudget).1 ≠ [] →
      anchor.id ∈ plan.ids ∧ ∀ message ∈ final.messages, message.id ∈ plan.ids

section View

variable {messages : List Message} {tokenBudget : ℤ}

theorem mem_flattenTurns_of_turn {α : Type*} {turns : List (UserTurn α)} {turn : UserTurn α} (hturn : turn ∈ turns)
    {message : α} (hmessage : message ∈ turn.messages) : message ∈ flattenTurns turns :=
  List.mem_flatMap.2 ⟨turn, hturn, hmessage⟩

theorem strictView_all (h : messageTokens id messages ≤ tokenBudget.toNat) (tokens : ℕ) :
    StrictView messages tokenBudget ⟨messages, tokens, [], []⟩ := by
  have hids : ∀ turn ∈ buildTurns id messages, ∀ message ∈ turn.messages, message.id ∈ messages.map Message.id := by
    intro turn hturn message hmessage
    have hmem := mem_flattenTurns_of_turn hturn hmessage
    rw [flattenTurns_buildTurns] at hmem
    exact List.mem_map_of_mem hmem
  have hstep : ∀ turn ∈ buildTurns id messages, ∀ step ∈ turn.steps, ∀ message ∈ step.messages,
      message.id ∈ messages.map Message.id := fun turn hturn step hstep message hmessage =>
    hids turn hturn message (List.mem_append_right _ (List.mem_flatMap.2 ⟨step, hstep, hmessage⟩))
  exact {
    within := h
    copies := ⟨messages, List.Sublist.refl _, copies_refl messages⟩
    steps := fun turn hturn step hmem => .inl (hstep turn hturn step hmem)
    olderTurns := fun turn hturn => .inl (hids turn (List.mem_of_mem_dropLast hturn))
    dropped := by
      refine (List.filter_eq_nil_iff.2 fun id hid => ?_).symm
      rw [decide_eq_true_iff]
      exact not_not.2 hid
    essentials := by
      intro latest anchor final hlatest hanchor hfinal anchorBudget finalBudget _ _ _
      have hturn := List.mem_of_getLast? hlatest
      refine ⟨hids latest hturn anchor ?_, fun message hmessage =>
        hstep latest hturn final (List.mem_of_getLast? hfinal) message hmessage⟩
      unfold UserTurn.messages
      rw [hanchor]
      exact List.mem_append_left _ (List.mem_singleton_self _) }

theorem strictView_nothing (h : messages = [] ∨ tokenBudget.toNat = 0) :
    StrictView messages tokenBudget ⟨[], 0, messages.map Message.id, []⟩ where
  within := Nat.zero_le _
  copies := ⟨[], List.nil_sublist _, .nil⟩
  steps := fun _ _ _ _ => .inr fun _ _ => List.not_mem_nil
  olderTurns := fun _ _ => .inr fun _ _ => List.not_mem_nil
  dropped := (List.filter_eq_self.2 fun id _ => decide_eq_true List.not_mem_nil).symm
  essentials := by
    intro latest anchor final hlatest hanchor hfinal anchorBudget finalBudget hsum hfitsA hfitsF
    have hposA := ((truncateMessageGroup_ne_nil_iff _ _).1 hfitsA).2.1
    have hposF := ((truncateMessageGroup_ne_nil_iff _ _).1 hfitsF).2.1
    rcases h with rfl | hzero
    · cases hlatest
    · omega

theorem forall₂_filterMap {α β γ : Type*} {R : α → β → Prop} {f : γ → Option β} (g : γ → α) {l : List γ}
    (h : ∀ x ∈ l, ∀ b, f x = some b → R (g x) b) :
    List.Forall₂ R ((l.filter fun x => (f x).isSome).map g) (l.filterMap f) := by
  induction l with
  | nil => exact .nil
  | cons x l ih =>
    have hrest := ih fun y hy => h y (List.mem_cons_of_mem _ hy)
    cases hfx : f x with
    | none =>
      rw [List.filter_cons_of_neg (by rw [hfx]; exact Bool.false_ne_true), List.filterMap_cons_none hfx]
      exact hrest
    | some b =>
      rw [List.filter_cons_of_pos (by rw [hfx]; rfl), List.filterMap_cons_some hfx, List.map_cons]
      exact .cons (h x List.mem_cons_self b hfx) hrest

theorem isSome_lookup_iff {entries : List (ℕ × Message)} (hnodup : (entries.map Prod.fst).Nodup) (number : ℕ) :
    (entries.lookup number).isSome = true ↔ number ∈ entries.map Prod.fst := by
  rw [Option.isSome_iff_exists, List.mem_map]
  constructor
  · rintro ⟨copy, hlookup⟩
    exact ⟨_, (Dict.lookup_eq_some_iff hnodup).1 hlookup, rfl⟩
  · rintro ⟨⟨number', copy⟩, hmem, rfl⟩
    exact ⟨copy, (Dict.lookup_eq_some_iff hnodup).2 hmem⟩

theorem returned_eq (selection : Selection) (messages : List Message) :
    selection.returned messages.length =
      messages.zipIdx.filterMap fun message => selection.selected.lookup message.2 := by
  unfold Selection.returned
  rw [List.range_eq_range', ← List.zipIdx_map_snd 0 messages, List.filterMap_map]
  rfl

/-- Two messages with one id have one number. -/
theorem number_eq_of_id (hids : (messages.map Message.id).Nodup) {message message' : Message} {i j : ℕ}
    (hi : (message, i) ∈ messages.zipIdx) (hj : (message', j) ∈ messages.zipIdx) (h : message.id = message'.id) :
    i = j := by
  have hi' := List.mem_zipIdx_iff_getElem?.1 hi
  have hj' := List.mem_zipIdx_iff_getElem?.1 hj
  have hlt := (List.getElem?_eq_some_iff.1 hi').1
  refine (List.getElem?_inj (by rwa [List.length_map]) hids).1 ?_
  rw [List.getElem?_map, List.getElem?_map, hi', hj', Option.map_some, Option.map_some, h]

/-- The turns of the messages are those of the numbered ones. -/
theorem buildTurns_zipIdx (messages : List Message) :
    buildTurns id messages = (buildTurns Prod.fst messages.zipIdx).map (UserTurn.map Prod.fst) := by
  have hmap := buildTurns_map id Prod.fst messages.zipIdx
  rwa [List.zipIdx_map_fst] at hmap

variable {older : List (UserTurn Numbered)}

/-- A step of the conversation is one of the groups, or part of one. -/
theorem step_group {latest turn : UserTurn Numbered}
    (hturn : turn ∈ older ++ [latest]) {step : AssistantStep Numbered} (hstep : step ∈ turn.steps) :
    ∃ group ∈ allGroups older latest, ∀ message ∈ step.messages, message ∈ group := by
  rcases List.mem_append.1 hturn with hturn | hturn
  · refine ⟨turn.messages, List.mem_append_right _ (List.mem_map_of_mem (List.mem_reverse.2 hturn)),
      fun message hmessage => ?_⟩
    exact List.mem_append_right _ (List.mem_flatMap.2 ⟨step, hstep, hmessage⟩)
  · rw [List.mem_singleton.1 hturn] at hstep
    obtain ⟨init, final, heq⟩ := exists_concat_of_ne_nil (List.ne_nil_of_mem hstep)
    refine ⟨step.messages, List.mem_append_left _ ?_, fun _ hmessage => hmessage⟩
    unfold turnGroups
    dsimp only
    rw [heq] at hstep ⊢
    rw [List.getLast?_concat, List.dropLast_concat]
    rcases List.mem_append.1 hstep with hinit | hfinal
    · cases hcheckpoint : hasCheckpoint step with
      | true =>
        refine List.mem_append_left _ (List.mem_append_right _ (List.mem_map_of_mem ?_))
        exact List.mem_filter.2 ⟨hinit, hcheckpoint⟩
      | false =>
        refine List.mem_append_right _ (List.mem_map_of_mem ?_)
        exact List.mem_filter.2 ⟨List.mem_reverse.2 hinit, by rw [hcheckpoint]; rfl⟩
    · rw [List.mem_singleton.1 hfinal]
      simp

section Selected

variable {older : List (UserTurn Numbered)} {latest : UserTurn Numbered} {selection : Selection} {picks : Picks}

section

variable (hturns : buildTurns Prod.fst messages.zipIdx = older ++ [latest])

include hturns

theorem allGroups_nodup : ((allGroups older latest).flatten.map Prod.snd).Nodup := by
  refine (((allGroups_numbers hturns).map Prod.snd).nodup_iff).2 ?_
  rw [List.zipIdx_map_snd]
  exact List.nodup_range'

theorem Picked.copy
    (h : Picked tokenBudget.toNat (allGroups older latest) selection picks) {number : ℕ} {copy : Message}
    (hmem : (number, copy) ∈ selection.selected) :
    ∃ message, (message, number) ∈ messages.zipIdx ∧ MessageCopy message copy := by
  obtain ⟨message, hmessage, hcopy⟩ := h.copy_of_mem hmem
  exact ⟨message, (allGroups_numbers hturns).mem_iff.1 hmessage, hcopy⟩

theorem Picked.returned_perm (h : Picked tokenBudget.toNat (allGroups older latest) selection picks) :
    (selection.returned messages.length).Perm (selection.selected.map Prod.snd) := by
  refine OpenViking.Session.returned_perm (h.nodup (allGroups_nodup hturns)) fun number hnumber => ?_
  obtain ⟨⟨number', copy⟩, hmem, rfl⟩ := List.mem_map.1 hnumber
  obtain ⟨message, hmessage, -⟩ := h.copy hturns hmem
  exact (List.getElem?_eq_some_iff.1 (List.mem_zipIdx_iff_getElem?.1 hmessage)).1

end

/-- An id is returned where its number is selected. -/
theorem Picked.mem_ids_iff (hids : (messages.map Message.id).Nodup)
    (hturns : buildTurns Prod.fst messages.zipIdx = older ++ [latest])
    (h : Picked tokenBudget.toNat (allGroups older latest) selection picks) {message : Numbered}
    (hmessage : message ∈ messages.zipIdx) :
    message.1.id ∈ (selection.returned messages.length).map Message.id ↔
      message.2 ∈ selection.selected.map Prod.fst := by
  have hperm := h.returned_perm hturns
  obtain ⟨message, number⟩ := message
  constructor
  · intro hid
    obtain ⟨copy, hmem, hid⟩ := List.mem_map.1 hid
    obtain ⟨⟨number', copy'⟩, hmem', rfl⟩ := List.mem_map.1 (hperm.mem_iff.1 hmem)
    obtain ⟨message', hmessage', hcopy'⟩ := h.copy hturns hmem'
    have hsame := number_eq_of_id hids hmessage hmessage' (hid.symm.trans hcopy'.id_eq)
    rw [hsame]
    exact List.mem_map_of_mem hmem'
  · intro hnumber
    obtain ⟨⟨number', copy⟩, hmem, rfl⟩ := List.mem_map.1 hnumber
    obtain ⟨message', hmessage', hcopy'⟩ := h.copy hturns hmem
    have hsame : message' = message := Option.some.inj
      ((List.mem_zipIdx_iff_getElem?.1 hmessage').symm.trans (List.mem_zipIdx_iff_getElem?.1 hmessage))
    rw [← hsame]
    exact List.mem_map.2 ⟨copy, hperm.mem_iff.2 (List.mem_map_of_mem hmem), hcopy'.id_eq⟩

end Selected

/-- A selection of whole groups makes a view. -/
theorem strictView_picked (hids : (messages.map Message.id).Nodup)
    {latest : UserTurn Numbered} (hturns : buildTurns Prod.fst messages.zipIdx = older ++ [latest])
    {selection : Selection} {picks : Picks}
    (h : Picked tokenBudget.toNat (allGroups older latest) selection picks)
    (hessentials : ∀ anchorBudget finalBudget : ℤ, anchorBudget + finalBudget ≤ tokenBudget.toNat →
      (truncateMessageGroup (groupMessages (turnGroups latest).anchor) anchorBudget).1 ≠ [] →
      (truncateMessageGroup (groupMessages (turnGroups latest).final) finalBudget).1 ≠ [] →
      (turnGroups latest).anchor ∈ picks.map Prod.fst ∧ (turnGroups latest).final ∈ picks.map Prod.fst)
    (tokens : ℕ) (truncated : List String) :
    StrictView messages tokenBudget
      ⟨selection.returned messages.length, tokens,
        (messages.zipIdx.filter fun message => (selection.selected.lookup message.2).isNone).map
          fun message => message.1.id, truncated⟩ := by
  have hnumbers := allGroups_numbers hturns
  have hgroups := allGroups_nodup hturns
  have hnodup := h.nodup hgroups
  have hperm := h.returned_perm hturns
  have hreturned : ∀ message ∈ messages.zipIdx,
      (message.1.id ∈ (selection.returned messages.length).map Message.id ↔
        message.2 ∈ selection.selected.map Prod.fst) := fun message hmessage => h.mem_ids_iff hids hturns hmessage
  have hwhole : ∀ group ∈ allGroups older latest,
      (∀ message ∈ group, message.1.id ∈ (selection.returned messages.length).map Message.id) ∨
        ∀ message ∈ group, message.1.id ∉ (selection.returned messages.length).map Message.id := by
    intro group hgroup
    have hmem : ∀ message ∈ group, message ∈ messages.zipIdx := fun message hmessage =>
      hnumbers.mem_iff.1 (List.mem_flatten.2 ⟨group, hgroup, hmessage⟩)
    refine (h.whole hgroups hgroup).imp (fun hpicked message hmessage => ?_) fun hnone message hmessage => ?_
    · exact (hreturned message (hmem message hmessage)).2 (h.selected_of_mem hpicked hmessage)
    · exact fun hid => hnone message hmessage ((hreturned message (hmem message hmessage)).1 hid)
  exact {
    within := by
      have htokens : messageTokens id (selection.returned messages.length) = selection.usedTokens := by
        rw [← h.values]
        show ((selection.returned messages.length).map Message.estimatedTokens).sum = _
        rw [(hperm.map Message.estimatedTokens).sum_eq, List.map_map]
        rfl
      show messageTokens id (selection.returned messages.length) ≤ _
      rw [htokens]
      exact h.within
    copies := by
      refine ⟨(messages.zipIdx.filter fun message => (selection.selected.lookup message.2).isSome).map Prod.fst, ?_, ?_⟩
      · have hsub := (List.filter_sublist (p := fun message : Numbered =>
          (selection.selected.lookup message.2).isSome) (l := messages.zipIdx)).map Prod.fst
        rwa [List.zipIdx_map_fst] at hsub
      · show List.Forall₂ MessageCopy _ (selection.returned messages.length)
        rw [returned_eq]
        refine forall₂_filterMap Prod.fst fun message hmessage copy hlookup => ?_
        obtain ⟨message', hmessage', hcopy'⟩ := h.copy hturns ((Dict.lookup_eq_some_iff hnodup).1 hlookup)
        have hsame : message' = message.1 := Option.some.inj
          ((List.mem_zipIdx_iff_getElem?.1 hmessage').symm.trans (List.mem_zipIdx_iff_getElem?.1 hmessage))
        rw [← hsame]
        exact hcopy'
    steps := by
      rw [buildTurns_zipIdx, hturns]
      intro turn hturn step hstep
      obtain ⟨turn', hturn', rfl⟩ := List.mem_map.1 hturn
      obtain ⟨step', hstep', rfl⟩ := List.mem_map.1 hstep
      obtain ⟨group, hgroup, hsub⟩ := step_group hturn' hstep'
      refine (hwhole group hgroup).imp (fun hall message hmessage => ?_) fun hnone message hmessage => ?_
      · obtain ⟨message', hmessage', rfl⟩ := List.mem_map.1 hmessage
        exact hall message' (hsub message' hmessage')
      · obtain ⟨message', hmessage', rfl⟩ := List.mem_map.1 hmessage
        exact hnone message' (hsub message' hmessage')
    olderTurns := by
      rw [buildTurns_zipIdx, hturns, List.map_append, List.map_singleton, List.dropLast_concat]
      intro turn hturn
      obtain ⟨turn', hturn', rfl⟩ := List.mem_map.1 hturn
      have hgroup : turn'.messages ∈ allGroups older latest :=
        List.mem_append_right _ (List.mem_map_of_mem (List.mem_reverse.2 hturn'))
      rw [UserTurn.messages_map]
      refine (hwhole _ hgroup).imp (fun hall message hmessage => ?_) fun hnone message hmessage => ?_
      · obtain ⟨message', hmessage', rfl⟩ := List.mem_map.1 hmessage
        exact hall message' hmessage'
      · obtain ⟨message', hmessage', rfl⟩ := List.mem_map.1 hmessage
        exact hnone message' hmessage'
    dropped := by
      have hmap : messages.map Message.id = messages.zipIdx.map fun message => message.1.id := by
        rw [← List.zipIdx_map_fst 0 messages, List.map_map, List.zipIdx_map_fst]
        rfl
      rw [hmap, List.filter_map]
      refine congrArg _ (List.filter_congr fun message hmessage => ?_)
      have hiff := (isSome_lookup_iff hnodup message.2).trans (hreturned message hmessage).symm
      show (selection.selected.lookup message.2).isNone =
        decide (message.1.id ∉ (selection.returned messages.length).map Message.id)
      rw [← Option.not_isSome]
      by_cases hsome : (selection.selected.lookup message.2).isSome = true
      · rw [hsome, decide_eq_false (not_not.2 (hiff.1 hsome))]
        rfl
      · have hnot := mt hiff.2 hsome
        rw [Bool.eq_false_of_not_eq_true hsome, decide_eq_true hnot]
        rfl
    essentials := by
      intro latest' anchor final hlatest hanchor hfinal anchorBudget finalBudget hsum hfitsA hfitsF
      rw [buildTurns_zipIdx, hturns, List.map_append, List.map_singleton, List.getLast?_concat] at hlatest
      obtain rfl := Option.some.inj hlatest
      obtain ⟨anchor', hanchor', rfl⟩ := Option.map_eq_some_iff.1 hanchor
      have hlast : (latest.steps.map (AssistantStep.map Prod.fst)).getLast? = some final := hfinal
      rw [List.getLast?_map] at hlast
      obtain ⟨final', hfinal', rfl⟩ := Option.map_eq_some_iff.1 hlast
      have hanchorGroup : (turnGroups latest).anchor = [anchor'] := by
        unfold turnGroups
        rw [hanchor']
        rfl
      have hfinalGroup : (turnGroups latest).final = final'.messages := by
        unfold turnGroups
        rw [hfinal']
        rfl
      rw [hanchorGroup, hfinalGroup] at hessentials
      obtain ⟨hpickA, hpickF⟩ := hessentials anchorBudget finalBudget (by omega) hfitsA hfitsF
      have hmem : ∀ group ∈ picks.map Prod.fst, ∀ message ∈ group,
          message.1.id ∈ (selection.returned messages.length).map Message.id := by
        intro group hpick message hmessage
        have hgroup := h.sublist.subset (List.mem_reverse.2 hpick)
        exact (hreturned message (hnumbers.mem_iff.1 (List.mem_flatten.2 ⟨group, hgroup, hmessage⟩))).2
          (h.selected_of_mem hpick hmessage)
      refine ⟨hmem _ hpickA anchor' (List.mem_singleton_self _), fun message hmessage => ?_⟩
      obtain ⟨message', hmessage', rfl⟩ := List.mem_map.1 hmessage
      exact hmem _ hpickF message' hmessage' }

/-- **The budgeted view is strict** and keeps what is essential. -/
theorem fitActive_strict (messages : List Message) (hids : (messages.map Message.id).Nodup) (tokenBudget : ℤ) :
    StrictView messages tokenBudget (fitActiveMessagesToBudget messages tokenBudget) := by
  unfold fitActiveMessagesToBudget
  by_cases hnone : messages = [] ∨ tokenBudget.toNat = 0
  · rw [if_pos (by simpa using hnone)]
    exact strictView_nothing hnone
  rw [if_neg (by simpa using hnone)]
  by_cases hall : messageTokens id messages ≤ tokenBudget.toNat
  · rw [if_pos hall]
    exact strictView_all hall _
  rw [if_neg hall]
  have hne : buildTurns Prod.fst messages.zipIdx ≠ [] := by
    rw [ne_eq, buildTurns_eq_nil_iff, List.zipIdx_eq_nil_iff]
    exact (not_or.1 hnone).1
  obtain ⟨older, latest, hturns⟩ := exists_concat_of_ne_nil hne
  obtain ⟨picks, h, hessentials⟩ := selectActive_picked messages tokenBudget.toNat hturns
  exact strictView_picked hids hturns h hessentials _ _

theorem fitActive_strict_cut : StrictView cutSession 4 (fitActiveMessagesToBudget cutSession 4) :=
  fitActive_strict cutSession (by decide) 4

end View

end OpenViking.Session
