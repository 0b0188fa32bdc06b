import Mathlib.Data.List.Dedup
import Mathlib.Data.List.Sort
import Mathlib.Tactic.IntervalCases
import OpenViking.Session.Truncation

/-!
# Shortened groups

`_truncate_message_group` (`session/retention.py`, 149-227): a copy of the messages of an atomic group that fits a
budget.  A body of a part is its text, its abstract or its tool output.

Results:

* `truncateMessageGroup_spec`: what is returned are shortened copies that fit;
* `truncateMessageGroup_ne_nil_iff`: whether anything is returned depends on the fixed tokens alone.
-/

namespace OpenViking.Session

/-! ## Parts -/

theorem mem_numberChars_of_isDigit {c : Char} (h : c.isDigit = true) : c ∈ numberChars := by
  have hrange : 48 ≤ c.toNat ∧ c.toNat ≤ 57 := by
    unfold Char.isDigit at h
    rw [Bool.and_eq_true, decide_eq_true_iff, decide_eq_true_iff] at h
    exact ⟨h.1, h.2⟩
  have hall : ∀ n, 48 ≤ n → n ≤ 57 → Char.ofNat n ∈ numberChars := by
    intro n hlow hhigh
    interval_cases n <;> decide
  rw [← Char.ofNat_toNat c]
  exact hall _ hrange.1 hrange.2

/-- The number of a natural number. -/
def numberOfNat (n : ℕ) : JsonNumber where
  text := Nat.toDigits 10 n
  plain := List.all_eq_true.2 fun _ hc =>
    decide_eq_true (mem_numberChars_of_isDigit (Nat.isDigit_of_mem_toDigits (by decide) (by decide) hc))

namespace Part

/-- The body of a part, which may be shortened. -/
def body : Part → Option String
  | .text content => some content
  | .context part => some part.abstract
  | .image _ => none
  | .tool part => some part.toolOutput

/-- A part with another body. -/
def setBody (content : String) : Part → Part
  | .text _ => .text content
  | .context part => .context { part with abstract := content }
  | .image part => .image part
  | .tool part => .tool { part with toolOutput := content }

/-- A tool part whose input is not empty. -/
def hasInput : Part → Bool
  | .tool part => part.toolInput.any fun entries => !entries.isEmpty
  | _ => false

/-- A part without its tool input. -/
def dropInput : Part → Part
  | .tool part => .tool { part with toolInput := some [] }
  | part => part

/-- A tool part whose output was cut, with the lengths noted. -/
def noteCut (original fitted : String) : Part → Part
  | .tool part =>
    .tool { part with
      toolOutputTruncated := true
      toolOutputOriginalChars := some (part.toolOutputOriginalChars.getD (numberOfNat original.length))
      toolOutputPreviewChars := some (numberOfNat fitted.length) }
  | part => part

end Part

/-! ## Groups -/

/-- The place of a part and the body it had. -/
structure Slot where
  messageIndex : ℕ
  partIndex : ℕ
  original : String

/-- The part at a place. -/
def partAt (messages : List Message) (i j : ℕ) : Option Part := messages[i]?.bind fun message => message.parts[j]?

/-- The messages with the part at a place changed. -/
def updatePart (messages : List Message) (i j : ℕ) (f : Part → Part) : List Message :=
  messages.modify i fun message => { message with parts := message.parts.modify j f }

/-- The bodies, newest first (170-182). -/
def slotsOf (messages : List Message) : List Slot :=
  messages.zipIdx.reverse.flatMap fun message =>
    message.1.parts.zipIdx.reverse.filterMap fun part =>
      part.1.body.map fun original => ⟨message.2, part.2, original⟩

/-- The messages without bodies. -/
def clearBodies (messages : List Message) : List Message :=
  messages.map fun message => { message with parts := message.parts.map (Part.setBody "") }

/-- The places of the parts, oldest first. -/
def places (messages : List Message) : List (ℕ × ℕ) :=
  messages.zipIdx.flatMap fun message => message.1.parts.zipIdx.map fun part => (message.2, part.2)

/-- The id of the message at a place. -/
def idAt (messages : List Message) (i : ℕ) : List String := (messages[i]?.map Message.id).toList

/-- The loop that drops tool inputs, oldest first, until the rest fits (186-195). -/
def dropInputs (tokenBudget : ℕ) : List (ℕ × ℕ) → List Message → List String → List Message × List String
  | [], cloned, truncatedIds => (cloned, truncatedIds)
  | (i, j) :: rest, cloned, truncatedIds =>
    if (partAt cloned i j).any Part.hasInput then
      let cloned' := updatePart cloned i j Part.dropInput
      if messageTokens id cloned' ≤ tokenBudget then (cloned', idAt cloned i ++ truncatedIds)
      else dropInputs tokenBudget rest cloned' (idAt cloned i ++ truncatedIds)
    else dropInputs tokenBudget rest cloned truncatedIds

/-- The loop that fills the bodies again while there is room (200-208). -/
def fillBodies (tokenBudget : ℕ) : List Slot → List Message → List Message
  | [], cloned => cloned
  | slot :: slots, cloned =>
    if slot.original = "" then fillBodies tokenBudget slots cloned
    else
      let remaining := tokenBudget - messageTokens id cloned
      if remaining = 0 then cloned
      else
        let fitted := String.ofList (truncateTextToTokenBudget slot.original.toList remaining)
        fillBodies tokenBudget slots
          (updatePart cloned slot.messageIndex slot.partIndex (Part.setBody fitted))

/-- The loop that notes the bodies that were cut (213-222). -/
def noteCuts : List Slot → List Message → List String → List Message × List String
  | [], cloned, truncatedIds => (cloned, truncatedIds)
  | slot :: slots, cloned, truncatedIds =>
    let fitted := ((partAt cloned slot.messageIndex slot.partIndex).bind Part.body).getD ""
    if fitted = slot.original then noteCuts slots cloned truncatedIds
    else
      noteCuts slots
        (updatePart cloned slot.messageIndex slot.partIndex (Part.noteCut slot.original fitted))
        (idAt cloned slot.messageIndex ++ truncatedIds)

/-- `sorted` of a set. -/
def sortedIds (ids : List String) : List String := ids.dedup.insertionSort (· ≤ ·)

/-- The copy that is filled again (166-195). -/
def bareGroup (messages : List Message) (tokenBudget : ℕ) : List Message × List String :=
  if tokenBudget < messageTokens id (clearBodies messages) then
    dropInputs tokenBudget (places (clearBodies messages)) (clearBodies messages) []
  else (clearBodies messages, [])

/-- `_truncate_message_group` (149-227). -/
def truncateMessageGroup (messages : List Message) (tokenBudget : ℤ) : List Message × List String :=
  if tokenBudget ≤ 0 ∨ messages.isEmpty then ([], [])
  else if messageTokens id messages ≤ tokenBudget.toNat then (messages, [])
  else
    let bare := bareGroup messages tokenBudget.toNat
    if tokenBudget.toNat < messageTokens id bare.1 then ([], [])
    else
      let filled := fillBodies tokenBudget.toNat (slotsOf messages) bare.1
      let noted := noteCuts (slotsOf messages) filled bare.2
      if tokenBudget.toNat < messageTokens id noted.1 then ([], []) else (noted.1, sortedIds noted.2)

/-! ## Copies -/

/-- A part, and a copy of it with a shortened body and perhaps without its tool input. -/
inductive PartCopy : Part → Part → Prop
  | text {content short : String} (h : Shortened content.toList short.toList) : PartCopy (.text content) (.text short)
  | context {part : ContextPart} {short : String} (h : Shortened part.abstract.toList short.toList) :
    PartCopy (.context part) (.context { part with abstract := short })
  | image (part : ImagePart) : PartCopy (.image part) (.image part)
  | tool {part : ToolPart} {short : String} (h : Shortened part.toolOutput.toList short.toList)
      {input : Option (List (String × Json))} (hinput : input = part.toolInput ∨ input = some [])
      (truncated : Bool) (originalChars previewChars : Option JsonNumber) :
    PartCopy (.tool part) (.tool { part with
      toolInput := input
      toolOutput := short
      toolOutputTruncated := truncated
      toolOutputOriginalChars := originalChars
      toolOutputPreviewChars := previewChars })

/-- A message, and a copy of it that differs in its parts as the relation says. -/
structure CopyOf (R : Part → Part → Prop) (message copy : Message) : Prop where
  parts : List.Forall₂ R message.parts copy.parts
  header : copy = { message with parts := copy.parts }

/-- A message, and a shortened copy of it. -/
abbrev MessageCopy (message copy : Message) : Prop := CopyOf PartCopy message copy

/-- A part without body and input. -/
def Part.fixed (part : Part) : Part := (part.setBody "").dropInput

/-- The tokens of a group that cannot be shortened. -/
def fixedTokens (messages : List Message) : ℕ :=
  messageTokens id (messages.map fun message => { message with parts := message.parts.map Part.fixed })

section Copies

theorem PartCopy.refl (part : Part) : PartCopy part part := by
  cases part with
  | text content => exact .text (Shortened.refl _)
  | context part => exact .context (Shortened.refl _)
  | image part => exact .image part
  | tool part => exact .tool (Shortened.refl _) (.inl rfl) _ _ _

theorem MessageCopy.refl (message : Message) : MessageCopy message message :=
  ⟨List.forall₂_same.2 fun part _ => PartCopy.refl part, rfl⟩

theorem CopyOf.id_eq {R : Part → Part → Prop} {message copy : Message} (h : CopyOf R message copy) :
    copy.id = message.id := by
  rw [h.header]

theorem copies_refl (messages : List Message) : List.Forall₂ MessageCopy messages messages :=
  List.forall₂_same.2 fun message _ => MessageCopy.refl message

variable {part copy : Part}

section

variable (h : PartCopy part copy)

include h

theorem PartCopy.setBody {content short : String}
    (hbody : part.body = some content) (hshort : Shortened content.toList short.toList) :
    PartCopy part (copy.setBody short) := by
  cases h with
  | text h =>
    obtain rfl := Option.some.inj hbody
    exact .text hshort
  | context h =>
    obtain rfl := Option.some.inj hbody
    exact .context hshort
  | image part => cases hbody
  | tool h hinput truncated originalChars previewChars =>
    obtain rfl := Option.some.inj hbody
    exact .tool hshort hinput _ _ _

theorem PartCopy.dropInput : PartCopy part copy.dropInput := by
  cases h with
  | text h => exact .text h
  | context h => exact .context h
  | image part => exact .image part
  | tool h hinput truncated originalChars previewChars => exact .tool h (.inr rfl) _ _ _

theorem PartCopy.noteCut (original fitted : String) : PartCopy part (copy.noteCut original fitted) := by
  cases h with
  | text h => exact .text h
  | context h => exact .context h
  | image part => exact .image part
  | tool h hinput truncated originalChars previewChars => exact .tool h hinput _ _ _

/-- A copy weighs at least what is fixed. -/
theorem PartCopy.fixed_le : textWeight part.fixed.tokenText ≤ textWeight copy.tokenText := by
  cases h with
  | text h => exact Nat.zero_le _
  | context h => exact Nat.zero_le _
  | image part => exact le_refl _
  | tool h hinput truncated originalChars previewChars =>
    refine textWeight_sublist ?_
    unfold Part.fixed Part.setBody Part.dropInput Part.tokenText
    dsimp only
    rw [List.append_assoc _ _ (String.toList _), List.append_assoc _ _ (String.toList _)]
    exact List.Sublist.append (List.Sublist.refl _) (by simp)

end

end Copies

/-! ## Changes at one place -/

section Places

theorem forall₂_modify {α β : Type*} {R : α → β → Prop} {l : List α} {l' : List β} (h : List.Forall₂ R l l')
    (i : ℕ) {f : β → β} (hf : ∀ a b, l[i]? = some a → R a b → R a (f b)) : List.Forall₂ R l (l'.modify i f) := by
  induction h generalizing i with
  | nil =>
    rw [List.modify_nil]
    exact .nil
  | cons hab hrest ih =>
    cases i with
    | zero => exact .cons (hf _ _ rfl hab) hrest
    | succ i => exact .cons hab (ih i hf)

variable {messages cloned : List Message}

/-- A copy stays one where a part is changed as the relation allows. -/
theorem copies_updatePart {R : Part → Part → Prop}
    (h : List.Forall₂ (CopyOf R) messages cloned) (i j : ℕ) {f : Part → Part}
    (hf : ∀ part copy, partAt messages i j = some part → R part copy → R part (f copy)) :
    List.Forall₂ (CopyOf R) messages (updatePart cloned i j f) := by
  refine forall₂_modify h i fun message copy hmessage hcopy => ⟨?_, ?_⟩
  · refine forall₂_modify hcopy.parts j fun part copy' hpart hrel => hf part copy' ?_ hrel
    rw [partAt, hmessage]
    exact hpart
  · rw [hcopy.header]

theorem partAt_updatePart (messages : List Message) (i j : ℕ) (f : Part → Part) (i' j' : ℕ) :
    partAt (updatePart messages i j f) i' j' =
      if i = i' ∧ j = j' then (partAt messages i' j').map f else partAt messages i' j' := by
  unfold partAt updatePart
  rw [List.getElem?_modify]
  cases messages[i']? with
  | none => simp
  | some message =>
    by_cases hi : i = i'
    · by_cases hj : j = j'
      · simp [hi, hj]
      · simp [hi, hj]
    · simp [hi]

theorem textWeight_flatMap (parts : List Part) :
    textWeight (parts.flatMap Part.tokenText) = (parts.map fun part => textWeight part.tokenText).sum := by
  induction parts with
  | nil => rfl
  | cons part parts ih => rw [List.flatMap_cons, textWeight_append, ih, List.map_cons, List.sum_cons]

theorem sum_modify_le {α : Type*} (weight : α → ℕ) {f : α → α} {extra : ℕ}
    (hf : ∀ a, weight (f a) ≤ weight a + extra) (l : List α) (i : ℕ) :
    ((l.modify i f).map weight).sum ≤ (l.map weight).sum + extra := by
  induction l generalizing i with
  | nil =>
    rw [List.modify_nil]
    omega
  | cons a l ih =>
    cases i with
    | zero =>
      have := hf a
      rw [List.modify_zero_cons, List.map_cons, List.map_cons, List.sum_cons, List.sum_cons]
      omega
    | succ i =>
      have := ih i
      rw [List.modify_succ_cons, List.map_cons, List.map_cons, List.sum_cons, List.sum_cons]
      omega

/-- A part that gets heavier makes the group dearer by no more than the tokens of what it gained. -/
theorem messageTokens_updatePart_le {f : Part → Part} {extra : ℕ}
    (hf : ∀ part, textWeight (f part).tokenText ≤ textWeight part.tokenText + extra) (messages : List Message)
    (i j : ℕ) : messageTokens id (updatePart messages i j f) ≤ messageTokens id messages + (extra + 3) / 4 := by
  refine sum_modify_le Message.estimatedTokens (fun message => ?_) messages i
  unfold Message.estimatedTokens estimateTextTokens
  rw [textWeight_flatMap, textWeight_flatMap]
  have := sum_modify_le (fun part : Part => textWeight part.tokenText) hf message.parts j
  dsimp only
  omega

theorem setBody_weight_le (part : Part) (content : String) :
    textWeight (part.setBody content).tokenText ≤ textWeight part.tokenText + textWeight content.toList := by
  cases part with
  | text old => exact Nat.le_add_left _ _
  | context part => exact Nat.le_add_left _ _
  | image part => exact Nat.le_add_right _ _
  | tool part =>
    unfold Part.setBody Part.tokenText
    dsimp only
    rw [textWeight_append _ content.toList, textWeight_append _ part.toolOutput.toList]
    omega

theorem noteCut_tokenText (part : Part) (original fitted : String) :
    (part.noteCut original fitted).tokenText = part.tokenText := by
  cases part with
  | text old => rfl
  | context part => rfl
  | image part => rfl
  | tool part => rfl

theorem forall₂_messageTokens_le
    (h : List.Forall₂ (fun message copy => textWeight (message.parts.flatMap Part.tokenText) ≤
      textWeight (copy.parts.flatMap Part.tokenText)) messages cloned) :
    messageTokens id messages ≤ messageTokens id cloned := by
  induction h with
  | nil => exact le_refl _
  | cons hle hrest ih =>
    rw [messageTokens_cons, messageTokens_cons]
    exact Nat.add_le_add (estimateTextTokens_mono hle) ih

end Places

/-! ## What is returned -/

section Returned

variable {messages cloned : List Message} {tokenBudget : ℕ}

theorem mem_slotsOf {slot : Slot} (h : slot ∈ slotsOf messages) :
    ∃ part, partAt messages slot.messageIndex slot.partIndex = some part ∧ part.body = some slot.original := by
  obtain ⟨⟨message, i⟩, hmessage, hslot⟩ := List.mem_flatMap.1 h
  obtain ⟨⟨part, j⟩, hpart, heq⟩ := List.mem_filterMap.1 hslot
  obtain ⟨original, hbody, rfl⟩ := Option.map_eq_some_iff.1 heq
  refine ⟨part, ?_, hbody⟩
  have hmessage' := List.mem_zipIdx_iff_getElem?.1 (List.mem_reverse.1 hmessage)
  have hpart' := List.mem_zipIdx_iff_getElem?.1 (List.mem_reverse.1 hpart)
  show messages[i]?.bind _ = _
  rw [hmessage']
  exact hpart'

variable (slots : List Slot)

theorem fillBodies_copies (hslots : ∀ slot ∈ slots, slot ∈ slotsOf messages)
    (h : List.Forall₂ MessageCopy messages cloned) :
    List.Forall₂ MessageCopy messages (fillBodies tokenBudget slots cloned) := by
  induction slots generalizing cloned with
  | nil => exact h
  | cons slot slots ih =>
    have hrest : ∀ slot ∈ slots, slot ∈ slotsOf messages := fun slot hslot =>
      hslots slot (List.mem_cons_of_mem _ hslot)
    rw [fillBodies]
    by_cases hempty : slot.original = ""
    · rw [if_pos hempty]
      exact ih hrest h
    rw [if_neg hempty]
    dsimp only
    by_cases hfull : tokenBudget - messageTokens id cloned = 0
    · rw [if_pos hfull]
      exact h
    rw [if_neg hfull]
    refine ih hrest (copies_updatePart h _ _ fun part copy hpart hcopy => ?_)
    obtain ⟨part', hpart', hbody⟩ := mem_slotsOf (hslots slot List.mem_cons_self)
    obtain rfl := Option.some.inj (hpart.symm.trans hpart')
    refine hcopy.setBody hbody ?_
    rw [String.toList_ofList]
    exact truncateText_shortened _ _

theorem fillBodies_tokens (h : messageTokens id cloned ≤ tokenBudget) :
    messageTokens id (fillBodies tokenBudget slots cloned) ≤ tokenBudget := by
  induction slots generalizing cloned with
  | nil => exact h
  | cons slot slots ih =>
    rw [fillBodies]
    by_cases hempty : slot.original = ""
    · rw [if_pos hempty]
      exact ih h
    rw [if_neg hempty]
    dsimp only
    by_cases hfull : tokenBudget - messageTokens id cloned = 0
    · rw [if_pos hfull]
      exact h
    rw [if_neg hfull]
    refine ih ?_
    have hfits := estimateTextTokens_truncate_le slot.original.toList (tokenBudget - messageTokens id cloned)
    have hgrow := messageTokens_updatePart_le (fun part => setBody_weight_le part (String.ofList
      (truncateTextToTokenBudget slot.original.toList (tokenBudget - messageTokens id cloned))))
      cloned slot.messageIndex slot.partIndex
    rw [String.toList_ofList] at hgrow
    unfold estimateTextTokens at hfits
    omega

theorem noteCuts_copies (h : List.Forall₂ MessageCopy messages cloned) (truncatedIds : List String) :
    List.Forall₂ MessageCopy messages (noteCuts slots cloned truncatedIds).1 := by
  induction slots generalizing cloned truncatedIds with
  | nil => exact h
  | cons slot slots ih =>
    rw [noteCuts]
    split_ifs
    · exact ih h _
    · exact ih (copies_updatePart h _ _ fun part copy _ hcopy => hcopy.noteCut _ _) _

theorem noteCuts_tokens (h : messageTokens id cloned ≤ tokenBudget)
    (truncatedIds : List String) : messageTokens id (noteCuts slots cloned truncatedIds).1 ≤ tokenBudget := by
  induction slots generalizing cloned truncatedIds with
  | nil => exact h
  | cons slot slots ih =>
    have hsame : ∀ fitted, messageTokens id (updatePart cloned slot.messageIndex slot.partIndex
        (Part.noteCut slot.original fitted)) ≤ messageTokens id cloned + (0 + 3) / 4 := fun fitted =>
      messageTokens_updatePart_le (fun part => le_of_eq (congrArg textWeight (noteCut_tokenText part _ fitted)))
        cloned slot.messageIndex slot.partIndex
    rw [noteCuts]
    split_ifs
    · exact ih h _
    · exact ih ((hsame _).trans h) _

/-- A part without its body, perhaps without its input too. -/
def Bare (part copy : Part) : Prop := copy = part.setBody "" ∨ copy = part.fixed

variable {part copy : Part}

theorem Bare.dropInput (h : Bare part copy) : Bare part copy.dropInput := by
  rcases h with rfl | rfl
  · exact .inr rfl
  · right
    cases part with
    | text content => rfl
    | context part => rfl
    | image part => rfl
    | tool part => rfl

theorem Bare.partCopy (h : Bare part copy) : PartCopy part copy := by
  have hcleared : PartCopy part (part.setBody "") := by
    cases part with
    | text content => exact .text (shortened_nil _)
    | context part => exact .context (shortened_nil _)
    | image part => exact .image part
    | tool part => exact .tool (shortened_nil _) (.inl rfl) _ _ _
  rcases h with rfl | rfl
  · exact hcleared
  · exact hcleared.dropInput

/-- A part that has no input left weighs what is fixed. -/
theorem Bare.weight_le (h : Bare part copy) (hinput : copy.hasInput = false) :
    textWeight copy.tokenText ≤ textWeight part.fixed.tokenText := by
  rcases h with rfl | rfl
  · cases part with
    | text content => exact le_refl _
    | context part => exact le_refl _
    | image part => exact le_refl _
    | tool part =>
      refine le_of_eq (congrArg textWeight ?_)
      unfold Part.hasInput Part.setBody at hinput
      unfold Part.fixed Part.setBody Part.dropInput Part.tokenText
      dsimp only at hinput ⊢
      cases hnone : part.toolInput with
      | none => rfl
      | some entries =>
        rw [hnone] at hinput
        cases entries with
        | nil => rfl
        | cons entry entries => cases hinput
  · exact le_refl _

theorem clearBodies_bare (messages : List Message) :
    List.Forall₂ (CopyOf Bare) messages (clearBodies messages) := by
  unfold clearBodies
  rw [List.forall₂_map_right_iff, List.forall₂_same]
  refine fun message _ => ⟨?_, rfl⟩
  rw [List.forall₂_map_right_iff, List.forall₂_same]
  exact fun part _ => .inl rfl

theorem dropInputs_bare (rest : List (ℕ × ℕ)) (h : List.Forall₂ (CopyOf Bare) messages cloned)
    (truncatedIds : List String) :
    List.Forall₂ (CopyOf Bare) messages (dropInputs tokenBudget rest cloned truncatedIds).1 := by
  induction rest generalizing cloned truncatedIds with
  | nil => exact h
  | cons place rest ih =>
    have hdropped := copies_updatePart h place.1 place.2 fun part copy _ hcopy => hcopy.dropInput
    rw [dropInputs]
    dsimp only
    split_ifs
    · exact hdropped
    · exact ih hdropped _
    · exact ih h _

theorem hasInput_dropInput (part : Part) : part.dropInput.hasInput = false := by
  cases part with
  | text content => rfl
  | context part => rfl
  | image part => rfl
  | tool part => rfl

/-- What the loop leaves fits, or has no input. -/
theorem dropInputs_fits (tokenBudget : ℕ) (rest : List (ℕ × ℕ))
    (hrest : ∀ i j, (partAt cloned i j).any Part.hasInput = true → (i, j) ∈ rest) (truncatedIds : List String) :
    messageTokens id (dropInputs tokenBudget rest cloned truncatedIds).1 ≤ tokenBudget ∨
      ∀ i j, (partAt (dropInputs tokenBudget rest cloned truncatedIds).1 i j).any Part.hasInput = false := by
  induction rest generalizing cloned truncatedIds with
  | nil =>
    right
    intro i j
    by_contra hinput
    exact absurd (hrest i j (Bool.eq_true_of_not_eq_false hinput)) List.not_mem_nil
  | cons place rest ih =>
    obtain ⟨i, j⟩ := place
    rw [dropInputs]
    by_cases hinput : (partAt cloned i j).any Part.hasInput = true
    · rw [if_pos hinput]
      dsimp only
      by_cases hfits : messageTokens id (updatePart cloned i j Part.dropInput) ≤ tokenBudget
      · rw [if_pos hfits]
        exact .inl hfits
      rw [if_neg hfits]
      refine ih (fun i' j' hinput' => ?_) _
      rw [partAt_updatePart] at hinput'
      by_cases hplace : i = i' ∧ j = j'
      · rw [if_pos hplace, Option.any_map] at hinput'
        simp [hasInput_dropInput] at hinput'
      · rw [if_neg hplace] at hinput'
        refine (List.mem_cons.1 (hrest i' j' hinput')).resolve_left fun heq => hplace ?_
        exact ⟨(congrArg Prod.fst heq).symm, (congrArg Prod.snd heq).symm⟩
    · rw [if_neg hinput]
      refine ih (fun i' j' hinput' => ?_) _
      refine (List.mem_cons.1 (hrest i' j' hinput')).resolve_left fun heq => hinput ?_
      obtain ⟨rfl, rfl⟩ := Prod.mk.inj heq
      exact hinput'

theorem mem_places {i j : ℕ} (h : (partAt messages i j).any Part.hasInput = true) : (i, j) ∈ places messages := by
  unfold partAt at h
  cases hmessage : messages[i]? with
  | none =>
    rw [hmessage] at h
    cases h
  | some message =>
    rw [hmessage, Option.bind_some] at h
    cases hpart : message.parts[j]? with
    | none =>
      rw [hpart] at h
      cases h
    | some part =>
      refine List.mem_flatMap.2 ⟨(message, i), List.mem_zipIdx_iff_getElem?.2 hmessage, ?_⟩
      exact List.mem_map.2 ⟨(part, j), List.mem_zipIdx_iff_getElem?.2 hpart, rfl⟩

/-- A copy costs at least what is fixed. -/
theorem fixedTokens_le (h : List.Forall₂ MessageCopy messages cloned) :
    fixedTokens messages ≤ messageTokens id cloned := by
  refine forall₂_messageTokens_le ?_
  rw [List.forall₂_map_left_iff]
  refine h.imp fun message copy hcopy => ?_
  rw [textWeight_flatMap, textWeight_flatMap, List.map_map]
  refine List.Forall₂.sum_le_sum ?_
  rw [List.forall₂_map_left_iff, List.forall₂_map_right_iff]
  exact hcopy.parts.imp fun part copy' hpart => hpart.fixed_le

/-- Without bodies and inputs a group costs no more than what is fixed. -/
theorem tokens_le_fixedTokens (h : List.Forall₂ (CopyOf Bare) messages cloned)
    (hinput : ∀ i j, (partAt cloned i j).any Part.hasInput = false) :
    messageTokens id cloned ≤ fixedTokens messages := by
  refine forall₂_messageTokens_le ?_
  rw [List.forall₂_map_right_iff]
  rw [List.forall₂_iff_get]
  refine ⟨h.length_eq.symm, fun i hi hi' => ?_⟩
  have hcopy := h.get hi' hi
  rw [textWeight_flatMap, textWeight_flatMap, List.map_map]
  refine List.Forall₂.sum_le_sum ?_
  rw [List.forall₂_map_left_iff, List.forall₂_map_right_iff, List.forall₂_iff_get]
  refine ⟨hcopy.parts.length_eq.symm, fun j hj hj' => ?_⟩
  refine Bare.weight_le (hcopy.parts.get hj' hj) ?_
  have hnone := hinput i j
  rw [partAt, List.getElem?_eq_getElem hi, Option.bind_some] at hnone
  rw [List.get_eq_getElem, List.getElem?_eq_getElem hj, Option.any_some] at *
  exact hnone

theorem bareGroup_copies (messages : List Message) (tokenBudget : ℕ) :
    List.Forall₂ (CopyOf Bare) messages (bareGroup messages tokenBudget).1 := by
  unfold bareGroup
  split_ifs
  · exact dropInputs_bare _ (clearBodies_bare messages) []
  · exact clearBodies_bare messages

theorem bareGroup_tokens (h : fixedTokens messages ≤ tokenBudget) :
    messageTokens id (bareGroup messages tokenBudget).1 ≤ tokenBudget := by
  unfold bareGroup
  split_ifs with hover
  · rcases dropInputs_fits tokenBudget (places (clearBodies messages))
      (fun i j hinput => mem_places hinput) [] with hfits | hnone
    · exact hfits
    · exact (tokens_le_fixedTokens (dropInputs_bare _ (clearBodies_bare messages) []) hnone).trans h
  · exact not_lt.1 hover

/-- The copy that is filled again fits where the bare one does. -/
theorem noted_spec (h : messageTokens id (bareGroup messages tokenBudget).1 ≤ tokenBudget) :
    let noted := noteCuts (slotsOf messages)
      (fillBodies tokenBudget (slotsOf messages) (bareGroup messages tokenBudget).1) (bareGroup messages tokenBudget).2
    List.Forall₂ MessageCopy messages noted.1 ∧ messageTokens id noted.1 ≤ tokenBudget := by
  have hcopies : List.Forall₂ MessageCopy messages (bareGroup messages tokenBudget).1 :=
    (bareGroup_copies messages tokenBudget).imp fun _ _ hcopy =>
      ⟨hcopy.parts.imp fun _ _ hpart => hpart.partCopy, hcopy.header⟩
  exact ⟨noteCuts_copies _ (fillBodies_copies _ (fun _ hslot => hslot) hcopies) _,
    noteCuts_tokens _ (fillBodies_tokens _ h) _⟩

/-- What is returned: nothing, or shortened copies that fit. -/
theorem truncateMessageGroup_cases (messages : List Message) (tokenBudget : ℤ) :
    ((truncateMessageGroup messages tokenBudget).1 = [] ∧
      ¬ (messages ≠ [] ∧ 0 < tokenBudget ∧ fixedTokens messages ≤ tokenBudget.toNat)) ∨
    (messages ≠ [] ∧ 0 < tokenBudget ∧
      List.Forall₂ MessageCopy messages (truncateMessageGroup messages tokenBudget).1 ∧
      messageTokens id (truncateMessageGroup messages tokenBudget).1 ≤ tokenBudget.toNat) := by
  unfold truncateMessageGroup
  by_cases hnone : tokenBudget ≤ 0 ∨ messages.isEmpty = true
  · rw [if_pos hnone]
    left
    refine ⟨rfl, fun ⟨hne, hpos, _⟩ => ?_⟩
    rcases hnone with hle | hempty
    · exact absurd hpos (not_lt.2 hle)
    · exact hne (List.isEmpty_iff.1 hempty)
  rw [if_neg hnone]
  obtain ⟨hpos, hempty⟩ := not_or.1 hnone
  have hne : messages ≠ [] := fun h => hempty (List.isEmpty_iff.2 h)
  by_cases hfits : messageTokens id messages ≤ tokenBudget.toNat
  · rw [if_pos hfits]
    exact .inr ⟨hne, not_le.1 hpos, copies_refl messages, hfits⟩
  rw [if_neg hfits]
  dsimp only
  by_cases hover : tokenBudget.toNat < messageTokens id (bareGroup messages tokenBudget.toNat).1
  · rw [if_pos hover]
    exact .inl ⟨rfl, fun ⟨_, _, hfixed⟩ => absurd (bareGroup_tokens hfixed) (not_le.2 hover)⟩
  · obtain ⟨hcopies, htokens⟩ := noted_spec (not_lt.1 hover)
    rw [if_neg hover, if_neg (not_lt.2 htokens)]
    exact .inr ⟨hne, not_le.1 hpos, hcopies, htokens⟩

theorem truncateMessageGroup_spec {tokenBudget : ℤ} (h : (truncateMessageGroup messages tokenBudget).1 ≠ []) :
    List.Forall₂ MessageCopy messages (truncateMessageGroup messages tokenBudget).1 ∧
      messageTokens id (truncateMessageGroup messages tokenBudget).1 ≤ tokenBudget.toNat := by
  rcases truncateMessageGroup_cases messages tokenBudget with ⟨hnil, -⟩ | ⟨-, -, hspec⟩
  · exact absurd hnil h
  · exact hspec

/-- Whether anything is returned depends on what is fixed. -/
theorem truncateMessageGroup_ne_nil_iff (messages : List Message) (tokenBudget : ℤ) :
    (truncateMessageGroup messages tokenBudget).1 ≠ [] ↔
      messages ≠ [] ∧ 0 < tokenBudget ∧ fixedTokens messages ≤ tokenBudget.toNat := by
  rcases truncateMessageGroup_cases messages tokenBudget with ⟨hnil, hnot⟩ | ⟨hne, hpos, hcopies, htokens⟩
  · exact iff_of_false (not_not.2 hnil) hnot
  · refine iff_of_true (fun hnil => ?_) ⟨hne, hpos, (fixedTokens_le hcopies).trans htokens⟩
    rw [hnil] at hcopies
    exact hne (List.forall₂_nil_right_iff.1 hcopies)

end Returned

end OpenViking.Session
