import Mathlib.Algebra.GroupWithZero.Nat
import OpenViking.Session.Message

/-!
# Turns

Token estimates (`utils/token_estimation.py`, 12-48, and `Message.estimated_tokens`), and how `build_turns`
(`session/retention.py`, 24-151) groups messages into turns and steps.  The weights are counted in quarters of a
token.  The messages are objects of some type, so that two of them may look the same.

Results:

* `flattenTurns_buildTurns`: the turns hold the messages in order;
* `buildTurns_suffix`, `buildTurns_steps_suffix`: the last turns, and the last steps of a turn with its anchor, are
  grouped again as they were.
-/

namespace OpenViking.Session

/-! ## Tokens -/

/-- `_is_cjk_code_point` (12-25). -/
def isCjkCodePoint (codePoint : ℕ) : Bool :=
  decide (0x3400 ≤ codePoint ∧ codePoint ≤ 0x4dbf ∨ 0x4e00 ≤ codePoint ∧ codePoint ≤ 0x9fff ∨
    0xf900 ≤ codePoint ∧ codePoint ≤ 0xfaff ∨ 0x20000 ≤ codePoint ∧ codePoint ≤ 0x2ebef ∨
    0x3040 ≤ codePoint ∧ codePoint ≤ 0x30ff ∨ 0x31f0 ≤ codePoint ∧ codePoint ≤ 0x31ff ∨
    0xac00 ≤ codePoint ∧ codePoint ≤ 0xd7af ∨ 0x1100 ≤ codePoint ∧ codePoint ≤ 0x11ff ∨
    0x3130 ≤ codePoint ∧ codePoint ≤ 0x318f ∨ 0xff00 ≤ codePoint ∧ codePoint ≤ 0xffef ∨
    0x3000 ≤ codePoint ∧ codePoint ≤ 0x303f)

/-- `_code_point_weight` (28-33), in quarters of a token. -/
def codePointWeight (codePoint : ℕ) : ℕ :=
  if isCjkCodePoint codePoint then 6 else if 0xffff < codePoint then 8 else 1

/-- The weight of a text. -/
def textWeight (text : List Char) : ℕ := (text.map fun c => codePointWeight c.toNat).sum

/-- `estimate_text_tokens` (36-40). -/
def estimateTextTokens (text : List Char) : ℕ := (textWeight text + 3) / 4

/-- What a part adds to the text whose tokens are counted. -/
def Part.tokenText : Part → List Char
  | .text content => content.toList
  | .context part => part.abstract.toList
  | .image _ => []
  | .tool part =>
    part.toolId.toList ++ part.toolName.toList ++
      (match part.toolInput with
      | none => []
      | some entries => if entries.isEmpty then [] else (Json.obj entries).line [' ']) ++
      part.toolOutput.toList

/-- `Message.estimated_tokens` (message.py, 41-72). -/
def Message.estimatedTokens (message : Message) : ℕ := estimateTextTokens (message.parts.flatMap Part.tokenText)

/-! ## Grouping -/

/-- `isinstance(part, ToolPart)`. -/
def Part.isTool : Part → Bool
  | .tool _ => true
  | _ => false

/-- `is_tool_transport` (24-34). -/
def isToolTransport (message : Message) : Bool :=
  if message.messageKind = some "tool_transport" then true
  else if message.messageKind = some "user_query" then false
  else !message.parts.isEmpty && decide (message.role = "user") && message.parts.all Part.isTool

/-- `is_user_query` (37-43). -/
def isUserQuery (message : Message) : Bool :=
  if message.messageKind = some "user_query" then true
  else if message.messageKind = some "tool_transport" then false
  else decide (message.role = "user") && !isToolTransport message

/-- `AssistantStep`. -/
structure AssistantStep (α : Type*) where
  messages : List α

/-- `UserTurn`. -/
structure UserTurn (α : Type*) where
  anchor : Option α
  steps : List (AssistantStep α)

section Model

variable {α : Type*} (msg : α → Message)

/-- `_message_tokens` (158-159). -/
def messageTokens (messages : List α) : ℕ := (messages.map fun message => (msg message).estimatedTokens).sum

/-- `AssistantStep.estimated_tokens`. -/
def AssistantStep.estimatedTokens (step : AssistantStep α) : ℕ := messageTokens msg step.messages

/-- The messages of steps. -/
def flattenSteps (steps : List (AssistantStep α)) : List α := steps.flatMap AssistantStep.messages

/-- `UserTurn.messages`. -/
def UserTurn.messages (turn : UserTurn α) : List α := turn.anchor.toList ++ flattenSteps turn.steps

/-- `UserTurn.estimated_tokens`. -/
def UserTurn.estimatedTokens (turn : UserTurn α) : ℕ := messageTokens msg turn.messages

/-- `_flatten_turns` (154-155). -/
def flattenTurns (turns : List (UserTurn α)) : List α := turns.flatMap UserTurn.messages

/-- `_append_to_turn` (117-129); a message of the assistant and one out of place both begin a step. -/
def appendToTurn (turn : UserTurn α) (message : α) : UserTurn α :=
  match isToolTransport (msg message), turn.steps.getLast? with
  | true, some step => { turn with steps := turn.steps.dropLast ++ [⟨step.messages ++ [message]⟩] }
  | _, _ => { turn with steps := turn.steps ++ [⟨[message]⟩] }

/-- The loop of `build_turns`; the current turn is the last one. -/
def addMessage (turns : List (UserTurn α)) (message : α) : List (UserTurn α) :=
  if isUserQuery (msg message) then turns ++ [⟨some message, []⟩]
  else
    match turns.getLast? with
    | none => [appendToTurn msg ⟨none, []⟩ message]
    | some current => turns.dropLast ++ [appendToTurn msg current message]

/-- `build_turns` (132-151). -/
def buildTurns (messages : List α) : List (UserTurn α) := messages.foldl (addMessage msg) []

end Model

/-! ## Order -/

section Order

variable {α : Type*} {msg : α → Message}

@[simp] theorem messageTokens_nil : messageTokens msg [] = 0 := rfl

@[simp] theorem messageTokens_append (first rest : List α) :
    messageTokens msg (first ++ rest) = messageTokens msg first + messageTokens msg rest := by
  rw [messageTokens, List.map_append, List.sum_append]
  rfl

@[simp] theorem messageTokens_cons (message : α) (messages : List α) :
    messageTokens msg (message :: messages) = (msg message).estimatedTokens + messageTokens msg messages := rfl

@[simp] theorem flattenSteps_append (first rest : List (AssistantStep α)) :
    flattenSteps (first ++ rest) = flattenSteps first ++ flattenSteps rest := List.flatMap_append

@[simp] theorem flattenSteps_singleton (step : AssistantStep α) : flattenSteps [step] = step.messages := by
  unfold flattenSteps
  rw [List.flatMap_singleton]

@[simp] theorem flattenTurns_append (first rest : List (UserTurn α)) :
    flattenTurns (first ++ rest) = flattenTurns first ++ flattenTurns rest := List.flatMap_append

@[simp] theorem flattenTurns_singleton (turn : UserTurn α) : flattenTurns [turn] = turn.messages := by
  unfold flattenTurns
  rw [List.flatMap_singleton]

theorem exists_concat_of_ne_nil {β : Type*} {l : List β} (h : l ≠ []) : ∃ init last, l = init ++ [last] :=
  ⟨l.dropLast, l.getLast h, (List.dropLast_append_getLast h).symm⟩

/-- What appending does: the message joins the last step, or begins one. -/
theorem appendToTurn_cases (msg : α → Message) (turn : UserTurn α) (message : α) :
    (∃ init step, turn.steps = init ++ [step] ∧ isToolTransport (msg message) = true ∧
      appendToTurn msg turn message = ⟨turn.anchor, init ++ [⟨step.messages ++ [message]⟩]⟩) ∨
    ((isToolTransport (msg message) = true → turn.steps = []) ∧
      appendToTurn msg turn message = ⟨turn.anchor, turn.steps ++ [⟨[message]⟩]⟩) := by
  unfold appendToTurn
  by_cases hsteps : turn.steps = []
  · right
    refine ⟨fun _ => hsteps, ?_⟩
    rw [hsteps]
    cases isToolTransport (msg message) <;> rfl
  · obtain ⟨init, step, heq⟩ := exists_concat_of_ne_nil hsteps
    cases htransport : isToolTransport (msg message) with
    | false => exact .inr ⟨nofun, rfl⟩
    | true =>
      left
      refine ⟨init, step, heq, rfl, ?_⟩
      rw [heq, List.getLast?_concat, List.dropLast_concat]

theorem appendToTurn_messages (turn : UserTurn α) (message : α) :
    (appendToTurn msg turn message).messages = turn.messages ++ [message] := by
  rcases appendToTurn_cases msg turn message with ⟨init, step, heq, -, happend⟩ | ⟨-, happend⟩
  · rw [happend]
    unfold UserTurn.messages
    rw [heq]
    simp [flattenSteps]
  · rw [happend]
    unfold UserTurn.messages
    simp [flattenSteps]

/-- What a message does: it begins a turn, the first or one of its own, or joins the last one. -/
theorem addMessage_cases (msg : α → Message) (turns : List (UserTurn α)) (message : α) :
    (isUserQuery (msg message) = true ∧ addMessage msg turns message = turns ++ [⟨some message, []⟩]) ∨
    (isUserQuery (msg message) = false ∧ turns = [] ∧
      addMessage msg turns message = [appendToTurn msg ⟨none, []⟩ message]) ∨
    (isUserQuery (msg message) = false ∧ ∃ init current, turns = init ++ [current] ∧
      addMessage msg turns message = init ++ [appendToTurn msg current message]) := by
  unfold addMessage
  cases hquery : isUserQuery (msg message) with
  | true => exact .inl ⟨rfl, if_pos rfl⟩
  | false =>
    right
    rw [if_neg Bool.false_ne_true]
    by_cases hturns : turns = []
    · left
      refine ⟨rfl, hturns, ?_⟩
      rw [hturns]
      rfl
    · right
      obtain ⟨init, current, heq⟩ := exists_concat_of_ne_nil hturns
      refine ⟨rfl, init, current, heq, ?_⟩
      rw [heq, List.getLast?_concat, List.dropLast_concat]

theorem flattenTurns_addMessage (turns : List (UserTurn α)) (message : α) :
    flattenTurns (addMessage msg turns message) = flattenTurns turns ++ [message] := by
  rcases addMessage_cases msg turns message with
    ⟨-, hadd⟩ | ⟨-, hnil, hadd⟩ | ⟨-, init, current, heq, hadd⟩
  · rw [hadd, flattenTurns_append, flattenTurns_singleton]
    rfl
  · rw [hadd, hnil, flattenTurns_singleton, appendToTurn_messages]
    rfl
  · rw [hadd, heq, flattenTurns_append, flattenTurns_append, flattenTurns_singleton, flattenTurns_singleton,
      appendToTurn_messages, List.append_assoc]

@[simp] theorem buildTurns_nil : buildTurns msg [] = [] := rfl

variable (messages : List α)

theorem buildTurns_concat (message : α) :
    buildTurns msg (messages ++ [message]) = addMessage msg (buildTurns msg messages) message := by
  unfold buildTurns
  rw [List.foldl_append]
  rfl

/-- The turns hold the messages in their order. -/
theorem flattenTurns_buildTurns (msg : α → Message) (messages : List α) :
    flattenTurns (buildTurns msg messages) = messages := by
  induction messages using List.reverseRecOn with
  | nil => rfl
  | append_singleton messages message ih => rw [buildTurns_concat, flattenTurns_addMessage, ih]

/-- A turn with its messages, and steps with theirs. -/
def UserTurn.Filled (turn : UserTurn α) : Prop := turn.messages ≠ [] ∧ ∀ step ∈ turn.steps, step.messages ≠ []

theorem appendToTurn_filled {turn : UserTurn α} (h : ∀ step ∈ turn.steps, step.messages ≠ []) (message : α) :
    (appendToTurn msg turn message).Filled := by
  refine ⟨?_, ?_⟩
  · rw [appendToTurn_messages]
    exact List.append_ne_nil_of_right_ne_nil _ (List.cons_ne_nil _ _)
  rcases appendToTurn_cases msg turn message with ⟨init, step, heq, -, happend⟩ | ⟨-, happend⟩
  · rw [happend]
    intro step' hstep'
    rcases List.mem_append.1 hstep' with hinit | hlast
    · exact h step' (by rw [heq]; exact List.mem_append_left _ hinit)
    · rw [List.mem_singleton.1 hlast]
      exact List.append_ne_nil_of_right_ne_nil _ (List.cons_ne_nil _ _)
  · rw [happend]
    intro step' hstep'
    rcases List.mem_append.1 hstep' with hinit | hlast
    · exact h step' hinit
    · rw [List.mem_singleton.1 hlast]
      exact List.cons_ne_nil _ _

/-- What a turn has when it begins, and keeps when a message joins it, every turn has. -/
theorem forall_mem_buildTurns {P : UserTurn α → Prop}
    (hquery : ∀ message, isUserQuery (msg message) = true → P ⟨some message, []⟩)
    (hfirst : ∀ message, isUserQuery (msg message) = false → P (appendToTurn msg ⟨none, []⟩ message))
    (hjoin : ∀ turn message, isUserQuery (msg message) = false → P turn → P (appendToTurn msg turn message)) :
    ∀ turn ∈ buildTurns msg messages, P turn := by
  induction messages using List.reverseRecOn with
  | nil => exact fun turn hturn => absurd hturn List.not_mem_nil
  | append_singleton messages message ih =>
    rw [buildTurns_concat]
    intro turn hturn
    rcases addMessage_cases msg (buildTurns msg messages) message with
      ⟨hbegins, hadd⟩ | ⟨hjoins, -, hadd⟩ | ⟨hjoins, init, current, heq, hadd⟩
    · rw [hadd] at hturn
      rcases List.mem_append.1 hturn with hturn | hturn
      · exact ih turn hturn
      · rw [List.mem_singleton.1 hturn]
        exact hquery message hbegins
    · rw [hadd] at hturn
      rw [List.mem_singleton.1 hturn]
      exact hfirst message hjoins
    · rw [hadd] at hturn
      rw [heq] at ih
      rcases List.mem_append.1 hturn with hturn | hturn
      · exact ih turn (List.mem_append_left _ hturn)
      · rw [List.mem_singleton.1 hturn]
        exact hjoin current message hjoins (ih current (by simp))

/-- No turn and no step is empty. -/
theorem buildTurns_filled : ∀ turn ∈ buildTurns msg messages, turn.Filled :=
  forall_mem_buildTurns messages
    (fun _ _ => ⟨List.cons_ne_nil _ _, fun _ hstep => absurd hstep List.not_mem_nil⟩)
    (fun message _ => appendToTurn_filled (fun _ hstep => absurd hstep List.not_mem_nil) message)
    fun _ message _ hfilled => appendToTurn_filled hfilled.2 message

theorem buildTurns_eq_nil_iff : buildTurns msg messages = [] ↔ messages = [] := by
  constructor
  · intro h
    rw [← flattenTurns_buildTurns msg messages, h]
    rfl
  · rintro rfl
    rfl

end Order

/-! ## Grouping again -/

section Again

variable {α : Type*} {msg : α → Message}

/-- A message is added to the last turns as to all of them. -/
theorem addMessage_append (msg : α → Message) (before : List (UserTurn α)) {turns : List (UserTurn α)}
    (h : turns ≠ []) (message : α) :
    addMessage msg (before ++ turns) message = before ++ addMessage msg turns message := by
  obtain ⟨init, current, rfl⟩ := exists_concat_of_ne_nil h
  unfold addMessage
  rw [← List.append_assoc, List.getLast?_concat, List.dropLast_concat, List.getLast?_concat, List.dropLast_concat]
  split_ifs
  · simp only [List.append_assoc]
  · simp only [List.append_assoc]

variable (messages : List α)

/-- The last turns are grouped again as they were. -/
theorem buildTurns_suffix {before turns : List (UserTurn α)}
    (h : buildTurns msg messages = before ++ turns) : buildTurns msg (flattenTurns turns) = turns := by
  induction messages using List.reverseRecOn generalizing before turns with
  | nil =>
    have hturns : turns = [] := (List.append_eq_nil_iff.1 h.symm).2
    rw [hturns]
    rfl
  | append_singleton messages message ih =>
    rw [buildTurns_concat] at h
    by_cases hturns : turns = []
    · rw [hturns]
      rfl
    obtain ⟨init, last, rfl⟩ := exists_concat_of_ne_nil hturns
    rw [← List.append_assoc] at h
    rcases addMessage_cases msg (buildTurns msg messages) message with
      ⟨hquery, hadd⟩ | ⟨hquery, hnil, hadd⟩ | ⟨hquery, init', current, heq, hadd⟩
    · obtain ⟨hinit, hlast⟩ := List.append_inj' (hadd.symm.trans h) rfl
      obtain rfl := (List.cons.inj hlast).1
      rw [flattenTurns_append, flattenTurns_singleton]
      show buildTurns msg (flattenTurns init ++ [message]) = _
      rw [buildTurns_concat, ih hinit]
      exact if_pos hquery
    · rw [hadd, ← List.nil_append [appendToTurn msg ⟨none, []⟩ message]] at h
      obtain ⟨hinit, hlast⟩ := List.append_inj' h rfl
      obtain rfl := (List.cons.inj hlast).1
      obtain rfl := (List.append_eq_nil_iff.1 hinit.symm).2
      rw [flattenTurns_append, flattenTurns_singleton, appendToTurn_messages]
      rw [hnil] at hadd
      exact hadd
    · rw [hadd] at h
      obtain ⟨hinit, hlast⟩ := List.append_inj' h rfl
      obtain rfl := (List.cons.inj hlast).1
      have hbefore : buildTurns msg messages = before ++ (init ++ [current]) := by
        rw [heq, hinit, List.append_assoc]
      rw [flattenTurns_append, flattenTurns_singleton, appendToTurn_messages, ← List.append_assoc,
        ← flattenTurns_singleton current, ← flattenTurns_append, buildTurns_concat, ih hbefore]
      have hsame := addMessage_append msg init (List.cons_ne_nil current []) message
      rw [hsame]
      congr 1
      unfold addMessage
      rw [if_neg (by rw [hquery]; exact Bool.false_ne_true)]
      rfl

/-- The last steps of the turn are grouped again with its anchor. -/
def StepsAgain (msg : α → Message) (turn : UserTurn α) : Prop :=
  ∀ anchor, turn.anchor = some anchor → ∀ before steps, turn.steps = before ++ steps →
    buildTurns msg (anchor :: flattenSteps steps) = [⟨some anchor, steps⟩]

theorem buildTurns_anchor_concat {anchor : α} {steps : List (AssistantStep α)} {message : α}
    (hagain : buildTurns msg (anchor :: flattenSteps steps) = [⟨some anchor, steps⟩])
    (hquery : isUserQuery (msg message) = false) :
    buildTurns msg (anchor :: (flattenSteps steps ++ [message])) =
      [appendToTurn msg ⟨some anchor, steps⟩ message] := by
  rw [← List.cons_append, buildTurns_concat, hagain]
  exact if_neg (by rw [hquery]; exact Bool.false_ne_true)

theorem StepsAgain.append {turn : UserTurn α} (h : StepsAgain msg turn) {message : α}
    (hquery : isUserQuery (msg message) = false) : StepsAgain msg (appendToTurn msg turn message) := by
  intro anchor hanchor before steps hsteps
  rcases appendToTurn_cases msg turn message with
    ⟨init, step, heq, htransport, happend⟩ | ⟨htransport, happend⟩
  · rw [happend] at hanchor hsteps
    by_cases hnil : steps = []
    · rw [hnil]
      exact h anchor hanchor turn.steps [] (List.append_nil _).symm
    obtain ⟨init', last, rfl⟩ := exists_concat_of_ne_nil hnil
    rw [← List.append_assoc] at hsteps
    obtain ⟨hinit, hlast⟩ := List.append_inj' hsteps rfl
    obtain rfl := (List.cons.inj hlast).1
    have hnew := buildTurns_anchor_concat
      (h anchor hanchor before (init' ++ [step]) (by rw [heq, hinit, List.append_assoc])) hquery
    have hjoined : appendToTurn msg ⟨some anchor, init' ++ [step]⟩ message =
        ⟨some anchor, init' ++ [⟨step.messages ++ [message]⟩]⟩ := by
      unfold appendToTurn
      rw [htransport, List.getLast?_concat, List.dropLast_concat]
    rw [hjoined, flattenSteps_append, flattenSteps_singleton, List.append_assoc] at hnew
    rw [flattenSteps_append, flattenSteps_singleton]
    exact hnew
  · rw [happend] at hanchor hsteps
    by_cases hnil : steps = []
    · rw [hnil]
      exact h anchor hanchor turn.steps [] (List.append_nil _).symm
    obtain ⟨init', last, rfl⟩ := exists_concat_of_ne_nil hnil
    rw [← List.append_assoc] at hsteps
    obtain ⟨hinit, hlast⟩ := List.append_inj' hsteps rfl
    obtain rfl := (List.cons.inj hlast).1
    have hnew := buildTurns_anchor_concat (h anchor hanchor before init' hinit) hquery
    have hbegun : appendToTurn msg ⟨some anchor, init'⟩ message = ⟨some anchor, init' ++ [⟨[message]⟩]⟩ := by
      rcases appendToTurn_cases msg ⟨some anchor, init'⟩ message with
        ⟨init, step, heq, htrue, -⟩ | ⟨-, hbegun⟩
      · -- a message out of place comes before all steps
        have hempty := (List.append_eq_nil_iff.1 (hinit.symm.trans (htransport htrue))).2
        rw [hempty] at heq
        exact absurd heq.symm (List.append_ne_nil_of_right_ne_nil _ (List.cons_ne_nil _ _))
      · exact hbegun
    rw [hbegun] at hnew
    rw [flattenSteps_append, flattenSteps_singleton]
    exact hnew

theorem stepsAgain_of_mem : ∀ turn ∈ buildTurns msg messages, StepsAgain msg turn := by
  refine forall_mem_buildTurns messages (fun message hquery => ?_)
    (fun _ hquery => StepsAgain.append (fun _ hanchor => by cases hanchor) hquery)
    fun turn message hquery hagain => hagain.append hquery
  intro anchor hanchor before steps hsteps
  obtain rfl := Option.some.inj hanchor
  obtain rfl := (List.append_eq_nil_iff.1 hsteps.symm).2
  exact if_pos hquery

/-- The last steps of a turn are grouped again with its anchor. -/
theorem buildTurns_steps_suffix {turn : UserTurn α} (hturn : turn ∈ buildTurns msg messages)
    {anchor : α} (hanchor : turn.anchor = some anchor) {before steps : List (AssistantStep α)}
    (h : turn.steps = before ++ steps) :
    buildTurns msg (anchor :: flattenSteps steps) = [⟨some anchor, steps⟩] :=
  stepsAgain_of_mem messages turn hturn anchor hanchor before steps h

end Again

/-! ## Other objects -/

section Map

variable {α β : Type*}

/-- A step with its messages through a function. -/
def AssistantStep.map (f : α → β) (step : AssistantStep α) : AssistantStep β := ⟨step.messages.map f⟩

/-- A turn with its messages through a function. -/
def UserTurn.map (f : α → β) (turn : UserTurn α) : UserTurn β :=
  ⟨turn.anchor.map f, turn.steps.map (AssistantStep.map f)⟩

theorem UserTurn.messages_map (f : α → β) (turn : UserTurn α) : (turn.map f).messages = turn.messages.map f := by
  unfold UserTurn.messages UserTurn.map flattenSteps
  rw [List.map_append, List.flatMap_map, List.map_flatMap]
  congr 1
  cases turn.anchor with
  | none => rfl
  | some anchor => rfl

variable (msg : β → Message) (f : α → β)

theorem appendToTurn_map (turn : UserTurn α) (message : α) :
    appendToTurn msg (turn.map f) (f message) = (appendToTurn (msg ∘ f) turn message).map f := by
  unfold appendToTurn UserTurn.map
  dsimp only [Function.comp_apply]
  rw [List.getLast?_map]
  cases isToolTransport (msg (f message)) with
  | false => simp [AssistantStep.map]
  | true =>
    cases turn.steps.getLast? with
    | none => simp [AssistantStep.map]
    | some step => simp [AssistantStep.map, List.map_dropLast]

theorem addMessage_map (turns : List (UserTurn α)) (message : α) :
    addMessage msg (turns.map (UserTurn.map f)) (f message) =
      (addMessage (msg ∘ f) turns message).map (UserTurn.map f) := by
  unfold addMessage
  rw [List.getLast?_map, Function.comp_apply]
  by_cases hquery : isUserQuery (msg (f message)) = true
  · rw [if_pos hquery, if_pos hquery, List.map_append]
    rfl
  · rw [if_neg hquery, if_neg hquery]
    cases turns.getLast? with
    | none =>
      rw [Option.map_none]
      exact congrArg (fun turn => [turn]) (appendToTurn_map msg f ⟨none, []⟩ message)
    | some current =>
      rw [Option.map_some]
      dsimp only
      rw [appendToTurn_map, List.map_append, List.map_dropLast]
      rfl

/-- Messages are grouped by what they look like. -/
theorem buildTurns_map (messages : List α) :
    buildTurns msg (messages.map f) = (buildTurns (msg ∘ f) messages).map (UserTurn.map f) := by
  induction messages using List.reverseRecOn with
  | nil => rfl
  | append_singleton messages message ih =>
    rw [List.map_append, List.map_singleton, buildTurns_concat, ih, addMessage_map, buildTurns_concat]

end Map

end OpenViking.Session
