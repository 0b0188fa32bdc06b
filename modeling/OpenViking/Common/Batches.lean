import Mathlib.Algebra.GroupWithZero.Nat
import Mathlib.Algebra.BigOperators.Group.List.Basic
import Mathlib.Data.List.ReduceOption
import OpenViking.Common.Room

/-!
# Batches under a limit

Steps that each find some entries or fail, taken one after another until a limit of entries is reached; and
the same steps collected into batches, where every step of a batch is taken, with what was left of the limit
before the batch, and what they found is then added in order.

Results:

* `runBatches_of_overrun`: unless a step fails past the place in its batch where the limit is reached;
* `flatten_batches`: the batches hold the steps in their order.
-/

namespace OpenViking.Batches

open Room

variable {α E : Type*}

/-! ## One after another -/

/-- The steps one after another. -/
def runSteps (limit : Option ℕ) : List (Except E (List α)) → List α → Except E (List α)
  | [], result => .ok result
  | step :: steps, result =>
    if reached limit result.length then .ok result
    else
      match step with
      | .error err => .error err
      | .ok found => runSteps limit steps (result ++ takeRoom (spend limit result.length) found)

/-! ## In batches -/

/-- What a step finds in a batch. -/
def clip (room : Option ℕ) (step : Except E (List α)) : Except E (List α) := step.map (takeRoom room)

/-- What the steps of a batch found is added until there is no room for all of it. -/
def pushAll (limit : Option ℕ) : List (Except E (List α)) → List α → Except E (List α)
  | [], result => .ok result
  | .error err :: _, _ => .error err
  | .ok found :: steps, result =>
    if (takeRoom (spend limit result.length) found).length < found.length then
      .ok (result ++ takeRoom (spend limit result.length) found)
    else pushAll limit steps (result ++ found)

/-- The steps of a batch. -/
def flush (limit : Option ℕ) (batch : List (Except E (List α))) (result : List α) : Except E (List α) :=
  if reached limit result.length then .ok result
  else pushAll limit (batch.map (clip (spend limit result.length))) result

/-- The batches one after another. -/
def runBatches (limit : Option ℕ) : List (List (Except E (List α))) → List α → Except E (List α)
  | [], result => .ok result
  | batch :: batches, result =>
    match flush limit batch result with
    | .error err => .error err
    | .ok result => runBatches limit batches result

/-- A step of the batch fails, and what the steps before it find fills the room exactly. -/
def Spoils (clipped room : ℕ) (batch : List (Except E (List α))) : Prop :=
  ∃ (done : List (List α)) (err : E) (rest : List (Except E (List α))),
    batch = done.map .ok ++ .error err :: rest ∧
      (done.map fun found => min clipped found.length).sum = room

/-- A batch that is spoilt comes before the limit is reached; `count` entries are there. -/
def Overrun (limit : ℕ) : List (List (Except E (List α))) → ℕ → Prop
  | [], _ => False
  | batch :: batches, count =>
    (count < limit ∧ Spoils (limit - count) (limit - count) batch) ∨
      ∃ lists : List (List α), batch = lists.map .ok ∧
        Overrun limit batches (count + (lists.map List.length).sum)

section Steps

variable {limit : Option ℕ}

variable {result : List α}

theorem runSteps_of_reached (h : reached limit result.length = true)
    (steps : List (Except E (List α))) : runSteps limit steps result = .ok result := by
  cases steps with
  | nil => rfl
  | cons step steps =>
    cases step with
    | error err => rw [runSteps, if_pos h]
    | ok found => rw [runSteps, if_pos h]

theorem runBatches_of_reached (h : reached limit result.length = true)
    (batches : List (List (Except E (List α)))) : runBatches limit batches result = .ok result := by
  induction batches with
  | nil => rfl
  | cons batch batches ih =>
    rw [runBatches, flush, if_pos h]
    exact ih

variable {batch : List (Except E (List α))}

theorem runBatches_of_flush_error {err : E}
    (h : flush limit batch result = .error err) (batches : List (List (Except E (List α)))) :
    runBatches limit (batch :: batches) result = .error err := by
  rw [runBatches, h]

theorem runBatches_of_flush_ok {result result' : List α}
    (h : flush limit batch result = .ok result') (batches : List (List (Except E (List α)))) :
    runBatches limit (batch :: batches) result = runBatches limit batches result' := by
  rw [runBatches, h]

theorem runSteps_append (first rest : List (Except E (List α))) (result : List α) :
    runSteps limit (first ++ rest) result =
      match runSteps limit first result with
      | .error err => .error err
      | .ok result => runSteps limit rest result := by
  induction first generalizing result with
  | nil => rfl
  | cons step first ih =>
    rw [List.cons_append]
    by_cases h : reached limit result.length = true
    · rw [runSteps_of_reached h, runSteps_of_reached h]
      exact (runSteps_of_reached h rest).symm
    · cases step with
      | error err =>
        rw [runSteps, runSteps, if_neg h]
      | ok found =>
        rw [runSteps, runSteps, if_neg h, if_neg h]
        exact ih _

/-- What a step finds of one kind; nothing, if it fails. -/
def foundOf (p : α → Bool) : Except E (List α) → List α
  | .ok found => found.filter p
  | .error _ => []

variable {steps : List (Except E (List α))}

/-- What unlimited steps leave of one kind is what each of them finds of it. -/
theorem runSteps_none_filter {result out : List α} (h : runSteps none steps result = .ok out) (p : α → Bool) :
    out.filter p = result.filter p ++ steps.flatMap (foundOf p) := by
  induction steps generalizing result with
  | nil =>
    obtain rfl := Except.ok.inj h
    rw [List.flatMap_nil, List.append_nil]
  | cons step steps ih =>
    cases step with
    | error err =>
      rw [runSteps, if_neg (by simp [reached])] at h
      cases h
    | ok found =>
      have hrest : runSteps none steps (result ++ found) = .ok out := by
        rwa [runSteps, if_neg (by simp [reached])] at h
      rw [ih hrest, List.filter_append, List.flatMap_cons, List.append_assoc]
      rfl

/-- Where no step fails, a limit cuts what the steps give. -/
theorem runSteps_take {result out : List α} (h : runSteps none steps result = .ok out) (limit : ℕ) :
    runSteps (some limit) steps (result.take limit) = .ok (out.take limit) := by
  induction steps generalizing result with
  | nil =>
    obtain rfl := Except.ok.inj h
    rfl
  | cons step steps ih =>
    by_cases hfull : limit ≤ result.length
    · -- no step runs, and what is found comes behind what there is
      have hreached : reached (some limit) (result.take limit).length = true := by
        rw [List.length_take_of_le hfull]
        exact decide_eq_true le_rfl
      have hall := runSteps_none_filter h fun _ => true
      rw [List.filter_true, List.filter_true] at hall
      rw [runSteps_of_reached hreached, hall, List.take_append_of_le_length hfull]
    · have hnot : ¬ reached (some limit) result.length = true := by simpa [reached] using hfull
      cases step with
      | error err =>
        rw [runSteps, if_neg (by simp [reached])] at h
        cases h
      | ok found =>
        rw [runSteps, if_neg (by simp [reached])] at h
        have hcut : result ++ takeRoom (spend (some limit) result.length) found = (result ++ found).take limit := by
          rw [List.take_append, List.take_of_length_le (by omega)]
          rfl
        rw [List.take_of_length_le (by omega), runSteps, if_neg hnot]
        rw [hcut]
        exact ih h

/-- Without a limit all that is found is there. -/
theorem runBatches_none (batches : List (List (Except E (List α)))) (result : List α) :
    runBatches none batches result = runSteps none batches.flatten result := by
  have hflush : ∀ (batch : List (Except E (List α))) (result : List α),
      flush none batch result = runSteps none batch result := by
    intro batch result
    rw [flush, if_neg (by simp [reached])]
    induction batch generalizing result with
    | nil => rfl
    | cons step batch ih =>
      rw [List.map_cons]
      cases step with
      | error err =>
        rw [runSteps, if_neg (by simp [reached])]
        rfl
      | ok found =>
        rw [runSteps, if_neg (by simp [reached])]
        show pushAll none (.ok found :: batch.map (clip none)) result = _
        rw [pushAll, if_neg (by simp [takeRoom, spend])]
        exact ih (result ++ found)
  induction batches generalizing result with
  | nil => rfl
  | cons batch batches ih =>
    rw [runBatches, List.flatten_cons, runSteps_append, hflush]
    cases runSteps none batch result with
    | error err => rfl
    | ok result => exact ih result

end Steps

/-! ## One batch -/

section Flush

variable {limit : ℕ}

variable (clipped room : ℕ)

theorem not_spoils_nil : ¬ Spoils clipped room ([] : List (Except E (List α))) := by
  rintro ⟨done, err, rest, heq, -⟩
  exact List.append_ne_nil_of_right_ne_nil _ (List.cons_ne_nil _ _) heq.symm

theorem spoils_error_iff (err : E) (batch : List (Except E (List α))) :
    Spoils clipped room (.error err :: batch) ↔ room = 0 := by
  constructor
  · rintro ⟨done, err', rest, heq, hsum⟩
    cases done with
    | nil => exact hsum.symm
    | cons found done => cases (List.cons.inj heq).1
  · rintro rfl
    exact ⟨[], err, batch, rfl, rfl⟩

theorem spoils_ok_iff (found : List α) (batch : List (Except E (List α))) :
    Spoils clipped room (.ok found :: batch) ↔
      min clipped found.length ≤ room ∧ Spoils clipped (room - min clipped found.length) batch := by
  constructor
  · rintro ⟨done, err, rest, heq, hsum⟩
    cases done with
    | nil => cases (List.cons.inj heq).1
    | cons found' done =>
      obtain ⟨hfound, hrest⟩ := List.cons.inj heq
      obtain rfl := Except.ok.inj hfound
      rw [List.map_cons, List.sum_cons] at hsum
      exact ⟨by omega, done, err, rest, hrest, by omega⟩
  · rintro ⟨hle, done, err, rest, rfl, hsum⟩
    refine ⟨found :: done, err, rest, rfl, ?_⟩
    rw [List.map_cons, List.sum_cons, hsum]
    omega

/-- A batch ends as its steps do when it is not spoilt, and fails when it is. -/
theorem pushAll_spec {clipped : ℕ} (hclipped : 0 < clipped) (batch : List (Except E (List α)))
    (result : List α) (hroom : limit - result.length ≤ clipped) :
    (Spoils clipped (limit - result.length) batch →
        (∃ err, pushAll (some limit) (batch.map (clip (some clipped))) result = .error err) ∧
          ∃ result', runSteps (some limit) batch result = .ok result') ∧
      (¬ Spoils clipped (limit - result.length) batch →
        pushAll (some limit) (batch.map (clip (some clipped))) result = runSteps (some limit) batch result) := by
  induction batch generalizing result with
  | nil => exact ⟨fun h => absurd h (not_spoils_nil _ _), fun _ => rfl⟩
  | cons step batch ih =>
    cases step with
    | error err =>
      rw [spoils_error_iff]
      have hpush : pushAll (some limit) ((.error err :: batch).map (clip (some clipped))) result =
          .error err := rfl
      rw [hpush, runSteps]
      have hreached : reached (some limit) result.length = true ↔ limit - result.length = 0 := by
        rw [reached_iff, spend, Option.map_some, Option.some.injEq]
      by_cases h : limit - result.length = 0
      · rw [if_pos (hreached.2 h)]
        exact ⟨fun _ => ⟨⟨err, rfl⟩, result, rfl⟩, fun hn => absurd h hn⟩
      · rw [if_neg (fun h' => h (hreached.1 h'))]
        exact ⟨fun h' => absurd h' h, fun _ => rfl⟩
    | ok found =>
      have hpush : pushAll (some limit) ((.ok found :: batch).map (clip (some clipped))) result =
          if ((found.take clipped).take (limit - result.length)).length < (found.take clipped).length then
            .ok (result ++ (found.take clipped).take (limit - result.length))
          else pushAll (some limit) (batch.map (clip (some clipped))) (result ++ found.take clipped) := rfl
      have hlen : ((found.take clipped).take (limit - result.length)).length <
          (found.take clipped).length ↔ ¬ min clipped found.length ≤ limit - result.length := by
        rw [List.length_take, List.length_take]
        omega
      have hsteps : runSteps (some limit) (.ok found :: batch) result =
          runSteps (some limit) batch (result ++ found.take (limit - result.length)) := by
        rw [runSteps]
        split_ifs with h
        · have hzero : limit - result.length = 0 := by
            rw [reached_iff, spend, Option.map_some, Option.some.injEq] at h
            exact h
          rw [hzero, List.take_zero, List.append_nil, runSteps_of_reached h]
        · rfl
      rw [spoils_ok_iff, hpush, hsteps]
      by_cases hle : min clipped found.length ≤ limit - result.length
      · -- all that the step found in the batch is added
        have htake : found.take (limit - result.length) = found.take clipped := by
          rcases Nat.le_total found.length clipped with hfound | hfound
          · rw [Nat.min_eq_right hfound] at hle
            rw [List.take_of_length_le hle, List.take_of_length_le hfound]
          · rw [Nat.min_eq_left hfound] at hle
            rw [Nat.le_antisymm hroom hle]
        have hleft : limit - (result ++ found.take clipped).length =
            limit - result.length - min clipped found.length := by
          rw [List.length_append, List.length_take]
          omega
        have hih := ih (result ++ found.take clipped) (by rw [hleft]; omega)
        rw [hleft] at hih
        rw [if_neg (fun h => hlen.1 h hle), htake, and_iff_right hle]
        exact hih
      · -- the limit is reached inside what the step found
        have htake : (found.take clipped).take (limit - result.length) =
            found.take (limit - result.length) := by
          rw [List.take_take, Nat.min_eq_left hroom]
        have hreached : reached (some limit) (result ++ found.take (limit - result.length)).length = true := by
          rw [reached_iff, spend, Option.map_some, Option.some.injEq, List.length_append, List.length_take]
          omega
        rw [if_pos (hlen.2 hle), htake, runSteps_of_reached hreached]
        exact ⟨fun h => absurd h.1 hle, fun _ => rfl⟩

variable {batch : List (Except E (List α))}

theorem flush_of_not_spoils {result : List α}
    (h : ¬ (result.length < limit ∧ Spoils (limit - result.length) (limit - result.length) batch)) :
    flush (some limit) batch result = runSteps (some limit) batch result := by
  rw [flush]
  split_ifs with hreached
  · rw [runSteps_of_reached hreached]
  · have hlt : result.length < limit := by
      rw [reached_iff, spend, Option.map_some, Option.some.injEq] at hreached
      omega
    exact (pushAll_spec (by omega) batch result (le_refl _)).2 fun hs => h ⟨hlt, hs⟩

theorem flush_of_spoils {result : List α} (hlt : result.length < limit)
    (h : Spoils (limit - result.length) (limit - result.length) batch) :
    (∃ err, flush (some limit) batch result = .error err) ∧
      ∃ result', runSteps (some limit) batch result = .ok result' ∧
        reached (some limit) result'.length = true := by
  have hreached : ¬ reached (some limit) result.length = true := by
    rw [reached_iff, spend, Option.map_some, Option.some.injEq]
    omega
  obtain ⟨herr, result', hok⟩ := (pushAll_spec (by omega) batch result (le_refl _)).1 h
  rw [flush, if_neg hreached]
  refine ⟨herr, result', hok, ?_⟩
  by_contra hnot
  -- the step that fails would have been taken
  obtain ⟨done, err, rest, rfl, -⟩ := h
  rw [runSteps_append] at hok
  cases hdone : runSteps (some limit) (done.map .ok) result with
  | error err' =>
    rw [hdone] at hok
    cases hok
  | ok result'' =>
    rw [hdone] at hok
    dsimp only at hok
    rw [runSteps] at hok
    split_ifs at hok with hstop
    obtain rfl := Except.ok.inj hok
    exact hnot hstop

variable {result result' : List α}

/-- What steps that do not fail leave. -/
theorem runSteps_ok {lists : List (List α)}
    (h : runSteps (some limit) (lists.map (.ok : List α → Except E (List α))) result = .ok result')
    (hnot : ¬ reached (some limit) result'.length = true) :
    result'.length = result.length + (lists.map List.length).sum := by
  induction lists generalizing result with
  | nil =>
    obtain rfl := Except.ok.inj h
    rfl
  | cons found lists ih =>
    rw [List.map_cons, runSteps] at h
    split_ifs at h with hstop
    · obtain rfl := Except.ok.inj h
      exact absurd hstop hnot
    · have hrest := ih h
      have hall : takeRoom (spend (some limit) result.length) found = found := by
        have htake : takeRoom (spend (some limit) result.length) found =
            found.take (limit - result.length) := rfl
        rw [htake, List.take_eq_self_iff]
        rw [reached_iff, spend, Option.map_some, Option.some.injEq] at hnot
        rw [htake, List.length_append, List.length_take] at hrest
        omega
      rw [hall, List.length_append] at hrest
      rw [hrest, List.map_cons, List.sum_cons]
      omega

/-- Steps that end before the limit did not fail. -/
theorem exists_lists (h : runSteps (some limit) batch result = .ok result')
    (hnot : ¬ reached (some limit) result'.length = true) : ∃ lists : List (List α), batch = lists.map .ok := by
  induction batch generalizing result with
  | nil => exact ⟨[], rfl⟩
  | cons step batch ih =>
    by_cases hstop : reached (some limit) result.length = true
    · rw [runSteps_of_reached hstop] at h
      obtain rfl := Except.ok.inj h
      exact absurd hstop hnot
    · cases step with
      | error err =>
        rw [runSteps, if_neg hstop] at h
        cases h
      | ok found =>
        rw [runSteps, if_neg hstop] at h
        obtain ⟨lists, rfl⟩ := ih h
        exact ⟨found :: lists, rfl⟩

end Flush

/-! ## All batches -/

section Runs

variable {limit : ℕ}

theorem not_overrun_of_le {count : ℕ} (h : limit ≤ count) (batches : List (List (Except E (List α)))) :
    ¬ Overrun limit batches count := by
  induction batches generalizing count with
  | nil => exact id
  | cons batch batches ih =>
    rintro (⟨hlt, -⟩ | ⟨lists, -, hrest⟩)
    · omega
    · exact ih (by omega) hrest

variable (batches : List (List (Except E (List α))))

theorem runBatches_of_not_overrun (result : List α) (h : ¬ Overrun limit batches result.length) :
    runBatches (some limit) batches result = runSteps (some limit) batches.flatten result := by
  induction batches generalizing result with
  | nil => rfl
  | cons batch batches ih =>
    rw [Overrun, not_or] at h
    rw [runBatches, List.flatten_cons, runSteps_append, flush_of_not_spoils h.1]
    cases hbatch : runSteps (some limit) batch result with
    | error err => rfl
    | ok result' =>
      dsimp only
      by_cases hreached : reached (some limit) result'.length = true
      · rw [runBatches_of_reached hreached, runSteps_of_reached hreached]
      · obtain ⟨lists, rfl⟩ := exists_lists hbatch hreached
        refine ih result' fun hrest => h.2 ⟨lists, rfl, ?_⟩
        rwa [← runSteps_ok hbatch hreached]

theorem runBatches_of_overrun (result : List α) (h : Overrun limit batches result.length) :
    (∃ err, runBatches (some limit) batches result = .error err) ∧
      ∃ result', runSteps (some limit) batches.flatten result = .ok result' := by
  induction batches generalizing result with
  | nil => exact h.elim
  | cons batch batches ih =>
    rw [runBatches, List.flatten_cons, runSteps_append]
    by_cases hspoils : result.length < limit ∧ Spoils (limit - result.length) (limit - result.length) batch
    · obtain ⟨⟨err, herr⟩, result', hok, hreached⟩ := flush_of_spoils hspoils.1 hspoils.2
      rw [herr, hok]
      exact ⟨⟨err, rfl⟩, result', runSteps_of_reached hreached _⟩
    · rw [Overrun, or_iff_right hspoils] at h
      obtain ⟨lists, rfl, hrest⟩ := h
      rw [flush_of_not_spoils hspoils]
      have hlt : result.length + (lists.map List.length).sum < limit := by
        by_contra hle
        exact not_overrun_of_le (not_lt.1 hle) batches hrest
      obtain ⟨result', hok, hlen⟩ : ∃ result', runSteps (some limit)
          (lists.map (.ok : List α → Except E (List α))) result = .ok result' ∧
          result'.length = result.length + (lists.map List.length).sum := by
        clear hrest hspoils
        induction lists generalizing result with
        | nil => exact ⟨result, rfl, rfl⟩
        | cons found lists ihLists =>
          rw [List.map_cons, List.sum_cons] at hlt
          have hnot : ¬ reached (some limit) result.length = true := by
            rw [reached_iff, spend, Option.map_some, Option.some.injEq]
            omega
          have hfits : found.length ≤ limit - result.length := by omega
          have hall : takeRoom (spend (some limit) result.length) found = found :=
            List.take_of_length_le hfits
          rw [List.map_cons, runSteps, if_neg hnot, hall]
          obtain ⟨result', hok, hlen⟩ := ihLists (result ++ found) (by rw [List.length_append]; omega)
          refine ⟨result', hok, ?_⟩
          rw [hlen, List.length_append, List.map_cons, List.sum_cons]
          omega
      rw [hok]
      dsimp only
      exact ih result' (by rwa [hlen])

end Runs

/-! ## Making the batches -/

section Making

variable {β : Type*}

/-- Steps, with `none` where a batch has to end, in batches of at most `size`; `batch` is under way. -/
def batches (size : ℕ) : List (Option β) → List β → List (List β)
  | [], batch => [batch]
  | none :: steps, batch => batch :: batches size steps []
  | some step :: steps, batch =>
    if size ≤ (batch ++ [step]).length then (batch ++ [step]) :: batches size steps []
    else batches size steps (batch ++ [step])

theorem flatten_batches (size : ℕ) (steps : List (Option β)) (batch : List β) :
    (batches size steps batch).flatten = batch ++ steps.reduceOption := by
  induction steps generalizing batch with
  | nil =>
    rw [batches, List.flatten_singleton, List.reduceOption_nil, List.append_nil]
  | cons step steps ih =>
    cases step with
    | none =>
      rw [batches, List.flatten_cons, ih, List.reduceOption_cons_of_none, List.nil_append]
    | some step =>
      rw [batches, List.reduceOption_cons_of_some]
      split_ifs
      · rw [List.flatten_cons, ih, List.nil_append, List.append_assoc, List.singleton_append]
      · rw [ih, List.append_assoc, List.singleton_append]

end Making

end OpenViking.Batches
