import OpenViking.Common.System
import Mathlib.Data.List.Nodup
import Mathlib.Algebra.Ring.Nat

/-!
# The streaming batcher

A model of `StreamingBatcher` (`session/memory/utils/streaming_batcher.py`): submits, flushes by the
timer, by background tasks and by `close`, and the cancellation of the timer.

A step is what runs between two suspensions.  Nothing is awaited under `_buffer_lock`, so it never
makes anyone wait; `_flush_lock` is held by the flush that runs.  Results:

* `answers_iff`: at the end every item is answered exactly when no batch was cancelled;
* `reaches_answers`: every submit is answered when no call of `process_batch` is cancelled.
-/

namespace OpenViking.Memory

/-! ## Model -/

/-- `StreamingBatcherConfig`, with `item_size`; times in units of the clock. -/
structure BatcherConfig (P : Type*) where
  maxItemsPerBatch : ℕ
  maxWait : ℕ
  itemSize : P → ℤ
  maxItemsPerBatch_pos : 0 < maxItemsPerBatch
  maxWait_pos : 0 < maxWait

/-- `_PendingBatchItem`; `future` is the number of the future. -/
structure PendingBatchItem (P : Type*) where
  payload : P
  submittedAt : ℕ
  future : ℕ
  deriving DecidableEq, Repr

/-- The reasons of `flush`, each with the task that runs it. -/
inductive FlushReason where
  | time
  | count
  | close
  deriving DecidableEq, Repr

/-- How a call of `process_batch` ends: with a result, an exception, or `CancelledError`, which is no
`Exception`. -/
inductive BatchEnd (R E : Type*) where
  | result (r : R)
  | exception (e : E)
  | cancelled
  deriving DecidableEq, Repr

/-- What the futures of a batch are resolved with. -/
def BatchEnd.answer {R E : Type*} : BatchEnd R E → Option (Except E R)
  | .result r => some (.ok r)
  | .exception e => some (.error e)
  | .cancelled => none

/-- A batch that was passed to `process_batch`, and how the call ended. -/
structure Batch (P R E : Type*) where
  reason : FlushReason
  items : List (PendingBatchItem P)
  outcome : BatchEnd R E
  deriving DecidableEq, Repr

/-- The timer task: not created, asleep, waiting for `_flush_lock`, flushing, ended. -/
inductive TimerPhase where
  | none
  | sleeping
  | waiting
  | flushing
  | ended
  deriving DecidableEq, Repr

/-- `close`: not called, waiting for the timer task to end, waiting for `_flush_lock`, flushing,
returned. -/
inductive ClosePhase where
  | none
  | stopping
  | waiting
  | flushing
  | returned
  deriving DecidableEq, Repr

/-- A `StreamingBatcher` with its tasks: `waiting` counts the background flushes that have not got
`_flush_lock`, and `running` is the flush inside `process_batch`.  `submitted` and `finished` are the
history: the items accepted, and the batches that ended. -/
structure Batcher (P R E : Type*) where
  closed : Bool
  buffer : List (PendingBatchItem P)
  running : Option (FlushReason × List (PendingBatchItem P))
  timer : TimerPhase
  cancelRequested : Bool
  waiting : ℕ
  closing : ClosePhase
  lastResult : Option R
  futures : ℕ → Option (Except E R)
  submitted : List (PendingBatchItem P)
  finished : List (Batch P R E)

/-- What may happen next: `submit`, the timer wakes up, a flush gets `_flush_lock`, `process_batch`
ends, the timer task is cancelled where it waits, `close` is called, and it goes on when the timer
task has ended. -/
inductive BatcherAct (P R E : Type*) where
  | submit (payload : P) (now : ℕ)
  | tick (now : ℕ)
  | enter (reason : FlushReason)
  | finish (outcome : BatchEnd R E)
  | stopTimer
  | close
  | resume
  deriving DecidableEq, Repr

namespace Batcher

variable {P R E : Type*} (cfg : BatcherConfig P)

/-- A new batcher. -/
def init : Batcher P R E where
  closed := false
  buffer := []
  running := none
  timer := .none
  cancelRequested := false
  waiting := 0
  closing := .none
  lastResult := none
  futures _ := none
  submitted := []
  finished := []

/-- `_buffered_size_unlocked` (193-199). -/
def bufferedSize (buffer : List (PendingBatchItem P)) : ℕ :=
  (buffer.map fun item => (cfg.itemSize item.payload).toNat).sum

/-- `_should_flush_by_time_or_count` (170-178). -/
def shouldFlush (now : ℕ) (buffer : List (PendingBatchItem P)) : Bool :=
  match (buffer.map PendingBatchItem.submittedAt).min? with
  | none => false
  | some oldest =>
    decide (cfg.maxItemsPerBatch ≤ bufferedSize cfg buffer) || decide (cfg.maxWait ≤ now - oldest)

/-- `submit` (84-106) up to `await future`; `_ensure_timer_task` starts the timer, or a new one. -/
def submit (s : Batcher P R E) (payload : P) (now : ℕ) : Batcher P R E :=
  if s.closed then s
  else
    let item := ⟨payload, now, s.submitted.length⟩
    let buffer := s.buffer ++ [item]
    { s with
      buffer := buffer
      timer := if s.timer = .none ∨ s.timer = .ended then .sleeping else s.timer
      waiting :=
        if cfg.maxItemsPerBatch ≤ bufferedSize cfg buffer then s.waiting + 1 else s.waiting
      submitted := s.submitted ++ [item] }

/-- A flush is about to get `_flush_lock`. -/
def Waits (s : Batcher P R E) : FlushReason → Prop
  | .time => s.timer = .waiting ∧ s.cancelRequested = false
  | .count => 0 < s.waiting
  | .close => s.closing = .waiting

instance (s : Batcher P R E) (reason : FlushReason) : Decidable (s.Waits reason) := by
  cases reason <;> unfold Waits <;> infer_instance

/-- The task of a flush goes on to this phase of the flush. -/
def setFlushing (s : Batcher P R E) : FlushReason → Batcher P R E
  | .time => { s with timer := .flushing }
  | .count => { s with waiting := s.waiting - 1 }
  | .close => { s with closing := .flushing }

/-- The task of a flush that found the buffer empty. -/
def setFlushed (s : Batcher P R E) : FlushReason → Batcher P R E
  | .time => { s with timer := .sleeping }
  | .count => { s with waiting := s.waiting - 1 }
  | .close => { s with closing := .returned }

/-- `flush` (113-132) from `_flush_lock` to `process_batch`. -/
def enter (s : Batcher P R E) (reason : FlushReason) : Batcher P R E :=
  if s.buffer = [] then s.setFlushed reason
  else { s.setFlushing reason with buffer := [], running := some (reason, s.buffer) }

/-- The futures of the items are resolved, unless they are done. -/
def resolve (futures : ℕ → Option (Except E R)) (items : List (PendingBatchItem P))
    (answer : Except E R) : ℕ → Option (Except E R) :=
  fun i => if i ∈ items.map PendingBatchItem.future then (futures i).or (some answer) else futures i

/-- The task of a flush after `process_batch`: the timer loop goes on after an exception, and a
`CancelledError` ends it. -/
def setEnded (s : Batcher P R E) (outcome : BatchEnd R E) : FlushReason → Batcher P R E
  | .time =>
    match outcome with
    | .cancelled => { s with timer := .ended, cancelRequested := false }
    | _ => { s with timer := .sleeping, cancelRequested := false }
  | .count => s
  | .close => { s with closing := .returned }

/-- `flush` (133-148) after `process_batch`. -/
def finish (s : Batcher P R E) (reason : FlushReason) (items : List (PendingBatchItem P))
    (outcome : BatchEnd R E) : Batcher P R E :=
  { s.setEnded outcome reason with
    running := none
    lastResult :=
      match outcome with
      | .result r => some r
      | _ => s.lastResult
    futures :=
      match outcome.answer with
      | some answer => resolve s.futures items answer
      | none => s.futures
    finished := s.finished ++ [⟨reason, items, outcome⟩] }

/-- `close` (108-112) up to the first suspension: `_stop_timer_task` cancels the timer task. -/
def close (s : Batcher P R E) : Batcher P R E :=
  if s.closed then s
  else if s.timer = .none ∨ s.timer = .ended then { s with closed := true, closing := .waiting }
  else { s with closed := true, closing := .stopping, cancelRequested := true }

/-- One step; `none` when it is not possible. -/
def step (s : Batcher P R E) : BatcherAct P R E → Option (Batcher P R E)
  | .submit payload now => some (s.submit cfg payload now)
  | .tick now =>
    if s.timer = .sleeping ∧ s.cancelRequested = false then
      some (if shouldFlush cfg now s.buffer then { s with timer := .waiting } else s)
    else none
  | .enter reason => if s.running = none ∧ s.Waits reason then some (s.enter reason) else none
  | .finish outcome => s.running.map fun b => s.finish b.1 b.2 outcome
  | .stopTimer =>
    if s.cancelRequested = true ∧ (s.timer = .sleeping ∨ s.timer = .waiting) then
      some { s with timer := .ended, cancelRequested := false }
    else none
  | .close => some s.close
  | .resume =>
    if s.closing = .stopping ∧ s.timer = .ended then some { s with closing := .waiting } else none

/-- The batches passed to `process_batch`, in this order. -/
def passed (s : Batcher P R E) : List (List (PendingBatchItem P)) :=
  s.finished.map Batch.items ++ s.running.toList.map Prod.snd

/-- Every accepted item is passed to `process_batch` in one batch, in the order of the submits, or
still in the buffer; and when `close` has returned and no flush runs, its future holds the result or
the exception of its batch. -/
structure Answers (s : Batcher P R E) : Prop where
  numbered : s.submitted.map PendingBatchItem.future = List.range s.submitted.length
  in_order : s.passed.flatten ++ s.buffer = s.submitted
  resolved : s.closing = .returned → s.running = none → s.buffer = [] ∧
    ∀ item ∈ s.submitted, ∃ b ∈ s.finished, item ∈ b.items ∧
      ∃ answer, b.outcome.answer = some answer ∧ s.futures item.future = some answer

/-- No batch ended with `CancelledError`. -/
def Uncancelled (s : Batcher P R E) : Prop := ∀ b ∈ s.finished, b.outcome ≠ .cancelled

/-- `process_batch` does not end with `CancelledError`. -/
def NotCancelled (_ : Batcher P R E) (a : BatcherAct P R E) : Prop := a ≠ .finish .cancelled

instance [DecidableEq P] [DecidableEq R] [DecidableEq E] (s : Batcher P R E)
    (a : BatcherAct P R E) : Decidable (s.NotCancelled a) :=
  inferInstanceAs (Decidable (a ≠ .finish .cancelled))

/-! ## The invariant -/

/-- The batches and the buffer are the accepted items in order; a batch that ended with an answer has
resolved its futures, and no other future is; and once `close` flushes there is no buffer. -/
structure Inv (s : Batcher P R E) : Prop where
  numbered : s.submitted.map PendingBatchItem.future = List.range s.submitted.length
  in_order : s.passed.flatten ++ s.buffer = s.submitted
  answered : ∀ b ∈ s.finished, ∀ answer, b.outcome.answer = some answer →
    ∀ item ∈ b.items, s.futures item.future = some answer
  fresh : ∀ i, i ∉ (s.finished.flatMap Batch.items).map PendingBatchItem.future →
    s.futures i = none
  not_nil : ∀ items ∈ s.passed, items ≠ []
  closed : s.closing ≠ .none → s.closed = true
  flushing : ∀ items, s.running = some (.close, items) → s.closing = .flushing
  drained : s.closing = .flushing ∨ s.closing = .returned → s.buffer = []

variable {cfg} {s t : Batcher P R E}

theorem inv_init : Inv (init : Batcher P R E) where
  numbered := rfl
  in_order := rfl
  answered := nofun
  fresh _ _ := rfl
  not_nil := nofun
  closed h := absurd rfl h
  flushing := nofun
  drained _ := rfl

/-- The tasks are of no concern to the items. -/
theorem Inv.of_tasks (h : Inv s) (hsub : t.submitted = s.submitted) (hfin : t.finished = s.finished)
    (hrun : t.running = s.running) (hbuf : t.buffer = s.buffer) (hfut : t.futures = s.futures)
    (hclosed : t.closing ≠ .none → t.closed = true) (hflush : s.closing = .flushing → t.closing = .flushing)
    (hdrained : t.closing = .flushing ∨ t.closing = .returned → t.buffer = []) : Inv t where
  numbered := by rw [hsub, h.numbered]
  in_order := by
    rw [passed, hfin, hrun, hbuf, hsub]
    exact h.in_order
  answered := by
    rw [hfin, hfut]
    exact h.answered
  fresh := by
    rw [hfin, hfut]
    exact h.fresh
  not_nil := by
    rw [passed, hfin, hrun]
    exact h.not_nil
  closed := hclosed
  flushing items hitems := hflush (h.flushing items (hrun ▸ hitems))
  drained := hdrained

theorem inv_submit (h : Inv s) (payload : P) (now : ℕ) : Inv (s.submit cfg payload now) := by
  by_cases hclosed : s.closed = true
  · rw [submit, if_pos hclosed]
    exact h
  · have hnone : s.closing = .none := by
      by_contra hne
      exact hclosed (h.closed hne)
    rw [submit, if_neg hclosed]
    refine ⟨?_, ?_, h.answered, h.fresh, h.not_nil, h.closed, h.flushing, fun hc => ?_⟩
    · show (s.submitted ++ _).map _ = List.range (s.submitted ++ _).length
      rw [List.map_append, h.numbered, List.length_append, List.length_singleton, List.range_succ]
      rfl
    · show s.passed.flatten ++ (s.buffer ++ _) = s.submitted ++ _
      rw [← List.append_assoc, h.in_order]
    · change s.closing = .flushing ∨ s.closing = .returned at hc
      rw [hnone] at hc
      rcases hc with hc | hc <;> cases hc

variable {reason : FlushReason}

theorem inv_enter (h : Inv s) (hrun : s.running = none) (hwaits : s.Waits reason) : Inv (s.enter reason) := by
  have hclosed : reason = .close → s.closed = true := by
    rintro rfl
    refine h.closed fun hnone => ?_
    rw [show s.closing = .waiting from hwaits] at hnone
    cases hnone
  unfold enter
  split_ifs with hnil
  · cases reason with
    | time | count => exact h.of_tasks rfl rfl rfl rfl rfl h.closed id h.drained
    | close =>
      refine h.of_tasks rfl rfl rfl rfl rfl (fun _ => hclosed rfl) (fun hflush => ?_) fun _ => hnil
      rw [show s.closing = .waiting from hwaits] at hflush
      cases hflush
  · have hpassed : s.passed = s.finished.map Batch.items := by
      rw [passed, hrun]
      exact List.append_nil _
    have horder := h.in_order
    have hnot := h.not_nil
    rw [hpassed] at horder hnot
    refine ⟨?_, ?_, ?_, ?_, ?_, ?_, fun items hitems => ?_, fun _ => rfl⟩
    · cases reason <;> exact h.numbered
    · suffices ((s.finished.map Batch.items) ++ [s.buffer]).flatten ++ [] = s.submitted by
        cases reason <;> exact this
      rw [List.flatten_append, List.append_nil, List.flatten_singleton, horder]
    · cases reason <;> exact h.answered
    · cases reason <;> exact h.fresh
    · suffices ∀ items ∈ (s.finished.map Batch.items) ++ [s.buffer], items ≠ [] by
        cases reason <;> exact this
      intro items hmem
      rcases List.mem_append.1 hmem with hmem | hmem
      · exact hnot items hmem
      · rw [List.mem_singleton.1 hmem]
        exact hnil
    · cases reason with
      | time | count => exact h.closed
      | close => exact fun _ => hclosed rfl
    · obtain rfl := (Prod.mk.inj (Option.some_inj.1 hitems)).1
      rfl

variable {items : List (PendingBatchItem P)} {item : PendingBatchItem P}

/-- The future of an item that is being processed is not that of an item before. -/
theorem Inv.not_mem_finished (h : Inv s) (hrun : s.running = some (reason, items)) (hitem : item ∈ items) :
    item.future ∉ (s.finished.flatMap Batch.items).map PendingBatchItem.future := by
  have hnodup : (s.submitted.map PendingBatchItem.future).Nodup := by
    rw [h.numbered]
    exact List.nodup_range
  have horder := h.in_order
  rw [passed, hrun] at horder
  rw [← horder, Option.toList_some, List.map_singleton, List.flatten_append, List.flatten_singleton,
    List.append_assoc, List.map_append] at hnodup
  intro hmem
  refine (List.nodup_append.1 hnodup).2.2 item.future ?_ item.future ?_ rfl
  · rwa [← List.flatMap_def]
  · exact List.mem_map_of_mem (List.mem_append_left _ hitem)

theorem inv_finish (h : Inv s)
    (hrun : s.running = some (reason, items)) (outcome : BatchEnd R E) : Inv (s.finish reason items outcome) := by
  have hclose : reason = .close → s.closing = .flushing := by
    rintro rfl
    exact h.flushing items hrun
  have hpassed : (s.finish reason items outcome).passed = s.passed := by
    show (s.finished ++ [_]).map Batch.items ++ [] = s.finished.map Batch.items ++ _
    rw [hrun, List.map_append, List.append_nil]
    rfl
  have hsubmitted : (s.finish reason items outcome).submitted = s.submitted := by
    cases reason <;> cases outcome <;> rfl
  have hbuffer : (s.finish reason items outcome).buffer = s.buffer := by
    cases reason <;> cases outcome <;> rfl
  have hclosed : (s.finish reason items outcome).closed = s.closed := by
    cases reason <;> cases outcome <;> rfl
  have hclosing : (s.finish reason items outcome).closing =
      if reason = .close then .returned else s.closing := by
    cases reason <;> cases outcome <;> rfl
  refine ⟨?_, ?_, ?_, ?_, ?_, ?_, nofun, ?_⟩
  · rw [hsubmitted, h.numbered]
  · rw [hpassed, hbuffer, hsubmitted, h.in_order]
  · intro b hb answer hanswer item hitem
    rcases List.mem_append.1 hb with hb | hb
    · have hold := h.answered b hb answer hanswer item hitem
      show (match outcome.answer with
        | some answer => resolve s.futures items answer
        | none => s.futures) item.future = some answer
      cases outcome.answer with
      | none => exact hold
      | some answer' =>
        show (if _ then (s.futures item.future).or _ else _) = _
        rw [hold, Option.some_or, ite_self]
    · obtain rfl := List.mem_singleton.1 hb
      have hnone := h.fresh _ (h.not_mem_finished hrun hitem)
      show (match outcome.answer with
        | some answer => resolve s.futures items answer
        | none => s.futures) item.future = some answer
      rw [show outcome.answer = some answer from hanswer]
      show (if _ then (s.futures item.future).or _ else _) = _
      rw [if_pos (List.mem_map_of_mem hitem), hnone, Option.none_or]
  · intro i hi
    change i ∉ ((s.finished ++ [_]).flatMap Batch.items).map PendingBatchItem.future at hi
    rw [List.flatMap_append, List.map_append, List.mem_append, not_or] at hi
    have hitems : i ∉ items.map PendingBatchItem.future := by simpa using hi.2
    show (match outcome.answer with
      | some answer => resolve s.futures items answer
      | none => s.futures) i = none
    cases outcome.answer with
    | none => exact h.fresh i hi.1
    | some answer =>
      show (if _ then _ else s.futures i) = none
      rw [if_neg hitems, h.fresh i hi.1]
  · rw [hpassed]
    exact h.not_nil
  · intro hne
    rw [hclosed]
    by_cases hreason : reason = .close
    · refine h.closed ?_
      rw [hclose hreason]
      nofun
    · rw [hclosing, if_neg hreason] at hne
      exact h.closed hne
  · intro hc
    rw [hbuffer]
    by_cases hreason : reason = .close
    · exact h.drained (.inl (hclose hreason))
    · rw [hclosing, if_neg hreason] at hc
      exact h.drained hc

theorem inv_close (h : Inv s) : Inv s.close := by
  by_cases hclosed : s.closed = true
  · rw [close, if_pos hclosed]
    exact h
  · have hnone : s.closing = .none := by
      by_contra hne
      exact hclosed (h.closed hne)
    have hflush : s.closing ≠ .flushing := by
      rw [hnone]
      nofun
    rw [close, if_neg hclosed]
    split_ifs
    · refine h.of_tasks rfl rfl rfl rfl rfl (fun _ => rfl) (fun hf => absurd hf hflush) ?_
      rintro (hc | hc) <;> cases hc
    · refine h.of_tasks rfl rfl rfl rfl rfl (fun _ => rfl) (fun hf => absurd hf hflush) ?_
      rintro (hc | hc) <;> cases hc

theorem inv_step {a : BatcherAct P R E} (h : Inv s) (hs : step cfg s a = some t) : Inv t := by
  cases a with
  | submit payload now =>
    obtain rfl := Option.some_inj.1 hs
    exact inv_submit h payload now
  | tick now =>
    obtain ⟨-, hs⟩ := Option.ite_none_right_eq_some.1 hs
    obtain rfl := Option.some_inj.1 hs
    split_ifs
    · exact h.of_tasks rfl rfl rfl rfl rfl h.closed id h.drained
    · exact h
  | enter reason =>
    obtain ⟨⟨hrun, hwaits⟩, hs⟩ := Option.ite_none_right_eq_some.1 hs
    obtain rfl := Option.some_inj.1 hs
    exact inv_enter h hrun hwaits
  | finish outcome =>
    obtain ⟨⟨reason, items⟩, hrun, rfl⟩ := Option.map_eq_some_iff.1 hs
    exact inv_finish h hrun outcome
  | stopTimer =>
    obtain ⟨-, hs⟩ := Option.ite_none_right_eq_some.1 hs
    obtain rfl := Option.some_inj.1 hs
    exact h.of_tasks rfl rfl rfl rfl rfl h.closed id h.drained
  | close =>
    obtain rfl := Option.some_inj.1 hs
    exact inv_close h
  | resume =>
    obtain ⟨⟨hstop, -⟩, hs⟩ := Option.ite_none_right_eq_some.1 hs
    obtain rfl := Option.some_inj.1 hs
    refine h.of_tasks rfl rfl rfl rfl rfl (fun _ => h.closed ?_) (fun hf => ?_) ?_
    · rw [hstop]
      nofun
    · rw [hstop] at hf
      cases hf
    · rintro (hc | hc) <;> cases hc

/-! ## Answers -/

/-- Two batches with an item in common are one. -/
theorem Inv.eq_of_mem_items (h : Inv s) {b c : Batch P R E} (hb : b ∈ s.finished)
    (hc : c ∈ s.finished) (hib : item ∈ b.items) (hic : item ∈ c.items) : b = c := by
  have hnodup : (s.finished.flatMap Batch.items).Nodup := by
    have hall : (s.submitted.map PendingBatchItem.future).Nodup := by
      rw [h.numbered]
      exact List.nodup_range
    have hsub := hall.of_map
    rw [← h.in_order, passed, List.flatten_append, ← List.flatMap_def] at hsub
    exact hsub.of_append_left.of_append_left
  rw [List.nodup_flatMap] at hnodup
  by_contra hne
  have hsymm : Std.Symm (Function.onFun List.Disjoint (Batch.items (P := P) (R := R) (E := E))) :=
    ⟨fun _ _ hd => hd.symm⟩
  exact hnodup.2.forall hb hc hne hib hic

/-- **The items are answered** exactly when, at the end, no call of `process_batch` was cancelled. -/
theorem answers_iff (h : Inv s) :
    Answers s ↔ (s.closing = .returned → s.running = none → s.Uncancelled) := by
  constructor
  · intro hanswers hreturned hrun b hb hcancelled
    obtain ⟨item, hitem⟩ := List.exists_mem_of_ne_nil _
      (h.not_nil b.items (List.mem_append_left _ (List.mem_map_of_mem hb)))
    have hmem : item ∈ s.submitted := by
      rw [← h.in_order, passed, List.flatten_append]
      exact List.mem_append_left _ (List.mem_append_left _
        (List.mem_flatten.2 ⟨_, List.mem_map_of_mem hb, hitem⟩))
    obtain ⟨c, hc, hic, answer, hanswer, -⟩ := (hanswers.resolved hreturned hrun).2 item hmem
    rw [h.eq_of_mem_items hc hb hic hitem, hcancelled] at hanswer
    cases hanswer
  · refine fun hends => ⟨h.numbered, h.in_order, fun hreturned hrun => ?_⟩
    have hbuffer := h.drained (.inr hreturned)
    refine ⟨hbuffer, fun item hitem => ?_⟩
    rw [← h.in_order, hbuffer, passed, hrun, Option.toList_none, List.map_nil, List.append_nil,
      List.append_nil] at hitem
    obtain ⟨items, hitems, hitem⟩ := List.mem_flatten.1 hitem
    obtain ⟨b, hb, rfl⟩ := List.mem_map.1 hitems
    obtain ⟨answer, hanswer⟩ : ∃ answer, b.outcome.answer = some answer := by
      cases hout : b.outcome with
      | result r => exact ⟨_, rfl⟩
      | exception e => exact ⟨_, rfl⟩
      | cancelled => exact absurd hout (hends hreturned hrun b hb)
    exact ⟨b, hb, hitem, answer, hanswer, h.answered b hb answer hanswer item hitem⟩

theorem inv_of_reaches {C : Batcher P R E → BatcherAct P R E → Prop}
    (h : Reaches (step cfg) C init s) : Inv s :=
  h.invariant inv_init fun _ _ _ hinv _ hs => inv_step hinv hs

/-- A batch that ended is one from before, or the one that ends now. -/
theorem mem_finished_step {a : BatcherAct P R E} (hs : step cfg s a = some t) {b : Batch P R E}
    (hb : b ∈ t.finished) : b ∈ s.finished ∨ a = .finish b.outcome := by
  cases a with
  | submit payload now =>
    obtain rfl := Option.some_inj.1 hs
    unfold submit at hb
    split at hb <;> exact .inl hb
  | tick now =>
    obtain ⟨-, hs⟩ := Option.ite_none_right_eq_some.1 hs
    obtain rfl := Option.some_inj.1 hs
    split at hb <;> exact .inl hb
  | enter reason =>
    obtain ⟨-, hs⟩ := Option.ite_none_right_eq_some.1 hs
    obtain rfl := Option.some_inj.1 hs
    unfold enter at hb
    split at hb <;> cases reason <;> exact .inl hb
  | finish outcome =>
    obtain ⟨⟨reason, items⟩, -, rfl⟩ := Option.map_eq_some_iff.1 hs
    rcases List.mem_append.1 hb with hb | hb
    · exact .inl hb
    · obtain rfl := List.mem_singleton.1 hb
      exact .inr rfl
  | stopTimer =>
    obtain ⟨-, hs⟩ := Option.ite_none_right_eq_some.1 hs
    obtain rfl := Option.some_inj.1 hs
    exact .inl hb
  | close =>
    obtain rfl := Option.some_inj.1 hs
    unfold close at hb
    split at hb
    · exact .inl hb
    · split at hb <;> exact .inl hb
  | resume =>
    obtain ⟨-, hs⟩ := Option.ite_none_right_eq_some.1 hs
    obtain rfl := Option.some_inj.1 hs
    exact .inl hb

/-- **Every submit is answered** in every run in which no call of `process_batch` is cancelled. -/
theorem reaches_answers (h : Reaches (step cfg) NotCancelled (init : Batcher P R E) s) : Answers s := by
  have hends : s.Uncancelled := by
    refine h.invariant (fun b hb => absurd hb List.not_mem_nil) fun s a t hold ha hs b hb hcancelled => ?_
    rcases mem_finished_step hs hb with hb | rfl
    · exact hold b hb hcancelled
    · exact ha (congrArg BatcherAct.finish hcancelled)
  exact (answers_iff (inv_of_reaches h)).2 fun _ _ => hends

/-- The default configuration. -/
def defaultConfig : BatcherConfig String := ⟨8, 10, fun _ => 1, by decide, by decide⟩

/-- Two submits: the timer flushes one, and `close` the other. -/
def answeredActs : List (BatcherAct String ℕ String) :=
  [.submit "a" 0, .tick 10, .enter .time, .submit "b" 12, .finish (.result 7), .close, .stopTimer,
    .resume, .enter .close, .finish (.exception "boom")]

theorem reaches_answers_answeredActs :
    ∃ s, runActs (step defaultConfig) init answeredActs = some s ∧ s.closing = .returned ∧ Answers s := by
  have hclosing : (runActs (step defaultConfig) init answeredActs).map (·.closing) = some .returned := by
    decide
  obtain ⟨s, hs, hreturned⟩ := Option.map_eq_some_iff.1 hclosing
  have hmeet : ActsMeet (step defaultConfig) NotCancelled init answeredActs := by
    decide
  exact ⟨s, hs, hreturned, reaches_answers (.of_runActs hmeet hs)⟩

/-- A submit whose batch the timer is processing when `close` is called. -/
def lostActs : List (BatcherAct String ℕ String) :=
  [.submit "a" 0, .tick 10, .enter .time, .close, .finish .cancelled, .resume, .enter .close]

/-- `close` has returned, nothing runs, and the future of the item is not resolved. -/
theorem not_answers_lostActs :
    ∃ s, runActs (step defaultConfig) init lostActs = some s ∧ s.closing = .returned ∧
      s.running = none ∧ s.submitted.map PendingBatchItem.payload = ["a"] ∧ s.futures 0 = none ∧
      ¬ Answers s := by
  refine ⟨_, rfl, rfl, rfl, rfl, rfl, fun h => ?_⟩
  obtain ⟨b, -, -, answer, -, hfuture⟩ := (h.resolved rfl rfl).2 _ List.mem_cons_self
  cases hfuture

end Batcher

end OpenViking.Memory
