import OpenViking.Common.System
import Mathlib.Data.List.Count

/-!
# Workers of a named queue

The status counters of `NamedQueue` (`storage/queuefs/named_queue.py`) and the two worker loops of
`QueueManager` (`storage/queuefs/queue_manager.py`) that drive them: one message after the other, or
a task for each message.  A handler reports on a message at most once, then it returns or raises.

* `accounts_step`: what each step does to the count of messages in progress;
* `inProgress_exact_iff`: the runs in which that count is right at every moment.
-/

namespace OpenViking.Queue

/-! ## Counters -/

/-- `QueueError` of the status: an error record. -/
structure ErrorRecord (D : Type*) where
  message : String
  data : Option D
  deriving DecidableEq, Repr

/-- The status counters of a `NamedQueue`. -/
structure Counters (D : Type*) where
  inProgress : ℤ
  processed : ℕ
  requeueCount : ℕ
  errorCount : ℕ
  errors : List (ErrorRecord D)
  deriving DecidableEq, Repr

namespace Counters

variable {D : Type*}

/-- `MAX_ERRORS`. -/
def maxErrors : ℕ := 100

def zero : Counters D := ⟨0, 0, 0, 0, []⟩

/-- `_on_dequeue_start` (137-140). -/
def onDequeueStart (c : Counters D) : Counters D := { c with inProgress := c.inProgress + 1 }

/-- `_on_process_success` (142-146). -/
def onProcessSuccess (c : Counters D) : Counters D :=
  { c with inProgress := c.inProgress - 1, processed := c.processed + 1 }

/-- `_on_process_requeue` (148-151). -/
def onProcessRequeue (c : Counters D) : Counters D :=
  { c with requeueCount := c.requeueCount + 1 }

/-- `_on_process_error` (153-166): the last errors are kept. -/
def onProcessError (c : Counters D) (errorMsg : String) (data : Option D) : Counters D :=
  let errors := c.errors ++ [⟨errorMsg, data⟩]
  { c with
    inProgress := c.inProgress - 1
    errorCount := c.errorCount + 1
    errors := if errors.length > maxErrors then errors.drop (errors.length - maxErrors) else errors }

end Counters

/-- What a handler reports on a message: `report_success`, `report_error`. -/
inductive Report (D : Type*) where
  | success
  | error (errorMsg : String) (data : Option D)
  deriving DecidableEq, Repr

def Counters.report {D : Type*} (c : Counters D) : Report D → Counters D
  | .success => c.onProcessSuccess
  | .error errorMsg data => c.onProcessError errorMsg data

/-! ## Workers -/

/-- How far a message has come that the worker was handed: its task waits for the semaphore, the
handler runs, the handler has returned and the acknowledgement is under way, all is over. -/
inductive Phase where
  | waiting
  | running
  | acking
  | ended
  deriving DecidableEq, Repr

/-- A message that the worker was handed. -/
structure Handling (D : Type*) where
  data : D
  phase : Phase
  reported : Bool
  deriving DecidableEq, Repr

/-- A queue and its worker.  `reading` is the answer of the queue file that is on its way to the
worker; a message in it has left the queue. -/
structure Workers (D : Type*) where
  pending : List D
  counters : Counters D
  reading : Option (Option D)
  tasks : List (Handling D)
  stopped : Bool
  deriving DecidableEq, Repr

inductive WorkerAct (D : Type*) where
  | enqueue (data : D)
  | startRead (lost : Bool)
  | handed
  | acquire (i : ℕ)
  | report (i : ℕ) (r : Report D)
  | reportRequeue (i : ℕ)
  | returned (i : ℕ)
  | acked (i : ℕ)
  | raised (i : ℕ) (error : String)
  | prune
  | stop
  | cancelled (i : ℕ)
  deriving DecidableEq, Repr

namespace Workers

variable {D : Type*}

def start : Workers D := ⟨[], .zero, none, [], false⟩

/-- `max_concurrent > 1`: `_worker_async_concurrent` runs, otherwise the loop that dequeues. -/
def concurrent (maxConcurrent : ℕ) : Bool := decide (1 < maxConcurrent)

/-- How many messages the worker takes before it waits for one to end. -/
def capacity (maxConcurrent : ℕ) : ℕ := if concurrent maxConcurrent then maxConcurrent else 1

/-- The tasks that hold the semaphore. -/
def holding (w : Workers D) : ℕ :=
  w.tasks.countP fun h => h.phase = .running ∨ h.phase = .acking

/-- The task with a number, moved on. -/
def moved (w : Workers D) (i : ℕ) (f : Handling D → Option (Handling D × Counters D)) :
    Option (Workers D) := do
  let h ← w.tasks[i]?
  let (h', counters) ← f h
  some { w with tasks := w.tasks.set i h', counters }

/-- One step of `_queue_worker_loop` (176-206) or `_worker_async_concurrent` (208-253), of a handler,
or of a caller that enqueues; `none` when it cannot be taken. -/
def step (maxConcurrent : ℕ) (w : Workers D) : WorkerAct D → Option (Workers D)
  | .enqueue data => some { w with pending := w.pending ++ [data] }
  -- the backend gives the oldest message out; an answer that cannot be read is no message
  | .startRead lost =>
    if w.reading = none ∧ w.stopped = false ∧ w.tasks.length < capacity maxConcurrent then
      some { w with
        pending := w.pending.tail
        reading := some (if lost then none else w.pending.head?) }
    else none
  -- `_on_dequeue_start`, and the task or the call of the handler
  | .handed => do
    let answer ← w.reading
    match answer with
    | none => some { w with reading := none }
    | some data =>
      let phase := if concurrent maxConcurrent then Phase.waiting else .running
      some { w with
        reading := none
        counters := w.counters.onDequeueStart
        tasks := w.tasks ++ [⟨data, phase, false⟩] }
  | .acquire i =>
    if w.holding < maxConcurrent then
      w.moved i fun h =>
        if h.phase = .waiting then some ({ h with phase := .running }, w.counters) else none
    else none
  | .report i r =>
    w.moved i fun h =>
      if h.phase = .running ∧ h.reported = false then
        some ({ h with reported := true }, w.counters.report r)
      else none
  | .reportRequeue i =>
    w.moved i fun h =>
      if h.phase = .running then some (h, w.counters.onProcessRequeue) else none
  | .returned i =>
    w.moved i fun h =>
      if h.phase = .running then some ({ h with phase := .acking }, w.counters) else none
  | .acked i =>
    w.moved i fun h =>
      if h.phase = .acking then some ({ h with phase := .ended }, w.counters) else none
  -- `process_one` reports the error, `dequeue` only logs it
  | .raised i error =>
    w.moved i fun h =>
      if h.phase = .running then
        some ({ h with phase := .ended },
          if concurrent maxConcurrent then w.counters.onProcessError error (some h.data)
          else w.counters)
      else none
  | .prune => some { w with tasks := w.tasks.filter fun h => h.phase ≠ .ended }
  | .stop => some { w with stopped := true }
  -- the drain on shutdown cancels the tasks that are left
  | .cancelled i =>
    if w.stopped ∧ concurrent maxConcurrent then
      w.moved i fun h =>
        if h.phase ≠ .ended then some ({ h with phase := .ended }, w.counters) else none
    else none

/-! ## Messages in progress -/

/-- The handling of a message is not over: no report on it yet, and its handler has not ended. -/
def unfinished (h : Handling D) : Bool := !h.reported && decide (h.phase ≠ .ended)

/-- How many of the messages that the worker was handed are not finished. -/
def beingHandled (w : Workers D) : ℕ := w.tasks.countP unfinished

/-- The worker waits for messages: no answer of the queue on its way, every task ended. -/
def Idle (w : Workers D) : Prop := w.reading = none ∧ ∀ h ∈ w.tasks, h.phase = .ended

/-- The count of messages in progress is right: that of the messages not finished, so never
negative, and 0 when the worker is idle. -/
structure InProgressExact (w : Workers D) : Prop where
  eq_beingHandled : w.counters.inProgress = w.beingHandled
  nonneg : 0 ≤ w.counters.inProgress
  idle : w.Idle → w.counters.inProgress = 0

theorem beingHandled_eq_zero_of_idle {w : Workers D} (h : w.Idle) : w.beingHandled = 0 := by
  rw [beingHandled, List.countP_eq_zero]
  intro t ht
  simp [unfinished, h.2 t ht]

theorem inProgressExact_iff {w : Workers D} :
    w.InProgressExact ↔ w.counters.inProgress = w.beingHandled := by
  refine ⟨fun h => h.eq_beingHandled, fun h => ⟨h, by omega, fun hidle => ?_⟩⟩
  rw [h, beingHandled_eq_zero_of_idle hidle]
  rfl

instance (w : Workers D) : Decidable w.InProgressExact := decidable_of_iff _ inProgressExact_iff.symm

/-- A report was made on the message of a task. -/
def reportedAt (w : Workers D) (i : ℕ) : Bool := (w.tasks[i]?).elim false Handling.reported

/-- A step leaves the count right: a handler ends with its message reported on, except that the tasks
of the concurrent worker count a message off by themselves when the handler raises, and only then. -/
def Settles (maxConcurrent : ℕ) (w : Workers D) : WorkerAct D → Prop
  | .acked i => w.reportedAt i = true
  | .raised i _ => w.reportedAt i = !concurrent maxConcurrent
  | .cancelled i => w.reportedAt i = true
  | _ => True

instance (maxConcurrent : ℕ) (w : Workers D) (a : WorkerAct D) :
    Decidable (w.Settles maxConcurrent a) := by
  cases a <;> unfold Settles <;> infer_instance

/-! ## Steps -/

/-- What the count of messages in progress is off by. -/
def drift (w : Workers D) : ℤ := w.counters.inProgress - w.beingHandled

theorem inProgressExact_iff_drift {w : Workers D} : w.InProgressExact ↔ w.drift = 0 := by
  rw [inProgressExact_iff, drift, sub_eq_zero]

variable {w u : Workers D} {i : ℕ}

theorem moved_eq_some {P : Handling D → Prop} [DecidablePred P] {f : Handling D → Handling D × Counters D}
    (h : w.moved i (fun t => if P t then some (f t) else none) = some u) :
    ∃ t, w.tasks[i]? = some t ∧ P t ∧
      u = { w with tasks := w.tasks.set i (f t).1, counters := (f t).2 } := by
  obtain ⟨t, ht, hrest⟩ := Option.bind_eq_some_iff.1 h
  obtain ⟨_, hf, hu⟩ := Option.bind_eq_some_iff.1 hrest
  obtain ⟨hP, hsome⟩ := Option.ite_none_right_eq_some.1 hf
  obtain rfl := Option.some_inj.1 hsome
  exact ⟨t, ht, hP, (Option.some_inj.1 hu).symm⟩

variable {t : Handling D}

/-- The messages not finished after one task has moved on. -/
theorem countP_unfinished_set {l : List (Handling D)} (t' : Handling D) (h : l[i]? = some t) :
    (l.set i t').countP unfinished + (unfinished t).toNat =
      l.countP unfinished + (unfinished t').toNat := by
  obtain ⟨hi, rfl⟩ := List.getElem?_eq_some_iff.1 h
  rw [List.countP_set hi]
  cases ht : unfinished l[i] with
  | false => cases unfinished t' <;> simp
  | true =>
    have hpos : 0 < l.countP unfinished := List.countP_pos_iff.2 ⟨_, List.getElem_mem hi, ht⟩
    cases unfinished t' <;> simp only [Bool.toNat_true, Bool.toNat_false, if_true, Bool.false_eq_true,
      if_false] <;> omega

theorem drift_moved (w : Workers D) (t' : Handling D) (c : Counters D) (h : w.tasks[i]? = some t) :
    drift { w with tasks := w.tasks.set i t', counters := c } =
      w.drift + (c.inProgress - w.counters.inProgress) + (unfinished t).toNat -
        (unfinished t').toNat := by
  have hset := countP_unfinished_set t' h
  unfold drift beingHandled
  dsimp only
  omega

theorem inProgress_report (c : Counters D) (r : Report D) : (c.report r).inProgress = c.inProgress - 1 := by
  cases r <;> rfl

theorem reportedAt_eq {w : Workers D} (h : w.tasks[i]? = some t) : w.reportedAt i = t.reported := by
  rw [reportedAt, h]
  rfl

/-- **What a step does to the count.**  It goes wrong exactly when a handler ends without its message
counted off once. -/
theorem drift_step {maxConcurrent : ℕ} {a : WorkerAct D}
    (h : step maxConcurrent w a = some u) : u.drift = w.drift ↔ w.Settles maxConcurrent a := by
  cases a with
  | enqueue data =>
    obtain rfl := Option.some_inj.1 h
    exact iff_of_true rfl trivial
  | startRead lost =>
    obtain ⟨-, heq⟩ := Option.ite_none_right_eq_some.1 h
    obtain rfl := Option.some_inj.1 heq
    exact iff_of_true rfl trivial
  | handed =>
    obtain ⟨answer, -, hrest⟩ := Option.bind_eq_some_iff.1 h
    cases answer with
    | none =>
      obtain rfl := Option.some_inj.1 hrest
      exact iff_of_true rfl trivial
    | some data =>
      obtain rfl := Option.some_inj.1 hrest
      refine iff_of_true ?_ trivial
      have hnew : ∀ p : Phase, p ≠ .ended → unfinished (⟨data, p, false⟩ : Handling D) = true :=
        fun p hp => by simp [unfinished, hp]
      have hphase : (if concurrent maxConcurrent then Phase.waiting else .running) ≠ .ended := by
        split <;> simp
      simp only [drift, beingHandled, List.countP_append, List.countP_singleton,
        hnew _ hphase, if_true, Counters.onDequeueStart]
      omega
  | acquire i =>
    obtain ⟨-, hmoved⟩ := Option.ite_none_right_eq_some.1 h
    obtain ⟨t, ht, hphase, rfl⟩ := moved_eq_some hmoved
    refine iff_of_true ?_ trivial
    rw [drift_moved w _ _ ht]
    simp [unfinished, hphase]
  | report i r =>
    obtain ⟨t, ht, ⟨hphase, hrep⟩, rfl⟩ := moved_eq_some h
    refine iff_of_true ?_ trivial
    rw [drift_moved w _ _ ht, inProgress_report]
    simp [unfinished, hphase, hrep]
  | reportRequeue i =>
    obtain ⟨t, ht, -, rfl⟩ := moved_eq_some h
    refine iff_of_true ?_ trivial
    rw [drift_moved w _ _ ht]
    simp [Counters.onProcessRequeue]
  | returned i =>
    obtain ⟨t, ht, hphase, rfl⟩ := moved_eq_some h
    refine iff_of_true ?_ trivial
    rw [drift_moved w _ _ ht]
    simp [unfinished, hphase]
  | acked i =>
    obtain ⟨t, ht, hphase, rfl⟩ := moved_eq_some h
    rw [drift_moved w _ _ ht, Settles, reportedAt_eq ht]
    cases hrep : t.reported <;> simp [unfinished, hphase, hrep]
  | raised i error =>
    obtain ⟨t, ht, hphase, rfl⟩ := moved_eq_some h
    rw [drift_moved w _ _ ht, Settles, reportedAt_eq ht]
    cases hrep : t.reported <;> cases hmode : concurrent maxConcurrent <;>
      simp [unfinished, hphase, hrep, Counters.onProcessError]
  | prune =>
    obtain rfl := Option.some_inj.1 h
    refine iff_of_true ?_ trivial
    have hkept : (w.tasks.filter fun t => t.phase ≠ .ended).countP unfinished =
        w.tasks.countP unfinished := by
      rw [List.countP_filter]
      refine List.countP_congr fun t _ => ?_
      simp +contextual [unfinished]
    unfold drift beingHandled
    rw [hkept]
  | stop =>
    obtain rfl := Option.some_inj.1 h
    exact iff_of_true rfl trivial
  | cancelled i =>
    obtain ⟨-, hmoved⟩ := Option.ite_none_right_eq_some.1 h
    obtain ⟨t, ht, hphase, rfl⟩ := moved_eq_some hmoved
    rw [drift_moved w _ _ ht, Settles, reportedAt_eq ht]
    cases hrep : t.reported <;> simp [unfinished, hphase, hrep]

/-- A count that is right stays right in the steps that settle, and in no others. -/
theorem accounts_step {maxConcurrent : ℕ} {a : WorkerAct D}
    (hw : w.InProgressExact) (h : step maxConcurrent w a = some u) :
    u.InProgressExact ↔ w.Settles maxConcurrent a := by
  rw [← drift_step h, inProgressExact_iff_drift, inProgressExact_iff_drift.1 hw]

/-! ## Runs -/

/-- **When the count of messages in progress is right at every moment of a run.**  In each handler
that ends, its message was counted off once: reported on before a return, and before it raises in the
worker that takes one message after the other; not reported on before it raises in a task. -/
theorem inProgress_exact_iff (maxConcurrent : ℕ) (acts : List (WorkerAct D)) {w : Workers D}
    (hrun : runActs (step maxConcurrent) start acts = some w) :
    Always (step maxConcurrent) InProgressExact start acts ↔
      ActsMeet (step maxConcurrent) (Settles maxConcurrent) start acts :=
  always_iff_actsMeet (fun _ _ _ => accounts_step) (inProgressExact_iff.2 rfl) hrun

/-- One message, whose handler raises without a report. -/
def silentRaise : List (WorkerAct ℕ) :=
  [.enqueue 7, .startRead false, .handed, .raised 0 "boom"]

/-- One message, whose handler raises after its report. -/
def reportedRaise : List (WorkerAct ℕ) :=
  [.enqueue 7, .startRead false, .handed, .acquire 0, .report 0 .success, .raised 0 "boom"]

theorem inProgress_exact_iff_reportedRaise :
    Always (step 4) InProgressExact start (reportedRaise.take 5) :=
  (inProgress_exact_iff 4 (reportedRaise.take 5) rfl).2 (by decide)

/-- The worker that takes one message after the other never counts the first one off, and the other
one counts the second off twice. -/
theorem not_inProgressExact_raises :
    ¬ Always (step 1) InProgressExact start silentRaise ∧
      ¬ Always (step 4) InProgressExact start reportedRaise ∧
      (runActs (step 1) start silentRaise).map (·.counters.inProgress) = some 1 ∧
      (runActs (step 4) start reportedRaise).map (·.counters.inProgress) = some (-1) := by
  decide

end Workers

end OpenViking.Queue
