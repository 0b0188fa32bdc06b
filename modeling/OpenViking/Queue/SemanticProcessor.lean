import OpenViking.Common.Dict
import OpenViking.Common.System
import Mathlib.Data.Rat.Cast.Order
import Mathlib.Data.String.Basic

/-!
# Semantic messages in and out of the queue

The admission of semantic messages (`storage/queuefs/semantic_queue.py`), with the window in which
messages for the same memory directory are dropped and the versions of a coalesce key, and the
handler that takes them out again (`storage/queuefs/semantic_processor.py`): it skips a stale message,
waits while the circuit breaker is open, and puts back what failed for a passing reason.  What a
message does to the files is left to its outcome.

* `accounted_step`: what a step does to the messages that came back from `on_dequeue`;
* `accounted_iff`: the runs in which every one of them is accounted for.
-/

namespace OpenViking.Queue

/-! ## Admission -/

/-- `changes` of a message: the paths added, modified and deleted. -/
structure Changes where
  added : List String
  modified : List String
  deleted : List String
  deriving DecidableEq, Repr

/-- `_changed_paths` of a run (`semantic_dag.py` 191-193). -/
def Changes.changedPaths (c : Changes) : List String := c.added ++ c.modified ++ c.deleted

/-- `SemanticMsg`, with the fields that decide about its way through the queue. -/
structure SemanticMsg where
  id : String
  uri : String
  contextType : String
  accountId : String
  userId : String
  peerId : String
  coalesceKey : String
  coalesceVersion : ℕ
  changes : Option Changes
  deriving DecidableEq, Repr

/-- What a run on the message regenerates when it is incremental. -/
def SemanticMsg.changedPaths (msg : SemanticMsg) : List String :=
  (msg.changes.map Changes.changedPaths).getD []

/-- `SemanticMsg.from_dict` accepts the message. -/
def SemanticMsg.wellFormed (msg : SemanticMsg) : Bool := msg.uri ≠ "" ∧ msg.contextType ≠ ""

/-- `_MEMORY_PARENT_SEMANTIC_DEDUPE_SEC`. -/
def memoryParentSemanticDedupeSec : ℚ := 45

/-- `SemanticQueue`, with `_SEMANTIC_COALESCE_VERSION`; the messages oldest first. -/
structure SemanticQueue where
  messages : List SemanticMsg
  coalesceVersion : Dict String ℕ
  memoryParentSemanticLast : Dict String ℚ

/-- What `enqueue` comes to: `"deduplicated"`, the id of the message, or an exception. -/
inductive EnqueueResult where
  | deduplicated
  | stored
  | failed
  deriving DecidableEq, Repr

namespace SemanticQueue

def empty : SemanticQueue := ⟨[], .empty, .empty⟩

/-- `is_semantic_coalesce_stale` (23-27). -/
def isStale (q : SemanticQueue) (msg : SemanticMsg) : Bool :=
  if msg.coalesceKey = "" ∨ msg.coalesceVersion = 0 then false
  else msg.coalesceVersion < (q.coalesceVersion.get msg.coalesceKey).getD 0

/-- `_memory_parent_semantic_key`. -/
def memoryParentSemanticKey (msg : SemanticMsg) : String :=
  msg.accountId ++ "|" ++ msg.userId ++ "|" ++ msg.peerId ++ "|" ++ msg.uri

/-- The message falls into the window that an earlier one of its directory opened (47-58). -/
def inWindow (q : SemanticQueue) (now : ℚ) (msg : SemanticMsg) : Bool :=
  msg.contextType = "memory" ∧ msg.coalesceKey = "" ∧
    now - (q.memoryParentSemanticLast.get (memoryParentSemanticKey msg)).getD 0 <
      memoryParentSemanticDedupeSec

/-- The window that a memory message opens, with old windows dropped from a large table (59-64). -/
def openWindow (q : SemanticQueue) (now : ℚ) (msg : SemanticMsg) : SemanticQueue :=
  if msg.contextType = "memory" ∧ msg.coalesceKey = "" then
    let last := q.memoryParentSemanticLast.set (memoryParentSemanticKey msg) now
    if last.length > 2000 then
      let cutoff := now - memoryParentSemanticDedupeSec * 4
      let stale := (last.entries.filter fun e => e.2 < cutoff).map Prod.fst
      { q with memoryParentSemanticLast := (stale.take 800).foldl Dict.erase last }
    else { q with memoryParentSemanticLast := last }
  else q

/-- The next version of the message's key (66-70). -/
def version (q : SemanticQueue) (msg : SemanticMsg) : SemanticMsg × SemanticQueue :=
  if msg.coalesceKey = "" then (msg, q)
  else
    let next := (q.coalesceVersion.get msg.coalesceKey).getD 0 + 1
    ({ msg with coalesceVersion := next },
      { q with coalesceVersion := q.coalesceVersion.set msg.coalesceKey next })

/-- `SemanticQueue.enqueue` (45-73): the answer, the message as it stands then, and the queue;
`writes` tells whether the queue file takes the message. -/
def enqueue (q : SemanticQueue) (now : ℚ) (writes : Bool) (msg : SemanticMsg) :
    EnqueueResult × SemanticMsg × SemanticQueue :=
  if q.inWindow now msg then (.deduplicated, msg, q)
  else
    let (msg, q) := (q.openWindow now msg).version msg
    if writes then (.stored, msg, { q with messages := q.messages ++ [msg] })
    else (.failed, msg, q)

/-! ### What `enqueue` does -/

@[simp] theorem messages_openWindow (q : SemanticQueue) (now : ℚ) (msg : SemanticMsg) :
    (q.openWindow now msg).messages = q.messages := by
  unfold openWindow
  dsimp only
  split_ifs <;> rfl

@[simp] theorem messages_version (q : SemanticQueue) (msg : SemanticMsg) :
    (q.version msg).2.messages = q.messages := by
  unfold version
  split_ifs <;> rfl

@[simp] theorem enqueue_of_inWindow {q : SemanticQueue} {now : ℚ} {msg : SemanticMsg}
    (h : q.inWindow now msg = true) (writes : Bool) :
    q.enqueue now writes msg = (.deduplicated, msg, q) := by
  rw [enqueue, if_pos h]

theorem enqueue_of_not_inWindow {q : SemanticQueue} {now : ℚ} {msg : SemanticMsg}
    (h : q.inWindow now msg = false) (writes : Bool) :
    q.enqueue now writes msg =
      if writes then
        (.stored, ((q.openWindow now msg).version msg).1,
          { ((q.openWindow now msg).version msg).2 with
            messages := q.messages ++ [((q.openWindow now msg).version msg).1] })
      else
        (.failed, ((q.openWindow now msg).version msg).1, ((q.openWindow now msg).version msg).2) := by
  rw [enqueue, if_neg (by simp [h])]
  simp only [messages_version, messages_openWindow]

end SemanticQueue

/-! ## The handler -/

/-- Where `on_dequeue` stands with a message: before the first check, at work, before the message is
put back; `afterError` in the branch that reports an error when that fails too. -/
inductive Stage where
  | arrived
  | processing
  | requeueing (afterError : Bool)
  deriving DecidableEq, Repr

/-- How the exception of a step is classified: a lock error before `classify_api_error` is asked. -/
inductive ErrorClass where
  | lock
  | inputTooLarge
  | permanent
  | other
  deriving DecidableEq, Repr

/-- How the processing of a message ends. -/
inductive Outcome where
  | completed
  | stale
  | error (e : ErrorClass)
  deriving DecidableEq, Repr

/-- What is seen when `on_dequeue` returns: whether the message was completed or skipped as stale or
an error was reported, whether a newer message of its key had come into the queue, and whether the
message waits in the queue. -/
structure Return where
  msg : SemanticMsg
  completed : Bool
  skipped : Bool
  errorReported : Bool
  newerExists : Bool
  inQueue : Bool
  deriving DecidableEq, Repr

/-- The message is accounted for: it was completed, skipped for a newer one of its key, reported as an
error, or waits in the queue. -/
def Return.accounted (r : Return) : Bool :=
  r.completed || r.skipped && r.newerExists || r.errorReported || r.inQueue

inductive Event where
  | enqueued (msg : SemanticMsg)
  | reenqueued (msg : SemanticMsg)
  | returned (r : Return)
  deriving DecidableEq, Repr

/-- The queue, the clock, the messages taken out of the queue, and all that happened. -/
structure Semantic where
  queue : SemanticQueue
  now : ℚ
  inHand : List (SemanticMsg × Stage)
  history : List Event

inductive SemanticAct where
  | wait (t : ℚ)
  | enqueue (msg : SemanticMsg) (writes : Bool)
  | dequeue
  | check (i : ℕ) (breakerOpen : Bool)
  | outcome (i : ℕ) (o : Outcome)
  | requeue (i : ℕ) (writes : Bool) (e : ErrorClass)

/-- How a return is reported. -/
inductive Verdict where
  | completed
  | skipped
  | errorReported
  | requeued
  deriving DecidableEq, Repr

namespace Semantic

def start : Semantic := ⟨.empty, 0, [], []⟩

/-- A message of the key with a later version came into the queue. -/
def newerExists (s : Semantic) (msg : SemanticMsg) : Bool :=
  s.history.any fun
    | .enqueued m => m.coalesceKey = msg.coalesceKey ∧ msg.coalesceVersion < m.coalesceVersion
    | .reenqueued m => m.coalesceKey = msg.coalesceKey ∧ msg.coalesceVersion < m.coalesceVersion
    | .returned _ => false

/-- `on_dequeue` returns from the message with a number. -/
def finish (s : Semantic) (i : ℕ) (msg : SemanticMsg) (v : Verdict) : Semantic :=
  { s with
    inHand := s.inHand.eraseIdx i
    history := s.history ++ [.returned {
      msg
      completed := v = .completed
      skipped := v = .skipped
      errorReported := v = .errorReported
      newerExists := s.newerExists msg
      inQueue := s.queue.messages.any fun m => m.id = msg.id }] }

/-- `on_dequeue` goes on to another stage of the message with a number. -/
def goOn (s : Semantic) (i : ℕ) (msg : SemanticMsg) (stage : Stage) : Semantic :=
  { s with inHand := s.inHand.set i (msg, stage) }

/-- The `except` branch of `on_dequeue` (464-512). -/
def handleError (s : Semantic) (i : ℕ) (msg : SemanticMsg) : ErrorClass → Semantic
  | .lock => s.goOn i msg (.requeueing true)
  | .inputTooLarge => s.finish i msg .errorReported
  | .permanent => s.finish i msg .errorReported
  | .other => s.goOn i msg (.requeueing true)

/-- A step of a caller that enqueues, of the clock, or of `on_dequeue` (306-515); `none` when it
cannot be taken. -/
def step (s : Semantic) : SemanticAct → Option Semantic
  | .wait t => if s.now ≤ t then some { s with now := t } else none
  | .enqueue msg writes =>
    let (result, msg, queue) := s.queue.enqueue s.now writes msg
    some { s with
      queue
      history := if result = .stored then s.history ++ [.enqueued msg] else s.history }
  | .dequeue =>
    match s.queue.messages with
    | [] => none
    | msg :: messages =>
      some { s with queue := { s.queue with messages }, inHand := s.inHand ++ [(msg, .arrived)] }
  | .check i breakerOpen =>
    match s.inHand[i]? with
    | some (msg, .arrived) =>
      if msg.wellFormed = false then some (s.finish i msg .errorReported)
      else if s.queue.isStale msg then some (s.finish i msg .skipped)
      else some (s.goOn i msg (if breakerOpen then .requeueing false else .processing))
    | _ => none
  | .outcome i o =>
    match s.inHand[i]? with
    | some (msg, .processing) =>
      match o with
      | .completed => some (s.finish i msg .completed)
      -- `executor.stale`: the sidecars were not written
      | .stale => if s.queue.isStale msg then some (s.finish i msg .skipped) else none
      | .error e => some (s.handleError i msg e)
    | _ => none
  -- `_reenqueue_semantic_msg`, alone (345-352) or under `_requeue_semantic_msg_after_error`
  | .requeue i writes e =>
    match s.inHand[i]? with
    | some (msg, .requeueing afterError) =>
      let (result, msg, queue) := s.queue.enqueue s.now writes msg
      let s := { s with queue }
      match result with
      | .stored =>
        let s := { s with history := s.history ++ [Event.reenqueued msg] }
        some (s.finish i msg .requeued)
      | .deduplicated => some (s.finish i msg .requeued)
      | .failed =>
        if afterError then some (s.finish i msg .errorReported) else some (s.handleError i msg e)
    | _ => none

/-! ## Messages that come back -/

/-- Every message that `on_dequeue` returned from is accounted for. -/
def Accounted (s : Semantic) : Prop := ∀ r, Event.returned r ∈ s.history → r.accounted = true

instance (s : Semantic) : Decidable s.Accounted :=
  decidable_of_iff
    (s.history.all fun
      | .returned r => r.accounted
      | _ => true) <| by
    rw [List.all_eq_true]
    refine ⟨fun h r hr => h _ hr, fun h e he => ?_⟩
    cases e with
    | returned r => exact h r he
    | enqueued msg => rfl
    | reenqueued msg => rfl

/-- A message with the id waits in the queue. -/
def waits (s : Semantic) (id : String) : Bool := s.queue.messages.any fun m => m.id = id

/-- A step that a message is lost in: it is put back while the window of its directory is open, or
skipped as stale when no newer message of its key ever came into the queue. -/
def loses (s : Semantic) : SemanticAct → Bool
  | .requeue i _ _ =>
    match s.inHand[i]? with
    | some (msg, .requeueing _) => s.queue.inWindow s.now msg && !s.waits msg.id
    | _ => false
  | .check i _ =>
    match s.inHand[i]? with
    | some (msg, .arrived) =>
      msg.wellFormed && s.queue.isStale msg && !s.newerExists msg && !s.waits msg.id
    | _ => false
  | .outcome i .stale =>
    match s.inHand[i]? with
    | some (msg, .processing) => !s.newerExists msg && !s.waits msg.id
    | _ => false
  | _ => false

variable (s : Semantic)

theorem accounted_finish (i : ℕ) (msg : SemanticMsg) (v : Verdict) :
    (s.finish i msg v).Accounted ↔ s.Accounted ∧
      (v = .completed ∨ v = .skipped ∧ s.newerExists msg = true ∨ v = .errorReported ∨
        s.waits msg.id = true) := by
  unfold Accounted finish
  simp only [List.mem_append, List.mem_singleton, or_imp, forall_and, Event.returned.injEq,
    forall_eq, Return.accounted, Bool.or_eq_true, Bool.and_eq_true, decide_eq_true_eq, or_assoc, waits]

theorem accounted_goOn (i : ℕ) (msg : SemanticMsg) (stage : Stage) :
    (s.goOn i msg stage).Accounted ↔ s.Accounted := Iff.rfl

theorem accounted_handleError (i : ℕ) (msg : SemanticMsg) (e : ErrorClass) :
    (s.handleError i msg e).Accounted ↔ s.Accounted := by
  cases e with
  | lock => exact accounted_goOn ..
  | inputTooLarge => simp [handleError, accounted_finish]
  | permanent => simp [handleError, accounted_finish]
  | other => exact accounted_goOn ..

/-- An event that is no return. -/
theorem accounted_append {s : Semantic} {q : SemanticQueue} {e : Event}
    (he : ∀ r, e ≠ .returned r) (hs : s.Accounted) :
    Accounted { s with queue := q, history := s.history ++ [e] } := by
  intro r hr
  rcases List.mem_append.1 hr with hr | hr
  · exact hs r hr
  · exact absurd (List.mem_singleton.1 hr).symm (he r)

theorem waits_of_mem {s : Semantic} {m : SemanticMsg} (h : m ∈ s.queue.messages) :
    s.waits m.id = true :=
  List.any_eq_true.2 ⟨m, h, by simp⟩

/-- **What a step does to the messages that came back.**  All of them stay accounted for exactly
when it is no step that loses one. -/
theorem accounted_step {s u : Semantic} {a : SemanticAct} (hs : s.Accounted)
    (h : s.step a = some u) : u.Accounted ↔ s.loses a = false := by
  cases a with
  | wait t =>
    obtain ⟨-, heq⟩ := Option.ite_none_right_eq_some.1 h
    obtain rfl := Option.some_inj.1 heq
    exact iff_of_true hs rfl
  | enqueue msg writes =>
    simp only [step] at h
    generalize s.queue.enqueue s.now writes msg = answer at h
    obtain ⟨result, msg', queue⟩ := answer
    obtain rfl := Option.some_inj.1 h
    refine iff_of_true ?_ rfl
    cases result with
    | stored => exact accounted_append (e := .enqueued msg') (fun _ => Event.noConfusion) hs
    | deduplicated => exact hs
    | failed => exact hs
  | dequeue =>
    cases hq : s.queue.messages with
    | nil => simp [step, hq] at h
    | cons msg messages =>
      simp only [step, hq, Option.some_inj] at h
      subst h
      exact iff_of_true hs rfl
  | check i breakerOpen =>
    cases hi : s.inHand[i]? with
    | none => simp [step, hi] at h
    | some e =>
      obtain ⟨msg, stage⟩ := e
      cases stage with
      | processing => simp [step, hi] at h
      | requeueing afterError => simp [step, hi] at h
      | arrived =>
        simp only [step, hi] at h
        simp only [loses, hi]
        split_ifs at h with hwell hstale
        · obtain rfl := Option.some_inj.1 h
          simp [accounted_finish, hs, hwell]
        · obtain rfl := Option.some_inj.1 h
          rw [accounted_finish]
          cases s.newerExists msg <;> cases s.waits msg.id <;> simp [hs, hwell, hstale]
        all_goals
          obtain rfl := Option.some_inj.1 h
          simp [accounted_goOn, hs, hstale]
  | outcome i o =>
    cases hi : s.inHand[i]? with
    | none => simp [step, hi] at h
    | some e =>
      obtain ⟨msg, stage⟩ := e
      cases stage with
      | arrived => simp [step, hi] at h
      | requeueing afterError => simp [step, hi] at h
      | processing =>
        simp only [step, hi] at h
        cases o with
        | completed =>
          obtain rfl := Option.some_inj.1 h
          simp [accounted_finish, hs, loses]
        | stale =>
          obtain ⟨-, heq⟩ := Option.ite_none_right_eq_some.1 h
          obtain rfl := Option.some_inj.1 heq
          rw [accounted_finish]
          simp only [loses, hi]
          cases s.newerExists msg <;> cases s.waits msg.id <;> simp [hs]
        | error e =>
          obtain rfl := Option.some_inj.1 h
          simp [accounted_handleError, hs, loses]
  | requeue i writes e =>
    cases hi : s.inHand[i]? with
    | none => simp [step, hi] at h
    | some entry =>
      obtain ⟨msg, stage⟩ := entry
      cases stage with
      | arrived => simp [step, hi] at h
      | processing => simp [step, hi] at h
      | requeueing afterError =>
        simp only [step, hi] at h
        simp only [loses, hi]
        cases hwin : s.queue.inWindow s.now msg with
        | true =>
          rw [SemanticQueue.enqueue_of_inWindow hwin] at h
          obtain rfl := Option.some_inj.1 h
          rw [accounted_finish]
          show s.Accounted ∧ (_ ∨ _ ∨ _ ∨ s.waits msg.id = true) ↔ _
          cases s.waits msg.id <;> simp [hs]
        | false =>
          rw [SemanticQueue.enqueue_of_not_inWindow hwin] at h
          refine iff_of_true ?_ (by simp)
          generalize (s.queue.openWindow s.now msg).version msg = versioned at h
          obtain ⟨msg', q⟩ := versioned
          cases writes with
          | true =>
            obtain rfl := Option.some_inj.1 h
            rw [accounted_finish]
            refine ⟨accounted_append (fun _ => Event.noConfusion) hs, .inr (.inr (.inr ?_))⟩
            exact waits_of_mem (List.mem_append_right _ (List.mem_singleton_self msg'))
          | false =>
            have hq : Accounted { s with queue := q } := hs
            cases afterError with
            | true =>
              obtain rfl := Option.some_inj.1 h
              exact (accounted_finish ..).2 ⟨hq, .inr (.inr (.inl rfl))⟩
            | false =>
              obtain rfl := Option.some_inj.1 h
              exact (accounted_handleError ..).2 hq

/-! ## Runs -/

/-- **When no message vanishes.**  In every run, at every moment, the messages that came back are
accounted for exactly when none was put back while the window of its directory was open, and none was
skipped for a version whose message never came into the queue. -/
theorem accounted_iff (acts : List SemanticAct) {s : Semantic} (hrun : runActs step start acts = some s) :
    Always step Accounted start acts ↔
      ActsMeet step (fun s a => s.loses a = false) start acts :=
  always_iff_actsMeet (fun _ _ _ => accounted_step) (fun r hr => by cases hr) hrun

/-- A message for a directory of memories. -/
def memoryMsg : SemanticMsg where
  id := "m1"
  uri := "viking://user/default/memories/preferences"
  contextType := "memory"
  accountId := "default"
  userId := "default"
  peerId := "default"
  coalesceKey := ""
  coalesceVersion := 0
  changes := none

/-- The message fails for a passing reason, two seconds after it came. -/
def memoryRetry : List SemanticAct :=
  [.wait 100, .enqueue memoryMsg true, .dequeue, .check 0 false, .wait 102,
    .outcome 0 (.error .other), .requeue 0 true .other]

theorem accounted_iff_memoryRetry : Always step Accounted start (memoryRetry.take 6) := by
  have hsome : (runActs step start (memoryRetry.take 6)).isSome = true := by decide +kernel
  exact (accounted_iff _ (Option.some_get hsome).symm).2 (by decide +kernel)

/-- The message is gone: not in the queue, not completed, no error reported. -/
theorem not_accounted_memoryRetry :
    ¬ Always step Accounted start memoryRetry ∧
      (runActs step start memoryRetry).map (fun s => (s.queue.messages, s.inHand.length)) =
        some ([], 0) := by
  decide +kernel

end Semantic

end OpenViking.Queue
