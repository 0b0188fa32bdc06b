import OpenViking.Queue.SqliteQueue
import Mathlib.Algebra.Order.Group.Multiset
import OpenViking.Common.MapM
import Mathlib.Data.Multiset.MapFold
import Mathlib.Data.Multiset.Filter
import Mathlib.Tactic.Abel

/-!
# What the SQLite queue stores

Runs of the SQLite backend, with a crash and a reopening at any point, against the books that are kept
of each queue: its messages in the order they came, which of them are out for processing, and all
that was ever enqueued, acknowledged and cleared.

* `Keeps.step`: one call;
* `ledger_keeps`: any run.
-/

namespace OpenViking.Queue

/-! ## Messages as they are stored -/

/-- A message with its time stamp in whole seconds. -/
def Message.toSeconds (msg : Message) : Message :=
  { msg with timestamp := unixSecs msg.timestamp * 1000000000 }

theorem mapM_byteOf (data : List UInt8) :
    (data.map fun byte => JsonValue.number byte.toNat).mapM byteOf = some data := by
  refine mapM_map_eq_some fun byte _ => ?_
  have hlt := byte.toNat_lt
  have hcond : (0 : ℤ) ≤ byte.toNat ∧ (byte.toNat : ℤ) < 256 := by omega
  rw [byteOf, if_pos hcond, Int.toNat_natCast, UInt8.ofNat_toNat]

/-- A stored message is read back as it was. -/
theorem deserialize_serialize (msg : Message) :
    StoredMessage.deserialize (StoredMessage.fromMessage msg).serialize =
      some (StoredMessage.fromMessage msg) := by
  have hdata := mapM_byteOf msg.data
  simp [StoredMessage.serialize, StoredMessage.fromMessage, StoredMessage.deserialize, fieldOf,
    deserializeStoredMessageData, hdata]

theorem answer_of_deserialize (rfc3339 : String → Option ℤ) (now : ℤ) {msg : Message}
    {data : JsonValue} (h : StoredMessage.deserialize data = some (StoredMessage.fromMessage msg)) :
    QueueDb.answer rfc3339 now data = .ok (some msg.toSeconds) := by
  have hsecs : 0 ≤ unixSecs msg.timestamp := by
    unfold unixSecs
    omega
  rw [QueueDb.answer, h]
  simp [StoredMessage.intoMessage, StoredMessage.fromMessage, parseStoredTimestamp,
    Message.toSeconds, hsecs]

/-! ## Books -/

/-- A message of a queue, and whether it is out for processing. -/
structure Entry where
  message : Message
  processing : Bool

/-- The books of a queue. -/
structure Ledger where
  entries : List Entry
  enqueued : Multiset Message
  acked : Multiset Message
  cleared : Multiset Message

/-- The calls on the backend, and a crash with the reopening after it. -/
inductive Act where
  | createQueue (name : String)
  | enqueue (queueName : String) (msg : Message)
  | dequeue (queueName : String) (now : ℤ)
  | peek (queueName : String) (now : ℤ)
  | ack (queueName msgId : String)
  | clear (queueName : String)
  | reopen (now : ℤ)

/-- The tables after a call, and whether the call succeeded. -/
def QueueDb.step (rfc3339 : String → Option ℤ) (db : QueueDb) : Act → Bool × QueueDb
  | .createQueue name => ((db.createQueue name).1.isOk, (db.createQueue name).2)
  | .enqueue q msg => ((db.enqueue q msg).1.isOk, (db.enqueue q msg).2)
  | .dequeue q now => ((db.dequeue rfc3339 now q).1.isOk, (db.dequeue rfc3339 now q).2)
  | .peek q now => ((db.peek rfc3339 now q).1.isOk, (db.peek rfc3339 now q).2)
  | .ack q msgId => ((db.ack q msgId).1.isOk, (db.ack q msgId).2)
  | .clear q => ((db.clear q).1.isOk, (db.clear q).2)
  | .reopen now => (true, db.reopen 0 now)

namespace Ledger

/-- Nothing was ever enqueued. -/
def empty : Ledger := ⟨[], 0, 0, 0⟩

/-- The oldest message that is not out goes out. -/
def deliver : List Entry → List Entry
  | [] => []
  | e :: es => if e.processing then e :: deliver es else { e with processing := true } :: es

/-- A message that an acknowledgement goes to: one that is out. -/
def ackedEntry (msgId : String) (e : Entry) : Bool := e.message.id = msgId ∧ e.processing

/-- The books of a queue after a call on it that succeeded. -/
def record (l : Ledger) : Act → Ledger
  | .enqueue _ msg =>
    { l with entries := l.entries ++ [⟨msg, false⟩], enqueued := msg ::ₘ l.enqueued }
  | .dequeue _ _ => { l with entries := deliver l.entries }
  | .ack _ msgId =>
    { l with
      entries := l.entries.filter fun e => !ackedEntry msgId e
      acked := ((l.entries.filter (ackedEntry msgId)).map Entry.message : List Message) + l.acked }
  | .clear _ =>
    { l with entries := [], cleared := (l.entries.map Entry.message : List Message) + l.cleared }
  | .reopen _ => { l with entries := l.entries.map fun e => { e with processing := false } }
  | .createQueue _ => l
  | .peek _ _ => l

end Ledger

/-- The queue that a call is on; a reopening is on all. -/
def Act.isOn (q : String) : Act → Bool
  | .createQueue name => name = q
  | .enqueue queueName _ => queueName = q
  | .dequeue queueName _ => queueName = q
  | .peek queueName _ => queueName = q
  | .ack queueName _ => queueName = q
  | .clear queueName => queueName = q
  | .reopen _ => true

/-- The tables and the books of every queue after a call. -/
def booksStep (rfc3339 : String → Option ℤ) (st : QueueDb × (String → Ledger)) (a : Act) :
    QueueDb × (String → Ledger) :=
  let (ok, db) := st.1.step rfc3339 a
  (db, fun q => if ok && a.isOn q then (st.2 q).record a else st.2 q)

/-- The tables and the books after a run from new tables. -/
def books (rfc3339 : String → Option ℤ) (acts : List Act) : QueueDb × (String → Ledger) :=
  acts.foldl (booksStep rfc3339) (QueueDb.empty, fun _ => Ledger.empty)

/-! ## Rows of a queue -/

namespace QueueDb

/-- The rows of a queue by id. -/
def rowsOf (db : QueueDb) (q : String) : List QueueRow :=
  db.messages.filter fun r => r.queueName = q

variable (db : QueueDb)

theorem rowsOf_insertMessage (q' messageId : String) (data : JsonValue) (timestamp : ℤ) (q : String) :
    (db.insertMessage q' messageId data timestamp).rowsOf q =
      db.rowsOf q ++ if q' = q then [⟨db.seq + 1, q', messageId, data, timestamp, .pending, none⟩]
        else [] := by
  unfold rowsOf insertMessage
  rw [List.filter_append]
  congr 1
  by_cases h : q' = q <;> simp [h]

variable (p : QueueRow → Bool)

theorem queueName_withStatus (status : Status) (startedAt : Option ℤ)
    (r : QueueRow) : (withStatus p status startedAt r).queueName = r.queueName := by
  unfold withStatus
  split_ifs <;> rfl

theorem rowsOf_updateStatus (status : Status) (startedAt : Option ℤ) (q : String) :
    (db.updateStatus p status startedAt).rowsOf q =
      (db.rowsOf q).map (withStatus p status startedAt) := by
  unfold rowsOf updateStatus
  rw [List.filter_map]
  congr 2
  funext r
  simp [queueName_withStatus]

theorem rowsOf_deleteMessages (q : String) :
    (db.deleteMessages p).rowsOf q = (db.rowsOf q).filter fun r => !p r := by
  unfold rowsOf deleteMessages
  rw [List.filter_filter, List.filter_filter]
  congr 1
  funext r
  rw [Bool.and_comm]

variable (q : String)

theorem firstPending_eq :
    db.firstPending q = (db.rowsOf q).find? fun r => r.status = .pending := by
  unfold firstPending rowsOf
  rw [List.find?_filter]
  congr 1
  funext r
  simp

theorem rowsOf_runMigrations : db.runMigrations.rowsOf q = db.rowsOf q := by
  unfold runMigrations
  generalize db.messages.filter (fun r => r.queueName ≠ "") = rows
  induction rows generalizing db with
  | nil => rfl
  | cons r rows ih =>
    rw [List.foldl_cons, ih]
    unfold insertName
    split_ifs <;> rfl

/-- Ids are not shared. -/
theorem eq_of_id_eq {r r' : QueueRow} (hr : r ∈ db.messages)
    (hr' : r' ∈ db.messages) (h : r.id = r'.id) : r = r' := by
  have hnodup : (db.messages.map QueueRow.id).Nodup :=
    List.pairwise_map.2 (db.sorted.imp fun hlt => hlt.ne)
  exact List.inj_on_of_nodup_map hnodup hr hr' h

theorem sorted_rowsOf :
    (db.rowsOf q).Pairwise fun r r' => r.id < r'.id :=
  db.sorted.filter _

end QueueDb

/-! ## Rows and books -/

/-- A row holds a message, with the status that the books say. -/
structure Stores (r : QueueRow) (e : Entry) : Prop where
  messageId : r.messageId = e.message.id
  data : StoredMessage.deserialize r.data = some (StoredMessage.fromMessage e.message)
  status : r.status = .processing ↔ e.processing = true

theorem Stores.pending_iff {r : QueueRow} {e : Entry} (h : Stores r e) :
    r.status = .pending ↔ e.processing = false := by
  have hstatus := h.status
  cases hr : r.status <;> cases he : e.processing <;> simp_all

theorem Stores.withStatus {r : QueueRow} {e : Entry} (h : Stores r e) {p : QueueRow → Bool}
    {status : Status} {startedAt : Option ℤ} {processing : Bool}
    (hstatus : status = .processing ↔ processing = true) (hp : p r = true) :
    Stores (QueueDb.withStatus p status startedAt r) { e with processing } := by
  unfold QueueDb.withStatus
  rw [if_pos hp]
  exact ⟨h.messageId, h.data, hstatus⟩

variable {es : List Entry}

variable {rows : List QueueRow}

/-- The first pending row is the row of the oldest message that is not out. -/
theorem find_pending (h : List.Forall₂ Stores rows es) :
    Option.Rel Stores (rows.find? fun r => r.status = .pending)
      (es.find? fun e => !e.processing) := by
  induction h with
  | nil => exact .none
  | @cons r e rows es hre _ ih =>
    rw [List.find?_cons, List.find?_cons]
    by_cases hpending : r.status = .pending
    · have he := hre.pending_iff.1 hpending
      simp only [hpending, he, decide_true, Bool.not_false]
      exact .some hre
    · have he : e.processing = true := by
        have hne := mt hre.pending_iff.2 hpending
        simpa using hne
      simp only [hpending, he, decide_false, Bool.not_true]
      exact ih

/-- The row that a dequeue has found goes out. -/
theorem deliver_rows (h : List.Forall₂ Stores rows es)
    (hsorted : rows.Pairwise fun r r' => r.id < r'.id) {row : QueueRow}
    (hrow : (rows.find? fun r => r.status = .pending) = some row) (startedAt : Option ℤ) :
    List.Forall₂ Stores
      (rows.map (QueueDb.withStatus (fun r => r.id = row.id) .processing startedAt))
      (Ledger.deliver es) := by
  induction h with
  | nil => cases hrow
  | @cons r e rows es hre hrest ih =>
    obtain ⟨hhead, htail⟩ := List.pairwise_cons.1 hsorted
    rw [List.map_cons, Ledger.deliver]
    by_cases hpending : r.status = .pending
    · -- this row goes out, and no other one has its id
      have he := hre.pending_iff.1 hpending
      rw [List.find?_cons_of_pos (by simpa using hpending), Option.some.injEq] at hrow
      subst hrow
      have hother : rows.map (QueueDb.withStatus (fun r' => r'.id = r.id) .processing startedAt) =
          rows := by
        conv_rhs => rw [← List.map_id rows]
        refine List.map_congr_left fun r' hr' => ?_
        have hne := (hhead r' hr').ne'
        simp [QueueDb.withStatus, hne]
      simp only [he, Bool.false_eq_true, if_false, hother]
      exact .cons (hre.withStatus (by simp) (by simp)) hrest
    · have he : e.processing = true := by
        have hne := mt hre.pending_iff.2 hpending
        simpa using hne
      rw [List.find?_cons_of_neg (by simpa using hpending)] at hrow
      have hne : r.id ≠ row.id := (hhead row (List.mem_of_find?_eq_some hrow)).ne
      have hself : QueueDb.withStatus (fun r' => r'.id = row.id) .processing startedAt r = r := by
        simp [QueueDb.withStatus, hne]
      rw [if_pos he, hself]
      exact .cons hre (ih htail hrow)

/-- An acknowledgement goes to the rows of the messages that the books say. -/
theorem ack_rows (h : List.Forall₂ Stores rows es) {q msgId : String} (hq : ∀ r ∈ rows, r.queueName = q) :
    List.Forall₂ Stores (rows.filter fun r => !QueueDb.ackedRow q msgId r)
      (es.filter fun e => !Ledger.ackedEntry msgId e) := by
  induction h with
  | nil => exact .nil
  | @cons r e rows es hre _ ih =>
    have hrest := ih fun r hr => hq r (List.mem_cons_of_mem _ hr)
    have hsame : QueueDb.ackedRow q msgId r = Ledger.ackedEntry msgId e := by
      have hname := hq r List.mem_cons_self
      have hstatus := hre.status
      simp only [QueueDb.ackedRow, Ledger.ackedEntry, hname, hre.messageId, hstatus, true_and]
    rw [List.filter_cons, List.filter_cons, hsame]
    split_ifs
    · exact .cons hre hrest
    · exact hrest

/-! ## Runs -/

/-- The books balance: what was enqueued is there, or was acknowledged or cleared. -/
def Ledger.Balanced (l : Ledger) : Prop :=
  l.enqueued = (l.entries.map Entry.message : List Message) + l.acked + l.cleared

theorem Ledger.map_message_deliver (es : List Entry) :
    (deliver es).map Entry.message = es.map Entry.message := by
  induction es with
  | nil => rfl
  | cons e es ih =>
    rw [deliver]
    split_ifs
    · rw [List.map_cons, List.map_cons, ih]
    · rfl

theorem Ledger.deliver_eq_self (h : (es.find? fun e => !e.processing) = none) : deliver es = es := by
  induction es with
  | nil => rfl
  | cons e es ih =>
    rw [List.find?_cons] at h
    cases he : e.processing with
    | false => simp [he] at h
    | true =>
      simp only [he, Bool.not_true] at h
      rw [deliver, if_pos he, ih h]

theorem Ledger.Balanced.record {l : Ledger} (h : l.Balanced) (a : Act) : (l.record a).Balanced := by
  unfold Balanced at h ⊢
  cases a with
  | createQueue name => exact h
  | peek queueName now => exact h
  | enqueue queueName msg =>
    simp only [Ledger.record, h, List.map_append, List.map_cons, List.map_nil]
    rw [← Multiset.coe_add, ← Multiset.singleton_add, Multiset.coe_singleton]
    abel
  | dequeue queueName now =>
    simp only [Ledger.record, map_message_deliver]
    exact h
  | ack queueName msgId =>
    simp only [Ledger.record, h]
    have hsplit : ((l.entries.filter (ackedEntry msgId)).map Entry.message ++
        (l.entries.filter fun e => !ackedEntry msgId e).map Entry.message).Perm
        (l.entries.map Entry.message) := by
      rw [← List.map_append]
      exact (List.filter_append_perm _ _).map _
    rw [← Multiset.coe_eq_coe.2 hsplit, ← Multiset.coe_add]
    abel
  | clear queueName =>
    simp only [Ledger.record, h, List.map_nil, Multiset.coe_nil]
    abel
  | reopen now =>
    simp only [Ledger.record, List.map_map]
    exact h

/-- The tables hold what the books say, and the books balance. -/
structure Keeps (db : QueueDb) (ledgers : String → Ledger) : Prop where
  rows : ∀ q, List.Forall₂ Stores (db.rowsOf q) (ledgers q).entries
  balanced : ∀ q, (ledgers q).Balanced

theorem keeps_empty : Keeps QueueDb.empty fun _ => Ledger.empty where
  rows := fun _ => .nil
  balanced := fun _ => rfl

namespace Keeps

variable {db : QueueDb} {ledgers : String → Ledger} (rfc3339 : String → Option ℤ)

/-- A call on a queue that is not there changes nothing. -/
theorem rows_of_not_ok (h : Keeps db ledgers) {a : Act} {q : String}
    (hstep : db.step rfc3339 a = (false, db)) :
    List.Forall₂ Stores ((db.step rfc3339 a).2.rowsOf q)
      (if (db.step rfc3339 a).1 && a.isOn q then (ledgers q).record a else ledgers q).entries := by
  rw [hstep]
  exact h.rows q

/-- The rows of each queue after a call. -/
theorem rows_step (h : Keeps db ledgers) (a : Act) (q : String) :
    List.Forall₂ Stores ((db.step rfc3339 a).2.rowsOf q)
      (if (db.step rfc3339 a).1 && a.isOn q then (ledgers q).record a else ledgers q).entries := by
  have hrows := h.rows q
  cases a with
  | createQueue name =>
    have hsame : (db.step rfc3339 (.createQueue name)).2.rowsOf q = db.rowsOf q := by
      simp only [QueueDb.step, QueueDb.createQueue, QueueDb.insertName]
      split_ifs <;> rfl
    rw [hsame, Ledger.record, ite_self]
    exact hrows
  | peek q' now =>
    have hsame : (db.step rfc3339 (.peek q' now)).2 = db := by
      simp only [QueueDb.step, QueueDb.peek, QueueDb.requireQueueExists]
      split_ifs
      · split <;> rfl
      · rfl
    rw [hsame, Ledger.record, ite_self]
    exact hrows
  | enqueue q' msg =>
    by_cases hknown : db.queueKnown q'
    · have hstep : db.step rfc3339 (.enqueue q' msg) = (true, db.insertMessage q' msg.id
          (StoredMessage.fromMessage msg).serialize (unixSecs msg.timestamp)) := by
        simp only [QueueDb.step, QueueDb.enqueue, QueueDb.requireQueueExists, if_pos hknown]
        rfl
      rw [hstep, QueueDb.rowsOf_insertMessage]
      by_cases hq : q' = q
      · simp only [Act.isOn, hq, decide_true, Bool.and_self, if_true, Ledger.record]
        exact List.rel_append hrows (.cons ⟨rfl, deserialize_serialize msg, by simp⟩ .nil)
      · simp only [Act.isOn, hq, decide_false, Bool.and_false, Bool.false_eq_true, if_false,
          List.append_nil]
        exact hrows
    · refine h.rows_of_not_ok rfc3339 ?_
      simp only [QueueDb.step, QueueDb.enqueue, QueueDb.requireQueueExists, if_neg hknown]
      rfl
  | dequeue q' now =>
    by_cases hknown : db.queueKnown q'
    · have hfind := find_pending (h.rows q')
      have hfirst := db.firstPending_eq q'
      cases hrow : (db.rowsOf q').find? fun r => r.status = .pending with
      | none =>
        -- nothing is pending, and nothing changes
        have hstep : db.step rfc3339 (.dequeue q' now) = (true, db) := by
          simp only [QueueDb.step, QueueDb.dequeue, QueueDb.requireQueueExists, if_pos hknown,
            hfirst, hrow]
          rfl
        rw [hrow] at hfind
        cases hentry : (ledgers q').entries.find? fun e => !e.processing with
        | some e =>
          rw [hentry] at hfind
          cases hfind
        | none =>
          rw [hstep]
          by_cases hq : q' = q
          · subst hq
            simp only [Act.isOn, decide_true, Bool.and_self, if_true, Ledger.record,
              Ledger.deliver_eq_self hentry]
            exact hrows
          · simp only [Act.isOn, hq, decide_false, Bool.and_false, Bool.false_eq_true, if_false]
            exact hrows
      | some row =>
        rw [hrow] at hfind
        cases hentry : (ledgers q').entries.find? fun e => !e.processing with
        | none =>
          rw [hentry] at hfind
          cases hfind
        | some e =>
          rw [hentry] at hfind
          obtain ⟨hstores⟩ := hfind
          have hstep : db.step rfc3339 (.dequeue q' now) = (true, db.updateStatus
              (fun r => r.id = row.id) .processing (some (unixSecs now))) := by
            simp only [QueueDb.step, QueueDb.dequeue, QueueDb.requireQueueExists, if_pos hknown,
              hfirst, hrow, answer_of_deserialize rfc3339 now hstores.data]
            rfl
          rw [hstep, QueueDb.rowsOf_updateStatus]
          by_cases hq : q' = q
          · subst hq
            simp only [Act.isOn, decide_true, Bool.and_self, if_true, Ledger.record]
            exact deliver_rows hrows (db.sorted_rowsOf q') hrow _
          · -- the row has an id that no row of another queue has
            have hmem := List.mem_of_find?_eq_some hrow
            have hname : row.queueName = q' := by simpa using List.of_mem_filter hmem
            have hkeep : (db.rowsOf q).map (QueueDb.withStatus (fun r => r.id = row.id) .processing
                (some (unixSecs now))) = db.rowsOf q := by
              conv_rhs => rw [← List.map_id (db.rowsOf q)]
              refine List.map_congr_left fun r hr => ?_
              have hne : r.id ≠ row.id := by
                intro heq
                have hsame := db.eq_of_id_eq (List.mem_of_mem_filter hr)
                  (List.mem_of_mem_filter hmem) heq
                have hname' : r.queueName = q := by simpa using List.of_mem_filter hr
                rw [hsame, hname] at hname'
                exact hq hname'
              simp [QueueDb.withStatus, hne]
            simp only [Act.isOn, hq, decide_false, Bool.and_false, Bool.false_eq_true, if_false,
              hkeep]
            exact hrows
    · refine h.rows_of_not_ok rfc3339 ?_
      simp only [QueueDb.step, QueueDb.dequeue, QueueDb.requireQueueExists, if_neg hknown]
      rfl
  | ack q' msgId =>
    by_cases hknown : db.queueKnown q'
    · have hstep : db.step rfc3339 (.ack q' msgId) =
          (true, db.deleteMessages (QueueDb.ackedRow q' msgId)) := by
        simp only [QueueDb.step, QueueDb.ack, QueueDb.requireQueueExists, if_pos hknown]
        rfl
      rw [hstep, QueueDb.rowsOf_deleteMessages]
      by_cases hq : q' = q
      · subst hq
        simp only [Act.isOn, decide_true, Bool.and_self, if_true, Ledger.record]
        exact ack_rows hrows fun r hr => by simpa using List.of_mem_filter hr
      · have hkeep : (db.rowsOf q).filter (fun r => !QueueDb.ackedRow q' msgId r) = db.rowsOf q := by
          refine List.filter_eq_self.2 fun r hr => ?_
          have hname : r.queueName = q := by simpa using List.of_mem_filter hr
          simp [QueueDb.ackedRow, hname, Ne.symm hq]
        simp only [Act.isOn, hq, decide_false, Bool.and_false, Bool.false_eq_true, if_false, hkeep]
        exact hrows
    · refine h.rows_of_not_ok rfc3339 ?_
      simp only [QueueDb.step, QueueDb.ack, QueueDb.requireQueueExists, if_neg hknown]
      rfl
  | clear q' =>
    by_cases hknown : db.queueKnown q'
    · have hstep : db.step rfc3339 (.clear q') =
          (true, db.deleteMessages fun r => r.queueName = q') := by
        simp only [QueueDb.step, QueueDb.clear, QueueDb.requireQueueExists, if_pos hknown]
        rfl
      rw [hstep, QueueDb.rowsOf_deleteMessages]
      by_cases hq : q' = q
      · subst hq
        have hgone : (db.rowsOf q').filter (fun r => !decide (r.queueName = q')) = [] := by
          refine List.filter_eq_nil_iff.2 fun r hr => ?_
          have hname : r.queueName = q' := by simpa using List.of_mem_filter hr
          simp [hname]
        simp only [Act.isOn, decide_true, Bool.and_self, if_true, Ledger.record, hgone]
        exact .nil
      · have hkeep : (db.rowsOf q).filter (fun r => !decide (r.queueName = q')) = db.rowsOf q := by
          refine List.filter_eq_self.2 fun r hr => ?_
          have hname : r.queueName = q := by simpa using List.of_mem_filter hr
          simp [hname, Ne.symm hq]
        simp only [Act.isOn, hq, decide_false, Bool.and_false, Bool.false_eq_true, if_false, hkeep]
        exact hrows
    · refine h.rows_of_not_ok rfc3339 ?_
      simp only [QueueDb.step, QueueDb.clear, QueueDb.requireQueueExists, if_neg hknown]
      rfl
  | reopen now =>
    simp only [QueueDb.step, QueueDb.reopen, Act.isOn, Bool.and_self, if_true, Ledger.record]
    rw [QueueDb.recoverStale, if_pos le_rfl, QueueDb.rowsOf_updateStatus,
      QueueDb.rowsOf_runMigrations]
    refine List.forall₂_map_left_iff.2 (List.forall₂_map_right_iff.2 (hrows.imp fun r e hre => ?_))
    by_cases hstatus : r.status = .processing
    · exact hre.withStatus (by simp) (by simpa using hstatus)
    · have he : e.processing = false := by
        have hne := mt hre.status.2 hstatus
        simpa using hne
      have hself : QueueDb.withStatus (fun r => r.status = .processing) .pending none r = r := by
        simp [QueueDb.withStatus, hstatus]
      rw [hself, ← he]
      exact hre

theorem step (h : Keeps db ledgers) (a : Act) :
    Keeps (booksStep rfc3339 (db, ledgers) a).1 (booksStep rfc3339 (db, ledgers) a).2 where
  rows := h.rows_step rfc3339 a
  balanced := by
    intro q
    simp only [booksStep]
    split_ifs
    · exact (h.balanced q).record a
    · exact h.balanced q

/-- What a dequeue answers: the oldest message that is not out, as it was enqueued. -/
theorem dequeue_answer (h : Keeps db ledgers) (now : ℤ) {q : String} (hknown : db.queueKnown q) :
    (db.dequeue rfc3339 now q).1 = .ok
      (((ledgers q).entries.find? fun e => !e.processing).map fun e => e.message.toSeconds) := by
  have hfind := find_pending (h.rows q)
  simp only [QueueDb.dequeue, QueueDb.requireQueueExists, if_pos hknown, db.firstPending_eq]
  cases hrow : (db.rowsOf q).find? fun r => r.status = .pending with
  | none =>
    rw [hrow] at hfind
    cases hentry : (ledgers q).entries.find? fun e => !e.processing with
    | none => rfl
    | some e =>
      rw [hentry] at hfind
      cases hfind
  | some row =>
    rw [hrow] at hfind
    cases hentry : (ledgers q).entries.find? fun e => !e.processing with
    | none =>
      rw [hentry] at hfind
      cases hfind
    | some e =>
      rw [hentry] at hfind
      obtain ⟨hstores⟩ := hfind
      exact answer_of_deserialize rfc3339 now hstores.data

end Keeps

/-- What holds of a queue: its rows, by id, are the messages of the books with their bytes and in
their order; what was enqueued is there or was acknowledged or cleared; a dequeue answers with the
oldest message that is not out; and after a reopening all are pending, in the same order. -/
structure BooksHold (rfc3339 : String → Option ℤ) (db : QueueDb) (q : String) (l : Ledger) : Prop where
  rows : List.Forall₂ Stores (db.rowsOf q) l.entries
  balanced : l.enqueued = (l.entries.map Entry.message : List Message) + l.acked + l.cleared
  dequeue : ∀ now, db.queueKnown q → (db.dequeue rfc3339 now q).1 =
    .ok ((l.entries.find? fun e => !e.processing).map fun e => e.message.toSeconds)
  reopen : ∀ now, List.Forall₂ Stores ((db.reopen 0 now).rowsOf q)
    (l.entries.map fun e => { e with processing := false })

/-- **The queue never loses or duplicates a message.**  After any run, with crashes and reopenings
anywhere, the books of every queue hold. -/
theorem ledger_keeps (rfc3339 : String → Option ℤ) (acts : List Act) (q : String) :
    BooksHold rfc3339 (books rfc3339 acts).1 q ((books rfc3339 acts).2 q) := by
  have hkeeps : Keeps (books rfc3339 acts).1 (books rfc3339 acts).2 := by
    unfold books
    generalize hst : (QueueDb.empty, fun _ : String => Ledger.empty) = st
    have hstart : Keeps st.1 st.2 := by
      rw [← hst]
      exact keeps_empty
    clear hst
    induction acts generalizing st with
    | nil => exact hstart
    | cons a acts ih => exact ih _ (hstart.step rfc3339 a)
  exact
    { rows := hkeeps.rows q
      balanced := hkeeps.balanced q
      dequeue := fun now hknown => hkeeps.dequeue_answer rfc3339 now hknown
      reopen := fun now => by
        have hreopen := hkeeps.rows_step rfc3339 (.reopen now) q
        simpa [QueueDb.step, Act.isOn, Ledger.record] using hreopen }

end OpenViking.Queue
