import Mathlib.Data.Int.Order.Basic
import Mathlib.Data.List.Sort

/-!
# The queue backends

A model of the queue backends of QueueFS (`crates/ragfs/src/plugins/queuefs/backend.rs`): the SQLite
backend, whose messages move from pending to processing when they are dequeued, and go when they are
acknowledged, and the backend in memory.

The `data` column holds the JSON value of a `StoredMessage`; printing it and parsing it again is left
to `serde_json`.  The table keeps its rows in the order of their ids, which are given out once.
-/

namespace OpenViking.Queue

/-! ## Messages -/

/-- `Message`; the time stamp in nanoseconds since the Unix epoch. -/
structure Message where
  id : String
  data : List UInt8
  timestamp : ℤ
  deriving DecidableEq, Repr

/-- `serde_json::Value`, with numbers that are integers. -/
inductive JsonValue where
  | null
  | bool (b : Bool)
  | number (n : ℤ)
  | string (s : String)
  | array (vs : List JsonValue)
  | object (kvs : List (String × JsonValue))

/-- `StoredMessage`. -/
structure StoredMessage where
  id : String
  data : List UInt8
  timestamp : Option JsonValue

/-- `unix_secs`: the whole seconds since the epoch, none before it. -/
def unixSecs (time : ℤ) : ℤ := max time 0 / 1000000000

/-- `StoredMessage::from_message`. -/
def StoredMessage.fromMessage (msg : Message) : StoredMessage where
  id := msg.id
  data := msg.data
  timestamp := some (.number (unixSecs msg.timestamp))

/-- `Serialize` for `StoredMessage`. -/
def StoredMessage.serialize (m : StoredMessage) : JsonValue :=
  .object [("id", .string m.id),
    ("data", .array (m.data.map fun byte => .number byte.toNat)),
    ("timestamp", m.timestamp.getD .null)]

/-- A byte of a stored array: an integer in `0..=255`. -/
def byteOf : JsonValue → Option UInt8
  | .number n => if 0 ≤ n ∧ n < 256 then some (UInt8.ofNat n.toNat) else none
  | _ => none

/-- `deserialize_stored_message_data` (63-91): a string of a legacy row, or an array of bytes. -/
def deserializeStoredMessageData : JsonValue → Option (List UInt8)
  | .string data => some data.toUTF8.toList
  | .array bytes => bytes.mapM byteOf
  | _ => none

/-- The value of a field; `none` when it is missing, twice refused. -/
def fieldOf (kvs : List (String × JsonValue)) (name : String) : Option (Option JsonValue) :=
  match kvs.filter fun kv => kv.1 = name with
  | [] => some none
  | [kv] => some (some kv.2)
  | _ => none

/-- `Deserialize` for `StoredMessage`; `none` is an error. -/
def StoredMessage.deserialize : JsonValue → Option StoredMessage
  | .object kvs => do
    let some (.string id) ← fieldOf kvs "id" | none
    let some raw ← fieldOf kvs "data" | none
    let data ← deserializeStoredMessageData raw
    let timestamp ← fieldOf kvs "timestamp"
    match timestamp with
    | none => some ⟨id, data, none⟩
    | some .null => some ⟨id, data, none⟩
    | some ts => some ⟨id, data, some ts⟩
  | _ => none

/-- `parse_stored_timestamp` (93-114), where `rfc3339` reads the seconds of a time stamp. -/
def parseStoredTimestamp (rfc3339 : String → Option ℤ) (now : ℤ) : Option JsonValue → ℤ
  | some (.string ts) => ((rfc3339 ts).map fun secs => max secs 0 * 1000000000).getD now
  | some (.number secs) => max secs 0 * 1000000000
  | _ => now

/-- `StoredMessage::into_message`. -/
def StoredMessage.intoMessage (rfc3339 : String → Option ℤ) (now : ℤ) (m : StoredMessage) :
    Message where
  id := m.id
  data := m.data
  timestamp := parseStoredTimestamp rfc3339 now m.timestamp

/-- What a backend answers with when it fails: `Error`. -/
inductive QueueError where
  | alreadyExists (message : String)
  | notFound (message : String)
  | serialization
  deriving DecidableEq, Repr

/-- `Error::AlreadyExists` for a queue. -/
def queueAlreadyExists (name : String) : QueueError :=
  .alreadyExists ("queue '" ++ name ++ "' already exists")

/-- `Error::NotFound` for a queue. -/
def queueNotFound (name : String) : QueueError := .notFound ("queue '" ++ name ++ "' not found")

/-! ## Tables -/

/-- The column `status`. -/
inductive Status where
  | pending
  | processing
  deriving DecidableEq, Repr

/-- A row of `queue_messages`. -/
structure QueueRow where
  id : ℕ
  queueName : String
  messageId : String
  data : JsonValue
  timestamp : ℤ
  status : Status
  processingStartedAt : Option ℤ

/-- The tables: `queue_metadata` with the names in the order they came, and `queue_messages` with its
rows by id; `seq` is the largest id that `AUTOINCREMENT` has given out. -/
structure QueueDb where
  metadata : List String
  messages : List QueueRow
  seq : ℕ
  sorted : messages.Pairwise fun r r' => r.id < r'.id
  le_seq : ∀ r ∈ messages, r.id ≤ seq

namespace QueueDb

/-- New tables. -/
def empty : QueueDb := ⟨[], [], 0, List.Pairwise.nil, by simp⟩

/-- `INSERT OR IGNORE INTO queue_metadata`. -/
def insertName (db : QueueDb) (name : String) : QueueDb :=
  if name ∈ db.metadata then db else { db with metadata := db.metadata ++ [name] }

/-- `INSERT INTO queue_messages`, with the status pending. -/
def insertMessage (db : QueueDb) (queueName messageId : String) (data : JsonValue)
    (timestamp : ℤ) : QueueDb where
  metadata := db.metadata
  messages := db.messages ++ [⟨db.seq + 1, queueName, messageId, data, timestamp, .pending, none⟩]
  seq := db.seq + 1
  sorted := by
    refine List.pairwise_append.2 ⟨db.sorted, List.pairwise_singleton _ _, fun r hr r' hr' => ?_⟩
    obtain rfl := List.mem_singleton.1 hr'
    exact Nat.lt_succ_of_le (db.le_seq r hr)
  le_seq := by
    intro r hr
    rcases List.mem_append.1 hr with hr | hr
    · exact (db.le_seq r hr).trans (Nat.le_succ _)
    · obtain rfl := List.mem_singleton.1 hr
      exact le_rfl

/-- A row with another status. -/
def withStatus (p : QueueRow → Bool) (status : Status) (startedAt : Option ℤ) (r : QueueRow) :
    QueueRow :=
  if p r then { r with status, processingStartedAt := startedAt } else r

theorem id_withStatus (p : QueueRow → Bool) (status : Status) (startedAt : Option ℤ)
    (r : QueueRow) : (withStatus p status startedAt r).id = r.id := by
  unfold withStatus
  split_ifs <;> rfl

/-- `UPDATE queue_messages SET status = …, processing_started_at = … WHERE p`. -/
def updateStatus (db : QueueDb) (p : QueueRow → Bool) (status : Status) (startedAt : Option ℤ) :
    QueueDb where
  metadata := db.metadata
  messages := db.messages.map (withStatus p status startedAt)
  seq := db.seq
  sorted := by
    refine List.pairwise_map.2 (db.sorted.imp fun h => ?_)
    rw [id_withStatus, id_withStatus]
    exact h
  le_seq := by
    intro r hr
    obtain ⟨r', hr', rfl⟩ := List.mem_map.1 hr
    rw [id_withStatus]
    exact db.le_seq r' hr'

/-- `DELETE FROM queue_messages WHERE p`. -/
def deleteMessages (db : QueueDb) (p : QueueRow → Bool) : QueueDb where
  metadata := db.metadata
  messages := db.messages.filter fun r => !p r
  seq := db.seq
  sorted := db.sorted.filter _
  le_seq := fun r hr => db.le_seq r (List.mem_of_mem_filter hr)

/-- `DELETE FROM queue_metadata WHERE p`. -/
def deleteNames (db : QueueDb) (p : String → Bool) : QueueDb :=
  { db with metadata := db.metadata.filter fun name => !p name }

/-! ## The SQLite backend -/

/-- `queue_known` (463-486). -/
def queueKnown (db : QueueDb) (queueName : String) : Bool :=
  queueName ∈ db.metadata || db.messages.any fun r => r.queueName = queueName

/-- `require_queue_exists` before an operation. -/
def requireQueueExists {α : Type} (db : QueueDb) (queueName : String)
    (k : Except QueueError α × QueueDb) : Except QueueError α × QueueDb :=
  if db.queueKnown queueName then k else (.error (queueNotFound queueName), db)

/-- `run_migrations` (401-438) on tables with all their columns: every queue of a message gets its
name. -/
def runMigrations (db : QueueDb) : QueueDb :=
  (db.messages.filter fun r => r.queueName ≠ "").foldl (fun db r => db.insertName r.queueName) db

/-- `recover_stale` (440-461); `now` is the clock in seconds. -/
def recoverStale (db : QueueDb) (staleSec now : ℤ) : QueueDb :=
  let cutoff := now - max staleSec 0
  if staleSec ≤ 0 then db.updateStatus (fun r => r.status = .processing) .pending none
  else
    db.updateStatus
      (fun r => r.status = .processing ∧ ∃ t ∈ r.processingStartedAt, t ≤ cutoff) .pending none

/-- `SQLiteQueueBackend::open` on tables that exist. -/
def reopen (db : QueueDb) (staleSec now : ℤ) : QueueDb := db.runMigrations.recoverStale staleSec now

/-- `create_queue`. -/
def createQueue (db : QueueDb) (name : String) : Except QueueError Unit × QueueDb :=
  if name ∈ db.metadata then (.error (queueAlreadyExists name), db)
  else (.ok (), db.insertName name)

/-- `enqueue` (587-606). -/
def enqueue (db : QueueDb) (queueName : String) (msg : Message) : Except QueueError Unit × QueueDb :=
  db.requireQueueExists queueName
    (.ok (), db.insertMessage queueName msg.id (StoredMessage.fromMessage msg).serialize
      (unixSecs msg.timestamp))

/-- `SELECT … WHERE queue_name = … AND status = 'pending' ORDER BY id LIMIT 1`. -/
def firstPending (db : QueueDb) (queueName : String) : Option QueueRow :=
  db.messages.find? fun r => r.queueName = queueName ∧ r.status = .pending

/-- The answer to a dequeue or a peek from the `data` of a row. -/
def answer (rfc3339 : String → Option ℤ) (now : ℤ) (data : JsonValue) :
    Except QueueError (Option Message) :=
  match StoredMessage.deserialize data with
  | none => .error .serialization
  | some stored => .ok (some (stored.intoMessage rfc3339 now))

/-- `dequeue` (608-654); `now` is the clock. -/
def dequeue (db : QueueDb) (rfc3339 : String → Option ℤ) (now : ℤ) (queueName : String) :
    Except QueueError (Option Message) × QueueDb :=
  db.requireQueueExists queueName <|
    match db.firstPending queueName with
    | none => (.ok none, db)
    | some row =>
      (answer rfc3339 now row.data,
        db.updateStatus (fun r => r.id = row.id) .processing (some (unixSecs now)))

/-- `peek` (656-676). -/
def peek (db : QueueDb) (rfc3339 : String → Option ℤ) (now : ℤ) (queueName : String) :
    Except QueueError (Option Message) × QueueDb :=
  db.requireQueueExists queueName <|
    match db.firstPending queueName with
    | none => (.ok none, db)
    | some row => (answer rfc3339 now row.data, db)

/-- `clear` (694-708). -/
def clear (db : QueueDb) (queueName : String) : Except QueueError Unit × QueueDb :=
  db.requireQueueExists queueName (.ok (), db.deleteMessages fun r => r.queueName = queueName)

/-- The rows that an acknowledgement of a message goes to. -/
def ackedRow (queueName msgId : String) (r : QueueRow) : Bool :=
  r.queueName = queueName ∧ r.messageId = msgId ∧ r.status = .processing

/-- `ack` (735-751). -/
def ack (db : QueueDb) (queueName msgId : String) : Except QueueError Bool × QueueDb :=
  db.requireQueueExists queueName
    (.ok (db.messages.any (ackedRow queueName msgId)), db.deleteMessages (ackedRow queueName msgId))

end QueueDb

end OpenViking.Queue
