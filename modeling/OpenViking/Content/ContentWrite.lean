import OpenViking.Common.System
import OpenViking.Memory.MemoryFile
import Mathlib.Data.Rat.Init

/-!
# Writes of a document

A model of `ContentWriteCoordinator.write` (`storage/content_write.py`) for a resource or a wiki
document: any number of calls on one URI, each advanced from one `await` to the next.  The path lock
is exclusive and may be refused at any time.

* `turn`: one call by itself, on what the file is when its turn comes;
* `step`: the calls interleaved;
* `Linear`: what the calls that got the lock did is what they do one at a time, in that order;
* `Guarded`: the steps that keep a call to its turn.
-/

namespace OpenViking.Content

open Memory (Env MemoryFile)

/-! ## Calls and results -/

inductive WriteMode where
  | create
  | replace
  | append
  deriving DecidableEq, Repr

/-- The arguments of `write` besides the URI. -/
structure WriteCall where
  mode : WriteMode
  content : String
  wait : Bool
  timeout : Option ℚ
  deriving DecidableEq

/-- The document: its normalized URI and the parts of it, the root of the refresh, and whether the
coordinator has a vector database. -/
structure WriteTarget where
  uri : String
  parts : List String
  rootUri : String
  rootScope : String
  contextType : String
  vikingdb : Bool
  notMemory : contextType ≠ "memory"

/-- The error counts of the queues that a call waited for. -/
abbrev QueueStatus := List (String × ℕ)

/-- What the steps outside of the file do in a call: the message for the embedding, the queue that
takes it, the queue of the semantic refresh, and the wait, which ends with `none` by `TimeoutError`. -/
structure WriteFate (E : Type*) where
  converts : Bool
  embedding : Except E Bool
  enqueue : Option E
  waited : Except (Option E) QueueStatus

inductive RefreshStatus where
  | queued
  | complete
  | failed
  | skipped
  deriving DecidableEq, Repr

/-- `_build_write_result` (156-190). -/
structure WriteResult where
  uri : String
  rootUri : String
  contextType : String
  mode : WriteMode
  writtenBytes : ℕ
  contentUpdated : Bool
  semanticStatus : RefreshStatus
  vectorStatus : RefreshStatus
  queueStatus : Option QueueStatus
  deriving DecidableEq

/-- What a call raises; `memoryFile` is what the class of the memory files raises. -/
inductive WriteError (E : Type*) where
  | alreadyExists (resource kind : String)
  | notFound (resource kind : String)
  | resourceBusy (message uri : String)
  | deadlineExceeded (operation : String) (timeout : Option ℚ)
  | memoryFile
  | raised (e : E)
  deriving DecidableEq

/-- How a call ends. -/
abbrev Outcome (E : Type*) := Except (WriteError E) WriteResult

section Steps

variable {D : Type} {E : Type*} (env : Env D) (t : WriteTarget) (c : WriteCall) (f : WriteFate E)

/-- The name of a queue that has errors. -/
def hasErrors (status : QueueStatus) (name : String) : Bool := 0 < (status.lookup name).getD 0

/-- `_refresh_statuses` (216-238). -/
def refreshStatuses (wait : Bool) : Option QueueStatus → RefreshStatus × RefreshStatus
  | none => if wait then (.complete, .complete) else (.queued, .queued)
  | some status =>
    if wait then
      (if hasErrors status "Semantic" then .failed else .complete,
        if hasErrors status "Embedding" then .failed else .complete)
    else (.queued, .queued)

def writeResult (statuses : RefreshStatus × RefreshStatus) (queueStatus : Option QueueStatus) :
    WriteResult where
  uri := t.uri
  rootUri := t.rootUri
  contextType := t.contextType
  mode := c.mode
  writtenBytes := c.content.utf8ByteSize
  contentUpdated := true
  semanticStatus := statuses.1
  vectorStatus := statuses.2
  queueStatus := queueStatus

/-- `_should_skip_semantic_refresh` (428-429). -/
def skipsSemanticRefresh : Bool := t.rootScope = "wiki"

/-- `_is_wiki_node_document_uri` (431-439). -/
def isWikiNodeDocument : List String → Bool
  | [scope, nodes, _, documents, name] =>
    scope = "wiki" && nodes = "nodes" && documents = "documents" && ".md".toList.isSuffixOf name.toList
  | _ => false

/-- `_maybe_enqueue_wiki_document_embedding` (441-496). -/
def maybeEnqueueEmbedding : RefreshStatus :=
  if !isWikiNodeDocument t.parts then .skipped
  else if !t.vikingdb then .skipped
  else if !f.converts then .skipped
  else match f.embedding with
    | .error _ => .failed
    | .ok enqueued => if enqueued then .queued else .failed

/-- `_wait_for_request` (646-660) and `_wait_for_queues` (638-644). -/
def waitForRequest : Except (WriteError E) QueueStatus :=
  match f.waited with
  | .ok status => .ok status
  | .error none => .error (.deadlineExceeded "queue processing" c.timeout)
  | .error (some e) => .error (.raised e)

/-- What is left of the call when the lock is released (286-338). -/
def ending (vectorStatus : RefreshStatus) : Outcome E :=
  if skipsSemanticRefresh t then
    if vectorStatus = .queued && c.wait then
      (waitForRequest c f).map fun status =>
        writeResult t c (.skipped, (refreshStatuses true (some status)).2) (some status)
    else .ok (writeResult t c (.skipped, vectorStatus) none)
  else if c.wait then
    (waitForRequest c f).map fun status =>
      writeResult t c (refreshStatuses c.wait (some status)) (some status)
  else .ok (writeResult t c (refreshStatuses c.wait none) none)

/-- `_decode_bytes` of `viking_fs.py`; `legacy` reads what is not UTF-8. -/
def decodeBytes (legacy : ByteArray → String) (data : ByteArray) : String :=
  match String.fromUTF8? data with
  | some s => s
  | none => legacy data

/-- The text that `_write_in_place` (546-590) writes, from the text of the file. -/
def updatedText (raw : String) : Option String :=
  match c.mode with
  | .append => (MemoryFile.read env raw (some t.uri)).map fun mf =>
      MemoryFile.write env { mf with content := mf.content ++ c.content }
  | _ => some c.content

/-- What a refused lock raises. -/
def busyError : WriteError E :=
  .resourceBusy ("resource is busy and cannot be written now: " ++ t.uri) t.uri

def existsError : WriteError E := .alreadyExists t.uri "file"

def missingError : WriteError E := .notFound t.uri "file"

end Steps

/-! ## One call by itself -/

/-- The calls on a document, and what happens outside of the file in each. -/
structure Setup (ι : Type*) (D : Type) (E : Type*) where
  env : Env D
  legacy : ByteArray → String
  target : WriteTarget
  call : ι → WriteCall
  fate : ι → WriteFate E

namespace Setup

variable {ι E : Type*} {D : Type} (S : Setup ι D E)

/-- The refresh of a call, once its text is written: the status of the embedding, or what
`semantic_queue.enqueue` raises. -/
def refresh (i : ι) : Except (WriteError E) RefreshStatus :=
  if skipsSemanticRefresh S.target then .ok (maybeEnqueueEmbedding S.target (S.fate i))
  else match (S.fate i).enqueue with
    | none => .ok .queued
    | some e => .error (.raised e)

/-- What a call does to the file once it has its text, and how it ends: without its message in the
queue it leaves the file, and so does a call for a wiki document that fails while it waits. -/
def commit (i : ι) (file : Option ByteArray) (text : String) : Option ByteArray × Outcome E :=
  match S.refresh i with
  | .error e => (file, .error e)
  | .ok status =>
    match ending S.target (S.call i) (S.fate i) status with
    | .ok result => (some text.toUTF8, .ok result)
    | .error e =>
      (if skipsSemanticRefresh S.target then file else some text.toUTF8, .error e)

/-- The text that a call writes over a file with these bytes. -/
def textOver (i : ι) (data : ByteArray) : Option String :=
  updatedText S.env S.target (S.call i) (decodeBytes S.legacy data)

/-- **One call at its turn**: a create succeeds on no file, the other modes on a file. -/
def turn (i : ι) (file : Option ByteArray) : Option ByteArray × Outcome E :=
  match (S.call i).mode, file with
  | .create, none => S.commit i none (S.call i).content
  | .create, some data => (some data, .error (existsError S.target))
  | _, none => (none, .error (missingError S.target))
  | _, some data =>
    match S.textOver i data with
    | none => (some data, .error .memoryFile)
    | some text => S.commit i (some data) text

/-- The calls one at a time: the file at the end, and how each call ended. -/
def serial (file : Option ByteArray) : List ι → Option ByteArray × List (ι × Outcome E)
  | [] => (file, [])
  | i :: is =>
    let rest := serial (S.turn i file).1 is
    (rest.1, (i, (S.turn i file).2) :: rest.2)

end Setup

/-! ## The calls interleaved -/

/-- Where a call is between two steps.  `previous` is `previous_content`. -/
inductive Phase (E : Type*) where
  | idle
  | checked
  | ready
  | locked
  | read (previous : Option String)
  | loaded (previous : Option String) (updated : String)
  | written (previous : Option String)
  | queued (previous : Option String) (vectorStatus : RefreshStatus)
  | failing (previous : Option String) (e : WriteError E)
  | leaving (e : WriteError E)
  | released (previous : Option String) (vectorStatus : RefreshStatus)
  | undoing (previous : Option String) (e : WriteError E)
  | removing (e : WriteError E)
  | done (outcome : Outcome E)

/-- The file, who holds its lock, where the calls are, and the calls in the order they got the
lock. -/
structure Writes (ι E : Type*) where
  file : Option ByteArray
  holder : Option ι
  phase : ι → Phase E
  order : List ι

/-- A call gets the lock, is refused it, or goes on. -/
inductive WriteAct (ι : Type*) where
  | acquire (i : ι)
  | busy (i : ι)
  | advance (i : ι)
  deriving DecidableEq

namespace Writes

variable {ι E : Type*} {D : Type} [DecidableEq ι] (S : Setup ι D E)

/-- No call has begun. -/
def init (file : Option ByteArray) : Writes ι E where
  file := file
  holder := none
  phase _ := .idle
  order := []

def goto (s : Writes ι E) (i : ι) (p : Phase E) : Writes ι E :=
  { s with phase := Function.update s.phase i p }

/-- The file and the phase of a call change. -/
def put (s : Writes ι E) (i : ι) (file : Option ByteArray) (p : Phase E) : Writes ι E :=
  { s with file := file, phase := Function.update s.phase i p }

/-- The holder and the phase of a call change. -/
def hold (s : Writes ι E) (i : ι) (holder : Option ι) (p : Phase E) : Writes ι E :=
  { s with holder := holder, phase := Function.update s.phase i p }

/-- `_safe_stat` (400-414), before the lock: what a create finds, and what the others do not. -/
def stat (mode : WriteMode) (file : Option ByteArray) : Phase E :=
  match mode, file with
  | .create, none => .checked
  | .create, some _ => .done (.error (existsError S.target))
  | _, none => .done (.error (missingError S.target))
  | _, some _ => .checked

/-- `_resolve_root_uri` (926-987): outside of the resources the root is looked up at the URI itself. -/
def resolveRoot (mode : WriteMode) (file : Option ByteArray) : Phase E :=
  match mode, file with
  | .create, _ => .ready
  | _, some _ => .ready
  | _, none =>
    if S.target.parts.head? ∈ [some "resources", some "user"] then .ready
    else .done (.error (missingError S.target))

/-- `previous_content` is read under the lock. -/
def readPrevious (mode : WriteMode) (file : Option ByteArray) : Phase E :=
  match mode, file with
  | .create, _ => .read none
  | _, none => .leaving (missingError S.target)
  | _, some data => .read (some (decodeBytes S.legacy data))

/-- What `_write_in_place` is about to write. -/
def load (i : ι) (previous : Option String) (file : Option ByteArray) : Phase E :=
  match (S.call i).mode, file with
  | .append, none => .leaving (missingError S.target)
  | .append, some data =>
    match S.textOver i data with
    | none => .leaving .memoryFile
    | some text => .loaded previous text
  | _, _ => .loaded previous (S.call i).content

/-- `_rollback_direct_write` (354-377) on the file. -/
def rolledBack (mode : WriteMode) (previous : Option String) (file : Option ByteArray) :
    Option ByteArray :=
  match mode, previous with
  | .create, _ => none
  | _, some text => some text.toUTF8
  | _, none => file

/-- A call goes on to its next `await`.  The rollback of a call that has released the lock takes the
lock to remove the file, and gives up when it is refused; it writes the old text without the lock. -/
def advance (s : Writes ι E) (i : ι) : Option (Writes ι E) :=
  let mode := (S.call i).mode
  match s.phase i with
  | .idle => some (s.goto i (stat S mode s.file))
  | .checked => some (s.goto i (resolveRoot S mode s.file))
  | .ready => none
  | .locked => some (s.goto i (readPrevious S mode s.file))
  | .read previous => some (s.goto i (load S i previous s.file))
  | .loaded previous updated => some (s.put i (some updated.toUTF8) (.written previous))
  | .written previous =>
    match S.refresh i with
    | .ok status => some (s.goto i (.queued previous status))
    | .error e => some (s.goto i (.failing previous e))
  | .queued previous status => some (s.hold i none (.released previous status))
  | .failing previous e => some (s.put i (rolledBack mode previous s.file) (.leaving e))
  | .leaving e => some (s.hold i none (.done (.error e)))
  | .released previous status =>
    match ending S.target (S.call i) (S.fate i) status with
    | .ok result => some (s.goto i (.done (.ok result)))
    | .error e =>
      some (s.goto i (if skipsSemanticRefresh S.target then .undoing previous e
        else .done (.error e)))
  | .undoing previous e =>
    match mode, s.file, s.holder with
    | .create, some _, none => some (s.hold i (some i) (.removing e))
    | .create, _, _ => some (s.goto i (.done (.error e)))
    | _, _, _ => some (s.put i (rolledBack mode previous s.file) (.done (.error e)))
  | .removing e => some { s.put i none (.done (.error e)) with holder := none }
  | .done _ => none

def step (s : Writes ι E) : WriteAct ι → Option (Writes ι E)
  | .acquire i =>
    match s.phase i, s.holder with
    | .ready, none => some { s.hold i (some i) .locked with order := s.order ++ [i] }
    | _, _ => none
  | .busy i =>
    match s.phase i with
    | .ready => some (s.goto i (.done (.error (busyError S.target))))
    | _ => none
  | .advance i => s.advance S i

/-! ## One at a time -/

/-- How a call ended, if it did. -/
def outcome (s : Writes ι E) (i : ι) : Option (Outcome E) :=
  match s.phase i with
  | .done r => some r
  | _ => none

/-- No call is under way. -/
def Quiet (s : Writes ι E) : Prop := ∀ i, s.phase i = .idle ∨ ∃ r, s.phase i = .done r

/-- **The writes are linearizable**: when no call is under way, the file and the results of the calls
that got the lock are those of the calls one at a time, in the order they got it, and every other
call raised. -/
structure Linear (start : Option ByteArray) (s : Writes ι E) : Prop where
  file : s.file = (S.serial start s.order).1
  results : ∀ p ∈ (S.serial start s.order).2, s.outcome p.1 = some p.2
  others : ∀ i r, i ∉ s.order → s.outcome i = some r → ∃ e, r = .error e

/-- The call is to be rolled back. -/
def rollsBack (i : ι) : Bool :=
  match S.refresh i with
  | .error _ => true
  | .ok status =>
    skipsSemanticRefresh S.target &&
      !(ending S.target (S.call i) (S.fate i) status).isOk

/-- The call may go on from where it is: a create that got the lock finds no file, a text that is to be
written back was read from its own encoding, and nobody has got the lock since a call that is rolled
back after it released it. -/
def MayAdvance (s : Writes ι E) (i : ι) : Phase E → Prop
  | .locked => (S.call i).mode = .create → s.file = none
  | .loaded previous _ => rollsBack S i = true → (S.call i).mode ≠ .create →
      s.file = previous.map String.toUTF8
  | .undoing _ _ => s.order.getLast? = some i
  | _ => True

/-- **The steps that keep a call to its turn.** -/
def Guarded (s : Writes ι E) : WriteAct ι → Prop
  | .advance i => MayAdvance S s i (s.phase i)
  | _ => True

instance decidableMayAdvance (s : Writes ι E) (i : ι) : (p : Phase E) → Decidable (MayAdvance S s i p)
  | .locked => inferInstanceAs (Decidable ((S.call i).mode = .create → s.file = none))
  | .loaded previous _ => inferInstanceAs (Decidable (rollsBack S i = true →
      (S.call i).mode ≠ .create → s.file = previous.map String.toUTF8))
  | .undoing _ _ => inferInstanceAs (Decidable (s.order.getLast? = some i))
  | .idle | .checked | .ready | .read _ | .written _ | .queued _ _ | .failing _ _ | .leaving _
  | .released _ _ | .removing _ | .done _ => isTrue trivial

instance decidableGuarded (s : Writes ι E) : (a : WriteAct ι) → Decidable (Guarded S s a)
  | .advance i => decidableMayAdvance S s i (s.phase i)
  | .acquire _ => isTrue trivial
  | .busy _ => isTrue trivial

end Writes

end OpenViking.Content
