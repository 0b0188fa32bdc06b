import OpenViking.Common.LikePattern
import OpenViking.Common.SortedMap
import OpenViking.Queue.SqliteQueue
import Mathlib.Data.String.Basic

/-!
# Queues below a queue

What removing and listing queues by name reaches, in both backends: the queue itself and the queues
below it, or more.  The SQLite backend leaves the question to `LIKE`, with the name as the pattern;
the backend in memory removes the one queue, and lists what its name is a prefix of.
`touchesOwnSubtree_iff` says when both reach exactly the queue and those below it.
-/

namespace OpenViking.Queue

/-! ## Model -/

namespace QueueDb

variable (like : String → String → Bool)

/-- `queue_name = ?1 OR queue_name LIKE ?2` with the pattern of a name. -/
def namedBelow (name queueName : String) : Bool := queueName = name || like (name ++ "/%") queueName

/-- `remove_queue` (518-543). -/
def removeQueue (db : QueueDb) (name : String) : Except QueueError Unit × QueueDb :=
  let deletedMessages := db.messages.countP fun r => namedBelow like name r.queueName
  let deletedMeta := db.metadata.countP (namedBelow like name)
  let db := (db.deleteMessages fun r => namedBelow like name r.queueName).deleteNames
    (namedBelow like name)
  if deletedMessages = 0 ∧ deletedMeta = 0 then (.error (queueNotFound name), db) else (.ok (), db)

/-- `list_queues` (553-585). -/
def listQueues (db : QueueDb) (pfx : String) : List String :=
  if pfx = "" then db.metadata.insertionSort (· ≤ ·)
  else (db.metadata.filter (namedBelow like pfx)).insertionSort (· ≤ ·)

end QueueDb

/-- `Queue` of the backend in memory. -/
structure MemoryQueue where
  messages : List Message
  lastEnqueueTime : ℤ

/-- `MemoryBackend`. -/
structure MemoryBackend where
  queues : SortedMap String MemoryQueue

namespace MemoryBackend

/-- `remove_queue` (231-236). -/
def removeQueue (b : MemoryBackend) (name : String) : Except QueueError Unit × MemoryBackend :=
  match b.queues.get name with
  | none => (.error (queueNotFound name), b)
  | some _ => (.ok (), ⟨b.queues.erase name⟩)

/-- `list_queues` (242-252). -/
def listQueues (b : MemoryBackend) (pfx : String) : List String :=
  let names := b.queues.entries.map Prod.fst
  if pfx = "" then names else names.filter fun name => pfx.toList.isPrefixOf name.toList

end MemoryBackend

/-! ## Subtrees -/

/-- The queue itself or one below it. -/
def Below (q name : String) : Prop := name = q ∨ (q ++ "/").toList <+: name.toList

/-- The same queues in both backends. -/
structure Backends where
  db : QueueDb
  memory : MemoryBackend
  same : ∀ name, name ∈ db.metadata ↔ (memory.queues.get name).isSome
  named : ∀ r ∈ db.messages, r.queueName ∈ db.metadata

/-- Removing and listing reach the queue and those below it, and no other, in both backends. -/
structure TouchesOwnSubtree (like : String → String → Bool) (b : Backends) (q : String) :
    Prop where
  sqliteNames : ∀ name, name ∈ (b.db.removeQueue like q).2.metadata ↔
    name ∈ b.db.metadata ∧ ¬ Below q name
  sqliteMessages : ∀ r, r ∈ (b.db.removeQueue like q).2.messages ↔
    r ∈ b.db.messages ∧ ¬ Below q r.queueName
  sqliteList : ∀ name, name ∈ b.db.listQueues like q ↔ name ∈ b.db.metadata ∧ Below q name
  memoryRemove : ∀ name, (Below q name → (b.memory.removeQueue q).2.queues.get name = none) ∧
    (¬ Below q name → (b.memory.removeQueue q).2.queues.get name = b.memory.queues.get name)
  memoryList : ∀ name, name ∈ b.memory.listQueues q ↔
    (b.memory.queues.get name).isSome ∧ Below q name

namespace QueueDb

variable {like : String → String → Bool} (db : QueueDb)

theorem mem_removeQueue (q name : String) :
    name ∈ (db.removeQueue like q).2.metadata ↔
      name ∈ db.metadata ∧ namedBelow like q name = false := by
  unfold removeQueue
  simp only
  split_ifs <;> simp [deleteNames, deleteMessages]

theorem mem_messages_removeQueue (q : String) (r : QueueRow) :
    r ∈ (db.removeQueue like q).2.messages ↔
      r ∈ db.messages ∧ namedBelow like q r.queueName = false := by
  unfold removeQueue
  simp only
  split_ifs <;> simp [deleteNames, deleteMessages]

theorem mem_listQueues (q name : String) :
    name ∈ db.listQueues like q ↔
      name ∈ db.metadata ∧ (q = "" ∨ namedBelow like q name = true) := by
  unfold listQueues
  split_ifs with hq <;> simp [hq]

end QueueDb

namespace MemoryBackend

theorem get_removeQueue (b : MemoryBackend) (q name : String) :
    (b.removeQueue q).2.queues.get name = if name = q then none else b.queues.get name := by
  unfold removeQueue
  cases hq : b.queues.get q with
  | none =>
    split_ifs with h
    · rw [h]
      exact hq
    · rfl
  | some _ => exact SortedMap.get_erase _ _ _

theorem mem_listQueues (b : MemoryBackend) (q name : String) :
    name ∈ b.listQueues q ↔ (b.queues.get name).isSome ∧ q.toList <+: name.toList := by
  have hmem : name ∈ b.queues.entries.map Prod.fst ↔ (b.queues.get name).isSome := by
    rw [Option.isSome_iff_exists]
    simp [SortedMap.mem_entries_iff]
  unfold listQueues
  simp only
  split_ifs with hq
  · subst hq
    rw [hmem]
    simp
  · rw [List.mem_filter, hmem, List.isPrefixOf_iff_prefix]

end MemoryBackend

/-- A text as SQLite's `LIKE` reads it, up to the first NUL. -/
def beforeNul (s : String) : List Char := s.toList.takeWhile (· ≠ '\x00')

theorem namedBelow_eq_true {like : String → String → Bool}
    (hlike : ∀ p s, like p s = true ↔ LikeMatch (beforeNul p) (beforeNul s)) (q name : String) :
    QueueDb.namedBelow like q name = true ↔
      name = q ∨ LikeMatch (beforeNul (q ++ "/%")) (beforeNul name) := by
  rw [QueueDb.namedBelow, Bool.or_eq_true, decide_eq_true_eq, hlike]

theorem prefix_of_slash {q name : String} (h : (q ++ "/").toList <+: name.toList) :
    q.toList <+: name.toList := by
  rw [String.toList_append] at h
  exact (List.prefix_append _ _).trans h

/-- **When queue operations touch only their own subtree.**  No other queue has a name that goes on
from the queue's, and none has a name that the pattern made of the queue's matches. -/
theorem touchesOwnSubtree_iff {like : String → String → Bool}
    (hlike : ∀ p s, like p s = true ↔ LikeMatch (beforeNul p) (beforeNul s)) (b : Backends) (q : String) :
    TouchesOwnSubtree like b q ↔ ∀ name ∈ b.db.metadata, name ≠ q →
      ¬ q.toList <+: name.toList ∧ ¬ LikeMatch (beforeNul (q ++ "/%")) (beforeNul name) := by
  constructor
  · intro h name hname hne
    have hsome := (b.same name).1 hname
    have hnotBelow : ¬ Below q name := by
      intro hbelow
      have hgone := (h.memoryRemove name).1 hbelow
      rw [MemoryBackend.get_removeQueue, if_neg hne] at hgone
      rw [hgone] at hsome
      cases hsome
    refine ⟨fun hpre => ?_, fun hpattern => ?_⟩
    · exact hnotBelow ((h.memoryList name).1
        ((MemoryBackend.mem_listQueues _ _ _).2 ⟨hsome, hpre⟩)).2
    · have hkept := (h.sqliteNames name).2 ⟨hname, hnotBelow⟩
      have hfalse := ((QueueDb.mem_removeQueue _ _ _).1 hkept).2
      rw [(namedBelow_eq_true hlike q name).2 (.inr hpattern)] at hfalse
      cases hfalse
  · intro h
    -- of the queues there are, both backends reach the one, and it is the only one to be reached
    have hnamed : ∀ name ∈ b.db.metadata,
        (QueueDb.namedBelow like q name = true ↔ name = q) := by
      intro name hname
      rw [namedBelow_eq_true hlike]
      refine ⟨fun hor => ?_, .inl⟩
      by_contra hne
      exact (h name hname hne).2 (hor.resolve_left hne)
    have hbelow : ∀ name ∈ b.db.metadata, (Below q name ↔ name = q) := by
      intro name hname
      refine ⟨fun hor => ?_, .inl⟩
      by_contra hne
      exact (h name hname hne).1 (prefix_of_slash (hor.resolve_left hne))
    have hpre : ∀ name ∈ b.db.metadata, (q.toList <+: name.toList ↔ name = q) := by
      intro name hname
      refine ⟨fun hpre => ?_, ?_⟩
      · by_contra hne
        exact (h name hname hne).1 hpre
      · rintro rfl
        exact List.prefix_rfl
    refine ⟨fun name => ?_, fun r => ?_, fun name => ?_, fun name => ?_, fun name => ?_⟩
    · rw [QueueDb.mem_removeQueue]
      refine and_congr_right fun hname => ?_
      rw [hbelow name hname, ← hnamed name hname, Bool.not_eq_true]
    · rw [QueueDb.mem_messages_removeQueue]
      refine and_congr_right fun hr => ?_
      rw [hbelow _ (b.named r hr), ← hnamed _ (b.named r hr), Bool.not_eq_true]
    · rw [QueueDb.mem_listQueues]
      refine and_congr_right fun hname => ?_
      rw [hbelow name hname, hnamed name hname]
      refine ⟨fun hor => ?_, .inr⟩
      rcases hor with rfl | rfl
      · exact (hpre name hname).1 (by simp)
      · rfl
    · rw [MemoryBackend.get_removeQueue]
      constructor
      · intro hb
        split_ifs with hq
        · rfl
        · rw [← Option.not_isSome_iff_eq_none, ← b.same]
          exact fun hname => hq ((hbelow name hname).1 hb)
      · intro hb
        rw [if_neg fun hq => hb (.inl hq)]
    · rw [MemoryBackend.mem_listQueues]
      refine and_congr_right fun hsome => ?_
      have hname := (b.same name).2 hsome
      rw [hpre name hname, hbelow name hname]

/-! ### An underscore in a name -/

/-- SQLite's `LIKE`. -/
def sqliteLike (p s : String) : Bool := likeMatch (beforeNul p) (beforeNul s)

/-- Two queues without messages, in both backends. -/
def underscoreQueues : Backends where
  db := { QueueDb.empty with metadata := ["a_b", "axb/c"] }
  memory := ⟨(SortedMap.empty.put "a_b" ⟨[], 0⟩).put "axb/c" ⟨[], 0⟩⟩
  same := by
    intro name
    simp only [SortedMap.get_put, SortedMap.get_empty]
    split_ifs <;> simp_all
  named := by simp [QueueDb.empty]

theorem touchesOwnSubtree_iff_underscoreQueues :
    TouchesOwnSubtree sqliteLike underscoreQueues "axb/c" := by
  refine (touchesOwnSubtree_iff (fun p s => likeMatch_iff _ _) underscoreQueues "axb/c").2
    fun name hname hne => ?_
  obtain rfl : name = "a_b" := by simpa [underscoreQueues, hne] using hname
  rw [← likeMatch_iff]
  exact ⟨by decide +kernel, by decide +kernel⟩

/-- The removal of one queue takes another one with it. -/
theorem not_touchesOwnSubtree_underscoreQueues : ¬ TouchesOwnSubtree sqliteLike underscoreQueues "a_b" := by
  intro h
  have hgone : "axb/c" ∉ (underscoreQueues.db.removeQueue sqliteLike "a_b").2.metadata := by
    decide +kernel
  refine hgone ((h.sqliteNames "axb/c").2 ⟨by simp [underscoreQueues], ?_⟩)
  rintro (heq | hpre)
  · revert heq
    decide
  · revert hpre
    decide +kernel

end OpenViking.Queue
