import OpenViking.Queue.SemanticProcessor

/-!
# Changes of coalesced messages

Messages with one coalesce key, each with its own list of changed paths.  Every admission takes the
next version of the key, and a message with an earlier version is skipped when its turn comes, with the
paths that it lists.

* `kept_step`: a step that keeps the changes;
* `changes_kept`: a run of such steps loses no change.
-/

namespace OpenViking.Queue

/-! ## What must happen to a changed path -/

/-- The event completes a message that lists the path. -/
def Event.completes (p : String) : Event → Bool
  | .returned r => r.completed ∧ p ∈ r.msg.changedPaths
  | _ => false

/-- Every path that came with a message of the key was in a message that was completed later, or is
still open. -/
def CoveredUpTo (isOpen : String → Prop) (key : String) : List Event → Prop
  | [] => True
  | .enqueued msg :: later =>
    (msg.coalesceKey = key →
      ∀ p ∈ msg.changedPaths, later.any (Event.completes p) = true ∨ isOpen p) ∧
      CoveredUpTo isOpen key later
  | _ :: later => CoveredUpTo isOpen key later

/-- Every path that came with a message of the key was in a message that was completed later. -/
def AllCovered (key : String) (history : List Event) : Prop :=
  CoveredUpTo (fun _ => False) key history

instance decidableCoveredUpTo (isOpen : String → Prop) [DecidablePred isOpen] (key : String) :
    (history : List Event) → Decidable (CoveredUpTo isOpen key history)
  | [] => isTrue trivial
  | .enqueued msg :: later =>
    have := decidableCoveredUpTo isOpen key later
    inferInstanceAs (Decidable ((msg.coalesceKey = key →
      ∀ p ∈ msg.changedPaths, later.any (Event.completes p) = true ∨ isOpen p) ∧
      CoveredUpTo isOpen key later))
  | .reenqueued _ :: later => decidableCoveredUpTo isOpen key later
  | .returned _ :: later => decidableCoveredUpTo isOpen key later

instance (key : String) (history : List Event) : Decidable (AllCovered key history) :=
  inferInstanceAs (Decidable (CoveredUpTo (fun _ => False) key history))

theorem CoveredUpTo.append {A B : String → Prop} {key : String} {history : List Event} {e : Event}
    (h : CoveredUpTo A key history) (hAB : ∀ p, A p → e.completes p = true ∨ B p)
    (hnew : ∀ msg, e = .enqueued msg → msg.coalesceKey = key → ∀ p ∈ msg.changedPaths, B p) :
    CoveredUpTo B key (history ++ [e]) := by
  induction history with
  | nil =>
    cases e with
    | enqueued msg => exact ⟨fun hkey p hp => .inr (hnew msg rfl hkey p hp), trivial⟩
    | reenqueued msg => trivial
    | returned r => trivial
  | cons e' history ih =>
    cases e' with
    | enqueued msg =>
      refine ⟨fun hkey p hp => ?_, ih h.2⟩
      show (history ++ [e]).any (Event.completes p) = true ∨ B p
      rw [List.any_append, List.any_cons, List.any_nil, Bool.or_false]
      rcases h.1 hkey p hp with hdone | hopen
      · exact .inl (by rw [hdone, Bool.true_or])
      · rcases hAB p hopen with he | hB
        · exact .inl (by rw [he, Bool.or_true])
        · exact .inr hB
    | reenqueued msg => exact ih h
    | returned r => exact ih h

theorem CoveredUpTo.mono {A B : String → Prop} {key : String} {history : List Event}
    (h : CoveredUpTo A key history) (hAB : ∀ p, A p → B p) : CoveredUpTo B key history := by
  induction history with
  | nil => trivial
  | cons e history ih =>
    cases e with
    | enqueued msg => exact ⟨fun hkey p hp => (h.1 hkey p hp).imp_right (hAB p), ih h.2⟩
    | reenqueued msg => exact ih h
    | returned r => exact ih h

namespace Semantic

/-! ## Messages that will be processed -/

/-- `_SEMANTIC_COALESCE_VERSION` of a key. -/
def current (s : Semantic) (key : String) : ℕ := (s.queue.coalesceVersion.get key).getD 0

/-- A message in hand that will not be skipped: it has the latest version of its key, or is about to
get the next one. -/
def Going (s : Semantic) (e : SemanticMsg × Stage) : Prop :=
  e.1.coalesceVersion = s.current e.1.coalesceKey ∨ ∃ afterError, e.2 = .requeueing afterError

/-- A path that a message of the key lists that will be processed. -/
inductive OpenPath (s : Semantic) (key p : String) : Prop
  | queued (msg : SemanticMsg) (hmem : msg ∈ s.queue.messages) (hkey : msg.coalesceKey = key)
      (hlast : msg.coalesceVersion = s.current key) (hp : p ∈ msg.changedPaths)
  | inHand (e : SemanticMsg × Stage) (hmem : e ∈ s.inHand) (hkey : e.1.coalesceKey = key)
      (hgoing : s.Going e) (hp : p ∈ e.1.changedPaths)

/-- The messages of the key in the queue and in `hand`. -/
def outstanding (s : Semantic) (key : String) (hand : List (SemanticMsg × Stage)) :
    List SemanticMsg :=
  (s.queue.messages ++ hand.map Prod.fst).filter fun m => m.coalesceKey = key

/-- The message lists every path that those lists hold. -/
def Subsumes (ms : List SemanticMsg) (msg : SemanticMsg) : Prop :=
  ∀ m ∈ ms, ∀ p ∈ m.changedPaths, p ∈ msg.changedPaths

instance (ms : List SemanticMsg) (msg : SemanticMsg) : Decidable (Subsumes ms msg) := by
  unfold Subsumes
  infer_instance

/-- A step that loses no change of the key.  A message that takes the next version lists what the
others of its key list; its write fails only when there are no others, or when it goes on to be put
back once more; and no message is given up that has the latest version. -/
def KeepsChanges (key : String) (s : Semantic) : SemanticAct → Prop
  | .enqueue msg writes =>
    msg.coalesceKey = key →
      Subsumes (s.outstanding key s.inHand) msg ∧
        (writes = false → s.outstanding key s.inHand = [])
  | .check i _ =>
    ∀ e ∈ s.inHand[i]?, e.2 = .arrived → e.1.coalesceKey = key → e.1.wellFormed = false →
      e.1.coalesceVersion ≠ s.current key
  | .outcome i (.error error) =>
    ∀ e ∈ s.inHand[i]?, e.2 = .processing → e.1.coalesceKey = key →
      error = .inputTooLarge ∨ error = .permanent → e.1.coalesceVersion ≠ s.current key
  | .requeue i writes error =>
    ∀ e ∈ s.inHand[i]?, ∀ afterError, e.2 = .requeueing afterError → e.1.coalesceKey = key →
      Subsumes (s.outstanding key (s.inHand.eraseIdx i)) e.1 ∧
        (writes = false → afterError = false ∧ error ≠ .inputTooLarge ∧ error ≠ .permanent)
  | _ => True

instance (key : String) (s : Semantic) (a : SemanticAct) : Decidable (KeepsChanges key s a) := by
  cases a with
  | outcome i o => cases o <;> unfold KeepsChanges <;> infer_instance
  | wait t => exact isTrue trivial
  | enqueue msg writes => unfold KeepsChanges; infer_instance
  | dequeue => exact isTrue trivial
  | check i breakerOpen => unfold KeepsChanges; infer_instance
  | requeue i writes error => unfold KeepsChanges; infer_instance

/-! ## Messages in hand -/

variable {i : ℕ}

theorem mem_eraseIdx_or_eq {α : Type*} {l : List α} {x y : α} (hi : l[i]? = some y)
    (hx : x ∈ l) : x = y ∨ x ∈ l.eraseIdx i := by
  obtain ⟨hlt, rfl⟩ := List.getElem?_eq_some_iff.1 hi
  exact List.mem_cons.1 ((List.getElem_cons_eraseIdx_perm hlt).mem_iff.2 hx)

theorem mem_set_of_mem_eraseIdx {α : Type*} {l : List α} {x y : α} (hi : i < l.length) :
    x ∈ l.set i y ↔ x = y ∨ x ∈ l.eraseIdx i := by
  rw [(List.set_perm_cons_eraseIdx hi y).mem_iff, List.mem_cons]

/-- The changes of the key are kept: each changed path was in a message completed later, or is open. -/
def Kept (key : String) (s : Semantic) : Prop := CoveredUpTo (s.OpenPath key) key s.history

variable {key : String} {e : SemanticMsg × Stage}

variable {s u : Semantic} {msg : SemanticMsg}

/-- Return from a message whose paths are not open, or that is completed. -/
theorem kept_finish {v : Verdict} (h : s.Kept key) (hi : s.inHand[i]? = some e)
    (hv : e.1.coalesceKey = key → s.Going e → v = .completed ∧ msg = e.1) :
    (s.finish i msg v).Kept key := by
  refine CoveredUpTo.append h (fun p hp => ?_) (fun _ heq => Event.noConfusion heq)
  cases hp with
  | queued m hmem hkey hlast hp => exact .inr (.queued m hmem hkey hlast hp)
  | inHand e' hmem hkey hgoing hp =>
    rcases mem_eraseIdx_or_eq hi hmem with rfl | hmem
    · obtain ⟨rfl, rfl⟩ := hv hkey hgoing
      refine .inl ?_
      simp only [Event.completes, decide_true, true_and, hp]
    · exact .inr (.inHand e' hmem hkey hgoing hp)

/-- Going on with a message to a stage where its paths stay open. -/
theorem kept_goOn {stage : Stage} (h : s.Kept key) (hi : s.inHand[i]? = some e)
    (hgo : e.1.coalesceKey = key → s.Going e → msg = e.1 ∧ s.Going (msg, stage)) :
    (s.goOn i msg stage).Kept key := by
  have hlt := (List.getElem?_eq_some_iff.1 hi).1
  refine CoveredUpTo.mono h fun p hp => ?_
  cases hp with
  | queued m hmem hkey hlast hp => exact .queued m hmem hkey hlast hp
  | inHand e' hmem hkey hgoing hp =>
    rcases mem_eraseIdx_or_eq hi hmem with rfl | hmem
    · obtain ⟨rfl, hgoing⟩ := hgo hkey hgoing
      exact .inHand (e'.1, stage) ((mem_set_of_mem_eraseIdx hlt).2 (.inl rfl)) hkey hgoing hp
    · exact .inHand e' ((mem_set_of_mem_eraseIdx hlt).2 (.inr hmem)) hkey hgoing hp

variable {error : ErrorClass}

theorem kept_handleError (h : s.Kept key) (hi : s.inHand[i]? = some e)
    (hv : e.1.coalesceKey = key → s.Going e →
      msg = e.1 ∧ error ≠ .inputTooLarge ∧ error ≠ .permanent) : (s.handleError i msg error).Kept key := by
  have hgo : (s.goOn i msg (.requeueing true)).Kept key :=
    kept_goOn h hi fun hkey hgoing => ⟨(hv hkey hgoing).1, .inr ⟨true, rfl⟩⟩
  cases error with
  | lock => exact hgo
  | inputTooLarge => exact kept_finish h hi fun hkey hgoing => absurd rfl (hv hkey hgoing).2.1
  | permanent => exact kept_finish h hi fun hkey hgoing => absurd rfl (hv hkey hgoing).2.2
  | other => exact hgo

theorem not_going_of_isStale {stage : Stage}
    (hstage : ∀ afterError, stage ≠ .requeueing afterError) (h : s.queue.isStale msg = true) :
    ¬ s.Going (msg, stage) := by
  rintro (hlast | ⟨afterError, heq⟩)
  · unfold SemanticQueue.isStale at h
    split_ifs at h
    have hlt := of_decide_eq_true h
    exact absurd hlast (Nat.ne_of_lt hlt)
  · exact hstage afterError heq

/-! ## Admission of a message of the key -/

/-- A message that takes the next version of its key. -/
def versioned (s : Semantic) (msg : SemanticMsg) : SemanticMsg :=
  { msg with coalesceVersion := s.current msg.coalesceKey + 1 }

/-- The queue when the version is taken, and the message written. -/
def afterEnqueue (s : Semantic) (msg : SemanticMsg) (writes : Bool) : SemanticQueue :=
  { s.queue with
    messages := if writes then s.queue.messages ++ [s.versioned msg] else s.queue.messages
    coalesceVersion :=
      s.queue.coalesceVersion.set msg.coalesceKey (s.current msg.coalesceKey + 1) }

theorem enqueue_keyed (s : Semantic) (hkey : msg.coalesceKey ≠ "") (writes : Bool) :
    s.queue.enqueue s.now writes msg =
      (if writes then .stored else .failed, s.versioned msg, s.afterEnqueue msg writes) := by
  have hwin : s.queue.inWindow s.now msg = false := by
    simp [SemanticQueue.inWindow, hkey]
  have hopen : s.queue.openWindow s.now msg = s.queue := by
    rw [SemanticQueue.openWindow, if_neg fun h => hkey h.2]
  rw [SemanticQueue.enqueue_of_not_inWindow hwin, hopen, SemanticQueue.version, if_neg hkey]
  cases writes <;> rfl

variable {q : SemanticQueue}

theorem get_version_other {now : ℚ} (hkey : msg.coalesceKey ≠ key) :
    ((q.openWindow now msg).version msg).2.coalesceVersion.get key = q.coalesceVersion.get key := by
  have hopen : (q.openWindow now msg).coalesceVersion = q.coalesceVersion := by
    unfold SemanticQueue.openWindow
    dsimp only
    split_ifs <;> rfl
  unfold SemanticQueue.version
  split_ifs with hempty
  · exact congrArg (Dict.get · key) hopen
  · show Dict.get (Dict.set _ _ _) key = _
    rw [Dict.get_set, if_neg (Ne.symm hkey), hopen]

/-- The admission of a message of another key. -/
theorem enqueue_other (q : SemanticQueue) (now : ℚ) (writes : Bool) (hkey : msg.coalesceKey ≠ key) :
    (q.enqueue now writes msg).2.2.coalesceVersion.get key = q.coalesceVersion.get key ∧
      ∀ m ∈ q.messages, m ∈ (q.enqueue now writes msg).2.2.messages := by
  cases hwin : q.inWindow now msg with
  | true =>
    rw [SemanticQueue.enqueue_of_inWindow hwin]
    exact ⟨rfl, fun m hm => hm⟩
  | false =>
    rw [SemanticQueue.enqueue_of_not_inWindow hwin]
    cases writes with
    | true => exact ⟨get_version_other hkey, fun m hm => List.mem_append_left _ hm⟩
    | false =>
      refine ⟨get_version_other hkey, fun m hm => ?_⟩
      rw [if_neg (by simp), SemanticQueue.messages_version, SemanticQueue.messages_openWindow]
      exact hm

theorem key_enqueue (q : SemanticQueue) (now : ℚ) (writes : Bool) (msg : SemanticMsg) :
    (q.enqueue now writes msg).2.1.coalesceKey = msg.coalesceKey := by
  have hversion : ∀ q : SemanticQueue, (q.version msg).1.coalesceKey = msg.coalesceKey := by
    intro q
    unfold SemanticQueue.version
    split_ifs <;> rfl
  cases hwin : q.inWindow now msg with
  | true => rw [SemanticQueue.enqueue_of_inWindow hwin]
  | false =>
    rw [SemanticQueue.enqueue_of_not_inWindow hwin]
    cases writes <;> exact hversion _

/-- A queue in which the key's version and the messages are still there keeps its paths open. -/
theorem OpenPath.of_queue {key p : String} {now : ℚ} {history : List Event}
    (hversion : q.coalesceVersion.get key = s.queue.coalesceVersion.get key)
    (hmem : ∀ m ∈ s.queue.messages, m ∈ q.messages) (h : s.OpenPath key p) :
    OpenPath { s with queue := q, now, history } key p := by
  have hcur : current { s with queue := q, now, history } key = s.current key := by
    rw [current, hversion, current]
  cases h with
  | queued m hm hkey hlast hp => exact .queued m (hmem m hm) hkey (hlast.trans hcur.symm) hp
  | inHand e he hkey hgoing hp =>
    refine .inHand e he hkey ?_ hp
    exact hgoing.imp_left fun hlast => by rw [hlast, hkey, hcur]

/-- Every open path is in a message that subsumes those of its key. -/
theorem OpenPath.mem_of_subsumes {key p : String}
    {hand : List (SemanticMsg × Stage)} (hsub : Subsumes (s.outstanding key hand) msg)
    (hhand : ∀ e ∈ s.inHand, e.1 = msg ∨ e ∈ hand) (h : s.OpenPath key p) : p ∈ msg.changedPaths := by
  cases h with
  | queued m hm hkey hlast hp =>
    refine hsub m ?_ p hp
    simp [outstanding, hm, hkey]
  | inHand e he hkey hgoing hp =>
    rcases hhand e he with heq | hmem
    · exact heq ▸ hp
    · refine hsub e.1 ?_ p hp
      simp only [outstanding, List.mem_filter, List.mem_append, List.mem_map, decide_eq_true_eq]
      exact ⟨.inr ⟨e, hmem, rfl⟩, hkey⟩

/-! ## Steps -/

theorem Kept.of_queue (hversion : q.coalesceVersion.get key = s.queue.coalesceVersion.get key)
    (hmem : ∀ m ∈ s.queue.messages, m ∈ q.messages) (h : s.Kept key) :
    Kept key { s with queue := q } :=
  CoveredUpTo.mono h fun _ hp => hp.of_queue hversion hmem

variable {writes : Bool}

/-- A message that is put back, or not, under another key. -/
theorem kept_requeue_other {afterError : Bool} (h : s.Kept key)
    (hi : s.inHand[i]? = some (msg, .requeueing afterError)) (hkey : msg.coalesceKey ≠ key)
    (hstep : s.step (.requeue i writes error) = some u) : u.Kept key := by
  obtain ⟨hversion, hmem⟩ := enqueue_other s.queue s.now writes hkey
  have hkey' := key_enqueue s.queue s.now writes msg
  simp only [step, hi] at hstep
  generalize s.queue.enqueue s.now writes msg = answer at hstep hversion hmem hkey'
  obtain ⟨result, msg', q⟩ := answer
  have hq : Kept key { s with queue := q } := h.of_queue hversion hmem
  have hnot : ∀ {P : Prop}, msg'.coalesceKey = key → P := fun heq =>
    absurd (hkey'.symm.trans heq) hkey
  have hnot : ∀ {P : Prop}, msg.coalesceKey = key → P := fun heq => absurd heq hkey
  cases result with
  | stored =>
    obtain rfl := Option.some_inj.1 hstep
    have hre : Kept key { s with queue := q, history := s.history ++ [.reenqueued msg'] } :=
      CoveredUpTo.append h (fun p hp => .inr (hp.of_queue hversion hmem))
        (fun _ heq => Event.noConfusion heq)
    exact kept_finish hre hi fun heq => hnot heq
  | deduplicated =>
    obtain rfl := Option.some_inj.1 hstep
    exact kept_finish hq hi fun heq => hnot heq
  | failed =>
    cases afterError with
    | true =>
      obtain rfl := Option.some_inj.1 hstep
      exact kept_finish hq hi fun heq => hnot heq
    | false =>
      obtain rfl := Option.some_inj.1 hstep
      exact kept_handleError hq hi fun heq => hnot heq

/-- A message of the key that takes the next version and subsumes the others, once it is written. -/
theorem openPath_written {key p : String}
    (hkey : msg.coalesceKey = key) (hu : u.queue = s.afterEnqueue msg true)
    (hp : p ∈ msg.changedPaths) : u.OpenPath key p := by
  refine .queued (s.versioned msg) ?_ hkey ?_ hp
  · rw [hu]
    exact List.mem_append_right _ (List.mem_singleton_self _)
  · rw [current, hu, ← hkey]
    simp [afterEnqueue, versioned]

/-- A message of the key that is put back, or not. -/
theorem kept_requeue_key (hne : key ≠ "") {afterError : Bool} (h : s.Kept key)
    (hi : s.inHand[i]? = some (msg, .requeueing afterError)) (hkey : msg.coalesceKey = key)
    (hsub : Subsumes (s.outstanding key (s.inHand.eraseIdx i)) msg)
    (hwrites : writes = false → afterError = false ∧ error ≠ .inputTooLarge ∧ error ≠ .permanent)
    (hstep : s.step (.requeue i writes error) = some u) : u.Kept key := by
  have hlt := (List.getElem?_eq_some_iff.1 hi).1
  have hopen : ∀ p, s.OpenPath key p → p ∈ msg.changedPaths := fun p hp =>
    hp.mem_of_subsumes hsub fun e he => (mem_eraseIdx_or_eq hi he).imp_left fun heq => by rw [heq]
  simp only [step, hi, enqueue_keyed s (hkey ▸ hne)] at hstep
  cases writes with
  | true =>
    obtain rfl := Option.some_inj.1 hstep
    have hwritten := CoveredUpTo.append (e := .reenqueued (s.versioned msg)) h
      (fun p hp => .inr (hopen p hp)) (fun _ heq => Event.noConfusion heq)
    refine CoveredUpTo.append hwritten (fun p hp => .inr ?_) (fun _ heq => Event.noConfusion heq)
    exact openPath_written hkey rfl hp
  | false =>
    obtain ⟨rfl, hlarge, hpermanent⟩ := hwrites rfl
    have hgoing : Kept key ({ s with queue := s.afterEnqueue msg false }.goOn i (s.versioned msg)
        (.requeueing true)) := by
      refine CoveredUpTo.mono h fun p hp => ?_
      exact .inHand (s.versioned msg, .requeueing true)
        ((mem_set_of_mem_eraseIdx hlt).2 (.inl rfl)) hkey (.inr ⟨true, rfl⟩) (hopen p hp)
    obtain rfl := Option.some_inj.1 hstep
    cases error with
    | lock => exact hgoing
    | inputTooLarge => exact absurd rfl hlarge
    | permanent => exact absurd rfl hpermanent
    | other => exact hgoing

/-- A message that comes into the queue, or not. -/
theorem kept_enqueue (hne : key ≠ "") (h : s.Kept key) (hc : KeepsChanges key s (.enqueue msg writes))
    (hstep : s.step (.enqueue msg writes) = some u) : u.Kept key := by
  by_cases hkey : msg.coalesceKey = key
  · obtain ⟨hsub, hnone⟩ := hc hkey
    have hopen : ∀ p, s.OpenPath key p → p ∈ msg.changedPaths := fun p hp =>
      hp.mem_of_subsumes hsub fun e he => .inr he
    simp only [step, enqueue_keyed s (hkey ▸ hne)] at hstep
    cases writes with
    | true =>
      obtain rfl := Option.some_inj.1 hstep
      refine CoveredUpTo.append h (fun p hp => .inr (openPath_written hkey rfl (hopen p hp))) ?_
      intro m heq _ p hp
      obtain rfl := Event.enqueued.inj heq
      exact openPath_written hkey rfl hp
    | false =>
      obtain rfl := Option.some_inj.1 hstep
      have hempty := hnone rfl
      have hnot : ∀ m ∈ s.outstanding key s.inHand, False := fun m hm => by
        rw [hempty] at hm
        cases hm
      refine CoveredUpTo.mono h fun p hp => ?_
      have hnoPath : Subsumes (s.outstanding key s.inHand) { msg with changes := none } :=
        fun m hm => (hnot m hm).elim
      have hmem := hp.mem_of_subsumes hnoPath fun e he => .inr he
      cases hmem
  · obtain ⟨hversion, hmem⟩ := enqueue_other s.queue s.now writes hkey
    have hkey' := key_enqueue s.queue s.now writes msg
    simp only [step] at hstep
    generalize s.queue.enqueue s.now writes msg = answer at hstep hversion hmem hkey'
    obtain ⟨result, msg', q⟩ := answer
    obtain rfl := Option.some_inj.1 hstep
    cases result with
    | stored =>
      refine CoveredUpTo.append h (fun p hp => .inr (hp.of_queue hversion hmem)) ?_
      intro m heq hm
      obtain rfl := Event.enqueued.inj heq
      exact absurd (hkey'.symm.trans hm) hkey
    | deduplicated => exact h.of_queue hversion hmem
    | failed => exact h.of_queue hversion hmem

/-- **A step that keeps the changes.** -/
theorem kept_step (hne : key ≠ "") {a : SemanticAct}
    (h : s.Kept key) (hc : KeepsChanges key s a) (hstep : s.step a = some u) : u.Kept key := by
  cases a with
  | wait t =>
    obtain ⟨-, heq⟩ := Option.ite_none_right_eq_some.1 hstep
    obtain rfl := Option.some_inj.1 heq
    exact CoveredUpTo.mono h fun p hp => OpenPath.of_queue rfl (fun m hm => hm) hp
  | enqueue msg writes => exact kept_enqueue hne h hc hstep
  | dequeue =>
    cases hq : s.queue.messages with
    | nil => simp [step, hq] at hstep
    | cons msg messages =>
      simp only [step, hq, Option.some_inj] at hstep
      subst hstep
      refine CoveredUpTo.mono h fun p hp => ?_
      cases hp with
      | queued m hmem hkey hlast hp =>
        rcases List.mem_cons.1 (hq ▸ hmem) with rfl | hmem
        · exact .inHand (m, .arrived) (List.mem_append_right _ (List.mem_singleton_self _)) hkey
            (.inl (by rw [hlast, hkey]; rfl)) hp
        · exact .queued m hmem hkey hlast hp
      | inHand e hmem hkey hgoing hp =>
        exact .inHand e (List.mem_append_left _ hmem) hkey hgoing hp
  | check i breakerOpen =>
    cases hi : s.inHand[i]? with
    | none => simp [step, hi] at hstep
    | some e =>
      obtain ⟨msg, stage⟩ := e
      cases stage with
      | processing => simp [step, hi] at hstep
      | requeueing afterError => simp [step, hi] at hstep
      | arrived =>
        simp only [step, hi] at hstep
        have hgoing : s.Going (msg, .arrived) → msg.coalesceVersion = s.current msg.coalesceKey := by
          rintro (hlast | ⟨afterError, heq⟩)
          · exact hlast
          · cases heq
        split_ifs at hstep with hwell hstale
        · obtain rfl := Option.some_inj.1 hstep
          refine kept_finish h hi fun hkey hgo => absurd ?_ (hc _ hi rfl hkey hwell)
          rw [← hkey]
          exact hgoing hgo
        · obtain rfl := Option.some_inj.1 hstep
          exact kept_finish h hi fun _ hgo =>
            absurd hgo (not_going_of_isStale (fun _ => Stage.noConfusion) hstale)
        all_goals
          obtain rfl := Option.some_inj.1 hstep
          exact kept_goOn h hi fun _ hgo => ⟨rfl, .inl (hgoing hgo)⟩
  | outcome i o =>
    cases hi : s.inHand[i]? with
    | none => simp [step, hi] at hstep
    | some e =>
      obtain ⟨msg, stage⟩ := e
      cases stage with
      | arrived => simp [step, hi] at hstep
      | requeueing afterError => simp [step, hi] at hstep
      | processing =>
        simp only [step, hi] at hstep
        cases o with
        | completed =>
          obtain rfl := Option.some_inj.1 hstep
          exact kept_finish h hi fun _ _ => ⟨rfl, rfl⟩
        | stale =>
          obtain ⟨hstale, heq⟩ := Option.ite_none_right_eq_some.1 hstep
          obtain rfl := Option.some_inj.1 heq
          exact kept_finish h hi fun _ hgo =>
            absurd hgo (not_going_of_isStale (fun _ => Stage.noConfusion) hstale)
        | error error =>
          obtain rfl := Option.some_inj.1 hstep
          refine kept_handleError h hi fun hkey hgo => ⟨rfl, ?_⟩
          have hlast : msg.coalesceVersion = s.current key := by
            rcases hgo with hlast | ⟨afterError, heq⟩
            · rw [← hkey]
              exact hlast
            · cases heq
          exact ⟨fun heq => hc _ hi rfl hkey (.inl heq) hlast,
            fun heq => hc _ hi rfl hkey (.inr heq) hlast⟩
  | requeue i writes error =>
    cases hi : s.inHand[i]? with
    | none => simp [step, hi] at hstep
    | some e =>
      obtain ⟨msg, stage⟩ := e
      cases stage with
      | arrived => simp [step, hi] at hstep
      | processing => simp [step, hi] at hstep
      | requeueing afterError =>
        by_cases hkey : msg.coalesceKey = key
        · obtain ⟨hsub, hwrites⟩ := hc _ hi afterError rfl hkey
          exact kept_requeue_key hne h hi hkey hsub hwrites hstep
        · exact kept_requeue_other h hi hkey hstep

/-! ## Runs -/

/-- Nothing waits in the queue and nothing is in hand. -/
def Drained (s : Semantic) : Prop := s.queue.messages = [] ∧ s.inHand = []

instance (s : Semantic) : Decidable s.Drained := inferInstanceAs (Decidable (_ ∧ _))

/-- **Coalescing loses no change.**  In a run whose steps all keep the changes of a key, once the
queue is drained, every path that came with a message of the key was in a message that was completed
after it. -/
theorem changes_kept {key : String} (hne : key ≠ "") {s : Semantic}
    (hrun : Reaches step (KeepsChanges key) start s) (hdrained : s.Drained) : AllCovered key s.history := by
  have hstart : Kept key start := trivial
  have hkept : s.Kept key := hrun.invariant hstart fun _ _ _ h hc hstep => kept_step hne h hc hstep
  refine CoveredUpTo.mono hkept fun p hp => ?_
  cases hp with
  | queued m hmem => simp [hdrained.1] at hmem
  | inHand e hmem => simp [hdrained.2] at hmem

/-- What a write of a file of `viking://resources/demo` enqueues. -/
def writeMsg (id file : String) : SemanticMsg where
  id := id
  uri := "viking://resources/demo"
  contextType := "resource"
  accountId := "default"
  userId := "default"
  peerId := "default"
  coalesceKey := "resource|default|default|default|viking://resources/demo"
  coalesceVersion := 0
  changes := some ⟨[], ["viking://resources/demo/" ++ file], []⟩

/-- The key of the messages of that directory. -/
def demoKey : String := "resource|default|default|default|viking://resources/demo"

/-- Two files are written, the second after the message of the first is done. -/
def writesInTurn : List SemanticAct :=
  [.enqueue (writeMsg "m1" "a.md") true, .dequeue, .check 0 false, .outcome 0 .completed,
    .enqueue (writeMsg "m2" "b.md") true, .dequeue, .check 0 false, .outcome 0 .completed]

theorem changes_kept_writesInTurn :
    ∃ s, runActs step start writesInTurn = some s ∧ AllCovered demoKey s.history := by
  have hdrained : ∀ s ∈ runActs step start writesInTurn, s.Drained := by decide +kernel
  obtain ⟨s, hrun⟩ := Option.isSome_iff_exists.1
    (by decide +kernel : (runActs step start writesInTurn).isSome = true)
  exact ⟨s, hrun, changes_kept (by decide) (Reaches.of_runActs (by decide +kernel) hrun)
    (hdrained s hrun)⟩

/-- Two files are written before the first message is taken out. -/
def writesAtOnce : List SemanticAct :=
  [.enqueue (writeMsg "m1" "a.md") true, .enqueue (writeMsg "m2" "b.md") true,
    .dequeue, .check 0 false, .dequeue, .check 0 false, .outcome 0 .completed]

/-- The queue is drained, and no message that lists the first file was completed. -/
theorem not_allCovered_writesAtOnce :
    ∃ s ∈ runActs step start writesAtOnce, s.Drained ∧ ¬ AllCovered demoKey s.history := by
  decide +kernel

end Semantic

end OpenViking.Queue
