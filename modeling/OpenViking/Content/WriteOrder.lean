import OpenViking.Content.ContentWrite

/-!
# Writes in the order of the lock

The calls of `ContentWriteCoordinator.write` on one document against the same calls one at a time.

* `Stuck`: a call that is to be rolled back has been overtaken, and no guarded step ends it;
* `reaches_linear`: in every guarded run the writes are linearizable.
-/

namespace OpenViking.Content

open Memory (Env MemoryFile)

variable {ι E : Type*} {D : Type}

/-! ## One at a time -/

namespace Setup

variable (S : Setup ι D E)

theorem serial_append (file : Option ByteArray) (is : List ι) (i : ι) :
    S.serial file (is ++ [i]) =
      ((S.turn i (S.serial file is).1).1,
        (S.serial file is).2 ++ [(i, (S.turn i (S.serial file is).1).2)]) := by
  induction is generalizing file with
  | nil => rfl
  | cons j is ih => simp only [List.cons_append, serial, ih]

theorem map_fst_serial (file : Option ByteArray) (is : List ι) :
    (S.serial file is).2.map Prod.fst = is := by
  induction is generalizing file with
  | nil => rfl
  | cons j is ih => simp only [serial, List.map_cons, ih]

variable {file : Option ByteArray}

theorem mem_of_mem_serial {is : List ι} {p : ι × Outcome E} (h : p ∈ (S.serial file is).2) : p.1 ∈ is := by
  rw [← S.map_fst_serial file is]
  exact List.mem_map_of_mem h

theorem exists_of_mem_serial (file : Option ByteArray) {is : List ι} {i : ι} (h : i ∈ is) :
    ∃ r, (i, r) ∈ (S.serial file is).2 := by
  rw [← S.map_fst_serial file is] at h
  obtain ⟨p, hp, rfl⟩ := List.mem_map.1 h
  exact ⟨p.2, hp⟩

variable {S} {i : ι}

theorem turn_missing (h : (S.call i).mode ≠ .create) :
    S.turn i none = (none, .error (missingError S.target)) := by
  unfold turn
  cases hm : (S.call i).mode with
  | create => exact absurd hm h
  | replace => rfl
  | append => rfl

theorem turn_create (h : (S.call i).mode = .create) :
    S.turn i none = S.commit i none (S.call i).content := by
  simp only [turn, h]

theorem turn_over (h : (S.call i).mode ≠ .create) (data : ByteArray) :
    S.turn i (some data) =
      match S.textOver i data with
      | none => (some data, .error .memoryFile)
      | some text => S.commit i (some data) text := by
  unfold turn
  cases hm : (S.call i).mode with
  | create => exact absurd hm h
  | replace => rfl
  | append => rfl

theorem textOver_of_ne_append (h : (S.call i).mode ≠ .append) (data : ByteArray) :
    S.textOver i data = some (S.call i).content := by
  unfold textOver updatedText
  cases hm : (S.call i).mode with
  | create => rfl
  | replace => rfl
  | append => exact absurd hm h

/-- A call whose refresh is refused leaves the file. -/
theorem commit_of_refused {text : String} {e : WriteError E}
    (h : S.refresh i = .error e) : S.commit i file text = (file, .error e) := by
  simp only [commit, h]

end Setup

/-! ## The invariant -/

namespace Phase

/-- The call has the lock. -/
def holds : Phase E → Bool
  | .locked => true
  | .read _ => true
  | .loaded _ _ => true
  | .written _ => true
  | .queued _ _ => true
  | .failing _ _ => true
  | .leaving _ => true
  | .removing _ => true
  | _ => false

def ended : Phase E → Bool
  | .done _ => true
  | _ => false

theorem done_of_ended {p : Phase E} (h : p.ended = true) : ∃ r, p = .done r := by
  cases p <;> first | exact ⟨_, rfl⟩ | cases h

/-- The call has not got the lock. -/
def Before : Phase E → Prop
  | .idle => True
  | .checked => True
  | .ready => True
  | .done r => ∃ e, r = .error e
  | _ => False

variable (S : Setup ι D E) (i : ι)

/-- The call has had its turn, which ends with `r`. -/
def Settled (r : Outcome E) : Phase E → Prop
  | .released _ v => ending S.target (S.call i) (S.fate i) v = r ∧
      (skipsSemanticRefresh S.target = true → ∃ result, r = .ok result)
  | .done r' => r' = r
  | _ => False

/-- The call has released the lock, and is still to be rolled back. -/
def Doomed : Phase E → Prop
  | .released _ v => skipsSemanticRefresh S.target = true ∧
      ∃ e, ending S.target (S.call i) (S.fate i) v = .error e
  | .undoing _ _ => True
  | _ => False

/-- The rollback of the call gives the file that it found. -/
def Restores (found : Option ByteArray) (previous : Option String) : Prop :=
  ∀ file, Writes.rolledBack (S.call i).mode previous file = found

/-- What `previous_content` is, of the file that the call found. -/
def Seen (found : Option ByteArray) (previous : Option String) : Prop :=
  match (S.call i).mode, found with
  | .create, found => found = none
  | _, some data => previous = some (decodeBytes S.legacy data)
  | _, none => False

/-- The call is in the middle of its turn on the file that it found. -/
def Turning (found file : Option ByteArray) : Phase E → Prop
  | .locked => file = found
  | .read previous => file = found ∧ Seen S i found previous
  | .loaded previous text => file = found ∧ Seen S i found previous ∧
      S.turn i found = S.commit i found text
  | .written previous => ∃ text : String, file = some text.toUTF8 ∧
      S.turn i found = S.commit i found text ∧
      (Writes.rollsBack S i = true → Restores S i found previous)
  | .queued previous v => ∃ text : String, file = some text.toUTF8 ∧
      S.turn i found = S.commit i found text ∧
      (Writes.rollsBack S i = true → Restores S i found previous) ∧ S.refresh i = .ok v
  | .released previous v => ∃ text : String, file = some text.toUTF8 ∧
      S.turn i found = S.commit i found text ∧
      (Writes.rollsBack S i = true → Restores S i found previous) ∧ S.refresh i = .ok v
  | .failing previous e => Restores S i found previous ∧ S.turn i found = (found, .error e)
  | .leaving e => file = found ∧ S.turn i found = (found, .error e)
  | .undoing previous e => Restores S i found previous ∧ S.turn i found = (found, .error e)
  | .removing e => found = none ∧ S.turn i found = (found, .error e)
  | .done r => S.turn i found = (file, r)
  | _ => False

end Phase

/-! ## The turn of a call -/

namespace Writes

variable {S : Setup ι D E} {i : ι} {found : Option ByteArray} {previous : Option String}

theorem turning_readPrevious     (hc : (S.call i).mode = .create → found = none) :
    (readPrevious S (S.call i).mode found).Turning S i found found := by
  cases hm : (S.call i).mode with
  | create => exact ⟨rfl, by simpa only [Phase.Seen, hm] using hc hm⟩
  | replace | append =>
    have hne : (S.call i).mode ≠ .create := by rw [hm]; nofun
    cases found with
    | none => exact ⟨rfl, Setup.turn_missing hne⟩
    | some data => exact ⟨rfl, by simp only [Phase.Seen, hm]⟩

theorem turning_load (hs : Phase.Seen S i found previous) : (load S i previous found).Turning S i found found := by
  have hs' := hs
  unfold load
  cases hm : (S.call i).mode with
  | create =>
    obtain rfl : found = none := by simpa only [Phase.Seen, hm] using hs'
    exact ⟨rfl, hs, Setup.turn_create hm⟩
  | replace =>
    have hne : (S.call i).mode ≠ .create := by rw [hm]; nofun
    cases found with
    | none => simp only [Phase.Seen, hm] at hs'
    | some data =>
      refine ⟨rfl, hs, ?_⟩
      rw [Setup.turn_over hne, Setup.textOver_of_ne_append (by rw [hm]; nofun)]
  | append =>
    have hne : (S.call i).mode ≠ .create := by rw [hm]; nofun
    cases found with
    | none => simp only [Phase.Seen, hm] at hs'
    | some data =>
      have ht := Setup.turn_over (S := S) hne data
      show Phase.Turning S i (some data) (some data)
        (match S.textOver i data with
          | none => .leaving .memoryFile
          | some text => .loaded previous text)
      cases hx : S.textOver i data with
      | none =>
        rw [hx] at ht
        exact ⟨rfl, ht⟩
      | some text =>
        rw [hx] at ht
        exact ⟨rfl, hs, ht⟩

theorem holds_readPrevious (mode : WriteMode) (file : Option ByteArray) :
    (readPrevious S mode file).holds = true := by
  cases mode <;> cases file <;> rfl

theorem holds_load (file : Option ByteArray) : (load S i previous file).holds = true := by
  unfold load
  split
  · rfl
  · split <;> rfl
  · rfl

/-- What was read from its own encoding is written back as it was. -/
theorem restores_of_seen (hs : Phase.Seen S i found previous)
    (hback : (S.call i).mode ≠ .create → found = previous.map String.toUTF8) :
    Phase.Restores S i found previous := by
  intro file
  cases hm : (S.call i).mode with
  | create =>
    have hnone : found = none := by simpa only [Phase.Seen, hm] using hs
    rw [hnone]
    rfl
  | replace | append =>
    have hf := hback (by rw [hm]; nofun)
    cases previous with
    | none =>
      rw [show found = none from hf] at hs
      simp only [Phase.Seen, hm] at hs
    | some text => exact hf.symm

theorem rollsBack_of_refused {e : WriteError E} (h : S.refresh i = .error e) : rollsBack S i = true := by
  simp only [rollsBack, h]

theorem rollsBack_of_ending {v : RefreshStatus} {e : WriteError E} (h : S.refresh i = .ok v)
    (hw : skipsSemanticRefresh S.target = true)
    (he : ending S.target (S.call i) (S.fate i) v = .error e) : rollsBack S i = true := by
  simp only [rollsBack, h, hw, he]
  rfl

/-- What the call leaves behind when it has released the lock and fails while it waits. -/
theorem turn_of_waited {text : String} {v : RefreshStatus}
    (ht : S.turn i found = S.commit i found text) (h : S.refresh i = .ok v) :
    S.turn i found = match ending S.target (S.call i) (S.fate i) v with
      | .ok result => (some text.toUTF8, .ok result)
      | .error e =>
        (if skipsSemanticRefresh S.target then found else some text.toUTF8, .error e) := by
  cases he : ending S.target (S.call i) (S.fate i) v <;> simp only [ht, Setup.commit, h, he]

/-- A turn that is over, and is not to be rolled back, is settled and has left its file. -/
theorem settled_of_turning {p : Phase E} {file : Option ByteArray}
    (ht : p.Turning S i found file) (hf : p.holds = false) :
    p.Doomed S i ∨ p.Settled S i (S.turn i found).2 ∧ file = (S.turn i found).1 := by
  cases p <;> try exact ht.elim
  case released previous v =>
    obtain ⟨text, hfile, hturn, -, hr⟩ := ht
    have hend := turn_of_waited hturn hr
    cases he : ending S.target (S.call i) (S.fate i) v with
    | ok result =>
      rw [he] at hend
      rw [hend]
      exact .inr ⟨⟨he, fun _ => ⟨result, rfl⟩⟩, hfile⟩
    | error e =>
      rw [he] at hend
      by_cases hw : skipsSemanticRefresh S.target = true
      · exact .inl ⟨hw, e, he⟩
      · simp only [hw] at hend
        rw [hend]
        exact .inr ⟨⟨he, fun h => absurd h hw⟩, hfile⟩
  case undoing => exact .inl trivial
  case done r =>
    have hturn : S.turn i found = (file, r) := ht
    rw [hturn]
    exact .inr ⟨rfl, rfl⟩
  all_goals cases hf

end Writes

namespace Writes

variable [DecidableEq ι] (S : Setup ι D E) (start : Option ByteArray)

/-- No call has got the lock. -/
structure Fresh (s : Writes ι E) : Prop where
  order : s.order = []
  file : s.file = start
  holder : s.holder = none
  before : ∀ j, (s.phase j).Before

/-- The call `i` got the lock last, and the calls in `pre` before it. -/
structure Turned (pre : List ι) (i : ι) (s : Writes ι E) : Prop where
  order : s.order = pre ++ [i]
  nodup : s.order.Nodup
  holder : s.holder = if (s.phase i).holds then some i else none
  settled : ∀ p ∈ (S.serial start pre).2, (s.phase p.1).Settled S p.1 p.2
  turning : (s.phase i).Turning S i (S.serial start pre).1 s.file
  before : ∀ j, j ∉ s.order → (s.phase j).Before

/-- A call that is to be rolled back is not the last that got the lock. -/
def Stuck (s : Writes ι E) : Prop :=
  ∃ i ∈ s.order, s.order.getLast? ≠ some i ∧ (s.phase i).Doomed S i

/-- **The invariant.** -/
def Inv (s : Writes ι E) : Prop :=
  Fresh start s ∨ (∃ pre i, Turned S start pre i s) ∨ Stuck S s

/-! ## Steps -/

variable {S start} {s u : Writes ι E} {i j : ι}

omit [DecidableEq ι] in
theorem before_stat (mode : WriteMode) (file : Option ByteArray) : (stat S mode file).Before := by
  cases mode <;> cases file <;> first | trivial | exact ⟨_, rfl⟩

omit [DecidableEq ι] in
theorem before_resolveRoot (mode : WriteMode) (file : Option ByteArray) :
    (resolveRoot S mode file).Before := by
  cases mode <;> cases file <;> simp only [resolveRoot] <;> try trivial
  all_goals
    split
    · trivial
    · exact ⟨_, rfl⟩

/-- A call that has not got the lock leaves everything else. -/
theorem advance_before (hb : (s.phase j).Before) (h : s.advance S j = some u) :
    ∃ p, u = s.goto j p ∧ p.Before := by
  unfold advance at h
  cases hp : s.phase j <;> rw [hp] at hb h <;> try exact hb.elim
  case idle => exact ⟨_, (Option.some.inj h).symm, before_stat _ _⟩
  case checked => exact ⟨_, (Option.some.inj h).symm, before_resolveRoot _ _⟩
  all_goals cases h

theorem released_advance {previous : Option String} {v : RefreshStatus}
    (hp : s.phase j = .released previous v) :
    s.advance S j =
      match ending S.target (S.call j) (S.fate j) v with
      | .ok result => some (s.goto j (.done (.ok result)))
      | .error e =>
        some (s.goto j (if skipsSemanticRefresh S.target then .undoing previous e
          else .done (.error e))) := by
  cases he : ending S.target (S.call j) (S.fate j) v <;> simp only [advance, hp, he]

/-- A call that has had its turn leaves everything else. -/
theorem advance_settled {r : Outcome E} (hs : (s.phase j).Settled S j r)
    (h : s.advance S j = some u) : u = s.goto j (.done r) := by
  cases hp : s.phase j <;> rw [hp] at hs <;> try exact hs.elim
  case done r' =>
    rw [advance, hp] at h
    cases h
  case released previous v =>
    obtain ⟨he, hok⟩ := hs
    rw [released_advance hp, he] at h
    cases r with
    | ok result => exact (Option.some.inj h).symm
    | error e =>
      have hw : skipsSemanticRefresh S.target = false := by
        by_contra hw
        obtain ⟨result, hr⟩ := hok (by simpa using hw)
        cases hr
      rw [hw] at h
      exact (Option.some.inj h).symm

/-- **One step of the call whose turn it is** keeps it in its turn. -/
theorem advance_turning {found : Option ByteArray} (ht : (s.phase i).Turning S i found s.file)
    (hh : s.holder = if (s.phase i).holds then some i else none)
    (hg : Guarded S s (.advance i)) (h : s.advance S i = some u) :
    ∃ file p, p.Turning S i found file ∧ u.file = file ∧
      u.holder = (if p.holds then some i else none) ∧
      u.phase = Function.update s.phase i p ∧ u.order = s.order := by
  rw [Guarded] at hg
  cases hp : s.phase i <;> rw [hp] at ht hh hg <;> try exact ht.elim
  case locked =>
    obtain rfl : s.goto i (readPrevious S (S.call i).mode s.file) = u := by
      rw [advance, hp] at h
      exact Option.some.inj h
    have hfile : s.file = found := ht
    have hread := turning_readPrevious (S := S) (i := i) fun hm => hfile ▸ hg hm
    refine ⟨found, _, hread, hfile, ?_, by rw [hfile]; rfl, rfl⟩
    rw [holds_readPrevious]
    exact hh
  case read previous =>
    obtain rfl : s.goto i (load S i previous s.file) = u := by
      rw [advance, hp] at h
      exact Option.some.inj h
    obtain ⟨hfile, hseen⟩ := ht
    refine ⟨found, _, turning_load hseen, hfile, ?_, by rw [hfile]; rfl, rfl⟩
    rw [holds_load]
    exact hh
  case loaded previous text =>
    obtain rfl : s.put i (some text.toUTF8) (.written previous) = u := by
      rw [advance, hp] at h
      exact Option.some.inj h
    obtain ⟨hfile, hseen, hturn⟩ := ht
    have hrest : rollsBack S i = true → Phase.Restores S i found previous := fun hr =>
      restores_of_seen hseen fun hne => hfile.symm.trans (hg hr hne)
    exact ⟨_, .written previous, ⟨text, rfl, hturn, hrest⟩, rfl, hh, rfl, rfl⟩
  case written previous =>
    obtain ⟨text, hfile, hturn, hrest⟩ := ht
    rw [advance, hp] at h
    cases hr : S.refresh i with
    | ok v =>
      obtain rfl : s.goto i (.queued previous v) = u := by
        rw [hr] at h
        exact Option.some.inj h
      exact ⟨_, .queued previous v, ⟨text, hfile, hturn, hrest, hr⟩, rfl, hh, rfl, rfl⟩
    | error e =>
      obtain rfl : s.goto i (.failing previous e) = u := by
        rw [hr] at h
        exact Option.some.inj h
      rw [Setup.commit_of_refused hr] at hturn
      exact ⟨_, .failing previous e, ⟨hrest (rollsBack_of_refused hr), hturn⟩, rfl, hh, rfl, rfl⟩
  case queued previous v =>
    obtain rfl : s.hold i none (.released previous v) = u := by
      rw [advance, hp] at h
      exact Option.some.inj h
    exact ⟨_, .released previous v, ht, rfl, rfl, rfl, rfl⟩
  case failing previous e =>
    obtain rfl : s.put i (rolledBack (S.call i).mode previous s.file) (.leaving e) = u := by
      rw [advance, hp] at h
      exact Option.some.inj h
    exact ⟨_, .leaving e, ⟨ht.1 s.file, ht.2⟩, rfl, hh, rfl, rfl⟩
  case leaving e =>
    obtain rfl : s.hold i none (.done (.error e)) = u := by
      rw [advance, hp] at h
      exact Option.some.inj h
    obtain ⟨hfile, hturn⟩ := ht
    exact ⟨_, .done (.error e), hfile ▸ hturn, rfl, rfl, rfl, rfl⟩
  case released previous v =>
    obtain ⟨text, hfile, hturn, hrest, hr⟩ := ht
    have hend := turn_of_waited hturn hr
    rw [released_advance hp] at h
    cases he : ending S.target (S.call i) (S.fate i) v with
    | ok result =>
      rw [he] at h hend
      obtain rfl : s.goto i (.done (.ok result)) = u := Option.some.inj h
      exact ⟨_, .done (.ok result), hfile ▸ hend, rfl, hh, rfl, rfl⟩
    | error e =>
      rw [he] at h hend
      obtain rfl : s.goto i (if skipsSemanticRefresh S.target then .undoing previous e
        else .done (.error e)) = u := Option.some.inj h
      by_cases hw : skipsSemanticRefresh S.target = true
      · rw [if_pos hw]
        simp only [hw, if_true] at hend
        refine ⟨_, .undoing previous e, ⟨hrest (rollsBack_of_ending hr hw he), hend⟩, rfl, hh, rfl, rfl⟩
      · rw [if_neg hw]
        simp only [hw] at hend
        exact ⟨_, .done (.error e), hfile ▸ hend, rfl, hh, rfl, rfl⟩
  case undoing previous e =>
    obtain ⟨hrest, hturn⟩ := ht
    have hfree : s.holder = none := hh
    rw [advance, hp, hfree] at h
    cases hm : (S.call i).mode with
    | create =>
      obtain rfl : none = found := by simpa only [rolledBack, hm] using hrest s.file
      cases hf : s.file with
      | none =>
        obtain rfl : s.goto i (.done (.error e)) = u := by
          rw [hm, hf] at h
          exact Option.some.inj h
        exact ⟨none, .done (.error e), hturn, hf, hh, rfl, rfl⟩
      | some data =>
        obtain rfl : s.hold i (some i) (.removing e) = u := by
          rw [hm, hf] at h
          exact Option.some.inj h
        exact ⟨some data, .removing e, ⟨rfl, hturn⟩, hf, rfl, rfl, rfl⟩
    | replace | append =>
      obtain rfl : s.put i found (.done (.error e)) = u := by
        rw [← hrest s.file, hm]
        rw [hm] at h
        exact Option.some.inj h
      exact ⟨found, .done (.error e), hturn, rfl, hh, rfl, rfl⟩
  case removing e =>
    obtain rfl : { s.put i none (.done (.error e)) with holder := none } = u := by
      rw [advance, hp] at h
      exact Option.some.inj h
    obtain ⟨rfl, hturn⟩ := ht
    exact ⟨none, .done (.error e), hturn, rfl, rfl, rfl, rfl⟩
  case done r =>
    rw [advance, hp] at h
    cases h

/-! ## Steps on the calls -/

variable {pre : List ι}

/-- A call that has not got the lock moves on. -/
theorem Turned.goto_before (ht : Turned S start pre i s) (hj : j ∉ s.order) {p : Phase E}
    (hp : p.Before) : Turned S start pre i (s.goto j p) := by
  have hi : i ≠ j := by
    rintro rfl
    exact hj (by rw [ht.order]; simp)
  have hphase : (s.goto j p).phase i = s.phase i := Function.update_of_ne hi _ _
  refine ⟨ht.order, ht.nodup, ?_, ?_, ?_, ?_⟩
  · rw [hphase]
    exact ht.holder
  · intro q hq
    have hne : q.1 ≠ j := by
      rintro rfl
      exact hj (by rw [ht.order]; exact List.mem_append_left _ (S.mem_of_mem_serial hq))
    rw [show (s.goto j p).phase q.1 = s.phase q.1 from Function.update_of_ne hne _ _]
    exact ht.settled q hq
  · rw [hphase]
    exact ht.turning
  · intro k hk
    by_cases hkj : k = j
    · subst hkj
      rw [show (s.goto k p).phase k = p from Function.update_self _ _ _]
      exact hp
    · rw [show (s.goto j p).phase k = s.phase k from Function.update_of_ne hkj _ _]
      exact ht.before k hk

omit [DecidableEq ι] in
/-- A call that asks for the lock has not had it. -/
theorem Turned.not_mem_of_ready (ht : Turned S start pre i s) (hj : s.phase j = .ready) : j ∉ s.order := by
  intro hmem
  rw [ht.order] at hmem
  rcases List.mem_append.1 hmem with hpre | hlast
  · obtain ⟨r, hr⟩ := S.exists_of_mem_serial start hpre
    have := ht.settled _ hr
    rw [hj] at this
    exact this
  · have := ht.turning
    rw [← List.mem_singleton.1 hlast, hj] at this
    exact this

/-- A call that has had its turn ends as in it. -/
theorem Turned.advance_of_mem (ht : Turned S start pre i s) (hj : j ∈ pre)
    (h : s.advance S j = some u) : Turned S start pre i u := by
  have hnodup := ht.nodup
  rw [ht.order] at hnodup
  have hi : i ≠ j := by
    rintro rfl
    exact (List.nodup_append.1 hnodup).2.2 i hj i (List.mem_singleton.2 rfl) rfl
  have hunique : ∀ q ∈ (S.serial start pre).2, ∀ q' ∈ (S.serial start pre).2, q.1 = q'.1 → q = q' := by
    intro q hq q' hq' heq
    refine List.inj_on_of_nodup_map (f := Prod.fst) ?_ hq hq' heq
    rw [S.map_fst_serial]
    exact (List.nodup_append.1 hnodup).1
  obtain ⟨r, hr⟩ := S.exists_of_mem_serial start hj
  obtain rfl := advance_settled (ht.settled _ hr) h
  have hphase : (s.goto j (.done r)).phase i = s.phase i := Function.update_of_ne hi _ _
  refine ⟨ht.order, ht.nodup, ?_, ?_, ?_, ?_⟩
  · rw [hphase]
    exact ht.holder
  · intro q hq
    by_cases hqj : q.1 = j
    · obtain rfl := hunique _ hq _ hr hqj
      rw [show (s.goto j (.done r)).phase j = .done r from Function.update_self _ _ _]
      exact rfl
    · rw [show (s.goto j (.done r)).phase q.1 = s.phase q.1 from Function.update_of_ne hqj _ _]
      exact ht.settled q hq
  · rw [hphase]
    exact ht.turning
  · intro k hk
    have hkj : k ≠ j := by
      rintro rfl
      exact hk (by rw [show (s.goto k (.done r)).order = pre ++ [i] from ht.order]; simp [hj])
    rw [show (s.goto j (.done r)).phase k = s.phase k from Function.update_of_ne hkj _ _]
    exact ht.before k hk

/-- The call whose turn it is goes on with it. -/
theorem Turned.advance_last (ht : Turned S start pre i s) (hg : Guarded S s (.advance i))
    (h : s.advance S i = some u) : Turned S start pre i u := by
  obtain ⟨file, p, hp, hfile, hholder, hphase, horder⟩ :=
    advance_turning ht.turning ht.holder hg h
  have hi : u.phase i = p := by rw [hphase]; exact Function.update_self _ _ _
  have hne : ∀ k, k ≠ i → u.phase k = s.phase k := fun k hk => by
    rw [hphase]
    exact Function.update_of_ne hk _ _
  refine ⟨horder.trans ht.order, horder ▸ ht.nodup, ?_, ?_, ?_, ?_⟩
  · rw [hi]
    exact hholder
  · intro q hq
    have hqi : q.1 ≠ i := by
      rintro rfl
      have hnodup := ht.nodup
      rw [ht.order] at hnodup
      exact (List.nodup_append.1 hnodup).2.2 _ (S.mem_of_mem_serial hq) _
        (List.mem_singleton.2 rfl) rfl
    rw [hne q.1 hqi]
    exact ht.settled q hq
  · rw [hi, hfile]
    exact hp
  · intro k hk
    rw [horder] at hk
    have hki : k ≠ i := by
      rintro rfl
      exact hk (by rw [ht.order]; simp)
    rw [hne k hki]
    exact ht.before k hk

/-- The next call gets the lock when the turn is over, unless it overtakes a rollback. -/
theorem Turned.acquire (ht : Turned S start pre i s) (hj : s.phase j = .ready) (hfree : s.holder = none) :
    Inv S start { s.hold j (some j) .locked with order := s.order ++ [j] } := by
  have hjo := ht.not_mem_of_ready hj
  have hi : i ≠ j := by
    rintro rfl
    exact hjo (by rw [ht.order]; simp)
  have hnot : (s.phase i).holds = false := by
    have := ht.holder
    rw [hfree] at this
    cases hh : (s.phase i).holds with
    | false => rfl
    | true => rw [hh] at this; cases this
  rcases settled_of_turning ht.turning hnot with hdoomed | ⟨hsettled, hfile⟩
  · refine .inr (.inr ⟨i, ?_, ?_, ?_⟩)
    · show i ∈ s.order ++ [j]
      rw [ht.order]
      simp
    · show (s.order ++ [j]).getLast? ≠ some i
      rw [List.getLast?_concat]
      exact fun h => hi (Option.some.inj h).symm
    · show ((s.hold j (some j) .locked).phase i).Doomed S i
      rw [show (s.hold j (some j) .locked).phase i = s.phase i from Function.update_of_ne hi _ _]
      exact hdoomed
  · have hne : ∀ k, k ≠ j → (s.hold j (some j) .locked).phase k = s.phase k := fun k hk =>
      Function.update_of_ne hk _ _
    have hself : (s.hold j (some j) .locked).phase j = .locked := Function.update_self _ _ _
    have hserial := S.serial_append start pre i
    refine .inr (.inl ⟨pre ++ [i], j, ?_, ?_, ?_, ?_, ?_, ?_⟩)
    · show s.order ++ [j] = pre ++ [i] ++ [j]
      rw [ht.order]
    · exact List.nodup_append.2 ⟨ht.nodup, List.nodup_singleton j, fun a ha b hb hab =>
        hjo (by rw [List.mem_singleton.1 hb] at hab; exact hab ▸ ha)⟩
    · show some j = if ((s.hold j (some j) .locked).phase j).holds then some j else none
      rw [hself]
      rfl
    · intro q hq
      rw [hserial] at hq
      have hqj : q.1 ≠ j := by
        rintro rfl
        refine hjo ?_
        rw [ht.order]
        rw [← hserial] at hq
        exact S.mem_of_mem_serial hq
      show ((s.hold j (some j) .locked).phase q.1).Settled S q.1 q.2
      rw [hne q.1 hqj]
      rcases List.mem_append.1 hq with hpre | hlast
      · exact ht.settled q hpre
      · rw [List.mem_singleton.1 hlast]
        exact hsettled
    · show ((s.hold j (some j) .locked).phase j).Turning S j _ s.file
      rw [hself, hserial]
      exact hfile
    · intro k hk
      have hk' : k ∉ s.order ∧ k ≠ j := by simpa using hk
      show ((s.hold j (some j) .locked).phase k).Before
      rw [hne k hk'.2]
      exact ht.before k hk'.1

/-- The first call gets the lock. -/
theorem Fresh.acquire (hf : Fresh start s) :
    Turned S start [] j { s.hold j (some j) .locked with order := s.order ++ [j] } := by
  have hself : (s.hold j (some j) .locked).phase j = .locked := Function.update_self _ _ _
  refine ⟨?_, ?_, ?_, ?_, ?_, ?_⟩
  · show s.order ++ [j] = [] ++ [j]
    rw [hf.order]
  · show (s.order ++ [j]).Nodup
    rw [hf.order]
    exact List.nodup_singleton j
  · show some j = if ((s.hold j (some j) .locked).phase j).holds then some j else none
    rw [hself]
    rfl
  · intro q hq
    cases hq
  · show ((s.hold j (some j) .locked).phase j).Turning S j _ s.file
    rw [hself]
    exact hf.file
  · intro k hk
    have hkj : k ≠ j := by
      rintro rfl
      exact hk (List.mem_append_right _ (List.mem_singleton.2 rfl))
    show ((s.hold j (some j) .locked).phase k).Before
    rw [show (s.hold j (some j) .locked).phase k = s.phase k from Function.update_of_ne hkj _ _]
    exact hf.before k

theorem Fresh.goto_before (hf : Fresh start s) {p : Phase E} (hp : p.Before) :
    Fresh start (s.goto j p) := by
  refine ⟨hf.order, hf.file, hf.holder, fun k => ?_⟩
  by_cases hkj : k = j
  · subst hkj
    rw [show (s.goto k p).phase k = p from Function.update_self _ _ _]
    exact hp
  · rw [show (s.goto j p).phase k = s.phase k from Function.update_of_ne hkj _ _]
    exact hf.before k

/-- A call that goes on leaves the order of the lock and the other calls. -/
theorem advance_frame (h : s.advance S j = some u) :
    u.order = s.order ∧ ∀ k, k ≠ j → u.phase k = s.phase k := by
  have hall : ∃ p, u.order = s.order ∧ u.phase = Function.update s.phase j p := by
    unfold advance at h
    cases hp : s.phase j <;> rw [hp] at h <;> simp only at h
    case ready | done => cases h
    case written previous =>
      cases hr : S.refresh j with
      | ok v | error e =>
        rw [hr] at h
        exact Option.some.inj h ▸ ⟨_, rfl, rfl⟩
    case released previous v =>
      cases he : ending S.target (S.call j) (S.fate j) v with
      | ok result | error e =>
        rw [he] at h
        exact Option.some.inj h ▸ ⟨_, rfl, rfl⟩
    case undoing previous e =>
      split at h <;> exact Option.some.inj h ▸ ⟨_, rfl, rfl⟩
    all_goals exact Option.some.inj h ▸ ⟨_, rfl, rfl⟩
  obtain ⟨p, horder, hphase⟩ := hall
  refine ⟨horder, fun k hk => ?_⟩
  rw [hphase]
  exact Function.update_of_ne hk _ _

/-- A call that was overtaken stays so: no guarded step ends it. -/
theorem Stuck.step {a : WriteAct ι} (hs : Stuck S s) (hg : Guarded S s a)
    (h : step S s a = some u) : Stuck S u := by
  obtain ⟨i, hmem, hlast, hdoomed⟩ := hs
  cases a with
  | acquire j =>
    simp only [Writes.step] at h
    split at h
    · rename_i hready _
      have hij : i ≠ j := by
        rintro rfl
        rw [hready] at hdoomed
        exact hdoomed
      obtain rfl := Option.some.inj h
      refine ⟨i, List.mem_append_left _ hmem, ?_, ?_⟩
      · show (s.order ++ [j]).getLast? ≠ some i
        rw [List.getLast?_concat]
        exact fun h => hij (Option.some.inj h).symm
      · show ((s.hold j (some j) .locked).phase i).Doomed S i
        rw [show (s.hold j (some j) .locked).phase i = s.phase i from Function.update_of_ne hij _ _]
        exact hdoomed
    · cases h
  | busy j =>
    simp only [Writes.step] at h
    split at h
    · rename_i hready
      have hij : i ≠ j := by
        rintro rfl
        rw [hready] at hdoomed
        exact hdoomed
      obtain rfl := Option.some.inj h
      refine ⟨i, hmem, hlast, ?_⟩
      rw [show (s.goto j _).phase i = s.phase i from Function.update_of_ne hij _ _]
      exact hdoomed
    · cases h
  | advance j =>
    obtain ⟨horder, hother⟩ := advance_frame h
    refine ⟨i, horder ▸ hmem, horder ▸ hlast, ?_⟩
    by_cases hij : i = j
    · subst hij
      rw [Guarded] at hg
      cases hp : s.phase i <;> rw [hp] at hdoomed hg <;> try exact hdoomed.elim
      case undoing => exact absurd hg hlast
      case released previous v =>
        obtain ⟨hw, e, he⟩ := hdoomed
        replace h : s.advance S i = some u := h
        rw [released_advance hp, he, hw] at h
        obtain rfl := Option.some.inj h
        rw [show (s.goto i _).phase i = _ from Function.update_self _ _ _]
        exact trivial
    · rw [hother i hij]
      exact hdoomed

/-! ## Runs -/

/-- **The step lemma.** -/
theorem inv_step {a : WriteAct ι} (hinv : Inv S start s) (hg : Guarded S s a)
    (h : step S s a = some u) : Inv S start u := by
  rcases hinv with hf | ⟨pre, i, ht⟩ | hs
  · cases a with
    | acquire j =>
      simp only [step] at h
      split at h
      · obtain rfl := Option.some.inj h
        exact .inr (.inl ⟨[], j, hf.acquire⟩)
      · cases h
    | busy j =>
      simp only [step] at h
      split at h
      · obtain rfl := Option.some.inj h
        exact .inl (hf.goto_before ⟨_, rfl⟩)
      · cases h
    | advance j =>
      obtain ⟨p, rfl, hp⟩ := advance_before (hf.before j) h
      exact .inl (hf.goto_before hp)
  · cases a with
    | acquire j =>
      simp only [step] at h
      split at h
      · rename_i hready hfree
        obtain rfl := Option.some.inj h
        exact ht.acquire hready hfree
      · cases h
    | busy j =>
      simp only [step] at h
      split at h
      · rename_i hready
        obtain rfl := Option.some.inj h
        exact .inr (.inl ⟨pre, i, ht.goto_before (ht.not_mem_of_ready hready) ⟨_, rfl⟩⟩)
      · cases h
    | advance j =>
      by_cases hj : j ∈ s.order
      · rw [ht.order] at hj
        rcases List.mem_append.1 hj with hpre | hlast
        · exact .inr (.inl ⟨pre, i, ht.advance_of_mem hpre h⟩)
        · obtain rfl := List.mem_singleton.1 hlast
          exact .inr (.inl ⟨pre, j, ht.advance_last hg h⟩)
      · obtain ⟨p, rfl, hp⟩ := advance_before (ht.before j hj) h
        exact .inr (.inl ⟨pre, i, ht.goto_before hj hp⟩)
  · exact .inr (.inr (hs.step hg h))

omit [DecidableEq ι] in
theorem error_of_before (hb : (s.phase j).Before) {r : Outcome E} (h : s.outcome j = some r) :
    ∃ e, r = .error e := by
  unfold outcome at h
  cases hp : s.phase j <;> rw [hp] at hb h <;> try cases h
  exact hb

omit [DecidableEq ι] in
/-- When no call is under way the invariant says what is claimed. -/
theorem linear_of_inv (hinv : Inv S start s) (hq : Quiet s) : Linear S start s := by
  rcases hinv with hf | ⟨pre, i, ht⟩ | ⟨i, _, _, hdoomed⟩
  · refine ⟨?_, ?_, fun j r _ hr => error_of_before (hf.before j) hr⟩
    · rw [hf.order]
      exact hf.file
    · rw [hf.order]
      exact fun p hp => by cases hp
  · have hturning := ht.turning
    have hturn : ∃ r, s.phase i = .done r ∧
        S.turn i (S.serial start pre).1 = (s.file, r) := by
      rcases hq i with hp | ⟨r, hp⟩
      · rw [hp] at hturning
        exact hturning.elim
      · rw [hp] at hturning
        exact ⟨r, hp, hturning⟩
    obtain ⟨r, hp, hturn⟩ := hturn
    have hserial := S.serial_append start pre i
    refine ⟨?_, ?_, fun j r hj hr => error_of_before (ht.before j hj) hr⟩
    · rw [ht.order, hserial, hturn]
    · rw [ht.order, hserial]
      intro p hmem
      rcases List.mem_append.1 hmem with hpre | hlast
      · have hsettled := ht.settled p hpre
        rcases hq p.1 with hp | ⟨r, hp⟩
        · rw [hp] at hsettled
          exact hsettled.elim
        · rw [hp] at hsettled
          obtain rfl : r = p.2 := hsettled
          rw [outcome, hp]
      · rw [List.mem_singleton.1 hlast, hturn, outcome, hp]
  · rcases hq i with hp | ⟨r, hp⟩
    · rw [hp] at hdoomed
      exact hdoomed.elim
    · rw [hp] at hdoomed
      exact hdoomed.elim

/-- **Every guarded run of writes on one document is linearizable** in the order of the path lock. -/
theorem reaches_linear (S : Setup ι D E) (start : Option ByteArray) :
    ∀ s, Reaches (step S) (Guarded S) (init start) s → Quiet s → Linear S start s := by
  intro s hs hq
  have hfresh : Fresh start (init start : Writes ι E) := ⟨rfl, rfl, rfl, fun _ => trivial⟩
  have hinv : Inv S start s :=
    hs.invariant (.inl hfresh) fun t a u hinv hg h => inv_step hinv hg h
  exact linear_of_inv hinv hq

/-- A resource that two calls write; the queues take everything. -/
def docTarget : WriteTarget where
  uri := "viking://resources/a/b.md"
  parts := ["resources", "a", "b.md"]
  rootUri := "viking://resources/a"
  rootScope := "resources"
  contextType := "resource"
  vikingdb := true
  notMemory := by decide

def takenFate : WriteFate String := ⟨true, .ok true, none, .ok []⟩

def plainEnv : Env Unit := ⟨fun _ => none, fun _ => none, fun _ => "", fun text _ _ => text⟩

/-- A create and a replace. -/
def docSetup : Setup Bool Unit String where
  env := plainEnv
  legacy _ := ""
  target := docTarget
  call i := if i then ⟨.replace, "second", true, none⟩ else ⟨.create, "first", false, none⟩
  fate _ := takenFate

/-- The replace follows the create. -/
def docActs : List (WriteAct Bool) :=
  [.advance false, .advance false, .acquire false, .advance false, .advance false, .advance false,
    .advance true, .advance true, .advance false, .advance false, .acquire true, .advance false,
    .advance true, .advance true, .advance true, .advance true, .advance true, .advance true]

theorem reaches_linear_docActs :
    ∃ s, runActs (step docSetup) (init none) docActs = some s ∧ s.order = [false, true] ∧
      Linear docSetup none s := by
  have horder : (runActs (step docSetup) (init none) docActs).map (·.order) =
      some [false, true] := by decide +kernel
  have hends : (runActs (step docSetup) (init none) docActs).map
      (fun s => (s.phase false).ended && (s.phase true).ended) = some true := by decide +kernel
  have hmeet : ActsMeet (step docSetup) (Guarded docSetup) (init none) docActs := by
    decide +kernel
  obtain ⟨s, hs, hlast⟩ := Option.map_eq_some_iff.1 horder
  rw [hs] at hends
  have hquiet : Quiet s := by
    have hboth := Bool.and_eq_true_iff.1 (Option.some.inj hends)
    intro i
    cases i with
    | false => exact .inr (Phase.done_of_ended hboth.1)
    | true => exact .inr (Phase.done_of_ended hboth.2)
  exact ⟨s, hs, hlast, reaches_linear docSetup none s (.of_runActs hmeet hs) hquiet⟩

/-- Two creates. -/
def createSetup : Setup Bool Unit String :=
  { docSetup with call := fun i => ⟨.create, if i then "second" else "first", false, none⟩ }

/-- Both look for the file before either has the lock. -/
def createActs : List (WriteAct Bool) :=
  [.advance false, .advance true, .advance false, .advance true, .acquire false, .advance false,
    .advance false, .advance false, .advance false, .advance false, .advance false, .acquire true,
    .advance true, .advance true, .advance true, .advance true, .advance true, .advance true]

theorem not_linear_createActs :
    ∃ s, runActs (step createSetup) (init none) createActs = some s ∧ Quiet s ∧
      ¬ Linear createSetup none s := by
  refine ⟨_, rfl, fun i => by cases i <;> exact .inr ⟨_, rfl⟩, fun h => ?_⟩
  have hsecond := h.results (true, .error (existsError docTarget)) (List.mem_cons_of_mem _ List.mem_cons_self)
  cases hsecond

end Writes

end OpenViking.Content
