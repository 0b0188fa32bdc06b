import Mathlib.Data.List.Perm.Basic
import OpenViking.Common.Room

/-!
# Bounded walks

The walk of a tree that is read place by place, parents first, until a number of entries is reached.  It is
written as a recursion and as a loop over a stack of tasks.

Results:

* `walk_spec`: the recursion returns the beginning of the whole list of entries, or the error of a place;
* `agree_iff`: when two orders of the items at each place give the same entries.
-/

namespace OpenViking.BoundedWalk

open Room

/-! ## Walks -/

/-- What a walk goes over: the items at each place, the place below an item, and its entry. -/
structure Tree (ν ι ε E : Type*) where
  list : ν → Except E (List ι)
  sub : ν → ι → Option ν
  emit : ν → ι → ε

variable {ν ι ε E : Type*}

/-- The items of a place in turn. -/
def walkItems (t : Tree ν ι ε E) (limit : Option ℕ) (visit : ν → List ε → Option (Except E (List ε)))
    (place : ν) : List ι → List ε → Option (Except E (List ε))
  | [], result => some (.ok result)
  | item :: items, result =>
    if reached limit result.length then some (.ok result)
    else
      match t.sub place item with
      | none => walkItems t limit visit place items (result ++ [t.emit place item])
      | some below =>
        match visit below (result ++ [t.emit place item]) with
        | some (.ok result) => walkItems t limit visit place items result
        | stop => stop

/-- The walk as a recursion, at most `fuel` places deep. -/
def walk (t : Tree ν ι ε E) (limit : Option ℕ) : ℕ → ν → List ε → Option (Except E (List ε))
  | 0, _, _ => none
  | fuel + 1, place, result =>
    if reached limit result.length then some (.ok result)
    else
      match t.list place with
      | .error err => some (.error err)
      | .ok items => walkItems t limit (walk t limit fuel) place items result

inductive Task (ν ε : Type*) where
  | visit (place : ν)
  | emit (entry : ε)

/-- The tasks for the items of a place. -/
def tasks (t : Tree ν ι ε E) (place : ν) (items : List ι) : List (Task ν ε) :=
  items.flatMap fun item => .emit (t.emit place item) :: (t.sub place item).toList.map .visit

/-- The walk as a loop, of at most `fuel` tasks. -/
def loop (t : Tree ν ι ε E) (limit : Option ℕ) : ℕ → List (Task ν ε) → List ε → Option (Except E (List ε))
  | _, [], result => some (.ok result)
  | 0, _ :: _, _ => none
  | fuel + 1, task :: stack, result =>
    if reached limit result.length then some (.ok result)
    else
      match task with
      | .emit entry => loop t limit fuel stack (result ++ [entry])
      | .visit place =>
        match t.list place with
        | .error err => some (.error err)
        | .ok items => loop t limit fuel (tasks t place items ++ stack) result

/-- The places are at most `fuel` deep. -/
def Fits (t : Tree ν ι ε E) : ℕ → ν → Prop
  | 0, _ => False
  | fuel + 1, place => ∀ items, t.list place = .ok items → ∀ item ∈ items, ∀ below,
    t.sub place item = some below → Fits t fuel below

/-! ## The loop -/

section Loop

variable {t : Tree ν ι ε E} {limit : Option ℕ}

theorem loop_nil (fuel : ℕ) (result : List ε) : loop t limit fuel [] result = some (.ok result) := by
  cases fuel with
  | zero => rfl
  | succ fuel => rfl

variable {stack : List (Task ν ε)} {result : List ε} {fuel : ℕ}

theorem loop_of_reached {task : Task ν ε} (h : reached limit result.length = true) :
    loop t limit (fuel + 1) (task :: stack) result = some (.ok result) := by
  cases task with
  | emit entry => rw [loop, if_pos h]
  | visit place => rw [loop, if_pos h]

theorem loop_reached {x : Except E (List ε)}
    (hreached : reached limit result.length = true) (h : loop t limit fuel stack result = some x) :
    x = .ok result := by
  cases stack with
  | nil =>
    rw [loop_nil] at h
    exact (Option.some.inj h).symm
  | cons task stack =>
    cases fuel with
    | zero => cases h
    | succ fuel =>
      rw [loop_of_reached hreached] at h
      exact (Option.some.inj h).symm

/-- What the loop does with what a part of the walk returned. -/
def resume (t : Tree ν ι ε E) (limit : Option ℕ) (fuel : ℕ) (stack : List (Task ν ε)) :
    Except E (List ε) → Option (Except E (List ε))
  | .error err => some (.error err)
  | .ok result => loop t limit fuel stack result

theorem loop_tasks {visit : ν → List ε → Option (Except E (List ε))}
    (hvisit : ∀ place result r, visit place result = some r → ∀ stack fuel x,
      resume t limit fuel stack r = some x →
      ∃ more, loop t limit (fuel + more) (.visit place :: stack) result = some x)
    (place : ν) (items : List ι) (result : List ε) (r : Except E (List ε))
    (h : walkItems t limit visit place items result = some r) (stack : List (Task ν ε)) (fuel : ℕ)
    (x : Except E (List ε)) (hx : resume t limit fuel stack r = some x) :
    ∃ more, loop t limit (fuel + more) (tasks t place items ++ stack) result = some x := by
  induction items generalizing result r x with
  | nil =>
    rw [walkItems] at h
    obtain rfl := Option.some.inj h
    exact ⟨0, hx⟩
  | cons item items ih =>
    rw [walkItems] at h
    have hstack : tasks t place (item :: items) ++ stack =
        .emit (t.emit place item) :: ((t.sub place item).toList.map .visit ++
          (tasks t place items ++ stack)) := by simp [tasks]
    rw [hstack]
    split_ifs at h with hreached
    · obtain rfl := Option.some.inj h
      refine ⟨1, ?_⟩
      rw [loop_of_reached hreached, loop_reached hreached hx]
    · cases hsub : t.sub place item with
      | none =>
        rw [hsub] at h
        obtain ⟨more, hmore⟩ := ih _ _ h _ hx
        refine ⟨more + 1, ?_⟩
        rw [← Nat.add_assoc, loop, if_neg hreached]
        exact hmore
      | some below =>
        rw [hsub] at h
        dsimp only at h
        cases hbelow : visit below (result ++ [t.emit place item]) with
        | none =>
          rw [hbelow] at h
          cases h
        | some r' =>
          rw [hbelow] at h
          cases r' with
          | error err =>
            obtain rfl := Option.some.inj h
            obtain ⟨more, hmore⟩ := hvisit _ _ _ hbelow (tasks t place items ++ stack) fuel x hx
            refine ⟨more + 1, ?_⟩
            rw [← Nat.add_assoc, loop, if_neg hreached]
            exact hmore
          | ok result' =>
            obtain ⟨more, hmore⟩ := ih _ _ h _ hx
            obtain ⟨more', hmore'⟩ :=
              hvisit _ _ _ hbelow (tasks t place items ++ stack) (fuel + more) x hmore
            refine ⟨more + more' + 1, ?_⟩
            rw [← Nat.add_assoc, ← Nat.add_assoc, loop, if_neg hreached]
            exact hmore'

theorem loop_visit (depth : ℕ) (place : ν) (result : List ε) (r : Except E (List ε))
    (h : walk t limit depth place result = some r) (stack : List (Task ν ε)) (fuel : ℕ)
    (x : Except E (List ε)) (hx : resume t limit fuel stack r = some x) :
    ∃ more, loop t limit (fuel + more) (.visit place :: stack) result = some x := by
  induction depth generalizing place result r stack fuel x with
  | zero => cases h
  | succ depth ih =>
    rw [walk] at h
    split_ifs at h with hreached
    · obtain rfl := Option.some.inj h
      refine ⟨1, ?_⟩
      rw [loop_of_reached hreached, loop_reached hreached hx]
    · cases hlist : t.list place with
      | error err =>
        rw [hlist] at h
        obtain rfl := Option.some.inj h
        refine ⟨1, ?_⟩
        rw [loop, if_neg hreached, hlist]
        exact hx
      | ok items =>
        rw [hlist] at h
        obtain ⟨more, hmore⟩ := loop_tasks ih place items result r h stack fuel x hx
        refine ⟨more + 1, ?_⟩
        rw [← Nat.add_assoc, loop, if_neg hreached, hlist]
        exact hmore

variable {r : Except E (List ε)} {place : ν} {depth : ℕ}

/-- The loop returns what the recursion returns. -/
theorem loop_of_walk (h : walk t limit depth place [] = some r) :
    ∃ fuel, loop t limit fuel [.visit place] [] = some r := by
  have hx : resume t limit 0 [] r = some r := by
    cases r with
    | error err => rfl
    | ok result => rfl
  obtain ⟨more, hmore⟩ := loop_visit depth place [] r h [] 0 r hx
  exact ⟨_, hmore⟩

theorem loop_succ {x : Except E (List ε)}
    (h : loop t limit fuel stack result = some x) : loop t limit (fuel + 1) stack result = some x := by
  induction fuel generalizing stack result with
  | zero =>
    cases stack with
    | nil => exact h
    | cons task stack => cases h
  | succ fuel ih =>
    cases stack with
    | nil =>
      rw [loop_nil] at h ⊢
      exact h
    | cons task stack =>
      by_cases hreached : reached limit result.length = true
      · rw [loop_of_reached hreached] at h ⊢
        exact h
      · cases task with
        | emit entry =>
          rw [loop, if_neg hreached] at h ⊢
          exact ih h
        | visit place =>
          rw [loop, if_neg hreached] at h ⊢
          cases hlist : t.list place with
          | error err =>
            rw [hlist] at h
            exact h
          | ok items =>
            rw [hlist] at h
            exact ih h

theorem walkItems_mono {visit visit' : ν → List ε → Option (Except E (List ε))}
    (hvisit : ∀ place result r, visit place result = some r → visit' place result = some r) {items : List ι}
    (h : walkItems t limit visit place items result = some r) :
    walkItems t limit visit' place items result = some r := by
  induction items generalizing result with
  | nil => exact h
  | cons item items ih =>
    rw [walkItems] at h ⊢
    split_ifs at h ⊢ with hreached
    · exact h
    · cases hsub : t.sub place item with
      | none =>
        rw [hsub] at h
        exact ih h
      | some below =>
        rw [hsub] at h
        dsimp only at h ⊢
        cases hbelow : visit below (result ++ [t.emit place item]) with
        | none =>
          rw [hbelow] at h
          cases h
        | some r' =>
          rw [hbelow] at h
          rw [hvisit _ _ _ hbelow]
          cases r' with
          | error err => exact h
          | ok result' => exact ih h

theorem walk_succ
    (h : walk t limit fuel place result = some r) : walk t limit (fuel + 1) place result = some r := by
  induction fuel generalizing place result r with
  | zero => cases h
  | succ fuel ih =>
    rw [walk] at h ⊢
    split_ifs at h ⊢ with hreached
    · exact h
    · cases hlist : t.list place with
      | error err =>
        rw [hlist] at h
        exact h
      | ok items =>
        rw [hlist] at h
        exact walkItems_mono (fun place result r => ih) h

/-- Runs that more fuel does not change return one value. -/
theorem returns_unique {α : Type*} {f : ℕ → Option α}
    (hsucc : ∀ fuel x, f fuel = some x → f (fuel + 1) = some x) {m n : ℕ} {x y : α} (hx : f m = some x)
    (hy : f n = some y) : x = y := by
  have hmore : ∀ fuel k z, f fuel = some z → f (fuel + k) = some z := by
    intro fuel k z hz
    induction k with
    | zero => exact hz
    | succ k ih => exact hsucc _ _ ih
  have hx' := hmore m n x hx
  rw [Nat.add_comm, hmore n m y hy] at hx'
  exact (Option.some.inj hx').symm

theorem walk_returns_iff (h : walk t limit depth place [] = some r) (x : Except E (List ε)) :
    (∃ fuel, walk t limit fuel place [] = some x) ↔ walk t limit depth place [] = some x := by
  refine ⟨fun ⟨fuel, hx⟩ => ?_, fun hx => ⟨depth, hx⟩⟩
  rw [h, returns_unique (f := fun fuel => walk t limit fuel place []) (fun _ _ => walk_succ) h hx]

theorem loop_returns_iff (h : walk t limit depth place [] = some r) (x : Except E (List ε)) :
    (∃ fuel, loop t limit fuel [.visit place] [] = some x) ↔ walk t limit depth place [] = some x := by
  refine ⟨fun ⟨fuel, hx⟩ => ?_, loop_of_walk⟩
  obtain ⟨fuel', hr⟩ := loop_of_walk h
  rw [h, returns_unique (f := fun fuel => loop t limit fuel [.visit place] []) (fun _ _ => loop_succ) hr hx]

end Loop

/-! ## What the recursion returns -/

/-- The entry of an item and of what is below it. -/
def block (t : Tree ν ι ε E) (below : ν → List ε) (place : ν) (item : ι) : List ε :=
  t.emit place item :: (t.sub place item).elim [] below

/-- All entries, parents first; those of a place that is not read are left out. -/
def preorder (t : Tree ν ι ε E) : ℕ → ν → List ε
  | 0, _ => []
  | fuel + 1, place =>
    match t.list place with
    | .error _ => []
    | .ok items => items.flatMap (block t (preorder t fuel) place)

/-- The place below one of the items fails before the room is used up. -/
def BlockedItems (t : Tree ν ι ε E) (blocked : Option ℕ → ν → Prop) (below : ν → List ε) (place : ν) :
    Option ℕ → List ι → Prop
  | _, [] => False
  | room, item :: items =>
    (∃ m, t.sub place item = some m ∧ blocked (spend room 1) m) ∨
      BlockedItems t blocked below place (spend room (block t below place item).length) items

/-- A place that cannot be read comes before the room is used up. -/
def Blocked (t : Tree ν ι ε E) : ℕ → Option ℕ → ν → Prop
  | 0, _, _ => False
  | fuel + 1, room, place =>
    room ≠ some 0 ∧
      match t.list place with
      | .error _ => True
      | .ok items => BlockedItems t (Blocked t fuel) (preorder t fuel) place room items

section Spec

variable {t : Tree ν ι ε E}

variable {place : ν} {fuel : ℕ}

theorem preorder_error {err : E} (h : t.list place = .error err) : preorder t (fuel + 1) place = [] := by
  rw [preorder, h]

variable {items : List ι}

theorem preorder_ok (h : t.list place = .ok items) :
    preorder t (fuel + 1) place = items.flatMap (block t (preorder t fuel) place) := by
  rw [preorder, h]

variable {room : Option ℕ}

theorem blocked_error {err : E}
    (h : t.list place = .error err) : Blocked t (fuel + 1) room place ↔ room ≠ some 0 := by
  rw [Blocked, h]
  exact and_iff_left trivial

theorem blocked_ok (h : t.list place = .ok items) : Blocked t (fuel + 1) room place ↔ room ≠ some 0 ∧
      BlockedItems t (Blocked t fuel) (preorder t fuel) place room items := by
  rw [Blocked, h]

theorem not_blocked_zero (fuel : ℕ) (place : ν) : ¬ Blocked t fuel (some 0) place := by
  cases fuel with
  | zero => exact id
  | succ fuel =>
    rw [Blocked]
    exact fun h => h.1 rfl

theorem not_blockedItems_zero (fuel : ℕ) (place : ν) (items : List ι) :
    ¬ BlockedItems t (Blocked t fuel) (preorder t fuel) place (some 0) items := by
  induction items with
  | nil => exact id
  | cons item items ih =>
    rw [BlockedItems, spend_of_zero, spend_of_zero]
    rintro (⟨m, -, hm⟩ | h)
    · exact not_blocked_zero fuel m hm
    · exact ih h

variable (limit : Option ℕ)

theorem walkItems_spec (result : List ε) (hvisit : ∀ item ∈ items, ∀ m, t.sub place item = some m → ∀ result,
      (Blocked t fuel (spend limit result.length) m ∧
          ∃ err, walk t limit fuel m result = some (.error err)) ∨
        ¬ Blocked t fuel (spend limit result.length) m ∧ walk t limit fuel m result =
          some (.ok (result ++ takeRoom (spend limit result.length) (preorder t fuel m)))) :
    (BlockedItems t (Blocked t fuel) (preorder t fuel) place (spend limit result.length) items ∧
        ∃ err, walkItems t limit (walk t limit fuel) place items result = some (.error err)) ∨
      ¬ BlockedItems t (Blocked t fuel) (preorder t fuel) place (spend limit result.length) items ∧
        walkItems t limit (walk t limit fuel) place items result =
          some (.ok (result ++ takeRoom (spend limit result.length)
            (items.flatMap (block t (preorder t fuel) place)))) := by
  induction items generalizing result with
  | nil => exact .inr ⟨id, by rw [walkItems, List.flatMap_nil, takeRoom_nil, List.append_nil]⟩
  | cons item items ih =>
    have hitems := fun result =>
      ih result fun item hitem => hvisit item (List.mem_cons_of_mem _ hitem)
    rw [walkItems]
    by_cases hreached : reached limit result.length = true
    · rw [if_pos hreached, (reached_iff _ _).1 hreached, takeRoom_zero, List.append_nil]
      exact .inr ⟨not_blockedItems_zero _ _ _, rfl⟩
    · have hroom : spend limit result.length ≠ some 0 := fun h => hreached ((reached_iff _ _).2 h)
      rw [if_neg hreached, BlockedItems, List.flatMap_cons]
      have hemit : spend (spend limit result.length) 1 =
          spend limit (result ++ [t.emit place item]).length := by
        rw [spend_spend, List.length_append, List.length_singleton]
      cases hsub : t.sub place item with
      | none =>
        have hblock : block t (preorder t fuel) place item = [t.emit place item] := by
          rw [block, hsub]
          rfl
        have hnone : ¬ ∃ m, none = some m ∧ Blocked t fuel (spend (spend limit result.length) 1) m := by
          rintro ⟨m, hm, -⟩
          cases hm
        rw [hblock, List.singleton_append, takeRoom_cons hroom, List.length_singleton, hemit]
        rw [hemit] at hnone
        rcases hitems (result ++ [t.emit place item]) with ⟨hb, err, herr⟩ | ⟨hb, hok⟩
        · exact .inl ⟨.inr hb, err, herr⟩
        · refine .inr ⟨fun h => h.elim hnone hb, ?_⟩
          rw [hok, List.append_assoc, List.singleton_append]
      | some m =>
        have hblock : block t (preorder t fuel) place item =
            t.emit place item :: preorder t fuel m := by
          rw [block, hsub]
          rfl
        dsimp only
        rw [hblock, List.cons_append, takeRoom_cons hroom, List.length_cons, Nat.add_comm _ 1,
          ← spend_spend, hemit]
        rcases hvisit item List.mem_cons_self m hsub (result ++ [t.emit place item]) with
          ⟨hb, err, herr⟩ | ⟨hb, hok⟩
        · rw [herr]
          exact .inl ⟨.inl ⟨m, rfl, hb⟩, err, rfl⟩
        · rw [hok]
          dsimp only
          have hfirst : ¬ ∃ m', some m = some m' ∧
              Blocked t fuel (spend limit (result ++ [t.emit place item]).length) m' := by
            rintro ⟨m', hm', hb'⟩
            obtain rfl := Option.some.inj hm'
            exact hb hb'
          have hafter : spend limit (result ++ [t.emit place item] ++ takeRoom
              (spend limit (result ++ [t.emit place item]).length) (preorder t fuel m)).length =
              spend (spend limit (result ++ [t.emit place item]).length) (preorder t fuel m).length := by
            rw [List.length_append, ← spend_spend, spend_length_takeRoom]
          have hrest := hitems (result ++ [t.emit place item] ++ takeRoom
            (spend limit (result ++ [t.emit place item]).length) (preorder t fuel m))
          rw [hafter] at hrest
          rcases hrest with ⟨hb', err, herr⟩ | ⟨hb', hok'⟩
          · exact .inl ⟨.inr hb', err, herr⟩
          · refine .inr ⟨fun h => h.elim hfirst hb', ?_⟩
            rw [hok', takeRoom_append]
            simp only [List.append_assoc, List.cons_append, List.nil_append]

/-- The recursion returns the beginning of the whole list of entries, or the error of a place. -/
theorem walk_spec (h : Fits t fuel place) (result : List ε) :
    (Blocked t fuel (spend limit result.length) place ∧
        ∃ err, walk t limit fuel place result = some (.error err)) ∨
      ¬ Blocked t fuel (spend limit result.length) place ∧ walk t limit fuel place result =
        some (.ok (result ++ takeRoom (spend limit result.length) (preorder t fuel place))) := by
  induction fuel generalizing place result with
  | zero => exact h.elim
  | succ fuel ih =>
    rw [walk]
    by_cases hreached : reached limit result.length = true
    · rw [if_pos hreached, (reached_iff _ _).1 hreached, takeRoom_zero, List.append_nil]
      exact .inr ⟨not_blocked_zero _ _, rfl⟩
    · have hroom : spend limit result.length ≠ some 0 := fun h => hreached ((reached_iff _ _).2 h)
      rw [if_neg hreached]
      cases hlist : t.list place with
      | error err =>
        rw [blocked_error hlist]
        exact .inl ⟨hroom, err, rfl⟩
      | ok items =>
        rw [blocked_ok hlist, preorder_ok hlist]
        rcases walkItems_spec limit result fun item hitem m hm result =>
          ih (h items hlist item hitem m hm) result with ⟨hb, herr⟩ | ⟨hb, hok⟩
        · exact .inl ⟨⟨hroom, hb⟩, herr⟩
        · exact .inr ⟨fun hb' => hb hb'.2, hok⟩

theorem Blocked.none (h : Blocked t fuel room place) : Blocked t fuel none place := by
  induction fuel generalizing room place with
  | zero => exact h
  | succ fuel ih =>
    cases hlist : t.list place with
    | error err =>
      rw [blocked_error hlist]
      exact nofun
    | ok items =>
      rw [blocked_ok hlist] at h ⊢
      refine ⟨nofun, ?_⟩
      have hitems := h.2
      clear h hlist
      induction items generalizing room with
      | nil => exact hitems
      | cons item items ihitems =>
        rcases hitems with ⟨m, hm, hblocked⟩ | hrest
        · exact .inl ⟨m, hm, ih hblocked⟩
        · exact .inr (ihitems hrest)

/-- Where the unlimited recursion succeeds, the limited one returns the beginning of its list. -/
theorem walk_take {entries : List ε} (h : Fits t fuel place)
    (hall : walk t none fuel place [] = some (.ok entries)) (limit : Option ℕ) :
    walk t limit fuel place [] = some (.ok (takeRoom limit entries)) := by
  have hspend : spend limit ([] : List ε).length = limit := spend_zero limit
  rcases walk_spec none h [] with ⟨_, err, herr⟩ | ⟨hfree, hok⟩
  · rw [herr] at hall
    cases hall
  · obtain rfl := Except.ok.inj (Option.some.inj (hok.symm.trans hall))
    rcases walk_spec limit h [] with ⟨hblocked, _⟩ | ⟨_, hlimited⟩
    · exact absurd hblocked.none hfree
    · rw [hlimited, hspend]
      rfl

theorem walk_returns (h : Fits t fuel place) : ∃ r, walk t limit fuel place [] = some r := by
  rcases walk_spec limit h [] with ⟨-, err, herr⟩ | ⟨-, hok⟩
  · exact ⟨_, herr⟩
  · exact ⟨_, hok⟩

end Spec

/-! ## Two orders -/

/-- The items of each place in another order. -/
structure Reorders (t t' : Tree ν ι ε E) : Prop where
  sub : t'.sub = t.sub
  emit : t'.emit = t.emit
  perm : ∀ place items, t.list place = .ok items →
    ∃ items', t'.list place = .ok items' ∧ items'.Perm items
  error : ∀ place err, t.list place = .error err → t'.list place = .error err

/-- Up to the end of the room the items are the same, and so is what is below them. -/
def InOrderItems (t : Tree ν ι ε E) (inOrder : Option ℕ → ν → Prop) (below : ν → List ε) (place : ν) :
    Option ℕ → List ι → List ι → Prop
  | room, item :: items, item' :: items' =>
    room = some 0 ∨ (item = item' ∧ (∀ m, t.sub place item = some m → inOrder (spend room 1) m) ∧
      InOrderItems t inOrder below place (spend room (block t below place item).length) items items')
  | _, _, _ => True

/-- Up to the end of the room every place lists its items as `t'` does. -/
def InOrder (t t' : Tree ν ι ε E) : ℕ → Option ℕ → ν → Prop
  | 0, _, _ => True
  | fuel + 1, room, place =>
    match t.list place, t'.list place with
    | .ok items, .ok items' => InOrderItems t (InOrder t t' fuel) (preorder t fuel) place room items items'
    | _, _ => True

section Orders

variable {t t' : Tree ν ι ε E} {limit : Option ℕ}

theorem Reorders.length_preorder (h : Reorders t t') (fuel : ℕ) (place : ν) :
    (preorder t' fuel place).length = (preorder t fuel place).length := by
  induction fuel generalizing place with
  | zero => rfl
  | succ fuel ih =>
    cases hlist : t.list place with
    | error err => rw [preorder_error hlist, preorder_error (h.error place err hlist)]
    | ok items =>
      obtain ⟨items', hlist', hperm⟩ := h.perm place items hlist
      rw [preorder_ok hlist, preorder_ok hlist', (hperm.flatMap_right _).length_eq, List.length_flatMap,
        List.length_flatMap]
      congr 2
      funext item
      rw [block, block, h.sub, h.emit, List.length_cons, List.length_cons]
      cases t.sub place item with
      | none => rfl
      | some m => rw [Option.elim_some, Option.elim_some, ih m]

theorem Reorders.length_block (h : Reorders t t') (fuel : ℕ) (place : ν) (item : ι) :
    (block t' (preorder t' fuel) place item).length = (block t (preorder t fuel) place item).length := by
  rw [block, block, h.sub, h.emit, List.length_cons, List.length_cons]
  cases t.sub place item with
  | none => rfl
  | some m => rw [Option.elim_some, Option.elim_some, h.length_preorder]

variable {place : ν} {fuel : ℕ}

theorem Reorders.fits (h : Reorders t t') (hfits : Fits t fuel place) : Fits t' fuel place := by
  induction fuel generalizing place with
  | zero => exact hfits
  | succ fuel ih =>
    intro items' hlist' item hitem m hm
    cases hlist : t.list place with
    | error err =>
      rw [h.error place err hlist] at hlist'
      cases hlist'
    | ok items =>
      obtain ⟨items'', hlist'', hperm⟩ := h.perm place items hlist
      obtain rfl := Except.ok.inj (hlist'.symm.trans hlist'')
      rw [h.sub] at hm
      exact ih (hfits items hlist item (hperm.mem_iff.1 hitem) m hm)

theorem takeRoom_block_iff (h : Reorders t t') (hemit : ∀ place, Function.Injective (t.emit place))
    (ih : ∀ room m, takeRoom room (preorder t fuel m) =
      takeRoom room (preorder t' fuel m) ↔ InOrder t t' fuel room m)
    (room : Option ℕ) (items items' : List ι) (hlen : items.length = items'.length) :
    takeRoom room (items.flatMap (block t (preorder t fuel) place)) =
        takeRoom room (items'.flatMap (block t' (preorder t' fuel) place)) ↔
      InOrderItems t (InOrder t t' fuel) (preorder t fuel) place room items items' := by
  induction items generalizing items' room with
  | nil =>
    obtain rfl := List.length_eq_zero_iff.1 hlen.symm
    simp [InOrderItems]
  | cons item items ihItems =>
    obtain ⟨item', items', rfl⟩ := List.exists_cons_of_length_eq_add_one hlen.symm
    rw [InOrderItems, List.flatMap_cons, List.flatMap_cons]
    by_cases hroom : room = some 0
    · rw [hroom, takeRoom_zero, takeRoom_zero]
      exact iff_of_true rfl (.inl rfl)
    · rw [or_iff_right hroom]
      by_cases hitem : item = item'
      · subst hitem
        rw [takeRoom_append_inj (h.length_block fuel place item).symm,
          ihItems _ items' (Nat.succ.inj hlen)]
        have hfirst : takeRoom room (block t (preorder t fuel) place item) =
            takeRoom room (block t' (preorder t' fuel) place item) ↔
            ∀ m, t.sub place item = some m → InOrder t t' fuel (spend room 1) m := by
          rw [block, block, h.sub, h.emit, takeRoom_cons hroom, takeRoom_cons hroom,
            List.cons.injEq, and_iff_right rfl]
          cases t.sub place item with
          | none => simp
          | some m =>
            rw [Option.elim_some, Option.elim_some, ih]
            simp
        rw [hfirst]
        exact ⟨fun hh => ⟨rfl, hh⟩, fun hh => hh.2⟩
      · refine iff_of_false (fun heq => ?_) fun hh => hitem hh.1
        rw [block, block, h.emit, List.cons_append, List.cons_append, takeRoom_cons hroom,
          takeRoom_cons hroom] at heq
        exact hitem (hemit place (List.cons.inj heq).1)

/-- Two orders give the same first entries exactly when the places list them in the same order. -/
theorem takeRoom_preorder_iff (h : Reorders t t') (hemit : ∀ place, Function.Injective (t.emit place))
    (fuel : ℕ) (room : Option ℕ) (place : ν) :
    takeRoom room (preorder t fuel place) = takeRoom room (preorder t' fuel place) ↔
      InOrder t t' fuel room place := by
  induction fuel generalizing room place with
  | zero => exact iff_of_true rfl trivial
  | succ fuel ih =>
    rw [InOrder]
    cases hlist : t.list place with
    | error err =>
      rw [preorder_error hlist, preorder_error (h.error place err hlist)]
      exact iff_of_true rfl trivial
    | ok items =>
      obtain ⟨items', hlist', hperm⟩ := h.perm place items hlist
      rw [preorder_ok hlist, preorder_ok hlist', hlist']
      exact takeRoom_block_iff h hemit ih room items items' hperm.length_eq.symm

/-- Places that list their items as `t'` does are in order. -/
theorem inOrder_of_list_eq (h : Reorders t t') (hlist : ∀ place, t.list place = t'.list place) (fuel : ℕ)
    (room : Option ℕ) (place : ν) : InOrder t t' fuel room place := by
  obtain rfl : t = t' := by
    obtain ⟨list, sub, emit⟩ := t
    obtain ⟨list', sub', emit'⟩ := t'
    obtain ⟨rfl, rfl, -, -⟩ := h
    obtain rfl : list = list' := funext hlist
    rfl
  induction fuel generalizing room place with
  | zero => trivial
  | succ fuel ih =>
    rw [InOrder]
    cases t.list place with
    | error err => trivial
    | ok items =>
      dsimp only
      induction items generalizing room with
      | nil => trivial
      | cons item items ihItems => exact .inr ⟨rfl, fun m _ => ih _ m, ihItems _⟩

theorem InOrderItems.blocked_iff (h : Reorders t t')
    (ih : ∀ room m, InOrder t t' fuel room m → (Blocked t fuel room m ↔ Blocked t' fuel room m))
    {room : Option ℕ} {items items' : List ι} (hlen : items.length = items'.length)
    (horder : InOrderItems t (InOrder t t' fuel) (preorder t fuel) place room items items') :
    BlockedItems t (Blocked t fuel) (preorder t fuel) place room items ↔
      BlockedItems t' (Blocked t' fuel) (preorder t' fuel) place room items' := by
  induction items generalizing items' room with
  | nil =>
    obtain rfl := List.length_eq_zero_iff.1 hlen.symm
    exact Iff.rfl
  | cons item items ihItems =>
    obtain ⟨item', items', rfl⟩ := List.exists_cons_of_length_eq_add_one hlen.symm
    rw [InOrderItems] at horder
    rcases horder with rfl | ⟨rfl, hbelow, hrest⟩
    · exact iff_of_false (not_blockedItems_zero _ _ _) (not_blockedItems_zero _ _ _)
    · rw [BlockedItems, BlockedItems, h.length_block, h.sub, ihItems (Nat.succ.inj hlen) hrest]
      refine or_congr_left (exists_congr fun m => and_congr_right fun hm => ?_)
      exact ih _ m (hbelow m hm)

theorem InOrder.blocked_iff (h : Reorders t t') {room : Option ℕ}
    (horder : InOrder t t' fuel room place) : Blocked t fuel room place ↔ Blocked t' fuel room place := by
  induction fuel generalizing room place with
  | zero => exact Iff.rfl
  | succ fuel ih =>
    cases hlist : t.list place with
    | error err => rw [blocked_error hlist, blocked_error (h.error place err hlist)]
    | ok items =>
      obtain ⟨items', hlist', hperm⟩ := h.perm place items hlist
      rw [InOrder, hlist, hlist'] at horder
      rw [blocked_ok hlist, blocked_ok hlist',
        InOrderItems.blocked_iff h (fun room m => ih) hperm.length_eq.symm horder]

/-- Two orders return the same entries exactly when the places list them in the same order as far as there
is room, or both fail. -/
theorem agree_iff (h : Reorders t t') (hemit : ∀ place, Function.Injective (t.emit place))
    (hfits : Fits t fuel place) :
    (∀ entries, walk t limit fuel place [] = some (.ok entries) ↔
        walk t' limit fuel place [] = some (.ok entries)) ↔
      InOrder t t' fuel limit place ∨ (Blocked t fuel limit place ∧ Blocked t' fuel limit place) := by
  have hspec := walk_spec limit hfits []
  have hspec' := walk_spec limit (h.fits hfits) []
  rw [List.length_nil, spend_zero, List.nil_append] at hspec hspec'
  rcases hspec with ⟨hb, err, herr⟩ | ⟨hb, hok⟩
  · rcases hspec' with ⟨hb', err', herr'⟩ | ⟨hb', hok'⟩
    · rw [herr, herr']
      exact iff_of_true (fun entries => by simp) (.inr ⟨hb, hb'⟩)
    · rw [herr, hok']
      refine iff_of_false (fun hall => ?_) ?_
      · cases (hall _).2 rfl
      · rintro (horder | hboth)
        · exact hb' ((horder.blocked_iff h).1 hb)
        · exact hb' hboth.2
  · rcases hspec' with ⟨hb', err', herr'⟩ | ⟨hb', hok'⟩
    · rw [herr', hok]
      refine iff_of_false (fun hall => ?_) ?_
      · cases (hall _).1 rfl
      · rintro (horder | hboth)
        · exact hb ((horder.blocked_iff h).2 hb')
        · exact hb hboth.1
    · rw [hok, hok', ← takeRoom_preorder_iff h hemit]
      constructor
      · intro hall
        exact .inl (Except.ok.inj (Option.some.inj ((hall _).1 rfl))).symm
      · rintro (heq | hboth)
        · rw [heq]
          exact fun entries => Iff.rfl
        · exact absurd hboth.1 hb

end Orders

end OpenViking.BoundedWalk
