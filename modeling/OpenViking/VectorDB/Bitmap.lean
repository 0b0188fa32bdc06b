import Mathlib.Data.Finset.Sort
import Mathlib.Data.Finset.SymmDiff
import Mathlib.Order.Interval.Finset.Fin
import OpenViking.Common.System

/-!
# Bitmaps with two representations

`Bitmap` (`bitmap_holder/bitmap.h` and `bitmap.cpp`) holds few ids in a `std::set` and many in a Roaring
bitmap, and keeps the number of its ids once it has been asked for.  What CRoaring holds is a finite set; a
text that is parsed is the set that CRoaring wrote into it.

Deviation: `Exclude` and `Intersect` by reference of two Roaring bitmaps keep the old number, `FastUnion` of
several reads a null pointer, and `Exclude` of a set from itself erases what it iterates over.

Result:

* `run_denotes`: in which runs bitmaps behave as sets.
-/

namespace OpenViking.VectorDB

/-- A `uint32_t`. -/
abbrev BitId := Fin (2 ^ 32)

/-- `kSetThreshold`. -/
def kSetThreshold : ℕ := 32

/-! ## Model -/

/-- `Bitmap` (`bitmap.h`, 199-203). -/
structure Bitmap where
  roaring : Finset BitId := ∅
  set : Finset BitId := ∅
  isRoaring : Bool := false
  nbitCache : ℕ := 0
  hasNbitCache : Bool := false

namespace Bitmap

/-- The ids that `Isset` finds (96-102). -/
def ids (b : Bitmap) : Finset BitId := if b.isRoaring then b.roaring else b.set

/-- `to_roaring` (177-185). -/
def toRoaring (b : Bitmap) : Bitmap :=
  if b.isRoaring then b else { b with roaring := b.roaring ∪ b.set, set := ∅, isRoaring := true }

/-- The number is not known. -/
def forget (b : Bitmap) : Bitmap := { b with hasNbitCache := false }

/-- `Set` (75-85). -/
def setId (b : Bitmap) (id : BitId) : Bitmap :=
  if b.isRoaring then { b with roaring := insert id b.roaring }.forget
  else
    let b := { b with set := insert id b.set }
    (if kSetThreshold < b.set.card then b.toRoaring else b).forget

/-- `Unset` (87-94). -/
def unset (b : Bitmap) (id : BitId) : Bitmap :=
  if b.isRoaring then { b with roaring := b.roaring.erase id }.forget
  else { b with set := b.set.erase id }.forget

/-- `to_roaring`, and ids that are added to it. -/
def addRoaring (b : Bitmap) (ids : Finset BitId) : Bitmap :=
  { b.toRoaring with roaring := b.toRoaring.roaring ∪ ids }.forget

/-- `SetRange` (105-109); `addRange` leaves the upper end out. -/
def setRange (b : Bitmap) (x y : BitId) : Bitmap := b.addRoaring (Finset.Ico x y)

/-- `SetMany` (111-117). -/
def setMany (b : Bitmap) (ids : List BitId) : Bitmap :=
  if ids = [] then b.forget else b.addRoaring ids.toFinset

/-- `nbit` (120-125). -/
def nbit (b : Bitmap) : ℕ := b.ids.card % 2 ^ 32

/-- `get_cached_nbit` (127-135). -/
def getCachedNbit (b : Bitmap) : ℕ × Bitmap :=
  if b.hasNbitCache then (b.nbitCache, b) else (b.nbit, { b with nbitCache := b.nbit, hasNbitCache := true })

/-- `clear` (`bitmap.cpp`, 11-16). -/
def clear (b : Bitmap) : Bitmap := { b with roaring := ∅, set := ∅, isRoaring := false }.forget

/-- `Union` (18-28). -/
def union (b other : Bitmap) : Bitmap :=
  if other.isRoaring then b.addRoaring other.roaring else (other.set.sort.foldl setId b).forget

/-- `Exclude` (67-91). -/
def exclude (b other : Bitmap) : Bitmap :=
  if b.isRoaring && other.isRoaring then { b with roaring := b.roaring \ other.roaring }
  else if !other.isRoaring then (other.set.sort.foldl unset b).forget
  else { b with set := b.set.filter (· ∉ other.ids) }.forget

/-- `Intersect` (93-124). -/
def intersect (b other : Bitmap) : Bitmap :=
  if b.isRoaring && other.isRoaring then { b with roaring := b.roaring ∩ other.roaring }
  else if b.isRoaring then { b.clear with set := other.set.filter (· ∈ b.ids) }
  else { b with set := b.set.filter (· ∈ other.ids) }.forget

/-- `Xor` (126-140). -/
def xor (b other : Bitmap) : Bitmap :=
  { b.toRoaring with roaring := symmDiff b.toRoaring.roaring other.ids }.forget

/-- `FastUnion` of several (40-65): first the Roaring bitmaps, then the others. -/
def fastUnion (b : Bitmap) (others : List Bitmap) : Bitmap :=
  ((others.filter fun other => !other.isRoaring).foldl union
    ((others.filter isRoaring).foldl (fun b other => { b with roaring := b.roaring ∪ other.roaring })
      b.toRoaring)).forget

/-- `copy` (`bitmap.h`, 149-154). -/
def copy (b other : Bitmap) : Bitmap :=
  { b with roaring := other.roaring, set := other.set, isRoaring := other.isRoaring }.forget

/-- `ParseFromString` (`bitmap.cpp`, 188-197), with `to_set` (`bitmap.h`, 187-196). -/
def parse (b : Bitmap) (ids : Finset BitId) : Bitmap :=
  if ids.card ≤ kSetThreshold then { b.clear with set := ids }
  else { b.clear with roaring := ids, isRoaring := true }

end Bitmap

/-- The operations on two bitmaps. -/
inductive SetOp where
  | union
  | exclude
  | intersect
  | xor

def SetOp.onBitmaps : SetOp → Bitmap → Bitmap → Bitmap
  | union => Bitmap.union
  | exclude => Bitmap.exclude
  | intersect => Bitmap.intersect
  | xor => Bitmap.xor

def SetOp.onSets : SetOp → Finset BitId → Finset BitId → Finset BitId
  | union, s, t => s ∪ t
  | exclude, s, t => s \ t
  | intersect, s, t => s ∩ t
  | xor, s, t => symmDiff s t

/-- What is called on a bitmap; other bitmaps are references, or pointers that may be null. -/
inductive BitmapCall (ι : Type*) where
  | set (id : BitId)
  | unset (id : BitId)
  | setRange (x y : BitId)
  | setMany (ids : List BitId)
  | combine (op : SetOp) (other : ι)
  | combinePtr (op : SetOp) (other : Option ι)
  | fastUnion (others : List (Option ι))
  | copy (other : ι)
  | copyPtr (other : Option ι)
  | clear
  | serialize
  | parse (ids : Finset BitId)
  | getCachedNbit

section Calls

variable {ι : Type*} [DecidableEq ι]

/-- `Exclude` erases from the set that it iterates over. -/
def ErasesItself (store : ι → Bitmap) (a other : ι) : Prop :=
  a = other ∧ (store a).isRoaring = false ∧ (store a).set ≠ ∅

instance (store : ι → Bitmap) (a other : ι) : Decidable (ErasesItself store a other) :=
  inferInstanceAs (Decidable (_ ∧ _ ∧ _))

/-- An operation by reference; `none` is undefined behaviour. -/
def runCombine (store : ι → Bitmap) (a : ι) (op : SetOp) (other : ι) : Option Bitmap :=
  match op with
  | .exclude => if ErasesItself store a other then none else some ((store a).exclude (store other))
  | op => some (op.onBitmaps (store a) (store other))

namespace BitmapCall

/-- The bitmap after a call. -/
def run (store : ι → Bitmap) (a : ι) : BitmapCall ι → Option Bitmap
  | .set id => some ((store a).setId id)
  | .unset id => some ((store a).unset id)
  | .setRange x y => some ((store a).setRange x y)
  | .setMany ids => some ((store a).setMany ids)
  | .combine op other => runCombine store a op other
  | .combinePtr _ none => some (store a)
  | .combinePtr op (some other) => (runCombine store a op other).map Bitmap.forget
  | .fastUnion [] => some (store a)
  | .fastUnion [none] => some (store a)
  | .fastUnion [some other] => some ((store a).union (store other)).forget
  | .fastUnion others => if none ∈ others then none else some ((store a).fastUnion (others.reduceOption.map store))
  | .copy other => some ((store a).copy (store other))
  | .copyPtr none => some (store a)
  | .copyPtr (some other) => some ((store a).copy (store other))
  | .clear => some (store a).clear
  | .serialize => some (store a).toRoaring
  | .parse ids => some ((store a).parse ids)
  | .getCachedNbit => some (store a).getCachedNbit.2

/-- The same on sets. -/
def onSets (sets : ι → Finset BitId) (a : ι) : BitmapCall ι → Finset BitId
  | .set id => insert id (sets a)
  | .unset id => (sets a).erase id
  | .setRange x y => sets a ∪ Finset.Ico x y
  | .setMany ids => sets a ∪ ids.toFinset
  | .combine op other => op.onSets (sets a) (sets other)
  | .combinePtr _ none => sets a
  | .combinePtr op (some other) => op.onSets (sets a) (sets other)
  | .fastUnion others => others.reduceOption.foldl (fun s other => s ∪ sets other) (sets a)
  | .copy other => sets other
  | .copyPtr none => sets a
  | .copyPtr (some other) => sets other
  | .clear => ∅
  | .serialize => sets a
  | .parse ids => ids
  | .getCachedNbit => sets a

end BitmapCall

/-- A call on a bitmap of the store. -/
def stepBitmaps (store : ι → Bitmap) (call : ι × BitmapCall ι) : Option (ι → Bitmap) :=
  (call.2.run store call.1).map (Function.update store call.1)

def stepSets (sets : ι → Finset BitId) (call : ι × BitmapCall ι) : ι → Finset BitId :=
  Function.update sets call.1 (call.2.onSets sets call.1)

/-- A call does not leave all ids in the bitmap, whose number is no `uint32_t`; `Exclude` and `Intersect` by
reference of two Roaring bitmaps change nothing if the number is known; `Exclude` does not erase from the set
that it iterates over; no pointer of several is null. -/
def SafeCall (store : ι → Bitmap) (call : ι × BitmapCall ι) : Prop :=
  let kept (a other : ι) : Prop :=
    (store a).isRoaring = true → (store other).isRoaring = true → (store a).hasNbitCache = true →
      call.2.onSets (fun b => (store b).ids) a = (store a).ids
  call.2.onSets (fun b => (store b).ids) call.1 ≠ Finset.univ ∧
    match call with
    | (a, .combine .exclude other) => kept a other ∧ ¬ ErasesItself store a other
    | (a, .combine .intersect other) => kept a other
    | (a, .combinePtr .exclude (some other)) => ¬ ErasesItself store a other
    | (_, .fastUnion others) => others.length < 2 ∨ none ∉ others
    | _ => True

end Calls

/-! ## One call -/

namespace Bitmap

variable {b other : Bitmap} {s t : Finset BitId}

/-- Only one of the representations is populated, and it holds the set. -/
def Holds (b : Bitmap) (s : Finset BitId) : Prop :=
  b.isRoaring = true ∧ b.roaring = s ∧ b.set = ∅ ∨ b.isRoaring = false ∧ b.set = s ∧ b.roaring = ∅

/-- A bitmap behaves as a set. -/
structure Denotes (b : Bitmap) (s : Finset BitId) : Prop where
  holds : b.Holds s
  nbit : b.getCachedNbit.1 = s.card

theorem Holds.ids_eq (h : b.Holds s) : b.ids = s := by
  rcases h with ⟨hkind, hids, -⟩ | ⟨hkind, hids, -⟩
  · rw [ids, hkind, if_pos rfl, hids]
  · rw [ids, hkind, if_neg Bool.false_ne_true, hids]

theorem Holds.denotes (h : b.Holds s) (hcache : b.hasNbitCache = false) (hs : s ≠ Finset.univ) :
    b.Denotes s := by
  have hlt := (Finset.card_lt_iff_ne_univ s).2 hs
  rw [Fintype.card_fin] at hlt
  refine ⟨h, ?_⟩
  rw [getCachedNbit, hcache, if_neg Bool.false_ne_true, nbit, h.ids_eq, Nat.mod_eq_of_lt hlt]

/-- A bitmap that holds the same set and knows the same number. -/
theorem Denotes.same {b' : Bitmap} (h : b.Denotes s) (h' : b'.Holds s)
    (hhas : b'.hasNbitCache = b.hasNbitCache) (hcache : b'.nbitCache = b.nbitCache) : b'.Denotes s := by
  have hnbit := h.nbit
  refine ⟨h', ?_⟩
  rw [getCachedNbit, Bitmap.nbit, h.holds.ids_eq] at hnbit
  rw [getCachedNbit, Bitmap.nbit, h'.ids_eq, hhas, hcache]
  split_ifs at hnbit ⊢
  · exact hnbit
  · exact hnbit

section

variable (h : b.Holds s)

include h

theorem Holds.toRoaring : b.toRoaring.isRoaring = true ∧ b.toRoaring.roaring = s ∧ b.toRoaring.set = ∅ := by
  unfold Bitmap.toRoaring
  rcases h with ⟨hkind, hids, hset⟩ | ⟨hkind, hids, hroaring⟩
  · rw [hkind, if_pos rfl]
    exact ⟨hkind, hids, hset⟩
  · rw [hkind, if_neg Bool.false_ne_true, hids, hroaring, Finset.empty_union]
    exact ⟨rfl, rfl, rfl⟩

theorem Holds.addRoaring (t : Finset BitId) : (b.addRoaring t).Holds (s ∪ t) := by
  obtain ⟨hkind, hids, hset⟩ := h.toRoaring
  refine .inl ⟨hkind, ?_, hset⟩
  show b.toRoaring.roaring ∪ t = s ∪ t
  rw [hids]

theorem Holds.setId (id : BitId) : (b.setId id).Holds (insert id s) := by
  unfold Bitmap.setId
  rcases h with ⟨hkind, rfl, hset⟩ | ⟨hkind, rfl, hroaring⟩
  · rw [if_pos hkind]
    exact .inl ⟨hkind, rfl, hset⟩
  · have hholds : ({ b with set := insert id b.set } : Bitmap).Holds (insert id b.set) :=
      .inr ⟨hkind, rfl, hroaring⟩
    rw [if_neg (by rw [hkind]; exact Bool.false_ne_true)]
    dsimp only
    split_ifs
    · exact .inl hholds.toRoaring
    · exact hholds

theorem Holds.unset (id : BitId) : (b.unset id).Holds (s.erase id) := by
  unfold Bitmap.unset
  rcases h with ⟨hkind, rfl, hset⟩ | ⟨hkind, rfl, hroaring⟩
  · rw [if_pos hkind]
    exact .inl ⟨hkind, rfl, hset⟩
  · rw [if_neg (by rw [hkind]; exact Bool.false_ne_true)]
    exact .inr ⟨hkind, rfl, hroaring⟩

theorem Holds.foldl_setId (l : List BitId) : (l.foldl Bitmap.setId b).Holds (s ∪ l.toFinset) := by
  induction l generalizing b s with
  | nil => rwa [List.toFinset_nil, Finset.union_empty]
  | cons id l ih =>
    rw [List.toFinset_cons, Finset.union_insert, ← Finset.insert_union]
    exact ih (h.setId id)

theorem Holds.foldl_unset (l : List BitId) : (l.foldl Bitmap.unset b).Holds (s \ l.toFinset) := by
  induction l generalizing b s with
  | nil => rwa [List.toFinset_nil, Finset.sdiff_empty]
  | cons id l ih =>
    rw [List.toFinset_cons, Finset.sdiff_insert, ← Finset.erase_sdiff_comm]
    exact ih (h.unset id)

theorem Holds.union (ho : other.Holds t) : (b.union other).Holds (s ∪ t) := by
  unfold Bitmap.union
  rcases ho with ⟨hkind, rfl, -⟩ | ⟨hkind, rfl, -⟩
  · rw [if_pos hkind]
    exact h.addRoaring _
  · have hall := h.foldl_setId other.set.sort
    rw [Finset.sort_toFinset] at hall
    rw [if_neg (by rw [hkind]; exact Bool.false_ne_true)]
    exact hall

theorem Holds.exclude (ho : other.Holds t) : (b.exclude other).Holds (s \ t) := by
  have hids := ho.ids_eq
  rcases ho with ⟨hkind', rfl, -⟩ | ⟨hkind', rfl, -⟩
  · rcases h with ⟨hkind, rfl, hset⟩ | ⟨hkind, rfl, hroaring⟩
    · simp [Holds, Bitmap.exclude, hkind, hkind', hset]
    · simp [Holds, Bitmap.exclude, forget, hkind, hkind', hids, hroaring, Finset.filter_notMem_eq_sdiff]
  · have hall := h.foldl_unset other.set.sort
    rw [Finset.sort_toFinset] at hall
    unfold Bitmap.exclude
    rw [hkind', Bool.and_false]
    exact hall

theorem Holds.intersect (ho : other.Holds t) : (b.intersect other).Holds (s ∩ t) := by
  have hids := ho.ids_eq
  have hids' := h.ids_eq
  rcases h with ⟨hkind, rfl, hset⟩ | ⟨hkind, rfl, hroaring⟩
  · rcases ho with ⟨hkind', rfl, -⟩ | ⟨hkind', rfl, -⟩
    · simp [Holds, Bitmap.intersect, hkind, hkind', hset]
    · simp [Holds, Bitmap.intersect, clear, forget, hkind, hkind', hids', Finset.filter_mem_eq_inter,
        Finset.inter_comm]
  · simp [Holds, Bitmap.intersect, forget, hkind, hids, hroaring, Finset.filter_mem_eq_inter]

theorem Holds.xor (ho : other.Holds t) : (b.xor other).Holds (symmDiff s t) := by
  obtain ⟨hkind, hids, hset⟩ := h.toRoaring
  refine .inl ⟨hkind, ?_, hset⟩
  show symmDiff b.toRoaring.roaring other.ids = _
  rw [hids, ho.ids_eq]

end

theorem Holds.parse (b : Bitmap) (s : Finset BitId) : (b.parse s).Holds s := by
  unfold Bitmap.parse
  split_ifs
  · exact .inr ⟨rfl, rfl, rfl⟩
  · exact .inl ⟨rfl, rfl, rfl⟩

/-- The ids of bitmaps, added to a set. -/
def addAll (s : Finset BitId) (others : List Bitmap) : Finset BitId :=
  others.foldl (fun s other => s ∪ other.ids) s

variable {others : List Bitmap}

theorem Holds.foldl_roaring (h : b.Holds s) (hkind : b.isRoaring = true)
    (hothers : ∀ other ∈ others, other.isRoaring = true) :
    (others.foldl (fun b other => { b with roaring := b.roaring ∪ other.roaring }) b).Holds (addAll s others) := by
  induction others generalizing b s with
  | nil => exact h
  | cons other others ih =>
    rw [List.forall_mem_cons] at hothers
    rcases h with ⟨-, rfl, hset⟩ | ⟨hkind', -, -⟩
    · have hids : other.ids = other.roaring := if_pos hothers.1
      rw [addAll, List.foldl_cons, List.foldl_cons, hids]
      exact ih (.inl ⟨hkind, rfl, hset⟩) hkind hothers.2
    · cases hkind.symm.trans hkind'

theorem Holds.foldl_union (h : b.Holds s) (hothers : ∀ other ∈ others, other.Holds other.ids) :
    (others.foldl Bitmap.union b).Holds (addAll s others) := by
  induction others generalizing b s with
  | nil => exact h
  | cons other others ih =>
    rw [List.forall_mem_cons] at hothers
    exact ih (h.union hothers.1) hothers.2

theorem Holds.fastUnion (h : b.Holds s)
    (hothers : ∀ other ∈ others, other.Holds other.ids) : (b.fastUnion others).Holds (addAll s others) := by
  have : RightCommutative fun (s : Finset BitId) (other : Bitmap) => s ∪ other.ids :=
    ⟨fun s other other' => Finset.union_right_comm s other.ids other'.ids⟩
  have hsplit : addAll s others =
      addAll (addAll s (others.filter isRoaring)) (others.filter fun other => !other.isRoaring) := by
    rw [addAll, addAll, addAll, ← List.foldl_append]
    exact (List.filter_append_perm isRoaring others).symm.foldl_eq s
  have hfirst := Holds.foldl_roaring (.inl h.toRoaring) h.toRoaring.1
    fun other (hother : other ∈ others.filter isRoaring) => (List.mem_filter.1 hother).2
  rw [hsplit]
  exact hfirst.foldl_union fun other hother => hothers other (List.mem_filter.1 hother).1

theorem toRoaring_cache (b : Bitmap) :
    b.toRoaring.hasNbitCache = b.hasNbitCache ∧ b.toRoaring.nbitCache = b.nbitCache := by
  unfold Bitmap.toRoaring
  split_ifs <;> exact ⟨rfl, rfl⟩

theorem parse_cache (b : Bitmap) (ids : Finset BitId) : (b.parse ids).hasNbitCache = false := by
  unfold Bitmap.parse
  split_ifs <;> rfl

theorem setId_cache (b : Bitmap) (id : BitId) : (b.setId id).hasNbitCache = false := by
  unfold Bitmap.setId
  split_ifs <;> rfl

theorem unset_cache (b : Bitmap) (id : BitId) : (b.unset id).hasNbitCache = false := by
  unfold Bitmap.unset
  split_ifs <;> rfl

end Bitmap

open Bitmap

section Runs

variable {ι : Type*} [DecidableEq ι] {store : ι → Bitmap} {sets : ι → Finset BitId} {a other : ι}

variable (op : SetOp)

theorem SetOp.holds {b other : Bitmap} {s t : Finset BitId} (h : b.Holds s) (ho : other.Holds t) :
    (op.onBitmaps b other).Holds (op.onSets s t) := by
  cases op with
  | union => exact h.union ho
  | exclude => exact h.exclude ho
  | intersect => exact h.intersect ho
  | xor => exact h.xor ho

/-- Which operations keep the number of the bitmap. -/
theorem SetOp.cache (b other : Bitmap) :
    (op.onBitmaps b other).hasNbitCache = false ∨
      (op = .exclude ∨ op = .intersect) ∧ b.isRoaring = true ∧ other.isRoaring = true ∧
        (op.onBitmaps b other).hasNbitCache = b.hasNbitCache ∧
        (op.onBitmaps b other).nbitCache = b.nbitCache := by
  cases hkind : b.isRoaring <;> cases hkind' : other.isRoaring <;> cases op <;>
    simp [onBitmaps, Bitmap.union, Bitmap.exclude, Bitmap.intersect, Bitmap.xor, addRoaring,
      clear, forget, hkind, hkind']

theorem SetOp.denotes {b other : Bitmap} {s t : Finset BitId} (h : b.Denotes s) (ho : other.Holds t)
    (hs : op.onSets s t ≠ Finset.univ)
    (hkept : op = .exclude ∨ op = .intersect → b.isRoaring = true → other.isRoaring = true →
      b.hasNbitCache = true → op.onSets s t = s) : (op.onBitmaps b other).Denotes (op.onSets s t) := by
  have hholds := op.holds h.holds ho
  rcases op.cache b other with hforgot | ⟨hop, hkind, hkind', hhas, hcache⟩
  · exact hholds.denotes hforgot hs
  · by_cases hknown : b.hasNbitCache = true
    · rw [hkept hop hkind hkind' hknown] at hholds ⊢
      exact h.same hholds hhas hcache
    · exact hholds.denotes (hhas.trans (eq_false_of_ne_true hknown)) hs

theorem runCombine_eq (herases : op = .exclude → ¬ ErasesItself store a other) :
    runCombine store a op other = some (op.onBitmaps (store a) (store other)) := by
  cases op with
  | exclude => exact if_neg (herases rfl)
  | union => rfl
  | intersect => rfl
  | xor => rfl

/-- A safe call returns, and leaves what it leaves of a set. -/
theorem run_call (hstore : ∀ b, (store b).Denotes (store b).ids) (call : BitmapCall ι)
    (hsafe : SafeCall store (a, call)) :
    ∃ b, call.run store a = some b ∧ b.Denotes (call.onSets (fun b => (store b).ids) a) := by
  obtain ⟨hs, hsafe⟩ := hsafe
  have hold := (hstore a).holds
  cases call with
  | set id => exact ⟨_, rfl, (hold.setId id).denotes (setId_cache _ id) hs⟩
  | unset id => exact ⟨_, rfl, (hold.unset id).denotes (unset_cache _ id) hs⟩
  | setRange x y => exact ⟨_, rfl, (hold.addRoaring _).denotes rfl hs⟩
  | setMany ids =>
    refine ⟨_, rfl, ?_⟩
    unfold Bitmap.setMany
    split_ifs with hnil
    · rw [BitmapCall.onSets, hnil, List.toFinset_nil, Finset.union_empty] at hs ⊢
      exact Holds.denotes (b := (store a).forget) hold rfl hs
    · exact (hold.addRoaring _).denotes rfl hs
  | combine op other =>
    refine ⟨_, runCombine_eq op ?_, op.denotes (hstore a) (hstore other).holds hs ?_⟩
    · rintro rfl
      exact hsafe.2
    · rintro (rfl | rfl)
      · exact hsafe.1
      · exact hsafe
  | combinePtr op other =>
    cases other with
    | none => exact ⟨_, rfl, hstore a⟩
    | some other =>
      refine ⟨(op.onBitmaps (store a) (store other)).forget, ?_,
        Holds.denotes (b := (op.onBitmaps (store a) (store other)).forget) (op.holds hold (hstore other).holds) rfl hs⟩
      rw [BitmapCall.run, runCombine_eq op (by rintro rfl; exact hsafe)]
      rfl
  | fastUnion others =>
    match others with
    | [] => exact ⟨_, rfl, hstore a⟩
    | [none] => exact ⟨_, rfl, hstore a⟩
    | [some other] =>
      exact ⟨_, rfl, Holds.denotes (b := ((store a).union (store other)).forget) (hold.union (hstore other).holds)
        rfl hs⟩
    | first :: second :: rest =>
      have hnone : none ∉ first :: second :: rest := hsafe.resolve_left (by simp)
      have hothers : ∀ other ∈ (first :: second :: rest).reduceOption.map store, other.Holds other.ids := by
        intro other hother
        obtain ⟨b, -, rfl⟩ := List.mem_map.1 hother
        exact (hstore b).holds
      have hall := hold.fastUnion hothers
      rw [addAll, List.foldl_map] at hall
      refine ⟨_, ?_, hall.denotes rfl hs⟩
      cases first with
      | none => exact if_neg hnone
      | some first => exact if_neg hnone
  | copy other => exact ⟨_, rfl, Holds.denotes (b := (store a).copy (store other)) (hstore other).holds rfl hs⟩
  | copyPtr other =>
    cases other with
    | none => exact ⟨_, rfl, hstore a⟩
    | some other => exact ⟨_, rfl, Holds.denotes (b := (store a).copy (store other)) (hstore other).holds rfl hs⟩
  | clear => exact ⟨_, rfl, Holds.denotes (.inr ⟨rfl, rfl, rfl⟩) rfl hs⟩
  | serialize =>
    exact ⟨_, rfl, (hstore a).same (.inl hold.toRoaring) (toRoaring_cache _).1 (toRoaring_cache _).2⟩
  | parse ids => exact ⟨_, rfl, (Holds.parse _ ids).denotes (parse_cache _ ids) hs⟩
  | getCachedNbit =>
    refine ⟨_, rfl, ?_⟩
    have hnbit := (hstore a).nbit
    unfold Bitmap.getCachedNbit at hnbit ⊢
    split_ifs at hnbit ⊢
    · exact hstore a
    · exact ⟨hold, hnbit⟩

/-- **In which runs bitmaps behave as sets.**  A run of safe calls on new bitmaps returns, and leaves every
bitmap with the ids that the same operations leave in sets, in one of its representations, and with their
number. -/
theorem run_denotes (calls : List (ι × BitmapCall ι))
    (hsafe : ActsMeet stepBitmaps SafeCall (fun _ => {}) calls) :
    ∃ store, runActs stepBitmaps (fun _ => {}) calls = some store ∧
      ∀ a, (store a).Denotes (calls.foldl stepSets (fun _ => ∅) a) := by
  suffices hrun : ∀ (store : ι → Bitmap) (sets : ι → Finset BitId), (∀ a, (store a).Denotes (sets a)) →
      ActsMeet stepBitmaps SafeCall store calls → ∃ store', runActs stepBitmaps store calls = some store' ∧
        ∀ a, (store' a).Denotes (calls.foldl stepSets sets a) by
    exact hrun _ _ (fun _ => ⟨.inr ⟨rfl, rfl, rfl⟩, rfl⟩) hsafe
  clear hsafe
  induction calls with
  | nil => exact fun store sets hstore _ => ⟨store, rfl, hstore⟩
  | cons call calls ih =>
    intro store sets hstore hsafe
    obtain ⟨a, call⟩ := call
    obtain rfl : (fun b => (store b).ids) = sets := funext fun b => (hstore b).holds.ids_eq
    obtain ⟨b, hb, hdenotes⟩ := run_call hstore call hsafe.1
    have hstep : stepBitmaps store (a, call) = some (Function.update store a b) := by
      rw [stepBitmaps, hb]
      rfl
    rw [runActs, hstep]
    refine ih _ _ (fun other => ?_) (hsafe.2 _ hstep)
    by_cases hother : other = a
    · subst hother
      rw [stepSets, Function.update_self, Function.update_self]
      exact hdenotes
    · rw [stepSets, Function.update_of_ne hother, Function.update_of_ne hother]
      exact hstore other

end Runs

theorem run_denotes_one : ∃ store, runActs stepBitmaps (fun _ => {}) [((), .set 1)] = some store ∧
    ∀ a, (store a).Denotes ([((), BitmapCall.set 1)].foldl stepSets (fun _ => ∅) a) :=
  run_denotes [((), .set 1)]
    ⟨⟨fun huniv => absurd (huniv.symm ▸ Finset.mem_univ (2 : BitId)) (by decide), trivial⟩, fun _ _ => trivial⟩

/-- The number of ids is asked for before one of two is excluded, and after it. -/
theorem run_denotes_fails : ∃ store : Bool → Bitmap,
    runActs stepBitmaps (fun _ => {}) [(false, .setMany [0, 1]), (true, .setMany [0]), (false, .getCachedNbit),
      (false, .combine .exclude true)] = some store ∧
    (store false).ids = {1} ∧ (store false).getCachedNbit.1 = 2 :=
  ⟨_, rfl, by decide, by decide⟩

end OpenViking.VectorDB
