import Mathlib.Algebra.Order.Group.Nat

/-!
# Limits and the room they leave

A limit on the number of entries of a list that grows, what is left of it, and the entries that fit.
-/

namespace OpenViking.Room

variable {ε : Type*}

/-- A count has reached its limit. -/
def reached (limit : Option ℕ) (count : ℕ) : Bool := limit.any fun limit => decide (limit ≤ count)

/-- What is left of a limit after some entries. -/
def spend (room : Option ℕ) (count : ℕ) : Option ℕ := room.map fun room => room - count

/-- The entries there is room for. -/
def takeRoom : Option ℕ → List ε → List ε
  | none, entries => entries
  | some room, entries => entries.take room

theorem reached_iff (limit : Option ℕ) (count : ℕ) :
    reached limit count = true ↔ spend limit count = some 0 := by
  cases limit with
  | none => simp [reached, spend]
  | some limit =>
    simp only [reached, spend, Option.any_some, decide_eq_true_eq, Option.map_some, Option.some.injEq]
    omega

variable (room : Option ℕ)

@[simp] theorem spend_spend (m n : ℕ) : spend (spend room m) n = spend room (m + n) := by
  cases room with
  | none => rfl
  | some room =>
    show some (room - m - n) = some (room - (m + n))
    rw [Nat.sub_sub]

@[simp] theorem spend_zero : spend room 0 = room := by
  cases room with
  | none => rfl
  | some room => rfl

theorem spend_of_zero (count : ℕ) : spend (some 0) count = some 0 := by
  show some (0 - count) = some 0
  rw [Nat.zero_sub]

@[simp] theorem takeRoom_nil : takeRoom room ([] : List ε) = [] := by
  cases room with
  | none => rfl
  | some room => exact List.take_nil

@[simp] theorem takeRoom_zero (entries : List ε) : takeRoom (some 0) entries = [] := rfl

theorem takeRoom_append (first rest : List ε) :
    takeRoom room (first ++ rest) = takeRoom room first ++ takeRoom (spend room first.length) rest := by
  cases room with
  | none => rfl
  | some room => exact List.take_append

theorem takeRoom_cons {room : Option ℕ} (h : room ≠ some 0) (entry : ε) (rest : List ε) :
    takeRoom room (entry :: rest) = entry :: takeRoom (spend room 1) rest := by
  cases room with
  | none => rfl
  | some room =>
    obtain ⟨room, rfl⟩ := Nat.exists_eq_succ_of_ne_zero fun h0 => h (congrArg some h0)
    rfl

theorem spend_length_takeRoom (entries : List ε) :
    spend room (takeRoom room entries).length = spend room entries.length := by
  cases room with
  | none => rfl
  | some room =>
    show some (room - (entries.take room).length) = some (room - entries.length)
    rw [List.length_take]
    congr 1
    omega

/-- Lists with as much before them are cut at the same place. -/
theorem takeRoom_append_inj {room : Option ℕ} {first first' rest rest' : List ε}
    (hlen : first.length = first'.length) :
    takeRoom room (first ++ rest) = takeRoom room (first' ++ rest') ↔
      takeRoom room first = takeRoom room first' ∧
        takeRoom (spend room first.length) rest = takeRoom (spend room first.length) rest' := by
  rw [takeRoom_append, takeRoom_append, ← hlen]
  refine ⟨fun h => List.append_inj h ?_, fun h => by rw [h.1, h.2]⟩
  cases room with
  | none => exact hlen
  | some room =>
    show (first.take room).length = (first'.take room).length
    rw [List.length_take, List.length_take, hlen]

/-- What a cut before a filter loses: nothing, if enough is left or nothing was to come. -/
theorem take_filter_take_iff (p : ε → Bool) (entries : List ε) (m n : ℕ) :
    ((entries.take m).filter p).take n = (entries.filter p).take n ↔
      n ≤ ((entries.take m).filter p).length ∨ ∀ entry ∈ entries.drop m, p entry = false := by
  have hsplit : entries.filter p = (entries.take m).filter p ++ (entries.drop m).filter p := by
    rw [← List.filter_append, List.take_append_drop]
  have hnone : (∀ entry ∈ entries.drop m, p entry = false) ↔ (entries.drop m).filter p = [] := by
    simp [List.filter_eq_nil_iff]
  rw [hsplit, List.take_append, List.self_eq_append_right, List.take_eq_nil_iff, hnone, Nat.sub_eq_zero_iff_le]

end OpenViking.Room
