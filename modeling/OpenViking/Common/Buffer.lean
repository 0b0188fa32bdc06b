import Mathlib.Data.List.Basic
import Mathlib.Tactic.Common
import Mathlib.Tactic.Ring

/-!
# Buffers

Lists as buffers with positions: what stands where (`At`), overwriting a part of a buffer (`patch`), and
pieces laid out one after the other (`place`).  Results:

* `at_place`, `at_flatten`: pieces laid out one after the other are their concatenation;
* `readLE_of_at`: numbers of a fixed width, least significant byte first, are read back.
-/

namespace OpenViking.Buffer

variable {α : Type*} {b c x y : List α} {off : ℕ}

/-! ## Positions -/

/-- `x` stands in the buffer at `off`. -/
def At (b : List α) (off : ℕ) (x : List α) : Prop := ∀ i, i < x.length → b[off + i]? = x[i]?

theorem at_self (x : List α) : At x 0 x := by
  intro i _
  rw [Nat.zero_add]

theorem at_nil (b : List α) (off : ℕ) : At b off [] := fun _ hi => absurd hi (Nat.not_lt_zero _)

theorem At.le (h : At b off x) (hx : x ≠ []) : off + x.length ≤ b.length := by
  have hpos := List.length_pos_of_ne_nil hx
  have hlast := h (x.length - 1) (by omega)
  rw [List.getElem?_eq_getElem (l := x) (by omega)] at hlast
  obtain ⟨hlt, -⟩ := List.getElem?_eq_some_iff.1 hlast
  omega

theorem at_append : At b off (x ++ y) ↔ At b off x ∧ At b (off + x.length) y := by
  constructor
  · refine fun h => ⟨fun i hi => ?_, fun i hi => ?_⟩
    · rw [h i (by simp; omega), List.getElem?_append_left hi]
    · have := h (x.length + i) (by simp; omega)
      rwa [List.getElem?_append_right (by omega), Nat.add_sub_cancel_left, ← Nat.add_assoc] at this
  · rintro ⟨hx, hy⟩ i hi
    by_cases hix : i < x.length
    · rw [hx i hix, List.getElem?_append_left hix]
    · have := hy (i - x.length) (by simp at hi; omega)
      rw [List.getElem?_append_right (by omega), ← this]
      congr 1
      omega

theorem at_cons {a : α} : At b off (a :: x) ↔ b[off]? = some a ∧ At b (off + 1) x := by
  rw [← List.singleton_append, at_append]
  simp [At]

theorem At.append_left (h : At b off x) (a : List α) : At (a ++ b) (a.length + off) x := by
  intro i hi
  rw [List.getElem?_append_right (by omega), ← h i hi]
  congr 1
  omega

/-- What stands somewhere can be cut out. -/
theorem At.slice (h : At b off x) : (b.drop off).take x.length = x := by
  apply List.ext_getElem?
  intro i
  rw [List.getElem?_take, List.getElem?_drop]
  split_ifs with hi
  · exact h i hi
  · rw [List.getElem?_eq_none (by omega)]

/-- A buffer in which something of its own length stands at the beginning. -/
theorem At.eq (h : At b 0 x) (hlen : b.length = x.length) : b = x := by
  have := h.slice
  rwa [List.drop_zero, ← hlen, List.take_length] at this

/-! ## Writing -/

/-- Overwrite the part of the buffer that begins at `off`. -/
def patch (b : List α) (off : ℕ) (x : List α) : List α :=
  b.take off ++ x ++ b.drop (off + x.length)

theorem length_patch (h : off + x.length ≤ b.length) : (patch b off x).length = b.length := by
  simp only [patch, List.length_append, List.length_take, List.length_drop]
  omega

theorem at_patch_self (h : off + x.length ≤ b.length) : At (patch b off x) off x := by
  intro i hi
  have htake : (b.take off).length = off := by simp; omega
  rw [patch, List.append_assoc, List.getElem?_append_right (by omega), htake,
    List.getElem?_append_left (by omega)]
  congr 1
  omega

/-- The two parts do not overlap. -/
def Apart (v w : ℕ × List α) : Prop := v.1 + v.2.length ≤ w.1 ∨ w.1 + w.2.length ≤ v.1

variable {v w : ℕ × List α}

theorem At.patch (hv : At b v.1 v.2) (h : Apart v w)
    (hw : w.1 + w.2.length ≤ b.length) : At (patch b w.1 w.2) v.1 v.2 := by
  intro i hi
  rw [← hv i hi, Buffer.patch, List.append_assoc]
  have htake : (b.take w.1).length = w.1 := by simp; omega
  rcases h with h | h
  · rw [List.getElem?_append_left (by omega), List.getElem?_take, if_pos (by omega)]
  · rw [List.getElem?_append_right (by omega), htake, List.getElem?_append_right (by omega),
      List.getElem?_drop]
    congr 1
    omega

/-- Write one after the other. -/
def writeAll (b : List α) (ws : List (ℕ × List α)) : List α :=
  ws.foldl (fun b w => patch b w.1 w.2) b

variable {ws : List (ℕ × List α)}

theorem length_writeAll (h : ∀ w ∈ ws, w.1 + w.2.length ≤ b.length) :
    (writeAll b ws).length = b.length := by
  induction ws generalizing b with
  | nil => rfl
  | cons w ws ih =>
    have hlen := length_patch (h w List.mem_cons_self)
    refine (ih fun v hv => ?_).trans hlen
    rw [hlen]
    exact h v (List.mem_cons_of_mem _ hv)

theorem At.writeAll (hv : At b v.1 v.2)
    (hbound : ∀ w ∈ ws, w.1 + w.2.length ≤ b.length) (h : ∀ w ∈ ws, Apart v w) :
    At (writeAll b ws) v.1 v.2 := by
  induction ws generalizing b with
  | nil => exact hv
  | cons w ws ih =>
    have hw := hbound w List.mem_cons_self
    refine ih (hv.patch (h w List.mem_cons_self) hw) (fun u hu => ?_) fun u hu => ?_
    · rw [length_patch hw]
      exact hbound u (List.mem_cons_of_mem _ hu)
    · exact h u (List.mem_cons_of_mem _ hu)

/-- Writes that do not overlap all stay. -/
theorem at_writeAll (hbound : ∀ w ∈ ws, w.1 + w.2.length ≤ b.length)
    (hws : ws.Pairwise Apart) (hw : w ∈ ws) : At (writeAll b ws) w.1 w.2 := by
  induction ws generalizing b with
  | nil => cases hw
  | cons v ws ih =>
    have hv := hbound v List.mem_cons_self
    have hbound' : ∀ u ∈ ws, u.1 + u.2.length ≤ (Buffer.patch b v.1 v.2).length := by
      intro u hu
      rw [length_patch hv]
      exact hbound u (List.mem_cons_of_mem _ hu)
    rw [List.pairwise_cons] at hws
    rcases List.mem_cons.1 hw with rfl | hw
    · exact (at_patch_self hv).writeAll hbound' hws.1
    · exact ih hbound' hws.2 hw

/-! ## Pieces one after the other -/

/-- The pieces with their positions, the first one at `off`. -/
def place : ℕ → List (List α) → List (ℕ × List α)
  | _, [] => []
  | off, x :: xs => (off, x) :: place (off + x.length) xs

variable {xs : List (List α)}

theorem le_of_mem_place (h : w ∈ place off xs) :
    off ≤ w.1 ∧ w.1 + w.2.length ≤ off + xs.flatten.length := by
  induction xs generalizing off with
  | nil => cases h
  | cons x xs ih =>
    rcases List.mem_cons.1 h with rfl | h
    · simp
    · have := ih h
      simp only [List.flatten_cons, List.length_append]
      omega

theorem pairwise_place (off : ℕ) (xs : List (List α)) : (place off xs).Pairwise Apart := by
  induction xs generalizing off with
  | nil => exact .nil
  | cons x xs ih => exact .cons (fun w hw => .inl (le_of_mem_place hw).1) (ih _)

/-- The pieces of a concatenation stand in it. -/
theorem at_place (h : At b off xs.flatten) (hw : w ∈ place off xs) : At b w.1 w.2 := by
  induction xs generalizing off with
  | nil => cases hw
  | cons x xs ih =>
    rw [List.flatten_cons, at_append] at h
    rcases List.mem_cons.1 hw with rfl | hw
    · exact h.1
    · exact ih h.2 hw

/-- Pieces that stand one after the other are their concatenation. -/
theorem at_flatten (h : ∀ w ∈ place off xs, At b w.1 w.2) : At b off xs.flatten := by
  induction xs generalizing off with
  | nil => exact at_nil b off
  | cons x xs ih =>
    rw [List.flatten_cons, at_append]
    exact ⟨h (off, x) List.mem_cons_self, ih fun w hw => h w (List.mem_cons_of_mem _ hw)⟩

/-! ## Numbers -/

/-- The number in `w` bytes, the least significant one first; what does not fit is dropped. -/
def toLE : ℕ → ℕ → List UInt8
  | 0, _ => []
  | w + 1, n => UInt8.ofNat n :: toLE w (n / 256)

/-- The number that the bytes are, the least significant one first. -/
def ofLE : List UInt8 → ℕ
  | [] => 0
  | d :: ds => d.toNat + 256 * ofLE ds

@[simp] theorem length_toLE (w n : ℕ) : (toLE w n).length = w := by
  induction w generalizing n with
  | zero => rfl
  | succ w ih => rw [toLE, List.length_cons, ih]

theorem ofLE_toLE {w n : ℕ} (h : n < 256 ^ w) : ofLE (toLE w n) = n := by
  induction w generalizing n with
  | zero =>
    have : n = 0 := by simpa using h
    rw [this]
    rfl
  | succ w ih =>
    have hdiv : n / 256 < 256 ^ w := by
      rw [Nat.div_lt_iff_lt_mul (by decide), ← pow_succ]
      exact h
    rw [toLE, ofLE, ih hdiv, UInt8.toNat_ofNat']
    omega

/-- Read `w` bytes at `off` as a number, if they are there. -/
def readLE (b : List UInt8) (off w : ℕ) : Option ℕ :=
  if off + w ≤ b.length then some (ofLE ((b.drop off).take w)) else none

theorem readLE_of_at {b : List UInt8} {w n : ℕ} (h : At b off (toLE w n)) (hw : 0 < w)
    (hn : n < 256 ^ w) : readLE b off w = some n := by
  have hne : toLE w n ≠ [] := by
    rw [← List.length_pos_iff_ne_nil, length_toLE]
    exact hw
  have hle := h.le hne
  have hslice := h.slice
  rw [length_toLE] at hle hslice
  rw [readLE, if_pos hle, hslice, ofLE_toLE hn]

theorem toLE_ofLE (x : List UInt8) : toLE x.length (ofLE x) = x := by
  induction x with
  | nil => rfl
  | cons d x ih =>
    have hd := d.toNat_lt
    have hdiv : (d.toNat + 256 * ofLE x) / 256 = ofLE x := by omega
    have hbyte : UInt8.ofNat (d.toNat + 256 * ofLE x) = d := by
      apply UInt8.toNat_inj.1
      rw [UInt8.toNat_ofNat']
      omega
    rw [List.length_cons, ofLE, toLE, hdiv, ih, hbyte]

/-- What is read as a number stands there. -/
theorem at_of_readLE {b : List UInt8} {w n : ℕ} (h : readLE b off w = some n) : At b off (toLE w n) := by
  rw [readLE] at h
  split_ifs at h with hle
  obtain rfl := Option.some.inj h
  have hlen : ((b.drop off).take w).length = w := by
    rw [List.length_take, List.length_drop]
    omega
  have hslice := toLE_ofLE ((b.drop off).take w)
  rw [hlen] at hslice
  rw [hslice]
  intro i hi
  rw [hlen] at hi
  rw [List.getElem?_take, if_pos hi, List.getElem?_drop]

/-- The least significant byte of a number that is read. -/
theorem eq_of_readLE_append {x y : List UInt8} {d : UInt8} {w n : ℕ}
    (h : readLE (x ++ d :: y) x.length (w + 1) = some n) : n = d.toNat + 256 * ofLE (y.take w) := by
  rw [readLE, List.drop_left] at h
  split_ifs at h with hle
  exact (Option.some.inj h).symm

end OpenViking.Buffer
