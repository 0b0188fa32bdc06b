import Mathlib

/-!
# Ranged maps

A model of `RangedMap` (`scalar/bitmap_holder/ranged_map.{h,cpp}`), the index of one numeric field:
the rows in the order of their values, cut into slots, each slot with the bitmap of its rows.

The values are the elements of a linear order with the arithmetic of `double`, without laws.  `NaN`,
which only marks an offset without a value in `offset_to_value_`, is `none`.
-/

namespace OpenViking.VectorDB

/-! ## Model -/

/-- `kRangedMapSlotSize` (`ranged_map.h`, 16). -/
def kRangedMapSlotSize : ℕ := 10000

/-- `RangedMap::SlotMeta` (`ranged_map.h`, 149-247).  `value_vec` and `offset_vec` have the same
length and change at the same index, so they are one vector of pairs. -/
structure SlotMeta (R : Type) where
  left : R
  right : R
  bitmap : Finset ℕ
  vec : List (R × ℕ)
  deriving DecidableEq

/-- `RangedMap`. -/
structure RangedMap (R : Type) where
  offsetToValue : List (Option R)
  slots : List (SlotMeta R)
  deriving DecidableEq

variable {R : Type} [LinearOrder R]

/-- `std::lower_bound` on `value_vec`, as an index. -/
def lowerBound (vec : List (R × ℕ)) (value : R) : ℕ := (vec.takeWhile (·.1 < value)).length

/-- `std::upper_bound` on `value_vec`, as an index. -/
def upperBound (vec : List (R × ℕ)) (value : R) : ℕ := (vec.takeWhile (·.1 ≤ value)).length

namespace SlotMeta

/-- `get_right_border`. -/
def getRightBorder (s : SlotMeta R) (lowerThan : R) (includeLe : Bool) : ℕ :=
  if includeLe then upperBound s.vec lowerThan else lowerBound s.vec lowerThan

/-- `get_left_border`. -/
def getLeftBorder (s : SlotMeta R) (greaterThan : R) (includeGe : Bool) : ℕ :=
  if includeGe then lowerBound s.vec greaterThan else upperBound s.vec greaterThan

/-- The offsets of the entries `from_` to `to_`, and how many the caller counts. -/
def offsetsBetween (s : SlotMeta R) (from_ to_ : ℕ) : Finset ℕ × ℤ :=
  ((((s.vec.take to_).drop from_).map Prod.snd).toFinset, (to_ : ℤ) - from_)

/-- `get_lower_than_data` (178-188). -/
def getLowerThanData (s : SlotMeta R) (lowerThan : R) (includeLe : Bool) : Finset ℕ × ℤ :=
  s.offsetsBetween 0 (s.getRightBorder lowerThan includeLe)

/-- `get_greater_than_data` (190-199). -/
def getGreaterThanData (s : SlotMeta R) (greaterThan : R) (includeGe : Bool) : Finset ℕ × ℤ :=
  s.offsetsBetween (s.getLeftBorder greaterThan includeGe) s.vec.length

/-- `get_range_data` (201-211). -/
def getRangeData (s : SlotMeta R) (lowerThan : R) (includeLe : Bool) (greaterThan : R)
    (includeGe : Bool) : Finset ℕ × ℤ :=
  s.offsetsBetween (s.getLeftBorder greaterThan includeGe) (s.getRightBorder lowerThan includeLe)

/-- A whole slot. -/
def all (s : SlotMeta R) : Finset ℕ × ℤ := (s.bitmap, s.vec.length)

/-- A slot of the entries `vec`, bounded by the first and the last value. -/
def ofVec (vec : List (R × ℕ)) (dflt : R) : SlotMeta R where
  left := (vec.head?.map Prod.fst).getD dflt
  right := (vec.getLast?.map Prod.fst).getD dflt
  bitmap := (vec.map Prod.snd).toFinset
  vec := vec

/-- A slot with one more entry, after those with at most its value. -/
def insert (slot : SlotMeta R) (offset : ℕ) (value : R) : SlotMeta R where
  left := min value slot.left
  right := max value slot.right
  bitmap := Insert.insert offset slot.bitmap
  vec := slot.vec.takeWhile (·.1 ≤ value) ++
    (value, offset) :: slot.vec.dropWhile (·.1 ≤ value)

/-- A slot that has become too long is split in two halves: `split_half_to_new_slot` (156-176). -/
def splitHalf (slot : SlotMeta R) : List (SlotMeta R) :=
  let splitIdx := slot.vec.length / 2
  [{ slot with
      right := (ofVec (slot.vec.take splitIdx) slot.right).right
      bitmap := (ofVec (slot.vec.take splitIdx) slot.right).bitmap
      vec := slot.vec.take splitIdx },
    ofVec (slot.vec.drop splitIdx) slot.right]

/-- A slot without the entry of an offset, searched from the first with its value on; a slot that
has become empty goes (`ranged_map.cpp`, 150-176). -/
def erase (slot : SlotMeta R) (offset : ℕ) (value : R) : List (SlotMeta R) :=
  let after := slot.vec.dropWhile (·.1 < value)
  let bitmap := slot.bitmap.erase offset
  if after.any (·.2 = offset) then
    let vec := slot.vec.takeWhile (·.1 < value) ++ after.eraseP (·.2 = offset)
    if vec = [] then []
    else [⟨(ofVec vec slot.left).left, (ofVec vec slot.right).right, bitmap, vec⟩]
  else [{ slot with bitmap := bitmap }]

end SlotMeta

namespace RangedMap

/-- A map without values. -/
def empty : RangedMap R := ⟨[], []⟩

/-- `size()`. -/
def size (m : RangedMap R) : ℕ := m.offsetToValue.length

/-- The value of an offset in `offset_to_value_`, if it is there and not `NaN`. -/
def valueAt (m : RangedMap R) (offset : ℕ) : Option R := (m.offsetToValue[offset]?).join

/-- The bisection of `slot_lower_bound_idx` and `slot_upper_bound_idx` (`ranged_map.h`, 79-111)
between `l` and `r`: `past` slots lie left of the bound, `before` slots right of it. -/
def slotBoundLoop (slots : List (SlotMeta R)) (past before : SlotMeta R → Bool) : ℕ → ℕ → ℕ → ℕ
  | 0, l, _ => l
  | fuel + 1, l, r =>
    if l < r then
      let mid := l + (r - l) / 2
      match slots[mid]? with
      | none => l
      | some slot =>
        if past slot then slotBoundLoop slots past before fuel (mid + 1) r
        else if before slot then slotBoundLoop slots past before fuel l mid
        else mid
    else l

/-- `slot_lower_bound_idx`. -/
def slotLowerBoundIdx (m : RangedMap R) (val : R) : ℕ :=
  slotBoundLoop m.slots (fun slot => slot.right < val) (fun slot => val ≤ slot.left)
    m.slots.length 0 m.slots.length

/-- `slot_upper_bound_idx`. -/
def slotUpperBoundIdx (m : RangedMap R) (val : R) : ℕ :=
  slotBoundLoop m.slots (fun slot => slot.right ≤ val) (fun slot => val < slot.left)
    m.slots.length 0 m.slots.length

/-- `find_right_slot_index` (113-129) on a map with slots; `-1` when all values are greater. -/
def findRightSlotIndex (m : RangedMap R) (lowerThan : R) (includeLe : Bool) : ℤ :=
  let slotIdx := min (if includeLe then m.slotUpperBoundIdx lowerThan
    else m.slotLowerBoundIdx lowerThan) (m.slots.length - 1)
  match m.slots[slotIdx]? with
  | none => slotIdx
  | some slot =>
    if (includeLe = true ∧ lowerThan < slot.left) ∨ (includeLe = false ∧ lowerThan ≤ slot.left)
    then slotIdx - 1
    else slotIdx

/-- `find_left_slot_index` (131-139). -/
def findLeftSlotIndex (m : RangedMap R) (greaterThan : R) (includeGe : Bool) : ℕ :=
  if includeGe then m.slotLowerBoundIdx greaterThan else m.slotUpperBoundIdx greaterThan

/-- `offset_to_value_` resized to hold `offset`, with `value` there. -/
def setValue (offsetToValue : List (Option R)) (offset : ℕ) (value : R) : List (Option R) :=
  (offsetToValue ++ List.replicate (offset + 1 - offsetToValue.length) none).set offset (some value)

/-- The slot that a value goes to. -/
def addSlotIndex (m : RangedMap R) (value : R) : ℕ := (m.findRightSlotIndex value true).toNat

/-- `add_offset_and_score(offset, value)` (`ranged_map.cpp`, 69-123); `none` for the return value
`-1`, with the map as it was.  `slotSize` is `kRangedMapSlotSize`. -/
def addOffsetAndScore (slotSize : ℕ) (m : RangedMap R) (offset : ℕ) (value : R) :
    Option (RangedMap R) :=
  if (m.valueAt offset).isSome then none
  else
    let offsetToValue := setValue m.offsetToValue offset value
    if m.slots = [] then
      some ⟨offsetToValue, [⟨value, value, {offset}, [(value, offset)]⟩]⟩
    else
      let slotIdx := m.addSlotIndex value
      match m.slots[slotIdx]? with
      | none => some ⟨offsetToValue, m.slots⟩
      | some slot =>
        let slot := slot.insert offset value
        let added := if slotSize * 2 < slot.vec.length then slot.splitHalf else [slot]
        some ⟨offsetToValue, m.slots.take slotIdx ++ added ++ m.slots.drop (slotIdx + 1)⟩

/-- The first slot from that of `value` on whose bitmap has the offset. -/
def deleteSlotIndex (m : RangedMap R) (offset : ℕ) (value : R) : ℕ :=
  let slotIdx := m.findLeftSlotIndex value true
  slotIdx + (m.slots.drop slotIdx).findIdx (fun slot => offset ∈ slot.bitmap)

/-- `delete_offset(offset)` (`ranged_map.cpp`, 125-177).  It returns `-1` where an offset has no value, or is not
found in the slots. -/
def deleteOffset (m : RangedMap R) (offset : ℕ) : RangedMap R :=
  if m.slots = [] then m
  else match m.valueAt offset with
    | none => m
    | some value =>
      let offsetToValue := m.offsetToValue.set offset none
      let slotIdx := m.deleteSlotIndex offset value
      match m.slots[slotIdx]? with
      | none => ⟨offsetToValue, m.slots⟩
      | some slot =>
        ⟨offsetToValue,
          m.slots.take slotIdx ++ slot.erase offset value ++ m.slots.drop (slotIdx + 1)⟩

/-- The slot at an index of `find_right_slot_index` or `find_left_slot_index`, if there is one. -/
def slotAt (m : RangedMap R) (index : ℤ) : List (SlotMeta R) :=
  if index < 0 then [] else m.slots[index.toNat]?.toList

/-- What the range `(greaterThan, lowerThan)`, or its outside, takes from the slots: for each
`Union` or `Set` loop of `get_range_bitmap_with_slot_data` (`ranged_map.cpp`, 179-247) the offsets
and what it adds to `cnt`. -/
def rangeParts (m : RangedMap R) (rangeOut : Bool) (lowerThan : R) (includeLe : Bool)
    (greaterThan : R) (includeGe : Bool) : List (Finset ℕ × ℤ) :=
  let rIndex := m.findRightSlotIndex lowerThan includeLe
  let lIndex := m.findLeftSlotIndex greaterThan includeGe
  if rangeOut then
    (m.slots.take lIndex).map SlotMeta.all ++
      (m.slotAt lIndex).map (·.getLowerThanData greaterThan !includeGe) ++
      (m.slots.drop (rIndex + 1).toNat).map SlotMeta.all ++
      (m.slotAt rIndex).map (·.getGreaterThanData lowerThan !includeLe)
  else
    ((m.slots.take rIndex.toNat).drop (lIndex + 1)).map SlotMeta.all ++
      if rIndex ≠ -1 ∧ lIndex ≠ m.slots.length then
        if (lIndex : ℤ) < rIndex then
          (m.slotAt rIndex).map (·.getLowerThanData lowerThan includeLe) ++
            (m.slotAt lIndex).map (·.getGreaterThanData greaterThan includeGe)
        else if (lIndex : ℤ) = rIndex then
          (m.slotAt rIndex).map (·.getRangeData lowerThan includeLe greaterThan includeGe)
        else []
      else []

/-- `get_range_bitmap`; `none` when the 32-bit `cnt` ends at zero. -/
def rangeBitmap (m : RangedMap R) (rangeOut : Bool) (lowerThan : R) (includeLe : Bool)
    (greaterThan : R) (includeGe : Bool) : Option (Finset ℕ) :=
  if m.slots = [] then none
  else
    let parts := if rangeOut = true ∧ lowerThan < greaterThan
      then m.rangeParts rangeOut greaterThan includeGe lowerThan includeLe
      else m.rangeParts rangeOut lowerThan includeLe greaterThan includeGe
    if (parts.map Prod.snd).sum % 2 ^ 32 = 0 then none
    else some (parts.foldl (fun acc part => acc ∪ part.1) ∅)

omit [LinearOrder R] in
theorem mem_foldl_union {α : Type*} {f : α → Finset ℕ} {l : List α} {acc : Finset ℕ} {o : ℕ} :
    o ∈ l.foldl (fun acc a => acc ∪ f a) acc ↔ o ∈ acc ∨ ∃ a ∈ l, o ∈ f a := by
  induction l generalizing acc with
  | nil => simp
  | cons a l ih =>
    rw [List.foldl_cons, ih, Finset.mem_union, or_assoc]
    simp

section Range2D

variable [Add R] [Sub R] [Mul R] [Zero R]

/-- `dist_square_to` (`ranged_map.h`, 259-264) beyond `dist_square_max`: `NaN` is not. -/
def farther (xmap ymap : RangedMap R) (x y radius : R) (offset : ℕ) : Bool :=
  match xmap.valueAt offset, ymap.valueAt offset with
  | some xv, some yv => radius * radius < (xv - x) * (xv - x) + (yv - y) * (yv - y)
  | _, _ => false

/-- `RangedMap2D::get_range2d_bitmap_with_slot_data` (`ranged_map.cpp`, 480-512). -/
def range2dBitmap (xmap ymap : RangedMap R) (x y radius : R) : Option (Finset ℕ) :=
  if radius ≤ 0 then none
  else match xmap.rangeBitmap false (x + radius) true (x - radius) true,
      ymap.rangeBitmap false (y + radius) true (y - radius) true with
    | some temp, some yTemp =>
      if temp = ∅ ∨ yTemp = ∅ then none
      else
        let temp := (temp ∩ yTemp).filter fun offset => ¬ farther xmap ymap x y radius offset
        if temp = ∅ then none else some temp
    | _, _ => none

end Range2D

end RangedMap

end OpenViking.VectorDB
