import OpenViking.Ragfs.MemFs

/-!
# Reading a range of a file

The three places that cut a range out of the bytes of a file: `LocalFileSystem::read`
(`crates/ragfs/src/plugins/localfs/mod.rs`, 767-795), `MemFileSystem::read`
(`plugins/memfs/mod.rs`, 246-270) and `slice_bytes` (`core/encryption_wrapper.rs`, 204-217), on a
machine where `usize` has 64 bits.

Deviation: each takes `offset + size` before it is cut to the length of the file, so a read that
asks for "everything from here" with a large size panics where a smaller one gives the rest.

Results:

* `localRead_eq_iff`, `memRead_eq_iff`, `sliceBytes_eq_iff`: when each answers the exact range;
* `exact_iff`: the three together;
* `read_of_memRead`: `MemFileSystem.read` answers what the code does.
-/

namespace OpenViking.Ragfs

/-- The bytes of a file in memory: a `Vec<u8>` has at most `isize::MAX` of them. -/
structure Content where
  data : Bytes
  length_lt : data.length < 2 ^ 63

/-- `a + b` of two `u64`: it panics past the last one if the build checks for overflow (a debug
build does, the release profile does not), and wraps if not. -/
def addU64 (overflowChecks : Bool) (a b : UInt64) : Option UInt64 :=
  if overflowChecks ∧ 2 ^ 64 ≤ a.toNat + b.toNat then none else some (a + b)

/-- `data[start..end].to_vec()`, which panics for a range that is not one of `data`. -/
def slice (data : Bytes) (start stop : ℕ) : Option Bytes :=
  if start ≤ stop ∧ stop ≤ data.length then some ((data.take stop).drop start) else none

/-- `LocalFileSystem::read` (780-794), after the file was read. -/
def localRead (overflowChecks : Bool) (c : Content) (offset size : UInt64) : Option Bytes :=
  let fileSize := UInt64.ofNat c.data.length
  let start := (min offset fileSize).toNat
  let stop := if size = 0 then some c.data.length
    else (addU64 overflowChecks offset size).map fun sum => (min sum fileSize).toNat
  stop.bind fun stop => if c.data.length ≤ start then some [] else slice c.data start stop

/-- `MemFileSystem::read` (252-265), for the data of an entry. -/
def memRead (overflowChecks : Bool) (c : Content) (offset size : UInt64) : Option Bytes :=
  if c.data.length ≤ offset.toNat then some []
  else
    let stop := if size = 0 then some c.data.length
      else (addU64 overflowChecks offset size).map fun sum => min sum.toNat c.data.length
    stop.bind (slice c.data offset.toNat)

/-- `slice_bytes` (204-217). -/
def sliceBytes (overflowChecks : Bool) (c : Content) (offset size : UInt64) : Option Bytes :=
  let len := UInt64.ofNat c.data.length
  if len ≤ offset then some []
  else
    let start := offset.toNat
    let stop := if size = 0 then some c.data.length
      else (addU64 overflowChecks offset size).map fun sum => (min sum len).toNat
    stop.bind (slice c.data start)

/-- The range a read asks for, on unbounded numbers. -/
def exactRange (data : Bytes) (offset size : ℕ) : Bytes :=
  let stop := if size = 0 then data.length else min (offset + size) data.length
  (data.take stop).drop (min offset data.length)

/-! ## One read -/

variable {overflowChecks : Bool} {c : Content} {offset size : UInt64}

@[simp] theorem Content.toNat_length (c : Content) :
    (UInt64.ofNat c.data.length).toNat = c.data.length := by
  have := c.length_lt
  exact UInt64.toNat_ofNat_of_lt (by show _ < 2 ^ 64; omega)

theorem exactRange_of_le {data : Bytes} {offset size : ℕ} (h : data.length ≤ offset) :
    exactRange data offset size = [] := by
  rw [exactRange, min_eq_right h, List.drop_eq_nil_iff]
  exact List.length_take_le' ..

theorem slice_eq {data : Bytes} {start stop : ℕ} (h : start ≤ stop) (hstop : stop ≤ data.length) :
    slice data start stop = some ((data.take stop).drop start) :=
  if_pos ⟨h, hstop⟩

/-- A range that starts in the file: it is exact if the sum is, and a panic if not. -/
theorem slice_addU64 (overflowChecks : Bool) (hlt : offset.toNat < c.data.length) (hsize : size ≠ 0) :
    ((addU64 overflowChecks offset size).bind fun sum =>
        slice c.data offset.toNat (min sum.toNat c.data.length)) =
      if offset.toNat + size.toNat < 2 ^ 64 then
        some (exactRange c.data offset.toNat size.toNat) else none := by
  have hne : size.toNat ≠ 0 := fun h => hsize (UInt64.toNat_inj.1 h)
  have hlast := size.toNat_lt
  have hlen := c.length_lt
  have hsum : (offset + size).toNat = (offset.toNat + size.toNat) % 2 ^ 64 := UInt64.toNat_add ..
  unfold addU64
  split_ifs with hpanic hfits hfits
  · omega
  · rfl
  · rw [Nat.mod_eq_of_lt hfits] at hsum
    show slice _ _ _ = _
    rw [hsum, slice_eq (by omega) (by omega), exactRange, if_neg hne, min_eq_left hlt.le]
  · -- the sum wraps to less than the offset, and the range ends before it starts
    show slice _ _ _ = none
    exact if_neg (by omega)

theorem slice_length (h : offset.toNat < c.data.length) :
    slice c.data offset.toNat c.data.length = some (exactRange c.data offset.toNat 0) := by
  rw [slice_eq h.le le_rfl, exactRange, if_pos rfl, min_eq_left h.le]

/-- When the sum of an offset and a size is not needed or is exact. -/
def SumFits (offset size : UInt64) : Prop := size = 0 ∨ offset.toNat + size.toNat < 2 ^ 64

instance : Decidable (SumFits offset size) := inferInstanceAs (Decidable (_ ∨ _))

theorem memRead_of_lt (h : offset.toNat < c.data.length) : memRead overflowChecks c offset size =
    if SumFits offset size then some (exactRange c.data offset.toNat size.toNat) else none := by
  rw [memRead, if_neg (by omega)]
  by_cases hsize : size = 0
  · subst hsize
    rw [if_pos (show SumFits offset 0 from Or.inl rfl)]
    exact slice_length h
  · have hslice := slice_addU64 overflowChecks h hsize
    simp only [hsize, if_false, Option.bind_map, Function.comp_def, hslice, SumFits, false_or]

theorem memRead_of_le (h : c.data.length ≤ offset.toNat) :
    memRead overflowChecks c offset size = some (exactRange c.data offset.toNat size.toNat) := by
  rw [memRead, if_pos h, exactRange_of_le h]

theorem memRead_eq_iff : memRead overflowChecks c offset size =
      some (exactRange c.data offset.toNat size.toNat) ↔
    SumFits offset size ∨ c.data.length ≤ offset.toNat := by
  rcases Nat.lt_or_ge offset.toNat c.data.length with h | h
  · rw [memRead_of_lt h, or_iff_left (by omega)]
    simp
  · exact iff_of_true (memRead_of_le h) (Or.inr h)

/-- `slice_bytes` compares and cuts before it converts, to the same end. -/
theorem sliceBytes_eq_memRead (overflowChecks : Bool) (c : Content) (offset size : UInt64) :
    sliceBytes overflowChecks c offset size = memRead overflowChecks c offset size := by
  simp only [sliceBytes, memRead, UInt64.le_iff_toNat_le, UInt64.toNat_min, Content.toNat_length]

theorem sliceBytes_eq_iff : sliceBytes overflowChecks c offset size =
      some (exactRange c.data offset.toNat size.toNat) ↔
    SumFits offset size ∨ c.data.length ≤ offset.toNat := by
  rw [sliceBytes_eq_memRead, memRead_eq_iff]

theorem localRead_of_lt (h : offset.toNat < c.data.length) :
    localRead overflowChecks c offset size = memRead overflowChecks c offset size := by
  simp only [localRead, memRead, UInt64.toNat_min, Content.toNat_length, min_eq_left h.le,
    if_neg (Nat.not_le.2 h)]

/-- The local file system takes the sum even where no byte is left to read. -/
theorem localRead_of_le (h : c.data.length ≤ offset.toNat) :
    localRead overflowChecks c offset size = some (exactRange c.data offset.toNat size.toNat) ↔
      SumFits offset size ∨ overflowChecks = false := by
  rw [exactRange_of_le h, SumFits]
  simp only [localRead, UInt64.toNat_min, Content.toNat_length, min_eq_right h, le_refl, if_true, addU64]
  by_cases hsize : size = 0
  · simp [hsize]
  · rw [if_neg hsize]
    by_cases hpanic : overflowChecks ∧ 2 ^ 64 ≤ offset.toNat + size.toNat
    · rw [if_pos hpanic]
      refine iff_of_false (by simp) fun h => ?_
      rcases h with (h | h) | h
      · exact hsize h
      · omega
      · simp [h] at hpanic
    · rw [if_neg hpanic]
      refine iff_of_true rfl ?_
      cases overflowChecks with
      | false => exact Or.inr rfl
      | true => exact Or.inl (Or.inr (Nat.not_le.1 fun h => hpanic ⟨rfl, h⟩))

theorem localRead_eq_iff : localRead overflowChecks c offset size =
      some (exactRange c.data offset.toNat size.toNat) ↔
    SumFits offset size ∨ overflowChecks = false ∧ c.data.length ≤ offset.toNat := by
  rcases Nat.lt_or_ge offset.toNat c.data.length with h | h
  · rw [localRead_of_lt h, memRead_eq_iff, or_iff_left (by omega), or_iff_left (by omega)]
  · rw [localRead_of_le h, and_iff_left h]

/-! ## The three readers -/

/-- The three readers answer the exact range. -/
def ReadsExactly (overflowChecks : Bool) (c : Content) (offset size : UInt64) : Prop :=
  localRead overflowChecks c offset size = some (exactRange c.data offset.toNat size.toNat) ∧
  memRead overflowChecks c offset size = some (exactRange c.data offset.toNat size.toNat) ∧
  sliceBytes overflowChecks c offset size = some (exactRange c.data offset.toNat size.toNat)

/-- Each reader is exact where the sum of offset and size fits 64 bits or is not taken: for size 0,
and, except in a local file system whose build checks for overflow, past the end. -/
theorem exact_iff (overflowChecks : Bool) (c : Content) (offset size : UInt64) :
    (ReadsExactly overflowChecks c offset size ↔
      SumFits offset size ∨ overflowChecks = false ∧ c.data.length ≤ offset.toNat) ∧
    (memRead overflowChecks c offset size = some (exactRange c.data offset.toNat size.toNat) ↔
      SumFits offset size ∨ c.data.length ≤ offset.toNat) ∧
    (sliceBytes overflowChecks c offset size =
        some (exactRange c.data offset.toNat size.toNat) ↔
      SumFits offset size ∨ c.data.length ≤ offset.toNat) := by
  refine ⟨?_, memRead_eq_iff, sliceBytes_eq_iff⟩
  rw [ReadsExactly, localRead_eq_iff, memRead_eq_iff, sliceBytes_eq_iff]
  tauto

def twoBytes : Content := ⟨[7, 8], by decide⟩

/-- Two bytes, read from the second with the largest size: none of the readers answers. -/
theorem exact_fails :
    localRead false twoBytes 1 (UInt64.ofNat (2 ^ 64 - 1)) = none ∧
    memRead false twoBytes 1 (UInt64.ofNat (2 ^ 64 - 1)) = none ∧
    sliceBytes false twoBytes 1 (UInt64.ofNat (2 ^ 64 - 1)) = none ∧
    exactRange twoBytes.data 1 (2 ^ 64 - 1) = [8] ∧
    ¬ ReadsExactly true twoBytes 1 (UInt64.ofNat (2 ^ 64 - 1)) := by
  refine ⟨by decide, by decide, by decide, by decide, fun h => ?_⟩
  revert h
  unfold ReadsExactly
  decide

/-- On a file, the call on unbounded numbers answers what the code does where it does not panic. -/
theorem read_of_memRead {fs : MemFileSystem} {path : Path} {entry : FileEntry} {bytes : Bytes}
    (hentry : fs.get (MemFileSystem.normalizePath path) = some entry) (hfile : entry.isDir = false)
    (hdata : entry.data = c.data) (h : memRead overflowChecks c offset size = some bytes) :
    fs.read path offset.toNat size.toNat = .ok bytes := by
  have hread : fs.read path offset.toNat size.toNat =
      .ok (exactRange c.data offset.toNat size.toNat) := by
    simp only [MemFileSystem.read, hentry, hfile, hdata, Bool.false_eq_true, if_false]
    by_cases hle : c.data.length ≤ offset.toNat
    · rw [if_pos hle, exactRange_of_le hle]
    · rw [if_neg hle, exactRange, min_eq_left (Nat.not_le.1 hle).le]
  rw [hread]
  rcases Nat.lt_or_ge offset.toNat c.data.length with hlt | hle
  · rw [memRead_of_lt hlt] at h
    split_ifs at h
    rw [Option.some.inj h]
  · rw [memRead_of_le hle] at h
    rw [Option.some.inj h]

theorem read_of_memRead_twoBytes :
    MemFileSystem.read ['a'] 1 1 (Dict.empty.set ['/', 'a'] ⟨[7, 8], 0, false⟩) = .ok [8] :=
  have h : memRead false twoBytes 1 1 = some [8] := by decide
  read_of_memRead rfl rfl rfl h

end OpenViking.Ragfs
