import OpenViking.Common.RowTable
import OpenViking.Common.System
import OpenViking.VectorDB.SparseRows
import Mathlib.Logic.Function.Basic

/-!
# The flat vector index

A model of `BruteforceSearch` (`vector/common/bruteforce.h`): a buffer of rows, each with its vector,
its label and the logical offset by which the scalar index knows it, and two maps from labels and
from offsets to row numbers.  A row is removed by moving the last one into its place.

The row numbers in the maps are of type `int`: the row number of a row past the first `2 ^ 31` is
negative, and its address lies outside the buffer.
-/

namespace OpenViking.VectorDB

/-! ## State -/

/-- What a flat index is created with: the quantizer, the metric, and the parameters of sparse
vectors. -/
structure FlatConfig (F E : Type) where
  encode : List F → E
  distFunc : E → E → F
  reverseQueryScore : Bool
  enableSparse : Bool
  searchWithSparseLogitAlpha : F
  hashTerm : String → ℕ
  sparseDist : SparseDatapoint F → SparseDatapoint F → F

/-- A row of `data_buffer_`. -/
structure FlatRow (E : Type) where
  vector : E
  label : ℕ
  offset : ℕ

/-- `BruteforceSearch`.  The buffer goes on with what the memory holds: rows that were removed, or
whatever was there when it was allocated. -/
structure BruteforceSearch (F E : Type) where
  dataBuffer : ℕ → FlatRow E
  capacity : ℕ
  currentCount : ℕ
  labelMap : SortedMap ℕ ℕ
  offsetMap : SortedMap ℕ ℕ
  sparseIndex : Option (SparseRowIndex F)
  nextLogicalOffset : ℕ

/-- A sparse vector of a request: `raw_terms` and `values`. -/
abbrev RawSparse (F : Type) := List String × List F

/-- How a call ends: it returns, it throws, or it writes outside the buffer. -/
inductive Outcome (σ : Type) where
  | done (s : σ)
  | thrown (s : σ)
  | undefined

/-- The state after a call, if it is defined. -/
def Outcome.state? {σ : Type} : Outcome σ → Option σ
  | done s => some s
  | thrown s => some s
  | undefined => none

variable {F E : Type}

namespace BruteforceSearch

/-- The constructor (32-60). -/
def create (cfg : FlatConfig F E) (maxElementCount : ℕ) (memory : ℕ → FlatRow E) :
    BruteforceSearch F E where
  dataBuffer := memory
  capacity := max 1 maxElementCount
  currentCount := 0
  labelMap := SortedMap.empty
  offsetMap := SortedMap.empty
  sparseIndex := if cfg.enableSparse then some SparseRowIndex.initEmptyData else none
  nextLogicalOffset := 0

/-! ## Updates -/

/-- `make_sparse_point_by_low_level` on the sparse part of a point, if the index is sparse and the
point has one: the terms it brings enter the dictionary.  `none` when there are not as many terms as
values. -/
def makeSparsePoint [Add F] (cfg : FlatConfig F E) (ix : BruteforceSearch F E)
    (sparse : Option (RawSparse F)) : Option (BruteforceSearch F E × Option (SparseDatapoint F)) :=
  match ix.sparseIndex, sparse with
  | some h, some (rawTerms, values) =>
    if rawTerms.length ≠ values.length then none
    else
      let (indexTerm, dp) := indexByTerms h.indexTerm ((rawTerms.map cfg.hashTerm).zip values)
      some ({ ix with sparseIndex := some { h with indexTerm } }, some dp)
  | _, _ => some (ix, none)

/-- `update_low_level_sparse` on a row, which throws when there is none. -/
def updateSparse (ix : BruteforceSearch F E) (index : ℕ) (sparseDp : Option (SparseDatapoint F)) :
    Option (BruteforceSearch F E) :=
  match ix.sparseIndex, sparseDp with
  | some h, some dp =>
    if h.rows.length ≤ index then none
    else some { ix with sparseIndex := some { h with rows := h.rows.set index dp } }
  | _, _ => some ix

/-- A sparse row for a new row, empty when the point has none; throws when there are not as many
sparse rows as rows (90-105). -/
def appendSparse (ix : BruteforceSearch F E) (sparseDp : Option (SparseDatapoint F)) :
    Option (BruteforceSearch F E) :=
  match ix.sparseIndex with
  | some h =>
    if ix.currentCount ≠ h.rows.length then none
    else some { ix with sparseIndex := some { h with rows := h.rows ++ [sparseDp.getD []] } }
  | none => some ix

/-- A new row at the end of the buffer, with its label and offset in the maps (107-120). -/
def appendRow (ix : BruteforceSearch F E) (label : ℕ) : BruteforceSearch F E :=
  let index := ix.currentCount
  let logicalOffset := ix.nextLogicalOffset % 2 ^ 32
  { ix with
    dataBuffer := Function.update ix.dataBuffer index
      { ix.dataBuffer index with offset := logicalOffset }
    capacity := if ix.currentCount ≥ ix.capacity then ix.currentCount * 2 + 1 else ix.capacity
    currentCount := ix.currentCount + 1
    labelMap := ix.labelMap.put label index
    offsetMap := ix.offsetMap.put logicalOffset index
    nextLogicalOffset := ix.nextLogicalOffset + 1 }

/-- Write a row's vector, if there is one, and its label (123-128). -/
def writePoint (cfg : FlatConfig F E) (ix : BruteforceSearch F E) (index label : ℕ)
    (vector : Option (List F)) : BruteforceSearch F E :=
  let row := ix.dataBuffer index
  { ix with
    dataBuffer := Function.update ix.dataBuffer index
      { row with vector := (vector.map cfg.encode).getD row.vector, label } }

/-- `add_point` (66-130); no vector is a null pointer. -/
def addPoint [Add F] (cfg : FlatConfig F E) (ix : BruteforceSearch F E) (vector : Option (List F))
    (label : ℕ) (sparse : Option (RawSparse F)) : Outcome (BruteforceSearch F E) :=
  match ix.makeSparsePoint cfg sparse with
  | none => .thrown ix
  | some (ix, sparseDp) =>
    match ix.labelMap.get label with
    | some index =>
      match ix.updateSparse index sparseDp with
      | none => .thrown ix
      | some ix => .done (ix.writePoint cfg index label vector)
    | none =>
      match ix.appendSparse sparseDp with
      | none => .thrown ix
      | some ix =>
        if ix.currentCount < 2 ^ 31 then
          .done ((ix.appendRow label).writePoint cfg ix.currentCount label vector)
        else .undefined

/-- The last row moves into the place of another one, and the maps follow (149-163). -/
def moveLast (ix : BruteforceSearch F E) (idxToRemove idxLast : ℕ) : BruteforceSearch F E :=
  let moved := ix.dataBuffer idxLast
  { ix with
    dataBuffer := Function.update ix.dataBuffer idxToRemove moved
    labelMap := ix.labelMap.put moved.label idxToRemove
    offsetMap := ix.offsetMap.put moved.offset idxToRemove }

/-- The sparse row follows (165-174); `get_row` throws when there is none. -/
def moveLastSparse (ix : BruteforceSearch F E) (idxToRemove idxLast : ℕ) :
    Option (BruteforceSearch F E) :=
  match ix.sparseIndex with
  | none => some ix
  | some h =>
    match h.rows[idxLast]? with
    | none => none
    | some lastRow =>
      if h.rows.length ≤ idxToRemove then none
      else some { ix with sparseIndex := some { h with rows := h.rows.set idxToRemove lastRow } }

/-- One sparse row and one row less (176-181). -/
def popBack (ix : BruteforceSearch F E) : BruteforceSearch F E :=
  { ix with
    sparseIndex := ix.sparseIndex.map fun h => { h with rows := h.rows.dropLast }
    currentCount := ix.currentCount - 1 }

/-- `remove_point` (132-182). -/
def removePoint (ix : BruteforceSearch F E) (label : ℕ) : Outcome (BruteforceSearch F E) :=
  match ix.labelMap.get label with
  | none => .done ix
  | some idxToRemove =>
    let idxLast := ix.currentCount - 1
    let ix := { ix with
      labelMap := ix.labelMap.erase label
      offsetMap := ix.offsetMap.erase (ix.dataBuffer idxToRemove).offset }
    if ix.currentCount > 0 ∧ idxToRemove ≠ idxLast then
      let ix := ix.moveLast idxToRemove idxLast
      match ix.moveLastSparse idxToRemove idxLast with
      | none => .thrown ix
      | some ix => .done ix.popBack
    else .done ix.popBack

/-! ## Persistence -/

/-- `index_flat.data` with the file of the sparse rows.  Files of earlier versions end before the
offset counter. -/
structure FlatFile (F E : Type) where
  capacity : ℕ
  currentCount : ℕ
  rows : List (FlatRow E)
  nextLogicalOffset : Option ℕ
  sparseRows : Option (SparseRowIndex F)

/-- `save` (273-292). -/
def save (ix : BruteforceSearch F E) : FlatFile F E where
  capacity := ix.capacity
  currentCount := ix.currentCount
  rows := (List.range ix.capacity).map ix.dataBuffer
  nextLogicalOffset := some ix.nextLogicalOffset
  sparseRows := ix.sparseIndex

/-- The largest offset of a row, `0` when there is none. -/
def maxOffset (ix : BruteforceSearch F E) : ℕ :=
  (List.range ix.currentCount).foldl (fun m i => max m (ix.dataBuffer i).offset) 0

/-- `rebuild_maps` (385-406). -/
def rebuildMaps (ix : BruteforceSearch F E) : BruteforceSearch F E :=
  { ix with
    labelMap := rebuildRows (fun i => (ix.dataBuffer i).label) ix.currentCount
    offsetMap := rebuildRows (fun i => (ix.dataBuffer i).offset) ix.currentCount
    nextLogicalOffset :=
      if ix.currentCount > 0 ∧ ix.nextLogicalOffset ≤ ix.maxOffset then (ix.maxOffset + 1) % 2 ^ 32
      else ix.nextLogicalOffset }

/-- `load` (294-323) into an index whose memory holds `memory`. -/
def load (file : FlatFile F E) (memory : ℕ → FlatRow E) : BruteforceSearch F E :=
  rebuildMaps
    { dataBuffer := fun i => (file.rows[i]?).getD (memory i)
      capacity := file.capacity
      currentCount := file.currentCount
      labelMap := SortedMap.empty
      offsetMap := SortedMap.empty
      sparseIndex := file.sparseRows
      nextLogicalOffset := file.nextLogicalOffset.getD 0 }

/-! ## Runs -/

/-- The calls on an index, and saving and loading it into fresh memory in between. -/
inductive Act (F E : Type) where
  | addPoint (vector : Option (List F)) (label : ℕ) (sparse : Option (RawSparse F))
  | removePoint (label : ℕ)
  | saveLoad (memory : ℕ → FlatRow E)

/-- A call of `add_point` or `remove_point`. -/
def Act.isCall : Act F E → Bool
  | .saveLoad _ => false
  | _ => true

/-- The index after a call. -/
def step [Add F] (cfg : FlatConfig F E) (ix : BruteforceSearch F E) :
    Act F E → Option (BruteforceSearch F E)
  | .addPoint vector label sparse => (ix.addPoint cfg vector label sparse).state?
  | .removePoint label => (ix.removePoint label).state?
  | .saveLoad memory => some (load ix.save memory)

end BruteforceSearch

end OpenViking.VectorDB
