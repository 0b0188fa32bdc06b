import Mathlib.Data.List.Sort

/-!
# Sparse rows

A model of `SparseRowIndex` (`vector/sparse_retrieval/sparse_row_index.{h,cpp}`) over
`SparseDataset`, behind `SparseDataHolder`: the dictionary of terms, which grows with every term that
a row or a query brings, and the sparse row of each row of the flat index.
-/

namespace OpenViking.VectorDB

variable {F : Type}

/-- `SparseDatapoint`: term indices in ascending order, with their values. -/
abbrev SparseDatapoint (F : Type) := List (ℕ × F)

/-- `SparseRowIndex`: `index_term_`, in which `term_index_` has the positions, and the rows of
`sparse_dataset_`. -/
structure SparseRowIndex (F : Type) where
  indexTerm : List ℕ
  rows : List (SparseDatapoint F)

/-- `init_empty_data`. -/
def SparseRowIndex.initEmptyData : SparseRowIndex F := ⟨[], []⟩

variable [Add F]

/-- The value of a term index: one that is there already is added to. -/
def addTermValue (i : ℕ) (val : F) : SparseDatapoint F → SparseDatapoint F
  | [] => [(i, val)]
  | e :: es => if e.1 = i then (i, e.2 + val) :: es else e :: addTermValue i val es

/-- One round of `index_by_terms` (`sparse_row_index.cpp`, 239-272): an unseen term is appended to
the dictionary. -/
def indexTermValue (st : List ℕ × SparseDatapoint F) (termVal : ℕ × F) :
    List ℕ × SparseDatapoint F :=
  let indexTerm := if termVal.1 ∈ st.1 then st.1 else st.1 ++ [termVal.1]
  (indexTerm, addTermValue (indexTerm.idxOf termVal.1) termVal.2 st.2)

/-- `index_by_terms`: the dictionary with the unseen terms, and the row in ascending order. -/
def indexByTerms (indexTerm : List ℕ) (termVals : List (ℕ × F)) : List ℕ × SparseDatapoint F :=
  let st := termVals.foldl indexTermValue (indexTerm, [])
  (st.1, st.2.insertionSort fun a b => a.1 ≤ b.1)

end OpenViking.VectorDB
