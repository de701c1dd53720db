import SplitQP.Sparse.Triplets
import SplitQP.Sparse.Reshape
import SplitQP.Call.Error
/-!
# Matrices of a call

A caller gives a matrix as coordinates: rows, columns and values. The
matrix by columns keeps their order within a column and keeps duplicates
apart; entries too small to matter are left out.
-/

namespace SplitQP

/-- A matrix without its size. -/
structure Coordinates (α : Type) where
  rows : Array Int := #[]
  cols : Array Int := #[]
  vals : Array α := #[]
  deriving Repr, BEq

namespace Coordinates

variable {α : Type}

/-- Refuses arrays of different lengths; the values set the length. -/
def checkLengths (c : Coordinates α) : Except CallError Unit := do
  CallError.checkLength "row indices" c.vals.size c.rows.size
  CallError.checkLength "column indices" c.vals.size c.cols.size

/-- The error a caller sees for what is wrong with the coordinates. -/
def errorOf (matrix : String) (count : Nat) : SparseError → CallError
  | .entryOutside position row col nrows ncols =>
    .entryOutside matrix position row col nrows ncols
  | _ => .allocationFailed matrix count

/-- The matrix by columns with all its entries. -/
def toFullCsc (matrix : String) (nrows ncols : Nat) (c : Coordinates α) :
    Except CallError (Csc α) := do
  c.checkLengths
  (Triplets.toCsc ⟨nrows, ncols, c.rows, c.cols, c.vals⟩).mapError (errorOf matrix c.vals.size)

variable [Scalar α]

/-- Entries of this magnitude or less are not stored. -/
def threshold : α := 1e-15

/-- **The matrix by columns,** and the number of entries too small to store.
`matrix` names it in errors. -/
def toCsc (matrix : String) (nrows ncols : Nat) (c : Coordinates α) :
    Checked (Except CallError (Csc α × Nat)) := do
  match c.toFullCsc matrix nrows ncols with
  | .error e => return .error e
  | .ok A => return .ok (← A.dropSmall threshold)

end Coordinates

end SplitQP
