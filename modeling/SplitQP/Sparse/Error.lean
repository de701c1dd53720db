/-!
# What can be wrong with a sparse matrix
-/

namespace SplitQP

/-- Why data do not form a sparse matrix. -/
inductive SparseError where
  /-- Dimensions and array lengths do not fit together. -/
  | incompatibleDimension
  /-- Rows within a column are not strictly increasing. -/
  | badRowOrdering
  /-- A row index is not below the number of rows. -/
  | badRowIndex
  /-- Column starts do not begin at zero or decrease. -/
  | badColumnStart
  /-- Storage for so many entries cannot be had. -/
  | allocationFailed (count : Nat)
  /-- A coordinate entry lies outside the matrix. -/
  | entryOutside (position : Nat) (row col : Int) (nrows ncols : Nat)
  deriving DecidableEq, Repr

namespace SparseError

/-- The wording of each error. -/
def message : SparseError → String
  | incompatibleDimension => "Matrix dimension fields and/or array lengths are incompatible"
  | badRowOrdering => "Data is not sorted by row index within each column"
  | badRowIndex => "Row value exceeds the matrix row dimension"
  | badColumnStart => "Bad column pointer values"
  | allocationFailed count => s!"allocation of {count} entries failed"
  | entryOutside position row col nrows ncols =>
    s!"entry {position} at ({row}, {col}) lies outside a {nrows} x {ncols} matrix"

end SparseError

end SplitQP
