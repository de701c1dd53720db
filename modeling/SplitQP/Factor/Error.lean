/-!
# What can stop a factorisation
-/

namespace SplitQP

/-- Why a symmetric matrix has no factorisation. -/
inductive LdlError where
  | notSquare
  /-- Some column has no diagonal entry. -/
  | missingDiagonal
  | notUpperTriangular
  /-- The pivot of this column is zero. -/
  | zeroPivot (column : Nat)
  | invalidPermutation
  | orderingFailed
  deriving DecidableEq, Repr

namespace LdlError

/-- The wording of each error. -/
def message : LdlError → String
  | notSquare => "Matrix is not square"
  | missingDiagonal => "Matrix has a column without a diagonal entry"
  | notUpperTriangular => "Matrix is not upper triangular"
  | zeroPivot column => s!"Zero pivot in column {column}"
  | invalidPermutation => "Invalid permutation vector"
  | orderingFailed => "Fill reducing ordering failed"

end LdlError

end SplitQP
