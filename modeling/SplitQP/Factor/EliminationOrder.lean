import SplitQP.Sparse.Matrix
import SplitQP.Factor.Error
/-!
# Elimination orders

Any order of the indices factors a matrix that is quasidefinite. The
order in which the matrix has them is the one taken unless another is
given: a KKT matrix has its variables first, and their pivots are then
the positive ones. A heuristic may instead look at the pattern, so that
every matrix gets an order of its own; it may also give up.
-/

namespace SplitQP

/-- A way of finding an order from the dimension of a matrix, its column
starts and its row indices. -/
abbrev OrderingRule : Type := Nat → Array Nat → Array Nat → Option (Array Nat)

/-- In which order the indices are eliminated. -/
inductive EliminationOrder where
  /-- As the matrix has them. -/
  | natural
  /-- Step `k` eliminates index `perm[k]`. -/
  | given (perm : Array Nat)
  /-- As a rule finds it in the pattern. -/
  | found (rule : OrderingRule)

namespace EliminationOrder

/-- The order for the pattern of `A`, one index for each step. A pattern whose
column starts do not begin at zero has no natural order. -/
def choose {α : Type} (A : Csc α) : EliminationOrder → Except LdlError (Array Nat)
  | .given perm => return if A.ncols = 0 then #[] else perm
  | .natural =>
    if A.ncols = 0 ∨ A.colStart[0]? = some 0 then .ok (Array.range A.ncols)
    else .error .orderingFailed
  | .found rule =>
    if A.ncols = 0 then .ok #[]
    else match rule A.ncols A.colStart A.rowIndex with
      | some perm => .ok perm
      | none => .error .orderingFailed

end EliminationOrder

end SplitQP
