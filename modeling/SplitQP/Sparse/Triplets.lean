import SplitQP.Sparse.Matrix
/-!
# Coordinate data — triplets and their conversion to columns

A matrix may be given as three equally long sequences of rows, columns
and values. Indices are signed, so that what a caller sends can be
checked. Conversion is a stable sort by column: within a column entries
keep the order they came in, and duplicates stay apart.
-/

namespace SplitQP

/-- A matrix in coordinate form. -/
structure Triplets (α : Type) where
  nrows : Nat
  ncols : Nat
  rows : Array Int
  cols : Array Int
  vals : Array α
  deriving Repr

namespace Triplets

variable {α : Type}

/-- Takes three sequences of one length. -/
def ofArrays (nrows ncols : Nat) (rows cols : Array Int) (vals : Array α) :
    Except SparseError (Triplets α) := do
  unless rows.size = vals.size ∧ cols.size = vals.size do throw .incompatibleDimension
  return ⟨nrows, ncols, rows, cols, vals⟩

/-- The number of entries. -/
def nnz (t : Triplets α) : Nat := t.vals.size

/-- The entries in the order given. -/
def toList (t : Triplets α) : List (Int × Int × α) :=
  t.rows.toList.zip (t.cols.toList.zip t.vals.toList)

/-- `i` is an index below `bound`. -/
def inRange (i : Int) (bound : Nat) : Bool := 0 ≤ i && i < bound

/-- The first entry outside the matrix, counting positions from `k`. -/
def firstOutside (nrows ncols : Nat) (k : Nat) : List (Int × Int × α) → Option SparseError
  | [] => none
  | (row, col, _) :: rest =>
    if inRange row nrows && inRange col ncols then firstOutside nrows ncols (k + 1) rest
    else some (.entryOutside k row col nrows ncols)

/-- Reports the first entry outside the matrix, if there is one. -/
def checkBounds (t : Triplets α) : Except SparseError Unit :=
  match firstOutside t.nrows t.ncols 0 t.toList with
  | some e => .error e
  | none => .ok ()

/-- An entry whose indices are in range, as a numbered item. -/
def numbered (e : Int × Int × α) : Nat × Nat × α := (e.2.1.toNat, e.1.toNat, e.2.2)

/-- **The matrix by columns.** Entries of a column keep their order. -/
def toCsc (t : Triplets α) : Except SparseError (Csc α) := do
  t.checkBounds
  Csc.checkRoom t.ncols t.nnz
  return Csc.ofColumns t.nrows (Csc.distribute t.ncols (t.toList.map numbered))

end Triplets

end SplitQP
