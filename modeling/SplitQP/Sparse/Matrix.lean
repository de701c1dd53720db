import SplitQP.Number.Power
import SplitQP.Dense
import SplitQP.Sparse.Error
/-!
# Sparse matrices — compressed columns

A matrix is held by columns: `colStart[j]` and `colStart[j + 1]` bound the
storage positions of column `j` in `rowIndex` and `value`. The five
fields are free, so a value of this type may be malformed; `checkFormat`
says when it is not. The view every operation is written on is `columns`,
the list of columns, each a list of `(row, value)` pairs in storage
order. Reading it faults exactly when a column cannot be read.
-/

namespace SplitQP

open Checked

/-- A matrix stored by compressed columns. -/
structure Csc (α : Type) where
  nrows : Nat
  ncols : Nat
  colStart : Array Nat
  rowIndex : Array Nat
  value : Array α
  deriving Repr, BEq

/-- One stored entry and where it stands. -/
structure Entry (α : Type) where
  row : Nat
  col : Nat
  value : α
  deriving Repr, BEq

/-- The most entries one array can hold: as many as a signed 32-bit count
reaches. -/
def maxEntries : Nat := pow2 31 - 1

namespace Csc

variable {α : Type}

/-! ## Reading -/

/-- The columns a walk over the whole matrix visits. One past the end of
`colStart` is as far as any walk comes. -/
def columnIndices (A : Csc α) : List Nat :=
  List.range (min A.ncols (A.colStart.size + 1))

/-- The number of stored entries, as the last column start has it. -/
def nnz (A : Csc α) : Checked Nat := read A.colStart A.ncols

/-- First storage position of column `j` and the first one after it. -/
def span (A : Csc α) (j : Nat) : Checked (Nat × Nat) := do
  let lo ← read A.colStart j
  let hi ← read A.colStart (j + 1)
  return (lo, hi)

/-- The stored rows of column `j`. -/
def columnRows (A : Csc α) (j : Nat) : Checked (List Nat) := do
  let (lo, hi) ← A.span j
  require (lo ≤ hi ∧ hi ≤ A.rowIndex.size) .outOfRange
  return (A.rowIndex.extract lo hi).toList

/-- The stored entries of column `j` as `(row, value)` pairs. -/
def column (A : Csc α) (j : Nat) : Checked (List (Nat × α)) := do
  let (lo, hi) ← A.span j
  require (lo ≤ hi ∧ hi ≤ A.rowIndex.size ∧ hi ≤ A.value.size) .outOfRange
  return ((A.rowIndex.extract lo hi).zip (A.value.extract lo hi)).toList

/-- **All columns, each in storage order.** -/
def columns (A : Csc α) : Checked (List (List (Nat × α))) :=
  A.columnIndices.mapM A.column

/-- The entries of numbered columns, column after column. -/
def entriesOf (cols : List (List (Nat × α))) : List (Entry α) :=
  (cols.zipIdx.map fun (col, j) => col.map fun (i, v) => ⟨i, j, v⟩).flatten

/-- **All stored entries in storage order.** -/
def entries (A : Csc α) : Checked (List (Entry α)) := return entriesOf (← A.columns)

/-- The storage positions a loop from the start of column `j` to its end
visits: none where the end comes first. -/
def slots (A : Csc α) (j : Nat) : Checked (List Nat) := do
  let (lo, hi) ← A.span j
  require (hi ≤ lo ∨ hi ≤ A.rowIndex.size) .outOfRange
  return List.range' lo (hi - lo)

/-- The value at `(row, col)`, duplicates summed; `none` where nothing is
stored there. -/
def entry? [Add α] (A : Csc α) (row col : Nat) : Checked (Option α) := do
  require (row < A.nrows ∧ col < A.ncols) .outOfRange
  match (← A.column col).filter (·.1 = row) with
  | [] => return none
  | (_, v) :: vs => return some (vs.foldl (· + ·.2) v)

/-- No stored entry lies below the diagonal. The walk ends at the first
that does. -/
def isUpper (A : Csc α) : Checked Bool :=
  A.columnIndices.allM fun j => return (← A.columnRows j).all (· ≤ j)

/-! ## Form -/

/-- `xs` never decreases. -/
def ascending : List Nat → Bool
  | a :: b :: rest => a ≤ b && ascending (b :: rest)
  | _ => true

/-- `xs` strictly increases. -/
def increasing : List Nat → Bool
  | a :: b :: rest => a < b && increasing (b :: rest)
  | _ => true

/-- Lengths fit, column starts ascend from zero, rows are in range. Rows of
a column need not be sorted and may repeat. -/
def checkFormat (A : Csc α) : Except SparseError Unit := do
  unless A.rowIndex.size = A.value.size do throw .incompatibleDimension
  unless A.colStart.size = A.ncols + 1 ∧ A.colStart[A.ncols]? = some A.rowIndex.size do
    throw .incompatibleDimension
  unless A.colStart[0]? = some 0 ∧ ascending A.colStart.toList do throw .badColumnStart
  unless A.rowIndex.all (· < A.nrows) do throw .badRowIndex

/-- As `checkFormat`, and the rows of each column strictly increase. -/
def checkFormatSorted (A : Csc α) : Checked (Except SparseError Unit) := do
  match A.checkFormat with
  | .error e => return .error e
  | .ok () =>
    if ← A.columnIndices.allM fun j => return increasing (← A.columnRows j) then
      return .ok ()
    else
      return .error .badRowOrdering

/-! ## Building -/

/-- Takes the five fields as they are, provided the lengths fit. -/
def ofFields (nrows ncols : Nat) (colStart rowIndex : Array Nat) (value : Array α) :
    Checked (Csc α) := do
  require (rowIndex.size = value.size) .lengthMismatch
  require (colStart.size = ncols + 1) .lengthMismatch
  require (colStart[ncols]? = some rowIndex.size) .lengthMismatch
  return ⟨nrows, ncols, colStart, rowIndex, value⟩

/-- Running totals of the lengths of `xs`, from `total` on. -/
def startsFrom {β : Type} (total : Nat) : List (List β) → List Nat
  | [] => [total]
  | x :: xs => total :: startsFrom (total + x.length) xs

/-- Distributes numbered items over `n` bins. Each bin keeps the order of the
list; a number without a bin is passed over. -/
def distribute {β : Type} (n : Nat) (items : List (Nat × β)) : List (List β) :=
  (items.foldl (fun bins (j, x) => bins.modify j (·.push x))
    (Array.replicate n (#[] : Array β))).toList.map Array.toList

/-- **The matrix with the given columns.** -/
def ofColumns (nrows : Nat) (cols : List (List (Nat × α))) : Csc α where
  nrows := nrows
  ncols := cols.length
  colStart := (startsFrom 0 cols).toArray
  rowIndex := (cols.flatten.map (·.1)).toArray
  value := (cols.flatten.map (·.2)).toArray

/-- Whether `ncols + 1` column starts and `count` entries can be stored. -/
def checkRoom (ncols count : Nat) : Except SparseError Unit := do
  unless ncols < maxEntries do throw (.allocationFailed ncols)
  unless count ≤ maxEntries do throw (.allocationFailed count)

variable [Scalar α]

/-- `count` zeros, all in the last column. -/
def blank (nrows ncols count : Nat) : Csc α where
  nrows := nrows
  ncols := ncols
  colStart := (Array.replicate ncols 0).push count
  rowIndex := Array.replicate count 0
  value := Array.replicate count 0

/-- Room for `count` entries, or the report that it cannot be had. -/
def allocate? (nrows ncols count : Nat) : Except SparseError (Csc α) := do
  checkRoom ncols count
  return blank nrows ncols count

/-- As `allocate?`, where storage that cannot be had is a fault. -/
def allocate (nrows ncols count : Nat) : Checked (Csc α) := do
  require (ncols < maxEntries ∧ count ≤ maxEntries) .capacity
  return blank nrows ncols count

/-- The matrix without stored entries. -/
def zeros (nrows ncols : Nat) : Checked (Csc α) := allocate nrows ncols 0

/-- The identity of size `n`. -/
def identity (n : Nat) : Checked (Csc α) := do
  require (n < maxEntries) .capacity
  return {
    nrows := n
    ncols := n
    colStart := Array.range (n + 1)
    rowIndex := Array.range n
    value := Array.replicate n 1 }

end Csc

end SplitQP
