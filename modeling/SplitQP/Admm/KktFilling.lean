import SplitQP.Sparse.Filling
import SplitQP.Admm.Kkt
/-!
# The KKT matrix, filled in place

The storage of the KKT matrix is counted before it is filled: the columns
of `P`, the diagonal entries that `P` lacks, the rows of `A` and the lower
diagonal. Blocks are then put in that order, diagonal entries as zeros, so
that the diagonal of a column with both is found by searching for it.
Column starts are what the cursors leave behind, one place further on.
-/

namespace SplitQP

open Checked

namespace Csc

variable {α : Type}

/-- The columns without a diagonal entry. -/
def missingDiagonal (P : Csc α) : Checked (List Nat) :=
  P.columnIndices.filterMapM fun j => do
    if (← P.columnRows j).contains j then return none else return some j

/-- How many entries each column has. -/
def columnCounts (P : Csc α) : Checked (List (Nat × Nat)) :=
  P.columnIndices.mapM fun j => do
    let (lo, hi) ← P.span j
    require (lo ≤ hi) .outOfRange
    return (j, hi - lo)

/-- Where the first diagonal entry of column `j` is stored. -/
def diagonalPosition (K : Csc α) (j : Nat) : Checked (Option Nat) := do
  (← K.slots j).findM? fun p => return (← read K.rowIndex p) = j

/-- Where the first diagonal entries of the first `n` columns are stored,
provided each has one. -/
def diagonalPositions (K : Csc α) (n : Nat) : Checked (Option (List Nat)) := do
  return (← (List.range n).mapM K.diagonalPosition).mapM id

end Csc

namespace Kkt

variable {α : Type} [Scalar α]

/-- Counts the entries of all blocks by column. -/
def counts (P A : Csc α) (missing : List Nat) : Checked (Array Nat) := do
  let n := A.ncols
  let m := A.nrows
  let items := (← P.columnCounts) ++ missing.map (·, 1) ++
    A.rowIndex.toList.map (n + ·, 1) ++ (List.range m).map (n + ·, 1)
  items.foldlM tally (Array.replicate (n + m + 1) 0)

/-- The entries of all blocks but the lower diagonal, as they are put. -/
def upperEntries (P A : Csc α) (missing : List Nat) : Checked (List (Entry α)) := do
  return (← P.entries) ++ missing.map (fun j => ⟨j, j, 0⟩) ++
    (← A.entries).map fun e => ⟨e.col, A.ncols + e.row, e.value⟩

/-- The lower diagonal, as it is put. -/
def lowerEntries (n m : Nat) : List (Entry α) := (List.range m).map fun i => ⟨n + i, n + i, 0⟩

/-- Adds `shift` to the first diagonal entries of the first `n` columns,
provided each of these columns has one. -/
def shiftLeading (K : Csc α) (shift : α) (n : Nat) : Checked (Array α) := do
  match ← K.diagonalPositions n with
  | some positions => positions.foldlM (fun value p => update value p (· + shift)) K.value
  | none => return K.value

/-- Writes the negative of each number at its position. -/
def writeLower (value : Array α) (positions : Array Nat) (d : Array α) : Checked (Array α) :=
  (positions.zip d).toList.foldlM (fun value (p, x) => write value p (-x)) value

/-- **Assembles the matrix in place,** with the positions of the entries `-dᵢ`
and all positions in the order in which they were first written. -/
def fill (P A : Csc α) (shift : α) (d : Array α) :
    Checked (Csc α × Array Nat × Array Nat) := do
  let n := A.ncols
  let m := A.nrows
  require (P.nrows = n ∧ P.ncols = n) .lengthMismatch
  require (d.size = m) .lengthMismatch
  let missing ← P.missingDiagonal
  let next := (totalsBefore 0 (← counts P A missing).toList).toArray
  let upper ← (← upperEntries P A missing).foldlM Filling.put (.blank next (← read next (n + m)))
  let s ← (lowerEntries n m).foldlM Filling.put upper
  let K : Csc α := ⟨n + m, n + m, #[0] ++ s.next.pop, s.rowIndex, s.value⟩
  let positions := s.written.drop upper.written.size
  let value ← writeLower (← shiftLeading K shift n) positions d
  return ({ K with value := value }, positions, s.written)

end Kkt

end SplitQP
