import SplitQP.Sparse.Matrix
/-!
# The elimination tree

Row `k` of the factor has an entry in every column on the tree paths from
the rows stored in column `k` of the matrix up to `k`. Climbing these
paths row by row finds the tree itself: a column seen for the first time
without a parent gets the current row as its parent. The number of times
a column is passed is the number of entries below the diagonal in it.
-/

namespace SplitQP

open Checked

/-- Parents and column counts found so far, and the last row that passed each
column. -/
structure TreeState where
  parent : Array (Option Nat)
  counts : Array Nat
  seen : Array (Option Nat)

namespace TreeState

/-- `n` columns, none passed. -/
def initial (n : Nat) : TreeState :=
  ⟨Array.replicate n none, Array.replicate n 0, Array.replicate n none⟩

/-- Climbs from column `i` to one that row `k` has passed. A column without
a parent gets `k`. A path longer than `room` faults. -/
def climb (k : Nat) : Nat → Nat → TreeState → Checked TreeState
  | room, i, s => do
    if (← read s.seen i) = some k then
      return s
    else match room with
      | 0 => throw .outOfRange
      | room + 1 =>
        let up := (← read s.parent i).getD k
        climb k room up {
          parent := ← write s.parent i (some up)
          counts := ← update s.counts i (· + 1)
          seen := ← write s.seen i (some k) }

/-- All paths of row `k`. -/
def passRow {α : Type} (upper : Csc α) (s : TreeState) (k : Nat) : Checked TreeState := do
  let s := { s with seen := ← write s.seen k (some k) }
  (← upper.columnRows k).foldlM (fun s row => climb k upper.ncols row s) s

end TreeState

/-- **The elimination tree of an upper triangular pattern,** as the parent of
each column, with the number of entries below the diagonal in each column
of the factor. -/
def eliminationTree {α : Type} (upper : Csc α) :
    Checked (Array (Option Nat) × Array Nat) := do
  let s ← upper.columnIndices.foldlM (TreeState.passRow upper) (.initial upper.ncols)
  return (s.parent, s.counts)

end SplitQP
