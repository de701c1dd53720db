import SplitQP.Sparse.Filling
import SplitQP.Factor.Permutation
/-!
# Symmetric permutations — filling storage in place

Where each entry goes is read off the inverse. Then storage is filled as
it is from coordinates: the entries are counted by column, running totals
turn the counts into starts, and a cursor in each column says where its
next entry goes. The landing of an entry is what the cursor of its column
showed.
-/

namespace SplitQP

open Checked

namespace Csc

variable {α : Type}

/-- Row and column each entry moves to, in storage order. -/
def places (A : Csc α) (inv : Array Nat) : Checked (List (Nat × Nat)) := do
  (← A.entries).mapM fun e => do
    let r ← read inv e.row
    let c ← read inv e.col
    return (min r c, max r c)

/-- Puts entry `k` of `A` at its new place, and records where in storage that is. -/
def putMoved (A : Csc α) (s : Filling α × Array Nat) (p : (Nat × Nat) × Nat) :
    Checked (Filling α × Array Nat) := do
  let ((row, col), k) := p
  let position ← read s.1.next col
  let filling ← s.1.put ⟨row, col, ← read A.value k⟩
  return (filling, ← write s.2 k position)

/-- **The upper triangle of the permuted matrix, in place,** and where each stored
entry landed in it. -/
def permuteInPlace [Zero α] (A : Csc α) (inv : Array Nat) : Checked (Csc α × Array Nat) := do
  let count ← A.nnz
  let places ← A.places inv
  let counts ← (places.map fun p => (p.2 + 1, 1)).foldlM tally (Array.replicate (A.ncols + 1) 0)
  let starts ← (List.range A.ncols).foldlM accumulate counts
  let (s, landing) ← places.zipIdx.foldlM (putMoved A)
    (.blank (starts.take A.ncols) count, Array.replicate count 0)
  return (← ofFields A.ncols A.ncols starts s.rowIndex s.value, landing)

end Csc

end SplitQP
