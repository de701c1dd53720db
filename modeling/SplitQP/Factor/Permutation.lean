import SplitQP.Sparse.Matrix
import SplitQP.Factor.Error
/-!
# Symmetric permutations

`perm[k]` is the index eliminated at step `k`; its inverse says at which
step an index is eliminated. Permuting a symmetric matrix held by its
upper triangle moves the entry at `(i, j)` to the steps of `i` and `j`,
the earlier one as its row. `landing` records where each entry went.
-/

namespace SplitQP

open Checked

namespace Permutation

/-- Enters step `k` for index `p`; refused where `p` is out of range or has a
step already. -/
def place (steps : Array (Option Nat)) (pk : Nat × Nat) :
    Except LdlError (Array (Option Nat)) :=
  match steps[pk.1]? with
  | some none => .ok (steps.setIfInBounds pk.1 (some pk.2))
  | _ => .error .invalidPermutation

/-- **The inverse of a permutation of `0, …, n - 1`;** anything else is
refused. -/
def inverse (perm : Array Nat) (n : Nat) : Except LdlError (Array Nat) := do
  unless perm.size = n do throw .invalidPermutation
  let steps ← perm.toList.zipIdx.foldlM place (Array.replicate n none)
  return steps.filterMap id

end Permutation

namespace Csc

variable {α : Type}

/-- An entry at its new place: the column as bin number, then row, value and
the storage position it came from. -/
def relocate (inv : Array Nat) (e : Entry α × Nat) : Checked (Nat × Nat × α × Nat) := do
  let r ← read inv e.1.row
  let c ← read inv e.1.col
  return (max r c, min r c, e.1.value, e.2)

/-- Where each of `count` entries went, from the origins listed in storage
order. -/
def landings (count : Nat) (origins : List Nat) : Array Nat :=
  origins.zipIdx.foldl (fun landing (origin, position) =>
    landing.setIfInBounds origin position) (Array.replicate count 0)

/-- **The upper triangle of the permuted matrix,** and where each stored
entry landed in it. Entries of a column keep the order of the input. -/
def permuteUpper (A : Csc α) (inv : Array Nat) : Checked (Csc α × Array Nat) := do
  let count ← A.nnz
  let moved ← (← A.entries).zipIdx.mapM (relocate inv)
  require (moved.length = count) .lengthMismatch
  require (moved.all (·.1 < A.ncols)) .outOfRange
  let bins := distribute A.ncols moved
  let upper := ofColumns A.ncols (bins.map (·.map fun (r, v, _) => (r, v)))
  return (upper, landings count (bins.flatten.map (·.2.2)))

end Csc

end SplitQP
