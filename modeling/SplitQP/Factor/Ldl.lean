import SplitQP.Sparse.Product
import SplitQP.Factor.Permutation
import SplitQP.Factor.EliminationTree
import SplitQP.Factor.EliminationOrder
import SplitQP.Factor.Numeric
/-!
# Factorisation of symmetric matrices

A symmetric matrix, given by its upper triangle, is permuted and written
as `(I + L)·D·(I + L)ᵀ` with `L` strictly lower triangular and `D`
diagonal. The permutation, the elimination tree and the places of the
entries of `L` depend on the pattern alone and are found once; the
numbers can be computed again after entries have changed.
-/

namespace SplitQP

open Checked

/-- A permuted symmetric matrix with its factors. -/
structure Ldl (α : Type) where
  perm : Array Nat
  parent : Array (Option Nat)
  /-- The upper triangle of the permuted matrix. -/
  upper : Csc α
  /-- Where each entry of the input landed in `upper`. -/
  landing : Array Nat
  /-- Column starts of `L`. -/
  colStart : Array Nat
  pivots : Pivots α
  /-- Number of positive pivots of the last factorisation that succeeded. -/
  positive : Nat

namespace Ldl

variable {α : Type}

/-- The dimension of the matrix. -/
def dim (f : Ldl α) : Nat := f.pivots.d.size

/-- The strictly lower triangular factor. -/
def lower (f : Ldl α) : Csc α :=
  ⟨f.dim, f.dim, f.colStart, f.pivots.rowIndex, f.pivots.value⟩

/-- Square, upper triangular, and a diagonal entry in every column. -/
def checkPattern (A : Csc α) : Checked (Except LdlError Unit) := do
  if A.nrows ≠ A.ncols then
    return .error .notSquare
  else if !(← A.isUpper) then
    return .error .notUpperTriangular
  else if ← A.columnIndices.allM fun j => return (← A.columnRows j).contains j then
    return .ok ()
  else
    return .error .missingDiagonal

variable [Scalar α]

/-- Overwrites entries, addressed by their storage position in the matrix
given at first. Takes effect with the next `refactor`. -/
def setEntries (f : Ldl α) (positions : Array Nat) (values : Array α) : Checked (Ldl α) := do
  require (positions.size = values.size) .lengthMismatch
  let value ← (positions.toList.zip values.toList).foldlM (fun value (p, v) => do
    write value (← read f.landing p) v) f.upper.value
  return { f with upper := { f.upper with value := value } }

/-- Computes the factors again from the current entries, in the scratch given. After
a zero pivot they are partly overwritten and `positive` is as before. -/
def refactorIn (f : Ldl α) (t : Scratch α) :
    Checked (Ldl α × Scratch α × Except LdlError Unit) := do
  let (w, t, outcome) ← factoriseIn f.upper f.parent f.colStart f.pivots t
  let f := { f with pivots := w }
  match outcome with
  | .ok positive => return ({ f with positive := positive }, t, .ok ())
  | .error e => return (f, t, .error e)

/-- Computes the factors again from the current entries. -/
def refactor (f : Ldl α) : Checked (Ldl α × Except LdlError Unit) := do
  let (f, _, outcome) ← f.refactorIn (.initial f.dim)
  return (f, outcome)

/-- The factors of `A` before any number is computed, for the elimination
order `perm`. -/
def analyse (A : Csc α) (perm : Array Nat) : Checked (Except LdlError (Ldl α)) := do
  match Permutation.inverse perm A.ncols with
  | .error e => return .error e
  | .ok inv =>
    let (upper, landing) ← A.permuteUpper inv
    let (parent, counts) ← eliminationTree upper
    let starts := counts.foldl (fun starts c => starts.push (starts.back?.getD 0 + c)) #[0]
    let room := starts.back?.getD 0
    let pivots : Pivots α := {
      rowIndex := Array.replicate room 0
      value := Dense.constant room 0
      d := Dense.constant A.ncols 0
      dinv := Dense.constant A.ncols 0 }
    return .ok ⟨perm, parent, upper, landing, starts, pivots, 0⟩

/-- The factors of `A` before any number is computed, for the order that is found. -/
def prepare (A : Csc α) (order : EliminationOrder) : Checked (Except LdlError (Ldl α)) := do
  match ← checkPattern A with
  | .error e => return .error e
  | .ok () =>
    match order.choose A with
    | .error e => return .error e
    | .ok perm => analyse A perm

/-- **Factors `A`** in the given elimination order. -/
def factor (A : Csc α) (order : EliminationOrder) : Checked (Except LdlError (Ldl α)) := do
  match ← prepare A order with
  | .error e => return .error e
  | .ok f =>
    match ← f.refactor with
    | (f, .ok ()) => return .ok f
    | (_, .error e) => return .error e

/-! ## Solving -/

/-- Subtracts `v·xⱼ` at each row of column `j`. -/
def forwardColumn (x : Array α) (c : List (Nat × α) × Nat) : Array α :=
  let xj := x.getD c.2 0
  c.1.foldl (fun x (i, v) => x.modify i (· - v * xj)) x

/-- Subtracts `v·xᵢ` from entry `j` for each row of column `j`. -/
def backwardColumn (x : Array α) (c : List (Nat × α) × Nat) : Array α :=
  let xj := c.1.foldl (fun acc (i, v) => acc - v * x.getD i 0) (x.getD c.2 0)
  x.setIfInBounds c.2 xj

/-- **Solves `(I + L)·D·(I + L)ᵀ·x = b`,** given the columns of `L` and the
inverse of `D`. -/
def solvePermuted (cols : List (List (Nat × α))) (dinv : Array α) (b : Array α) : Array α :=
  let x := cols.zipIdx.foldl forwardColumn b
  let x := x.zipWith (· * ·) dinv
  cols.zipIdx.reverse.foldl backwardColumn x

/-- Puts `xₖ` at position `perm[k]` of `b`. -/
def putBack (b : Array α) (xp : α × Nat) : Checked (Array α) := write b xp.2 xp.1

/-- **Solves `A·x = b`.** -/
def solve (f : Ldl α) (b : Array α) : Checked (Array α) := do
  require (b.size = f.dim) .lengthMismatch
  let permuted ← f.perm.mapM (read b)
  let cols ← f.lower.columns
  require (Csc.rowsBelow f.dim cols) .outOfRange
  let x := solvePermuted cols f.pivots.dinv permuted
  (x.zip f.perm).toList.foldlM putBack b

end Ldl

end SplitQP
