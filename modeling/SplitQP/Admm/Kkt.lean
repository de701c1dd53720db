import SplitQP.Factor.Ldl
import SplitQP.Sparse.Reshape
import SplitQP.Admm.Error
/-!
# The KKT matrix

The matrix `[P + shift·I, Aᵀ; A, -diag(d)]` of size `n + m`, by its upper
triangle. Column `j < n` holds column `j` of `P` and its diagonal entry;
column `n + i` holds row `i` of `A`, by increasing column, and then
`-dᵢ`, whose storage position is recorded so that it can be replaced.
-/

namespace SplitQP

open Checked

namespace Kkt

variable {α : Type} [Scalar α]

/-- Adds `shift` to the first entry in row `j`. -/
def shiftDiagonal (shift : α) (j : Nat) : List (Nat × α) → List (Nat × α)
  | [] => []
  | (i, v) :: rest =>
    if i = j then (i, v + shift) :: rest else (i, v) :: shiftDiagonal shift j rest

/-- Column `j` of `P`, with a diagonal entry, shifted. -/
def leadingColumn (shift : α) (c : List (Nat × α) × Nat) : List (Nat × α) :=
  let (col, j) := c
  let full := if col.any (·.1 = j) then col else col ++ [(j, 0)]
  shiftDiagonal shift j full

/-- The row `i` of `A` given by `(column, value)` pairs, and the diagonal entry
below it. -/
def trailingColumn (n : Nat) (c : (List (Nat × α) × Nat) × α) : List (Nat × α) :=
  let ((row, i), d) := c
  row ++ [(n + i, -d)]

/-- **Assembles the matrix,** with the positions of the entries `-dᵢ`. -/
def assemble (P A : Csc α) (shift : α) (d : Array α) : Checked (Csc α × Array Nat) := do
  let n := A.ncols
  let m := A.nrows
  require (P.nrows = n ∧ P.ncols = n) .lengthMismatch
  require (d.size = m) .lengthMismatch
  let leading := (← P.columns).zipIdx.map (leadingColumn shift)
  let entries ← A.entries
  require (entries.all (·.row < m)) .outOfRange
  let rows := Csc.distribute m (entries.map fun e => (e.row, (e.col, e.value)))
  let trailing := (rows.zipIdx.zip d.toList).map (trailingColumn n)
  let K := Csc.ofColumns (n + m) (leading ++ trailing)
  let positions := (List.range m).map fun i => K.colStart.getD (n + i + 1) 0 - 1
  return (K, positions.toArray)

end Kkt

/-- The factored KKT matrix of the iteration, whose lower diagonal is the
negative reciprocal step sizes. -/
structure KktSystem (α : Type) where
  factors : Ldl α
  /-- Where the lower diagonal is stored. -/
  positions : Array Nat

namespace KktSystem

variable {α : Type} [Scalar α]

/-- **Factors the KKT matrix.** The program is convex as far as this can
tell when as many pivots are positive as there are variables. -/
def setup (P A : Csc α) (sigma : α) (rhoInv : Array α) (order : EliminationOrder) :
    Checked (Except SetupError (KktSystem α)) := do
  let (K, positions) ← Kkt.assemble P A sigma rhoInv
  match ← Ldl.factor K order with
  | .error e => return .error (.linearSolver e)
  | .ok factors =>
    if factors.positive = P.ncols then return .ok ⟨factors, positions⟩
    else return .error .nonConvex

/-- **Replaces the lower diagonal** and factors again. -/
def updateRhoInv (k : KktSystem α) (rhoInv : Array α) :
    Checked (KktSystem α × Except LdlError Unit) := do
  let factors ← k.factors.setEntries k.positions (rhoInv.map (- ·))
  let (factors, outcome) ← factors.refactor
  return ({ k with factors := factors }, outcome)

/-- Solves the system. -/
def solve (k : KktSystem α) (rhs : Array α) : Checked (Array α) := k.factors.solve rhs

end KktSystem

end SplitQP
