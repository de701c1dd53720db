import SplitQP.Sparse.Reshape
import SplitQP.Admm.Error
/-!
# Quadratic programs

Minimise `½·xᵀPx + qᵀx` subject to `l ≤ A·x ≤ u`, with `P` symmetric and
held by its upper triangle. Data are accepted when dimensions fit, both
matrices are well formed, all numbers of the objective and the
constraint matrix are finite, and no bound is "not a number". Accepted
matrices are in canonical form and bounds are clipped to a magnitude that
counts as infinite.
-/

namespace SplitQP

/-- The magnitude from which on a bound is infinite. -/
def boundInfinity {α : Type} [OfScientific α] : α := 1e20

/-- An accepted program. -/
structure Problem (α : Type) where
  n : Nat
  m : Nat
  P : Csc α
  q : Array α
  A : Csc α
  l : Array α
  u : Array α
  /-- Some lower bound given exceeds its upper bound. -/
  crossedBounds : Bool
  deriving Repr

namespace Problem

variable {α : Type} [Scalar α]

omit [Scalar α] in
/-- Dimensions fit and both matrices are well formed. -/
def checkDimensions (P : Csc α) (q : Array α) (A : Csc α) (l u : Array α) :
    Except SetupError Unit := do
  unless P.nrows = q.size ∧ P.ncols = q.size do throw (.dimension .objective)
  unless A.nrows = l.size ∧ A.ncols = q.size do throw (.dimension .constraints)
  unless u.size = l.size do throw (.dimension .bounds)
  unless P.checkFormat.isOk ∧ A.checkFormat.isOk do throw (.invalidData .badlyFormatted)

/-- Objective and constraints are finite, bounds are numbers. -/
def checkValues (P : Csc α) (q : Array α) (A : Csc α) (l u : Array α) :
    Except SetupError Unit := do
  unless Dense.isFinite P.value && Dense.isFinite A.value && Dense.isFinite q do
    throw (.invalidData .nonFinite)
  if (l ++ u).any Scalar.isNaN then throw (.invalidData .nanBound)

/-- Some lower bound exceeds its upper bound. -/
def crossed (l u : Array α) : Bool := (l.zip u).any fun (lo, hi) => Scalar.lt hi lo

/-- **Accepts the data of a program.** -/
def ofData (P : Csc α) (q : Array α) (A : Csc α) (l u : Array α) :
    Checked (Except SetupError (Problem α)) := do
  match (do checkDimensions P q A l u; checkValues P q A l u : Except SetupError Unit) with
  | .error e => return .error e
  | .ok () =>
    let P ← P.canonicalize
    let A ← A.canonicalize
    if ← P.isUpper then
      return .ok {
        n := A.ncols
        m := A.nrows
        P := P
        q := q
        A := A
        l := l.map (Scalar.max · (-boundInfinity))
        u := u.map (Scalar.min · boundInfinity)
        crossedBounds := crossed l u }
    else
      return .error (.invalidData .lowerEntries)

end Problem

end SplitQP
