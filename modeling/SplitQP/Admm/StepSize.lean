import SplitQP.Admm.Problem
import SplitQP.Admm.Equilibration
/-!
# Step sizes

Every constraint row has a step size, which follows from one base value
and from the kind of the row: rows without bounds take the smallest step,
rows whose bounds coincide a thousand times the base, all others the
base. The base is kept between the smallest and the largest step.
-/

namespace SplitQP

/-- What a constraint row asks for. -/
inductive RowKind where
  /-- Both bounds are infinite. -/
  | loose
  | inequality
  /-- The bounds coincide. -/
  | equality
  deriving DecidableEq, Repr

/-- The base step size, and the step sizes of the rows with their
reciprocals. -/
structure StepSizes (α : Type) where
  base : α
  rho : Array α
  rhoInv : Array α
  deriving Repr, BEq

namespace StepSizes

variable {α : Type} [Scalar α]

/-- Smallest step size. -/
def smallest : α := 1e-6

/-- Largest step size. -/
def largest : α := 1e6

/-- A scaled bound of at least this magnitude is infinite. -/
def unbounded : α := boundInfinity * minScaling

/-- The kind of a row with bounds `l` and `u`. -/
def kindOf (l u : α) : RowKind :=
  if Scalar.lt l (-unbounded) && Scalar.lt unbounded u then .loose
  else if Scalar.lt (u - l) 1e-4 then .equality
  else .inequality

/-- The kinds of all rows. -/
def kinds (l u : Array α) : Array RowKind := l.zipWith kindOf u

/-- The step size of a row. -/
def ofKind (base : α) : RowKind → α
  | .loose => smallest
  | .equality => 1e3 * base
  | .inequality => base

/-- **The step sizes for a base value,** which is first moved into its range. -/
def ofBase (rho : α) (rows : Array RowKind) : StepSizes α :=
  let base := Scalar.clamp rho smallest largest
  let steps := rows.map (ofKind base)
  ⟨base, steps, steps.map Scalar.recip⟩

end StepSizes

end SplitQP
