import SplitQP.Admm.Residuals
import SplitQP.Admm.StepSize
/-!
# Infeasibility tests

Where a program has no solution, the steps of the iteration tend to a
proof of it. A step `δy` proves that no point satisfies the constraints
when `Aᵀδy` vanishes and `uᵀδy⁺ + lᵀδy⁻` is negative; a step `δx` proves
that the objective is unbounded below when it descends along `q`, does
not bend it through `P`, and keeps within the bounds for ever. Both tests
are relative to the length of the step in the caller's units.
-/

namespace SplitQP

namespace Infeasibility

variable {α : Type} [Scalar α]

/-- The part of `dy` that bounds `l` and `u` allow: none against an infinite
bound. -/
def project (l u dy : α) : α :=
  match Scalar.lt l (-StepSizes.unbounded), Scalar.lt StepSizes.unbounded u with
  | true, true => 0
  | false, true => Scalar.min dy 0
  | true, false => Scalar.max dy 0
  | false, false => dy

/-- `δy` without what infinite bounds forbid. -/
def projected (p : Problem α) (deltaY : Array α) : Array α :=
  ((p.l.zip p.u).zip deltaY).map fun ((l, u), dy) => project l u dy

/-- `Σ uᵢ·max(δyᵢ, 0) + lᵢ·min(δyᵢ, 0)`. -/
def support (p : Problem α) (dy : Array α) : α :=
  ((p.l.zip p.u).zip dy).foldl (fun acc ((l, u), dy) =>
    acc + u * Scalar.max dy 0 + l * Scalar.min dy 0) 0

/-- **`δy` proves that the constraints have no solution.** -/
def isPrimal (p : Problem α) (eq : Equilibration α) (deltaY : Array α) (eps : α) :
    Checked Bool := do
  let dy := projected p (← Dense.copyTo (Dense.constant p.m 0) deltaY)
  let norm ← Dense.normInfScaled dy eq.e
  if Scalar.le norm Residuals.divisionTolerance then return false
  if Scalar.le (-eps * norm) (support p dy) then return false
  let aty ← p.A.mulTransposeVec 1 dy 0 (Dense.constant p.n 0)
  return Scalar.lt (← Dense.normInfScaled aty eq.dinv) (eps * norm)

/-- The movement `adx` of a row stays between its bounds, up to `tolerance`. -/
def staysWithin (tolerance : α) (l u adx : α) : Bool :=
  (Scalar.lt StepSizes.unbounded u || Scalar.le adx tolerance) &&
    (Scalar.lt l (-StepSizes.unbounded) || Scalar.le (-tolerance) adx)

/-- **`δx` proves that the objective is unbounded below.** -/
def isDual (p : Problem α) (eq : Equilibration α) (deltaX : Array α) (eps : α) :
    Checked Bool := do
  let norm ← Dense.normInfScaled deltaX eq.d
  if Scalar.le norm Residuals.divisionTolerance then return false
  if Scalar.le (-eq.c * eps * norm) (← Dense.dot p.q deltaX) then return false
  let px ← p.P.mulSymVec 1 deltaX 0 (Dense.constant p.n 0)
  if Scalar.le (eq.c * eps * norm) (← Dense.normInfScaled px eq.dinv) then return false
  let ax ← p.A.mulVec 1 deltaX 0 (Dense.constant p.m 0)
  let ax ← Dense.hadamard ax eq.einv
  return ((p.l.zip p.u).zip ax).all fun ((l, u), adx) => staysWithin (eps * norm) l u adx

end Infeasibility

end SplitQP
