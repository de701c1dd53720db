import SplitQP.Admm.Equilibration
/-!
# Residuals

How far a point `(x, z, y)` of the scaled program is from solving the
program: the primal residual `A·x - z` and the dual residual
`P·x + q + Aᵀ·y`, both in the caller's units and in scaled ones, with the
norms they are compared with, and the objective.
-/

namespace SplitQP

/-- Residuals, norms and objective of a point. -/
structure Residuals (α : Type) where
  primRes : α
  dualRes : α
  objective : α
  /-- `max(‖A·x‖, ‖z‖)` in the caller's units. -/
  primNorm : α
  /-- `max(‖P·x‖, ‖Aᵀ·y‖, ‖q‖)` in the caller's units. -/
  dualNorm : α
  primResScaled : α
  dualResScaled : α
  primNormScaled : α
  dualNormScaled : α
  deriving Repr, BEq

namespace Residuals

variable {α : Type} [Scalar α]

/-- Smallest quantity that is divided by. -/
def divisionTolerance : α := 1e-30

/-- Before any point was looked at. -/
def unknown : Residuals α where
  primRes := Scalar.infinity
  dualRes := Scalar.infinity
  objective := Scalar.nan
  primNorm := 0
  dualNorm := 0
  primResScaled := Scalar.infinity
  dualResScaled := Scalar.infinity
  primNormScaled := 0
  dualNormScaled := 0

/-- **The residuals at a scaled point.** -/
def atPoint (p : Problem α) (eq : Equilibration α) (x z y : Array α) :
    Checked (Residuals α) := do
  let zerosN := Dense.constant p.n 0
  let zerosM := Dense.constant p.m 0
  let ax ← p.A.mulVec 1 x 0 zerosM
  let px ← p.P.mulSymVec 1 x 0 zerosN
  let aty ← p.A.mulTransposeVec 1 y 0 zerosN
  let prim ← Dense.combineTo zerosM 1 ax (-1) z
  let dual := (px.zipWith (· + ·) p.q).zipWith (· + ·) aty
  let primNorm := Scalar.max (← Dense.normInfScaled ax eq.einv) (← Dense.normInfScaled z eq.einv)
  let dualNorm := Scalar.max
    (Scalar.max (← Dense.normInfScaled px eq.dinv) (← Dense.normInfScaled aty eq.dinv))
    (← Dense.normInfScaled p.q eq.dinv)
  return {
    primRes := ← Dense.normInfScaled prim eq.einv
    dualRes := eq.cinv * (← Dense.normInfScaled dual eq.dinv)
    objective := eq.cinv * (0.5 * (← Dense.dot x px) + (← Dense.dot p.q x))
    primNorm := primNorm
    dualNorm := eq.cinv * dualNorm
    primResScaled := Dense.normInf prim
    dualResScaled := Dense.normInf dual
    primNormScaled := Scalar.max (Dense.normInf ax) (Dense.normInf z)
    dualNormScaled := Scalar.max (Scalar.max (Dense.normInf px) (Dense.normInf aty))
      (Dense.normInf p.q) }

/-- The primal and the dual tolerance. -/
def tolerances (r : Residuals α) (epsAbs epsRel : α) : α × α :=
  (epsAbs + epsRel * r.primNorm, epsAbs + epsRel * r.dualNorm)

/-- The base step size that would balance the relative residuals. -/
def rhoEstimate (r : Residuals α) (rho : α) : α :=
  let prim := r.primResScaled / (r.primNormScaled + divisionTolerance)
  let dual := r.dualResScaled / (r.dualNormScaled + divisionTolerance)
  Scalar.clamp (rho * Scalar.sqrt (prim / (dual + divisionTolerance))) 1e-6 1e6

end Residuals

end SplitQP
