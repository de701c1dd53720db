import SplitQP.Admm.Infeasibility
/-!
# Residuals in place

Residuals and both infeasibility tests are computed in vectors that are kept
from one computation to the next. Nothing is cleaned up in between: a test
that ends early leaves what it had written by then, and residuals of a point
that is refused afterwards stay until others are computed.
-/

namespace SplitQP

/-- The vectors that residuals and tests are computed in. -/
structure Workspace (α : Type) where
  ax : Array α
  px : Array α
  aty : Array α
  workN : Array α
  workM : Array α

namespace Workspace

variable {α : Type}

/-- As many entries as there are variables or constraints, all zero. -/
def zero [Scalar α] (n m : Nat) : Workspace α where
  ax := Dense.constant m 0
  px := Dense.constant n 0
  aty := Dense.constant n 0
  workN := Dense.constant n 0
  workM := Dense.constant m 0

/-- Writes `src` over the first entries of `dst`. -/
def put (dst src : Array α) : Array α := dst.mapIdx fun i old => src.getD i old

end Workspace

namespace Residuals

variable {α : Type} [Scalar α]

/-- Norms and objective, from the products with `x` and `y` and from both gaps. -/
def measure (p : Problem α) (eq : Equilibration α) (x z ax px aty prim dual : Array α) :
    Checked (Residuals α) := do
  let primNorm := Scalar.max (← Dense.normInfScaled ax eq.einv) (← Dense.normInfScaled z eq.einv)
  let dualNorm := Scalar.max
    (Scalar.max (← Dense.normInfScaled px eq.dinv) (← Dense.normInfScaled aty eq.dinv))
    (← Dense.normInfScaled p.q eq.dinv)
  return {
    primRes := ← Dense.normInfScaled prim eq.einv
    dualRes := eq.cinv * (← Dense.normInfScaled dual eq.dinv)
    objective := eq.cinv * (0.5 * (← Dense.dot x px) + (← Dense.dot p.q x))
    primNorm := primNorm
    dualNorm := eq.cinv * dualNorm
    primResScaled := Dense.normInf prim
    dualResScaled := Dense.normInf dual
    primNormScaled := Scalar.max (Dense.normInf ax) (Dense.normInf z)
    dualNormScaled := Scalar.max (Scalar.max (Dense.normInf px) (Dense.normInf aty))
      (Dense.normInf p.q) }

/-- **The residuals at a scaled point,** computed in place. -/
def atPointIn (w : Workspace α) (p : Problem α) (eq : Equilibration α) (x z y : Array α) :
    Checked (Residuals α × Workspace α) := do
  let ax ← p.A.mulVec 1 x 0 w.ax
  let px ← p.P.mulSymVec 1 x 0 w.px
  let aty ← p.A.mulTransposeVec 1 y 0 w.aty
  let workM ← Dense.combineTo w.workM 1 ax (-1) z
  let workN := Workspace.put w.workN ((px.zipWith (· + ·) p.q).zipWith (· + ·) aty)
  return (← measure p eq x z ax px aty workM workN, ⟨ax, px, aty, workN, workM⟩)

end Residuals

namespace Infeasibility

variable {α : Type} [Scalar α]

/-- **`δy` proves that the constraints have no solution,** computed in place. -/
def isPrimalIn (w : Workspace α) (p : Problem α) (eq : Equilibration α) (deltaY : Array α)
    (eps : α) : Checked (Bool × Workspace α) := do
  let dy ← Dense.copyTo w.workM deltaY
  let dy := Workspace.put dy (projected p dy)
  let w := { w with workM := dy }
  let norm ← Dense.normInfScaled dy eq.e
  if Scalar.le norm Residuals.divisionTolerance then return (false, w)
  if Scalar.le (-eps * norm) (support p dy) then return (false, w)
  let aty ← p.A.mulTransposeVec 1 dy 0 w.workN
  return (Scalar.lt (← Dense.normInfScaled aty eq.dinv) (eps * norm), { w with workN := aty })

/-- **`δx` proves that the objective is unbounded below,** computed in place. -/
def isDualIn (w : Workspace α) (p : Problem α) (eq : Equilibration α) (deltaX : Array α)
    (eps : α) : Checked (Bool × Workspace α) := do
  let norm ← Dense.normInfScaled deltaX eq.d
  if Scalar.le norm Residuals.divisionTolerance then return (false, w)
  if Scalar.le (-eq.c * eps * norm) (← Dense.dot p.q deltaX) then return (false, w)
  let px ← p.P.mulSymVec 1 deltaX 0 w.workN
  let w := { w with workN := px }
  if Scalar.le (eq.c * eps * norm) (← Dense.normInfScaled px eq.dinv) then return (false, w)
  let ax ← p.A.mulVec 1 deltaX 0 w.workM
  let ax ← Dense.hadamard ax eq.einv
  return (((p.l.zip p.u).zip ax).all fun ((l, u), adx) => staysWithin (eps * norm) l u adx,
    { w with workM := ax })

end Infeasibility

end SplitQP
