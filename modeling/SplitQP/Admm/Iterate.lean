import SplitQP.Admm.Kkt
import SplitQP.Admm.StepSize
/-!
# One iteration

From `(x, z, y)` the KKT system gives a point `(x̃, z̃)` with
`z̃ = A·x̃`. The new `x` and `z` lie between the old ones and that point,
or beyond it, as the relaxation says; the new `z` is moved into its
bounds, and `y` collects what that move took away, times the step size.
-/

namespace SplitQP

open Checked

/-- The iterate, and the last steps of `x` and `y`. -/
structure Iterate (α : Type) where
  x : Array α
  z : Array α
  y : Array α
  deltaX : Array α
  deltaY : Array α
  deriving Repr, BEq

namespace Iterate

variable {α : Type} [Scalar α]

/-- Everything zero. -/
def zero (n m : Nat) : Iterate α where
  x := Dense.constant n 0
  z := Dense.constant m 0
  y := Dense.constant m 0
  deltaX := Dense.constant n 0
  deltaY := Dense.constant m 0

/-- The right hand side `(σ·x - q, z - y / ρ)`. -/
def rightHandSide (p : Problem α) (steps : StepSizes α) (sigma : α) (v : Iterate α) : Array α :=
  let top := v.x.zipWith (fun x q => sigma * x - q) p.q
  let shifts := steps.rhoInv.zipWith (fun rinv y => rinv * y) v.y
  top ++ v.z.zipWith (fun z s => z - s) shifts

/-- `z + (ν - y) / ρ`, with the multipliers `ν` of the KKT solution. -/
def zTilde (steps : StepSizes α) (v : Iterate α) (nu : Array α) : Array α :=
  let moves := (nu.zipWith (fun nu y => nu - y) v.y).zipWith (fun w rinv => rinv * w) steps.rhoInv
  v.z.zipWith (fun z w => z + w) moves

/-- The point `(x̃, z̃)` of the KKT system. -/
def tilde (p : Problem α) (kkt : KktSystem α) (steps : StepSizes α) (sigma : α)
    (v : Iterate α) : Checked (Array α × Array α) := do
  let sol ← kkt.solve (rightHandSide p steps sigma v)
  require (p.n ≤ sol.size) .outOfRange
  let xt := sol.extract 0 p.n
  require (xt.size = v.x.size) .lengthMismatch
  return (xt, zTilde steps v (sol.extract p.n sol.size))

/-- `alpha·new + (1 - alpha)·old`. -/
def relax (alpha : α) (new old : Array α) : Array α :=
  let beta := 1 - alpha
  new.zipWith (fun t p => alpha * t + beta * p) old

/-- **Takes the step to `(x̃, z̃)`.** -/
def advance (p : Problem α) (steps : StepSizes α) (alpha : α) (v : Iterate α)
    (xt zt : Array α) : Iterate α :=
  let x := relax alpha xt v.x
  let between := relax alpha zt v.z
  let pulls := steps.rhoInv.zipWith (fun rinv y => rinv * y) v.y
  let free := between.zipWith (fun w s => w + s) pulls
  let raised := free.zipWith Scalar.max p.l
  let z := raised.zipWith Scalar.min p.u
  let dy := (between.zipWith (fun w z => w - z) z).zipWith (fun w rho => rho * w) steps.rho
  { x := x
    z := z
    y := v.y.zipWith (fun y d => y + d) dy
    deltaX := x.zipWith (fun x p => x - p) v.x
    deltaY := dy }

/-- **One iteration.** -/
def step (p : Problem α) (kkt : KktSystem α) (steps : StepSizes α) (sigma alpha : α)
    (v : Iterate α) : Checked (Iterate α) := do
  let (xt, zt) ← tilde p kkt steps sigma v
  return advance p steps alpha v xt zt

end Iterate

end SplitQP
