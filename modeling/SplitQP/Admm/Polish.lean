import SplitQP.Admm.Iterate
import SplitQP.Admm.Residuals
/-!
# Polishing

The signs of `y` and the gaps between `z` and its bounds say which bounds
are met with equality. Taking these rows as equations leaves one linear
system for a more exact solution. It is solved in a regularised form and
refined against the exact one; the result is taken only where it improves
the residuals.
-/

namespace SplitQP

open Checked

namespace Polish

variable {α : Type} [Scalar α]

/-- Which side of a row is met with equality. -/
inductive Side where
  | none
  | lower
  | upper
  deriving DecidableEq, Repr

/-- The side of a row, from its bounds and its `z` and `y`. -/
def sideOf (l u z y : α) : Side :=
  if Scalar.lt (z - l) (-y) then .lower
  else if Scalar.lt (u - z) y then .upper
  else .none

/-- The sides of all rows. -/
def sides (p : Problem α) (v : Iterate α) : Array Side :=
  ((p.l.zip p.u).zip (v.z.zip v.y)).map fun ((l, u), (z, y)) => sideOf l u z y

/-- The rows met with equality. -/
def isActive (sides : Array Side) : Array Bool := sides.map (· ≠ .none)

/-- The bounds that are met, row by row. -/
def metBounds (p : Problem α) (sides : Array Side) : Array α :=
  ((p.l.zip p.u).zip sides).filterMap fun ((l, u), side) =>
    match side with
    | .none => none
    | .lower => some l
    | .upper => some u

/-- One refinement of `sol` against `[P, Bᵀ; B, 0]`, where `B` holds the active
rows. -/
def refineOnce (P B : Csc α) (factors : Ldl α) (rhs sol : Array α) : Checked (Array α) := do
  let n := P.ncols
  let solX := sol.extract 0 n
  let solY := sol.extract n sol.size
  let resX ← P.mulSymVec (-1) solX 1 (rhs.extract 0 n)
  let resX ← B.mulTransposeVec (-1) solY 1 resX
  let resY ← B.mulVec (-1) solX 1 (rhs.extract n rhs.size)
  Dense.combine 1 (← factors.solve (resX ++ resY)) 1 sol

/-- `count` refinements. -/
def refine (P B : Csc α) (factors : Ldl α) (rhs : Array α) : Nat → Array α → Checked (Array α)
  | 0, sol => return sol
  | count + 1, sol => do refine P B factors rhs count (← refineOnce P B factors rhs sol)

/-- The multipliers of the active rows, zero elsewhere. -/
def spread (active : Array Bool) (y : Array α) : Array α :=
  active.mapIdx fun i isActive => if isActive then y.getD (Csc.rank active i) 0 else 0

/-- The new residuals `p` and `d` improve on `p₀` and `d₀`: both do, or one
does and the other was negligible before. -/
def improves (p d p₀ d₀ : α) : Bool :=
  let tiny : α := 1e-10
  (Scalar.lt p p₀ && Scalar.lt d d₀) || (Scalar.lt p p₀ && Scalar.lt d₀ tiny) ||
    (Scalar.lt d d₀ && Scalar.lt p₀ tiny)

/-- What polishing computed. -/
inductive Outcome (α : Type) where
  /-- The linear system could not be factored. -/
  | notFactored (e : LdlError)
  /-- A point and its residuals, and whether they are an improvement. -/
  | point (x z y : Array α) (residuals : Residuals α) (improved : Bool)

/-- **Solves for the active rows** and compares with the residuals `p₀` and
`d₀` of the iterate. -/
def run (p : Problem α) (eq : Equilibration α) (delta : α) (refinements : Nat)
    (order : EliminationOrder) (v : Iterate α) (p₀ d₀ : α) : Checked (Outcome α) := do
  let sides := sides p v
  let active := isActive sides
  let B ← p.A.selectRows active
  let b := metBounds p sides
  let (K, _) ← Kkt.assemble p.P B delta (Dense.constant (active.count true) delta)
  match ← Ldl.factor K order with
  | .error e => return .notFactored e
  | .ok factors =>
    let rhs := p.q.map (- ·) ++ b
    let sol ← refine p.P B factors rhs refinements (← factors.solve rhs)
    let x := sol.extract 0 p.n
    let free ← p.A.mulVec 1 x 0 (Dense.constant p.m 0)
    let z := (free.zipWith Scalar.max p.l).zipWith Scalar.min p.u
    let y := spread active (sol.extract p.n sol.size)
    let r ← Residuals.atPoint p eq x z y
    return .point x z y r (improves r.primRes r.dualRes p₀ d₀)

end Polish

end SplitQP
