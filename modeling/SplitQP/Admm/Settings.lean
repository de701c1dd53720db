import SplitQP.Scalar
/-!
# Solver settings

Eighteen fields with defaults and legal ranges. `validate` checks all of
them, in a fixed order, and reports the first field out of range; a
comparison that fails because a value is not a number counts as out of
range.
-/

namespace SplitQP

/-- What the solver can be told. -/
structure Settings (α : Type) where
  /-- Base step size. -/
  rho : α
  /-- Regularisation of the primal variable. -/
  sigma : α
  /-- Relaxation, in `(0, 2)`. -/
  alpha : α
  /-- Absolute tolerance. -/
  epsAbs : α
  /-- Relative tolerance. -/
  epsRel : α
  /-- Tolerance of the primal infeasibility test. -/
  epsPrimInf : α
  /-- Tolerance of the dual infeasibility test. -/
  epsDualInf : α
  maxIter : Nat
  polish : Bool
  /-- Regularisation when polishing. -/
  delta : α
  /-- Refinement steps when polishing. -/
  polishRefineIter : Nat
  /-- Equilibration rounds; none where zero. -/
  scaling : Nat
  /-- Whether the step size is adapted. -/
  adaptiveRho : Bool
  /-- Iterations between adaptations; none where zero. -/
  adaptiveRhoInterval : Nat
  /-- Factor by which the step size must change to be adapted. -/
  adaptiveRhoTolerance : α
  /-- Iterations between termination checks; only at the end where zero. -/
  checkTermination : Nat
  /-- Seconds allowed; no limit where zero. -/
  timeLimit : α
  /-- Whether progress is printed. -/
  verbose : Bool
  deriving Repr, BEq

/-- A field is out of range. -/
inductive SettingsError where
  | badValue (field : String)
  deriving DecidableEq, Repr

/-- The wording of the error. -/
def SettingsError.message : SettingsError → String
  | badValue field => s!"Bad value for field {field}"

namespace Settings

variable {α : Type} [Scalar α]

/-- The defaults. -/
def default : Settings α where
  rho := 0.1
  sigma := 1e-6
  alpha := 1.6
  epsAbs := 1e-3
  epsRel := 1e-3
  epsPrimInf := 1e-4
  epsDualInf := 1e-4
  maxIter := 4000
  polish := false
  delta := 1e-6
  polishRefineIter := 3
  scaling := 10
  adaptiveRho := true
  adaptiveRhoInterval := 25
  adaptiveRhoTolerance := 5.0
  checkTermination := 25
  timeLimit := 0.0
  verbose := true

/-- Refuses the field unless its value is legal. -/
def check (field : String) (legal : Bool) : Except SettingsError Unit :=
  if legal then .ok () else .error (.badValue field)

/-- Positive. -/
def isPositive (v : α) : Bool := Scalar.lt 0 v

/-- Strictly between zero and two. -/
def isRelaxation (v : α) : Bool := Scalar.lt 0 v && Scalar.lt v 2.0

/-- **Reports the first field out of range.** -/
def validate (s : Settings α) : Except SettingsError Unit := do
  check "rho" (isPositive s.rho)
  check "sigma" (isPositive s.sigma)
  check "alpha" (isRelaxation s.alpha)
  check "eps_abs" (Scalar.le 0 s.epsAbs)
  check "eps_rel" (Scalar.le 0 s.epsRel)
  check "eps_abs" (!(Scalar.eq s.epsAbs 0 && Scalar.eq s.epsRel 0))
  check "eps_prim_inf" (isPositive s.epsPrimInf)
  check "eps_dual_inf" (isPositive s.epsDualInf)
  check "delta" (isPositive s.delta)
  check "max_iter" (s.maxIter ≠ 0)
  check "adaptive_rho_tolerance" (Scalar.le 1 s.adaptiveRhoTolerance)
  check "time_limit" (Scalar.le 0 s.timeLimit)

/-- Values for some of the fields. -/
structure Changes (α : Type) where
  rho : Option α := none
  sigma : Option α := none
  alpha : Option α := none
  epsAbs : Option α := none
  epsRel : Option α := none
  epsPrimInf : Option α := none
  epsDualInf : Option α := none
  maxIter : Option Nat := none
  polish : Option Bool := none
  delta : Option α := none
  polishRefineIter : Option Nat := none
  scaling : Option Nat := none
  adaptiveRho : Option Bool := none
  adaptiveRhoInterval : Option Nat := none
  adaptiveRhoTolerance : Option α := none
  checkTermination : Option Nat := none
  timeLimit : Option α := none
  verbose : Option Bool := none

omit [Scalar α] in
/-- `s` with the chosen fields replaced. -/
def change (s : Settings α) (c : Changes α) : Settings α where
  rho := c.rho.getD s.rho
  sigma := c.sigma.getD s.sigma
  alpha := c.alpha.getD s.alpha
  epsAbs := c.epsAbs.getD s.epsAbs
  epsRel := c.epsRel.getD s.epsRel
  epsPrimInf := c.epsPrimInf.getD s.epsPrimInf
  epsDualInf := c.epsDualInf.getD s.epsDualInf
  maxIter := c.maxIter.getD s.maxIter
  polish := c.polish.getD s.polish
  delta := c.delta.getD s.delta
  polishRefineIter := c.polishRefineIter.getD s.polishRefineIter
  scaling := c.scaling.getD s.scaling
  adaptiveRho := c.adaptiveRho.getD s.adaptiveRho
  adaptiveRhoInterval := c.adaptiveRhoInterval.getD s.adaptiveRhoInterval
  adaptiveRhoTolerance := c.adaptiveRhoTolerance.getD s.adaptiveRhoTolerance
  checkTermination := c.checkTermination.getD s.checkTermination
  timeLimit := c.timeLimit.getD s.timeLimit
  verbose := c.verbose.getD s.verbose

/-- **Defaults with chosen fields.** Only step size, regularisation, relaxation
and iteration limit are checked, and only where chosen. -/
def build (c : Changes α) : Except SettingsError (Settings α) := do
  check "rho" (c.rho.all isPositive)
  check "sigma" (c.sigma.all isPositive)
  check "alpha" (c.alpha.all isRelaxation)
  check "max_iter" (c.maxIter ≠ some 0)
  return Settings.default.change c

end Settings

end SplitQP
