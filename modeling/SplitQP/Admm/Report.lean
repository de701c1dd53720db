import SplitQP.Admm.Iterate
import SplitQP.Admm.Residuals
import SplitQP.Admm.Error
import SplitQP.Admm.Status
/-!
# What a solver reports

`Info` follows a run while it goes on; `Solution` is read off the last
iterate when it has ended, in the caller's units. A run that found a
solution reports it; one that found the program infeasible reports the
step that shows it; otherwise the entries are "not a number".
-/

namespace SplitQP

/-- Progress of a run. -/
structure Info (α : Type) where
  iterations : Nat
  status : SolverStatus
  polish : PolishStatus
  objective : α
  primRes : α
  dualRes : α
  /-- The last estimate of the best base step size. -/
  rhoEstimate : α
  /-- How often the step size was changed. -/
  rhoUpdates : Nat
  deriving Repr, BEq

namespace Info

variable {α : Type} [Scalar α]

/-- Before the first run. -/
def initial : Info α := ⟨0, .unsolved, .notPerformed, 0, 0, 0, 0, 0⟩

/-- At the start of a run. The step size estimate of earlier runs is kept. -/
def restart (i : Info α) : Info α where
  iterations := 0
  status := .unsolved
  polish := .notPerformed
  objective := Scalar.nan
  primRes := Scalar.infinity
  dualRes := Scalar.infinity
  rhoEstimate := i.rhoEstimate
  rhoUpdates := 0

omit [Scalar α] in
/-- Takes over objective and residuals. -/
def update (i : Info α) (r : Residuals α) : Info α :=
  { i with objective := r.objective, primRes := r.primRes, dualRes := r.dualRes }

end Info

/-- What a run leaves to the caller. -/
structure Solution (α : Type) where
  x : Array α
  y : Array α
  primInfCert : Option (Array α)
  dualInfCert : Option (Array α)
  status : SolverStatus
  objective : α
  iterations : Nat
  deriving Repr, BEq

namespace Solution

variable {α : Type} [Scalar α]

/-- No solution of a program with `n` variables and `m` constraints. -/
def none (n m : Nat) : Solution α :=
  ⟨Dense.constant n Scalar.nan, Dense.constant m Scalar.nan, Option.none, Option.none,
    .unsolved, Scalar.nan, 0⟩

/-- `E·y / c`. -/
def unscaleDual (eq : Equilibration α) (y : Array α) : Checked (Array α) := do
  return Dense.scale eq.cinv (← Dense.hadamard y eq.e)

/-- **Reads the solution off an iterate.** -/
def ofIterate (n m : Nat) (v : Iterate α) (eq : Equilibration α) (info : Info α) :
    Checked (Solution α) := do
  let blank : Solution α := { none n m with status := info.status, iterations := info.iterations }
  if info.status.hasSolution then
    return { blank with
      x := ← Dense.hadamard (← Dense.copyTo blank.x v.x) eq.d
      y := ← unscaleDual eq (← Dense.copyTo blank.y v.y)
      objective := info.objective }
  else match info.status with
    | .primalInfeasible | .primalInfeasibleInaccurate =>
      return { blank with
        primInfCert := some (← unscaleDual eq v.deltaY)
        objective := Scalar.infinity }
    | .dualInfeasible | .dualInfeasibleInaccurate =>
      return { blank with
        dualInfCert := some (← Dense.hadamard v.deltaX eq.d)
        objective := -Scalar.infinity }
    | _ => return blank

end Solution

/-- A remark on the course of a run. -/
inductive Note (α : Type) where
  | setUp (n m nnzP nnzA : Nat)
  | crossedBounds
  | rhoUpdated (rho : α) (iteration : Nat)
  | polishNotFactored (e : LdlError)
  | polished (status : PolishStatus)
  | aborted (e : SolveError)
  deriving Repr, BEq

/-- Something to tell about a run, in the order in which it happened. -/
inductive Event (α : Type) where
  /-- The program and the settings, with the head of the table. -/
  | started
  /-- A row of the table. -/
  | checked (info : Info α) (rho : α)
  /-- The result. -/
  | finished (info : Info α)
  | noted (note : Note α)
  deriving Repr, BEq

end SplitQP
