import SplitQP.Admm.Infeasibility
import SplitQP.Admm.Polish
import SplitQP.Admm.Report
/-!
# The solver

Setting up a solver accepts and scales the program, classifies its rows
and factors the KKT matrix. A run iterates until a check ends it, the
iteration limit or the time limit is reached, and reports what it found.
The solver keeps its iterate, step sizes and factors from one run to the
next, and its settings may be changed in between.

A run does no output. It lists what there is to tell, as events.
-/

namespace SplitQP

/-- Readings of the clock, in seconds. -/
structure Clock (α : Type) where
  /-- Time the setup took. -/
  setup : α
  /-- Time of a run once iteration `k` is done. -/
  solve : Nat → α
  /-- Time polishing took. -/
  polish : α

/-- A solver for one program. -/
structure Solver (α : Type) where
  problem : Problem α
  equilibration : Equilibration α
  rows : Array RowKind
  steps : StepSizes α
  kkt : KktSystem α
  iterate : Iterate α
  residuals : Residuals α
  info : Info α
  solution : Solution α
  settings : Settings α
  /-- How elimination orders are chosen. -/
  order : EliminationOrder

/-- How a stage of a run ended: the solver after it, what there is to tell,
and whether it broke off. -/
structure Stage (α : Type) (β : Type) where
  solver : Solver α
  events : List (Event α)
  result : Except SolveError β

namespace Solver

variable {α : Type} [Scalar α]

/-! ## Setup -/

/-- **Sets up a solver,** in the order settings, data, scaling, factors. -/
def setup (P : Csc α) (q : Array α) (A : Csc α) (l u : Array α) (settings : Settings α)
    (order : EliminationOrder) : Checked (Except SetupError (Solver α)) := do
  match settings.validate with
  | .error e => return .error (.settings e)
  | .ok () =>
    match ← Problem.ofData P q A l u with
    | .error e => return .error e
    | .ok p =>
      let (p, eq) ← Equilibration.equilibrate settings.scaling p
      let rows := StepSizes.kinds p.l p.u
      let steps := StepSizes.ofBase settings.rho rows
      match ← KktSystem.setup p.P p.A settings.sigma steps.rhoInv order with
      | .error e => return .error e
      | .ok kkt =>
        return .ok {
          problem := p
          equilibration := eq
          rows := rows
          steps := steps
          kkt := kkt
          iterate := .zero p.n p.m
          residuals := .unknown
          info := .initial
          solution := .none p.n p.m
          settings := settings
          order := order }

omit [Scalar α] in
/-- The remark that the solver is set up. -/
def setupNote (s : Solver α) : Note α :=
  .setUp s.problem.n s.problem.m s.problem.P.value.size s.problem.A.value.size

/-! ## Checks -/

/-- Residuals of the current iterate. -/
def updateResiduals (s : Solver α) : Checked (Solver α) := do
  let r ← Residuals.atPoint s.problem s.equilibration s.iterate.x s.iterate.z s.iterate.y
  return { s with residuals := r, info := s.info.update r }

/-- What the current iterate shows, with tolerances scaled by `scale`. -/
def verdict (s : Solver α) (scale : α) : Checked (Option SolverStatus) := do
  let set := s.settings
  let (epsPrim, epsDual) := s.residuals.tolerances (set.epsAbs * scale) (set.epsRel * scale)
  let primOk := s.problem.m == 0 || Scalar.lt s.residuals.primRes epsPrim
  let dualOk := Scalar.lt s.residuals.dualRes epsDual
  if primOk && dualOk then return some .solved
  if !primOk then
    if ← Infeasibility.isPrimal s.problem s.equilibration s.iterate.deltaY
        (set.epsPrimInf * scale) then
      return some .primalInfeasible
  if !dualOk then
    if ← Infeasibility.isDual s.problem s.equilibration s.iterate.deltaX
        (set.epsDualInf * scale) then
      return some .dualInfeasible
  return none

/-- **Ends the run if the iterate solves the program or shows it infeasible.**
The approximate check has tolerances ten times as large. -/
def checkTermination (s : Solver α) (approximate : Bool) : Checked (Option (Solver α)) := do
  match ← s.verdict (if approximate then 10.0 else 1) with
  | none => return none
  | some status =>
    let status := if approximate then status.inaccurate else status
    return some { s with info := { s.info with status := status } }

/-! ## Step size -/

/-- The step size is changed when the estimate leaves the range between
`rho / tolerance` and `rho · tolerance`. -/
def wantsUpdate (rho tolerance estimate : α) : Bool :=
  Scalar.lt (rho * tolerance) estimate || Scalar.lt estimate (rho / tolerance)

/-- **Adapts the step size.** Changing it factors the KKT matrix again. -/
def adaptRho (s : Solver α) : Checked (Stage α Unit) := do
  let rho := s.steps.base
  let estimate := s.residuals.rhoEstimate rho
  let s := { s with info := { s.info with rhoEstimate := estimate } }
  if wantsUpdate rho s.settings.adaptiveRhoTolerance estimate then
    let steps := StepSizes.ofBase estimate s.rows
    let (kkt, outcome) ← s.kkt.updateRhoInv steps.rhoInv
    let s := { s with steps := steps, kkt := kkt }
    match outcome with
    | .error e => return ⟨s, [], .error (.refactor e)⟩
    | .ok () =>
      let s := { s with info := { s.info with rhoUpdates := s.info.rhoUpdates + 1 } }
      return ⟨s, [.noted (.rhoUpdated steps.base s.info.iterations)], .ok ()⟩
  else
    return ⟨s, [], .ok ()⟩

/-! ## Iterations -/

/-- `iter` is a multiple of `interval`, which is not zero. -/
def isDue (interval iter : Nat) : Bool := 0 < interval && iter % interval == 0

/-- Iterations between adaptations of the step size. -/
def adaptInterval (set : Settings α) : Nat :=
  if set.adaptiveRho then set.adaptiveRhoInterval else 0

/-- The row of the table for the current state. -/
def tableRow (s : Solver α) : Event α := .checked s.info s.steps.base

/-- The time allowed is used up after iteration `iter`. -/
def timeIsUp (s : Solver α) (clock : Clock α) (iter : Nat) : Bool :=
  Scalar.lt 0 s.settings.timeLimit &&
    Scalar.lt s.settings.timeLimit (clock.setup + clock.solve iter)

/-- Moves to the next iterate. -/
def advance (s : Solver α) (iter : Nat) : Checked (Solver α) := do
  let v ← s.iterate.step s.problem s.kkt s.steps s.settings.sigma s.settings.alpha
  return { s with iterate := v, info := { s.info with iterations := iter } }

/-- Residuals of the new iterate, where they are needed. -/
def refresh (s : Solver α) (needed : Bool) : Checked (Solver α) :=
  if needed then s.updateResiduals else return s

/-- The check after an iteration, where it is due. -/
def checkIfDue (s : Solver α) (due : Bool) : Checked (Option (Solver α)) :=
  if due then s.checkTermination false else return none

/-- The adaptation after an iteration, where it is due. -/
def adaptIfDue (s : Solver α) (due : Bool) : Checked (Stage α Unit) :=
  if due then s.adaptRho else return ⟨s, [], .ok ()⟩

/-- Whether the run goes on after iteration `iter`, which told `told` and ended
with `stage`: not if that broke off, nor if the time is up. -/
def goOn (clock : Clock α) (iter : Nat) (told : List (Event α)) (stage : Stage α Unit) :
    Stage α Bool :=
  let s := stage.solver
  let events := told ++ stage.events
  match stage.result with
  | .error e => ⟨s, events, .error e⟩
  | .ok () =>
    if s.timeIsUp clock iter then
      ⟨{ s with info := { s.info with status := .timeLimit } }, events, .ok false⟩
    else
      ⟨s, events, .ok true⟩

/-- **Iteration `iter`** with its checks. Answers whether the run goes on. -/
def iteration (s : Solver α) (clock : Clock α) (iter : Nat) : Checked (Stage α Bool) := do
  let s ← s.advance iter
  let check := isDue s.settings.checkTermination iter
  let adapt := isDue (adaptInterval s.settings) iter
  let s ← s.refresh (check || adapt)
  let shown := if check then [s.tableRow] else []
  match ← s.checkIfDue check with
  | some s => return ⟨s, shown, .ok false⟩
  | none => return goOn clock iter shown (← s.adaptIfDue adapt)

/-- The last check, once the iteration limit is reached. A result of reduced
accuracy is accepted if there is one. -/
def lastCheck (s : Solver α) : Checked (Stage α Unit) := do
  let s ← s.updateResiduals
  let events := if isDue s.settings.checkTermination s.settings.maxIter then [] else [s.tableRow]
  match ← s.checkTermination false with
  | some s => return ⟨s, events, .ok ()⟩
  | none =>
    match ← s.checkTermination true with
    | some s => return ⟨s, events, .ok ()⟩
    | none => return ⟨{ s with info := { s.info with status := .maxIterations } }, events, .ok ()⟩

/-- The iterations from `iter` on, as many as `count`, and then the last
check. `told` are the events so far, the latest first. -/
def iterations (clock : Clock α) :
    Nat → Nat → List (Event α) → Solver α → Checked (Stage α Unit)
  | 0, _, told, s => do
    let stage ← s.lastCheck
    return { stage with events := told.reverse ++ stage.events }
  | count + 1, iter, told, s => do
    let stage ← s.iteration clock iter
    let told := stage.events.reverse ++ told
    match stage.result with
    | .error e => return ⟨stage.solver, told.reverse, .error e⟩
    | .ok false => return ⟨stage.solver, told.reverse, .ok ()⟩
    | .ok true => iterations clock count (iter + 1) told stage.solver

/-! ## A run -/

/-- Iterates, unless the bounds given contradict each other. -/
def search (s : Solver α) (clock : Clock α) : Checked (Stage α Unit) :=
  if s.problem.crossedBounds then
    return ⟨{ s with info := { s.info with status := .primalInfeasible } },
      [.noted .crossedBounds], .ok ()⟩
  else
    iterations clock s.settings.maxIter 1 [] s

/-- Polishes the iterate of a solved program. Unless the polished point is
taken over, only the residuals change. -/
def polish (s : Solver α) : Checked (Solver α × List (Event α)) := do
  let outcome ← Polish.run s.problem s.equilibration s.settings.delta s.settings.polishRefineIter
    s.order s.iterate s.info.primRes s.info.dualRes
  let done (s : Solver α) (status : PolishStatus) (events : List (Event α)) :=
    ({ s with info := { s.info with polish := status } }, events ++ [.noted (.polished status)])
  match outcome with
  | .notFactored e => return done s .unsuccessful [.noted (.polishNotFactored e)]
  | .point x z y r improved =>
    let s := { s with residuals := r }
    if improved then
      let v := { s.iterate with
        x := ← Dense.copyTo s.iterate.x x
        z := ← Dense.copyTo s.iterate.z z
        y := ← Dense.copyTo s.iterate.y y }
      return done { s with iterate := v, info := s.info.update r } .successful []
    else
      return done s .unsuccessful []

/-- Polishing was asked for and the search ended with a solution. -/
def wantsPolish (s : Solver α) (result : Except SolveError Unit) : Bool :=
  result.isOk && s.settings.polish && s.info.status = .solved

/-- Polishes after a search that ended with `stage`, where it is wanted. -/
def polishIfWanted (stage : Stage α Unit) : Checked (Solver α × List (Event α)) :=
  if stage.solver.wantsPolish stage.result then stage.solver.polish
  else return (stage.solver, [])

/-- Writes the solution. Contradictory bounds have no certificate. -/
def conclude (s : Solver α) : Checked (Solver α) := do
  let p := s.problem
  let solution ← Solution.ofIterate p.n p.m s.iterate s.equilibration s.info
  let solution := if p.crossedBounds then { solution with primInfCert := none } else solution
  return { s with solution := solution }

/-- The remark that a run broke off. -/
def abortNote : Except SolveError Unit → List (Event α)
  | .ok () => []
  | .error e => [.noted (.aborted e)]

/-- **Runs the solver.** -/
def run (s : Solver α) (clock : Clock α) : Checked (Stage α Unit) := do
  let stage ← { s with info := s.info.restart }.search clock
  let (s, polishing) ← polishIfWanted stage
  let s ← s.conclude
  return {
    solver := s
    events := .started :: stage.events ++ polishing ++
      .finished s.info :: abortNote stage.result
    result := stage.result }

end Solver

end SplitQP
