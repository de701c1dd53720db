/-!
# Outcomes and their codes

A solver that has run, or not run yet, has one status. Callers see the
status as a code and know it under a name; one further code says that no
solver ran.
-/

namespace SplitQP

/-- How a solver ended. -/
inductive SolverStatus where
  | unsolved
  | solved
  | solvedInaccurate
  | primalInfeasible
  | primalInfeasibleInaccurate
  | dualInfeasible
  | dualInfeasibleInaccurate
  | maxIterations
  | timeLimit
  | interrupted
  | nonConvex
  deriving DecidableEq, Repr

/-- The code reported where no solver ran. No status has it. -/
def setupErrorCode : Int := -1

namespace SolverStatus

/-- Every status, in the order in which callers are told of them. -/
def all : List SolverStatus :=
  [solved, solvedInaccurate, primalInfeasibleInaccurate, dualInfeasibleInaccurate,
    maxIterations, primalInfeasible, dualInfeasible, interrupted, timeLimit, nonConvex, unsolved]

/-- The name in progress text. -/
def name : SolverStatus → String
  | unsolved => "Unsolved"
  | solved => "Solved"
  | solvedInaccurate => "SolvedInaccurate"
  | primalInfeasible => "PrimalInfeasible"
  | primalInfeasibleInaccurate => "PrimalInfeasibleInaccurate"
  | dualInfeasible => "DualInfeasible"
  | dualInfeasibleInaccurate => "DualInfeasibleInaccurate"
  | maxIterations => "MaxIterations"
  | timeLimit => "TimeLimit"
  | interrupted => "Interrupted"
  | nonConvex => "NonConvex"

/-- The name callers know. -/
def callerName : SolverStatus → String
  | solved => "SOLVED"
  | solvedInaccurate => "SOLVED_INACCURATE"
  | primalInfeasibleInaccurate => "PRIMAL_INFEASIBLE_INACCURATE"
  | dualInfeasibleInaccurate => "DUAL_INFEASIBLE_INACCURATE"
  | maxIterations => "MAX_ITER_REACHED"
  | primalInfeasible => "PRIMAL_INFEASIBLE"
  | dualInfeasible => "DUAL_INFEASIBLE"
  | interrupted => "SIGINT"
  | timeLimit => "TIME_LIMIT_REACHED"
  | nonConvex => "NON_CVX"
  | unsolved => "UNSOLVED"

/-- The code callers receive. -/
def code : SolverStatus → Int
  | solved => 1
  | solvedInaccurate => 2
  | primalInfeasibleInaccurate => 3
  | dualInfeasibleInaccurate => 4
  | maxIterations => -2
  | primalInfeasible => -3
  | dualInfeasible => -4
  | interrupted => -5
  | timeLimit => -6
  | nonConvex => -7
  | unsolved => -10

/-- The status with a given code. -/
def ofCode? (code : Int) : Option SolverStatus := all.find? (·.code = code)

/-- The status with a given name. -/
def ofName? (name : String) : Option SolverStatus := all.find? (·.name = name)

/-- Names and codes a caller can receive, the failure code first. -/
def callerConstants : List (String × Int) :=
  ("SETUP_ERROR", setupErrorCode) :: all.map fun s => (s.callerName, s.code)

/-- Some infeasibility was found. -/
def isInfeasible : SolverStatus → Bool
  | primalInfeasible | primalInfeasibleInaccurate
  | dualInfeasible | dualInfeasibleInaccurate => true
  | _ => false

/-- The last iterate is reported as a solution. -/
def hasSolution (s : SolverStatus) : Bool :=
  !s.isInfeasible && s ≠ unsolved && s ≠ nonConvex

/-- The status for reduced accuracy, where there is one. -/
def inaccurate : SolverStatus → SolverStatus
  | solved => solvedInaccurate
  | primalInfeasible => primalInfeasibleInaccurate
  | dualInfeasible => dualInfeasibleInaccurate
  | s => s

/-- **A code names its status.** -/
theorem ofCode?_code (s : SolverStatus) : ofCode? s.code = some s := by
  cases s <;> rfl

/-- The failure code is no status. -/
theorem ofCode?_setupErrorCode : ofCode? setupErrorCode = none := rfl

end SolverStatus

/-- What became of polishing. -/
inductive PolishStatus where
  | notPerformed
  | successful
  | unsuccessful
  deriving DecidableEq, Repr

/-- The name in progress text. -/
def PolishStatus.name : PolishStatus → String
  | notPerformed => "NotPerformed"
  | successful => "Successful"
  | unsuccessful => "Unsuccessful"

end SplitQP
