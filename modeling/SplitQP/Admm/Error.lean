import SplitQP.Admm.Settings
import SplitQP.Factor.Error
/-!
# Why a solver cannot be set up or breaks off
-/

namespace SplitQP

/-- Which dimensions do not fit together. -/
inductive DimensionError where
  | objective
  | constraints
  | bounds
  deriving DecidableEq, Repr

/-- What makes problem data unusable. -/
inductive DataError where
  | badlyFormatted
  | nonFinite
  | nanBound
  | lowerEntries
  deriving DecidableEq, Repr

/-- Why a solver cannot be set up. -/
inductive SetupError where
  | dimension (which : DimensionError)
  | invalidData (what : DataError)
  | settings (e : SettingsError)
  | nonConvex
  | linearSolver (e : LdlError)
  deriving DecidableEq, Repr

/-- The wording. -/
def DimensionError.message : DimensionError → String
  | objective => "P must be square with q.len() columns"
  | constraints => "A must be l.len() x q.len()"
  | bounds => "l and u must have the same length"

/-- The wording. -/
def DataError.message : DataError → String
  | badlyFormatted => "badly formatted sparse matrix"
  | nonFinite => "non-finite objective or constraint data"
  | nanBound => "NaN bound"
  | lowerEntries => "P must be upper triangular"

namespace SetupError

/-- The wording. -/
def message : SetupError → String
  | dimension which => s!"Incompatible problem dimensions: {which.message}"
  | invalidData what => s!"Invalid problem data: {what.message}"
  | settings e => s!"Invalid settings: {e.message}"
  | nonConvex => "Problem is non-convex"
  | linearSolver e => s!"KKT factorisation failed: {e.message}"

/-- The code of the failure, never zero. -/
def exitCode : SetupError → Int
  | dimension _ | invalidData _ => 1
  | settings _ => 2
  | linearSolver _ => 4
  | nonConvex => 5

end SetupError

/-- Why a running solver breaks off. -/
inductive SolveError where
  | refactor (e : LdlError)
  deriving DecidableEq, Repr

namespace SolveError

/-- The wording. -/
def message : SolveError → String
  | refactor e => s!"KKT refactorisation failed: {e.message}"

/-- The code of the failure, never zero. -/
def exitCode : SolveError → Int
  | refactor _ => 6

end SolveError

end SplitQP
