import SplitQP.Fault
import SplitQP.Scalar
import SplitQP.Dense
import SplitQP.Sparse.Error
import SplitQP.Sparse.Matrix
import SplitQP.Sparse.Reshape
import SplitQP.Sparse.Product
import SplitQP.Sparse.Triplets
import SplitQP.Sparse.Filling
import SplitQP.Factor.Error
import SplitQP.Factor.Permutation
import SplitQP.Factor.EliminationTree
import SplitQP.Factor.EliminationOrder
import SplitQP.Factor.Numeric
import SplitQP.Factor.Ldl
import SplitQP.Factor.InPlace
import SplitQP.Factor.PermutationFilling
import SplitQP.Number.Power
import SplitQP.Number.Binary
import SplitQP.Number.Decimal
import SplitQP.Number.Shortest
import SplitQP.Number.TimeSpan
import SplitQP.Number.Whole
import SplitQP.Text.Utf8
import SplitQP.Output.Journal
import SplitQP.Output.PrintTarget
import SplitQP.Admm.Status
import SplitQP.Admm.Settings
import SplitQP.Admm.Error
import SplitQP.Admm.Problem
import SplitQP.Admm.Equilibration
import SplitQP.Admm.StepSize
import SplitQP.Admm.Kkt
import SplitQP.Admm.KktFilling
import SplitQP.Admm.Iterate
import SplitQP.Admm.Residuals
import SplitQP.Admm.Infeasibility
import SplitQP.Admm.Workspace
import SplitQP.Admm.Polish
import SplitQP.Admm.Report
import SplitQP.Admm.Solver
import SplitQP.Admm.Progress
import SplitQP.Number.Nearest
import SplitQP.Output.LogFile
import SplitQP.Call.Error
import SplitQP.Call.Coordinates
import SplitQP.Call.NamedSettings
import SplitQP.Call.Resolution
import SplitQP.Call.Course
import SplitQP.Call.Loan
import SplitQP.Call.History
import SplitQP.Call.Program
import SplitQP.Call.Backend
import SplitQP.Call.Session
import SplitQP.Call.Solve
import SplitQP.Call.Foreign
import SplitQP.Call.Narration
import SplitQP.Json.Reader
import SplitQP.Json.Text
import SplitQP.Json.Numeral
import SplitQP.Json.Skip
import SplitQP.Json.Typed
import SplitQP.Json.Writer
import SplitQP.Json.SettingsForm
import SplitQP.Call.Record
import SplitQP.Proofs.Answers
import SplitQP.Proofs.Exact
import SplitQP.Proofs.Sparse.Columns
import SplitQP.Proofs.Sparse.AsMatrix
import SplitQP.Proofs.Sparse.Products
import SplitQP.Proofs.Factor.EliminationTree
import SplitQP.Proofs.Factor.Pattern
import SplitQP.Proofs.Factor.Row
import SplitQP.Proofs.Factor.Slots
import SplitQP.Proofs.Factor.Factorise
import SplitQP.Proofs.Factor.Product
import SplitQP.Proofs.Sparse.Build
import SplitQP.Proofs.Factor.Permutation
import SplitQP.Proofs.Factor.Permuted
import SplitQP.Proofs.Factor.Solve
import SplitQP.Proofs.Factor.Ldl
import SplitQP.Proofs.Factor.Correct
import SplitQP.Proofs.Factor.Quasidefinite
import SplitQP.Proofs.Sparse.Reshape
import SplitQP.Proofs.Sparse.Select
import SplitQP.Proofs.Admm.Kkt
import SplitQP.Proofs.Admm.Problem
import SplitQP.Proofs.Dense
import SplitQP.Proofs.Admm.Equilibration
import SplitQP.Proofs.Admm.Iterate
import SplitQP.Proofs.Admm.Residuals
import SplitQP.Proofs.Admm.Polish
import SplitQP.Proofs.Admm.Report
import SplitQP.Proofs.Admm.Moves
import SplitQP.Proofs.Admm.Solver
import SplitQP.Proofs.Admm.Optimality
import SplitQP.Proofs.Admm.Faithful
import SplitQP.Proofs.Admm.Convexity
import SplitQP.Proofs.Admm.Verdicts
import SplitQP.Proofs.Admm.Infeasibility
import SplitQP.Proofs.Admm.Certificates
import SplitQP.Proofs.Factor.Reuse
import SplitQP.Proofs.Admm.KktSystem
import SplitQP.Proofs.Admm.Runs
import SplitQP.Proofs.Admm.Stationary
import SplitQP.Proofs.Admm.Polished
import SplitQP.Proofs.Admm.Consistent
import SplitQP.Proofs.Call.Coordinates
import SplitQP.Proofs.Call.Course
import SplitQP.Proofs.Factor.Afresh
import SplitQP.Proofs.Admm.Progress
import SplitQP.Proofs.Call.Answers
import SplitQP.Proofs.Admm.Approach
import SplitQP.Proofs.Sparse.Trimmed
import SplitQP.Proofs.Factor.Trimmed
import SplitQP.Proofs.Factor.InPlace
import SplitQP.Proofs.Admm.Bounds
import SplitQP.Proofs.Admm.InfiniteBounds
import SplitQP.Proofs.Call.History
import SplitQP.Proofs.Call.Session
import SplitQP.Proofs.Call.Passage
import SplitQP.Proofs.Call.Outputs
import SplitQP.Proofs.Admm.Conclusive
import SplitQP.Proofs.Call.Standard
import SplitQP.Proofs.Call.Teardown
import SplitQP.Proofs.Call.Custody
import SplitQP.Proofs.Text.Utf8
import SplitQP.Proofs.Call.Foreign
import SplitQP.Proofs.Sparse.Dropped
import SplitQP.Proofs.Sparse.Reordered
import SplitQP.Proofs.Call.Alike
import SplitQP.Proofs.Call.Reordered
import SplitQP.Proofs.Factor.Trace
import SplitQP.Proofs.Factor.Agreement
import SplitQP.Proofs.Call.Replay
import SplitQP.Proofs.Number.Double
import SplitQP.Proofs.Number.Rounding
import SplitQP.Proofs.Number.FromDecimal
import SplitQP.Proofs.Number.Shortest
import SplitQP.Proofs.Json.Reader
import SplitQP.Proofs.Json.Text
import SplitQP.Proofs.Json.Literal
import SplitQP.Proofs.Json.Numeral
import SplitQP.Proofs.Json.Typed
import SplitQP.Proofs.Call.Record
import SplitQP.Proofs.Admm.Unseen
import SplitQP.Proofs.Admm.Telling
import SplitQP.Proofs.Admm.Transcript
import SplitQP.Proofs.Output.LogFile
import SplitQP.Proofs.Call.Channels
import SplitQP.Proofs.Call.Unseen
import SplitQP.Proofs.Factor.Eigenvalues
import SplitQP.Proofs.Sparse.Sorted
import SplitQP.Proofs.Sparse.Revalued
import SplitQP.Proofs.Sparse.Canonical
import SplitQP.Proofs.Sparse.Filling
import SplitQP.Proofs.Sparse.Triplets
import SplitQP.Proofs.Sparse.Compaction
import SplitQP.Proofs.Call.SortedByColumn
import SplitQP.Proofs.Admm.KktBlocks
import SplitQP.Proofs.Admm.KktCounts
import SplitQP.Proofs.Admm.KktFilling
import SplitQP.Proofs.Admm.Unscaled
import SplitQP.Proofs.Admm.ActiveRows
import SplitQP.Proofs.Admm.Improvement
import SplitQP.Proofs.Admm.Workspace
import SplitQP.Proofs.Admm.Traceless
import SplitQP.Proofs.Sparse.Adjoint
import SplitQP.Proofs.Sparse.Marked
import SplitQP.Proofs.Sparse.Selecting
import SplitQP.Proofs.Admm.Recognition
import SplitQP.Proofs.Number.NotANumber
import SplitQP.Proofs.Sparse.NotANumber
import SplitQP.Proofs.Admm.NotANumber
import SplitQP.Proofs.Number.Whole
import SplitQP.Proofs.Call.Resolution
import SplitQP.Proofs.Factor.Elimination
import SplitQP.Proofs.Sparse.Places
import SplitQP.Proofs.Factor.PermutationFilling
