import SplitQP.Admm.Solver
import SplitQP.Call.Program
/-!
# Backends — solvers behind a call

A backend sets up a workspace for a program and solves in it. What it says
while doing so are remarks and text; it says nothing else and touches
nothing of the caller's. The solver of this library is one backend; a
scripted one answers as it is told.
-/

namespace SplitQP

/-- What a backend says. -/
inductive Utterance where
  | remark (r : Remark)
  | text (bytes : ByteArray)

/-- A solver that a session can drive. -/
structure Backend (α : Type) where
  /-- What solving needs. -/
  Workspace : Type
  widths : Widths
  /-- Sets up a workspace, or fails with a code. The last argument says
  whether there is a log. -/
  setup : Program α → Settings α → Bool → Course Utterance (Except Int Workspace)
  /-- Solves once. The exit flag is zero where solving came to an end. -/
  solve : Workspace → Course Utterance (Workspace × Int)
  /-- The code of the outcome. -/
  status : Workspace → Int
  /-- Primal and dual solution, where there is one. -/
  solution : Workspace → Option (Array α × Array α)

/-- How the runs of a solver are put into words. -/
structure Narrator (α : Type) where
  note : Note α → String
  /-- The remarks on a run and the text it prints. -/
  run : Solver α → Clock α → List (Event α) → Checked (Journal × ByteArray)

namespace Backend

variable {α : Type} [Scalar α]

/-- Says a remark. -/
def remark (level : Level) (text : String) : Course Utterance Unit :=
  Course.step (.remark ⟨level, text⟩)

/-- **The solver of this library.** -/
def admm (narrator : Narrator α) (clock : Clock α) (order : EliminationOrder) : Backend α where
  Workspace := Solver α
  widths := .expected
  setup p settings _ := do
    match ← Course.ofChecked (Solver.setup p.P p.q.data p.A p.l.data p.u.data settings order) with
    | .error e =>
      remark .error s!"solver setup failed: {e.message}"
      return .error e.exitCode
    | .ok solver =>
      remark .debug (narrator.note solver.setupNote)
      return .ok solver
  solve solver := do
    let stage ← Course.ofChecked (solver.run clock)
    let (journal, text) ← Course.ofChecked (narrator.run solver clock stage.events)
    Course.walk (journal.toList.map .remark)
    Course.step (.text text)
    match stage.result with
    | .ok () => return (stage.solver, 0)
    | .error e =>
      remark .error s!"solver failed: {e.message}"
      return (stage.solver, e.exitCode)
  status solver := solver.solution.status.code
  solution solver :=
    if solver.solution.status.hasSolution then some (solver.solution.x, solver.solution.y)
    else none

end Backend

/-- A backend's answers, laid down beforehand. -/
structure Script (α : Type) where
  widths : Widths := .expected
  /-- The code with which the setup fails, unless zero. -/
  setup : Int := 0
  exit : Int := 0
  status : Int := 0
  solution : Option (Array α × Array α) := none

/-- **A backend that answers as scripted.** It says one line, to a log only. -/
def Backend.scripted {α : Type} (s : Script α) : Backend α where
  Workspace := Bool
  widths := s.widths
  setup _ _ hasLog := return if s.setup = 0 then .ok hasLog else .error s.setup
  solve hasLog := do
    if hasLog then Course.step (.text "mock solve\n".toUTF8)
    return (hasLog, s.exit)
  status _ := s.status
  solution _ := s.solution

end SplitQP
