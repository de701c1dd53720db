import SplitQP.Proofs.Admm.Report
import SplitQP.Proofs.Admm.Moves
/-!
# Reports and the points they give

A run that ends with a solution gives the point that its last iterate
stands for (`reported_of_ran`). Objective and residuals reported are those
of that point, in the caller's units, unless the time was up after an
iteration at which nothing was due; then they are those of an earlier
iterate, or none at all (`faithful_of_run`).
-/

namespace SplitQP

open Checked SplitQP.Dense

namespace Solver

variable {K : Type} [ExactField K] {P A : Csc K} {q l u : Array K} {settings : Settings K}
  {order : EliminationOrder} {p₀ : Problem K} {s : Solver K} {stage : Stage K Unit}

/-- **What is set up** was accepted and scaled, and its rows classified. -/
theorem scaled_of_setup {α : Type} [Scalar α] {P A : Csc α} {q l u : Array α}
    {settings : Settings α} {s : Solver α}
    (h : setup P q A l u settings order = .ok (.ok s)) :
    settings.validate = .ok () ∧ ∃ p₀, Problem.ofData P q A l u = .ok (.ok p₀) ∧
      Equilibration.equilibrate settings.scaling p₀ = .ok (s.problem, s.equilibration) ∧
      s.rows = StepSizes.kinds s.problem.l s.problem.u := by
  rw [setup] at h
  split at h
  · cases h
  obtain ⟨r, hdata, h⟩ := bind_eq_ok.mp h
  cases r with
  | error e => cases h
  | ok p₀ =>
    obtain ⟨⟨p, eq⟩, hscaled, h⟩ := bind_eq_ok.mp h
    obtain ⟨factored, -, h⟩ := bind_eq_ok.mp h
    cases factored with
    | error e => cases h
    | ok kkt =>
      cases h
      exact ⟨‹_›, p₀, hdata, hscaled, rfl⟩

/-- In exact arithmetic the scaling is known. -/
theorem equilibrated_of_setup (h : setup P q A l u settings order = .ok (.ok s)) :
    settings.validate = .ok () ∧ ∃ p₀, Problem.ofData P q A l u = .ok (.ok p₀) ∧
      Equilibration.Equilibrated p₀ s.problem s.equilibration := by
  obtain ⟨hset, p₀, hdata, hscaled, -⟩ := scaled_of_setup h
  have hsound := (Problem.accepted_of_ofData hdata).sound
  exact ⟨hset, p₀, hdata, (Equilibration.equilibrate_ensures hsound _).of_eq_ok hscaled⟩

/-- **The point reported** is the one the iterate stands for, in the caller's
units; its objective is the one noted. -/
structure Reported (n m : ℕ) (s : Solver K) : Prop where
  size_x : s.solution.x.size = n
  size_y : s.solution.y.size = m
  x_eq : vec n s.solution.x = s.equilibration.primal n s.iterate.x
  y_eq : vec m s.solution.y = s.equilibration.dual m s.iterate.y
  objective_eq : s.solution.objective = s.info.objective

/-- **The numbers reported** are the objective and the residuals of the point
reported, for the program as given. -/
structure Faithful (P : Csc K) (q : Array K) (A : Csc K) (m : ℕ) (s : Solver K) : Prop where
  objective_eq : s.solution.objective =
    Residuals.quadratic (P.toSymMatrix q.size) (vec q.size q) (vec q.size s.solution.x)
  primRes_eq : s.info.primRes = maxNorm ((A.toMatrix m q.size).mulVec (vec q.size s.solution.x) -
    s.equilibration.slack m s.iterate.z)
  dualRes_eq : s.info.dualRes = maxNorm ((P.toSymMatrix q.size).mulVec (vec q.size s.solution.x) +
    vec q.size q + (A.toMatrix m q.size).transpose.mulVec (vec m s.solution.y))

/-- **A run reports its last iterate.** -/
theorem reported_of_ran (hacc : Problem.Accepted P q A l u p₀)
    (heq : Equilibration.Equilibrated p₀ stage.solver.problem stage.solver.equilibration)
    (hran : Ran s stage) (hsolution : stage.solver.info.status.hasSolution) :
    Reported q.size l.size stage.solver := by
  obtain ⟨sol, hsol, hkept⟩ := hran.solution
  obtain ⟨hx, hy⟩ := Solution.size_of_ofIterate hsolution hsol
  have hrep := (Solution.ofIterate_ensures_of_hasSolution heq (hx.trans heq.size_d)
    (hy.trans heq.size_e) hsolution).of_eq_ok hsol
  rw [heq.scales.n_eq.trans hacc.n_eq, heq.scales.m_eq.trans hacc.m_eq] at hrep
  have hsame : stage.solver.solution.x = sol.x ∧ stage.solver.solution.y = sol.y ∧
      stage.solver.solution.objective = sol.objective := by
    rw [hkept]
    split_ifs <;> exact ⟨rfl, rfl, rfl⟩
  obtain ⟨hsx, hsy, hsobj⟩ := hsame
  obtain ⟨hsizex, hvecx⟩ := hrep.x_eq hsolution
  obtain ⟨hsizey, hvecy⟩ := hrep.y_eq hsolution
  refine ⟨?_, ?_, ?_, ?_, ?_⟩
  · rw [hsx, hsizex]
  · rw [hsy, hsizey]
  · rw [hsx, hvecx]
  · rw [hsy, hvecy]
  · rw [hsobj, hrep.objective_eq hsolution]

/-- **Fresh reports are faithful.** -/
theorem faithful_of_fresh (hacc : Problem.Accepted P q A l u p₀)
    (heq : Equilibration.Equilibrated p₀ s.problem s.equilibration)
    (hrep : Reported q.size l.size s) (hfresh : Fresh s) : Faithful P q A l.size s := by
  obtain ⟨r, hr, hobj, hprim, hdual⟩ := hfresh
  have hs := heq.scales
  obtain ⟨hx, hz, hy⟩ := Residuals.size_of_atPoint hs.sound hr
  have hmeasures := (Residuals.atPoint_ensures heq hacc.n_eq hacc.m_eq
    (hx.trans (hs.n_eq.trans hacc.n_eq)) (hz.trans (hs.m_eq.trans hacc.m_eq))
    (hy.trans (hs.m_eq.trans hacc.m_eq))).of_eq_ok hr
  rw [hacc.toSymMatrix_P, hacc.q_eq, hacc.toMatrix_A, ← hrep.x_eq, ← hrep.y_eq] at hmeasures
  exact ⟨hrep.objective_eq.trans (hobj.trans hmeasures.objective_eq),
    hprim.trans hmeasures.primRes_eq, hdual.trans hmeasures.dualRes_eq⟩

/-- **Reports are faithful,** after any history of runs, unless the time was up
after an iteration at which nothing was due. Then the point is still that of
the last iterate, and the numbers are those of an earlier one. -/
theorem faithful_of_run {s₀ : Solver K} (hsetup : setup P q A l u settings order = .ok (.ok s₀))
    (hmoves : Moves s₀ s) {clock : Clock K} (hrun : s.run clock = .ok stage)
    (hok : stage.result = .ok ()) (hsolution : stage.solver.info.status.hasSolution) :
    Moves s₀ stage.solver ∧ Reported q.size l.size stage.solver ∧
      (¬Late stage.solver → Faithful P q A l.size stage.solver) ∧
      (Late stage.solver → Stale stage.solver) := by
  obtain ⟨-, p₀, hdata, heq₀⟩ := equilibrated_of_setup hsetup
  have hacc := Problem.accepted_of_ofData hdata
  have hran := ran_of_run hrun
  obtain ⟨hp, he⟩ := problem_of_moves (hmoves.trans hran.moves)
  have heq : Equilibration.Equilibrated p₀ stage.solver.problem stage.solver.equilibration := by
    rw [hp, he]
    exact heq₀
  have hrep := reported_of_ran hacc heq hran hsolution
  obtain ⟨hfresh, hstale⟩ := hran.report hok hsolution
  exact ⟨hmoves.trans hran.moves, hrep,
    fun hnot => faithful_of_fresh hacc heq hrep (hfresh hnot), hstale⟩

/-- Neither objective nor residuals are those of the point reported. -/
def Unfaithful (P : Csc K) (q : Array K) (A : Csc K) (m : ℕ) (s : Solver K) : Prop :=
  s.solution.objective ≠
      Residuals.quadratic (P.toSymMatrix q.size) (vec q.size q) (vec q.size s.solution.x) ∧
    s.info.primRes ≠ maxNorm ((A.toMatrix m q.size).mulVec (vec q.size s.solution.x) -
      s.equilibration.slack m s.iterate.z) ∧
    s.info.dualRes ≠ maxNorm ((P.toSymMatrix q.size).mulVec (vec q.size s.solution.x) +
      vec q.size q + (A.toMatrix m q.size).transpose.mulVec (vec m s.solution.y))

instance (P : Csc K) (q : Array K) (A : Csc K) (m : ℕ) (s : Solver K) :
    Decidable (Unfaithful P q A m s) := inferInstanceAs (Decidable (_ ∧ _ ∧ _))

/-! ## A ramp -/

section FirstRun

variable {α : Type} [Scalar α] {P A : Csc α} {q l u : Array α} {settings : Settings α}

/-- A solver is set up and its first run passes a test. -/
def firstRun (P : Csc α) (q : Array α) (A : Csc α) (l u : Array α) (settings : Settings α)
    (order : EliminationOrder) (clock : Clock α) (test : Solver α → Stage α Unit → Bool) : Bool :=
  match setup P q A l u settings order with
  | .ok (.ok s₀) =>
    match s₀.run clock with
    | .ok stage => test s₀ stage
    | .error _ => false
  | _ => false

theorem exists_of_firstRun {clock : Clock α} {test : Solver α → Stage α Unit → Bool}
    (h : firstRun P q A l u settings order clock test = true) :
    ∃ s₀ stage, setup P q A l u settings order = .ok (.ok s₀) ∧ s₀.run clock = .ok stage ∧
      test s₀ stage = true := by
  rw [firstRun] at h
  split at h
  · rename_i s₀ hsetup
    split at h
    · rename_i stage hrun
      exact ⟨s₀, stage, hsetup, hrun, h⟩
    · cases h
  · cases h

end FirstRun

end Solver

/-- No time passes. -/
def Clock.still : Clock ℚ := ⟨0, fun _ => 0, 0⟩

namespace Ramp

/-- `¼·x² − 2·x` is minimised. -/
def P : Csc ℚ := ⟨1, 1, #[0, 1], #[0], #[1 / 2]⟩

def q : Array ℚ := #[-2]

def A : Csc ℚ := ⟨1, 1, #[0, 1], #[0], #[1]⟩

def l : Array ℚ := #[0]

def u : Array ℚ := #[1 / 2]

/-- Every other iteration is checked. -/
def settings (timeLimit : ℚ) : Settings ℚ := { Settings.default with
  rho := 1
  sigma := 1 / 2
  alpha := 1
  scaling := 0
  adaptiveRho := false
  checkTermination := 2
  timeLimit := timeLimit }

/-- An iteration takes one second. -/
def clock : Clock ℚ := ⟨0, fun k => k, 0⟩

end Ramp

namespace Solver

/-- The time is up after the second iteration, which is checked. -/
theorem faithful_of_run_ramp : ∃ s₀ stage,
    setup Ramp.P Ramp.q Ramp.A Ramp.l Ramp.u (Ramp.settings (3 / 2)) .natural = .ok (.ok s₀) ∧
      s₀.run Ramp.clock = .ok stage ∧ stage.solver.info.status = .timeLimit ∧
      Faithful Ramp.P Ramp.q Ramp.A 1 stage.solver := by
  have hfirst : firstRun Ramp.P Ramp.q Ramp.A Ramp.l Ramp.u (Ramp.settings (3 / 2)) .natural
      Ramp.clock (fun _ stage => decide (stage.result = .ok () ∧
        stage.solver.info.status = .timeLimit ∧
        anyDue stage.solver.settings stage.solver.info.iterations = true)) = true := by
    decide +kernel
  obtain ⟨s₀, stage, hsetup, hrun, htest⟩ := exists_of_firstRun hfirst
  obtain ⟨hok, htime, hdue⟩ := of_decide_eq_true htest
  have hsolution : stage.solver.info.status.hasSolution = true := by
    rw [htime]
    rfl
  have hnotLate : ¬Late stage.solver := by
    rintro ⟨-, hnot⟩
    rw [hdue] at hnot
    cases hnot
  exact ⟨s₀, stage, hsetup, hrun, htime,
    (faithful_of_run hsetup .refl hrun hok hsolution).2.2.1 hnotLate⟩

/-- Under legal settings the first run ends with a report whose objective and
residuals are not those of its point. -/
def Misreports (timeLimit : ℚ) : Prop := ∃ s₀ stage,
  setup Ramp.P Ramp.q Ramp.A Ramp.l Ramp.u (Ramp.settings timeLimit) .natural = .ok (.ok s₀) ∧
    s₀.settings.validate = .ok () ∧ s₀.run Ramp.clock = .ok stage ∧ stage.result = .ok () ∧
    stage.solver.info.status = .timeLimit ∧ Unfaithful Ramp.P Ramp.q Ramp.A 1 stage.solver

/-- **Late reports need not be faithful:** they are not after one iteration, when
nothing has been noted yet, nor after three, when the second was the last noted. -/
theorem unfaithful_ramp : Misreports (1 / 2) ∧ Misreports (5 / 2) := by
  have hall : ([1 / 2, 5 / 2] : List ℚ).all (fun timeLimit => firstRun Ramp.P Ramp.q Ramp.A
      Ramp.l Ramp.u (Ramp.settings timeLimit) .natural Ramp.clock fun s₀ stage =>
        decide (s₀.settings.validate = .ok () ∧ stage.result = .ok () ∧
          stage.solver.info.status = .timeLimit ∧
          Unfaithful Ramp.P Ramp.q Ramp.A 1 stage.solver)) = true := by
    decide +kernel
  have hmisreports : ∀ timeLimit ∈ ([1 / 2, 5 / 2] : List ℚ), Misreports timeLimit := by
    intro timeLimit hmem
    obtain ⟨s₀, stage, hsetup, hrun, htest⟩ :=
      exists_of_firstRun (List.all_eq_true.mp hall timeLimit hmem)
    obtain ⟨hset, hok, hwrong⟩ := of_decide_eq_true htest
    exact ⟨s₀, stage, hsetup, hset, hrun, hok, hwrong⟩
  exact ⟨hmisreports _ (by simp), hmisreports _ (by simp)⟩

end Solver

end SplitQP
