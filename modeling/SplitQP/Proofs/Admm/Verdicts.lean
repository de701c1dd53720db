import SplitQP.Proofs.Admm.Moves
/-!
# What a run has seen

A status is noted at the end of a run only: until then the run is open
(`shown_of_iteration`). So where a run ends with the program found
infeasible, the test of it passed on the last iterate, with the tolerance
of the status (`shown_of_run`) — unless the bounds given contradict each
other; then no test is made.
-/

namespace SplitQP

open Checked

namespace SolverStatus

/-- The program was found to be solved. -/
def IsSolved (status : SolverStatus) : Prop := status = .solved ∨ status = .solvedInaccurate

/-- The constraints were found to contradict each other. -/
def IsPrimalInfeasible (status : SolverStatus) : Prop :=
  status = .primalInfeasible ∨ status = .primalInfeasibleInaccurate

/-- The objective was found to be unbounded below. -/
def IsDualInfeasible (status : SolverStatus) : Prop :=
  status = .dualInfeasible ∨ status = .dualInfeasibleInaccurate

instance (status : SolverStatus) : Decidable status.IsPrimalInfeasible :=
  inferInstanceAs (Decidable (_ ∨ _))

instance (status : SolverStatus) : Decidable status.IsDualInfeasible :=
  inferInstanceAs (Decidable (_ ∨ _))

/-- No status says both. -/
theorem IsPrimalInfeasible.not_dual {status : SolverStatus} (h : status.IsPrimalInfeasible) :
    ¬ status.IsDualInfeasible := by
  rcases h with rfl | rfl
  · decide
  · decide

/-- How many times the tolerance asked for a status was found with. -/
def leniency {α : Type} [Scalar α] : SolverStatus → α
  | solvedInaccurate | primalInfeasibleInaccurate | dualInfeasibleInaccurate => 10.0
  | _ => 1

end SolverStatus

namespace Solver

variable {α : Type} [Scalar α]

/-- **The status is shown by the iterate:** the test of it passes. -/
structure Shown (s : Solver α) : Prop where
  primal : s.info.status.IsPrimalInfeasible → Infeasibility.isPrimal s.problem s.equilibration
    s.iterate.deltaY (s.settings.epsPrimInf * s.info.status.leniency) = .ok true
  dual : s.info.status.IsDualInfeasible → Infeasibility.isDual s.problem s.equilibration
    s.iterate.deltaX (s.settings.epsDualInf * s.info.status.leniency) = .ok true

variable {s s' : Solver α} {clock : Clock α}

/-- Other statuses need not be shown. -/
theorem shown_of_status {status : SolverStatus} (hs : s.info.status = status)
    (h : status.isInfeasible = false) : Shown s := by
  subst hs
  refine ⟨fun hprimal => ?_, fun hdual => ?_⟩
  · rcases hprimal with hstatus | hstatus <;> rw [hstatus] at h <;> cases h
  · rcases hdual with hstatus | hstatus <;> rw [hstatus] at h <;> cases h

/-- The test that passed shows the status: it does not say the other thing as well. -/
theorem shown_of_isPrimal (hstatus : s.info.status.IsPrimalInfeasible)
    (htest : Infeasibility.isPrimal s.problem s.equilibration s.iterate.deltaY
      (s.settings.epsPrimInf * s.info.status.leniency) = .ok true) : Shown s :=
  ⟨fun _ => htest, fun hdual => absurd hdual hstatus.not_dual⟩

theorem shown_of_isDual (hstatus : s.info.status.IsDualInfeasible)
    (htest : Infeasibility.isDual s.problem s.equilibration s.iterate.deltaX
      (s.settings.epsDualInf * s.info.status.leniency) = .ok true) : Shown s :=
  ⟨fun hprimal => absurd hstatus hprimal.not_dual, fun _ => htest⟩

/-! ## One iteration -/

/-- **What a check notes is shown.** -/
theorem shown_of_checkTermination {approximate : Bool}
    (h : s.checkTermination approximate = .ok (some s')) : Shown s' := by
  obtain ⟨v, hv, h⟩ := bind_eq_ok.mp h
  cases v with
  | none => cases h
  | some status =>
    cases h
    -- the tolerance of the check is the one its statuses stand for
    cases approximate with
    | true =>
      rcases verdict_eq_some hv with ⟨rfl, -⟩ | ⟨rfl, htest⟩ | ⟨rfl, htest⟩
      · exact shown_of_status rfl rfl
      · exact shown_of_isPrimal (.inr rfl) htest
      · exact shown_of_isDual (.inr rfl) htest
    | false =>
      rcases verdict_eq_some hv with ⟨rfl, -⟩ | ⟨rfl, htest⟩ | ⟨rfl, htest⟩
      · exact shown_of_status rfl rfl
      · exact shown_of_isPrimal (.inl rfl) htest
      · exact shown_of_isDual (.inl rfl) htest

/-- **A check that finds the program solved** has seen both residuals pass. -/
theorem passes_of_isSolved {approximate : Bool} (h : s.checkTermination approximate = .ok (some s'))
    (hsolved : s'.info.status.IsSolved) : s.PrimalPasses (if approximate then 10.0 else 1) ∧
      s.DualPasses (if approximate then 10.0 else 1) := by
  obtain ⟨v, hv, h⟩ := bind_eq_ok.mp h
  cases v with
  | none => cases h
  | some status =>
    cases h
    rcases verdict_eq_some hv with ⟨rfl, hpasses⟩ | ⟨rfl, -⟩ | ⟨rfl, -⟩
    · exact hpasses
    · rcases hsolved with hsolved | hsolved <;> cases approximate <;> cases hsolved
    · rcases hsolved with hsolved | hsolved <;> cases approximate <;> cases hsolved

/-- Adapting the step size leaves the status alone, also where it fails. -/
theorem status_of_adaptIfDue {due : Bool} {stage : Stage α Unit}
    (h : s.adaptIfDue due = .ok stage) : stage.solver.info.status = s.info.status := by
  cases due with
  | false =>
    cases h
    rfl
  | true =>
    have hadapt : s.adaptRho = .ok stage := h
    rw [adaptRho] at hadapt
    dsimp only at hadapt
    split at hadapt
    · obtain ⟨⟨kkt, outcome⟩, -, hadapt⟩ := bind_eq_ok.mp hadapt
      cases outcome <;> cases hadapt <;> rfl
    · cases hadapt
      rfl

/-- A run that goes on is open; one that stops has run out of time. -/
theorem shown_of_goOn {iter : ℕ} {told : List (Event α)} {stage : Stage α Unit}
    (hopen : stage.solver.info.status = .unsolved) : Shown (goOn clock iter told stage).solver ∧
      ((goOn clock iter told stage).result = .ok true →
        (goOn clock iter told stage).solver.info.status = .unsolved) := by
  rw [goOn]
  split
  · exact ⟨shown_of_status hopen rfl, fun _ => hopen⟩
  · dsimp only
    split
    · exact ⟨shown_of_status rfl rfl, fun hgoes => by cases hgoes⟩
    · exact ⟨shown_of_status hopen rfl, fun _ => hopen⟩

/-- **An iteration leaves the run open,** or ends it with a status that is shown. -/
theorem shown_of_iteration {iter : ℕ} {stage : Stage α Bool} (hopen : s.info.status = .unsolved)
    (h : s.iteration clock iter = .ok stage) : Shown stage.solver ∧
      (stage.result = .ok true → stage.solver.info.status = .unsolved) := by
  rw [iteration] at h
  obtain ⟨s₁, hadv, h⟩ := bind_eq_ok.mp h
  obtain ⟨v, rfl⟩ := advance_eq_ok hadv
  obtain ⟨s₂, hrefresh, h⟩ := bind_eq_ok.mp h
  have hopen₂ : s₂.info.status = .unsolved := by
    rcases refresh_eq_ok hrefresh with ⟨-, hupdate⟩ | ⟨-, rfl⟩
    · obtain ⟨r, -, rfl⟩ := updateResiduals_eq_ok hupdate
      exact hopen
    · exact hopen
  obtain ⟨checked, hchecked, h⟩ := bind_eq_ok.mp h
  cases checked with
  | some s₃ =>
    cases h
    rw [checkIfDue] at hchecked
    split at hchecked
    · exact ⟨shown_of_checkTermination hchecked, fun hgoes => by cases hgoes⟩
    · cases hchecked
  | none =>
    obtain ⟨stage', hadapt, h⟩ := bind_eq_ok.mp h
    cases h
    exact shown_of_goOn ((status_of_adaptIfDue hadapt).trans hopen₂)

/-- The last check ends a run with a status that is shown. -/
theorem shown_of_lastCheck {stage : Stage α Unit} (h : s.lastCheck = .ok stage) :
    Shown stage.solver := by
  obtain ⟨s₁, -, h⟩ := bind_eq_ok.mp h
  obtain ⟨first, hfirst, h⟩ := bind_eq_ok.mp h
  cases first with
  | some s₂ =>
    cases h
    exact shown_of_checkTermination hfirst
  | none =>
    obtain ⟨second, hsecond, h⟩ := bind_eq_ok.mp h
    cases second with
    | some s₂ =>
      cases h
      exact shown_of_checkTermination hsecond
    | none =>
      cases h
      exact shown_of_status rfl rfl

/-! ## A run -/

/-- **The iterations end with a status that is shown,** also where they break off. -/
theorem shown_of_iterations {count iter : ℕ} {told : List (Event α)} {stage : Stage α Unit}
    (hopen : s.info.status = .unsolved) (h : iterations clock count iter told s = .ok stage) :
    Shown stage.solver := by
  -- until it stops the run is open, which is the invariant
  induction count generalizing iter told s with
  | zero =>
    obtain ⟨last, hlast, h⟩ := bind_eq_ok.mp h
    cases h
    have hshown := shown_of_lastCheck hlast
    exact ⟨hshown.primal, hshown.dual⟩
  | succ count ih =>
    obtain ⟨mid, hmid, h⟩ := bind_eq_ok.mp h
    obtain ⟨hshown, hgoes⟩ := shown_of_iteration hopen hmid
    cases hresult : mid.result with
    | error e =>
      rw [hresult] at h
      cases h
      exact hshown
    | ok goes =>
      rw [hresult] at h
      cases goes with
      | false =>
        cases h
        exact hshown
      | true => exact ih (hgoes hresult) h

/-- Polishing leaves the status alone. -/
theorem status_of_polishIfWanted {stage : Stage α Unit} {events : List (Event α)}
    (h : polishIfWanted stage = .ok (s, events)) :
    s.info.status = stage.solver.info.status := by
  rw [polishIfWanted] at h
  split at h
  · rcases polish_eq_ok h with ⟨-, -, -, -, -, hstatus⟩ | ⟨r, rfl⟩
    · exact hstatus
    · rfl
  · cases h
    rfl

/-- Polishing changes nothing that is shown: only a solution is polished. -/
theorem shown_of_polishIfWanted {stage : Stage α Unit} {events : List (Event α)}
    (hs : Shown stage.solver) (h : polishIfWanted stage = .ok (s, events)) : Shown s := by
  have hstatus := status_of_polishIfWanted h
  rw [polishIfWanted] at h
  split at h
  · rename_i hwants
    simp only [wantsPolish, Bool.and_eq_true, decide_eq_true_eq] at hwants
    exact shown_of_status (hstatus.trans hwants.2) rfl
  · cases h
    exact hs

/-- The status reported is the one noted. -/
theorem status_of_ofIterate {n m : ℕ} {v : Iterate α} {eq : Equilibration α} {info : Info α}
    {sol : Solution α} (h : Solution.ofIterate n m v eq info = .ok sol) :
    sol.status = info.status := by
  rw [Solution.ofIterate] at h
  dsimp only at h
  split at h
  · obtain ⟨_, -, h⟩ := bind_eq_ok.mp h
    obtain ⟨_, -, h⟩ := bind_eq_ok.mp h
    obtain ⟨_, -, h⟩ := bind_eq_ok.mp h
    obtain ⟨_, -, h⟩ := bind_eq_ok.mp h
    cases h
    rfl
  · split at h
    · obtain ⟨_, -, h⟩ := bind_eq_ok.mp h
      cases h
      rfl
    · obtain ⟨_, -, h⟩ := bind_eq_ok.mp h
      cases h
      rfl
    · obtain ⟨_, -, h⟩ := bind_eq_ok.mp h
      cases h
      rfl
    · obtain ⟨_, -, h⟩ := bind_eq_ok.mp h
      cases h
      rfl
    · cases h
      rfl

/-- **A run ends with a status that is shown,** unless the bounds contradict each
other, when no test is made; and that status is reported. -/
theorem shown_of_run {stage : Stage α Unit} (h : s.run clock = .ok stage) :
    stage.solver.solution.status = stage.solver.info.status ∧
      (Shown stage.solver ∨ stage.solver.problem.crossedBounds = true ∧
        stage.solver.info.status = .primalInfeasible) := by
  have hran := ran_of_run h
  refine ⟨?_, ?_⟩
  · obtain ⟨sol, hsol, hkept⟩ := hran.solution
    rw [hkept, ← status_of_ofIterate hsol]
    split <;> rfl
  · rw [(problem_of_moves hran.moves).1]
    rw [run] at h
    obtain ⟨found, hfound, h⟩ := bind_eq_ok.mp h
    obtain ⟨⟨s₂, polishing⟩, hpolish, h⟩ := bind_eq_ok.mp h
    obtain ⟨s₃, hconclude, h⟩ := bind_eq_ok.mp h
    obtain ⟨sol, -, rfl⟩ := conclude_eq_ok hconclude
    cases h
    rw [search] at hfound
    split at hfound
    · rename_i hcrossed
      cases hfound
      exact .inr ⟨hcrossed, status_of_polishIfWanted hpolish⟩
    · obtain ⟨hprimal, hdual⟩ :=
        shown_of_polishIfWanted (shown_of_iterations rfl hfound) hpolish
      exact .inl ⟨hprimal, hdual⟩

end Solver

end SplitQP
