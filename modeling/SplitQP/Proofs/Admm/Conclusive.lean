import SplitQP.Proofs.Admm.Verdicts
/-!
# A run that does not break off is conclusive

The statuses a run can end with are those of its checks, that of the
iteration limit and that of the time limit (`conclusive_of_run`). Among
these, the ones that report a solution have the codes 1, 2, −2 and −6
(`hasSolution_iff_mem`).
-/

namespace SplitQP

open Checked

namespace SolverStatus

/-- **The run has come to something:** it is not open, was not interrupted, and the
program was not refused. -/
def IsConclusive (status : SolverStatus) : Prop :=
  status ≠ .unsolved ∧ status ≠ .interrupted ∧ status ≠ .nonConvex

instance (status : SolverStatus) : Decidable status.IsConclusive :=
  inferInstanceAs (Decidable (_ ∧ _))

/-- **The codes of a solution.** -/
theorem hasSolution_iff_mem {status : SolverStatus} (h : status.IsConclusive) :
    status.hasSolution = true ↔ status.code ∈ [1, 2, -2, -6] := by
  revert h
  cases status <;> decide

end SolverStatus

namespace Solver

variable {α : Type} [Scalar α] {s s' : Solver α} {clock : Clock α}

/-- A check that ends the run is conclusive. -/
theorem conclusive_of_checkTermination {approximate : Bool}
    (h : s.checkTermination approximate = .ok (some s')) : s'.info.status.IsConclusive := by
  obtain ⟨v, hv, h⟩ := bind_eq_ok.mp h
  cases v with
  | none => cases h
  | some status =>
    cases h
    have hstatus : status.IsConclusive ∧ status.inaccurate.IsConclusive := by
      rcases verdict_eq_some hv with ⟨rfl, -⟩ | ⟨rfl, -⟩ | ⟨rfl, -⟩
      · exact ⟨by decide, by decide⟩
      · exact ⟨by decide, by decide⟩
      · exact ⟨by decide, by decide⟩
    cases approximate with
    | true => exact hstatus.2
    | false => exact hstatus.1

/-- **An iteration at which the run stops is conclusive:** a check ended it, or the
time was up. -/
theorem conclusive_of_iteration {iter : ℕ} {stage : Stage α Bool}
    (h : s.iteration clock iter = .ok stage) (hstop : stage.result = .ok false) :
    stage.solver.info.status.IsConclusive := by
  rw [iteration] at h
  obtain ⟨s₁, -, h⟩ := bind_eq_ok.mp h
  obtain ⟨s₂, -, h⟩ := bind_eq_ok.mp h
  obtain ⟨checked, hchecked, h⟩ := bind_eq_ok.mp h
  cases checked with
  | some s₃ =>
    cases h
    rw [checkIfDue] at hchecked
    split at hchecked
    · exact conclusive_of_checkTermination hchecked
    · cases hchecked
  | none =>
    obtain ⟨stage', -, h⟩ := bind_eq_ok.mp h
    cases h
    rw [goOn] at hstop ⊢
    cases hresult : stage'.result with
    | error e =>
      rw [hresult] at hstop
      cases hstop
    | ok _ =>
      rw [hresult] at hstop
      dsimp only at hstop ⊢
      split at hstop
      · rw [if_pos ‹_›]
        exact (by decide : SolverStatus.timeLimit.IsConclusive)
      · cases hstop

theorem conclusive_of_lastCheck {stage : Stage α Unit} (h : s.lastCheck = .ok stage) :
    stage.solver.info.status.IsConclusive := by
  obtain ⟨s₁, -, h⟩ := bind_eq_ok.mp h
  obtain ⟨first, hfirst, h⟩ := bind_eq_ok.mp h
  cases first with
  | some s₂ =>
    cases h
    exact conclusive_of_checkTermination hfirst
  | none =>
    obtain ⟨second, hsecond, h⟩ := bind_eq_ok.mp h
    cases second with
    | some s₂ =>
      cases h
      exact conclusive_of_checkTermination hsecond
    | none =>
      cases h
      exact (by decide : SolverStatus.maxIterations.IsConclusive)

/-- **The iterations are conclusive** unless they break off. -/
theorem conclusive_of_iterations {count iter : ℕ} {told : List (Event α)} {stage : Stage α Unit}
    (h : iterations clock count iter told s = .ok stage) (hok : stage.result = .ok ()) :
    stage.solver.info.status.IsConclusive := by
  induction count generalizing iter told s with
  | zero =>
    obtain ⟨last, hlast, h⟩ := bind_eq_ok.mp h
    cases h
    have hlastStatus := conclusive_of_lastCheck hlast
    exact hlastStatus
  | succ count ih =>
    obtain ⟨mid, hmid, h⟩ := bind_eq_ok.mp h
    cases hresult : mid.result with
    | error e =>
      rw [hresult] at h
      cases h
      cases hok
    | ok goes =>
      rw [hresult] at h
      cases goes with
      | false =>
        cases h
        exact conclusive_of_iteration hmid hresult
      | true => exact ih h

/-- **A run that does not break off is conclusive.** -/
theorem conclusive_of_run {stage : Stage α Unit} (h : s.run clock = .ok stage)
    (hok : stage.result = .ok ()) : stage.solver.solution.status.IsConclusive := by
  rw [(shown_of_run h).1]
  obtain ⟨found, hfound, h⟩ := bind_eq_ok.mp h
  obtain ⟨⟨s₂, polishing⟩, hpolish, h⟩ := bind_eq_ok.mp h
  obtain ⟨s₃, hconclude, h⟩ := bind_eq_ok.mp h
  obtain ⟨sol, -, rfl⟩ := conclude_eq_ok hconclude
  cases h
  have hstatus : s₂.info.status = found.solver.info.status := status_of_polishIfWanted hpolish
  change s₂.info.status.IsConclusive
  rw [hstatus]
  rw [search] at hfound
  split at hfound
  · cases hfound
    exact (by decide : SolverStatus.primalInfeasible.IsConclusive)
  · exact conclusive_of_iterations hfound hok

end Solver

end SplitQP
