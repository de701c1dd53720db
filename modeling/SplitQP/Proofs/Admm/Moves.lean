import Mathlib.Logic.Relation
import SplitQP.Proofs.Answers
import SplitQP.Admm.Solver
/-!
# What a run does

A run is a chain of steps — iterations, changes of the step size, notes —
and at most one polishing (`ran_of_run`). Whatever the arithmetic, a run
that does not break off ends with a report on its own iterate (`Fresh`),
except where the time was up after an iteration at which nothing was due
(`Late`); then the report is that of an earlier iterate (`Stale`), and was
carried along by the iterations since.
-/

namespace SplitQP

open Checked

namespace Solver

variable {α : Type} [Scalar α]

/-! ## Steps and moves -/

/-- **What a run does to a solver,** apart from polishing. -/
inductive Step : Solver α → Solver α → Prop
  /-- An iteration. -/
  | advanced {s s' : Solver α} {iter : ℕ} : s.advance iter = .ok s' → Step s s'
  /-- Step sizes for another base, and the factors for them. -/
  | rescaled {s : Solver α} {rho : α} {kkt : KktSystem α} {outcome : Except LdlError Unit} :
      s.kkt.updateRhoInv (StepSizes.ofBase rho s.rows).rhoInv = .ok (kkt, outcome) →
      Step s { s with steps := StepSizes.ofBase rho s.rows, kkt := kkt }
  /-- Notes, and a choice of settings. -/
  | noted (s : Solver α) (r : Residuals α) (info : Info α) (sol : Solution α)
      (set : Settings α) :
      Step s { s with residuals := r, info := info, solution := sol, settings := set }

/-- Any number of steps. -/
abbrev Steps : Solver α → Solver α → Prop := Relation.ReflTransGen Step

/-- **What becomes of a solver** in the course of its runs and between them. -/
inductive Move : Solver α → Solver α → Prop
  | step {s s' : Solver α} : Step s s' → Move s s'
  | polished {s s' : Solver α} {events : List (Event α)} :
      s.polish = .ok (s', events) → Move s s'

/-- Any number of moves. -/
abbrev Moves : Solver α → Solver α → Prop := Relation.ReflTransGen Move

theorem Steps.moves {s s' : Solver α} (h : Steps s s') : Moves s s' :=
  h.lift id fun _ _ => .step

/-- Notes about the same iterate. -/
theorem steps_noted (s : Solver α) (r : Residuals α) (info : Info α) (sol : Solution α) :
    Steps s { s with residuals := r, info := info, solution := sol } :=
  .single (.noted s r info sol s.settings)

/-! ## Reports -/

/-- **The report is on the iterate:** objective and residuals are those of
`(x, z, y)`. -/
def Fresh (s : Solver α) : Prop :=
  ∃ r, Residuals.atPoint s.problem s.equilibration s.iterate.x s.iterate.z s.iterate.y = .ok r ∧
    s.info.objective = r.objective ∧ s.info.primRes = r.primRes ∧ s.info.dualRes = r.dualRes

/-- Nothing has been reported yet. -/
def Unread (s : Solver α) : Prop :=
  s.info.objective = Scalar.nan ∧ s.info.primRes = Scalar.infinity ∧
    s.info.dualRes = Scalar.infinity

/-- Iterations and nothing else. -/
abbrev Advances : Solver α → Solver α → Prop :=
  Relation.ReflTransGen fun s s' => ∃ iter, s.advance iter = .ok s'

/-- The report is that of an earlier iterate, if there is any. -/
def Carried (s : Solver α) : Prop := ∃ t, (Fresh t ∨ Unread t) ∧ Advances t s

/-- **The report is that of an earlier iterate,** carried along by at least one
iteration since. -/
def Stale (s : Solver α) : Prop :=
  ∃ t t' iter s₁, (Fresh t ∨ Unread t) ∧ Advances t t' ∧ t'.advance iter = .ok s₁ ∧
    s.iterate = s₁.iterate ∧ s.info.objective = t.info.objective ∧
    s.info.primRes = t.info.primRes ∧ s.info.dualRes = t.info.dualRes

/-- A check or an adaptation of the step size is due after iteration `iter`. -/
def anyDue (set : Settings α) (iter : ℕ) : Bool :=
  isDue set.checkTermination iter || isDue (adaptInterval set) iter

/-- **The time was up** after an iteration at which nothing was due. -/
def Late (s : Solver α) : Prop :=
  s.info.status = .timeLimit ∧ anyDue s.settings s.info.iterations = false

/-- **`s'` keeps the iterate of `s`** and the report on it. -/
structure Keeps (s s' : Solver α) : Prop where
  steps : Steps s s'
  problem_eq : s'.problem = s.problem
  equilibration_eq : s'.equilibration = s.equilibration
  iterate_eq : s'.iterate = s.iterate
  settings_eq : s'.settings = s.settings
  objective_eq : s'.info.objective = s.info.objective
  primRes_eq : s'.info.primRes = s.info.primRes
  dualRes_eq : s'.info.dualRes = s.info.dualRes
  iterations_eq : s'.info.iterations = s.info.iterations

theorem Keeps.fresh {s s' : Solver α} (h : Keeps s s') (hs : Fresh s) : Fresh s' := by
  obtain ⟨r, hr, h1, h2, h3⟩ := hs
  refine ⟨r, ?_, h.objective_eq.trans h1, h.primRes_eq.trans h2, h.dualRes_eq.trans h3⟩
  rw [h.problem_eq, h.equilibration_eq, h.iterate_eq]
  exact hr

theorem Keeps.trans {s s' s'' : Solver α} (h : Keeps s s') (h' : Keeps s' s'') : Keeps s s'' where
  steps := h.steps.trans h'.steps
  problem_eq := h'.problem_eq.trans h.problem_eq
  equilibration_eq := h'.equilibration_eq.trans h.equilibration_eq
  iterate_eq := h'.iterate_eq.trans h.iterate_eq
  settings_eq := h'.settings_eq.trans h.settings_eq
  objective_eq := h'.objective_eq.trans h.objective_eq
  primRes_eq := h'.primRes_eq.trans h.primRes_eq
  dualRes_eq := h'.dualRes_eq.trans h.dualRes_eq
  iterations_eq := h'.iterations_eq.trans h.iterations_eq

/-- Another status, and other counts of the step sizes. -/
theorem keeps_info (s : Solver α) (status : SolverStatus) (rhoEstimate : α) (rhoUpdates : ℕ) :
    Keeps s { s with info := { s.info with
      status := status, rhoEstimate := rhoEstimate, rhoUpdates := rhoUpdates } } :=
  ⟨steps_noted s s.residuals _ s.solution, rfl, rfl, rfl, rfl, rfl, rfl, rfl, rfl⟩

/-! ## Stages of a run -/

section Stages

variable {s s' : Solver α}

theorem updateResiduals_eq_ok (h : s.updateResiduals = .ok s') :
    ∃ r, Residuals.atPoint s.problem s.equilibration s.iterate.x s.iterate.z s.iterate.y = .ok r ∧
      s' = { s with residuals := r, info := s.info.update r } := by
  obtain ⟨r, hr, h⟩ := bind_eq_ok.mp h
  cases h
  exact ⟨r, hr, rfl⟩

theorem fresh_of_updateResiduals (h : s.updateResiduals = .ok s') : Fresh s' := by
  obtain ⟨r, hr, rfl⟩ := updateResiduals_eq_ok h
  exact ⟨r, hr, rfl, rfl, rfl⟩

/-- **The primal residual passes:** there are no constraints, or it is below its
tolerance. -/
def PrimalPasses (s : Solver α) (scale : α) : Prop :=
  s.problem.m = 0 ∨ Scalar.lt s.residuals.primRes (s.residuals.tolerances
    (s.settings.epsAbs * scale) (s.settings.epsRel * scale)).1 = true

/-- **The dual residual passes.** -/
def DualPasses (s : Solver α) (scale : α) : Prop :=
  Scalar.lt s.residuals.dualRes (s.residuals.tolerances
    (s.settings.epsAbs * scale) (s.settings.epsRel * scale)).2 = true

/-- What the first branch of a verdict asks. -/
theorem passes_iff {scale : α} :
    ((s.problem.m == 0 || Scalar.lt s.residuals.primRes (s.residuals.tolerances
        (s.settings.epsAbs * scale) (s.settings.epsRel * scale)).1) &&
      Scalar.lt s.residuals.dualRes (s.residuals.tolerances
        (s.settings.epsAbs * scale) (s.settings.epsRel * scale)).2) = true ↔
    s.PrimalPasses scale ∧ s.DualPasses scale := by
  rw [PrimalPasses, DualPasses, Bool.and_eq_true, Bool.or_eq_true, beq_iff_eq]

/-- **What a verdict rests on:** both residuals passed, or one of the tests of infeasibility
did. -/
theorem verdict_eq_some {scale : α} {status : SolverStatus}
    (h : s.verdict scale = .ok (some status)) :
    status = .solved ∧ s.PrimalPasses scale ∧ s.DualPasses scale ∨
      status = .primalInfeasible ∧ Infeasibility.isPrimal s.problem s.equilibration
        s.iterate.deltaY (s.settings.epsPrimInf * scale) = .ok true ∨
      status = .dualInfeasible ∧ Infeasibility.isDual s.problem s.equilibration
        s.iterate.deltaX (s.settings.epsDualInf * scale) = .ok true := by
  have hlast : ∀ dualOk : Bool, (do
      if !dualOk then
        if ← Infeasibility.isDual s.problem s.equilibration s.iterate.deltaX
            (s.settings.epsDualInf * scale) then
          return some .dualInfeasible
      return none : Checked (Option SolverStatus)) = .ok (some status) →
        status = .dualInfeasible ∧ Infeasibility.isDual s.problem s.equilibration
          s.iterate.deltaX (s.settings.epsDualInf * scale) = .ok true := by
    intro dualOk hdual
    cases dualOk with
    | true => cases hdual
    | false =>
      obtain ⟨found, hfound, hdual⟩ := bind_eq_ok.mp hdual
      cases found with
      | true =>
        cases hdual
        exact ⟨rfl, hfound⟩
      | false => cases hdual
  rw [verdict] at h
  dsimp only at h
  split at h
  · cases h
    exact .inl ⟨rfl, passes_iff.mp ‹_›⟩
  split at h
  · obtain ⟨found, hfound, h⟩ := bind_eq_ok.mp h
    cases found with
    | true =>
      cases h
      exact .inr (.inl ⟨rfl, hfound⟩)
    | false => exact .inr (.inr (hlast _ h))
  · exact .inr (.inr (hlast _ h))

/-- A check does not report that the time is up. -/
theorem status_ne_of_verdict {scale : α} {status : SolverStatus}
    (h : s.verdict scale = .ok (some status)) :
    status ≠ .timeLimit ∧ status.inaccurate ≠ .timeLimit := by
  rcases verdict_eq_some h with ⟨rfl, -⟩ | ⟨rfl, -⟩ | ⟨rfl, -⟩
  · exact ⟨by decide, by decide⟩
  · exact ⟨by decide, by decide⟩
  · exact ⟨by decide, by decide⟩

theorem status_ne_of_checkTermination {approximate : Bool}
    (h : s.checkTermination approximate = .ok (some s')) : s'.info.status ≠ .timeLimit := by
  obtain ⟨v, hv, h⟩ := bind_eq_ok.mp h
  cases v with
  | none => cases h
  | some status =>
    cases h
    obtain ⟨hexact, hinaccurate⟩ := status_ne_of_verdict hv
    cases approximate with
    | true => exact hinaccurate
    | false => exact hexact

theorem keeps_of_checkTermination {approximate : Bool}
    (h : s.checkTermination approximate = .ok (some s')) : Keeps s s' := by
  obtain ⟨v, -, h⟩ := bind_eq_ok.mp h
  cases v with
  | none => cases h
  | some status =>
    cases h
    exact keeps_info s _ _ _

/-- Adapting the step size leaves the iterate alone, also where it fails. -/
theorem keeps_of_adaptRho {stage : Stage α Unit} (h : s.adaptRho = .ok stage) :
    Keeps s stage.solver := by
  rw [adaptRho] at h
  dsimp only at h
  split at h
  · obtain ⟨⟨kkt, outcome⟩, hkkt, h⟩ := bind_eq_ok.mp h
    dsimp only at hkkt h
    have hstep := keeps_info s s.info.status (s.residuals.rhoEstimate s.steps.base)
      s.info.rhoUpdates
    have hrescaled : Keeps s { s with
        info := { s.info with rhoEstimate := s.residuals.rhoEstimate s.steps.base }
        steps := StepSizes.ofBase (s.residuals.rhoEstimate s.steps.base) s.rows
        kkt := kkt } :=
      ⟨hstep.steps.tail (.rescaled hkkt), rfl, rfl, rfl, rfl, rfl, rfl, rfl, rfl⟩
    cases outcome with
    | error e =>
      cases h
      exact hrescaled
    | ok =>
      cases h
      exact hrescaled.trans (keeps_info _ _ _ _)
  · cases h
    exact keeps_info s _ _ _

/-- **What an iteration does:** it advances, and is then reported on where
anything is due. Where nothing is, the run may stop for the time. -/
structure Iterated (s : Solver α) (iter : ℕ) (stage : Stage α Bool) : Prop where
  steps : ∃ s₁, s.advance iter = .ok s₁ ∧ Steps s₁ stage.solver
  settings_eq : stage.solver.settings = s.settings
  iterations_eq : stage.solver.info.iterations = iter
  fresh : anyDue s.settings iter = true → Fresh stage.solver
  carried : anyDue s.settings iter = false → ∃ s₁, s.advance iter = .ok s₁ ∧
    (stage.result = .ok true ∧ stage.solver = s₁ ∨ stage.result = .ok false ∧
      stage.solver = { s₁ with info := { s₁.info with status := .timeLimit } })

/-- Advancing changes the iterate, and the count of iterations. -/
theorem advance_eq_ok {iter : ℕ} (h : s.advance iter = .ok s') :
    ∃ v, s' = { s with iterate := v, info := { s.info with iterations := iter } } := by
  obtain ⟨v, -, h⟩ := bind_eq_ok.mp h
  cases h
  exact ⟨v, rfl⟩

/-- Advancing carries the report along. -/
theorem report_of_advances (h : Advances s s') : s'.info.objective = s.info.objective ∧
    s'.info.primRes = s.info.primRes ∧ s'.info.dualRes = s.info.dualRes := by
  induction h with
  | refl => exact ⟨rfl, rfl, rfl⟩
  | tail _ hadv ih =>
    obtain ⟨iter, hadv⟩ := hadv
    obtain ⟨v, rfl⟩ := advance_eq_ok hadv
    exact ih

theorem stale_of_advance {iter : ℕ} {status : SolverStatus} (hs : Carried s)
    (hadv : s.advance iter = .ok s') :
    Stale { s' with info := { s'.info with status := status } } := by
  obtain ⟨t, ht, hts⟩ := hs
  obtain ⟨hobj, hprim, hdual⟩ := report_of_advances (hts.tail ⟨iter, hadv⟩)
  exact ⟨t, s, iter, s', ht, hts, hadv, rfl, hobj, hprim, hdual⟩

theorem keeps_of_goOn {clock : Clock α} {iter : ℕ} {told : List (Event α)} {stage : Stage α Unit} :
    Keeps stage.solver (goOn clock iter told stage).solver := by
  rw [goOn]
  split
  · exact keeps_info stage.solver _ _ _
  · dsimp only
    split
    · exact keeps_info stage.solver _ _ _
    · exact keeps_info stage.solver _ _ _

/-- Residuals are noted where they are needed; otherwise nothing happens. -/
theorem refresh_eq_ok {needed : Bool} (h : s.refresh needed = .ok s') :
    (needed = true ∧ s.updateResiduals = .ok s') ∨ (needed = false ∧ s' = s) := by
  cases needed with
  | true => exact .inl ⟨rfl, h⟩
  | false =>
    cases h
    exact .inr ⟨rfl, rfl⟩

/-- What is left of an iteration once residuals are noted. -/
theorem keeps_of_checkIfDue {due : Bool} (h : s.checkIfDue due = .ok (some s')) : Keeps s s' := by
  cases due with
  | true => exact keeps_of_checkTermination h
  | false => cases h

theorem keeps_of_adaptIfDue {due : Bool} {stage : Stage α Unit}
    (h : s.adaptIfDue due = .ok stage) : Keeps s stage.solver := by
  cases due with
  | true => exact keeps_of_adaptRho h
  | false =>
    cases h
    exact keeps_info s _ _ _

/-- **Every iteration is of this kind.** -/
theorem iterated_of_iteration {clock : Clock α} {iter : ℕ} {stage : Stage α Bool}
    (h : s.iteration clock iter = .ok stage) : Iterated s iter stage := by
  rw [iteration] at h
  obtain ⟨s₁, hadv, h⟩ := bind_eq_ok.mp h
  obtain ⟨v, hs₁⟩ := advance_eq_ok hadv
  have hset : s₁.settings = s.settings := by rw [hs₁]
  have hiter : s₁.info.iterations = iter := by rw [hs₁]
  rw [hset] at h
  obtain ⟨s₂, hrefresh, h⟩ := bind_eq_ok.mp h
  obtain ⟨checked, hchecked, h⟩ := bind_eq_ok.mp h
  have hkeeps : Keeps s₂ stage.solver := by
    cases checked with
    | some s₃ =>
      cases h
      exact keeps_of_checkIfDue hchecked
    | none =>
      obtain ⟨stage', hadapt, h⟩ := bind_eq_ok.mp h
      cases h
      exact (keeps_of_adaptIfDue hadapt).trans keeps_of_goOn
  rcases refresh_eq_ok hrefresh with ⟨hdue, hupdate⟩ | ⟨hdue, rfl⟩
  · have hfresh := hkeeps.fresh (fresh_of_updateResiduals hupdate)
    obtain ⟨r, -, rfl⟩ := updateResiduals_eq_ok hupdate
    exact {
      steps := ⟨s₁, hadv, (steps_noted s₁ r _ s₁.solution).trans hkeeps.steps⟩
      settings_eq := hkeeps.settings_eq.trans hset
      iterations_eq := hkeeps.iterations_eq.trans hiter
      fresh := fun _ => hfresh
      carried := fun hnot => absurd (hdue.symm.trans hnot) (by simp) }
  · refine ⟨⟨s₂, hadv, hkeeps.steps⟩, hkeeps.settings_eq.trans hset,
      hkeeps.iterations_eq.trans hiter,
      fun hnot => absurd (hdue.symm.trans hnot) (by simp), fun _ => ⟨s₂, hadv, ?_⟩⟩
    -- nothing was due: neither a check nor an adaptation took place
    rw [Bool.or_eq_false_iff] at hdue
    rw [hdue.1] at hchecked
    cases hchecked
    rw [hdue.2] at h
    cases h
    rw [goOn]
    dsimp only
    split
    · exact .inr ⟨rfl, rfl⟩
    · exact .inl ⟨rfl, rfl⟩

/-- The last check ends the run with a report on the iterate. -/
theorem lastCheck_eq_ok {stage : Stage α Unit} (h : s.lastCheck = .ok stage) :
    ∃ s₁, s.updateResiduals = .ok s₁ ∧ Keeps s₁ stage.solver ∧
      stage.solver.info.status ≠ .timeLimit := by
  obtain ⟨s₁, hs₁, h⟩ := bind_eq_ok.mp h
  refine ⟨s₁, hs₁, ?_⟩
  obtain ⟨first, hfirst, h⟩ := bind_eq_ok.mp h
  cases first with
  | some s₂ =>
    cases h
    exact ⟨keeps_of_checkTermination hfirst, status_ne_of_checkTermination hfirst⟩
  | none =>
    obtain ⟨second, hsecond, h⟩ := bind_eq_ok.mp h
    cases second with
    | some s₂ =>
      cases h
      exact ⟨keeps_of_checkTermination hsecond, status_ne_of_checkTermination hsecond⟩
    | none =>
      cases h
      exact ⟨keeps_info s₁ _ _ _, fun htime => by cases htime⟩

end Stages

/-! ## The search -/

/-- **What the iterations do,** as many as `count`. -/
structure Searched (count : ℕ) (s : Solver α) (stage : Stage α Unit) : Prop where
  steps : Steps s stage.solver
  settings_eq : stage.solver.settings = s.settings
  advanced : 0 < count → ∃ s₁ s₂ iter, Steps s s₁ ∧ s₁.advance iter = .ok s₂ ∧
    Steps s₂ stage.solver
  report : stage.result = .ok () → (¬Late stage.solver → Fresh stage.solver) ∧
    (Late stage.solver → Stale stage.solver)

/-- A run that stops after an iteration reports on its iterate, unless the time
was up when nothing was due. -/
theorem Iterated.report {s : Solver α} {iter : ℕ} {stage : Stage α Bool}
    (h : Iterated s iter stage) (hs : Carried s) (hstop : stage.result = .ok false) :
    (¬Late stage.solver → Fresh stage.solver) ∧ (Late stage.solver → Stale stage.solver) := by
  have hsame : anyDue stage.solver.settings stage.solver.info.iterations =
      anyDue s.settings iter := by rw [h.settings_eq, h.iterations_eq]
  cases hdue : anyDue s.settings iter with
  | true =>
    refine ⟨fun _ => h.fresh hdue, fun hlate => ?_⟩
    exact absurd (hlate.2.symm.trans (hsame.trans hdue)) (by simp)
  | false =>
    obtain ⟨s₁, hadv, ⟨hgoes, -⟩ | ⟨-, hstage⟩⟩ := h.carried hdue
    · rw [hstop] at hgoes
      cases hgoes
    · have hlate : Late stage.solver := ⟨by rw [hstage], hsame.trans hdue⟩
      refine ⟨fun hnot => absurd hlate hnot, fun _ => ?_⟩
      rw [hstage]
      exact stale_of_advance hs hadv

/-- A run that goes on carries its report along, or has a new one. -/
theorem Iterated.carried_next {s : Solver α} {iter : ℕ} {stage : Stage α Bool}
    (h : Iterated s iter stage) (hs : Carried s) (hgoes : stage.result = .ok true) :
    Carried stage.solver := by
  cases hdue : anyDue s.settings iter with
  | true => exact ⟨stage.solver, .inl (h.fresh hdue), .refl⟩
  | false =>
    obtain ⟨s₁, hadv, ⟨-, hstage⟩ | ⟨hstop, -⟩⟩ := h.carried hdue
    · obtain ⟨t, ht, hts⟩ := hs
      rw [hstage]
      exact ⟨t, ht, hts.tail ⟨iter, hadv⟩⟩
    · rw [hgoes] at hstop
      cases hstop

/-- **A search ends with a report on its iterate,** or with one that was carried
along until the time was up. -/
theorem searched_of_iterations {clock : Clock α} {count iter : ℕ} {told : List (Event α)}
    {s : Solver α} {stage : Stage α Unit} (hs : Carried s)
    (h : iterations clock count iter told s = .ok stage) : Searched count s stage := by
  -- the report is carried from one iteration to the next, so `Carried` is the invariant
  induction count generalizing iter told s with
  | zero =>
    obtain ⟨last, hlast, h⟩ := bind_eq_ok.mp h
    cases h
    obtain ⟨s₁, hs₁, hkeeps, hstatus⟩ := lastCheck_eq_ok hlast
    have hfresh := hkeeps.fresh (fresh_of_updateResiduals hs₁)
    obtain ⟨r, -, rfl⟩ := updateResiduals_eq_ok hs₁
    exact {
      steps := (steps_noted s r _ s.solution).trans hkeeps.steps
      settings_eq := hkeeps.settings_eq
      advanced := fun hlt => absurd hlt (Nat.lt_irrefl 0)
      report := fun _ => ⟨fun _ => hfresh, fun hlate => absurd hlate.1 hstatus⟩ }
  | succ count ih =>
    obtain ⟨mid, hmid, h⟩ := bind_eq_ok.mp h
    have hiter := iterated_of_iteration hmid
    obtain ⟨s₁, hadv, hsteps⟩ := hiter.steps
    have hall : Steps s mid.solver := .head (.advanced hadv) hsteps
    have hadvanced : ∃ s₁ s₂ iter, Steps s s₁ ∧ s₁.advance iter = .ok s₂ ∧
        Steps s₂ mid.solver := ⟨s, s₁, iter, .refl, hadv, hsteps⟩
    cases hresult : mid.result with
    | error e =>
      rw [hresult] at h
      cases h
      exact ⟨hall, hiter.settings_eq, fun _ => hadvanced,
        fun hok => by cases hok⟩
    | ok goes =>
      rw [hresult] at h
      cases goes with
      | false =>
        cases h
        exact ⟨hall, hiter.settings_eq, fun _ => hadvanced,
          fun _ => hiter.report hs hresult⟩
      | true =>
        have hrest := ih (hiter.carried_next hs hresult) h
        exact {
          steps := hall.trans hrest.steps
          settings_eq := hrest.settings_eq.trans hiter.settings_eq
          advanced := fun _ => ⟨s, s₁, iter, .refl, hadv, hsteps.trans hrest.steps⟩
          report := hrest.report }

/-! ## A run -/

theorem carried_restart (s : Solver α) : Carried { s with info := s.info.restart } :=
  ⟨_, .inr ⟨rfl, rfl, rfl⟩, .refl⟩

/-- Contradictory bounds end a run before it begins; there is no solution. -/
theorem search_eq_ok {clock : Clock α} {s : Solver α} {stage : Stage α Unit} (hs : Carried s)
    (h : s.search clock = .ok stage) :
    (s.problem.crossedBounds = true ∧ stage.solver =
        { s with info := { s.info with status := .primalInfeasible } }) ∨
      Searched s.settings.maxIter s stage := by
  rw [search] at h
  split at h
  · cases h
    exact .inl ⟨‹_›, rfl⟩
  · exact .inr (searched_of_iterations hs h)

/-- What polishing reports on is the polished point. -/
theorem atPoint_of_polish {p : Problem α} {eq : Equilibration α} {delta : α} {refinements : ℕ}
    {order : EliminationOrder} {v : Iterate α} {p₀ d₀ : α} {x z y : Array α} {r : Residuals α}
    {improved : Bool}
    (h : Polish.run p eq delta refinements order v p₀ d₀ = .ok (.point x z y r improved)) :
    Residuals.atPoint p eq x z y = .ok r := by
  rw [Polish.run] at h
  obtain ⟨B, -, h⟩ := bind_eq_ok.mp h
  obtain ⟨⟨A, positions⟩, -, h⟩ := bind_eq_ok.mp h
  obtain ⟨factored, -, h⟩ := bind_eq_ok.mp h
  cases factored with
  | error e => cases h
  | ok f =>
    obtain ⟨sol₀, -, h⟩ := bind_eq_ok.mp h
    obtain ⟨sol, -, h⟩ := bind_eq_ok.mp h
    obtain ⟨free, -, h⟩ := bind_eq_ok.mp h
    obtain ⟨r', hr', h⟩ := bind_eq_ok.mp h
    cases h
    exact hr'

/-- **Polishing reports on its own point,** and on none where that is refused. -/
theorem polish_eq_ok {s s' : Solver α} {events : List (Event α)}
    (h : s.polish = .ok (s', events)) :
    (s'.info.polish = .successful ∧ Fresh s' ∧ s'.problem = s.problem ∧
        s'.equilibration = s.equilibration ∧ s'.settings = s.settings ∧
        s'.info.status = s.info.status) ∨
      ∃ r, s' = { s with residuals := r, info := { s.info with polish := .unsuccessful } } := by
  obtain ⟨outcome, hrun, h⟩ := bind_eq_ok.mp h
  cases outcome with
  | notFactored e =>
    cases h
    exact .inr ⟨s.residuals, rfl⟩
  | point x z y r improved =>
    have hr := atPoint_of_polish hrun
    dsimp only at h
    cases improved with
    | false =>
      cases h
      exact .inr ⟨r, rfl⟩
    | true =>
      rw [if_pos rfl] at h
      obtain ⟨x', hx, h⟩ := bind_eq_ok.mp h
      obtain ⟨z', hz, h⟩ := bind_eq_ok.mp h
      obtain ⟨y', hy, h⟩ := bind_eq_ok.mp h
      obtain ⟨_, -, hx⟩ := bind_eq_ok.mp hx
      obtain ⟨_, -, hz⟩ := bind_eq_ok.mp hz
      obtain ⟨_, -, hy⟩ := bind_eq_ok.mp hy
      cases hx
      cases hz
      cases hy
      cases h
      exact .inl ⟨rfl, ⟨r, hr, rfl, rfl, rfl⟩, rfl, rfl, rfl, rfl⟩

/-- **Polishing after a search** ends with the polished point, or leaves the
iterate and the report on it. -/
theorem polishIfWanted_eq_ok {stage : Stage α Unit} {s : Solver α} {events : List (Event α)}
    (h : polishIfWanted stage = .ok (s, events)) :
    (s.info.polish = .successful ∧ Fresh s ∧ ¬Late s ∧ s.settings = stage.solver.settings ∧
        Moves stage.solver s) ∨
      ∃ r polish, s = { stage.solver with
        residuals := r, info := { stage.solver.info with polish := polish } } := by
  rw [polishIfWanted] at h
  split at h
  · rename_i hwants
    have hsolved : stage.solver.info.status = .solved := by
      simp only [wantsPolish, Bool.and_eq_true, decide_eq_true_eq] at hwants
      exact hwants.2
    rcases polish_eq_ok h with ⟨hsuccess, hfresh, -, -, hset, hstatus⟩ | ⟨r, rfl⟩
    · refine .inl ⟨hsuccess, hfresh, fun hlate => ?_, hset, .single (.polished h)⟩
      have htime := hlate.1
      rw [hstatus, hsolved] at htime
      cases htime
    · exact .inr ⟨r, .unsuccessful, rfl⟩
  · cases h
    exact .inr ⟨stage.solver.residuals, stage.solver.info.polish, rfl⟩

theorem conclude_eq_ok {s s' : Solver α} (h : s.conclude = .ok s') :
    ∃ sol, Solution.ofIterate s.problem.n s.problem.m s.iterate s.equilibration s.info = .ok sol ∧
      s' = { s with solution :=
        if s.problem.crossedBounds then { sol with primInfCert := none } else sol } := by
  obtain ⟨sol, hsol, h⟩ := bind_eq_ok.mp h
  cases h
  exact ⟨sol, hsol, rfl⟩

theorem steps_of_search {clock : Clock α} {s : Solver α} {stage : Stage α Unit}
    (h : { s with info := s.info.restart }.search clock = .ok stage) :
    stage.solver.settings = s.settings ∧ Steps s stage.solver := by
  rcases search_eq_ok (carried_restart s) h with ⟨-, hcrossed⟩ | hsearch
  · rw [hcrossed]
    exact ⟨rfl, steps_noted s s.residuals _ s.solution⟩
  · exact ⟨hsearch.settings_eq, (steps_noted s s.residuals _ s.solution).trans hsearch.steps⟩

/-- **Moves leave the program alone,** and its scaling. -/
theorem problem_of_moves {s s' : Solver α} (h : Moves s s') :
    s'.problem = s.problem ∧ s'.equilibration = s.equilibration := by
  induction h with
  | refl => exact ⟨rfl, rfl⟩
  | tail _ hmove ih =>
    cases hmove with
    | step hstep =>
      cases hstep with
      | advanced hadv =>
        obtain ⟨v, rfl⟩ := advance_eq_ok hadv
        exact ih
      | rescaled => exact ih
      | noted => exact ih
    | polished hpolish =>
      rcases polish_eq_ok hpolish with ⟨-, -, hp, heq, -, -⟩ | ⟨r, rfl⟩
      · exact ⟨hp.trans ih.1, heq.trans ih.2⟩
      · exact ih

/-- **What a run does.** -/
structure Ran (s : Solver α) (stage : Stage α Unit) : Prop where
  moves : Moves s stage.solver
  settings_eq : stage.solver.settings = s.settings
  /-- A solution is reported with objective and residuals of its own, unless the
  time was up when nothing was due. -/
  report : stage.result = .ok () → stage.solver.info.status.hasSolution →
    (¬Late stage.solver → Fresh stage.solver) ∧ (Late stage.solver → Stale stage.solver)
  /-- The iterate is the last one of the search, unless a polished point took its
  place. -/
  searched : stage.solver.info.polish ≠ .successful → stage.solver.info.status.hasSolution →
    0 < s.settings.maxIter → ∃ s₁ s₂ iter, Steps s s₁ ∧ s₁.advance iter = .ok s₂ ∧
      Steps s₂ stage.solver
  solution : ∃ sol, Solution.ofIterate stage.solver.problem.n stage.solver.problem.m
    stage.solver.iterate stage.solver.equilibration stage.solver.info = .ok sol ∧
      stage.solver.solution =
        if stage.solver.problem.crossedBounds then { sol with primInfCert := none } else sol

/-- **Every run is of this kind.** -/
theorem ran_of_run {clock : Clock α} {s : Solver α} {stage : Stage α Unit}
    (h : s.run clock = .ok stage) : Ran s stage := by
  rw [run] at h
  obtain ⟨found, hfound, h⟩ := bind_eq_ok.mp h
  obtain ⟨⟨s₂, polishing⟩, hpolish, h⟩ := bind_eq_ok.mp h
  obtain ⟨s₃, hconclude, h⟩ := bind_eq_ok.mp h
  obtain ⟨sol, hsol, rfl⟩ := conclude_eq_ok hconclude
  cases h
  have hstart : Steps s { s with info := s.info.restart } :=
    steps_noted s s.residuals _ s.solution
  obtain ⟨hset, hsteps⟩ := steps_of_search hfound
  have hsearched : found.solver.info.status.hasSolution →
      Searched s.settings.maxIter { s with info := s.info.restart } found := by
    intro hsolution
    rcases search_eq_ok (carried_restart s) hfound with ⟨-, hcrossed⟩ | hsearch
    · rw [hcrossed] at hsolution
      have hyes : SolverStatus.primalInfeasible.hasSolution = true := hsolution
      exact absurd hyes (by decide)
    · exact hsearch
  have hnote : ∀ s : Solver α, Steps s { s with solution :=
      if s.problem.crossedBounds then { sol with primInfCert := none } else sol } :=
    fun s => steps_noted s s.residuals s.info _
  rcases polishIfWanted_eq_ok hpolish with
    ⟨hsuccess, hfresh, hnotLate, hset', hmoves⟩ | ⟨r, polish, rfl⟩
  · exact {
      moves := (Steps.moves hsteps).trans (hmoves.trans (Steps.moves (hnote s₂)))
      settings_eq := hset'.trans hset
      report := fun _ _ => ⟨fun _ => hfresh, fun hlate => absurd hlate hnotLate⟩
      searched := fun hne => absurd hsuccess hne
      solution := ⟨sol, hsol, rfl⟩ }
  · have hpolished : Steps found.solver { found.solver with
        residuals := r, info := { found.solver.info with polish := polish } } :=
      steps_noted found.solver r _ found.solver.solution
    have hrest := hpolished.trans (hnote _)
    exact {
      moves := Steps.moves (hsteps.trans hrest)
      settings_eq := hset
      report := fun hok hsolution => (hsearched hsolution).report hok
      searched := fun _ hsolution hpos => by
        obtain ⟨s₁, s₂, iter, h₁, hadv, h₂⟩ := (hsearched hsolution).advanced hpos
        exact ⟨s₁, s₂, iter, hstart.trans h₁, hadv, h₂.trans hrest⟩
      solution := ⟨sol, hsol, rfl⟩ }

end Solver

end SplitQP
