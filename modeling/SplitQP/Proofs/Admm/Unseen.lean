import SplitQP.Proofs.Admm.Moves
/-!
# What a run does not see

Whether progress is printed is a setting no run looks at, whether to polish is
one that its search does not look at, and of the clock it sees only when the
time is up, if there is a limit at all. So a search of the same solver with
other choices, on a clock that agrees about that, is the same search
(`search_withChoices`); a run is the same run as long as it polishes where the
other one does (`run_withVerbose`), and so is setting it up
(`setup_withVerbose`). Each part of a run passes the choices on as they are,
which is one equation for each part.
-/

namespace SplitQP

open Checked

variable {α : Type}

/-- The same settings with other choices of printing progress and of polishing. -/
def Settings.withChoices (set : Settings α) (c : Settings α → Bool × Bool) : Settings α :=
  { set with verbose := (c set).1, polish := (c set).2 }

/-- The same solver with other choices. -/
def Solver.withChoices (s : Solver α) (c : Settings α → Bool × Bool) : Solver α :=
  { s with settings := s.settings.withChoices c }

/-- A stage of the same solver with other choices. -/
def Stage.withChoices {β : Type} (stage : Stage α β) (c : Settings α → Bool × Bool) :
    Stage α β :=
  { stage with solver := stage.solver.withChoices c }

/-- The same settings with progress printed or not. -/
def Settings.withVerbose (set : Settings α) (v : Bool) : Settings α := { set with verbose := v }

/-- The same solver with progress printed or not. -/
def Solver.withVerbose (s : Solver α) (v : Bool) : Solver α :=
  { s with settings := s.settings.withVerbose v }

/-- A stage of the same solver with progress printed or not. -/
def Stage.withVerbose {β : Type} (stage : Stage α β) (v : Bool) : Stage α β :=
  { stage with solver := stage.solver.withVerbose v }

/-- There is no time limit. -/
def Settings.Untimed [Scalar α] (set : Settings α) : Prop := Scalar.lt 0 set.timeLimit = false

/-- **Two clocks agree** about when the time allowed is used up. -/
def Settings.SameTime [Scalar α] (set : Settings α) (clock clock' : Clock α) : Prop :=
  ∀ iter, (Scalar.lt 0 set.timeLimit &&
      Scalar.lt set.timeLimit (clock'.setup + clock'.solve iter)) =
    (Scalar.lt 0 set.timeLimit && Scalar.lt set.timeLimit (clock.setup + clock.solve iter))

/-- Without a time limit all clocks agree. -/
theorem Settings.Untimed.sameTime [Scalar α] {set : Settings α} (h : set.Untimed)
    (clock clock' : Clock α) : set.SameTime clock clock' := fun _ => by
  rw [h, Bool.false_and, Bool.false_and]

namespace Solver

variable [Scalar α] {s : Solver α} {v : Bool} {c : Settings α → Bool × Bool}
  {clock clock' : Clock α} {iter : ℕ}

/-! ## Setting up -/

/-- **Setting up does not see** whether progress is printed. -/
theorem setup_withVerbose (P : Csc α) (q : Array α) (A : Csc α) (l u : Array α)
    (settings : Settings α) (order : EliminationOrder) (v : Bool) :
    setup P q A l u (settings.withVerbose v) order =
      (setup P q A l u settings order).map (Except.map (withVerbose · v)) := by
  have hvalidate : (settings.withVerbose v).validate = settings.validate := rfl
  rw [setup, setup, hvalidate]
  cases settings.validate with
  | error e => rfl
  | ok _ =>
    dsimp only
    cases Problem.ofData P q A l u with
    | error f => rfl
    | ok r =>
      cases r with
      | error e => rfl
      | ok p =>
        simp only [ok_bind, Settings.withVerbose]
        cases Equilibration.equilibrate settings.scaling p with
        | error f => rfl
        | ok r =>
          obtain ⟨p, eq⟩ := r
          simp only [ok_bind]
          cases KktSystem.setup p.P p.A settings.sigma
            (StepSizes.ofBase settings.rho (StepSizes.kinds p.l p.u)).rhoInv order with
          | error f => rfl
          | ok r => cases r <;> rfl

/-! ## The parts of an iteration -/

theorem advance_withChoices :
    (s.withChoices c).advance iter = (s.advance iter).map (withChoices · c) := by
  change (s.iterate.step s.problem s.kkt s.steps s.settings.sigma s.settings.alpha >>= _) = _
  rw [advance]
  cases s.iterate.step s.problem s.kkt s.steps s.settings.sigma s.settings.alpha <;> rfl

theorem updateResiduals_withChoices :
    (s.withChoices c).updateResiduals = s.updateResiduals.map (withChoices · c) := by
  change (Residuals.atPoint s.problem s.equilibration s.iterate.x s.iterate.z s.iterate.y >>= _) = _
  rw [updateResiduals]
  cases Residuals.atPoint s.problem s.equilibration s.iterate.x s.iterate.z s.iterate.y <;> rfl

theorem refresh_withChoices (needed : Bool) :
    (s.withChoices c).refresh needed = (s.refresh needed).map (withChoices · c) := by
  cases needed with
  | true => exact updateResiduals_withChoices
  | false => rfl

theorem checkTermination_withChoices (approximate : Bool) :
    (s.withChoices c).checkTermination approximate =
      (s.checkTermination approximate).map (Option.map (withChoices · c)) := by
  have hverdict : (s.withChoices c).verdict (if approximate then 10.0 else 1) =
      s.verdict (if approximate then 10.0 else 1) := rfl
  rw [checkTermination, checkTermination, hverdict]
  cases s.verdict (if approximate then 10.0 else 1) with
  | error f => rfl
  | ok status => cases status <;> rfl

theorem checkIfDue_withChoices (due : Bool) :
    (s.withChoices c).checkIfDue due = (s.checkIfDue due).map (Option.map (withChoices · c)) := by
  cases due with
  | true => exact checkTermination_withChoices false
  | false => rfl

theorem adaptRho_withChoices :
    (s.withChoices c).adaptRho = s.adaptRho.map (Stage.withChoices · c) := by
  cases hwants : wantsUpdate s.steps.base s.settings.adaptiveRhoTolerance
      (s.residuals.rhoEstimate s.steps.base) with
  | false =>
    simp only [adaptRho, withChoices, Settings.withChoices, hwants, Bool.false_eq_true, if_false]
    rfl
  | true =>
    simp only [adaptRho, withChoices, Settings.withChoices, hwants, if_true]
    cases s.kkt.updateRhoInv (StepSizes.ofBase (s.residuals.rhoEstimate s.steps.base)
        s.rows).rhoInv with
    | error f => rfl
    | ok r =>
      obtain ⟨kkt, outcome⟩ := r
      cases outcome <;> rfl

theorem adaptIfDue_withChoices (due : Bool) :
    (s.withChoices c).adaptIfDue due = (s.adaptIfDue due).map (Stage.withChoices · c) := by
  cases due with
  | true => exact adaptRho_withChoices
  | false => rfl

/-- Clocks that agree end a run at the same time. -/
theorem timeIsUp_of_sameTime (h : s.settings.SameTime clock clock') :
    s.timeIsUp clock' iter = s.timeIsUp clock iter := h iter

theorem goOn_withChoices (told : List (Event α)) (stage : Stage α Unit)
    (h : stage.solver.settings.SameTime clock clock') :
    goOn clock' iter told (stage.withChoices c) =
      (goOn clock iter told stage).withChoices c := by
  obtain ⟨s, events, result⟩ := stage
  cases result with
  | error e => rfl
  | ok _ =>
    have htime : (s.withChoices c).timeIsUp clock' iter = s.timeIsUp clock iter :=
      timeIsUp_of_sameTime h
    simp only [goOn, Stage.withChoices, htime]
    cases s.timeIsUp clock iter <;> rfl

/-! ## A run -/

/-- **An iteration does not see** the clock, nor whether progress is printed. -/
theorem iteration_withChoices (h : s.settings.SameTime clock clock') :
    (s.withChoices c).iteration clock' iter =
      (s.iteration clock iter).map (Stage.withChoices · c) := by
  rw [iteration, iteration, advance_withChoices]
  cases hadv : s.advance iter with
  | error f => rfl
  | ok s₁ =>
    have hset : s₁.settings = s.settings := by
      obtain ⟨_, rfl⟩ := advance_eq_ok hadv
      rfl
    have hcheck : isDue (s₁.withChoices c).settings.checkTermination iter =
        isDue s₁.settings.checkTermination iter := rfl
    have hadapt : isDue (adaptInterval (s₁.withChoices c).settings) iter =
        isDue (adaptInterval s₁.settings) iter := rfl
    simp only [Except.map, ok_bind, hcheck, hadapt]
    generalize isDue s₁.settings.checkTermination iter = check
    generalize isDue (adaptInterval s₁.settings) iter = adapt
    rw [refresh_withChoices]
    cases hrefresh : s₁.refresh (check || adapt) with
    | error f => rfl
    | ok s₂ =>
      have hset₂ : s₂.settings = s.settings := by
        rcases refresh_eq_ok hrefresh with ⟨-, hupdate⟩ | ⟨-, rfl⟩
        · obtain ⟨r, -, rfl⟩ := updateResiduals_eq_ok hupdate
          exact hset
        · exact hset
      have hrow : (s₂.withChoices c).tableRow = s₂.tableRow := rfl
      simp only [Except.map, ok_bind, hrow]
      rw [checkIfDue_withChoices]
      cases s₂.checkIfDue check with
      | error f => rfl
      | ok checked =>
        cases checked with
        | some s₃ => rfl
        | none =>
          simp only [Except.map, ok_bind, Option.map]
          rw [adaptIfDue_withChoices]
          cases hadapts : s₂.adaptIfDue adapt with
          | error f => rfl
          | ok stage =>
            have htime : stage.solver.settings.SameTime clock clock' := by
              rwa [(keeps_of_adaptIfDue hadapts).settings_eq, hset₂]
            simp only [Except.map, ok_bind, pure_eq_ok]
            rw [goOn_withChoices _ _ htime]

theorem lastCheck_withChoices :
    (s.withChoices c).lastCheck = s.lastCheck.map (Stage.withChoices · c) := by
  rw [lastCheck, lastCheck, updateResiduals_withChoices]
  cases s.updateResiduals with
  | error f => rfl
  | ok s₁ =>
    simp only [Except.map, ok_bind]
    rw [checkTermination_withChoices]
    cases s₁.checkTermination false with
    | error f => rfl
    | ok checked =>
      cases checked with
      | some s₂ => rfl
      | none =>
        simp only [Except.map, ok_bind, Option.map]
        rw [checkTermination_withChoices]
        cases s₁.checkTermination true with
        | error f => rfl
        | ok checked => cases checked <;> rfl

/-- **Nor do the iterations.** -/
theorem iterations_withChoices (h : s.settings.SameTime clock clock') (count : ℕ)
    (told : List (Event α)) :
    iterations clock' count iter told (s.withChoices c) =
      (iterations clock count iter told s).map (Stage.withChoices · c) := by
  induction count generalizing iter told s with
  | zero =>
    rw [iterations, iterations, lastCheck_withChoices]
    cases s.lastCheck <;> rfl
  | succ count ih =>
    rw [iterations, iterations, iteration_withChoices h]
    cases hiter : s.iteration clock iter with
    | error f => rfl
    | ok stage =>
      have hset := (iterated_of_iteration hiter).settings_eq
      obtain ⟨t, events, result⟩ := stage
      cases result with
      | error e => rfl
      | ok on =>
        cases on with
        | false => rfl
        | true => exact ih (hset ▸ h) _

/-- **A search does not see** these choices, nor what clocks read that agree. -/
theorem search_withChoices (h : s.settings.SameTime clock clock') :
    (s.withChoices c).search clock' = (s.search clock).map (Stage.withChoices · c) := by
  have hcrossed : (s.withChoices c).problem.crossedBounds = s.problem.crossedBounds := rfl
  rw [search, search, hcrossed]
  cases s.problem.crossedBounds with
  | true => rfl
  | false => exact iterations_withChoices h _ _

theorem polish_withChoices : (s.withChoices c).polish =
    s.polish.map fun r => (r.1.withChoices c, r.2) := by
  simp only [polish, withChoices, Settings.withChoices]
  cases Polish.run s.problem s.equilibration s.settings.delta s.settings.polishRefineIter
      s.order s.iterate s.info.primRes s.info.dualRes with
  | error f => rfl
  | ok outcome =>
    cases outcome with
    | notFactored e => rfl
    | point x z y r improved =>
      cases improved with
      | false => rfl
      | true =>
        simp only [ok_bind, if_true]
        cases Dense.copyTo s.iterate.x x with
        | error f => rfl
        | ok x' =>
          cases Dense.copyTo s.iterate.z z with
          | error f => rfl
          | ok z' => cases Dense.copyTo s.iterate.y y <;> rfl

theorem conclude_withChoices : (s.withChoices c).conclude =
    s.conclude.map (withChoices · c) := by
  change (Solution.ofIterate s.problem.n s.problem.m s.iterate s.equilibration s.info >>= _) = _
  rw [conclude]
  cases Solution.ofIterate s.problem.n s.problem.m s.iterate s.equilibration s.info <;> rfl

/-! ## Printing, and the clock -/

theorem polishIfWanted_withVerbose (stage : Stage α Unit) :
    polishIfWanted (stage.withVerbose v) =
      (polishIfWanted stage).map fun r => (r.1.withVerbose v, r.2) := by
  have hwants : (stage.withVerbose v).solver.wantsPolish (stage.withVerbose v).result =
      stage.solver.wantsPolish stage.result := rfl
  rw [polishIfWanted, polishIfWanted, hwants]
  cases stage.solver.wantsPolish stage.result with
  | true => exact polish_withChoices (c := fun set => (v, set.polish))
  | false => rfl

/-- **A run does not see** whether progress is printed, nor what clocks read that agree. -/
theorem run_withVerbose_of_sameTime (h : s.settings.SameTime clock clock') (v : Bool) :
    (s.withVerbose v).run clock' = (s.run clock).map (Stage.withVerbose · v) := by
  have hsearch : search { s.withVerbose v with info := (s.withVerbose v).info.restart } clock' =
      (search { s with info := s.info.restart } clock).map (Stage.withVerbose · v) :=
    search_withChoices (s := { s with info := s.info.restart }) (c := fun set => (v, set.polish)) h
  rw [run, run, hsearch]
  cases search { s with info := s.info.restart } clock with
  | error f => rfl
  | ok stage =>
    simp only [Except.map, ok_bind]
    rw [polishIfWanted_withVerbose]
    cases polishIfWanted stage with
    | error f => rfl
    | ok r =>
      obtain ⟨t, polishing⟩ := r
      have hconclude : (t.withVerbose v).conclude = t.conclude.map (withVerbose · v) :=
        conclude_withChoices (c := fun set => (v, set.polish))
      simp only [Except.map, ok_bind, hconclude]
      cases t.conclude <;> rfl

/-- **Nor, without a time limit,** the clock. -/
theorem run_withVerbose (h : s.settings.Untimed) (clock clock' : Clock α) (v : Bool) :
    (s.withVerbose v).run clock' = (s.run clock).map (Stage.withVerbose · v) :=
  run_withVerbose_of_sameTime (h.sameTime clock clock') v

/-- **Clocks that agree** make the same run. -/
theorem run_of_sameTime (h : s.settings.SameTime clock clock') : s.run clock' = s.run clock :=
  -- printing progress as it does anyway changes nothing
  calc s.run clock' = (s.run clock).map (Stage.withVerbose · s.settings.verbose) :=
        run_withVerbose_of_sameTime h s.settings.verbose
    _ = s.run clock := (run_withVerbose_of_sameTime (fun _ => rfl) s.settings.verbose).symm

/-- **Without a time limit** a run does not see the clock. -/
theorem run_clock (h : s.settings.Untimed) (clock clock' : Clock α) :
    s.run clock' = s.run clock := run_of_sameTime (h.sameTime clock clock')

end Solver

end SplitQP
