import SplitQP.Proofs.Admm.Unseen
import SplitQP.Proofs.Admm.Workspace
import SplitQP.Proofs.Admm.Consistent
/-!
# An unsuccessful polish leaves no trace

Polishing that does not succeed leaves the residuals of a point that was
refused. A run does not read what is left there: every check and every change
of the step size comes after residuals of the current iterate have been noted,
and polishing notes its own (`run_withResiduals`). So a solver whose polish
was unsuccessful is the solver that did not polish but for these residuals and
one note, and answers all later runs alike (`traceless_of_unsuccessful`). What
it leaves in the vectors that residuals are computed in is not read either, by
`Workspace.unread`.
-/

namespace SplitQP

open Checked

variable {α : Type}

/-- The same solver with other residuals left in it. -/
def Solver.withResiduals (s : Solver α) (r : Residuals α) : Solver α := { s with residuals := r }

/-- A stage of the same solver with other residuals left in it. -/
def Stage.withResiduals {β : Type} (stage : Stage α β) (r : Residuals α) : Stage α β :=
  { stage with solver := stage.solver.withResiduals r }

namespace Solver

variable [Scalar α] {s : Solver α} {r : Residuals α} {clock clock' : Clock α} {iter : ℕ}

/-! ## Residuals are noted before they are read -/

omit [Scalar α] in
/-- A stage has the residuals it has. -/
theorem exists_withResiduals {β : Type} (r : Residuals α) (x : Checked (Stage α β)) :
    ∃ r', x = x.map (Stage.withResiduals · r') := by
  cases x with
  | error f => exact ⟨r, rfl⟩
  | ok stage => exact ⟨stage.solver.residuals, rfl⟩

theorem advance_withResiduals :
    (s.withResiduals r).advance iter = (s.advance iter).map (withResiduals · r) := by
  change (s.iterate.step s.problem s.kkt s.steps s.settings.sigma s.settings.alpha >>= _) = _
  rw [advance]
  cases s.iterate.step s.problem s.kkt s.steps s.settings.sigma s.settings.alpha <;> rfl

/-- Noting residuals replaces those that were there. -/
theorem updateResiduals_withResiduals :
    (s.withResiduals r).updateResiduals = s.updateResiduals := rfl

/-- So the last check does not read what was there. -/
theorem lastCheck_withResiduals : (s.withResiduals r).lastCheck = s.lastCheck := by
  rw [lastCheck, lastCheck, updateResiduals_withResiduals]

theorem goOn_withResiduals (told : List (Event α)) (stage : Stage α Unit) :
    goOn clock iter told (stage.withResiduals r) =
      (goOn clock iter told stage).withResiduals r := by
  obtain ⟨s, events, result⟩ := stage
  cases result with
  | error e => rfl
  | ok _ =>
    have htime : (s.withResiduals r).timeIsUp clock iter = s.timeIsUp clock iter := rfl
    simp only [goOn, Stage.withResiduals, htime]
    cases s.timeIsUp clock iter <;> rfl

/-- **An iteration passes residuals on** where nothing is due, and notes its own where
something is. -/
theorem iteration_withResiduals : (s.withResiduals r).iteration clock iter =
    (s.iteration clock iter).map fun stage =>
      if anyDue s.settings iter then stage else stage.withResiduals r := by
  rw [iteration, iteration, advance_withResiduals]
  cases hadv : s.advance iter with
  | error f => rfl
  | ok s₁ =>
    have hset : s₁.settings = s.settings := by
      obtain ⟨_, rfl⟩ := advance_eq_ok hadv
      rfl
    have hset' : (s₁.withResiduals r).settings = s.settings := hset
    simp only [Except.map, ok_bind, hset, hset']
    cases hdue : anyDue s.settings iter with
    | true =>
      rw [anyDue] at hdue
      have hrefresh : (s₁.withResiduals r).refresh true = s₁.refresh true :=
        updateResiduals_withResiduals
      have hkeep : ∀ x : Checked (Stage α Bool),
          x = x.map fun stage => if true then stage else stage.withResiduals r := fun x => by
        cases x <;> rfl
      rw [hdue, hrefresh]
      exact hkeep _
    | false =>
      -- neither a check nor an adaptation takes place, so nothing reads residuals
      rw [anyDue, Bool.or_eq_false_iff] at hdue
      rw [hdue.1, hdue.2]
      exact congrArg Except.ok (goOn_withResiduals [] ⟨s₁, [], .ok ()⟩)

/-- **The iterations end alike,** whatever residuals they found. -/
theorem iterations_withResiduals (count : ℕ) (told : List (Event α)) :
    ∃ r', iterations clock count iter told (s.withResiduals r) =
      (iterations clock count iter told s).map (Stage.withResiduals · r') := by
  induction count generalizing s iter told with
  | zero =>
    rw [iterations, iterations, lastCheck_withResiduals]
    exact exists_withResiduals r _
  | succ count ih =>
    cases hdue : anyDue s.settings iter with
    | true =>
      have hsame : (s.withResiduals r).iteration clock iter = s.iteration clock iter := by
        rw [iteration_withResiduals, hdue]
        cases s.iteration clock iter <;> rfl
      rw [iterations, hsame]
      exact exists_withResiduals r (iterations clock (count + 1) iter told s)
    | false =>
      rw [iterations, iterations, iteration_withResiduals, hdue]
      cases s.iteration clock iter with
      | error f => exact ⟨r, rfl⟩
      | ok stage =>
        obtain ⟨t, events, result⟩ := stage
        cases result with
        | error e => exact ⟨r, rfl⟩
        | ok on =>
          cases on with
          | false => exact ⟨r, rfl⟩
          | true => exact ih _

theorem search_withResiduals (s : Solver α) (r : Residuals α) (clock : Clock α) :
    ∃ r', (s.withResiduals r).search clock =
      (s.search clock).map (Stage.withResiduals · r') := by
  have hcrossed : (s.withResiduals r).problem.crossedBounds = s.problem.crossedBounds := rfl
  rw [search, search, hcrossed]
  cases s.problem.crossedBounds with
  | true => exact ⟨r, rfl⟩
  | false => exact iterations_withResiduals _ _

/-- Polishing starts from the residuals that were reported, and leaves its own. -/
theorem polish_withResiduals : ∃ r', (s.withResiduals r).polish =
    s.polish.map fun out => (out.1.withResiduals r', out.2) := by
  simp only [polish, withResiduals]
  cases Polish.run s.problem s.equilibration s.settings.delta s.settings.polishRefineIter
      s.order s.iterate s.info.primRes s.info.dualRes with
  | error f => exact ⟨r, rfl⟩
  | ok outcome =>
    cases outcome with
    | notFactored e => exact ⟨r, rfl⟩
    | point x z y r' improved =>
      cases improved with
      | false => exact ⟨r', rfl⟩
      | true =>
        refine ⟨r', ?_⟩
        simp only [ok_bind, if_true]
        cases Dense.copyTo s.iterate.x x with
        | error f => rfl
        | ok x' =>
          cases Dense.copyTo s.iterate.z z with
          | error f => rfl
          | ok z' => cases Dense.copyTo s.iterate.y y <;> rfl

theorem polishIfWanted_withResiduals (stage : Stage α Unit) :
    ∃ r', polishIfWanted (stage.withResiduals r) =
      (polishIfWanted stage).map fun out => (out.1.withResiduals r', out.2) := by
  have hwants : (stage.withResiduals r).solver.wantsPolish (stage.withResiduals r).result =
      stage.solver.wantsPolish stage.result := rfl
  rw [polishIfWanted, polishIfWanted, hwants]
  cases stage.solver.wantsPolish stage.result with
  | true => exact polish_withResiduals
  | false => exact ⟨r, rfl⟩

theorem conclude_withResiduals :
    (s.withResiduals r).conclude = s.conclude.map (withResiduals · r) := by
  change (Solution.ofIterate s.problem.n s.problem.m s.iterate s.equilibration s.info >>= _) = _
  rw [conclude]
  cases Solution.ofIterate s.problem.n s.problem.m s.iterate s.equilibration s.info <;> rfl

/-- **A run does not read residuals** that it finds. -/
theorem run_withResiduals (s : Solver α) (r : Residuals α) (clock : Clock α) :
    ∃ r', (s.withResiduals r).run clock = (s.run clock).map (Stage.withResiduals · r') := by
  obtain ⟨r₁, hsearch⟩ :=
    search_withResiduals { s with info := s.info.restart } r clock
  have hrestart : { s.withResiduals r with info := (s.withResiduals r).info.restart } =
      withResiduals { s with info := s.info.restart } r := rfl
  rw [run, run, hrestart, hsearch]
  cases search { s with info := s.info.restart } clock with
  | error f => exact ⟨r, rfl⟩
  | ok found =>
    obtain ⟨r₂, hpolish⟩ := polishIfWanted_withResiduals (r := r₁) found
    simp only [Except.map, ok_bind, hpolish]
    cases polishIfWanted found with
    | error f => exact ⟨r, rfl⟩
    | ok out =>
      obtain ⟨t, polishing⟩ := out
      refine ⟨r₂, ?_⟩
      simp only [Except.map, ok_bind, conclude_withResiduals]
      cases t.conclude <;> rfl

/-! ## Later runs -/

/-- What a caller gets from a run: the solution, the progress noted, what there was to
tell, and whether it broke off. -/
abbrev Answer (α : Type) := Solution α × Info α × List (Event α) × Except SolveError Unit

/-- **Runs a solver once for each entry,** with the settings and on the clock it names. -/
def answers (s : Solver α) : List (Settings α × Clock α) → Checked (List (Answer α))
  | [] => return []
  | (set, clock) :: calls => do
    let stage ← { s with settings := set }.run clock
    let later ← stage.solver.answers calls
    return (stage.solver.solution, stage.solver.info, stage.events, stage.result) :: later

/-- The same settings, on clocks that agree. -/
def SameCall (c c' : Settings α × Clock α) : Prop := c'.1 = c.1 ∧ c.1.SameTime c.2 c'.2

/-- The solver with what polishing may leave: other residuals, and another note. -/
def withPolishTrace (s : Solver α) (r : Residuals α) (note : PolishStatus) : Solver α :=
  { s with residuals := r, info := { s.info with polish := note } }

/-- **Later runs do not read** what polishing left. -/
theorem answers_withPolishTrace {note : PolishStatus} {calls calls' : List (Settings α × Clock α)}
    (h : calls.Forall₂ SameCall calls') :
    (s.withPolishTrace r note).answers calls = s.answers calls' := by
  induction h generalizing s r note with
  | nil => rfl
  | @cons c c' calls calls' hcall _ ih =>
    obtain ⟨set, clock⟩ := c
    obtain ⟨set', clock'⟩ := c'
    obtain ⟨hset, htime⟩ := hcall
    dsimp only at hset htime
    subst hset
    -- a run begins with a note of its own
    have hstart : { s.withPolishTrace r note with settings := set' }.run clock =
        (withResiduals { s with settings := set' } r).run clock := rfl
    obtain ⟨r', hrun⟩ := run_withResiduals { s with settings := set' } r clock
    have hclock : { s with settings := set' }.run clock' = { s with settings := set' }.run clock :=
      run_of_sameTime htime
    rw [answers, answers, hstart, hrun, hclock]
    cases { s with settings := set' }.run clock with
    | error f => rfl
    | ok stage =>
      have hlater : (stage.solver.withResiduals r').answers calls = stage.solver.answers calls' :=
        @ih stage.solver r' stage.solver.info.polish
      simp only [Except.map, ok_bind, Stage.withResiduals, hlater]
      rfl

/-- **Every run answers,** of any sequence. -/
theorem Fits.answers_ensures {shift : α} (h : Fits shift s)
    (calls : List (Settings α × Clock α)) : Ensures (s.answers calls) fun _ => True := by
  induction calls generalizing s with
  | nil => exact .ok trivial
  | cons c calls ih =>
    rw [answers]
    have hset : Fits shift { s with settings := c.1 } :=
      invariant_fits.noted h s.residuals s.info s.solution c.1
    refine (invariant_fits.run_ensures hset c.2).bind fun stage hstage => ?_
    exact (ih hstage.kept).bind fun later _ => .ok trivial

/-! ## The run itself -/

/-- The same solver, to polish or not. -/
def withPolish (s : Solver α) (b : Bool) : Solver α :=
  s.withChoices fun set => (set.verbose, b)

/-- Later runs have settings of their own. -/
theorem answers_withPolish (b : Bool) (calls : List (Settings α × Clock α)) :
    (s.withPolish b).answers calls = s.answers calls := by
  cases calls <;> rfl

/-- A run that does not polish ends with what its search found. -/
theorem run_of_not_wanted {found : Stage α Unit} {sol : Solution α}
    (hsearch : search { s with info := s.info.restart } clock = .ok found)
    (hwants : found.solver.wantsPolish found.result = false)
    (hsol : Solution.ofIterate found.solver.problem.n found.solver.problem.m found.solver.iterate
      found.solver.equilibration found.solver.info = .ok sol) :
    Ensures (s.run clock) fun stage => stage.result = found.result ∧
      stage.solver = { found.solver with solution :=
        if found.solver.problem.crossedBounds then { sol with primInfCert := none } else sol } := by
  have hconclude : found.solver.conclude = .ok { found.solver with solution :=
      if found.solver.problem.crossedBounds then { sol with primInfCert := none } else sol } := by
    rw [conclude]
    dsimp only
    rw [hsol]
    rfl
  have hpolish : polishIfWanted found = .ok (found.solver, []) := by
    rw [polishIfWanted, hwants]
    rfl
  rw [run, hsearch, ok_bind, hpolish, ok_bind]
  dsimp only
  rw [hconclude]
  exact .ok ⟨rfl, rfl⟩

/-- **Without polishing the run is the same** but for what an unsuccessful polish leaves. -/
theorem run_of_unsuccessful (hclock : s.settings.SameTime clock clock') {stage : Stage α Unit}
    (hrun : (s.withPolish true).run clock = .ok stage)
    (hrefused : stage.solver.info.polish = .unsuccessful) :
    Ensures ((s.withPolish false).run clock') fun stage' => stage'.result = stage.result ∧
      ∃ r, stage.solver = (stage'.solver.withPolish true).withPolishTrace r .unsuccessful := by
  have hsearch : ∀ (b : Bool) (clock' : Clock α), s.settings.SameTime clock clock' →
      search { s.withPolish b with info := s.info.restart } clock' =
        (search { s with info := s.info.restart } clock).map
          (Stage.withChoices · fun set => (set.verbose, b)) := fun b clock' h =>
    search_withChoices (s := { s with info := s.info.restart }) h
  rw [run] at hrun
  obtain ⟨found', hfound, hrun⟩ := bind_eq_ok.mp hrun
  obtain ⟨⟨t, polishing⟩, hpolish, hrun⟩ := bind_eq_ok.mp hrun
  obtain ⟨t', hconclude, hrun⟩ := bind_eq_ok.mp hrun
  obtain ⟨sol, hsol, rfl⟩ := conclude_eq_ok hconclude
  cases hrun
  have hother := hsearch false clock' hclock
  replace hfound := (hsearch true clock fun _ => rfl).symm.trans hfound
  -- both searches are that of `s`, so they found the same
  cases hsame : search { s with info := s.info.restart } clock with
  | error f =>
    rw [hsame] at hfound
    cases hfound
  | ok found =>
    rw [hsame] at hfound hother
    cases hfound
    rcases polishIfWanted_eq_ok hpolish with ⟨hsuccess, -⟩ | ⟨r, note, rfl⟩
    · rw [hrefused] at hsuccess
      cases hsuccess
    · obtain rfl : note = .unsuccessful := hrefused
      have hwants : (found.withChoices fun set => (set.verbose, false)).solver.wantsPolish
          found.result = false := by
        simp [wantsPolish, Stage.withChoices, withChoices, Settings.withChoices]
      refine (run_of_not_wanted (s := s.withPolish false) hother hwants hsol).mono ?_
      rintro stage' ⟨hresult, hsolver⟩
      refine ⟨hresult, r, ?_⟩
      rw [hsolver]
      rfl

section Setup

variable {P A : Csc α} {q l u : Array α} {settings : Settings α} {order : EliminationOrder}
  {s₀ : Solver α}

/-- **An unsuccessful polish is invisible.** The solver that polished in vain is the one that
did not polish, but for residuals and a note; later runs answer alike, and what it leaves in
the workspace is not read. -/
theorem traceless_of_unsuccessful (hsetup : setup P q A l u settings order = .ok (.ok s₀))
    (hmoves : Moves s₀ s) (hclock : s.settings.SameTime clock clock') :
    Ensures ((s.withPolish true).run clock) fun stage =>
      stage.solver.info.polish = .unsuccessful →
        Ensures ((s.withPolish false).run clock') (fun stage' =>
          stage'.result = stage.result ∧
          (∃ r, stage.solver = (stage'.solver.withPolish true).withPolishTrace r .unsuccessful) ∧
          ∀ calls calls', calls.Forall₂ SameCall calls' →
            Ensures (stage.solver.answers calls) fun given =>
              stage'.solver.answers calls' = .ok given) ∧
        (Scalar.eq (0 : α) 0 = true → Workspace.Unread s.problem s.equilibration) := by
  have hfits := invariant_fits.of_moves (starts_of_setup hsetup).fits hmoves
  have hpolish : Fits settings.sigma (s.withPolish true) :=
    invariant_fits.noted hfits s.residuals s.info s.solution _
  obtain ⟨stage, hrun, hran⟩ := invariant_fits.run_ensures hpolish clock
  refine .of_eq hrun fun hrefused => ⟨?_, fun hzero => Workspace.unread hzero hfits.sound _⟩
  refine (run_of_unsuccessful hclock hrun hrefused).mono ?_
  rintro stage' ⟨hresult, r, hsolver⟩
  refine ⟨hresult, ⟨r, hsolver⟩, fun calls calls' hcalls => ?_⟩
  obtain ⟨given, hgiven, -⟩ := Fits.answers_ensures hran.kept calls
  refine .of_eq hgiven ?_
  calc stage'.solver.answers calls' = (stage'.solver.withPolish true).answers calls' :=
        (answers_withPolish true calls').symm
    _ = stage.solver.answers calls := by rw [hsolver, answers_withPolishTrace hcalls]
    _ = .ok given := hgiven

end Setup

end Solver

/-! ## Polishing the well -/

/-- A shift of the size of the quadratic part, which nothing refines away, so that polishing
misses the bottom. -/
def Well.coarse : Settings ℚ := { Well.settings with delta := 1, polishRefineIter := 0 }

namespace Solver

/-- The first run ends at the bottom, which polishing leaves for a point that is refused. -/
theorem Well.refuses : ∃ s₀ stage,
    setup Well.P Well.q Well.A #[] #[] Well.coarse .natural = .ok (.ok s₀) ∧
      (s₀.withPolish true).run .still = .ok stage ∧
      stage.solver.info.polish = .unsuccessful ∧ stage.solver.info.dualRes = 0 ∧
      stage.solver.residuals.dualRes = 1 / 2 := by
  have hfirst : firstRun Well.P Well.q Well.A #[] #[] Well.coarse .natural .still
      (fun s₀ _ => ((s₀.withPolish true).run .still).toOption.any fun stage => decide
        (stage.solver.info.polish = .unsuccessful ∧ stage.solver.info.dualRes = 0 ∧
          stage.solver.residuals.dualRes = 1 / 2)) = true := by
    decide +kernel
  obtain ⟨s₀, -, hsetup, -, htest⟩ := exists_of_firstRun hfirst
  obtain ⟨stage, hrun, htest⟩ := exists_of_toOption_any htest
  exact ⟨s₀, stage, hsetup, hrun, of_decide_eq_true htest⟩

/-- The refused point leaves its residual, and the next two runs are the same. -/
theorem traceless_of_unsuccessful_well : ∃ s₀ stage stage',
    setup Well.P Well.q Well.A #[] #[] Well.coarse .natural = .ok (.ok s₀) ∧
      (s₀.withPolish true).run .still = .ok stage ∧
      (s₀.withPolish false).run .still = .ok stage' ∧
      stage.solver.info.polish = .unsuccessful ∧
      stage.solver.residuals.dualRes = 1 / 2 ∧
      stage'.solver.solution = stage.solver.solution ∧
      stage'.solver.answers [(Well.coarse, .still), (Well.coarse, .still)] =
        stage.solver.answers [(Well.coarse, .still), (Well.coarse, .still)] ∧
      Workspace.Unread s₀.problem s₀.equilibration := by
  obtain ⟨s₀, stage, hsetup, hrun, hrefused, -, hleft⟩ := Well.refuses
  have hclock : s₀.settings.SameTime .still .still := fun _ => rfl
  obtain ⟨hother, hunread⟩ :=
    (traceless_of_unsuccessful hsetup .refl hclock).of_eq_ok hrun hrefused
  obtain ⟨stage', hrun', -, ⟨r, hsolver⟩, hcalls⟩ := hother
  obtain ⟨given, hgiven, hgiven'⟩ := hcalls [(Well.coarse, .still), (Well.coarse, .still)] _
    (.cons ⟨rfl, fun _ => rfl⟩ (.cons ⟨rfl, fun _ => rfl⟩ .nil))
  refine ⟨s₀, stage, stage', hsetup, hrun, hrun', hrefused, hleft, ?_, hgiven'.trans hgiven.symm,
    hunread (by decide +kernel)⟩
  rw [hsolver]
  rfl

end Solver

end SplitQP
