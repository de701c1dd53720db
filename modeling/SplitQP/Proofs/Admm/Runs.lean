import SplitQP.Proofs.Admm.Report
import SplitQP.Proofs.Admm.Polish
import SplitQP.Proofs.Admm.Moves
/-!
# Runs answer

The parts of a solver that has been set up fit together (`Fits`), and
every stage of a run answers for it, whatever the arithmetic. An
`Invariant` is what runs keep of such a solver: it does not depend on the
iterate, on reports or on settings, and survives a change of the step
size. It then holds after every number of moves (`Invariant.of_moves`) and
at the end of every run (`Invariant.run_ensures`). `Fits` is one itself
(`invariant_fits`).
-/

namespace SplitQP

open Checked SplitQP.Dense

namespace Solver

variable {α : Type} [Scalar α] {shift : α} {s s' : Solver α}

/-- **The parts of a solver fit together.** The KKT system was set up with
`shift` and holds the current step sizes. -/
structure Fits (shift : α) (s : Solver α) : Prop where
  sound : s.problem.Sound
  scaling : s.equilibration.Fits s.problem.n s.problem.m
  size_rows : s.rows.size = s.problem.m
  steps : s.steps.Fits s.problem.m
  tracks : KktSystem.Tracks s.problem.P s.problem.A shift s.steps.rhoInv s.kkt
  sized : s.iterate.Sized s.problem.n s.problem.m

namespace Fits

theorem size_rhoInv (h : Fits shift s) : s.steps.rhoInv.size = s.problem.A.nrows :=
  h.steps.size_rhoInv.trans h.sound.nrows_A.symm

/-! ## The stages -/

/-- An iteration changes the iterate. -/
theorem advance_ensures (h : Fits shift s) (iter : ℕ) : Ensures (s.advance iter) fun s' =>
    ∃ v, v.Sized s.problem.n s.problem.m ∧
      s' = { s with iterate := v, info := { s.info with iterations := iter } } := by
  rw [advance]
  refine (Iterate.step_ensures_advance h.sound h.steps h.sized h.tracks _ _).bind ?_
  rintro v ⟨xt, zt, hx, hz, rfl⟩
  exact .ok ⟨_, Iterate.sized_advance h.sound h.steps h.sized _ xt hz hx, rfl⟩

/-- **Any base can be tried,** and the system then holds the step sizes for it. -/
theorem updateRhoInv_ensures (h : Fits shift s) (rho : α) :
    Ensures (s.kkt.updateRhoInv (StepSizes.ofBase rho s.rows).rhoInv) fun r =>
      Fits shift { s with steps := StepSizes.ofBase rho s.rows, kkt := r.1 } ∧
      ((r.2 = .ok () ∧ Ldl.Stored r.1.factors) ∨
        ∃ j, r.2 = .error (.zeroPivot j) ∧ Ldl.FirstZero r.1.factors j) := by
  have hsteps := StepSizes.fits_ofBase rho s.rows
  rw [h.size_rows] at hsteps
  refine (h.tracks.updateRhoInv_ensures h.sound.shape h.size_rhoInv
    (hsteps.size_rhoInv.trans h.sound.nrows_A.symm)).mono ?_
  rintro ⟨kkt, outcome⟩ ⟨htracks, hcase⟩
  exact ⟨{ h with steps := hsteps, tracks := htracks }, hcase⟩

theorem atPoint_ensures (h : Fits shift s) : Ensures (Residuals.atPoint s.problem s.equilibration
    s.iterate.x s.iterate.z s.iterate.y) fun _ => True :=
  Residuals.atPoint_ensures_size h.sound h.scaling h.sized.size_x h.sized.size_z h.sized.size_y

/-- Looking at the residuals changes what is noted. -/
theorem updateResiduals_ensures (h : Fits shift s) : Ensures s.updateResiduals fun s' =>
    ∃ r info, s' = { s with residuals := r, info := info } := by
  rw [updateResiduals]
  exact h.atPoint_ensures.bind fun r _ => .ok ⟨r, _, rfl⟩

theorem verdict_ensures (h : Fits shift s) (scale : α) :
    Ensures (s.verdict scale) fun _ => True := by
  have hprim := Infeasibility.isPrimal_ensures h.sound h.scaling h.sized.size_deltaY
    (s.settings.epsPrimInf * scale)
  have hdual := Infeasibility.isDual_ensures h.sound h.scaling h.sized.size_deltaX
    (s.settings.epsDualInf * scale)
  have hlast : ∀ dualOk : Bool, Ensures (do
      if !dualOk then
        if ← Infeasibility.isDual s.problem s.equilibration s.iterate.deltaX
            (s.settings.epsDualInf * scale) then
          return some .dualInfeasible
      return none : Checked (Option SolverStatus)) fun _ => True := by
    intro dualOk
    cases dualOk with
    | true => exact .ok trivial
    | false =>
      refine hdual.bind fun found _ => ?_
      cases found <;> exact .ok trivial
  rw [verdict]
  dsimp only
  split
  · exact .ok trivial
  split
  · refine hprim.bind fun found _ => ?_
    cases found with
    | true => exact .ok trivial
    | false => exact hlast _
  · exact hlast _

/-- A check changes what is noted. -/
theorem checkTermination_ensures (h : Fits shift s) (approximate : Bool) :
    Ensures (s.checkTermination approximate) fun r => ∀ s', r = some s' →
      ∃ info, s' = { s with info := info } := by
  rw [checkTermination]
  refine (h.verdict_ensures _).bind fun found _ => ?_
  cases found with
  | none => exact .ok fun s' hs' => by cases hs'
  | some status =>
    refine .ok fun s' hs' => ?_
    cases hs'
    exact ⟨_, rfl⟩

/-- Polishing changes the iterate and what is noted. -/
theorem polish_ensures (h : Fits shift s) : Ensures s.polish fun r =>
    ∃ v res info, v.Sized s.problem.n s.problem.m ∧
      r.1 = { s with iterate := v, residuals := res, info := info } := by
  rw [polish]
  refine (Polish.run_ensures h.sound h.scaling h.sized _ _ _ _ _).bind ?_
  rintro (e | ⟨x, z, y, r, improved⟩) hpoint
  · exact .ok ⟨s.iterate, s.residuals, _, h.sized, rfl⟩
  · obtain ⟨hx, hz, hy, -⟩ := hpoint
    cases improved with
    | false => exact .ok ⟨s.iterate, r, _, h.sized, rfl⟩
    | true =>
      dsimp only
      rw [if_pos rfl, copyTo_eq_ok (h.sized.size_x.trans hx.symm), ok_bind,
        copyTo_eq_ok (h.sized.size_z.trans hz.symm), ok_bind,
        copyTo_eq_ok (h.sized.size_y.trans hy.symm), ok_bind]
      have hv : ({ s.iterate with x := x, z := z, y := y } : Iterate α).Sized s.problem.n
          s.problem.m := { h.sized with size_x := hx, size_z := hz, size_y := hy }
      exact .ok ⟨_, r, _, hv, rfl⟩

theorem conclude_ensures (h : Fits shift s) : Ensures s.conclude fun _ => True := by
  rw [conclude]
  exact (Solution.ofIterate_ensures h.scaling h.sized s.info).bind fun sol _ => .ok trivial

end Fits

/-! ## Invariants -/

/-- **What runs keep of a solver whose parts fit.** Factoring again ends as `Q`
says. -/
structure Invariant (shift : α) (I : Solver α → Prop) (Q : Except LdlError Unit → Prop) :
    Prop where
  fits : ∀ {s}, I s → Fits shift s
  sized : ∀ {s}, I s → ∀ {v}, v.Sized s.problem.n s.problem.m → I { s with iterate := v }
  noted : ∀ {s}, I s → ∀ r info sol set,
    I { s with residuals := r, info := info, solution := sol, settings := set }
  rescaled : ∀ {s}, I s → ∀ rho,
    Ensures (s.kkt.updateRhoInv (StepSizes.ofBase rho s.rows).rhoInv) fun r =>
      Q r.2 ∧ I { s with steps := StepSizes.ofBase rho s.rows, kkt := r.1 }

/-- **A stage ends with the invariant,** and breaks off only as `Q` says. -/
structure Ends {β : Type} (I : Solver α → Prop) (Q : Except LdlError Unit → Prop)
    (stage : Stage α β) : Prop where
  kept : I stage.solver
  broken : ∀ e, stage.result = .error (.refactor e) → Q (.error e)

section Ends

omit [Scalar α]

variable {β : Type} {I : Solver α → Prop} {stage : Stage α β}

theorem Ends.of_eq_ok {Q : Except LdlError Unit → Prop} {b : β} (hok : stage.result = .ok b)
    (h : I stage.solver) : Ends I Q stage :=
  ⟨h, fun e he => by rw [hok] at he; cases he⟩

/-- A stage does not break off where factoring again succeeds. -/
theorem Ends.result_eq
    (h : Ends I (· = .ok ()) stage) : ∃ b, stage.result = .ok b := by
  cases hresult : stage.result with
  | ok b => exact ⟨b, rfl⟩
  | error e =>
    obtain ⟨e⟩ := e
    cases h.broken e hresult

end Ends

namespace Invariant

variable {I : Solver α → Prop} {Q : Except LdlError Unit → Prop} (hI : Invariant shift I Q)

include hI

theorem advance_ensures (h : I s) (iter : ℕ) : Ensures (s.advance iter) I := by
  refine ((hI.fits h).advance_ensures iter).mono ?_
  rintro s' ⟨v, hv, rfl⟩
  exact hI.noted (hI.sized h hv) s.residuals _ s.solution s.settings

theorem polish_ensures (h : I s) : Ensures s.polish fun r => I r.1 := by
  refine (hI.fits h).polish_ensures.mono ?_
  rintro ⟨s', events⟩ ⟨v, r, info, hv, rfl⟩
  exact hI.noted (hI.sized h hv) r info s.solution s.settings

/-- **A step keeps the invariant.** -/
theorem of_step (h : I s) (hstep : Step s s') : I s' := by
  cases hstep with
  | advanced hadv => exact (hI.advance_ensures h _).of_eq_ok hadv
  | rescaled hkkt => exact ((hI.rescaled h _).of_eq_ok hkkt).2
  | noted r info sol set => exact hI.noted h r info sol set

/-- **So does any number of moves.** -/
theorem of_moves (h : I s) (hmoves : Moves s s') : I s' := by
  induction hmoves with
  | refl => exact h
  | tail _ hmove ih =>
    cases hmove with
    | step hstep => exact hI.of_step ih hstep
    | polished hpolish => exact (hI.polish_ensures ih).of_eq_ok hpolish

theorem updateResiduals_ensures (h : I s) : Ensures s.updateResiduals I := by
  refine (hI.fits h).updateResiduals_ensures.mono ?_
  rintro s' ⟨r, info, rfl⟩
  exact hI.noted h r info s.solution s.settings

theorem refresh_ensures (h : I s) (needed : Bool) : Ensures (s.refresh needed) I := by
  cases needed with
  | true => exact hI.updateResiduals_ensures h
  | false => exact .ok h

theorem checkTermination_ensures (h : I s) (approximate : Bool) :
    Ensures (s.checkTermination approximate) fun r => ∀ s', r = some s' → I s' := by
  refine ((hI.fits h).checkTermination_ensures approximate).mono fun r hr s' hs' => ?_
  obtain ⟨info, rfl⟩ := hr s' hs'
  exact hI.noted h s.residuals info s.solution s.settings

theorem checkIfDue_ensures (h : I s) (due : Bool) :
    Ensures (s.checkIfDue due) fun r => ∀ s', r = some s' → I s' := by
  cases due with
  | true => exact hI.checkTermination_ensures h false
  | false => exact .ok fun s' hs' => by cases hs'

theorem adaptRho_ensures (h : I s) : Ensures s.adaptRho (Ends I Q) := by
  have hestimate : I { s with info := { s.info with
      rhoEstimate := s.residuals.rhoEstimate s.steps.base } } :=
    hI.noted h s.residuals _ s.solution s.settings
  rw [adaptRho]
  dsimp only
  split
  · refine (hI.rescaled hestimate _).bind ?_
    rintro ⟨kkt, outcome⟩ ⟨hQ, hkept⟩
    cases outcome with
    | error e =>
      refine .ok ⟨hkept, fun e' he' => ?_⟩
      cases he'
      exact hQ
    | ok => exact .ok (.of_eq_ok rfl (hI.noted hkept s.residuals _ s.solution s.settings))
  · exact .ok (.of_eq_ok rfl hestimate)

theorem adaptIfDue_ensures (h : I s) (due : Bool) : Ensures (s.adaptIfDue due) (Ends I Q) := by
  cases due with
  | true => exact hI.adaptRho_ensures h
  | false => exact .ok (.of_eq_ok rfl h)

theorem ends_goOn {clock : Clock α} {iter : ℕ} {told : List (Event α)} {stage : Stage α Unit}
    (h : Ends I Q stage) : Ends I Q (goOn clock iter told stage) := by
  rw [goOn]
  cases hresult : stage.result with
  | error e =>
    refine ⟨h.kept, fun e' he' => ?_⟩
    cases he'
    exact h.broken e' hresult
  | ok =>
    dsimp only
    split
    · exact .of_eq_ok rfl
        (hI.noted h.kept stage.solver.residuals _ stage.solver.solution stage.solver.settings)
    · exact .of_eq_ok rfl h.kept

/-- **An iteration answers** with its checks. -/
theorem iteration_ensures (h : I s) (clock : Clock α) (iter : ℕ) :
    Ensures (s.iteration clock iter) (Ends I Q) := by
  rw [iteration]
  refine (hI.advance_ensures h iter).bind fun s₁ h₁ => ?_
  refine (hI.refresh_ensures h₁ _).bind fun s₂ h₂ => ?_
  refine (hI.checkIfDue_ensures h₂ _).bind fun found hfound => ?_
  cases found with
  | some s₃ => exact .ok (.of_eq_ok rfl (hfound s₃ rfl))
  | none => exact (hI.adaptIfDue_ensures h₂ _).bind fun stage hstage => .ok (hI.ends_goOn hstage)

theorem lastCheck_ensures (h : I s) : Ensures s.lastCheck (Ends I Q) := by
  rw [lastCheck]
  refine (hI.updateResiduals_ensures h).bind fun s₁ h₁ => ?_
  refine (hI.checkTermination_ensures h₁ false).bind fun found hfound => ?_
  cases found with
  | some s₂ => exact .ok (.of_eq_ok rfl (hfound s₂ rfl))
  | none =>
    refine (hI.checkTermination_ensures h₁ true).bind fun found hfound => ?_
    cases found with
    | some s₂ => exact .ok (.of_eq_ok rfl (hfound s₂ rfl))
    | none =>
      exact .ok (.of_eq_ok rfl (hI.noted h₁ s₁.residuals _ s₁.solution s₁.settings))

/-- **Any number of iterations answers.** -/
theorem iterations_ensures (h : I s) (clock : Clock α) (count iter : ℕ) (told : List (Event α)) :
    Ensures (iterations clock count iter told s) (Ends I Q) := by
  induction count generalizing iter told s with
  | zero =>
    rw [iterations]
    exact (hI.lastCheck_ensures h).bind fun stage hstage => .ok ⟨hstage.kept, hstage.broken⟩
  | succ count ih =>
    rw [iterations]
    refine (hI.iteration_ensures h clock iter).bind fun stage hstage => ?_
    dsimp only
    cases hresult : stage.result with
    | error e =>
      refine .ok ⟨hstage.kept, fun e' he' => ?_⟩
      cases he'
      exact hstage.broken e' hresult
    | ok goes =>
      cases goes with
      | false => exact .ok (.of_eq_ok rfl hstage.kept)
      | true => exact ih hstage.kept (iter + 1) _

theorem search_ensures (h : I s) (clock : Clock α) : Ensures (s.search clock) (Ends I Q) := by
  rw [search]
  split
  · exact .ok (.of_eq_ok rfl (hI.noted h s.residuals _ s.solution s.settings))
  · exact hI.iterations_ensures h clock _ _ _

/-- **A run answers,** and keeps the invariant. -/
theorem run_ensures (h : I s) (clock : Clock α) : Ensures (s.run clock) (Ends I Q) := by
  rw [run]
  refine (hI.search_ensures (hI.noted h s.residuals s.info.restart s.solution s.settings)
    clock).bind fun stage hstage => ?_
  have hpolish : Ensures (polishIfWanted stage) fun r => I r.1 := by
    rw [polishIfWanted]
    split
    · exact hI.polish_ensures hstage.kept
    · exact .ok hstage.kept
  refine hpolish.bind ?_
  rintro ⟨s₂, polishing⟩ h₂
  dsimp only at h₂ ⊢
  -- what is reported is not read again, so any solution keeps the invariant
  obtain ⟨s₃, hconclude, -⟩ := (hI.fits h₂).conclude_ensures
  obtain ⟨sol, -, rfl⟩ := conclude_eq_ok hconclude
  rw [hconclude]
  exact .ok ⟨hI.noted h₂ s₂.residuals s₂.info _ s₂.settings, hstage.broken⟩

end Invariant

/-- **That the parts fit is kept,** however factoring again ends. -/
theorem invariant_fits : Invariant shift (Fits shift) fun _ => True where
  fits h := h
  sized h _ hv := { h with sized := hv }
  noted h _ _ _ _ := { h with }
  rescaled h rho := (h.updateRhoInv_ensures rho).mono fun _ hr => ⟨trivial, hr.1⟩

/-- **The solution reported** has the lengths of the program. -/
theorem Fits.sized_solution (h : Fits shift s) {clock : Clock α} {stage : Stage α Unit}
    (hrun : s.run clock = .ok stage) :
    stage.solver.solution.Sized s.problem.n s.problem.m := by
  have hstage : Fits shift stage.solver :=
    ((invariant_fits.run_ensures h clock).of_eq_ok hrun).kept
  have hran := ran_of_run hrun
  obtain ⟨sol, hsol, hreported⟩ := hran.solution
  have hsized := (Solution.ofIterate_ensures hstage.scaling hstage.sized _).of_eq_ok hsol
  rw [← (problem_of_moves hran.moves).1, hreported]
  split
  · exact { hsized with }
  · exact hsized

/-! ## Setting up -/

section Setup

variable {P A : Csc α} {q l u : Array α} {settings : Settings α} {order : EliminationOrder}

/-- What a solver starts from: factors for the step sizes that the settings ask
for. -/
structure Starts (settings : Settings α) (s : Solver α) : Prop where
  fits : Fits settings.sigma s
  stored : Ldl.Stored s.kkt.factors
  steps_eq : s.steps = StepSizes.ofBase settings.rho s.rows
  settings_eq : s.settings = settings

/-- **Setting up faults only for want of room.** What is set up fits together. -/
theorem setup_ensures_starts (hP : P.rowIndex.size ≤ maxEntries)
    (hA : A.rowIndex.size ≤ maxEntries) (q l u : Array α) (settings : Settings α)
    (order : EliminationOrder) :
    Ensures (setup P q A l u settings order) fun r => ∀ s, r = .ok s →
      Starts settings s ∧ s.problem.n = A.ncols ∧ s.problem.m = A.nrows := by
  rw [setup]
  cases settings.validate with
  | error e => exact .ok fun s hs => by cases hs
  | ok u' =>
    dsimp only
    refine (Problem.ofData_ensures hP hA).bind ?_
    rintro (e | p₀) hp₀
    · exact .ok fun s hs => by cases hs
    dsimp only
    have hacc := hp₀ p₀ rfl
    refine (Equilibration.equilibrate_ensures_fits hacc.sound settings.scaling).bind ?_
    rintro ⟨p, eq⟩ ⟨hp, hn, hm, heq⟩
    dsimp only at hp hn hm heq ⊢
    rw [← hn, ← hm] at heq
    have hrows : (StepSizes.kinds p.l p.u).size = p.m := size_zipWith hp.size_l hp.size_u
    have hsteps := StepSizes.fits_ofBase settings.rho (StepSizes.kinds p.l p.u)
    rw [hrows] at hsteps
    refine (KktSystem.setup_ensures_tracks hp.shape (hsteps.size_rhoInv.trans hp.nrows_A.symm)
      order).bind ?_
    rintro (e | kkt) hkkt
    · exact .ok fun s hs => by cases hs
    · refine .ok fun s hs => ?_
      cases hs
      obtain ⟨htracks, hstored⟩ := hkkt kkt rfl
      exact ⟨⟨⟨hp, heq, hrows, hsteps, htracks, Iterate.sized_zero _ _⟩, hstored, rfl, rfl⟩,
        hn.trans (hacc.n_eq.trans hacc.shape.2.symm), hm.trans (hacc.m_eq.trans hacc.shape.1.symm)⟩

/-- Setting up accepts the data first. -/
theorem ofData_of_setup {s : Solver α} (h : setup P q A l u settings order = .ok (.ok s)) :
    settings.validate = .ok () ∧ ∃ p, Problem.ofData P q A l u = .ok (.ok p) := by
  rw [setup] at h
  split at h
  · cases h
  · obtain ⟨r, hdata, h⟩ := bind_eq_ok.mp h
    cases r with
    | error e => cases h
    | ok p => exact ⟨‹_›, p, hdata⟩

/-- **What is set up** starts at the sizes of the constraint matrix. -/
theorem sizes_of_setup {s : Solver α} (h : setup P q A l u settings order = .ok (.ok s)) :
    Starts settings s ∧ s.problem.n = A.ncols ∧ s.problem.m = A.nrows := by
  obtain ⟨-, p, hdata⟩ := ofData_of_setup h
  obtain ⟨hP, hA⟩ := Problem.room_of_ofData hdata
  exact (setup_ensures_starts hP hA q l u settings order).of_eq_ok h s rfl

/-- **What is set up fits together.** -/
theorem starts_of_setup {s : Solver α} (h : setup P q A l u settings order = .ok (.ok s)) :
    Starts settings s := (sizes_of_setup h).1

/-- **Nothing but a lack of room** keeps a solver from being set up or refused. -/
theorem setup_eq_error {f : Fault} (h : setup P q A l u settings order = .error f) :
    f = .capacity ∧ (maxEntries < P.rowIndex.size ∨ maxEntries < A.rowIndex.size) := by
  by_cases hroom : P.rowIndex.size ≤ maxEntries ∧ A.rowIndex.size ≤ maxEntries
  · obtain ⟨r, hr, -⟩ := setup_ensures_starts hroom.1 hroom.2 q l u settings order
    rw [h] at hr
    cases hr
  rw [setup] at h
  split at h
  · cases h
  · cases hdata : Problem.ofData P q A l u with
    | error f' =>
      rw [hdata] at h
      cases h
      exact Problem.ofData_eq_error hdata
    | ok r =>
      cases r with
      | error e =>
        rw [hdata] at h
        cases h
      | ok p => exact absurd (Problem.room_of_ofData hdata) hroom

end Setup

end Solver

end SplitQP
