import SplitQP.Proofs.Admm.Faithful
import SplitQP.Proofs.Admm.Runs
/-!
# Convex programs never break down

A solver of a convex program is `Ready`: its data are scaled, its step
sizes positive and its KKT matrix factored for them. That is an invariant
of its runs under which factoring again always succeeds
(`invariant_ready`). So a convex program that is accepted is set up, and
no run of it ever meets a zero pivot (`setup_convex`).
-/

namespace SplitQP

open Checked SplitQP.Dense

namespace Solver

variable {K : Type} [ExactField K]

/-- **Ready to run:** data are those of `p₀`, scaled, and everything fits. -/
structure Ready (p₀ : Problem K) (shift : K) (s : Solver K) : Prop where
  equilibrated : Equilibration.Equilibrated p₀ s.problem s.equilibration
  convex : Kkt.IsConvex s.problem.P s.problem.A shift
  size_rows : s.rows.size = s.problem.m
  stepSizes : s.steps.Sound s.problem.m
  factored : KktSystem.Factored s.problem.P s.problem.A shift s.steps.rhoInv s.kkt
  sized : s.iterate.Sized s.problem.n s.problem.m
  permutes : s.order.Permutes K

variable {p₀ : Problem K} {shift : K} {s s' : Solver K}

theorem Ready.sound (h : Ready p₀ shift s) : s.problem.Sound := h.equilibrated.scales.sound

theorem Ready.size_rhoInv (h : Ready p₀ shift s) : s.steps.rhoInv.size = s.problem.A.nrows :=
  h.stepSizes.size_rhoInv.trans h.sound.nrows_A.symm

/-- **As many positive pivots as variables,** whatever the step sizes are. -/
theorem Ready.positive_eq (h : Ready p₀ shift s) : s.kkt.factors.positive = s.problem.n :=
  (h.factored.positive_eq h.convex h.size_rhoInv h.stepSizes.rhoInv_pos).trans h.sound.ncols_A

theorem Ready.fits (h : Ready p₀ shift s) : Fits shift s where
  sound := h.sound
  scaling := h.equilibrated.fits
  size_rows := h.size_rows
  steps := h.stepSizes.fits
  tracks := h.factored.tracks h.convex h.size_rhoInv
  sized := h.sized

/-! ## A solver stays ready -/

/-- **Any base can be taken,** and the factors found for it. -/
theorem updateRhoInv_ensures (h : Ready p₀ shift s) (rho : K) :
    Ensures (s.kkt.updateRhoInv (StepSizes.ofBase rho s.rows).rhoInv) fun r => r.2 = .ok () ∧
      Ready p₀ shift { s with steps := StepSizes.ofBase rho s.rows, kkt := r.1 } := by
  have hsteps := StepSizes.sound_ofBase rho s.rows
  rw [h.size_rows] at hsteps
  refine (h.factored.updateRhoInv_ensures h.convex h.size_rhoInv
    (hsteps.size_rhoInv.trans h.sound.nrows_A.symm) hsteps.rhoInv_pos).mono ?_
  rintro ⟨kkt, outcome⟩ ⟨hok, hkkt⟩
  exact ⟨hok, { h with stepSizes := hsteps, factored := hkkt }⟩

/-- **Runs keep a solver ready,** and factoring again always succeeds. -/
theorem invariant_ready : Invariant shift (Ready p₀ shift) (· = .ok ()) where
  fits h := h.fits
  sized h _ hv := { h with sized := hv }
  noted h _ _ _ _ := { h with }
  rescaled h rho := updateRhoInv_ensures h rho

theorem ready_of_step (h : Ready p₀ shift s) (hstep : Step s s') : Ready p₀ shift s' :=
  invariant_ready.of_step h hstep

theorem ready_of_moves (h : Ready p₀ shift s) (hmoves : Moves s s') : Ready p₀ shift s' :=
  invariant_ready.of_moves h hmoves

theorem ready_of_steps (h : Ready p₀ shift s) (hsteps : Steps s s') : Ready p₀ shift s' :=
  ready_of_moves h (Steps.moves hsteps)

theorem advance_ensures (h : Ready p₀ shift s) (iter : ℕ) :
    Ensures (s.advance iter) (Ready p₀ shift) := invariant_ready.advance_ensures h iter

/-- **A run answers and does not break off.** -/
theorem run_ensures (h : Ready p₀ shift s) (clock : Clock K) :
    Ensures (s.run clock) fun stage => stage.result = .ok () :=
  (invariant_ready.run_ensures h clock).mono fun _ hstage => hstage.result_eq.choose_spec

/-! ## Setting up -/

/-- What legal settings promise to the arithmetic. -/
structure Legal (set : Settings K) : Prop where
  sigma_pos : 0 < set.sigma
  alpha_pos : 0 < set.alpha
  alpha_lt : set.alpha < 2
  maxIter_pos : 0 < set.maxIter

/-- A field that passes its check is legal. -/
theorem legal_of_check {field : String} {legal : Bool} {u : Unit}
    (h : Settings.check field legal = .ok u) : legal = true := by
  rw [Settings.check] at h
  split at h
  · assumption
  · cases h

theorem legal_of_validate {set : Settings K} (h : set.validate = .ok ()) : Legal set := by
  rw [Settings.validate] at h
  obtain ⟨_, -, h⟩ := bind_eq_ok.mp h
  obtain ⟨_, hsigma, h⟩ := bind_eq_ok.mp h
  obtain ⟨_, halpha, h⟩ := bind_eq_ok.mp h
  obtain ⟨_, -, h⟩ := bind_eq_ok.mp h
  obtain ⟨_, -, h⟩ := bind_eq_ok.mp h
  obtain ⟨_, -, h⟩ := bind_eq_ok.mp h
  obtain ⟨_, -, h⟩ := bind_eq_ok.mp h
  obtain ⟨_, -, h⟩ := bind_eq_ok.mp h
  obtain ⟨_, -, h⟩ := bind_eq_ok.mp h
  obtain ⟨_, hmaxIter, -⟩ := bind_eq_ok.mp h
  have hrelaxes := legal_of_check halpha
  rw [Settings.isRelaxation, Bool.and_eq_true, ExactField.lt_iff, ExactField.lt_iff] at hrelaxes
  have hiter := legal_of_check hmaxIter
  rw [decide_eq_true_iff] at hiter
  have htwo : (2.0 : K) = 2 := by norm_num
  exact ⟨ExactField.lt_iff.mp (legal_of_check hsigma), hrelaxes.1, hrelaxes.2.trans_eq htwo,
    Nat.pos_of_ne_zero hiter⟩

theorem pos_of_validate {set : Settings K} (h : set.validate = .ok ()) :
    0 < set.sigma ∧ 0 < set.maxIter :=
  ⟨(legal_of_validate h).sigma_pos, (legal_of_validate h).maxIter_pos⟩

section Setup

variable {P A : Csc K} {q l u : Array K} {settings : Settings K} {order : EliminationOrder}

/-- Scaling keeps an accepted program convex. -/
theorem isConvex_of_equilibrated {p : Problem K} {eq : Equilibration K}
    (hacc : Problem.Accepted P q A l u p₀) (heq : Equilibration.Equilibrated p₀ p eq)
    (hpsd : IsSemidefinite (P.toSymMatrix q.size)) (hshift : 0 < shift) :
    Kkt.IsConvex p.P p.A shift := by
  have hs := heq.scales
  have hp := hs.sound
  have hn : p₀.n = p.A.ncols := hs.n_eq.symm.trans hp.ncols_A.symm
  refine {
    wellFormed_P := hp.wellFormed_P
    wellFormed_A := hp.wellFormed_A
    square := ⟨hp.nrows_P.trans hp.ncols_A.symm, hp.ncols_P.trans hp.ncols_A.symm⟩
    upper := hp.upper
    semidefinite := hs.isSemidefinite hn ?_
    shift_pos := hshift }
  rw [← hn, hacc.n_eq, hacc.toSymMatrix_P]
  exact hpsd

/-- **An accepted convex program is set up,** ready to run. -/
theorem setup_ensures (hdata : Problem.ofData P q A l u = .ok (.ok p₀))
    (hpsd : IsSemidefinite (P.toSymMatrix q.size)) (hset : settings.validate = .ok ())
    (horder : order.Permutes K) :
    Ensures (setup P q A l u settings order) fun r =>
      ∃ s, r = .ok s ∧ Ready p₀ settings.sigma s := by
  have hacc := Problem.accepted_of_ofData hdata
  rw [setup, hset]
  dsimp only
  rw [hdata]
  simp only [ok_bind]
  refine (Equilibration.equilibrate_ensures hacc.sound settings.scaling).bind ?_
  rintro ⟨p, eq⟩ heq
  dsimp only at heq ⊢
  have hp := heq.scales.sound
  have hconvex := isConvex_of_equilibrated hacc heq hpsd (pos_of_validate hset).1
  have hrows : (StepSizes.kinds p.l p.u).size = p.m := size_zipWith hp.size_l hp.size_u
  have hsteps := StepSizes.sound_ofBase settings.rho (StepSizes.kinds p.l p.u)
  rw [hrows] at hsteps
  refine (KktSystem.setup_ensures hconvex (hsteps.size_rhoInv.trans hp.nrows_A.symm)
    hsteps.rhoInv_pos horder).bind ?_
  rintro r ⟨kkt, rfl, hkkt⟩
  exact .ok ⟨_, rfl, heq, hconvex, hrows, hsteps, hkkt, Iterate.sized_zero _ _, horder⟩

/-- **What is set up is ready to run,** where the program is convex. -/
theorem ready_of_setup {s : Solver K} (h : setup P q A l u settings order = .ok (.ok s))
    (hpsd : IsSemidefinite (P.toSymMatrix q.size)) (horder : order.Permutes K) :
    ∃ p₀, Problem.Accepted P q A l u p₀ ∧ Ready p₀ settings.sigma s := by
  obtain ⟨hset, p₀, hdata, -⟩ := equilibrated_of_setup h
  obtain ⟨r, hr, s', rfl, hready⟩ := setup_ensures hdata hpsd hset horder
  rw [h] at hr
  cases hr
  exact ⟨p₀, Problem.accepted_of_ofData hdata, hready⟩

/-- **Convex programs never break down.** Whatever has become of the solver, the
base step size is in its range and as many pivots are positive as there are
variables; any base can be taken next; and a run, of any length, does not
break off. -/
theorem setup_convex (hdata : Problem.ofData P q A l u = .ok (.ok p₀))
    (hpsd : IsSemidefinite (P.toSymMatrix q.size)) (hset : settings.validate = .ok ())
    (horder : order.Permutes K) :
    ∃ s₀, setup P q A l u settings order = .ok (.ok s₀) ∧ ∀ s, Moves s₀ s →
      (1e-6 ≤ s.steps.base ∧ s.steps.base ≤ 1e6) ∧ s.kkt.factors.positive = q.size ∧
      (∀ rho, Ensures (s.kkt.updateRhoInv (StepSizes.ofBase rho s.rows).rhoInv) fun r =>
        r.2 = .ok () ∧ r.1.factors.positive = q.size) ∧
      ∀ clock, Ensures (s.run clock) fun stage =>
        stage.result = .ok () ∧ Moves s stage.solver := by
  obtain ⟨r, hr, s₀, rfl, hready₀⟩ := setup_ensures hdata hpsd hset horder
  refine ⟨s₀, hr, fun s hmoves => ?_⟩
  have hready := ready_of_moves hready₀ hmoves
  have hn : s.problem.n = q.size :=
    hready.equilibrated.scales.n_eq.trans (Problem.accepted_of_ofData hdata).n_eq
  refine ⟨⟨hready.stepSizes.base_ge, hready.stepSizes.base_le⟩, hready.positive_eq.trans hn,
    fun rho => ?_, fun clock => ?_⟩
  · refine (updateRhoInv_ensures hready rho).mono ?_
    rintro ⟨kkt, outcome⟩ ⟨hok, hnext⟩
    exact ⟨hok, hnext.positive_eq.trans hn⟩
  · obtain ⟨stage, hrun, hok⟩ := run_ensures hready clock
    exact ⟨stage, hrun, hok, (ran_of_run hrun).moves⟩

end Setup

/-! ## A bowl with one constraint -/

namespace Bowl

/-- `[4, 1; 1, 2]`, by its upper triangle. -/
def P : Csc ℚ := ⟨2, 2, #[0, 1, 3], #[0, 0, 1], #[4, 1, 2]⟩

def q : Array ℚ := #[1, 1]

/-- `x₀ + x₁`. -/
def A : Csc ℚ := ⟨1, 2, #[0, 1, 2], #[0, 0], #[1, 1]⟩

/-- Both bounds. -/
def b : Array ℚ := #[1]

theorem accepted : ∃ p₀, Problem.ofData P q A b b = .ok (.ok p₀) := by
  have hok : ((Problem.ofData P q A b b).toOption.bind Except.toOption).isSome = true := by
    decide +kernel
  generalize Problem.ofData P q A b b = r at hok
  obtain _ | _ | p₀ := r
  · cases hok
  · cases hok
  · exact ⟨p₀, rfl⟩

theorem isSemidefinite : IsSemidefinite (P.toSymMatrix 2) := by
  have hrow₀ : P.toSymMatrix 2 0 0 = 4 ∧ P.toSymMatrix 2 0 1 = 1 := by decide +kernel
  have hrow₁ : P.toSymMatrix 2 1 0 = 1 ∧ P.toSymMatrix 2 1 1 = 2 := by decide +kernel
  intro v
  simp only [Matrix.mulVec, dotProduct, Fin.sum_univ_two, hrow₀, hrow₁]
  have hsum : v 0 * (4 * v 0 + 1 * v 1) + v 1 * (1 * v 0 + 2 * v 1) =
      (v 0 + v 1) ^ 2 + 3 * v 0 ^ 2 + v 1 ^ 2 := by ring
  rw [hsum]
  positivity

end Bowl

theorem permutes_natural {K : Type} : EliminationOrder.natural.Permutes K := by
  intro A hA _
  have hzero : A.colStart[0]? = some 0 :=
    (Csc.start_eq_iff (by rw [hA.size_colStart]; omega)).mpr hA.start_zero
  refine ⟨Array.range A.ncols, ?_, ?_⟩
  · rw [EliminationOrder.choose, if_pos (.inr hzero)]
  · rw [IsOrder, Array.toList_range]

/-- Eliminates the last index first. -/
def lastFirst : EliminationOrder := .found fun n _ _ => some (Array.range n).reverse

theorem permutes_lastFirst {K : Type} : lastFirst.Permutes K := by
  intro A _ _
  refine ⟨(Array.range A.ncols).reverse, ?_, ?_⟩
  · by_cases hn : A.ncols = 0
    · rw [lastFirst, EliminationOrder.choose, if_pos hn, hn]
      rfl
    · rw [lastFirst, EliminationOrder.choose, if_neg hn]
  · rw [IsOrder, Array.toList_reverse, Array.toList_range]
    exact List.reverse_perm _

theorem setup_convex_bowl : ∃ s₀,
    setup Bowl.P Bowl.q Bowl.A Bowl.b Bowl.b .default lastFirst = .ok (.ok s₀) ∧
      s₀.kkt.factors.positive = 2 ∧
      ∀ clock, ∃ stage, s₀.run clock = .ok stage ∧ stage.result = .ok () := by
  obtain ⟨p₀, hdata⟩ := Bowl.accepted
  have hset : (Settings.default : Settings ℚ).validate = .ok () := by decide +kernel
  obtain ⟨s₀, hs₀, hall⟩ := setup_convex hdata Bowl.isSemidefinite hset permutes_lastFirst
  obtain ⟨-, hpos, -, hrun⟩ := hall s₀ .refl
  refine ⟨s₀, hs₀, hpos, fun clock => ?_⟩
  obtain ⟨stage, hstage, hok, -⟩ := hrun clock
  exact ⟨stage, hstage, hok⟩

end Solver

end SplitQP
