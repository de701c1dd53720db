import SplitQP.Proofs.Factor.Afresh
import SplitQP.Proofs.Admm.Solver
/-!
# The matrix that iterations solve with

The factors a solver holds were written for the step sizes it holds, which
belong to one base, and for the `sigma` it was set up with (`Consistent`).
Runs keep this, whatever the arithmetic and however factoring again ends:
the factors are the ones that factoring the KKT matrix afresh would give,
unless that matrix has none (`Consistent.holds_or_lacks`). An iteration,
though, reads `sigma` from the settings as they are. It solves the system
it means to exactly where that number makes the same matrix
(`Consistent.holdsFactors_iff`), which in exact arithmetic is where it is
still the one from setting up (`Fits.assembled_eq_iff`).
-/

namespace SplitQP

open Checked SplitQP.Dense

namespace Solver

/-! ## Whatever the arithmetic -/

section Generic

variable {α : Type} [Scalar α] {shift shift' : α} {s : Solver α}

/-- What is assembled for `shift` and the step sizes held. -/
def assembled (shift : α) (s : Solver α) : Checked (Csc α × Array ℕ) :=
  Kkt.assemble s.problem.P s.problem.A shift s.steps.rhoInv

/-- **The factors held are those of the KKT matrix** for `shift` and the step sizes
held: factoring it afresh, in the order found when setting up, gives them. -/
def HoldsFactors (shift : α) (s : Solver α) : Prop :=
  ∃ M, s.assembled shift = .ok (M, s.kkt.positions) ∧
    Ldl.factor M (.given s.kkt.factors.perm) = .ok (.ok s.kkt.factors)

/-- **That matrix has no factors** in this order. -/
def LacksFactors (shift : α) (s : Solver α) : Prop :=
  ∃ M k, s.assembled shift = .ok (M, s.kkt.positions) ∧
    Ldl.factor M (.given s.kkt.factors.perm) = .ok (.error (.zeroPivot k))

theorem HoldsFactors.not_lacks (h : s.HoldsFactors shift) : ¬ s.LacksFactors shift := by
  obtain ⟨M, hM, hfactor⟩ := h
  rintro ⟨M', k, hM', hzero⟩
  rw [hM] at hM'
  cases hM'
  rw [hfactor] at hzero
  cases hzero

/-- **What a solver keeps of its factors:** they fit, its step sizes are those for
one base, and factoring ended as it does. -/
structure Consistent (shift : α) (s : Solver α) : Prop where
  fits : Fits shift s
  steps_eq : ∃ base, s.steps = .ofBase base s.rows
  ended : Ldl.Stored s.kkt.factors ∨ ∃ k, Ldl.FirstZero s.kkt.factors k

theorem Fits.length_rhoInv (h : Fits shift s) :
    s.steps.rhoInv.toList.length = s.problem.A.nrows := by
  rw [Array.length_toList, h.size_rhoInv]

/-- What assembling answers, for any shift. -/
theorem Fits.assembled_eq (h : Fits shift s) (shift' : α) : s.assembled shift' =
    .ok (Kkt.matrix s.problem.P s.problem.A shift' s.steps.rhoInv.toList, s.kkt.positions) := by
  have hs := h.sound.shape
  have hd := h.length_rhoInv
  rw [assembled, Kkt.assemble_eq_ok hs.wellFormed_P hs.wellFormed_A hs.square h.size_rhoInv,
    h.tracks.positions_eq, Kkt.lowerPositions, Kkt.lowerPositions]
  simp only [Csc.start, (Kkt.samePattern_matrix hd hd shift shift').colStart_eq]

/-- Factoring the tracked matrix afresh. -/
theorem Fits.factor_eq (h : Fits shift s) :
    (Ldl.Stored s.kkt.factors → s.HoldsFactors shift) ∧
      ∀ k, Ldl.FirstZero s.kkt.factors k → s.LacksFactors shift := by
  have hs := h.sound.shape
  have hd := h.length_rhoInv
  obtain ⟨inv, hinv⟩ := h.tracks.analyses
  obtain ⟨hstored, hzero⟩ := Ldl.factor_given_eq
    (Kkt.isUpperTriangular_matrix hs.square hd hs.upper) (Kkt.hasDiagonal_matrix hs.square hd) hinv
  exact ⟨fun hk => ⟨_, h.assembled_eq shift, hstored hk⟩,
    fun k hk => ⟨_, k, h.assembled_eq shift, hzero k hk⟩⟩

/-- **The factors are those of the current KKT matrix,** or it has none. -/
theorem Consistent.holds_or_lacks (h : Consistent shift s) :
    s.HoldsFactors shift ∨ s.LacksFactors shift := by
  obtain hstored | ⟨k, hk⟩ := h.ended
  · exact .inl (h.fits.factor_eq.1 hstored)
  · exact .inr (h.fits.factor_eq.2 k hk)

/-- Factors that are held are those of an analysis. -/
theorem HoldsFactors.analyses (h : s.HoldsFactors shift') (hfits : Fits shift s) :
    ∃ inv, Ldl.Analyses (Kkt.matrix s.problem.P s.problem.A shift' s.steps.rhoInv.toList) inv
      s.kkt.factors ∧ Ldl.Stored s.kkt.factors := by
  have hs := hfits.sound.shape
  have hd := hfits.length_rhoInv
  obtain ⟨M, hM, hfactor⟩ := h
  rw [hfits.assembled_eq] at hM
  cases hM
  exact Ldl.stored_of_factor (Kkt.wellFormed_matrix hs.square hd hs.wellFormed_P)
    (Kkt.ncols_matrix hs.square hd).symm hfactor

/-- **One set of factors, one matrix.** -/
theorem HoldsFactors.assembled_eq (h : s.HoldsFactors shift') (hfits : Fits shift s) :
    s.assembled shift' = s.assembled shift := by
  have hd := hfits.length_rhoInv
  obtain ⟨inv', hinv', -⟩ := h.analyses hfits
  obtain ⟨inv, hinv⟩ := hfits.tracks.analyses
  rw [hfits.assembled_eq, hfits.assembled_eq,
    hinv.eq_of_samePattern hinv' (Kkt.samePattern_matrix hd hd shift shift')]

/-- **Which shifts the factors are for:** those that make the matrix that is tracked,
where it has factors. -/
theorem Consistent.holdsFactors_iff (h : Consistent shift s) (shift' : α) :
    s.HoldsFactors shift' ↔
      s.assembled shift' = s.assembled shift ∧ ¬ s.LacksFactors shift := by
  have hsame : s.HoldsFactors shift ↔ ¬ s.LacksFactors shift :=
    ⟨HoldsFactors.not_lacks, h.holds_or_lacks.resolve_right⟩
  rw [← hsame]
  constructor
  · intro hholds
    have heq := hholds.assembled_eq h.fits
    rw [HoldsFactors, heq] at hholds
    exact ⟨heq, hholds⟩
  · rintro ⟨heq, hholds⟩
    rwa [HoldsFactors, heq]

/-- **Runs keep this,** however factoring again ends. -/
theorem invariant_consistent : Invariant shift (Consistent shift) fun _ => True where
  fits h := h.fits
  sized h _ hv := { h with fits := { h.fits with sized := hv } }
  noted h _ _ _ _ := { h with fits := { h.fits with } }
  rescaled h rho := (h.fits.updateRhoInv_ensures rho).mono fun _ hr => by
    obtain ⟨hfits, hcase⟩ := hr
    refine ⟨trivial, hfits, ⟨rho, rfl⟩, ?_⟩
    obtain ⟨-, hstored⟩ | ⟨k, -, hk⟩ := hcase
    · exact .inl hstored
    · exact .inr ⟨k, hk⟩

theorem Starts.consistent {settings : Settings α} (h : Starts settings s) :
    Consistent settings.sigma s :=
  ⟨h.fits, ⟨_, h.steps_eq⟩, .inl h.stored⟩

end Generic

/-! ## In exact arithmetic -/

variable {K : Type} [ExactField K] {shift shift' : K} {s : Solver K}

/-- Step sizes for one base are positive. -/
theorem Consistent.sound_steps (h : Consistent shift s) : s.steps.Sound s.problem.m := by
  obtain ⟨base, hsteps⟩ := h.steps_eq
  rw [hsteps, ← h.fits.size_rows]
  exact StepSizes.sound_ofBase base s.rows

/-- **The factors held factor the KKT matrix,** block by block. -/
def Factored (shift : K) (s : Solver K) : Prop :=
  ∃ M, s.assembled shift = .ok (M, s.kkt.positions) ∧
    (M.toSymMatrix (s.problem.A.ncols + s.problem.A.nrows)).submatrix finSumFinEquiv
      finSumFinEquiv = Matrix.fromBlocks
        (s.problem.P.toSymMatrix s.problem.A.ncols + shift • 1)
        (s.problem.A.toMatrix s.problem.A.nrows s.problem.A.ncols).transpose
        (s.problem.A.toMatrix s.problem.A.nrows s.problem.A.ncols)
        (-Matrix.diagonal (vec s.problem.A.nrows s.steps.rhoInv)) ∧
    Ldl.IsFactorisation M s.kkt.factors.perm s.kkt.factors

theorem HoldsFactors.factored (h : s.HoldsFactors shift') (hfits : Fits shift s) :
    s.Factored shift' := by
  have hs := hfits.sound.shape
  have hd := hfits.length_rhoInv
  obtain ⟨inv, hinv, hstored⟩ := h.analyses hfits
  refine ⟨_, hfits.assembled_eq shift', ?_, hstored.isFactorisation hinv⟩
  rw [Kkt.submatrix_toSymMatrix_matrix hs.square hd hs.wellFormed_P]
  congr 2
  simp [vec]

/-- **One matrix, one shift:** it stands on the diagonal, as long as there is one. -/
theorem Fits.assembled_eq_iff (h : Fits shift s) :
    s.assembled shift' = s.assembled shift ↔ shift' = shift ∨ s.problem.n = 0 := by
  have hs := h.sound.shape
  have hd := h.length_rhoInv
  rw [h.assembled_eq, h.assembled_eq, Except.ok.injEq, Prod.mk.injEq, and_iff_left rfl]
  rcases Nat.eq_zero_or_pos s.problem.n with hn | hn
  · have hcols : s.problem.P.cols = [] := List.eq_nil_of_length_eq_zero <| by
      rw [Csc.length_cols, h.sound.ncols_P, hn]
    refine iff_of_true ?_ (.inr hn)
    rw [Kkt.matrix, Kkt.matrix, Kkt.leading, Kkt.leading, hcols]
    rfl
  · have hn' : 0 < s.problem.A.ncols := by rwa [h.sound.ncols_A]
    refine ⟨fun heq => .inl ?_, ?_⟩
    · have hentry := congrArg (fun M : Csc K => M.symCoeff 0 0) heq
      simp only [Kkt.symCoeff_leading hs.square hd hn' hn', if_pos] at hentry
      exact add_left_cancel hentry
    · rintro (rfl | hzero)
      · rfl
      · exact absurd hzero hn.ne'

/-- **A convex program always has factors.** -/
theorem Consistent.holdsFactors_of_isConvex (h : Consistent shift s)
    (hc : Kkt.IsConvex s.problem.P s.problem.A shift) : s.HoldsFactors shift := by
  obtain ⟨inv, hinv⟩ := h.fits.tracks.analyses
  obtain hstored | ⟨k, hk⟩ := h.ended
  · exact h.fits.factor_eq.1 hstored
  · exact absurd hk
      (KktSystem.not_firstZero hc h.fits.size_rhoInv h.sound_steps.rhoInv_pos hinv)

/-! ## From setting up on -/

/-- **The system that iterations solve.** Whatever has become of a solver since it was
set up, runs that broke off included, its step sizes are those for one base, and its
factors are the ones that factoring the KKT matrix for them and for the `sigma` of
setting up would give, unless that has none. They are those for the `sigma` that the
next iteration reads exactly where this number makes the same matrix. In exact
arithmetic that is where it is still the same number, the factors are those of the
matrix block by block, and a convex program always has them. -/
theorem holdsFactors_of_setup {α : Type} [arith : Scalar α] {P A : Csc α} {q l u : Array α}
    {settings : Settings α} {order : EliminationOrder} {s₀ s : Solver α}
    (hsetup : setup P q A l u settings order = .ok (.ok s₀)) (hmoves : Moves s₀ s) :
    (∃ base, s.steps = .ofBase base s.rows) ∧
    (s.HoldsFactors settings.sigma ∨ s.LacksFactors settings.sigma) ∧
    (s.HoldsFactors s.settings.sigma ↔
      s.assembled s.settings.sigma = s.assembled settings.sigma ∧
        ¬ s.LacksFactors settings.sigma) ∧
    (∀ clock, Ensures (s.run clock) fun stage => Moves s₀ stage.solver) ∧
    ∀ [ExactField α], arith = ExactField.scalar →
      (s.assembled s.settings.sigma = s.assembled settings.sigma ↔
        s.settings.sigma = settings.sigma ∨ s.problem.n = 0) ∧
      (∀ shift, s.HoldsFactors shift → s.Factored shift) ∧
      (IsSemidefinite (P.toSymMatrix q.size) → s.HoldsFactors settings.sigma) := by
  have h := invariant_consistent.of_moves (starts_of_setup hsetup).consistent hmoves
  refine ⟨h.steps_eq, h.holds_or_lacks, h.holdsFactors_iff _, fun clock => ?_, ?_⟩
  · obtain ⟨stage, hrun, -⟩ := invariant_consistent.run_ensures h clock
    exact ⟨stage, hrun, hmoves.trans (ran_of_run hrun).moves⟩
  · rintro field rfl
    refine ⟨h.fits.assembled_eq_iff, fun shift hholds => hholds.factored h.fits, fun hpsd => ?_⟩
    obtain ⟨hset, p₀, hdata, heq⟩ := equilibrated_of_setup hsetup
    refine h.holdsFactors_of_isConvex ?_
    rw [(problem_of_moves hmoves).1]
    exact isConvex_of_equilibrated (Problem.accepted_of_ofData hdata) heq hpsd
      (pos_of_validate hset).1

end Solver

/-! ## A well -/

namespace Well

/-- `½·x² − x` is minimised, without constraints. -/
def P : Csc ℚ := ⟨1, 1, #[0, 1], #[0], #[1]⟩

def q : Array ℚ := #[-1]

def A : Csc ℚ := ⟨0, 1, #[0, 0], #[], #[]⟩

/-- One iteration a run, which the first run needs to solve it. -/
def settings : Settings ℚ := { Settings.default with
  sigma := 1 / 2
  alpha := 3 / 2
  maxIter := 1
  scaling := 0
  adaptiveRho := false
  checkTermination := 1 }

theorem isSemidefinite : IsSemidefinite (P.toSymMatrix 1) :=
  isSemidefinite_fin_one (by decide +kernel)

end Well

namespace Solver

/-- The solver with another `sigma` in its settings. -/
def withSigma {α : Type} (s : Solver α) (sigma : α) : Solver α :=
  { s with settings := { s.settings with sigma := sigma } }

/-- The first run ends at the bottom; with another `sigma` the next one climbs out. -/
theorem Well.climbs : ∃ s₀ stage stage',
    setup Well.P Well.q Well.A #[] #[] Well.settings .natural = .ok (.ok s₀) ∧
      s₀.run .still = .ok stage ∧ (stage.solver.withSigma 2).run .still = .ok stage' ∧
      0 < stage.solver.problem.n ∧ stage.solver.settings.sigma = 1 / 2 ∧
      (stage.solver.withSigma 2).settings.validate = .ok () ∧
      stage.solver.info.status = .solved ∧ stage.solver.solution.x = #[1] ∧
      stage'.solver.info.status = .maxIterations ∧ stage'.solver.solution.x = #[5 / 2] := by
  have hfirst : firstRun Well.P Well.q Well.A #[] #[] Well.settings .natural .still
      (fun _ stage => decide (0 < stage.solver.problem.n ∧ stage.solver.settings.sigma = 1 / 2 ∧
        (stage.solver.withSigma 2).settings.validate = .ok () ∧
        stage.solver.info.status = .solved ∧ stage.solver.solution.x = #[1] ∧
        ((stage.solver.withSigma 2).run .still).toOption.map (fun stage' =>
          (stage'.solver.info.status, stage'.solver.solution.x)) =
            some (.maxIterations, #[5 / 2]))) = true := by
    decide +kernel
  obtain ⟨s₀, stage, hsetup, hrun, htest⟩ := exists_of_firstRun hfirst
  obtain ⟨hn, hsigma, hset, hsolved, hx, hnext⟩ := of_decide_eq_true htest
  cases hrun' : (stage.solver.withSigma 2).run .still with
  | error e =>
    rw [hrun'] at hnext
    cases hnext
  | ok stage' =>
    rw [hrun'] at hnext
    obtain ⟨hstatus, hx'⟩ := Prod.mk.inj (Option.some.inj hnext)
    exact ⟨s₀, stage, stage', hsetup, hrun, hrun', hn, hsigma, hset, hsolved, hx, hstatus, hx'⟩

theorem holdsFactors_of_setup_well : ∃ s₀ stage,
    setup Well.P Well.q Well.A #[] #[] Well.settings .natural = .ok (.ok s₀) ∧
      s₀.run .still = .ok stage ∧
      (∃ base, stage.solver.steps = .ofBase base stage.solver.rows) ∧
      stage.solver.HoldsFactors (1 / 2) ∧ stage.solver.Factored (1 / 2) := by
  obtain ⟨s₀, stage, -, hsetup, hrun, -⟩ := Well.climbs
  have hmoves := (ran_of_run hrun).moves
  obtain ⟨hsteps, -, -, -, hexact⟩ := holdsFactors_of_setup hsetup hmoves
  obtain ⟨-, hfactored, hconvex⟩ := hexact rfl
  have hholds := hconvex Well.isSemidefinite
  exact ⟨s₀, stage, hsetup, hrun, hsteps, hholds, hfactored _ hholds⟩

/-- **Another `sigma` between two runs** does not reach the factors: the second run
solves another system than it means to, and moves away from the minimum that it starts
from. -/
theorem not_holdsFactors_well : ∃ s₀ stage stage',
    setup Well.P Well.q Well.A #[] #[] Well.settings .natural = .ok (.ok s₀) ∧
      s₀.run .still = .ok stage ∧ stage.solver.info.status = .solved ∧
      stage.solver.solution.x = #[1] ∧ Moves s₀ (stage.solver.withSigma 2) ∧
      (stage.solver.withSigma 2).settings.validate = .ok () ∧
      ¬ (stage.solver.withSigma 2).HoldsFactors (stage.solver.withSigma 2).settings.sigma ∧
      (stage.solver.withSigma 2).run .still = .ok stage' ∧
      stage'.solver.info.status = .maxIterations ∧ stage'.solver.solution.x = #[5 / 2] := by
  obtain ⟨s₀, stage, stage', hsetup, hrun, hrun', hn, hsigma, hset, hsolved, hx, hstatus, hx'⟩ :=
    Well.climbs
  have hmoves : Moves s₀ (stage.solver.withSigma 2) := (ran_of_run hrun).moves.tail
    (.step (.noted stage.solver stage.solver.residuals stage.solver.info stage.solver.solution _))
  -- there is a variable, so the factors tell the two numbers apart
  have hconsistent := invariant_consistent.of_moves (starts_of_setup hsetup).consistent hmoves
  refine ⟨s₀, stage, stage', hsetup, hrun, hsolved, hx, hmoves, hset, fun hholds => ?_, hrun',
    hstatus, hx'⟩
  obtain hsame | hnone := hconsistent.fits.assembled_eq_iff.mp
    (hholds.assembled_eq hconsistent.fits)
  · have hne : (2 : ℚ) ≠ 1 / 2 := by norm_num
    exact hne hsame
  · exact absurd hnone hn.ne'

end Solver

end SplitQP
