import SplitQP.Proofs.Admm.Optimality
import SplitQP.Proofs.Admm.Verdicts
/-!
# Recognising an exact solution

A check passes a residual that is strictly below its tolerance, so a point
without residuals passes where both tolerances are positive
(`verdict_eq_solved_iff`). They are in legal settings with a positive
absolute tolerance. Without one they are relative to the terms the residuals are
made of, and vanish where all these terms do. Where there are no constraints the
primal test is passed over; the dual test has no such exception
(`recognised_of_setup`).
-/

namespace SplitQP

open Checked SplitQP.Dense

namespace Solver

/-! ## What a check asks -/

section Tests

variable {α : Type} [Scalar α] {s : Solver α} {scale : α}

/-- **The verdict is "solved"** exactly where both residuals pass. -/
theorem verdict_eq_solved_iff :
    s.verdict scale = .ok (some .solved) ↔ s.PrimalPasses scale ∧ s.DualPasses scale := by
  constructor
  · intro h
    rcases verdict_eq_some h with ⟨-, hpasses⟩ | ⟨hstatus, -⟩ | ⟨hstatus, -⟩
    · exact hpasses
    · cases hstatus
    · cases hstatus
  · intro h
    rw [verdict]
    dsimp only
    rw [if_pos (passes_iff.mpr h)]
    rfl

/-- The status of a check that passes both tests. -/
def solvedStatus (approximate : Bool) : SolverStatus :=
  if approximate then .solvedInaccurate else .solved

/-- **A check ends a run as solved** exactly where both tests pass. -/
theorem checkTermination_solved_iff (approximate : Bool) :
    (∃ s', s.checkTermination approximate = .ok (some s') ∧
      s'.info.status = solvedStatus approximate) ↔
    s.PrimalPasses (if approximate then 10.0 else 1) ∧
      s.DualPasses (if approximate then 10.0 else 1) := by
  constructor
  · rintro ⟨s', h, hstatus⟩
    refine passes_of_isSolved h ?_
    cases approximate with
    | true => exact .inr hstatus
    | false => exact .inl hstatus
  · intro h
    rw [checkTermination, verdict_eq_solved_iff.mpr h]
    exact ⟨_, rfl, by cases approximate <;> rfl⟩

end Tests

/-! ## Tolerances of legal settings -/

variable {K : Type} [ExactField K]

theorem eps_of_validate {set : Settings K} (h : set.validate = .ok ()) :
    0 ≤ set.epsAbs ∧ 0 ≤ set.epsRel ∧ (set.epsAbs = 0 → set.epsRel ≠ 0) := by
  rw [Settings.validate] at h
  obtain ⟨_, -, h⟩ := bind_eq_ok.mp h
  obtain ⟨_, -, h⟩ := bind_eq_ok.mp h
  obtain ⟨_, -, h⟩ := bind_eq_ok.mp h
  obtain ⟨_, habs, h⟩ := bind_eq_ok.mp h
  obtain ⟨_, hrel, h⟩ := bind_eq_ok.mp h
  obtain ⟨_, hboth, -⟩ := bind_eq_ok.mp h
  have hnot := legal_of_check hboth
  rw [Bool.not_eq_true', Bool.and_eq_false_iff, ExactField.eq_eq_false_iff,
    ExactField.eq_eq_false_iff] at hnot
  exact ⟨ExactField.le_iff.mp (legal_of_check habs), ExactField.le_iff.mp (legal_of_check hrel),
    fun hzero => hnot.resolve_left (not_not.mpr hzero)⟩

/-- **Such a tolerance is positive** unless it is relative to zero. -/
theorem tolerance_pos_iff {epsAbs epsRel norm : K} (habs : 0 ≤ epsAbs) (hrel : 0 ≤ epsRel)
    (hnot : epsAbs = 0 → epsRel ≠ 0) (hnorm : 0 ≤ norm) :
    0 < epsAbs + epsRel * norm ↔ 0 < epsAbs ∨ norm ≠ 0 := by
  rcases habs.eq_or_lt with hzero | hpos
  · have hrel' : 0 < epsRel := hrel.lt_of_ne (hnot hzero.symm).symm
    rw [← hzero, zero_add, mul_pos_iff_of_pos_left hrel', or_iff_right (lt_irrefl 0)]
    exact hnorm.lt_iff_ne'
  · exact iff_of_true (add_pos_of_pos_of_nonneg hpos (mul_nonneg hrel hnorm)) (.inl hpos)

theorem maxNorm_eq_zero_iff {n : ℕ} {v : Fin n → K} : maxNorm v = 0 ↔ v = 0 := by
  refine ⟨fun h => funext fun i => ?_, fun h => by rw [h, maxNorm_zero]⟩
  exact abs_nonpos_iff.mp ((abs_le_maxNorm v i).trans_eq h)

theorem max_ne_zero_iff {a b : K} (ha : 0 ≤ a) (hb : 0 ≤ b) : max a b ≠ 0 ↔ a ≠ 0 ∨ b ≠ 0 := by
  rw [← (le_max_of_le_left ha).lt_iff_ne', lt_max_iff, ha.lt_iff_ne', hb.lt_iff_ne']

/-! ## Exact solutions -/

section Exact

variable {n m : ℕ} {S : Matrix (Fin n) (Fin n) K} {q x : Fin n → K} {B : Matrix (Fin m) (Fin n) K}
  {z y : Fin m → K} {r : Residuals K}

/-- **A point without residuals** solves the equations. -/
theorem residuals_eq_zero_iff (hr : Residuals.Measures S q B x z y r) :
    r.primRes = 0 ∧ r.dualRes = 0 ↔
      B.mulVec x = z ∧ S.mulVec x + q + B.transpose.mulVec y = 0 := by
  rw [hr.primRes_eq, hr.dualRes_eq, maxNorm_eq_zero_iff, maxNorm_eq_zero_iff, sub_eq_zero]

/-- **The terms of the residuals do not vanish,** apart from those of constraints where
there are none. -/
def HasScale (S : Matrix (Fin n) (Fin n) K) (q : Fin n → K) (B : Matrix (Fin m) (Fin n) K)
    (x : Fin n → K) (y : Fin m → K) : Prop :=
  (m = 0 ∨ B.mulVec x ≠ 0) ∧ (S.mulVec x ≠ 0 ∨ B.transpose.mulVec y ≠ 0 ∨ q ≠ 0)

/-- **Exact solutions pass both tests** where the absolute tolerance is positive or there
is something for the relative one to be relative to. -/
theorem passes_iff_of_exact {s : Solver K} (hset : s.settings.validate = .ok ())
    (hm : s.problem.m = m) (hmeasures : Residuals.Measures S q B x z y s.residuals)
    (hcompares : Residuals.Compares S q B x z y s.residuals)
    (hprim : s.residuals.primRes = 0) (hdual : s.residuals.dualRes = 0) :
    s.PrimalPasses 1 ∧ s.DualPasses 1 ↔ 0 < s.settings.epsAbs ∨ HasScale S q B x y := by
  obtain ⟨habs, hrel, hnot⟩ := eps_of_validate hset
  have hz : B.mulVec x = z := ((residuals_eq_zero_iff hmeasures).mp ⟨hprim, hdual⟩).1
  have hprimNorm : s.residuals.primNorm ≠ 0 ↔ B.mulVec x ≠ 0 := by
    rw [hcompares.primNorm_eq, ← hz, max_self, ne_eq, maxNorm_eq_zero_iff]
  have hdualNorm : s.residuals.dualNorm ≠ 0 ↔
      S.mulVec x ≠ 0 ∨ B.transpose.mulVec y ≠ 0 ∨ q ≠ 0 := by
    rw [hcompares.dualNorm_eq,
      max_ne_zero_iff (le_max_of_le_left (maxNorm_nonneg _)) (maxNorm_nonneg _),
      max_ne_zero_iff (maxNorm_nonneg _) (maxNorm_nonneg _), or_assoc]
    simp only [ne_eq, maxNorm_eq_zero_iff]
  have hprimNonneg : 0 ≤ s.residuals.primNorm := by
    rw [hcompares.primNorm_eq]
    exact le_max_of_le_left (maxNorm_nonneg _)
  have hdualNonneg : 0 ≤ s.residuals.dualNorm := by
    rw [hcompares.dualNorm_eq]
    exact le_max_of_le_right (maxNorm_nonneg _)
  rw [PrimalPasses, DualPasses, hprim, hdual, hm, Residuals.tolerances, ExactField.lt_iff,
    ExactField.lt_iff, mul_one, mul_one, tolerance_pos_iff habs hrel hnot hprimNonneg,
    tolerance_pos_iff habs hrel hnot hdualNonneg, hprimNorm, hdualNorm, HasScale, or_left_comm,
    ← or_and_left]

/-- The check reports them then, and only then. -/
theorem checkTermination_ensures_of_exact {shift : K} {s : Solver K} (hfits : Fits shift s)
    (hset : s.settings.validate = .ok ()) (hm : s.problem.m = m)
    (hmeasures : Residuals.Measures S q B x z y s.residuals)
    (hcompares : Residuals.Compares S q B x z y s.residuals)
    (hprim : s.residuals.primRes = 0) (hdual : s.residuals.dualRes = 0) :
    Ensures (s.checkTermination false) fun r =>
      ((∃ s', r = some s' ∧ s'.info.status = .solved) ↔
        0 < s.settings.epsAbs ∨ HasScale S q B x y) := by
  obtain ⟨found, hfound, -⟩ := hfits.checkTermination_ensures false
  have hstatus := checkTermination_solved_iff (s := s) false
  rw [hfound] at hstatus
  simp only [Except.ok.injEq] at hstatus
  exact ⟨found, hfound,
    hstatus.trans (passes_iff_of_exact hset hm hmeasures hcompares hprim hdual)⟩

end Exact

section Setup

variable {P A : Csc K} {q l u : Array K} {settings : Settings K} {order : EliminationOrder}
  {s₀ s : Solver K} {v : Iterate K}

/-- **When an exact solution is recognised.** Whatever has become of a solver, and wherever
its iterate is: without residuals it is an exact solution of the equations, in the caller's
units, and the check that follows reports it as solved exactly where the absolute tolerance
is positive or the terms of the residuals do not vanish. -/
theorem recognised_of_setup (hsetup : setup P q A l u settings order = .ok (.ok s₀))
    (hmoves : Moves s₀ s) (hset : s.settings.validate = .ok ())
    (hv : v.Sized s.problem.n s.problem.m) :
    Ensures { s with iterate := v }.updateResiduals fun s₁ =>
      (s₁.residuals.primRes = 0 ∧ s₁.residuals.dualRes = 0 ↔
        (A.toMatrix l.size q.size).mulVec (s.equilibration.primal q.size v.x) =
            s.equilibration.slack l.size v.z ∧
          (P.toSymMatrix q.size).mulVec (s.equilibration.primal q.size v.x) + vec q.size q +
            (A.toMatrix l.size q.size).transpose.mulVec (s.equilibration.dual l.size v.y) = 0) ∧
      (s₁.residuals.primRes = 0 → s₁.residuals.dualRes = 0 →
        Ensures (s₁.checkTermination false) fun r =>
          ((∃ s₂, r = some s₂ ∧ s₂.info.status = .solved) ↔
            0 < s.settings.epsAbs ∨ HasScale (P.toSymMatrix q.size) (vec q.size q)
              (A.toMatrix l.size q.size) (s.equilibration.primal q.size v.x)
              (s.equilibration.dual l.size v.y))) := by
  obtain ⟨-, p₀, hdata, heq⟩ := equilibrated_of_setup hsetup
  have hacc := Problem.accepted_of_ofData hdata
  obtain ⟨hproblem, hequilibration⟩ := problem_of_moves hmoves
  rw [← hproblem, ← hequilibration] at heq
  have hn : s.problem.n = q.size := heq.scales.n_eq.trans hacc.n_eq
  have hm : s.problem.m = l.size := heq.scales.m_eq.trans hacc.m_eq
  have hfits : Fits settings.sigma s :=
    invariant_fits.of_moves (starts_of_setup hsetup).fits hmoves
  rw [updateResiduals]
  refine (Residuals.atPoint_ensures_unscaled heq hacc.n_eq hacc.m_eq (hv.size_x.trans hn)
    (hv.size_z.trans hm) (hv.size_y.trans hm)).bind fun r hr => ?_
  rw [hacc.toSymMatrix_P, hacc.q_eq, hacc.toMatrix_A] at hr
  obtain ⟨hmeasures, hcompares⟩ := hr
  refine .ok ⟨residuals_eq_zero_iff hmeasures, fun hprim hdual => ?_⟩
  dsimp only at hprim hdual ⊢
  have hfits' : Fits settings.sigma
      { s with iterate := v, residuals := r, info := s.info.update r } := { hfits with sized := hv }
  exact checkTermination_ensures_of_exact hfits' hset hm hmeasures hcompares hprim hdual

end Setup

/-! ## A solution away from zero, and one at zero -/

namespace Margin

/-- `½·x² − x` is minimised. -/
def P : Csc ℚ := ⟨1, 1, #[0, 1], #[0], #[1]⟩

def q : Array ℚ := #[-1]

def A : Csc ℚ := ⟨1, 1, #[0, 1], #[0], #[1]⟩

def l : Array ℚ := #[0]

def u : Array ℚ := #[2]

/-- The tolerance is relative only. -/
def settings : Settings ℚ := { Settings.default with
  epsAbs := 0
  scaling := 0
  maxIter := 3
  adaptiveRho := false
  checkTermination := 1 }

/-- The minimum is between the bounds. -/
def solution : Iterate ℚ := ⟨#[1], #[1], #[0], #[0], #[0]⟩

end Margin

instance {n m : ℕ} (S : Matrix (Fin n) (Fin n) K) (q : Fin n → K) (B : Matrix (Fin m) (Fin n) K)
    (x : Fin n → K) (y : Fin m → K) : Decidable (HasScale S q B x y) :=
  inferInstanceAs (Decidable ((_ ∨ _) ∧ (_ ∨ _ ∨ _)))

theorem recognised_of_setup_margin : ∃ s₀,
    setup Margin.P Margin.q Margin.A Margin.l Margin.u Margin.settings .natural = .ok (.ok s₀) ∧
      s₀.settings.validate = .ok () ∧ s₀.settings.epsAbs = 0 ∧
      Ensures { s₀ with iterate := Margin.solution }.updateResiduals fun s₁ =>
        s₁.residuals.primRes = 0 ∧ s₁.residuals.dualRes = 0 ∧
          ∃ s₂, s₁.checkTermination false = .ok (some s₂) ∧ s₂.info.status = .solved := by
  have hfirst : firstRun Margin.P Margin.q Margin.A Margin.l Margin.u Margin.settings .natural
      Clock.still (fun s₀ _ => decide (s₀.settings.validate = .ok () ∧ s₀.settings.epsAbs = 0 ∧
        s₀.problem.n = 1 ∧ s₀.problem.m = 1 ∧
        (Margin.A.toMatrix 1 1).mulVec (s₀.equilibration.primal 1 #[1]) =
          s₀.equilibration.slack 1 #[1] ∧
        (Margin.P.toSymMatrix 1).mulVec (s₀.equilibration.primal 1 #[1]) + vec 1 Margin.q +
          (Margin.A.toMatrix 1 1).transpose.mulVec (s₀.equilibration.dual 1 #[0]) = 0 ∧
        HasScale (Margin.P.toSymMatrix 1) (vec 1 Margin.q) (Margin.A.toMatrix 1 1)
          (s₀.equilibration.primal 1 #[1]) (s₀.equilibration.dual 1 #[0]))) = true := by
    decide +kernel
  obtain ⟨s₀, _, hsetup, -, htest⟩ := exists_of_firstRun hfirst
  obtain ⟨hset, hzero, hn, hm, hprim, hdual, hscale⟩ := of_decide_eq_true htest
  have hsized : Margin.solution.Sized s₀.problem.n s₀.problem.m := by
    rw [hn, hm]
    exact ⟨rfl, rfl, rfl, rfl, rfl⟩
  refine ⟨s₀, hsetup, hset, hzero, ?_⟩
  refine (recognised_of_setup hsetup .refl hset hsized).mono fun s₁ ⟨hexact, hcheck⟩ => ?_
  obtain ⟨hp, hd⟩ := hexact.mpr ⟨hprim, hdual⟩
  obtain ⟨r, hr, hiff⟩ := hcheck hp hd
  obtain ⟨s₂, rfl, hsolved⟩ := hiff.mpr (.inr hscale)
  exact ⟨hp, hd, s₂, hr, hsolved⟩

/-- A solver of `½·x²` starts without residuals, and its run does not recognise that. -/
def Unrecognised (A : Csc ℚ) (l u : Array ℚ) : Prop := ∃ s₀ stage,
  setup Margin.P #[0] A l u Margin.settings .natural = .ok (.ok s₀) ∧
    s₀.settings.validate = .ok () ∧ s₀.run Clock.still = .ok stage ∧
    stage.solver.info.primRes = 0 ∧ stage.solver.info.dualRes = 0 ∧
    stage.solver.info.status = .maxIterations ∧
    (∃ s₁, s₀.updateResiduals = .ok s₁ ∧ s₁.residuals.primRes = 0 ∧ s₁.residuals.dualRes = 0 ∧
      s₁.checkTermination false = .ok none)

/-- The check that follows a look at the residuals is passed by. -/
def passesBy (s : Solver ℚ) : Bool := s.updateResiduals.toOption.any fun s₁ =>
  decide (s₁.residuals.primRes = 0 ∧ s₁.residuals.dualRes = 0) &&
    (s₁.checkTermination false).toOption.any Option.isNone

/-- **A solution at zero is not recognised:** neither where a constraint keeps it between
`-1` and `1`, nor where there is no constraint at all. -/
theorem unrecognised_zero : Unrecognised Margin.A #[-1] #[1] ∧
    Unrecognised ⟨0, 1, #[0, 0], #[], #[]⟩ #[] #[] := by
  have hall : ([(Margin.A, #[-1], #[1]), (⟨0, 1, #[0, 0], #[], #[]⟩, #[], #[])] :
      List (Csc ℚ × Array ℚ × Array ℚ)).all (fun c =>
        firstRun Margin.P #[0] c.1 c.2.1 c.2.2 Margin.settings .natural Clock.still
          fun s₀ stage => decide (s₀.settings.validate = .ok () ∧
            stage.solver.info.primRes = 0 ∧ stage.solver.info.dualRes = 0 ∧
            stage.solver.info.status = .maxIterations) && passesBy s₀) = true := by
    decide +kernel
  have hunrecognised : ∀ c ∈ ([(Margin.A, #[-1], #[1]), (⟨0, 1, #[0, 0], #[], #[]⟩, #[], #[])] :
      List (Csc ℚ × Array ℚ × Array ℚ)), Unrecognised c.1 c.2.1 c.2.2 := by
    intro c hc
    obtain ⟨s₀, stage, hsetup, hrun, htest⟩ := exists_of_firstRun (List.all_eq_true.mp hall c hc)
    obtain ⟨hend, hpasses⟩ := (Bool.and_eq_true _ _).mp htest
    obtain ⟨hset, hprim, hdual, hstatus⟩ := of_decide_eq_true hend
    obtain ⟨s₁, hs₁, hcheck⟩ := exists_of_toOption_any hpasses
    obtain ⟨hexact, hnone⟩ := (Bool.and_eq_true _ _).mp hcheck
    obtain ⟨r, hr, hr'⟩ := exists_of_toOption_any hnone
    obtain ⟨hprim₁, hdual₁⟩ := of_decide_eq_true hexact
    rw [Option.isNone_iff_eq_none] at hr'
    exact ⟨s₀, stage, hsetup, hset, hrun, hprim, hdual, hstatus, s₁, hs₁, hprim₁, hdual₁,
      hr' ▸ hr⟩
  exact ⟨hunrecognised _ List.mem_cons_self,
    hunrecognised _ (List.mem_cons_of_mem _ List.mem_cons_self)⟩

end Solver

end SplitQP
