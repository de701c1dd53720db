import SplitQP.Proofs.Admm.Solver
/-!
# Optimality

A point of a convex program whose `z` is within the bounds, with a `y`
that points out of them, is optimal up to two residuals
(`nearOptimal_of_side`): how much better another feasible point can be is
at most the dual residual times its distance and the primal residual
times the length of `y`. Every iteration ends at such a point, and
changes of the step size leave it (`complementary_of_steps`). So every
iterate reached is near optimal in the caller's units, and so is what a
run reports as solved unless polishing replaced it
(`nearOptimal_of_setup`).
-/

namespace SplitQP

open Checked SplitQP.Dense Finset

namespace Residuals

variable {K : Type} [ExactField K] {n m : ℕ} {S : Matrix (Fin n) (Fin n) K} {q x : Fin n → K}
  {B : Matrix (Fin m) (Fin n) K} {lo hi z y : Fin m → K}

/-- **`x` is optimal up to its residuals:** it is as far from a point within the
bounds as the primal residual says, and no feasible point is better by more
than the two residuals allow. -/
structure NearOptimal (S : Matrix (Fin n) (Fin n) K) (q : Fin n → K) (B : Matrix (Fin m) (Fin n) K)
    (lo hi : Fin m → K) (x : Fin n → K) (z y : Fin m → K) (primRes dualRes : K) : Prop where
  primRes_eq : primRes = maxNorm (B.mulVec x - z)
  dualRes_eq : dualRes = maxNorm (S.mulVec x + q + B.transpose.mulVec y)
  within : ∀ i, lo i ≤ z i ∧ z i ≤ hi i
  gap : ∀ v, (∀ i, lo i ≤ B.mulVec v i ∧ B.mulVec v i ≤ hi i) →
    quadratic S q x - quadratic S q v ≤
      dualRes * ∑ j, |x j - v j| + primRes * ∑ i, |y i|

/-- **A convex function lies above its tangents.** -/
theorem quadratic_sub_le (hS : IsSemidefinite S) (hsym : S.transpose = S) (x v : Fin n → K) :
    quadratic S q x - quadratic S q v ≤ dotProduct (S.mulVec x + q) (x - v) := by
  have hcross : dotProduct x (S.mulVec v) = dotProduct v (S.mulVec x) := by
    rw [Matrix.dotProduct_mulVec, ← Matrix.mulVec_transpose, hsym, dotProduct_comm]
  have hcurve : 0 ≤ dotProduct (x - v) (S.mulVec (x - v)) := hS (x - v)
  have hform : dotProduct (x - v) (S.mulVec (x - v)) = dotProduct x (S.mulVec x) -
      2 * dotProduct v (S.mulVec x) + dotProduct v (S.mulVec v) := by
    rw [Matrix.mulVec_sub, dotProduct_sub, sub_dotProduct, sub_dotProduct, hcross]
    ring
  have htangent : dotProduct (S.mulVec x + q) (x - v) = dotProduct x (S.mulVec x) -
      dotProduct v (S.mulVec x) + dotProduct q x - dotProduct q v := by
    rw [add_dotProduct, dotProduct_sub, dotProduct_sub, dotProduct_comm (S.mulVec x) x,
      dotProduct_comm (S.mulVec x) v]
    ring
  rw [htangent, quadratic, quadratic]
  linarith

/-- **Complementary points are near optimal.** -/
theorem nearOptimal_of_side (hS : IsSemidefinite S) (hsym : S.transpose = S) {r : Residuals K}
    (hr : Measures S q B x z y r) (hwithin : ∀ i, lo i ≤ z i ∧ z i ≤ hi i)
    (hside : ∀ i t, lo i ≤ t → t ≤ hi i → 0 ≤ (z i - t) * y i) :
    NearOptimal S q B lo hi x z y r.primRes r.dualRes := by
  refine ⟨hr.primRes_eq, hr.dualRes_eq, hwithin, fun v hv => ?_⟩
  have hout : 0 ≤ dotProduct (z - B.mulVec v) y :=
    sum_nonneg fun i _ => hside i _ (hv i).1 (hv i).2
  have hmult : dotProduct (B.transpose.mulVec y) (x - v) =
      dotProduct (B.mulVec x - z) y + dotProduct (z - B.mulVec v) y := by
    rw [Matrix.mulVec_transpose, ← Matrix.dotProduct_mulVec, Matrix.mulVec_sub, dotProduct_comm,
      ← add_dotProduct, sub_add_sub_cancel]
  have hprim : -dotProduct (B.mulVec x - z) y ≤ r.primRes * ∑ i, |y i| := by
    have hle := dotProduct_le (B.mulVec x - z) (-y)
    rw [dotProduct_neg, ← hr.primRes_eq] at hle
    simpa only [Pi.neg_apply, abs_neg] using hle
  calc quadratic S q x - quadratic S q v
      ≤ dotProduct (S.mulVec x + q) (x - v) := quadratic_sub_le hS hsym x v
    _ = dotProduct (S.mulVec x + q + B.transpose.mulVec y) (x - v) -
          dotProduct (B.transpose.mulVec y) (x - v) := by
        rw [← sub_dotProduct, add_sub_cancel_right]
    _ ≤ dotProduct (S.mulVec x + q + B.transpose.mulVec y) (x - v) +
          -dotProduct (B.mulVec x - z) y := by
        rw [hmult]
        linarith
    _ ≤ r.dualRes * ∑ j, |x j - v j| + r.primRes * ∑ i, |y i| := by
        rw [hr.dualRes_eq]
        exact add_le_add (dotProduct_le _ _) hprim

end Residuals

variable {K : Type} [ExactField K]

namespace Equilibration.Equilibrated

variable {p₀ p : Problem K} {eq : Equilibration K} {v : Iterate K} {m : ℕ}
  (h : Equilibrated p₀ p eq) (hv : v.Complementary p) (hm : p₀.m = m)

include h hv hm

/-- `z` is within the caller's bounds, in the caller's units. -/
theorem slack_within (i : Fin m) :
    p₀.l.getD i 0 ≤ eq.slack m v.z i ∧ eq.slack m v.z i ≤ p₀.u.getD i 0 := by
  have hi : (i : ℕ) < p₀.m := by omega
  have hip : (i : ℕ) < p.m := by rw [h.scales.m_eq]; exact hi
  have he := h.scales.e_pos i hi
  have hl := hv.ge i hip
  have hu := hv.le i hip
  rw [h.l_eq i hi, mul_comm] at hl
  rw [h.u_eq i hi, mul_comm] at hu
  exact ⟨(le_inv_mul_iff₀ he).mpr hl, (inv_mul_le_iff₀ he).mpr hu⟩

/-- `y` points out of the caller's bounds. -/
theorem dual_side (i : Fin m) (t : K) (hl : p₀.l.getD i 0 ≤ t) (hu : t ≤ p₀.u.getD i 0) :
    0 ≤ (eq.slack m v.z i - t) * eq.dual m v.y i := by
  have hi : (i : ℕ) < p₀.m := by omega
  have hip : (i : ℕ) < p.m := by rw [h.scales.m_eq]; exact hi
  have he := h.scales.e_pos i hi
  have hc := h.scales.c_pos
  have hside := hv.side i hip (t * eq.e.getD i 0)
    (by rw [h.l_eq i hi]; exact mul_le_mul_of_nonneg_right hl he.le)
    (by rw [h.u_eq i hi]; exact mul_le_mul_of_nonneg_right hu he.le)
  have hscaled : (eq.slack m v.z i - t) * eq.dual m v.y i =
      (v.z.getD i 0 - t * eq.e.getD i 0) * v.y.getD i 0 / eq.c := by
    have hne := he.ne'
    rw [slack, dual]
    field_simp
  rw [hscaled]
  exact div_nonneg hside hc.le

end Equilibration.Equilibrated

namespace Problem

/-- **Clipping keeps bounds in order** where neither is infinite on the wrong side. -/
theorem clip_le_iff {l u : K} : clipLower l ≤ clipUpper u ↔
    l ≤ u ∧ l ≤ boundInfinity ∧ -boundInfinity ≤ u := by
  have hinf : -boundInfinity ≤ (boundInfinity : K) := by
    rw [boundInfinity]
    norm_num
  rw [clipLower, clipUpper, ExactField.max_eq, ExactField.min_eq, max_le_iff, le_min_iff,
    le_min_iff]
  exact ⟨fun h => ⟨h.1.1, h.1.2, h.2.1⟩, fun h => ⟨⟨h.1, h.2.1⟩, h.2.2, hinf⟩⟩

/-- **The bounds meet:** each lower bound is at most the upper one, and neither
is infinite on the wrong side. -/
def BoundsMeet (l u : Array K) : Prop :=
  ∀ i < l.size, l.getD i 0 ≤ u.getD i 0 ∧ l.getD i 0 ≤ boundInfinity ∧
    -boundInfinity ≤ u.getD i 0

/-- Clipping does not cross them. -/
theorem BoundsMeet.clip_le {l u : Array K} (h : BoundsMeet l u) {i : ℕ} (hi : i < l.size) :
    clipLower (l.getD i 0) ≤ clipUpper (u.getD i 0) := clip_le_iff.mpr (h i hi)

/-- Optimal for the program as given, with its bounds clipped. -/
def NearOptimal (P : Csc K) (q : Array K) (A : Csc K) (l u : Array K) (x : Fin q.size → K)
    (z y : Fin l.size → K) (primRes dualRes : K) : Prop :=
  Residuals.NearOptimal (P.toSymMatrix q.size) (vec q.size q) (A.toMatrix l.size q.size)
    (fun i => clipLower (l.getD i 0)) (fun i => clipUpper (u.getD i 0)) x z y primRes dualRes

end Problem

namespace Solver

variable {p₀ : Problem K} {shift : K} {s s' : Solver K}

/-- The bounds held do not cross. -/
def Uncrossed (p₀ : Problem K) : Prop := ∀ i < p₀.m, p₀.l.getD i 0 ≤ p₀.u.getD i 0

/-- Scaling does not cross them. -/
theorem Ready.scaled_le (h : Ready p₀ shift s) (hlu : Uncrossed p₀) :
    ∀ i < s.problem.m, s.problem.l.getD i 0 ≤ s.problem.u.getD i 0 := by
  intro i hi
  rw [h.equilibrated.scales.m_eq] at hi
  rw [h.equilibrated.l_eq i hi, h.equilibrated.u_eq i hi]
  exact mul_le_mul_of_nonneg_right (hlu i hi) (h.equilibrated.scales.e_pos i hi).le

/-- An iteration with positive step sizes ends complementary. -/
theorem Fits.complementary_of_advance (h : Fits shift s) (hs : s.steps.Sound s.problem.m)
    (hlu : ∀ i < s.problem.m, s.problem.l.getD i 0 ≤ s.problem.u.getD i 0) {iter : ℕ}
    (hadv : s.advance iter = .ok s') : s'.iterate.Complementary s'.problem := by
  have hstep := Iterate.step_ensures s.settings.sigma s.settings.alpha h.sound hs h.sized h.tracks
  obtain ⟨v, hv, hadv⟩ := bind_eq_ok.mp hadv
  cases hadv
  exact hstep.of_eq_ok hv hlu

/-- Steps stay complementary, as long as all step sizes are positive. -/
theorem Invariant.complementary_of_steps {I : Solver K → Prop} {Q : Except LdlError Unit → Prop}
    (hI : Invariant shift I Q) (hsound : ∀ s, I s → s.steps.Sound s.problem.m)
    (hlu : ∀ i < s.problem.m, s.problem.l.getD i 0 ≤ s.problem.u.getD i 0) (h : I s)
    (hc : s.iterate.Complementary s.problem) (hsteps : Steps s s') :
    s'.iterate.Complementary s'.problem := by
  induction hsteps with
  | refl => exact hc
  | @tail t _ hsteps hstep ih =>
    have ht := hI.of_moves h (Steps.moves hsteps)
    cases hstep with
    | advanced hadv =>
      rw [← (problem_of_moves (Steps.moves hsteps)).1] at hlu
      exact (hI.fits ht).complementary_of_advance (hsound t ht) hlu hadv
    | rescaled => exact ih
    | noted => exact ih

/-- **An iteration ends complementary.** -/
theorem complementary_of_advance (h : Ready p₀ shift s) (hlu : Uncrossed p₀) {iter : ℕ}
    (hadv : s.advance iter = .ok s') : s'.iterate.Complementary s'.problem :=
  h.fits.complementary_of_advance h.stepSizes (h.scaled_le hlu) hadv

/-- **Steps stay complementary,** through all changes of the step size. -/
theorem complementary_of_steps (h : Ready p₀ shift s) (hlu : Uncrossed p₀)
    (hc : s.iterate.Complementary s.problem) (hsteps : Steps s s') :
    s'.iterate.Complementary s'.problem :=
  invariant_ready.complementary_of_steps (fun _ ht => ht.stepSizes) (h.scaled_le hlu) h hc hsteps

section Setup

variable {P A : Csc K} {q l u : Array K} {settings : Settings K} {order : EliminationOrder}

theorem uncrossed_of_accepted (hacc : Problem.Accepted P q A l u p₀)
    (hbounds : Problem.BoundsMeet l u) : Uncrossed p₀ := by
  intro i hi
  rw [hacc.m_eq] at hi
  rw [hacc.getD_l hi, hacc.getD_u hi]
  exact hbounds.clip_le hi

/-- **Complementary iterates are near optimal,** in the caller's units. -/
theorem nearOptimal_of_complementary (hacc : Problem.Accepted P q A l u p₀)
    (hpsd : IsSemidefinite (P.toSymMatrix q.size)) (h : Ready p₀ shift s)
    (hc : s.iterate.Complementary s.problem) :
    Ensures (Residuals.atPoint s.problem s.equilibration s.iterate.x s.iterate.z s.iterate.y)
      fun r => Problem.NearOptimal P q A l u (s.equilibration.primal q.size s.iterate.x)
        (s.equilibration.slack l.size s.iterate.z) (s.equilibration.dual l.size s.iterate.y)
        r.primRes r.dualRes := by
  have hs := h.equilibrated.scales
  have hsized := h.sized
  refine (Residuals.atPoint_ensures h.equilibrated hacc.n_eq hacc.m_eq
    (hsized.size_x.trans (hs.n_eq.trans hacc.n_eq)) (hsized.size_z.trans (hs.m_eq.trans hacc.m_eq))
    (hsized.size_y.trans (hs.m_eq.trans hacc.m_eq))).mono fun r hr => ?_
  rw [hacc.toSymMatrix_P, hacc.q_eq, hacc.toMatrix_A] at hr
  refine Residuals.nearOptimal_of_side hpsd (Csc.toSymMatrix_transpose P _) hr (fun i => ?_)
    fun i t hl hu => ?_
  · rw [← hacc.getD_l i.isLt, ← hacc.getD_u i.isLt]
    exact h.equilibrated.slack_within hc hacc.m_eq i
  · rw [← hacc.getD_l i.isLt] at hl
    rw [← hacc.getD_u i.isLt] at hu
    exact h.equilibrated.dual_side hc hacc.m_eq i t hl hu

/-- **Solved means near optimal,** unless a polished point is reported. -/
theorem nearOptimal_of_run (hacc : Problem.Accepted P q A l u p₀)
    (hpsd : IsSemidefinite (P.toSymMatrix q.size)) (hbounds : Problem.BoundsMeet l u)
    (h : Ready p₀ shift s) {clock : Clock K} {stage : Stage K Unit}
    (hmaxIter : 0 < s.settings.maxIter) (hrun : s.run clock = .ok stage)
    (hsolved : stage.solver.info.status = .solved)
    (hpolish : stage.solver.info.polish ≠ .successful) :
    Problem.NearOptimal P q A l u (vec q.size stage.solver.solution.x)
      (stage.solver.equilibration.slack l.size stage.solver.iterate.z)
      (vec l.size stage.solver.solution.y) stage.solver.info.primRes
      stage.solver.info.dualRes := by
  have hran := ran_of_run hrun
  have hok : stage.result = .ok () := (run_ensures h clock).of_eq_ok hrun
  have hsolution : stage.solver.info.status.hasSolution := by
    rw [hsolved]
    rfl
  have hfinal := ready_of_moves h hran.moves
  obtain ⟨s₁, s₂, iter, hbefore, hadv, hafter⟩ := hran.searched hpolish hsolution hmaxIter
  have hlu := uncrossed_of_accepted hacc hbounds
  have h₁ := ready_of_steps h hbefore
  have h₂ : Ready p₀ shift s₂ := ready_of_step h₁ (.advanced hadv)
  have hc := complementary_of_steps h₂ hlu (complementary_of_advance h₁ hlu hadv) hafter
  have hrep := reported_of_ran hacc hfinal.equilibrated hran hsolution
  rw [hrep.x_eq, hrep.y_eq]
  have hnotLate : ¬Late stage.solver := by
    rintro ⟨htime, -⟩
    rw [hsolved] at htime
    cases htime
  obtain ⟨r, hr, -, hprim, hdual⟩ := (hran.report hok hsolution).1 hnotLate
  rw [hprim, hdual]
  exact (nearOptimal_of_complementary hacc hpsd hfinal hc).of_eq_ok hr

/-- **Optimality in the caller's units.** Whatever has become of a solver, its
next iterate is near optimal for the program as given, and stays so through
changes of the step size and further iterations; and so is what a run reports
as solved, up to the residuals it was tested with. -/
theorem nearOptimal_of_setup {s₀ s₁ : Solver K}
    (hsetup : setup P q A l u settings order = .ok (.ok s₀))
    (hpsd : IsSemidefinite (P.toSymMatrix q.size)) (hbounds : Problem.BoundsMeet l u)
    (horder : order.Permutes K) (hmoves : Moves s₀ s₁) :
    (∀ iter, Ensures (s₁.advance iter) fun s₂ => ∀ s, Steps s₂ s →
      Ensures (Residuals.atPoint s.problem s.equilibration s.iterate.x s.iterate.z s.iterate.y)
        fun r => Problem.NearOptimal P q A l u (s.equilibration.primal q.size s.iterate.x)
          (s.equilibration.slack l.size s.iterate.z) (s.equilibration.dual l.size s.iterate.y)
          r.primRes r.dualRes) ∧
    ∀ clock stage, s₁.settings.validate = .ok () → s₁.run clock = .ok stage →
      stage.solver.info.status = .solved → stage.solver.info.polish ≠ .successful →
      Problem.NearOptimal P q A l u (vec q.size stage.solver.solution.x)
        (stage.solver.equilibration.slack l.size stage.solver.iterate.z)
        (vec l.size stage.solver.solution.y) stage.solver.info.primRes
        stage.solver.info.dualRes := by
  obtain ⟨p₀, hacc, hready₀⟩ := ready_of_setup hsetup hpsd horder
  have hready := ready_of_moves hready₀ hmoves
  have hlu := uncrossed_of_accepted hacc hbounds
  refine ⟨fun iter => ?_, fun clock stage hset hrun hsolved hpolish => ?_⟩
  · obtain ⟨s₂, hadv, h₂⟩ := advance_ensures hready iter
    refine ⟨s₂, hadv, fun s hsteps => ?_⟩
    exact nearOptimal_of_complementary hacc hpsd (ready_of_steps h₂ hsteps)
      (complementary_of_steps h₂ hlu (complementary_of_advance hready hlu hadv) hsteps)
  · exact nearOptimal_of_run hacc hpsd hbounds hready (pos_of_validate hset).2 hrun hsolved
      hpolish

end Setup

/-! ## The bowl -/

theorem Bowl.boundsMeet : Problem.BoundsMeet Bowl.b Bowl.b := by
  have hone : -boundInfinity ≤ (1 : ℚ) ∧ (1 : ℚ) ≤ boundInfinity := by
    rw [boundInfinity]
    norm_num
  intro i hi
  obtain rfl : i = 0 := Nat.lt_one_iff.mp hi
  exact ⟨le_rfl, hone.2, hone.1⟩

/-- No time passes. -/
def Bowl.clock : Clock ℚ := ⟨0, fun _ => 0, 0⟩

/-- Twenty-five iterations solve it, with the defaults. -/
theorem Bowl.solved : ∃ s₀ stage,
    setup Bowl.P Bowl.q Bowl.A Bowl.b Bowl.b .default lastFirst = .ok (.ok s₀) ∧
      s₀.settings.validate = .ok () ∧ s₀.run Bowl.clock = .ok stage ∧
      stage.solver.info.status = .solved ∧ stage.solver.info.polish ≠ .successful := by
  have hfirst : firstRun Bowl.P Bowl.q Bowl.A Bowl.b Bowl.b .default lastFirst Bowl.clock
      (fun s₀ stage => decide (s₀.settings.validate = .ok () ∧
        stage.solver.info.status = .solved ∧ stage.solver.info.polish ≠ .successful)) = true := by
    decide +kernel
  obtain ⟨s₀, stage, hsetup, hrun, htest⟩ := exists_of_firstRun hfirst
  obtain ⟨hset, hsolved, hpolish⟩ := of_decide_eq_true htest
  exact ⟨s₀, stage, hsetup, hset, hrun, hsolved, hpolish⟩

theorem nearOptimal_of_setup_bowl : ∃ s₀ stage,
    setup Bowl.P Bowl.q Bowl.A Bowl.b Bowl.b .default lastFirst = .ok (.ok s₀) ∧
      s₀.run Bowl.clock = .ok stage ∧ stage.solver.info.status = .solved ∧
      Problem.NearOptimal Bowl.P Bowl.q Bowl.A Bowl.b Bowl.b (vec 2 stage.solver.solution.x)
        (stage.solver.equilibration.slack 1 stage.solver.iterate.z)
        (vec 1 stage.solver.solution.y) stage.solver.info.primRes
        stage.solver.info.dualRes := by
  obtain ⟨s₀, stage, hsetup, hset, hrun, hsolved, hpolish⟩ := Bowl.solved
  refine ⟨s₀, stage, hsetup, hrun, hsolved, ?_⟩
  exact (nearOptimal_of_setup hsetup Bowl.isSemidefinite Bowl.boundsMeet permutes_lastFirst
    .refl).2 Bowl.clock stage hset hrun hsolved hpolish

end Solver

end SplitQP
