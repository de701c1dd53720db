import SplitQP.Proofs.Admm.Stationary
/-!
# No iteration leads away from a solution

What an iteration does depends on `x` and on `z + y / ρ` alone, the `z`
before it was moved into its bounds. An optimal point has such a pair, too,
and `Iterate.distance` measures how far apart two pairs are. A step lowers
that distance by what the objective curves, by what the two multipliers
pull apart, and by the length of the move (`Iterate.tilde_ensures_distance`). For
a convex program, a complementary iterate and a relaxation below two none
of these is negative: no step leads away from an optimal point, and one
from elsewhere leads closer to it (`Iterate.step_approaches`). In a run
this is so for every iteration but the first
(`Solver.approaches_of_setup`).
-/

namespace SplitQP

open Checked SplitQP.Dense Finset

namespace Iterate

variable {K : Type} [ExactField K] {p : Problem K} {steps : StepSizes K} {kkt : KktSystem K}
  {v w : Iterate K} {sigma alpha : K}

/-! ## Distances -/

/-- `z + y / ρ`, the `z` before it is moved into its bounds. -/
def unclipped (steps : StepSizes K) (m : ℕ) (v : Iterate K) : Fin m → K :=
  fun i => v.z.getD i 0 + v.y.getD i 0 / steps.rho.getD i 0

/-- The sum of squares in which `x` has the weight `sigma` and each row its step size. -/
def weigh (steps : StepSizes K) (sigma : K) {n m : ℕ} (a : Fin n → K) (b : Fin m → K) : K :=
  sigma * ∑ j, a j ^ 2 + ∑ i, vec m steps.rho i * b i ^ 2

/-- **The squared distance** of two iterates, in `x` and in `z + y / ρ`. -/
def distance (p : Problem K) (steps : StepSizes K) (sigma : K) (v w : Iterate K) : K :=
  weigh steps sigma (vec p.n v.x - vec p.n w.x) (v.unclipped steps p.m - w.unclipped steps p.m)

section Weigh

variable {n m : ℕ} {a a' : Fin n → K} {b b' : Fin m → K}

theorem weigh_add_smul : weigh steps sigma (a + alpha • a') (b + alpha • b') =
    weigh steps sigma a b + 2 * alpha * (sigma * dotProduct a' a +
      ∑ i, vec m steps.rho i * (b' i * b i)) + alpha ^ 2 * weigh steps sigma a' b' := by
  have hx : ∑ j, (a + alpha • a') j ^ 2 =
      ∑ j, a j ^ 2 + 2 * alpha * dotProduct a' a + alpha ^ 2 * ∑ j, a' j ^ 2 := by
    simp only [dotProduct, mul_sum, ← sum_add_distrib, Pi.add_apply, Pi.smul_apply, smul_eq_mul]
    exact sum_congr rfl fun j _ => by ring
  have hz : ∑ i, vec m steps.rho i * (b + alpha • b') i ^ 2 = ∑ i, vec m steps.rho i * b i ^ 2 +
      2 * alpha * ∑ i, vec m steps.rho i * (b' i * b i) +
        alpha ^ 2 * ∑ i, vec m steps.rho i * b' i ^ 2 := by
    simp only [mul_sum, ← sum_add_distrib, Pi.add_apply, Pi.smul_apply, smul_eq_mul]
    exact sum_congr rfl fun i _ => by ring
  rw [weigh, hx, hz, weigh, weigh]
  ring

/-- Only what does not move at all weighs nothing. -/
theorem weigh_pos (hs : steps.Sound m) (hsigma : 0 < sigma) (h : a ≠ 0 ∨ b ≠ 0) :
    0 < weigh steps sigma a b := by
  have hcol : ∀ j ∈ univ, 0 ≤ a j ^ 2 := fun j _ => sq_nonneg _
  have hrow : ∀ i ∈ univ, 0 ≤ vec m steps.rho i * b i ^ 2 := fun i _ =>
    mul_nonneg (hs.rho_pos i i.isLt).le (sq_nonneg _)
  rw [weigh]
  rcases h with h | h
  · obtain ⟨j, hj⟩ := Function.ne_iff.mp h
    have hpos : 0 < ∑ j, a j ^ 2 := sum_pos' hcol ⟨j, mem_univ j, sq_pos_iff.mpr hj⟩
    exact add_pos_of_pos_of_nonneg (mul_pos hsigma hpos) (sum_nonneg hrow)
  · obtain ⟨i, hi⟩ := Function.ne_iff.mp h
    have hpos : 0 < ∑ i, vec m steps.rho i * b i ^ 2 :=
      sum_pos' hrow ⟨i, mem_univ i, mul_pos (hs.rho_pos i i.isLt) (sq_pos_iff.mpr hi)⟩
    exact add_pos_of_nonneg_of_pos (mul_nonneg hsigma.le (sum_nonneg hcol)) hpos

/-- The proximal term, tested with the way from `c` to `a`. -/
theorem dotProduct_neg_smul_sub (sigma : K) (a b c : Fin n → K) :
    dotProduct (a - c) (-(sigma • (a - b))) =
      -(sigma * dotProduct (a - b) (b - c) + sigma * ∑ j, (a - b) j ^ 2) := by
  simp only [dotProduct, ← mul_add, ← sum_add_distrib, mul_sum, ← sum_neg_distrib]
  refine sum_congr rfl fun j _ => ?_
  simp only [Pi.neg_apply, Pi.smul_apply, Pi.sub_apply, smul_eq_mul]
  ring

end Weigh

/-! ## Complementary points -/

/-- **Multipliers pull apart:** between two complementary points `y` grows with `z`. -/
theorem Complementary.pull_nonneg (hv : Complementary p v) (hw : Complementary p w) :
    0 ≤ dotProduct (vec p.m v.z - vec p.m w.z) (vec p.m v.y - vec p.m w.y) := by
  refine sum_nonneg fun i _ => ?_
  have hvi := hv.side i i.isLt _ (hw.ge i i.isLt) (hw.le i i.isLt)
  have hwi := hw.side i i.isLt _ (hv.ge i i.isLt) (hv.le i i.isLt)
  simp only [Pi.sub_apply, vec]
  linarith

/-! ## The step -/

section Step

variable {xt zt : Array K} (hp : p.Sound) (hs : steps.Sound p.m) (hv : v.Sized p.n p.m)

include hp hs hv

/-- **A step moves the pair** towards `(x̃, z̃)`, as far as the relaxation says. -/
theorem unclipped_advance (hz : zt.size = p.m) :
    (advance p steps alpha v xt zt).unclipped steps p.m =
      v.unclipped steps p.m + alpha • (vec p.m zt - vec p.m v.z) := by
  funext i
  have hne := (hs.rho_pos i i.isLt).ne'
  rw [unclipped, getD_advance_y alpha xt hp hs hv hz i.isLt,
    getD_relax hz hv.size_z i.isLt]
  simp only [unclipped, vec, Pi.add_apply, Pi.smul_apply, Pi.sub_apply, smul_eq_mul]
  field_simp
  ring

omit hp hs in
theorem vec_advance_x (hx : xt.size = p.n) : vec p.n (advance p steps alpha v xt zt).x =
    vec p.n v.x + alpha • (vec p.n xt - vec p.n v.x) := by
  funext j
  have hrelax : (advance p steps alpha v xt zt).x.getD j 0 =
      alpha * xt.getD j 0 + (1 - alpha) * v.x.getD j 0 := getD_relax hx hv.size_x j.isLt
  simp only [vec, hrelax, Pi.add_apply, Pi.smul_apply, Pi.sub_apply, smul_eq_mul]
  ring

omit hp in
/-- The multipliers of the rows, tested with the way of `z`. -/
theorem dotProduct_multipliers {nu : Array K} (hnu : nu.size = p.m) :
    dotProduct (vec p.m nu - vec p.m w.y) (vec p.m (zTilde steps v nu) - vec p.m w.z) =
      ∑ i, vec p.m steps.rho i * ((vec p.m (zTilde steps v nu) - vec p.m v.z) i *
          (v.unclipped steps p.m - w.unclipped steps p.m) i) +
        ∑ i, vec p.m steps.rho i * (vec p.m (zTilde steps v nu) - vec p.m v.z) i ^ 2 +
        dotProduct (vec p.m v.z - vec p.m w.z) (vec p.m v.y - vec p.m w.y) := by
  simp only [dotProduct, ← sum_add_distrib]
  refine sum_congr rfl fun i _ => ?_
  have hne := (hs.rho_pos i i.isLt).ne'
  simp only [vec_zTilde (p := p) hs hv hnu, unclipped, vec, Pi.add_apply, Pi.sub_apply,
    Pi.mul_apply, hs.getD_rhoInv i.isLt]
  field_simp
  ring

variable (hc : Kkt.IsConvex p.P p.A sigma) (hk : KktSystem.Factored p.P p.A sigma steps.rhoInv kkt)

include hc hk

/-- **The KKT solution, seen from an optimal point:** against the way there, the move to
it loses its own length, the curvature of the objective and the pull of the multipliers. -/
theorem tilde_ensures_balance (hw : Optimal p w) : Ensures (v.tilde p kkt steps sigma) fun t =>
    t.1.size = p.n ∧ t.2.size = p.m ∧
      sigma * dotProduct (vec p.n t.1 - vec p.n v.x) (vec p.n v.x - vec p.n w.x) +
        ∑ i, vec p.m steps.rho i * ((vec p.m t.2 - vec p.m v.z) i *
          (v.unclipped steps p.m - w.unclipped steps p.m) i) +
      weigh steps sigma (vec p.n t.1 - vec p.n v.x) (vec p.m t.2 - vec p.m v.z) +
      dotProduct (vec p.n t.1 - vec p.n w.x)
        ((p.P.toSymMatrix p.n).mulVec (vec p.n t.1 - vec p.n w.x)) +
      dotProduct (vec p.m v.z - vec p.m w.z) (vec p.m v.y - vec p.m w.y) = 0 := by
  refine (tilde_ensures_solves hp hs hv hc hk).mono ?_
  rintro ⟨xt, zt⟩ ⟨nu, hxt, hnu, rfl, htop, hbottom, -⟩
  dsimp only at hxt htop hbottom ⊢
  have hzt := vec_zTilde (p := p) hs hv hnu
  have hsize : (zTilde steps v nu).size = p.m :=
    size_zipWith hv.size_z (size_zipWith (size_zipWith hnu hv.size_y) hs.size_rhoInv)
  refine ⟨hxt, hsize, ?_⟩
  have hAx : (p.A.toMatrix p.m p.n).mulVec (vec p.n xt - vec p.n w.x) =
      vec p.m (zTilde steps v nu) - vec p.m w.z := by
    rw [Matrix.mulVec_sub, hw.primal, hzt]
    linear_combination hbottom
  have hgrad : (p.P.toSymMatrix p.n).mulVec (vec p.n xt - vec p.n w.x) +
      (p.A.toMatrix p.m p.n).transpose.mulVec (vec p.m nu - vec p.m w.y) =
        -(sigma • (vec p.n xt - vec p.n v.x)) := by
    rw [Matrix.mulVec_sub, Matrix.mulVec_sub, smul_sub]
    linear_combination htop - hw.dual
  -- the equation of gradients, tested with the way from the optimal point
  have htest := congrArg (dotProduct (vec p.n xt - vec p.n w.x)) hgrad
  rw [dotProduct_add, Matrix.mulVec_transpose, dotProduct_comm _ (Matrix.vecMul _ _),
    ← Matrix.dotProduct_mulVec, hAx] at htest
  have hrows := dotProduct_multipliers (w := w) hs hv hnu
  have hcols := dotProduct_neg_smul_sub sigma (vec p.n xt) (vec p.n v.x) (vec p.n w.x)
  rw [weigh]
  linear_combination htest - hrows + hcols

/-- **What a step does to the distance from an optimal point:** it takes away the curvature,
the pull and the length of the move, the last as the relaxation says. -/
theorem tilde_ensures_distance (hw : Optimal p w) (alpha : K) :
    Ensures (v.tilde p kkt steps sigma) fun t =>
    distance p steps sigma (advance p steps alpha v t.1 t.2) w +
      2 * alpha * (dotProduct (vec p.n t.1 - vec p.n w.x)
          ((p.P.toSymMatrix p.n).mulVec (vec p.n t.1 - vec p.n w.x)) +
        dotProduct (vec p.m v.z - vec p.m w.z) (vec p.m v.y - vec p.m w.y)) +
      alpha * (2 - alpha) * weigh steps sigma (vec p.n t.1 - vec p.n v.x)
        (vec p.m t.2 - vec p.m v.z) = distance p steps sigma v w := by
  refine (tilde_ensures_balance hp hs hv hc hk hw).mono ?_
  rintro ⟨xt, zt⟩ ⟨hxt, hzt, hbalance⟩
  dsimp only at hxt hzt hbalance ⊢
  rw [distance, vec_advance_x hv hxt, unclipped_advance hp hs hv hzt, add_sub_right_comm,
    add_sub_right_comm, weigh_add_smul, distance]
  linear_combination 2 * alpha * hbalance

/-- **No step leads away from an optimal point,** and one from a point that is not optimal
itself leads closer to it. -/
theorem step_approaches (hw : Optimal p w) (hcomp : Complementary p v) (hpos : 0 < alpha)
    (htwo : alpha < 2) : Ensures (v.step p kkt steps sigma alpha) fun v' =>
      distance p steps sigma v' w ≤ distance p steps sigma v w ∧
        (¬ Optimal p v → distance p steps sigma v' w < distance p steps sigma v w) := by
  obtain ⟨⟨xt, zt⟩, ht, hdistance⟩ := tilde_ensures_distance hp hs hv hc hk hw alpha
  obtain ⟨hxt, hzt, -, hpoint⟩ := (tilde_ensures hp hs hv hc hk).of_eq_ok ht
  dsimp only at hdistance hxt hzt hpoint
  rw [step, ht]
  refine .ok ?_
  have hcurve : 0 ≤ dotProduct (vec p.n xt - vec p.n w.x)
      ((p.P.toSymMatrix p.n).mulVec (vec p.n xt - vec p.n w.x)) := by
    have hsemi := hc.semidefinite
    rw [hp.ncols_A] at hsemi
    exact hsemi _
  have hpull := hcomp.pull_nonneg hw.atBounds.complementary
  have hlost := mul_nonneg (mul_nonneg zero_le_two hpos.le) (add_nonneg hcurve hpull)
  have hrelax : 0 < alpha * (2 - alpha) := mul_pos hpos (sub_pos.mpr htwo)
  by_cases hstill : vec p.n xt - vec p.n v.x = 0 ∧ vec p.m zt - vec p.m v.z = 0
  · -- the KKT solution is the point itself, so that one is optimal
    have hx := eq_of_vec hxt hv.size_x (sub_eq_zero.mp hstill.1)
    have hz := eq_of_vec hzt hv.size_z (sub_eq_zero.mp hstill.2)
    obtain ⟨hprimal, hdual⟩ := hpoint.mp ⟨hx, hz⟩
    refine ⟨?_, fun hnot => absurd ⟨hprimal, hdual, hcomp.atBounds⟩ hnot⟩
    have hzero : weigh steps sigma (0 : Fin p.n → K) (0 : Fin p.m → K) = 0 := by simp [weigh]
    rw [hstill.1, hstill.2, hzero] at hdistance
    linarith
  · have hmoved := mul_pos hrelax (weigh_pos hs hc.shift_pos (not_and_or.mp hstill))
    have hlt : distance p steps sigma (advance p steps alpha v xt zt) w <
        distance p steps sigma v w := by linarith
    exact ⟨hlt.le, fun _ => hlt⟩

end Step

end Iterate

namespace Solver

/-! ## Iterations of a run -/

section Reaches

variable {α : Type} [Scalar α] {clock : Clock α} {s t : Solver α} {j k : ℕ}

/-- **A run comes from `s` after iteration `j` to `t` after iteration `k`,** and goes on. -/
inductive Reaches (clock : Clock α) (s : Solver α) (j : ℕ) : Solver α → ℕ → Prop
  | refl : Reaches clock s j s j
  | tail {t : Solver α} {k : ℕ} {stage : Stage α Bool} : Reaches clock s j t k →
      t.iteration clock (k + 1) = .ok stage → stage.result = .ok true →
      Reaches clock s j stage.solver (k + 1)

/-- **The step sizes stay** from `s` to `t`, unless their changes are counted. -/
def Counted (s t : Solver α) : Prop :=
  s.info.rhoUpdates ≤ t.info.rhoUpdates ∧
    (t.info.rhoUpdates = s.info.rhoUpdates → t.steps = s.steps)

omit [Scalar α] in
theorem Counted.trans {s' : Solver α} (h : Counted s t) (h' : Counted t s') : Counted s s' := by
  refine ⟨h.1.trans h'.1, fun heq => ?_⟩
  have hmid : t.info.rhoUpdates = s.info.rhoUpdates := by
    have hle := h.1
    have hle' := h'.1
    omega
  exact (h'.2 (heq.trans hmid.symm)).trans (h.2 hmid)

theorem counted_of_adaptIfDue {due : Bool} {stage : Stage α Unit}
    (h : s.adaptIfDue due = .ok stage) (hok : stage.result = .ok ()) : Counted s stage.solver := by
  cases due with
  | false =>
    cases h
    exact ⟨le_rfl, fun _ => rfl⟩
  | true =>
    rw [adaptIfDue, if_pos rfl, adaptRho] at h
    dsimp only at h
    split at h
    · obtain ⟨⟨kkt, outcome⟩, -, h⟩ := bind_eq_ok.mp h
      cases outcome with
      | error e =>
        cases h
        cases hok
      | ok =>
        cases h
        exact ⟨Nat.le_succ _, fun heq => absurd heq (Nat.succ_ne_self _)⟩
    · cases h
      exact ⟨le_rfl, fun _ => rfl⟩

/-- **An iteration steps once,** and counts what it does to the step sizes after that. -/
theorem iteration_eq_ok {stage : Stage α Bool} (h : s.iteration clock k = .ok stage) :
    s.iterate.step s.problem s.kkt s.steps s.settings.sigma s.settings.alpha =
        .ok stage.solver.iterate ∧
      (stage.result = .ok true → Counted s stage.solver) := by
  rw [iteration] at h
  obtain ⟨s₁, hadv, h⟩ := bind_eq_ok.mp h
  obtain ⟨v, hv, hadv⟩ := bind_eq_ok.mp hadv
  cases hadv
  obtain ⟨s₂, hrefresh, h⟩ := bind_eq_ok.mp h
  have hsame : s₂.iterate = v ∧ Counted s s₂ := by
    obtain ⟨-, hupdate⟩ | ⟨-, rfl⟩ := refresh_eq_ok hrefresh
    · obtain ⟨r, -, rfl⟩ := updateResiduals_eq_ok hupdate
      exact ⟨rfl, le_rfl, fun _ => rfl⟩
    · exact ⟨rfl, le_rfl, fun _ => rfl⟩
  obtain ⟨hiterate, hcounted⟩ := hsame
  obtain ⟨checked, hchecked, h⟩ := bind_eq_ok.mp h
  cases checked with
  | some s₃ =>
    cases h
    rw [(keeps_of_checkIfDue hchecked).iterate_eq, hiterate]
    exact ⟨hv, fun hon => by cases hon⟩
  | none =>
    obtain ⟨stage', hadapt, h⟩ := bind_eq_ok.mp h
    cases h
    rw [((keeps_of_adaptIfDue hadapt).trans keeps_of_goOn).iterate_eq, hiterate]
    refine ⟨hv, fun hon => ?_⟩
    rw [goOn] at hon ⊢
    split at hon
    · cases hon
    · rename_i hok
      dsimp only at hon ⊢
      split at hon
      · cases hon
      · rw [if_neg ‹_›]
        exact hcounted.trans (counted_of_adaptIfDue hadapt hok)

namespace Reaches

theorem le (h : Reaches clock s j t k) : j ≤ k := by
  induction h with
  | refl => exact le_rfl
  | tail _ _ _ ih => exact ih.trans (Nat.le_succ _)

theorem steps (h : Reaches clock s j t k) : Steps s t := by
  induction h with
  | refl => exact .refl
  | tail _ hiter _ ih =>
    obtain ⟨s₁, hadv, hafter⟩ := (iterated_of_iteration hiter).steps
    exact (ih.tail (.advanced hadv)).trans hafter

theorem problem_eq (h : Reaches clock s j t k) : t.problem = s.problem :=
  (problem_of_moves h.steps.moves).1

theorem settings_eq (h : Reaches clock s j t k) : t.settings = s.settings := by
  induction h with
  | refl => rfl
  | tail _ hiter _ ih => exact (iterated_of_iteration hiter).settings_eq.trans ih

theorem counted (h : Reaches clock s j t k) : Counted s t := by
  induction h with
  | refl => exact ⟨le_rfl, fun _ => rfl⟩
  | tail _ hiter hon ih => exact ih.trans ((iteration_eq_ok hiter).2 hon)

/-- **What is left of a run** only depends on where it has come to. -/
theorem iterations_eq (h : Reaches clock s j t k) (count : ℕ) (told : List (Event α)) :
    ∃ told', iterations clock (count + (k - j)) (j + 1) told s =
      iterations clock count (k + 1) told' t := by
  induction h generalizing count with
  | refl => exact ⟨told, by rw [Nat.sub_self, Nat.add_zero]⟩
  | @tail t k stage hreach hiter hon ih =>
    obtain ⟨told', hrest⟩ := ih (count + 1)
    have hcount : count + (k + 1 - j) = count + 1 + (k - j) := by
      have hle := hreach.le
      omega
    refine ⟨stage.events.reverse ++ told', ?_⟩
    rw [hcount, hrest, iterations, hiter, ok_bind]
    dsimp only
    rw [hon]

end Reaches

end Reaches

/-! ## Solvers -/

variable {K : Type} [ExactField K] {p₀ : Problem K} {s t : Solver K} {clock : Clock K}
  {j k : ℕ} {w : Iterate K}

/-- The squared distance for the step sizes held. -/
def distance (s : Solver K) (v w : Iterate K) : K :=
  Iterate.distance s.problem s.steps s.settings.sigma v w

/-- **A solver within a run,** under the settings it was set up with. -/
structure Underway (p₀ : Problem K) (s : Solver K) : Prop where
  ready : Ready p₀ s.settings.sigma s
  legal : Legal s.settings
  uncrossed : Uncrossed p₀
  complementary : s.iterate.Complementary s.problem

/-- **An iteration ends within a run,** wherever it started. -/
theorem underway_of_iteration (h : Ready p₀ s.settings.sigma s) (hlegal : Legal s.settings)
    (hlu : Uncrossed p₀) {stage : Stage K Bool} (hiter : s.iteration clock k = .ok stage) :
    Underway p₀ stage.solver := by
  have hiterated := iterated_of_iteration hiter
  obtain ⟨s₁, hadv, hafter⟩ := hiterated.steps
  have hproblem := (problem_of_moves ((Steps.moves hafter).head (.step (.advanced hadv)))).1
  have hready := (invariant_ready.iteration_ensures h clock k).of_eq_ok hiter
  have hcomp := (Iterate.step_ensures s.settings.sigma s.settings.alpha h.sound h.stepSizes h.sized
    h.fits.tracks).of_eq_ok (iteration_eq_ok hiter).1 (h.scaled_le hlu)
  rw [← hproblem] at hcomp
  rw [← hiterated.settings_eq] at hlegal
  refine ⟨?_, hlegal, hlu, hcomp⟩
  rw [hiterated.settings_eq]
  exact hready.kept

/-- **So does a run,** after any iteration. -/
theorem underway_of_reaches (h : Ready p₀ s.settings.sigma s) (hlegal : Legal s.settings)
    (hlu : Uncrossed p₀) (hreach : Reaches clock s j t k) (hlt : j < k) : Underway p₀ t := by
  cases hreach with
  | refl => exact absurd hlt (lt_irrefl j)
  | tail hbefore hiter =>
    have hready := ready_of_steps h hbefore.steps
    rw [← hbefore.settings_eq] at hready hlegal
    exact underway_of_iteration hready hlegal hlu hiter

namespace Underway

/-- **No iteration leads away from an optimal point.** -/
theorem iteration_ensures (h : Underway p₀ s) (hw : w.Optimal s.problem) (clock : Clock K)
    (k : ℕ) : Ensures (s.iteration clock k) fun stage =>
      s.distance stage.solver.iterate w ≤ s.distance s.iterate w ∧
        (¬ s.iterate.Optimal s.problem →
          s.distance stage.solver.iterate w < s.distance s.iterate w) := by
  obtain ⟨stage, hiter, -⟩ := invariant_ready.iteration_ensures h.ready clock k
  have hstep := Iterate.step_approaches h.ready.sound h.ready.stepSizes h.ready.sized
    h.ready.convex h.ready.factored hw h.complementary h.legal.alpha_pos h.legal.alpha_lt
  exact .of_eq hiter (hstep.of_eq_ok (iteration_eq_ok hiter).1)

theorem of_reaches (h : Underway p₀ s) (hreach : Reaches clock s j t k) : Underway p₀ t := by
  cases hreach with
  | refl => exact h
  | tail hbefore hiter hon =>
    exact underway_of_reaches h.ready h.legal h.uncrossed (.tail hbefore hiter hon)
      (Nat.lt_succ_of_le hbefore.le)

/-- **Nor do several,** as long as the step sizes stay. -/
theorem distance_le_of_reaches (h : Underway p₀ s) (hw : w.Optimal s.problem)
    (hreach : Reaches clock s j t k) (hsame : t.info.rhoUpdates = s.info.rhoUpdates) :
    s.distance t.iterate w ≤ s.distance s.iterate w := by
  induction hreach with
  | refl => exact le_rfl
  | @tail t k stage hreach hiter hon ih =>
    -- the count of changes never falls, so it is the same in between
    have hcount := hreach.counted.1
    have hlast := ((iteration_eq_ok hiter).2 hon).1
    have hmid : t.info.rhoUpdates = s.info.rhoUpdates := by omega
    rw [← hreach.problem_eq] at hw
    have hstep := (((h.of_reaches hreach).iteration_ensures hw clock (k + 1)).of_eq_ok hiter).1
    rw [distance, distance, hreach.problem_eq, hreach.settings_eq, hreach.counted.2 hmid] at hstep
    exact hstep.trans (ih hmid)

end Underway

section Setup

variable {P A : Csc K} {q l u : Array K} {settings : Settings K} {order : EliminationOrder}
  {s₀ : Solver K}

/-- **No iteration of a run leads away from a solution,** except perhaps the first one. Take
any run of a solver of a convex program under the settings it was set up with, and any
optimal point of the scaled program. Each further iteration answers, and ends no farther
from that point than it began, measured by the step sizes it is made with; it ends closer
unless it began at an optimal point. The same distance does not grow over several
iterations as long as no change of the step sizes is counted. -/
theorem approaches_of_setup (hsetup : setup P q A l u settings order = .ok (.ok s₀))
    (hpsd : IsSemidefinite (P.toSymMatrix q.size)) (hbounds : Problem.BoundsMeet l u)
    (horder : order.Permutes K) (hmoves : Moves s₀ s) (hset : s.settings = settings)
    (hreach : Reaches clock { s with info := s.info.restart } 0 t k) (hk : 0 < k)
    (hw : w.Optimal s₀.problem) :
    (∀ clock', Ensures (t.iteration clock' (k + 1)) fun stage =>
      t.distance stage.solver.iterate w ≤ t.distance t.iterate w ∧
        (¬ t.iterate.Optimal s₀.problem →
          t.distance stage.solver.iterate w < t.distance t.iterate w)) ∧
    ∀ k' t', Reaches clock t k t' k' → t'.info.rhoUpdates = t.info.rhoUpdates →
      t'.steps = t.steps ∧ t.distance t'.iterate w ≤ t.distance t.iterate w := by
  obtain ⟨p₀, hacc, hready₀⟩ := ready_of_setup hsetup hpsd horder
  have hlegal := legal_of_validate (equilibrated_of_setup hsetup).1
  have hlu := uncrossed_of_accepted hacc hbounds
  subst hset
  have hstart : Ready p₀ s.settings.sigma { s with info := s.info.restart } :=
    invariant_ready.noted (ready_of_moves hready₀ hmoves) s.residuals _ s.solution s.settings
  have hunder := underway_of_reaches (s := { s with info := s.info.restart }) hstart hlegal hlu
    hreach hk
  have hproblem : t.problem = s₀.problem :=
    hreach.problem_eq.trans (problem_of_moves hmoves).1
  rw [← hproblem] at hw ⊢
  exact ⟨fun clock' => hunder.iteration_ensures hw clock' (k + 1), fun k' t' hlater hsame =>
    ⟨hlater.counted.2 hsame, hunder.distance_le_of_reaches hw hlater hsame⟩⟩

end Setup

end Solver

/-- The optimal point of the ramp. -/
def Ramp.bottom : Iterate ℚ := ⟨#[1 / 2], #[1 / 2], #[7 / 4], #[0], #[0]⟩

theorem Ramp.isSemidefinite : IsSemidefinite (Ramp.P.toSymMatrix 1) :=
  isSemidefinite_fin_one (by decide +kernel)

theorem Ramp.boundsMeet : Problem.BoundsMeet Ramp.l Ramp.u := by
  intro i hi
  have hi : i < 1 := hi
  interval_cases i
  decide +kernel

namespace Solver

/-- The second iteration leads closer to the bottom. -/
theorem approaches_of_setup_ramp : ∃ s₀ t,
    setup Ramp.P Ramp.q Ramp.A Ramp.l Ramp.u (Ramp.settings 0) .natural = .ok (.ok s₀) ∧
      Reaches .still { s₀ with info := s₀.info.restart } 0 t 1 ∧
      Ensures (t.iteration .still 2) fun stage =>
        t.distance stage.solver.iterate Ramp.bottom < t.distance t.iterate Ramp.bottom := by
  have hfirst : firstRun Ramp.P Ramp.q Ramp.A Ramp.l Ramp.u (Ramp.settings 0) .natural .still
      (fun s₀ _ => decide (Ramp.bottom.Optimal s₀.problem ∧
        (({ s₀ with info := s₀.info.restart } : Solver ℚ).iteration .still 1).toOption.map
          (fun stage => (stage.result, decide (stage.solver.iterate.Optimal s₀.problem))) =
            some (.ok true, false))) = true := by
    decide +kernel
  obtain ⟨s₀, -, hsetup, -, htest⟩ := exists_of_firstRun hfirst
  obtain ⟨hbottom, hone⟩ := of_decide_eq_true htest
  cases hiter : ({ s₀ with info := s₀.info.restart } : Solver ℚ).iteration .still 1 with
  | error e =>
    rw [hiter] at hone
    cases hone
  | ok stage =>
    rw [hiter] at hone
    obtain ⟨hon, hnot⟩ := Prod.mk.inj (Option.some.inj hone)
    have hreach := Reaches.refl.tail hiter hon
    have happroach := (approaches_of_setup hsetup Ramp.isSemidefinite Ramp.boundsMeet
      permutes_natural .refl (starts_of_setup hsetup).settings_eq hreach one_pos hbottom).1 .still
    exact ⟨s₀, stage.solver, hsetup, hreach,
      happroach.mono fun _ h => h.2 (of_decide_eq_false hnot)⟩

end Solver

end SplitQP
