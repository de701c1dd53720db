import SplitQP.Proofs.Admm.Optimality
/-!
# Where the iteration stands still

One iteration leaves `x`, `z` and `y` alone exactly where they satisfy the
optimality conditions. The KKT solution `(x̃, ν)` is `(x, y)` itself exactly
where `z = A·x` and the gradients cancel (`Iterate.tilde_ensures`); `x` and
`z` then stay because they are relaxed towards themselves, and `y` stays
because clipping takes away just what `y` had pushed in
(`Iterate.advance_eq_iff`). Neither the step sizes nor the relaxation
matter, as long as none is zero. So it is for every solver of a convex
program, whatever has become of its step size
(`Solver.standsStill_of_setup`).
-/

namespace SplitQP

open Checked SplitQP.Dense

namespace Iterate

variable {K : Type} [ExactField K] {p : Problem K} {steps : StepSizes K} {kkt : KktSystem K}
  {v : Iterate K} {sigma alpha : K}

/-! ## Optimality conditions -/

/-- **`z` is within its bounds,** and `y` is not zero except where `z` is at the
bound `y` points to. -/
structure AtBounds (p : Problem K) (v : Iterate K) : Prop where
  ge : ∀ i < p.m, p.l.getD i 0 ≤ v.z.getD i 0
  le : ∀ i < p.m, v.z.getD i 0 ≤ p.u.getD i 0
  upper : ∀ i < p.m, 0 < v.y.getD i 0 → v.z.getD i 0 = p.u.getD i 0
  lower : ∀ i < p.m, v.y.getD i 0 < 0 → v.z.getD i 0 = p.l.getD i 0

/-- **The optimality conditions** of a program. -/
structure Optimal (p : Problem K) (v : Iterate K) : Prop where
  primal : (p.A.toMatrix p.m p.n).mulVec (vec p.n v.x) = vec p.m v.z
  dual : (p.P.toSymMatrix p.n).mulVec (vec p.n v.x) + vec p.n p.q +
    (p.A.toMatrix p.m p.n).transpose.mulVec (vec p.m v.y) = 0
  atBounds : AtBounds p v

instance (p : Problem K) (v : Iterate K) : Decidable (AtBounds p v) :=
  decidable_of_iff (∀ i < p.m, (p.l.getD i 0 ≤ v.z.getD i 0 ∧ v.z.getD i 0 ≤ p.u.getD i 0) ∧
      (0 < v.y.getD i 0 → v.z.getD i 0 = p.u.getD i 0) ∧
      (v.y.getD i 0 < 0 → v.z.getD i 0 = p.l.getD i 0))
    ⟨fun h => ⟨fun i hi => (h i hi).1.1, fun i hi => (h i hi).1.2, fun i hi => (h i hi).2.1,
      fun i hi => (h i hi).2.2⟩,
     fun h i hi => ⟨⟨h.ge i hi, h.le i hi⟩, h.upper i hi, h.lower i hi⟩⟩

instance (p : Problem K) (v : Iterate K) : Decidable (Optimal p v) :=
  decidable_of_iff ((p.A.toMatrix p.m p.n).mulVec (vec p.n v.x) = vec p.m v.z ∧
      (p.P.toSymMatrix p.n).mulVec (vec p.n v.x) + vec p.n p.q +
        (p.A.toMatrix p.m p.n).transpose.mulVec (vec p.m v.y) = 0 ∧ AtBounds p v)
    ⟨fun h => ⟨h.1, h.2.1, h.2.2⟩, fun h => ⟨h.primal, h.dual, h.atBounds⟩⟩

theorem AtBounds.complementary (h : AtBounds p v) : Complementary p v where
  ge := h.ge
  le := h.le
  side i hi t hl hu := by
    rcases lt_trichotomy (v.y.getD i 0) 0 with hy | hy | hy
    · rw [h.lower i hi hy]
      exact mul_nonneg_of_nonpos_of_nonpos (sub_nonpos.mpr hl) hy.le
    · rw [hy, mul_zero]
    · rw [h.upper i hi hy]
      exact mul_nonneg (sub_nonneg.mpr hu) hy.le

theorem Complementary.atBounds (h : Complementary p v) : AtBounds p v where
  ge := h.ge
  le := h.le
  upper i hi hy := by
    have hle := (h.ge i hi).trans (h.le i hi)
    have hside := nonneg_of_mul_nonneg_left (h.side i hi _ hle le_rfl) hy
    exact (h.le i hi).antisymm (sub_nonneg.mp hside)
  lower i hi hy := by
    have hle := (h.ge i hi).trans (h.le i hi)
    have hside := nonpos_of_mul_nonneg_left (h.side i hi _ le_rfl hle) hy
    exact (sub_nonpos.mp hside).antisymm (h.ge i hi)

/-- **Clipping undoes a move by `w`** exactly where `w` points out of the bounds. -/
theorem clip_add_eq_iff {l u z w : K} (hlu : l ≤ u) : min (max (z + w) l) u = z ↔
    (l ≤ z ∧ z ≤ u) ∧ (0 < w → z = u) ∧ (w < 0 → z = l) := by
  constructor
  · intro h
    have hl : l ≤ z := (le_min (le_max_right _ _) hlu).trans_eq h
    have hu : z ≤ u := h.symm.trans_le (min_le_right _ _)
    refine ⟨⟨hl, hu⟩, fun hw => ?_, fun hw => ?_⟩
    · by_contra hne
      have hlt : z < u := lt_of_le_of_ne hu hne
      exact (lt_min (lt_max_of_lt_left (lt_add_of_pos_right z hw)) hlt).ne' h
    · by_contra hne
      have hlt : l < z := lt_of_le_of_ne hl (Ne.symm hne)
      exact (min_lt_of_left_lt (max_lt (add_lt_of_neg_right z hw) hlt)).ne h
  · rintro ⟨⟨hl, hu⟩, hupper, hlower⟩
    rcases lt_trichotomy w 0 with hw | rfl | hw
    · rw [hlower hw, max_eq_right (by linarith), min_eq_left hlu]
    · rw [add_zero, max_eq_left hl, min_eq_left hu]
    · rw [hupper hw, max_eq_left (by linarith), min_eq_right (by linarith)]

/-! ## The step -/

section Advance

variable {xt zt : Array K}

/-- What is relaxed stays the same only where both points agree. -/
theorem relax_eq_iff {n : ℕ} {new old : Array K} (halpha : alpha ≠ 0) (hnew : new.size = n)
    (hold : old.size = n) : relax alpha new old = old ↔ new = old := by
  constructor
  · intro h
    refine eq_of_getD hnew hold fun i hi => ?_
    have hrelax : (relax alpha new old).getD i 0 =
        alpha * new.getD i 0 + (1 - alpha) * old.getD i 0 := getD_relax hnew hold hi
    rw [h] at hrelax
    refine mul_left_cancel₀ halpha ?_
    linear_combination -hrelax
  · rintro rfl
    refine eq_of_getD (size_relax hnew hnew) hnew fun i hi => ?_
    rw [getD_relax hnew hnew hi]
    ring

/-- **A step leads nowhere** exactly where it is taken to the point itself and the
multipliers are those of its bounds. -/
theorem advance_eq_iff (hp : p.Sound) (hs : steps.Sound p.m) (hv : v.Sized p.n p.m)
    (hx : xt.size = p.n) (hz : zt.size = p.m) (halpha : alpha ≠ 0)
    (hlu : ∀ i < p.m, p.l.getD i 0 ≤ p.u.getD i 0) :
    ((advance p steps alpha v xt zt).x = v.x ∧ (advance p steps alpha v xt zt).z = v.z ∧
      (advance p steps alpha v xt zt).y = v.y) ↔ xt = v.x ∧ zt = v.z ∧ AtBounds p v := by
  have hsized := sized_advance hp hs.fits hv alpha xt hz hx
  -- dividing `y` by a step size keeps its sign
  have hclip : ∀ i < p.m, min (max (v.z.getD i 0 + (steps.rho.getD i 0)⁻¹ * v.y.getD i 0)
      (p.l.getD i 0)) (p.u.getD i 0) = v.z.getD i 0 ↔
        (p.l.getD i 0 ≤ v.z.getD i 0 ∧ v.z.getD i 0 ≤ p.u.getD i 0) ∧
        (0 < v.y.getD i 0 → v.z.getD i 0 = p.u.getD i 0) ∧
        (v.y.getD i 0 < 0 → v.z.getD i 0 = p.l.getD i 0) := by
    intro i hi
    have hpos := inv_pos.mpr (hs.rho_pos i hi)
    have hneg : (steps.rho.getD i 0)⁻¹ * v.y.getD i 0 < 0 ↔ v.y.getD i 0 < 0 := by
      rw [← neg_pos, ← mul_neg, mul_pos_iff_of_pos_left hpos, neg_pos]
    rw [clip_add_eq_iff (hlu i hi), mul_pos_iff_of_pos_left hpos, hneg]
  constructor
  · rintro ⟨hx', hz', hy'⟩
    have hback : relax alpha zt v.z = v.z := by
      refine eq_of_getD (size_relax hz hv.size_z) hv.size_z fun i hi => ?_
      have hy := getD_advance_y alpha xt hp hs hv hz hi
      rw [hy', hz', left_eq_add] at hy
      exact sub_eq_zero.mp ((mul_eq_zero.mp hy).resolve_left (hs.rho_pos i hi).ne')
    have hbounds : ∀ i < p.m, (p.l.getD i 0 ≤ v.z.getD i 0 ∧ v.z.getD i 0 ≤ p.u.getD i 0) ∧
        (0 < v.y.getD i 0 → v.z.getD i 0 = p.u.getD i 0) ∧
        (v.y.getD i 0 < 0 → v.z.getD i 0 = p.l.getD i 0) := by
      intro i hi
      have hzi := getD_advance_z alpha xt hp hs hv hz hi
      rw [hback, hz'] at hzi
      exact (hclip i hi).mp hzi.symm
    exact ⟨(relax_eq_iff halpha hx hv.size_x).mp hx', (relax_eq_iff halpha hz hv.size_z).mp hback,
      fun i hi => (hbounds i hi).1.1, fun i hi => (hbounds i hi).1.2,
      fun i hi => (hbounds i hi).2.1, fun i hi => (hbounds i hi).2.2⟩
  · rintro ⟨rfl, rfl, hbounds⟩
    have hback : relax alpha v.z v.z = v.z := (relax_eq_iff halpha hz hz).mpr rfl
    have hz' : (advance p steps alpha v v.x v.z).z = v.z := by
      refine eq_of_getD hsized.size_z hz fun i hi => ?_
      rw [getD_advance_z alpha v.x hp hs hv hz hi, hback, hclip i hi]
      exact ⟨⟨hbounds.ge i hi, hbounds.le i hi⟩, hbounds.upper i hi, hbounds.lower i hi⟩
    refine ⟨(relax_eq_iff halpha hx hx).mpr rfl, hz', ?_⟩
    refine eq_of_getD hsized.size_y hv.size_y fun i hi => ?_
    rw [getD_advance_y alpha v.x hp hs hv hz hi, hback, hz', sub_self, mul_zero, add_zero]

end Advance

/-! ## The point it is taken to -/

section Tilde

variable (hp : p.Sound) (hs : steps.Sound p.m) (hv : v.Sized p.n p.m)
  (hc : Kkt.IsConvex p.P p.A sigma) (hk : KktSystem.Factored p.P p.A sigma steps.rhoInv kkt)

include hp hs hv

omit hp in
theorem vec_zTilde {nu : Array K} (hnu : nu.size = p.m) : vec p.m (zTilde steps v nu) =
    vec p.m v.z + vec p.m steps.rhoInv * (vec p.m nu - vec p.m v.y) := by
  have hmove : (nu.zipWith (fun nu y => nu - y) v.y).size = p.m := size_zipWith hnu hv.size_y
  rw [zTilde, vec_zipWith hv.size_z (size_zipWith hmove hs.size_rhoInv),
    vec_zipWith hmove hs.size_rhoInv, vec_zipWith hnu hv.size_y]
  rfl

include hc hk

/-- **The point `(x̃, z̃)` of the KKT system,** by its multipliers `ν`: they solve the
equations with the right hand side `(sigma·x - q, z - y / ρ)`, as nothing else does. -/
theorem tilde_ensures_solves : Ensures (v.tilde p kkt steps sigma) fun t => ∃ nu,
    t.1.size = p.n ∧ nu.size = p.m ∧ t.2 = zTilde steps v nu ∧
      (p.P.toSymMatrix p.n).mulVec (vec p.n t.1) + sigma • vec p.n t.1 +
        (p.A.toMatrix p.m p.n).transpose.mulVec (vec p.m nu) =
          sigma • vec p.n v.x - vec p.n p.q ∧
      (p.A.toMatrix p.m p.n).mulVec (vec p.n t.1) - vec p.m steps.rhoInv * vec p.m nu =
        vec p.m v.z - vec p.m steps.rhoInv * vec p.m v.y ∧
      ((p.P.toSymMatrix p.n).mulVec (vec p.n v.x) + vec p.n p.q +
          (p.A.toMatrix p.m p.n).transpose.mulVec (vec p.m v.y) = 0 →
        (p.A.toMatrix p.m p.n).mulVec (vec p.n v.x) = vec p.m v.z → t.1 = v.x ∧ nu = v.y) := by
  obtain ⟨inv, hinv⟩ := hk.analyses
  have hshift : (steps.rhoInv.zipWith (fun rinv y => rinv * y) v.y).size = p.m :=
    size_zipWith hs.size_rhoInv hv.size_y
  have ha : (v.x.zipWith (fun x q => sigma * x - q) p.q).size = p.n :=
    size_zipWith hv.size_x hp.size_q
  have hb : (v.z.zipWith (fun z s => z - s)
      (steps.rhoInv.zipWith (fun rinv y => rinv * y) v.y)).size = p.m :=
    size_zipWith hv.size_z hshift
  have htop : vec p.n (v.x.zipWith (fun x q => sigma * x - q) p.q) =
      sigma • vec p.n v.x - vec p.n p.q := vec_zipWith hv.size_x hp.size_q
  have hbottom : vec p.m (v.z.zipWith (fun z s => z - s)
      (steps.rhoInv.zipWith (fun rinv y => rinv * y) v.y)) =
        vec p.m v.z - vec p.m steps.rhoInv * vec p.m v.y := by
    rw [vec_zipWith hv.size_z hshift, vec_zipWith hs.size_rhoInv hv.size_y]
    rfl
  have hsolve := KktSystem.solve_ensures_solves hc.square
    (hs.size_rhoInv.trans hp.nrows_A.symm) hc.wellFormed_P hinv hk.stored
    (ha.trans hp.ncols_A.symm) (hb.trans hp.nrows_A.symm)
  rw [hp.ncols_A, hp.nrows_A] at hsolve
  obtain ⟨_, hsol, xt, nu, hxt, hnu, rfl, heqs, hunique⟩ := hsolve
  refine .of_eq (tilde_eq_ok hv.size_x hxt hsol) ⟨nu, hxt, hnu, rfl, heqs.top.trans htop,
    heqs.bottom.trans hbottom, fun hdual hprimal => ?_⟩
  obtain ⟨hx, hy⟩ := hunique v.x v.y hv.size_x hv.size_y {
    top := by
      rw [htop]
      linear_combination hdual
    bottom := by
      rw [hbottom]
      linear_combination hprimal }
  exact ⟨hx.symm, hy.symm⟩

/-- **`z̃ = A·x̃`,** and the point is `(x, z)` itself exactly where `z = A·x` and the
gradients cancel. -/
theorem tilde_ensures : Ensures (v.tilde p kkt steps sigma) fun t =>
    t.1.size = p.n ∧ t.2.size = p.m ∧
      vec p.m t.2 = (p.A.toMatrix p.m p.n).mulVec (vec p.n t.1) ∧
      (t.1 = v.x ∧ t.2 = v.z ↔ (p.A.toMatrix p.m p.n).mulVec (vec p.n v.x) = vec p.m v.z ∧
        (p.P.toSymMatrix p.n).mulVec (vec p.n v.x) + vec p.n p.q +
          (p.A.toMatrix p.m p.n).transpose.mulVec (vec p.m v.y) = 0) := by
  refine (tilde_ensures_solves hp hs hv hc hk).mono ?_
  rintro ⟨xt, zt⟩ ⟨nu, hxt, hnu, rfl, htop, hbottom, hunique⟩
  dsimp only at hxt htop hbottom hunique ⊢
  have hzt := vec_zTilde (p := p) hs hv hnu
  have hsize : (zTilde steps v nu).size = p.m :=
    size_zipWith hv.size_z (size_zipWith (size_zipWith hnu hv.size_y) hs.size_rhoInv)
  have hAx : vec p.m (zTilde steps v nu) = (p.A.toMatrix p.m p.n).mulVec (vec p.n xt) := by
    rw [hzt]
    linear_combination -hbottom
  refine ⟨hxt, hsize, hAx, fun h => ?_, fun h => ?_⟩
  · obtain ⟨rfl, hz⟩ := h
    -- `z` did not move, so no multiplier did
    have hnu' : vec p.m nu = vec p.m v.y := by
      funext i
      have hi := congrFun hzt i
      rw [hz, Pi.add_apply, left_eq_add, Pi.mul_apply, mul_eq_zero, Pi.sub_apply,
        sub_eq_zero] at hi
      refine hi.resolve_left ?_
      rw [vec, hs.getD_rhoInv i.isLt]
      exact (inv_pos.mpr (hs.rho_pos i i.isLt)).ne'
    rw [hz] at hAx
    rw [hnu'] at htop
    exact ⟨hAx.symm, by linear_combination htop⟩
  · obtain ⟨hprimal, hdual⟩ := h
    obtain ⟨rfl, rfl⟩ := hunique hdual hprimal
    refine ⟨rfl, eq_of_vec hsize hv.size_z ?_⟩
    rw [hzt, sub_self, mul_zero, add_zero]

/-- **An iteration leaves exactly the optimal points alone.** -/
theorem step_eq_iff (halpha : alpha ≠ 0) (hlu : ∀ i < p.m, p.l.getD i 0 ≤ p.u.getD i 0) :
    Ensures (v.step p kkt steps sigma alpha) fun v' =>
      (v'.x = v.x ∧ v'.z = v.z ∧ v'.y = v.y) ↔ Optimal p v := by
  rw [step]
  refine (tilde_ensures hp hs hv hc hk).bind ?_
  rintro ⟨xt, zt⟩ ⟨hx, hz, -, hpoint⟩
  dsimp only at hx hz hpoint ⊢
  refine .ok ?_
  rw [advance_eq_iff hp hs hv hx hz halpha hlu, ← and_assoc, hpoint]
  exact ⟨fun h => ⟨h.1.1, h.1.2, h.2⟩, fun h => ⟨⟨h.primal, h.dual⟩, h.atBounds⟩⟩

end Tilde

end Iterate

/-! ## Solvers -/

namespace Solver

variable {K : Type} [ExactField K] {p₀ : Problem K} {shift : K} {s s₀ : Solver K}

/-- **From wherever it is put, a solver stands still exactly at the optimal points,**
and steps towards a point with `z̃ = A·x̃`. -/
structure StandsStillAtOptima (s : Solver K) : Prop where
  tilde : ∀ v : Iterate K, v.Sized s.problem.n s.problem.m →
    Ensures (v.tilde s.problem s.kkt s.steps s.settings.sigma) fun t =>
      vec s.problem.m t.2 =
        (s.problem.A.toMatrix s.problem.m s.problem.n).mulVec (vec s.problem.n t.1)
  step : ∀ (v : Iterate K) (iter : ℕ), v.Sized s.problem.n s.problem.m →
    Ensures ({ s with iterate := v }.advance iter) fun s' =>
      (s'.iterate.x = v.x ∧ s'.iterate.z = v.z ∧ s'.iterate.y = v.y) ↔ v.Optimal s.problem

/-- A ready solver that still has the `sigma` it was set up with. -/
theorem Ready.standsStill (h : Ready p₀ s.settings.sigma s) (hlu : Uncrossed p₀)
    (halpha : s.settings.alpha ≠ 0) : StandsStillAtOptima s where
  tilde v hv :=
    (Iterate.tilde_ensures h.sound h.stepSizes hv h.convex h.factored).mono fun _ ht => ht.2.2.1
  step v iter hv := by
    rw [advance]
    refine (Iterate.step_eq_iff h.sound h.stepSizes hv h.convex h.factored halpha
      (h.scaled_le hlu)).bind fun v' hv' => ?_
    exact .ok hv'

section Setup

variable {P A : Csc K} {q l u : Array K} {settings : Settings K} {order : EliminationOrder}

/-- **An iteration leaves exactly the optimal points alone.** That holds of a solver
of a convex program whatever has become of it, as long as it has the settings it was
set up with, and for every base step size it could take next. -/
theorem standsStill_of_setup (hsetup : setup P q A l u settings order = .ok (.ok s₀))
    (hpsd : IsSemidefinite (P.toSymMatrix q.size)) (hbounds : Problem.BoundsMeet l u)
    (horder : order.Permutes K) (hmoves : Moves s₀ s) (hset : s.settings = settings) :
    StandsStillAtOptima s ∧ ∀ rho,
      Ensures (s.kkt.updateRhoInv (StepSizes.ofBase rho s.rows).rhoInv) fun r =>
        r.2 = .ok () ∧
          StandsStillAtOptima { s with steps := StepSizes.ofBase rho s.rows, kkt := r.1 } := by
  obtain ⟨p₀, hacc, hready₀⟩ := ready_of_setup hsetup hpsd horder
  have hlegal := legal_of_validate (equilibrated_of_setup hsetup).1
  have hlu := uncrossed_of_accepted hacc hbounds
  subst hset
  have hready := ready_of_moves hready₀ hmoves
  refine ⟨hready.standsStill hlu hlegal.alpha_pos.ne', fun rho => ?_⟩
  refine (updateRhoInv_ensures hready rho).mono ?_
  rintro ⟨kkt, outcome⟩ ⟨hok, hnext⟩
  exact ⟨hok, hnext.standsStill hlu hlegal.alpha_pos.ne'⟩

end Setup

/-- The bowl, once it is solved. -/
theorem standsStill_of_setup_bowl : ∃ s₀ stage,
    setup Bowl.P Bowl.q Bowl.A Bowl.b Bowl.b .default lastFirst = .ok (.ok s₀) ∧
      s₀.run Bowl.clock = .ok stage ∧ StandsStillAtOptima stage.solver ∧ ∀ rho,
        Ensures (stage.solver.kkt.updateRhoInv
          (StepSizes.ofBase rho stage.solver.rows).rhoInv) fun r => r.2 = .ok () ∧
            StandsStillAtOptima { stage.solver with
              steps := StepSizes.ofBase rho stage.solver.rows, kkt := r.1 } := by
  obtain ⟨s₀, stage, hsetup, -, hrun, -, -⟩ := Bowl.solved
  have hran := ran_of_run hrun
  have hset : stage.solver.settings = .default :=
    hran.settings_eq.trans (starts_of_setup hsetup).settings_eq
  exact ⟨s₀, stage, hsetup, hrun, standsStill_of_setup hsetup Bowl.isSemidefinite
    Bowl.boundsMeet permutes_lastFirst hran.moves hset⟩

end Solver

end SplitQP
