import SplitQP.Proofs.Factor.Inertia
import SplitQP.Proofs.Admm.Solver
/-!
# What the number of positive pivots says

The KKT matrix has as many positive pivots as there are variables exactly
when `P + shift·I + Aᵀ·diag(d)⁻¹·A` is positive definite
(`Kkt.positive_eq_iff`): completing the square in the multipliers leaves
that form (`Kkt.form_append`). So a program that is set up need not have a
positive definite `P + sigma·I`; the constraints, weighted by the step
sizes, can make up for what it lacks (`Solver.curved_of_setup`).
-/

namespace SplitQP

open Checked SplitQP.Dense Finset

variable {K : Type} [ExactField K]

namespace Kkt

/-- `vᵀ·(P + shift·I)·v`. -/
def curvature (P : Csc K) (n : ℕ) (shift : K) (v : Fin n → K) : K :=
  ∑ i, v i * ((P.toSymMatrix n).mulVec v i + shift * v i)

/-- `vᵀ·Aᵀ·diag(weight)·A·v`. -/
def penalty (A : Csc K) (m n : ℕ) (weight : Array K) (v : Fin n → K) : K :=
  ∑ k : Fin m, weight.getD k 0 * (A.toMatrix m n).mulVec v k ^ 2

theorem penalty_nonneg (A : Csc K) {m n : ℕ} {weight : Array K}
    (hw : ∀ k < m, 0 ≤ weight.getD k 0) (v : Fin n → K) : 0 ≤ penalty A m n weight v :=
  sum_nonneg fun k _ => mul_nonneg (hw k k.isLt) (sq_nonneg _)

/-- Where the constraints do not see a direction they do not count. -/
theorem penalty_eq_zero (A : Csc K) {m n : ℕ} (weight : Array K) {v : Fin n → K}
    (hv : (A.toMatrix m n).mulVec v = 0) : penalty A m n weight v = 0 := by
  refine sum_eq_zero fun k _ => ?_
  rw [hv, Pi.zero_apply]
  ring

/-- **Curved in every direction,** counting the constraints. -/
def IsCurved (P A : Csc K) (m n : ℕ) (shift : K) (weight : Array K) : Prop :=
  ∀ v : Fin n → K, v ≠ 0 → 0 < curvature P n shift v + penalty A m n weight v

/-- Variables and multipliers, one below the other. -/
def stack (n m : ℕ) : (Fin n → K) × (Fin m → K) →ₗ[K] Fin (n + m) → K where
  toFun p := Fin.append p.1 p.2
  map_add' p q := by
    funext i
    refine Fin.addCases (fun i => ?_) (fun k => ?_) i <;> simp
  map_smul' c p := by
    funext i
    refine Fin.addCases (fun i => ?_) (fun k => ?_) i <;> simp

theorem stack_injective (n m : ℕ) : Function.Injective (stack n m : _ → Fin (n + m) → K) :=
  (Fin.appendEquiv n m).injective

/-- A direction with the multipliers that fit it best. -/
def lift (A : Csc K) (m n : ℕ) (weight : Array K) : (Fin n → K) →ₗ[K] Fin (n + m) → K where
  toFun v := Fin.append v fun k : Fin m => weight.getD k 0 * (A.toMatrix m n).mulVec v k
  map_add' v w := by
    funext i
    refine Fin.addCases (fun i => ?_) (fun k => ?_) i <;> simp [Matrix.mulVec_add, mul_add]
  map_smul' c v := by
    funext i
    refine Fin.addCases (fun i => ?_) (fun k => ?_) i <;>
      simp [Matrix.mulVec_smul, mul_left_comm]

theorem lift_apply (A : Csc K) (m n : ℕ) (weight : Array K) (v : Fin n → K) :
    lift A m n weight v =
      Fin.append v fun k : Fin m => weight.getD k 0 * (A.toMatrix m n).mulVec v k := rfl

variable {P A : Csc K} {shift : K} {rho rhoInv : Array K}

section Form

variable (hP : P.WellFormed) (hsq : P.nrows = A.ncols ∧ P.ncols = A.ncols)
  (hsize : rhoInv.size = A.nrows) (hpos : ∀ k < A.nrows, 0 < rho.getD k 0)
  (hinv : ∀ k < A.nrows, rhoInv.getD k 0 = (rho.getD k 0)⁻¹)

include hP hsq hsize hpos hinv

/-- **Completing the square** in the multipliers. -/
theorem form_append (x : Fin A.ncols → K) (w : Fin A.nrows → K) :
    (matrix P A shift rhoInv.toList).form (A.ncols + A.nrows) (Fin.append x w) =
      curvature P A.ncols shift x + penalty A A.nrows A.ncols rho x -
        ∑ k : Fin A.nrows, (rho.getD k 0)⁻¹ *
          (w k - rho.getD k 0 * (A.toMatrix A.nrows A.ncols).mulVec x k) ^ 2 := by
  have hd : rhoInv.toList.length = A.nrows := by simpa using hsize
  have hentry : ∀ k : Fin A.nrows, rhoInv.toList.getD k 0 = (rho.getD k 0)⁻¹ := by
    intro k
    rw [← hinv k k.isLt]
    simp
  have hcross := Matrix.dotProduct_transpose_mulVec (A.toMatrix A.nrows A.ncols) x w
  rw [dotProduct, dotProduct] at hcross
  have hsquare : ∀ k : Fin A.nrows, ∀ a : K, w k * a + w k * (a - (rho.getD k 0)⁻¹ * w k) =
      rho.getD k 0 * a ^ 2 - (rho.getD k 0)⁻¹ * (w k - rho.getD k 0 * a) ^ 2 := by
    intro k a
    have hne := (hpos k k.isLt).ne'
    field_simp
    ring
  rw [Csc.form_apply, dotProduct, Fin.sum_univ_add]
  simp only [mulVec_leading hsq hd hP, mulVec_trailing hsq hd hP, Fin.append_left,
    Fin.append_right, hentry]
  simp only [mul_add (x _) (_ + _), sum_add_distrib]
  rw [hcross, add_assoc, ← sum_add_distrib, sum_congr rfl fun k _ => hsquare k _,
    sum_sub_distrib, ← add_sub_assoc]
  rfl

/-- What is left with the multipliers that fit best. -/
theorem form_lift (v : Fin A.ncols → K) :
    (matrix P A shift rhoInv.toList).form (A.ncols + A.nrows) (lift A A.nrows A.ncols rho v) =
      curvature P A.ncols shift v + penalty A A.nrows A.ncols rho v := by
  rw [lift_apply, form_append hP hsq hsize hpos hinv]
  simp

/-- Other multipliers leave less. -/
theorem form_stack_le (p : (Fin A.ncols → K) × (Fin A.nrows → K)) :
    (matrix P A shift rhoInv.toList).form (A.ncols + A.nrows) (stack A.ncols A.nrows p) ≤
      (matrix P A shift rhoInv.toList).form (A.ncols + A.nrows)
        (lift A A.nrows A.ncols rho p.1) := by
  rw [form_lift hP hsq hsize hpos hinv]
  refine (form_append hP hsq hsize hpos hinv p.1 p.2).trans_le (sub_le_self _ ?_)
  exact sum_nonneg fun k _ => mul_nonneg (inv_pos.mpr (hpos k k.isLt)).le (sq_nonneg _)

/-- **Positive pivots, by curvature:** there are as many as variables exactly
when the program is curved in every direction, counting the constraints. -/
theorem positive_eq_iff {inv : Array ℕ} {f : Ldl K}
    (h : Ldl.Analyses (matrix P A shift rhoInv.toList) inv f) (hs : Ldl.Stored f) :
    f.positive = A.ncols ↔ IsCurved P A A.nrows A.ncols shift rho := by
  have hn : (matrix P A shift rhoInv.toList).ncols = A.ncols + A.nrows :=
    ncols_matrix hsq (by simpa using hsize)
  have hlift := @form_lift K _ P A shift rho rhoInv hP hsq hsize hpos hinv
  have hle := @form_stack_le K _ P A shift rho rhoInv hP hsq hsize hpos hinv
  constructor
  · intro hpositive v hv
    by_contra hnot
    -- the multiples of `v` with all multipliers are a dimension too many
    have hbound := hs.positive_add_finrank_le hn h
      (g := stack A.ncols A.nrows ∘ₗ
        (LinearMap.toSpanSingleton K _ v).prodMap (LinearMap.id (M := Fin A.nrows → K)))
      ?_ ?_
    · rw [Module.finrank_prod, Module.finrank_self, Module.finrank_fin_fun] at hbound
      omega
    · refine (stack_injective _ _).comp ?_
      exact (smul_left_injective K hv).prodMap Function.injective_id
    · rintro ⟨t, w⟩
      refine (hle (t • v, w)).trans ?_
      rw [map_smul, QuadraticMap.map_smul, hlift, smul_eq_mul]
      exact mul_nonpos_of_nonneg_of_nonpos (mul_self_nonneg t) (not_lt.mp hnot)
  · intro hcurved
    -- all directions with their best multipliers, against the multipliers alone
    have hge := hs.finrank_le_positive hn h (g := lift A A.nrows A.ncols rho) fun v hv => by
      rw [hlift]
      exact hcurved v hv
    have hbound := hs.positive_add_finrank_le hn h
      (g := stack A.ncols A.nrows ∘ₗ LinearMap.inr K _ _)
      ((stack_injective _ _).comp LinearMap.inr_injective) fun w => by
        refine (hle (0, w)).trans ?_
        rw [map_zero, QuadraticMap.map_zero]
    rw [Module.finrank_fin_fun] at hge hbound
    omega

end Form

/-- **`P + shift·I` is positive definite.** -/
def IsDefinite (P : Csc K) (n : ℕ) (shift : K) : Prop :=
  ∀ v : Fin n → K, v ≠ 0 → 0 < curvature P n shift v

/-- The constraints only add. -/
theorem IsDefinite.isCurved {m n : ℕ} {weight : Array K} (h : IsDefinite P n shift)
    (hw : ∀ k < m, 0 ≤ weight.getD k 0) : IsCurved P A m n shift weight := fun v hv =>
  add_pos_of_pos_of_nonneg (h v hv) (penalty_nonneg A hw v)

/-- Where the program is curved, what it lacks is made up for by the constraints:
`P + shift·I` is positive definite exactly when they see no direction in which
it is not. -/
theorem IsCurved.isDefinite_iff {m n : ℕ} {weight : Array K}
    (h : IsCurved P A m n shift weight) : IsDefinite P n shift ↔
      ∀ v : Fin n → K, curvature P n shift v ≤ 0 → (A.toMatrix m n).mulVec v = 0 := by
  constructor
  · intro hdef v hle
    have hzero : v = 0 := by
      by_contra hne
      exact (hdef v hne).not_ge hle
    rw [hzero, Matrix.mulVec_zero]
  · intro hunseen v hne
    by_contra hle
    have hpos := h v hne
    rw [penalty_eq_zero A weight (hunseen v (not_lt.mp hle)), add_zero] at hpos
    exact hle hpos

end Kkt

namespace KktSystem

open Kkt

variable {P A : Csc K} {shift : K} {rho rhoInv : Array K} {order : EliminationOrder}

/-- **Setting up** fails to factor, or tells whether the program is curved. -/
theorem curved_of_setup (hP : P.WellFormed) (hA : A.WellFormed)
    (hsq : P.nrows = A.ncols ∧ P.ncols = A.ncols) (hsize : rhoInv.size = A.nrows)
    (hpos : ∀ k < A.nrows, 0 < rho.getD k 0)
    (hinv : ∀ k < A.nrows, rhoInv.getD k 0 = (rho.getD k 0)⁻¹)
    {r : Except SetupError (KktSystem K)} (h : setup P A shift rhoInv order = .ok r) :
    ((∃ k, r = .ok k) → IsCurved P A A.nrows A.ncols shift rho) ∧
      (r = .error .nonConvex → ¬ IsCurved P A A.nrows A.ncols shift rho) := by
  have hd : rhoInv.toList.length = A.nrows := by simpa using hsize
  rw [setup, assemble_eq_ok hP hA hsq hsize, ok_bind] at h
  dsimp only at h
  obtain ⟨factored, hfactor, h⟩ := bind_eq_ok.mp h
  cases factored with
  | error e =>
    cases h
    simp
  | ok f =>
    obtain ⟨inv, hf, hs⟩ := Ldl.stored_of_factor (wellFormed_matrix hsq hd hP)
      (ncols_matrix hsq hd).symm hfactor
    have hiff := positive_eq_iff hP hsq hsize hpos hinv hf hs
    dsimp only at h
    rw [hsq.2] at h
    split_ifs at h with hpositive
    · cases h
      exact ⟨fun _ => hiff.mp hpositive, by simp⟩
    · cases h
      exact ⟨by simp, fun _ hcurved => hpositive (hiff.mpr hcurved)⟩

end KktSystem

namespace Solver

variable {P A : Csc K} {q l u : Array K} {settings : Settings K} {order : EliminationOrder}

/-- The step sizes a solver starts with. -/
def initialSteps (settings : Settings K) (p : Problem K) : StepSizes K :=
  .ofBase settings.rho (StepSizes.kinds p.l p.u)

/-- **The program a solver is set up for,** as far as factoring it goes. -/
theorem factored_of_setup {r : Except SetupError (Solver K)}
    (h : setup P q A l u settings order = .ok r)
    (hr : (∃ s, r = .ok s) ∨ r = .error .nonConvex) :
    ∃ p₀ p eq factored, Problem.ofData P q A l u = .ok (.ok p₀) ∧
      Equilibration.equilibrate settings.scaling p₀ = .ok (p, eq) ∧
      KktSystem.setup p.P p.A settings.sigma (initialSteps settings p).rhoInv order =
        .ok factored ∧
      (r = .error .nonConvex → factored = .error .nonConvex) ∧
      ∀ s, r = .ok s → (∃ k, factored = .ok k) ∧ s.problem = p ∧ s.settings = settings ∧
        s.steps = initialSteps settings p := by
  rw [setup] at h
  split at h
  · cases h
    simp at hr
  obtain ⟨data, hdata, h⟩ := bind_eq_ok.mp h
  cases data with
  | error e =>
    cases h
    obtain ⟨s, hs⟩ | hs := hr
    · cases hs
    · cases hs
      exact absurd hdata Problem.ofData_ne_nonConvex
  | ok p₀ =>
    obtain ⟨⟨p, eq⟩, hscaled, h⟩ := bind_eq_ok.mp h
    obtain ⟨factored, hfactored, h⟩ := bind_eq_ok.mp h
    refine ⟨p₀, p, eq, factored, hdata, hscaled, hfactored, ?_⟩
    cases factored with
    | error e =>
      cases h
      exact ⟨fun heq => by rw [Except.error.inj heq], by simp⟩
    | ok k =>
      cases h
      refine ⟨by simp, fun s hs => ?_⟩
      cases hs
      exact ⟨⟨k, rfl⟩, rfl, rfl, rfl⟩

/-- **Curved, for the step sizes a solver starts with.** -/
def StartsCurved (settings : Settings K) (p : Problem K) : Prop :=
  Kkt.IsCurved p.P p.A p.m p.n settings.sigma (initialSteps settings p).rho

theorem sound_initialSteps {p : Problem K} (hp : p.Sound) (settings : Settings K) :
    (initialSteps settings p).Sound p.m := by
  have hsteps := StepSizes.sound_ofBase settings.rho (StepSizes.kinds p.l p.u)
  have hsize : (StepSizes.kinds p.l p.u).size = p.m := size_zipWith hp.size_l hp.size_u
  rwa [hsize] at hsteps

/-- What factoring tells, for a scaled program. -/
theorem startsCurved_of_factored {p : Problem K} (hp : p.Sound)
    {factored : Except SetupError (KktSystem K)}
    (h : KktSystem.setup p.P p.A settings.sigma (initialSteps settings p).rhoInv order =
      .ok factored) :
    ((∃ k, factored = .ok k) → StartsCurved settings p) ∧
      (factored = .error .nonConvex → ¬ StartsCurved settings p) := by
  have hsteps := sound_initialSteps hp settings
  rw [← hp.nrows_A] at hsteps
  have hdecided := KktSystem.curved_of_setup hp.wellFormed_P hp.wellFormed_A
    ⟨hp.nrows_P.trans hp.ncols_A.symm, hp.ncols_P.trans hp.ncols_A.symm⟩ hsteps.size_rhoInv
    hsteps.rho_pos (fun k hk => hsteps.getD_rhoInv hk) h
  rwa [hp.nrows_A, hp.ncols_A] at hdecided

/-- **What setting up tells about curvature.** A program that is set up is curved
once scaled, counting the constraints with their step sizes, so that
`P + sigma·I` is positive definite exactly when the constraints see no direction
in which it is not. A program refused as nonconvex has a direction in which it
is not, even counting the constraints. -/
theorem startsCurved_of_setup :
    (∀ s, setup P q A l u settings order = .ok (.ok s) →
      Kkt.IsCurved s.problem.P s.problem.A s.problem.m s.problem.n s.settings.sigma
        s.steps.rho ∧
      (Kkt.IsDefinite s.problem.P s.problem.n s.settings.sigma ↔
        ∀ v, Kkt.curvature s.problem.P s.problem.n s.settings.sigma v ≤ 0 →
          (s.problem.A.toMatrix s.problem.m s.problem.n).mulVec v = 0)) ∧
    (setup P q A l u settings order = .ok (.error .nonConvex) → ∃ p₀ p eq,
      Problem.ofData P q A l u = .ok (.ok p₀) ∧
      Equilibration.equilibrate settings.scaling p₀ = .ok (p, eq) ∧
      ¬ StartsCurved settings p ∧ ¬ Kkt.IsDefinite p.P p.n settings.sigma) := by
  have hsound : ∀ {p₀ p : Problem K} {eq : Equilibration K},
      Problem.ofData P q A l u = .ok (.ok p₀) →
      Equilibration.equilibrate settings.scaling p₀ = .ok (p, eq) → p.Sound := fun hdata hscaled =>
    ((Equilibration.equilibrate_ensures (Problem.accepted_of_ofData hdata).sound _).of_eq_ok
      hscaled).scales.sound
  refine ⟨fun s h => ?_, fun h => ?_⟩
  · obtain ⟨p₀, p, eq, factored, hdata, hscaled, hfactored, -, hs⟩ :=
      factored_of_setup h (.inl ⟨s, rfl⟩)
    obtain ⟨hok, rfl, rfl, hsteps⟩ := hs s rfl
    have hcurved := (startsCurved_of_factored (hsound hdata hscaled) hfactored).1 hok
    rw [StartsCurved, ← hsteps] at hcurved
    exact ⟨hcurved, hcurved.isDefinite_iff⟩
  · obtain ⟨p₀, p, eq, factored, hdata, hscaled, hfactored, herr, -⟩ :=
      factored_of_setup h (.inr rfl)
    have hp := hsound hdata hscaled
    have hnot := (startsCurved_of_factored hp hfactored).2 (herr rfl)
    refine ⟨p₀, p, eq, hdata, hscaled, hnot, fun hdef => hnot ?_⟩
    exact hdef.isCurved fun k hk => ((sound_initialSteps hp settings).rho_pos k hk).le

end Solver

/-! ## A hill on a ledge -/

namespace Hill

/-- `-½·x²` is minimised. -/
def P : Csc ℚ := ⟨1, 1, #[0, 1], #[0], #[-1]⟩

def q : Array ℚ := #[0]

def A : Csc ℚ := ⟨1, 1, #[0, 1], #[0], #[1]⟩

/-- Both bounds, where `x` is fixed. -/
def ledge : Array ℚ := #[1]

/-- The lower bound of a slope on which `x` can move. -/
def foot : Array ℚ := #[0]

end Hill

namespace Solver

theorem setup_hill_slope :
    setup Hill.P Hill.q Hill.A Hill.foot Hill.ledge .default .natural =
      .ok (.error .nonConvex) := by
  refine eq_of_refusal? ?_
  decide +kernel

theorem startsCurved_of_setup_hill :
    (∃ s, setup Hill.P Hill.q Hill.A Hill.ledge Hill.ledge .default .natural = .ok (.ok s) ∧
      Kkt.IsCurved s.problem.P s.problem.A s.problem.m s.problem.n s.settings.sigma
        s.steps.rho) ∧
    setup Hill.P Hill.q Hill.A Hill.foot Hill.ledge .default .natural = .ok (.error .nonConvex) ∧
    ∃ p₀ p eq, Problem.ofData Hill.P Hill.q Hill.A Hill.foot Hill.ledge = .ok (.ok p₀) ∧
      Equilibration.equilibrate 10 p₀ = .ok (p, eq) ∧
      ¬ Kkt.IsDefinite p.P p.n (1e-6 : ℚ) := by
  have hledge : firstRun Hill.P Hill.q Hill.A Hill.ledge Hill.ledge .default .natural .still
      (fun _ _ => true) = true := by decide +kernel
  obtain ⟨s, -, hsetup, -, -⟩ := exists_of_firstRun hledge
  obtain ⟨p₀, p, eq, hdata, hscaled, -, hdef⟩ := startsCurved_of_setup.2 setup_hill_slope
  exact ⟨⟨s, hsetup, (startsCurved_of_setup.1 s hsetup).1⟩, setup_hill_slope, p₀, p, eq, hdata,
    hscaled, hdef⟩

/-- **A hill can be accepted as convex:** with `x` fixed the constraint has a step
size that hides the curvature of the objective. The run solves it. -/
theorem not_isDefinite_hill : ∃ s stage,
    setup Hill.P Hill.q Hill.A Hill.ledge Hill.ledge .default .natural = .ok (.ok s) ∧
      s.settings.validate = .ok () ∧
      ¬ Kkt.IsDefinite s.problem.P s.problem.n s.settings.sigma ∧
      s.run .still = .ok stage ∧ stage.solver.info.status = .solved := by
  have hfirst : firstRun Hill.P Hill.q Hill.A Hill.ledge Hill.ledge .default .natural .still
      (fun s stage => decide (s.settings.validate = .ok () ∧ 0 < s.problem.n ∧
        Kkt.curvature s.problem.P s.problem.n s.settings.sigma (fun _ => 1) ≤ 0 ∧
        stage.solver.info.status = .solved)) = true := by
    decide +kernel
  obtain ⟨s, stage, hsetup, hrun, htest⟩ := exists_of_firstRun hfirst
  obtain ⟨hset, hn, hle, hsolved⟩ := of_decide_eq_true htest
  refine ⟨s, stage, hsetup, hset, fun hdef => ?_, hrun, hsolved⟩
  have hne : (fun _ => 1 : Fin s.problem.n → ℚ) ≠ 0 :=
    Function.ne_iff.mpr ⟨⟨0, hn⟩, one_ne_zero⟩
  exact (hdef _ hne).not_ge hle

end Solver

end SplitQP
