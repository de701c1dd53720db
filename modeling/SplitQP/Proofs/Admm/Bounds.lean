import SplitQP.Proofs.Admm.Consistent
import SplitQP.Proofs.Admm.Optimality
/-!
# Bounds as they are held

Whether bounds contradict each other is decided on the bounds given,
before they are clipped. Clipping then moves lower bounds up and upper
bounds down, and does nothing to a bound that is infinite on the wrong
side. So the bounds held are in range, in order and kept by the iterates
exactly in the rows whose bounds are `Attainable` (`bounds_of_setup`).
-/

namespace SplitQP

open Checked SplitQP.Dense

/-! ## Crossed bounds -/

section Crossed

variable {α : Type} [Scalar α]

namespace Problem

/-- **Bounds are crossed in some row,** whatever the arithmetic. -/
theorem crossed_eq_true_iff {l u : Array α} (hsize : u.size = l.size) :
    crossed l u = true ↔ ∃ i < l.size, Scalar.lt (u.getD i 0) (l.getD i 0) = true := by
  rw [crossed, Array.any_eq_true]
  constructor
  · rintro ⟨i, hi, hlt⟩
    rw [Array.size_zip, hsize, min_self] at hi
    refine ⟨i, hi, ?_⟩
    rw [getD_of_lt 0 hi, getD_of_lt 0 (by omega)]
    simpa using hlt
  · rintro ⟨i, hi, hlt⟩
    rw [getD_of_lt 0 hi, getD_of_lt 0 (by omega)] at hlt
    exact ⟨i, by simp [hsize, hi], by simpa using hlt⟩

end Problem

namespace Equilibration

theorem crossedBounds_of_rounds {count : ℕ} {s s' : Scaled α} (h : rounds count s = .ok s') :
    s'.problem.crossedBounds = s.problem.crossedBounds := by
  induction count generalizing s with
  | zero =>
    cases h
    rfl
  | succ count ih =>
    obtain ⟨s₁, hbalance, h⟩ := bind_eq_ok.mp h
    obtain ⟨s₂, hobjective, h⟩ := bind_eq_ok.mp h
    rw [ih h]
    -- both parts of a round write matrices, the objective and factors only
    obtain ⟨normsP, -, hbalance⟩ := bind_eq_ok.mp hbalance
    obtain ⟨normsA, -, hbalance⟩ := bind_eq_ok.mp hbalance
    obtain ⟨rows, -, hbalance⟩ := bind_eq_ok.mp hbalance
    obtain ⟨P, -, hbalance⟩ := bind_eq_ok.mp hbalance
    obtain ⟨A, -, hbalance⟩ := bind_eq_ok.mp hbalance
    obtain ⟨q, -, hbalance⟩ := bind_eq_ok.mp hbalance
    obtain ⟨d, -, hbalance⟩ := bind_eq_ok.mp hbalance
    obtain ⟨e, -, hbalance⟩ := bind_eq_ok.mp hbalance
    obtain ⟨norms, -, hobjective⟩ := bind_eq_ok.mp hobjective
    cases hbalance
    cases hobjective
    rfl

/-- **Scaling does not look at the bounds.** -/
theorem crossedBounds_of_equilibrate {count : ℕ} {p : Problem α}
    {r : Problem α × Equilibration α} (h : equilibrate count p = .ok r) :
    r.1.crossedBounds = p.crossedBounds := by
  obtain ⟨s, hs, h⟩ := bind_eq_ok.mp h
  obtain ⟨l, -, h⟩ := bind_eq_ok.mp h
  obtain ⟨u, -, h⟩ := bind_eq_ok.mp h
  cases h
  exact crossedBounds_of_rounds hs

end Equilibration

end Crossed

/-! ## Clipped bounds -/

variable {K : Type} [ExactField K]

namespace Problem

variable {l u : K}

/-- **Some number is within the bounds** as far as each goes by itself: neither is
infinite on the wrong side. -/
def Attainable (l u : K) : Prop := l ≤ boundInfinity ∧ -boundInfinity ≤ u

/-- Clipping brings bounds into range, unless they are beyond it on the other side. -/
theorem abs_clip_le_iff : |clipLower l| ≤ boundInfinity ∧ |clipUpper u| ≤ boundInfinity ↔
    Attainable l u := by
  have hinf : -boundInfinity ≤ (boundInfinity : K) := by
    rw [boundInfinity]
    norm_num
  rw [abs_le, abs_le, clipLower, clipUpper, ExactField.max_eq, ExactField.min_eq, max_le_iff,
    le_min_iff, Attainable]
  exact ⟨fun h => ⟨h.1.2.1, h.2.1.1⟩,
    fun h => ⟨⟨le_max_right _ _, h.1, hinf⟩, ⟨h.2, hinf⟩, min_le_right _ _⟩⟩

end Problem

/-! ## Iterates -/

namespace Iterate

variable {p : Problem K} {steps : StepSizes K} {v : Iterate K} {zt : Array K}

/-- **What is clipped is within the bounds** where there is anything within them. -/
theorem mem_advance_z_iff (alpha : K) (xt : Array K) (hp : p.Sound) (hs : steps.Sound p.m)
    (hv : v.Sized p.n p.m) (hz : zt.size = p.m) {i : ℕ} (hi : i < p.m) :
    p.l.getD i 0 ≤ (advance p steps alpha v xt zt).z.getD i 0 ∧
        (advance p steps alpha v xt zt).z.getD i 0 ≤ p.u.getD i 0 ↔
      p.l.getD i 0 ≤ p.u.getD i 0 := by
  rw [getD_advance_z alpha xt hp hs hv hz hi]
  exact ⟨fun h => h.1.trans h.2, fun h => ⟨le_min (le_max_right _ _) h, min_le_right _ _⟩⟩

end Iterate

namespace Solver

/-- An iteration from wherever a solver is. -/
theorem Consistent.advance_ensures {shift : K} {s : Solver K} (h : Consistent shift s)
    (iter : ℕ) {i : ℕ} (hi : i < s.problem.m) : Ensures (s.advance iter) fun s' =>
      (s.problem.l.getD i 0 ≤ s'.iterate.z.getD i 0 ∧
          s'.iterate.z.getD i 0 ≤ s.problem.u.getD i 0 ↔
        s.problem.l.getD i 0 ≤ s.problem.u.getD i 0) := by
  have hfits := h.fits
  rw [advance]
  refine (Iterate.step_ensures_advance hfits.sound hfits.steps hfits.sized hfits.tracks _ _).bind ?_
  rintro v ⟨xt, zt, -, hz, rfl⟩
  exact .ok (Iterate.mem_advance_z_iff _ xt hfits.sound h.sound_steps hfits.sized hz hi)

/-! ## From setting up on -/

/-- **Bounds as they are held.** A solver that was set up knows whether the bounds given
are crossed in some row, whatever the arithmetic. In exact arithmetic, those that were
clipped are in range, those held are in order unless some are crossed, and every
iteration ends between them, in exactly the rows where neither bound is infinite on the
wrong side. -/
theorem bounds_of_setup {α : Type} [arith : Scalar α] {P A : Csc α} {q l u : Array α}
    {settings : Settings α} {order : EliminationOrder} {s₀ s : Solver α}
    (hsetup : setup P q A l u settings order = .ok (.ok s₀)) (hmoves : Moves s₀ s) :
    (s.problem.crossedBounds = true ↔
      ∃ i < l.size, Scalar.lt (u.getD i 0) (l.getD i 0) = true) ∧
    ∃ p₀, Problem.ofData P q A l u = .ok (.ok p₀) ∧
      Equilibration.equilibrate settings.scaling p₀ = .ok (s.problem, s.equilibration) ∧
      ∀ [ExactField α], arith = ExactField.scalar → ∀ i < l.size,
        (|p₀.l.getD i 0| ≤ boundInfinity ∧ |p₀.u.getD i 0| ≤ boundInfinity ↔
          Problem.Attainable (l.getD i 0) (u.getD i 0)) ∧
        (s.problem.crossedBounds = false →
          (s.problem.l.getD i 0 ≤ s.problem.u.getD i 0 ↔
            Problem.Attainable (l.getD i 0) (u.getD i 0)) ∧
          ∀ iter, Ensures (s.advance iter) fun s' =>
            (s.problem.l.getD i 0 ≤ s'.iterate.z.getD i 0 ∧
                s'.iterate.z.getD i 0 ≤ s.problem.u.getD i 0 ↔
              Problem.Attainable (l.getD i 0) (u.getD i 0))) := by
  obtain ⟨-, p₀, hdata, hscaled, -⟩ := scaled_of_setup hsetup
  have hacc := Problem.accepted_of_ofData hdata
  obtain ⟨hproblem, hequilibration⟩ := problem_of_moves hmoves
  rw [← hproblem, ← hequilibration] at hscaled
  have hcrossed : s.problem.crossedBounds = true ↔
      ∃ i < l.size, Scalar.lt (u.getD i 0) (l.getD i 0) = true := by
    have hkept : s.problem.crossedBounds = p₀.crossedBounds :=
      Equilibration.crossedBounds_of_equilibrate hscaled
    rw [hkept, hacc.eq]
    exact Problem.crossed_eq_true_iff hacc.size_u
  refine ⟨hcrossed, p₀, hdata, hscaled, ?_⟩
  rintro field rfl i hi
  have hi₀ : i < p₀.m := by rwa [hacc.m_eq]
  have heq := (Equilibration.equilibrate_ensures hacc.sound _).of_eq_ok hscaled
  have hpos := heq.scales.e_pos i hi₀
  refine ⟨?_, fun hopen => ?_⟩
  · rw [hacc.getD_l hi, hacc.getD_u hi]
    exact Problem.abs_clip_le_iff
  · have hle : l.getD i 0 ≤ u.getD i 0 := by
      by_contra hlt
      rw [hcrossed.mpr ⟨i, hi, ExactField.lt_iff.mpr (not_le.mp hlt)⟩] at hopen
      cases hopen
    -- both bounds are scaled by the same positive factor
    have horder : s.problem.l.getD i 0 ≤ s.problem.u.getD i 0 ↔
        Problem.Attainable (l.getD i 0) (u.getD i 0) := by
      rw [heq.l_eq i hi₀, heq.u_eq i hi₀, mul_le_mul_iff_left₀ hpos, hacc.getD_l hi,
        hacc.getD_u hi, Problem.clip_le_iff, and_iff_right hle]
      rfl
    have hconsistent := invariant_consistent.of_moves (starts_of_setup hsetup).consistent hmoves
    have him : i < s.problem.m := by rwa [heq.scales.m_eq]
    exact ⟨horder, fun iter => (hconsistent.advance_ensures iter him).mono
      fun s' hs' => hs'.trans horder⟩

theorem bounds_of_setup_ramp : ∃ s₀ stage,
    setup Ramp.P Ramp.q Ramp.A Ramp.l Ramp.u (Ramp.settings (3 / 2)) .natural = .ok (.ok s₀) ∧
      s₀.run Ramp.clock = .ok stage ∧ stage.solver.problem.crossedBounds = false ∧
      stage.solver.problem.l.getD 0 0 ≤ stage.solver.problem.u.getD 0 0 ∧
      ∀ iter, Ensures (stage.solver.advance iter) fun s' =>
        stage.solver.problem.l.getD 0 0 ≤ s'.iterate.z.getD 0 0 ∧
          s'.iterate.z.getD 0 0 ≤ stage.solver.problem.u.getD 0 0 := by
  have hfirst : firstRun Ramp.P Ramp.q Ramp.A Ramp.l Ramp.u (Ramp.settings (3 / 2)) .natural
      Ramp.clock (fun _ stage => decide (stage.solver.problem.crossedBounds = false)) = true := by
    decide +kernel
  obtain ⟨s₀, stage, hsetup, hrun, htest⟩ := exists_of_firstRun hfirst
  have hopen := of_decide_eq_true htest
  obtain ⟨-, p₀, -, -, hexact⟩ := bounds_of_setup hsetup (ran_of_run hrun).moves
  obtain ⟨-, hheld⟩ := hexact rfl 0 (by decide)
  obtain ⟨horder, hadvance⟩ := hheld hopen
  have hattainable : Problem.Attainable (Ramp.l.getD 0 0) (Ramp.u.getD 0 0) :=
    ⟨by decide +kernel, by decide +kernel⟩
  exact ⟨s₀, stage, hsetup, hrun, hopen, horder.mpr hattainable,
    fun iter => (hadvance iter).mono fun s' hs' => hs'.mpr hattainable⟩

/-- **An upper bound can be infinite on the wrong side.** It is held as it is given, below
the lower bound that was clipped, and iterates are below both. -/
theorem not_bounds_ramp : ∃ s₀ s,
    setup Ramp.P Ramp.q Ramp.A #[-10 ^ 21] #[-10 ^ 21] (Ramp.settings (1 / 2)) .natural =
        .ok (.ok s₀) ∧
      s₀.problem.crossedBounds = false ∧ s₀.equilibration.e = #[1] ∧
      s₀.problem.u.getD 0 0 < -boundInfinity ∧
      s₀.problem.u.getD 0 0 < s₀.problem.l.getD 0 0 ∧
      s₀.advance 1 = .ok s ∧ s.iterate.z.getD 0 0 < s₀.problem.l.getD 0 0 := by
  have hfirst : firstRun Ramp.P Ramp.q Ramp.A #[-10 ^ 21] #[-10 ^ 21] (Ramp.settings (1 / 2))
      .natural Ramp.clock (fun s₀ _ => decide (s₀.problem.crossedBounds = false ∧
        s₀.equilibration.e = #[1] ∧ s₀.problem.u.getD 0 0 < -boundInfinity ∧
        s₀.problem.u.getD 0 0 < s₀.problem.l.getD 0 0 ∧
        (s₀.advance 1).toOption.any fun s =>
          decide (s.iterate.z.getD 0 0 < s₀.problem.l.getD 0 0))) = true := by
    decide +kernel
  obtain ⟨s₀, stage, hsetup, -, htest⟩ := exists_of_firstRun hfirst
  obtain ⟨hopen, he, hlow, hcrossed, hnext⟩ := of_decide_eq_true htest
  cases hadvance : s₀.advance 1 with
  | error e =>
    rw [hadvance] at hnext
    cases hnext
  | ok s =>
    rw [hadvance] at hnext
    exact ⟨s₀, s, hsetup, hopen, he, hlow, hcrossed, hadvance, of_decide_eq_true hnext⟩

end Solver

end SplitQP
