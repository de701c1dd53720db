import SplitQP.Proofs.Admm.Polished
/-!
# When a polished point is better

A polished point is taken over if it lowers both residuals, or one where
the other was negligible before (`Polish.improves_iff`). What the other one
becomes is not asked. It is known, though: the primal residual is how far
the rows of the point are out of their bounds, and the dual one is how far
the last step of the method of multipliers went, times `delta`
(`lastStep_of_polish`). So neither residual gets worse except from below
what is negligible to above it, which takes rows out of their bounds or a
last step that is still a long one (`improved_of_setup`); with a large
`delta` and no refinement that happens (`worse_ceiling`).
-/

namespace SplitQP

open Checked SplitQP.Dense

variable {K : Type} [ExactField K]

namespace Polish

/-- What is negligible as a residual. -/
def tiny : K := 1e-10

theorem tiny_pos : 0 < (tiny : K) := by
  rw [tiny]
  norm_num

/-- **What is asked of the new residuals** `p` and `d`: each is lower, unless the old one
was negligible, and one of them is lower in any case. -/
theorem improves_iff {p d p₀ d₀ : K} : improves p d p₀ d₀ = true ↔
    (tiny ≤ p₀ → p < p₀) ∧ (tiny ≤ d₀ → d < d₀) ∧ (p < p₀ ∨ d < d₀) := by
  simp only [improves, Bool.or_eq_true, Bool.and_eq_true, ExactField.lt_iff]
  rw [← tiny]
  constructor
  · rintro ((⟨hp, hd⟩ | ⟨hp, hd₀⟩) | ⟨hd, hp₀⟩)
    · exact ⟨fun _ => hp, fun _ => hd, .inl hp⟩
    · exact ⟨fun _ => hp, fun h => absurd hd₀ h.not_gt, .inl hp⟩
    · exact ⟨fun h => absurd hp₀ h.not_gt, fun _ => hd, .inr hd⟩
  · rintro ⟨hprim, hdual, hp | hd⟩
    · rcases lt_or_ge d₀ tiny with hd₀ | hd₀
      · exact .inl (.inr ⟨hp, hd₀⟩)
      · exact .inl (.inl ⟨hp, hdual hd₀⟩)
    · rcases lt_or_ge p₀ tiny with hp₀ | hp₀
      · exact .inr ⟨hd, hp₀⟩
      · exact .inl (.inl ⟨hprim hp₀, hd⟩)

/-- How far `t` is out of the bounds. -/
def excess (l u t : K) : K := t - min (max t l) u

theorem excess_mul {l u t c : K} (hc : 0 ≤ c) :
    excess l u t * c = excess (l * c) (u * c) (t * c) := by
  rw [excess, excess, sub_mul, min_mul_of_nonneg _ _ hc, max_mul_of_nonneg _ _ hc]

/-! ## The last step -/

section Run

variable {p₀ p : Problem K} {eq : Equilibration K} {delta : K} {v : Iterate K} {refinements : ℕ}
  {order : EliminationOrder} {pr dr : K} {x z y : Array K} {r : Residuals K} {improved : Bool}

/-- The polished `z` is what the rows make of `x`, moved into the bounds. -/
theorem getD_z_of_run {n m : ℕ} (hp : p.Sound) (hn : p.n = n) (hm : p.m = m) (hx : x.size = n)
    (h : run p eq delta refinements order v pr dr = .ok (.point x z y r improved))
    (i : Fin m) : vec m z i =
      min (max ((p.A.toMatrix m n).mulVec (vec n x) i) (p.l.getD i 0)) (p.u.getD i 0) := by
  subst hn hm
  rw [run] at h
  obtain ⟨B, -, h⟩ := bind_eq_ok.mp h
  obtain ⟨⟨M, positions⟩, -, h⟩ := bind_eq_ok.mp h
  obtain ⟨factored, -, h⟩ := bind_eq_ok.mp h
  cases factored with
  | error e => cases h
  | ok f =>
    obtain ⟨sol₀, -, h⟩ := bind_eq_ok.mp h
    obtain ⟨sol, -, h⟩ := bind_eq_ok.mp h
    obtain ⟨free, hfree, h⟩ := bind_eq_ok.mp h
    obtain ⟨r', -, h⟩ := bind_eq_ok.mp h
    cases h
    obtain ⟨hsize, hvec⟩ := (Csc.vec_mulVec hp.wellFormed_A hp.nrows_A hp.ncols_A 1 0 hx
      size_constant).of_eq_ok hfree
    rw [one_smul, zero_smul, add_zero] at hvec
    rw [← hvec, vec, vec, getD_zipWith_of_lt (size_zipWith hsize hp.size_l) hp.size_u i.isLt,
      getD_zipWith_of_lt hsize hp.size_l i.isLt]
    rfl

end Run

end Polish

namespace Solver

variable {P A : Csc K} {q l u : Array K} {p₀ : Problem K} {s s' : Solver K}

/-- How far each row of the caller's program is out of its bounds at `x`. -/
def overrun (A : Csc K) (l u : Array K) {n : ℕ} (x : Fin n → K) (i : Fin l.size) : K :=
  Polish.excess (Problem.clipLower (l.getD i 0)) (Problem.clipUpper (u.getD i 0))
    ((A.toMatrix l.size n).mulVec x i)

/-- **The last step that polishing made,** from `(x₀, y₀)` to the point taken over, and the
residuals it left: the primal one is how far the rows are out of their bounds, the dual
one how far the step went. -/
structure LastStep (A : Csc K) (q l u : Array K) (s s' : Solver K) (x₀ : Fin s.problem.n → K)
    (y₀ : Fin s.problem.m → K) : Prop where
  before : Polish.Refined s.problem s.settings.delta (guess s) s.settings.polishRefineIter x₀ y₀
  step : Polish.Proximal s.problem s.settings.delta (guess s) x₀ y₀
    (vec s.problem.n s'.iterate.x) (vec s.problem.m s'.iterate.y)
  primRes_eq : s'.info.primRes =
    maxNorm (overrun A l u (s.equilibration.primal q.size s'.iterate.x))
  dualRes_eq : s'.info.dualRes = maxNorm fun j : Fin s.problem.n =>
    s.settings.delta * (x₀ j - s'.iterate.x.getD j 0) /
      (s.equilibration.c * s.equilibration.d.getD j 0)

/-- **What is taken over comes from a last step.** -/
theorem lastStep_of_polish (hacc : Problem.Accepted P q A l u p₀)
    (heq : Equilibration.Equilibrated p₀ s.problem s.equilibration)
    (hv : s.iterate.Sized s.problem.n s.problem.m) {events : List (Event K)}
    (h : s.polish = .ok (s', events)) (hsuccess : s'.info.polish = .successful) :
    ∃ x₀ y₀, LastStep A q l u s s' x₀ y₀ := by
  have hs := heq.scales
  have hp := hs.sound
  obtain ⟨r, hrun, hprim, hdual⟩ := point_of_polish h hsuccess
  obtain ⟨hx, hz, hy, hr⟩ := (Polish.run_ensures hp heq.fits hv _ _ _ _ _).of_eq_ok hrun
  obtain ⟨hrefined, -⟩ := Polish.refined_of_run hp hv hrun
  have hn : s.problem.n = q.size := hs.n_eq.trans hacc.n_eq
  have hm : s.problem.m = l.size := hs.m_eq.trans hacc.m_eq
  cases hrefined with
  | @step _ x₀ _ y₀ _ hbefore hstep =>
  refine ⟨x₀, y₀, hbefore, hstep, ?_, ?_⟩
  · have hweighs := (Residuals.atPoint_ensures_weighs hp heq.fits hn hm (hx.trans hn) (hz.trans hm)
      (hy.trans hm)).of_eq_ok hr
    rw [hprim, hweighs.primRes_eq]
    congr 1
    funext i
    have hi : (i : ℕ) < p₀.m := by rw [hacc.m_eq]; exact i.isLt
    have he := hs.e_pos i hi
    have heinv := Residuals.getD_einv heq hacc.m_eq i
    have hunscale : ∀ t : K, t * s.equilibration.e.getD i 0 * (s.equilibration.e.getD i 0)⁻¹ = t :=
      fun t => mul_inv_cancel_right₀ he.ne' t
    have hax := Residuals.unscale_ax (x := s'.iterate.x) heq hacc.n_eq hacc.m_eq i
    rw [heinv, hacc.toMatrix_A] at hax
    rw [Polish.getD_z_of_run hp hn hm (hx.trans hn) hrun i, heinv, ← Polish.excess,
      Polish.excess_mul (inv_nonneg.mpr he.le), hax, heq.l_eq i hi, heq.u_eq i hi, hunscale,
      hunscale, hacc.getD_l i.isLt, hacc.getD_u i.isLt, overrun]
  · have hweighs := (Residuals.atPoint_ensures_weighs hp heq.fits rfl rfl hx hz hy).of_eq_ok hr
    have hcinv : s.equilibration.cinv = (s.equilibration.c)⁻¹ := by
      rw [heq.cinv_eq, ExactField.recip_eq]
    rw [hdual, hweighs.dualRes_eq, hcinv, ← maxNorm_mul (inv_nonneg.mpr hs.c_pos.le)]
    congr 1
    funext j
    have hgradient := congrFun hstep.stationary j
    simp only [Pi.add_apply, Pi.smul_apply, Pi.sub_apply, smul_eq_mul] at hgradient
    rw [hgradient, Residuals.getD_dinv heq hs.n_eq.symm, vec]
    field_simp

/-! ## Better or worse -/

/-- **What polishing always improves:** each residual that was not negligible, and one
residual in any case. -/
structure Improved (s s' : Solver K) : Prop where
  prim : Polish.tiny ≤ s.info.primRes → s'.info.primRes < s.info.primRes
  dual : Polish.tiny ≤ s.info.dualRes → s'.info.dualRes < s.info.dualRes
  either : s'.info.primRes < s.info.primRes ∨ s'.info.dualRes < s.info.dualRes

/-- **Neither residual got worse,** apart from what is negligible. -/
def NoWorse (s s' : Solver K) : Prop :=
  s'.info.primRes ≤ max s.info.primRes Polish.tiny ∧
    s'.info.dualRes ≤ max s.info.dualRes Polish.tiny

/-- A residual that was not negligible does not get worse. -/
theorem le_max_tiny_iff {r r₀ : K} (h : Polish.tiny ≤ r₀ → r < r₀) :
    r ≤ max r₀ Polish.tiny ↔ (r₀ < Polish.tiny → r ≤ Polish.tiny) := by
  rcases lt_or_ge r₀ Polish.tiny with hr | hr
  · rw [max_eq_right hr.le]
    exact ⟨fun hle _ => hle, fun hle => hle hr⟩
  · rw [max_eq_left hr]
    exact ⟨fun _ hlt => absurd hr hlt.not_ge, fun _ => (h hr).le⟩

theorem LastStep.noWorse_iff {x₀ : Fin s.problem.n → K} {y₀ : Fin s.problem.m → K}
    (h : LastStep A q l u s s' x₀ y₀) (hbetter : Improved s s')
    (hscales : ∀ j : Fin s.problem.n, 0 < s.equilibration.c * s.equilibration.d.getD j 0) :
    NoWorse s s' ↔
      (s.info.primRes < Polish.tiny → ∀ i,
        |overrun A l u (s.equilibration.primal q.size s'.iterate.x) i| ≤ Polish.tiny) ∧
      (s.info.dualRes < Polish.tiny → ∀ j : Fin s.problem.n,
        |s.settings.delta * (x₀ j - s'.iterate.x.getD j 0)| ≤
          Polish.tiny * (s.equilibration.c * s.equilibration.d.getD j 0)) := by
  rw [NoWorse, le_max_tiny_iff hbetter.prim, le_max_tiny_iff hbetter.dual, h.primRes_eq,
    h.dualRes_eq, maxNorm_le_iff Polish.tiny_pos.le, maxNorm_le_iff Polish.tiny_pos.le]
  simp only [abs_div, abs_of_pos (hscales _), div_le_iff₀ (hscales _)]

section Setup

variable {settings : Settings K} {order : EliminationOrder} {s₀ : Solver K}

/-- **When a polished point is better.** Polishing answers wherever a solver is, for any
program that is accepted and any settings. If it takes a point over, each residual that
was not negligible is lower, and one is lower in any case. The point comes from a last step
of the method of multipliers, which says what its residuals are. A residual gets worse,
from below what is negligible to above it, exactly where that step left a row too far out
of its bounds or was still too long. -/
theorem improved_of_setup (hsetup : setup P q A l u settings order = .ok (.ok s₀))
    (hmoves : Moves s₀ s) : Ensures s.polish fun r => r.1.info.polish = .successful →
      Improved s r.1 ∧ ∃ x₀ y₀, LastStep A q l u s r.1 x₀ y₀ ∧
        (NoWorse s r.1 ↔
          (s.info.primRes < Polish.tiny → ∀ i,
            |overrun A l u (s.equilibration.primal q.size r.1.iterate.x) i| ≤ Polish.tiny) ∧
          (s.info.dualRes < Polish.tiny → ∀ j : Fin s.problem.n,
            |s.settings.delta * (x₀ j - r.1.iterate.x.getD j 0)| ≤
              Polish.tiny * (s.equilibration.c * s.equilibration.d.getD j 0))) := by
  obtain ⟨-, p₀, hdata, heq⟩ := equilibrated_of_setup hsetup
  have hacc := Problem.accepted_of_ofData hdata
  have hfits := invariant_fits.of_moves (starts_of_setup hsetup).fits hmoves
  obtain ⟨hproblem, hequilibration⟩ := problem_of_moves hmoves
  rw [← hproblem, ← hequilibration] at heq
  obtain ⟨⟨s', events⟩, hpolish, -⟩ := invariant_fits.polish_ensures hfits
  refine ⟨(s', events), hpolish, fun hsuccess => ?_⟩
  have hbetter : Improved s s' := by
    obtain ⟨hprim, hdual, heither⟩ := Polish.improves_iff.mp
      (polished_of_polish hfits.sound hfits.sized hpolish hsuccess).improves
    exact ⟨hprim, hdual, heither⟩
  obtain ⟨x₀, y₀, hlast⟩ := lastStep_of_polish hacc heq hfits.sized hpolish hsuccess
  refine ⟨hbetter, x₀, y₀, hlast, hlast.noWorse_iff hbetter fun j => ?_⟩
  exact mul_pos heq.scales.c_pos (heq.scales.d_pos j (by rw [← heq.scales.n_eq]; exact j.isLt))

end Setup

end Solver

/-! ## A ceiling below the minimum -/

namespace Ceiling

/-- `x` is to stay below zero; the minimum is at one. -/
def l : Array ℚ := #[-1]

def u : Array ℚ := #[0]

/-- Every gap is close enough, and polishing leaves the first, heavily regularised
solution as it is. -/
def settings : Settings ℚ := { Shelf.settings with
  sigma := 1e-10
  delta := 1
  polishRefineIter := 0 }

end Ceiling

namespace Solver

/-- The gradients cancel at the first iterate, which is above the ceiling; polishing leads
closer to the ceiling, and to gradients that do not cancel. -/
theorem Ceiling.polishes : ∃ s₀ found r,
    setup Shelf.P Shelf.q Shelf.A Ceiling.l Ceiling.u Ceiling.settings .natural =
        .ok (.ok s₀) ∧
      s₀.settings.validate = .ok () ∧ s₀.restarted.search .still = .ok found ∧
      found.solver.wantsPolish found.result = true ∧ found.solver.polish = .ok r ∧
      r.1.info.polish = .successful ∧ Polish.tiny ≤ found.solver.info.primRes ∧
      found.solver.info.dualRes < Polish.tiny ∧ r.1.info.dualRes = 1 / 3 := by
  have hfirst : firstRun Shelf.P Shelf.q Shelf.A Ceiling.l Ceiling.u Ceiling.settings .natural
      .still (fun s₀ _ => decide (s₀.settings.validate = .ok () ∧
        (s₀.restarted.search .still).toOption.any fun found =>
          decide (found.solver.wantsPolish found.result = true ∧
            found.solver.polish.toOption.any fun r =>
              decide (r.1.info.polish = .successful ∧
                Polish.tiny ≤ found.solver.info.primRes ∧
                found.solver.info.dualRes < Polish.tiny ∧ r.1.info.dualRes = 1 / 3)))) = true := by
    decide +kernel
  obtain ⟨s₀, -, hsetup, -, htest⟩ := exists_of_firstRun hfirst
  obtain ⟨hset, htest⟩ := of_decide_eq_true htest
  obtain ⟨found, hsearch, htest⟩ := exists_of_toOption_any htest
  obtain ⟨hwants, htest⟩ := of_decide_eq_true htest
  obtain ⟨r, hpolish, htest⟩ := exists_of_toOption_any htest
  obtain ⟨hsuccess, hprim, hdual, hworse⟩ := of_decide_eq_true htest
  exact ⟨s₀, found, r, hsetup, hset, hsearch, hwants, hpolish, hsuccess, hprim, hdual, hworse⟩

theorem improved_of_setup_ceiling : ∃ s₀ found r,
    setup Shelf.P Shelf.q Shelf.A Ceiling.l Ceiling.u Ceiling.settings .natural =
        .ok (.ok s₀) ∧
      s₀.restarted.search .still = .ok found ∧ found.solver.polish = .ok r ∧
      r.1.info.polish = .successful ∧ r.1.info.primRes < found.solver.info.primRes ∧
      ∃ x₀ y₀, LastStep Shelf.A Shelf.q Ceiling.l Ceiling.u found.solver r.1 x₀ y₀ := by
  obtain ⟨s₀, found, r, hsetup, -, hfound, -, hpolish, hsuccess, hprim, -⟩ := Ceiling.polishes
  have hmoves := Steps.moves (steps_of_search hfound).2
  obtain ⟨hbetter, x₀, y₀, hlast, -⟩ :=
    (improved_of_setup hsetup hmoves).of_eq_ok hpolish hsuccess
  exact ⟨s₀, found, r, hsetup, hfound, hpolish, hsuccess, hbetter.prim hprim, x₀, y₀, hlast⟩

/-- **A polished point can be worse.** Where the dual residual is negligible, any lower
primal one is enough to take the point over, whatever the dual one becomes. -/
theorem worse_ceiling : ∃ s₀ found r,
    setup Shelf.P Shelf.q Shelf.A Ceiling.l Ceiling.u Ceiling.settings .natural =
        .ok (.ok s₀) ∧
      s₀.settings.validate = .ok () ∧ s₀.restarted.search .still = .ok found ∧
      Moves s₀ found.solver ∧ found.solver.wantsPolish found.result = true ∧
      found.solver.polish = .ok r ∧ r.1.info.polish = .successful ∧
      r.1.info.dualRes = 1 / 3 ∧ ¬ NoWorse found.solver r.1 := by
  obtain ⟨s₀, found, r, hsetup, hset, hfound, hwants, hpolish, hsuccess, -, hdual, hworse⟩ :=
    Ceiling.polishes
  have hmoves := Steps.moves (steps_of_search hfound).2
  have htiny : (Polish.tiny : ℚ) < 1 / 3 := by
    rw [Polish.tiny]
    norm_num
  refine ⟨s₀, found, r, hsetup, hset, hfound, hmoves, hwants, hpolish, hsuccess,
    hworse, fun h => ?_⟩
  have hle := h.2
  rw [hworse, max_eq_right hdual.le] at hle
  exact absurd htiny hle.not_gt

end Solver

end SplitQP
