import SplitQP.Proofs.Admm.Residuals
import SplitQP.Proofs.Admm.Iterate
import SplitQP.Admm.Report
import SplitQP.Admm.Infeasibility
/-!
# Checks and reports

Whatever the arithmetic, both infeasibility tests answer on every iterate
of the right lengths (`Infeasibility.isPrimal_ensures`,
`Infeasibility.isDual_ensures`), and every outcome can be reported
(`Solution.ofIterate_ensures`). In exact arithmetic a solution reported is
the point that the iterate stands for, with the objective of the run
(`Solution.ofIterate_ensures_of_hasSolution`).
-/

namespace SplitQP

open Checked SplitQP.Dense

/-! ## Whatever the arithmetic -/

section Generic

variable {α : Type} [Scalar α] {p : Problem α} {eq : Equilibration α} {v : Iterate α}

namespace Infeasibility

/-- What is computed row by row from the bounds and a vector. -/
theorem getD_rows {l u dy : Array α} {m i : ℕ} (hl : l.size = m) (hu : u.size = m)
    (hdy : dy.size = m) (f : α → α → α → α) (hi : i < m) :
    (((l.zip u).zip dy).map fun ((l, u), dy) => f l u dy).getD i 0 =
      f (l.getD i 0) (u.getD i 0) (dy.getD i 0) := by
  rw [getD_of_lt 0 (by simp [hl, hu, hdy, hi]), getD_of_lt 0 (by omega), getD_of_lt 0 (by omega),
    getD_of_lt 0 (by omega)]
  simp

theorem size_projected (hp : p.Sound) {dy : Array α} (hdy : dy.size = p.m) :
    (projected p dy).size = p.m := by simp [projected, hp.size_l, hp.size_u, hdy]

/-- What the primal test looks at, row by row. -/
theorem getD_projected (hp : p.Sound) {dy : Array α} (hdy : dy.size = p.m) {i : ℕ} (hi : i < p.m) :
    (projected p dy).getD i 0 = project (p.l.getD i 0) (p.u.getD i 0) (dy.getD i 0) :=
  getD_rows hp.size_l hp.size_u hdy project hi

/-- **The primal test answers.** -/
theorem isPrimal_ensures (hp : p.Sound) (he : eq.Fits p.n p.m) {dy : Array α}
    (hdy : dy.size = p.m) (eps : α) : Ensures (isPrimal p eq dy eps) fun _ => True := by
  have hproj := size_projected hp hdy
  rw [isPrimal, copyTo_eq_ok (size_constant.trans hdy.symm), ok_bind]
  dsimp only
  rw [normInfScaled_eq_ok (hproj.trans he.size_e.symm), ok_bind]
  split
  · exact .ok trivial
  split
  · exact .ok trivial
  refine (Csc.mulTransposeVec_ensures_size hp.wellFormed_A _ _ (hproj.trans hp.nrows_A.symm)
    (size_constant.trans hp.ncols_A.symm)).bind fun aty haty => ?_
  rw [normInfScaled_eq_ok (haty.trans (hp.ncols_A.trans he.size_dinv.symm))]
  exact .ok trivial

/-- **The dual test answers.** -/
theorem isDual_ensures (hp : p.Sound) (he : eq.Fits p.n p.m) {dx : Array α}
    (hdx : dx.size = p.n) (eps : α) : Ensures (isDual p eq dx eps) fun _ => True := by
  have hsq : p.P.nrows = p.P.ncols := hp.nrows_P.trans hp.ncols_P.symm
  rw [isDual, normInfScaled_eq_ok (hdx.trans he.size_d.symm), ok_bind]
  split
  · exact .ok trivial
  rw [dot_eq_ok (hp.size_q.trans hdx.symm), ok_bind]
  split
  · exact .ok trivial
  refine (Csc.mulSymVec_ensures_size hp.wellFormed_P hsq _ _ (hdx.trans hp.ncols_P.symm)
    (size_constant.trans hp.ncols_P.symm)).bind fun px hpx => ?_
  rw [normInfScaled_eq_ok (hpx.trans (hp.ncols_P.trans he.size_dinv.symm)), ok_bind]
  split
  · exact .ok trivial
  refine (Csc.mulVec_ensures_size hp.wellFormed_A _ _ (hdx.trans hp.ncols_A.symm)
    (size_constant.trans hp.nrows_A.symm)).bind fun ax hax => ?_
  rw [hadamard_eq_ok (hax.trans (hp.nrows_A.trans he.size_einv.symm))]
  exact .ok trivial

end Infeasibility

namespace Solution

theorem unscaleDual_eq_ok {y : Array α} (hy : y.size = eq.e.size) :
    unscaleDual eq y = .ok (scale eq.cinv (y.zipWith (· * ·) eq.e)) := by
  rw [unscaleDual, hadamard_eq_ok hy]
  rfl

/-- A primal and a dual vector of the lengths of the program. -/
structure Sized (n m : ℕ) (sol : Solution α) : Prop where
  size_x : sol.x.size = n
  size_y : sol.y.size = m

/-- **Every outcome can be reported,** with vectors of the right lengths. -/
theorem ofIterate_ensures (he : eq.Fits p.n p.m) (hv : v.Sized p.n p.m) (info : Info α) :
    Ensures (ofIterate p.n p.m v eq info) (Sized p.n p.m) := by
  have hdy : v.deltaY.size = eq.e.size := hv.size_deltaY.trans he.size_e.symm
  have hdx : v.deltaX.size = eq.d.size := hv.size_deltaX.trans he.size_d.symm
  have hblank : (none p.n p.m : Solution α).Sized p.n p.m := ⟨size_constant, size_constant⟩
  rw [ofIterate]
  dsimp only
  split
  · rw [copyTo_eq_ok (hblank.size_x.trans hv.size_x.symm), ok_bind,
      hadamard_eq_ok (hv.size_x.trans he.size_d.symm), ok_bind,
      copyTo_eq_ok (hblank.size_y.trans hv.size_y.symm), ok_bind,
      unscaleDual_eq_ok (hv.size_y.trans he.size_e.symm)]
    exact .ok ⟨size_zipWith hv.size_x he.size_d,
      Array.size_map.trans (size_zipWith hv.size_y he.size_e)⟩
  split
  · rw [unscaleDual_eq_ok hdy]
    exact .ok { hblank with }
  · rw [unscaleDual_eq_ok hdy]
    exact .ok { hblank with }
  · rw [hadamard_eq_ok hdx]
    exact .ok { hblank with }
  · rw [hadamard_eq_ok hdx]
    exact .ok { hblank with }
  · exact .ok { hblank with }

end Solution
end Generic

variable {K : Type} [ExactField K] {p₀ p : Problem K} {eq : Equilibration K} {v : Iterate K}

/-! ## Solutions -/

namespace Solution

/-- **The point reported** is the one the iterate stands for. -/
structure Reports (eq : Equilibration K) (n m : ℕ) (v : Iterate K) (info : Info K)
    (s : Solution K) : Prop where
  status_eq : s.status = info.status
  x_eq : info.status.hasSolution → s.x.size = n ∧ vec n s.x = eq.primal n v.x
  y_eq : info.status.hasSolution → s.y.size = m ∧ vec m s.y = eq.dual m v.y
  objective_eq : info.status.hasSolution → s.objective = info.objective

/-- Multipliers are reported in the caller's units. -/
theorem vec_unscaleDual (h : Equilibration.Equilibrated p₀ p eq) {m : ℕ} {y : Array K}
    (hm : p.m = m) (hy : y.size = m) :
    vec m (scale eq.cinv (y.zipWith (· * ·) eq.e)) = eq.dual m y := by
  have he := h.size_e.trans hm
  rw [scale, vec_map (size_zipWith hy he), vec_zipWith hy he, h.cinv_eq, ExactField.recip_eq]
  funext i
  rw [Equilibration.dual, div_eq_mul_inv, mul_comm (eq.e.getD i 0)]
  rfl

/-- Points are reported in the caller's units. -/
theorem vec_unscale (h : Equilibration.Equilibrated p₀ p eq) {n : ℕ} {x : Array K}
    (hn : p.n = n) (hx : x.size = n) :
    vec n (x.zipWith (· * ·) eq.d) = eq.primal n x := by
  rw [vec_zipWith hx (h.size_d.trans hn)]
  funext j
  exact mul_comm _ _

/-- **A solution can be reported** off an iterate of the right lengths. -/
theorem ofIterate_ensures_of_hasSolution (h : Equilibration.Equilibrated p₀ p eq)
    (hx : v.x.size = p.n) (hy : v.y.size = p.m) {info : Info K}
    (hsol : info.status.hasSolution = true) :
    Ensures (ofIterate p.n p.m v eq info) (Reports eq p.n p.m v info) := by
  have hd := hx.trans h.size_d.symm
  have he := hy.trans h.size_e.symm
  have hblankx : (none p.n p.m : Solution K).x.size = v.x.size := size_constant.trans hx.symm
  have hblanky : (none p.n p.m : Solution K).y.size = v.y.size := size_constant.trans hy.symm
  rw [ofIterate, if_pos hsol]
  dsimp only
  rw [copyTo_eq_ok hblankx, ok_bind, hadamard_eq_ok hd, ok_bind, copyTo_eq_ok hblanky, ok_bind,
    unscaleDual_eq_ok he]
  refine .ok ⟨rfl, fun _ => ⟨size_zipWith hx h.size_d, ?_⟩, fun _ => ⟨?_, ?_⟩, fun _ => rfl⟩
  · exact vec_unscale h rfl hx
  · rw [size_scale]
    exact size_zipWith hy h.size_e
  · exact vec_unscaleDual h rfl hy

/-- **A certificate of infeasible constraints** is the last step of the multipliers. -/
theorem primInfCert_of_ofIterate (h : Equilibration.Equilibrated p₀ p eq) {n m : ℕ}
    (hm : p.m = m) (hy : v.deltaY.size = m) {info : Info K} {s : Solution K}
    (hstatus : info.status = .primalInfeasible ∨ info.status = .primalInfeasibleInaccurate)
    (hs : ofIterate n m v eq info = .ok s) :
    ∃ c, s.primInfCert = some c ∧ c.size = m ∧ vec m c = eq.dual m v.deltaY := by
  have hok := unscaleDual_eq_ok (hy.trans (h.size_e.trans hm).symm)
  refine ⟨_, ?_, ?_, vec_unscaleDual h hm hy⟩
  · rw [ofIterate] at hs
    rcases hstatus with hstatus | hstatus
    · rw [hstatus, if_neg (by decide), hok] at hs
      cases hs
      rfl
    · rw [hstatus, if_neg (by decide), hok] at hs
      cases hs
      rfl
  · rw [size_scale]
    exact size_zipWith hy (h.size_e.trans hm)

/-- **A certificate of an unbounded objective** is the last step of the point. -/
theorem dualInfCert_of_ofIterate (h : Equilibration.Equilibrated p₀ p eq) {n m : ℕ}
    (hn : p.n = n) (hx : v.deltaX.size = n) {info : Info K} {s : Solution K}
    (hstatus : info.status = .dualInfeasible ∨ info.status = .dualInfeasibleInaccurate)
    (hs : ofIterate n m v eq info = .ok s) :
    ∃ c, s.dualInfCert = some c ∧ c.size = n ∧ vec n c = eq.primal n v.deltaX := by
  have hok := hadamard_eq_ok (hx.trans (h.size_d.trans hn).symm)
  refine ⟨_, ?_, size_zipWith hx (h.size_d.trans hn), vec_unscale h hn hx⟩
  rw [ofIterate] at hs
  rcases hstatus with hstatus | hstatus
  · rw [hstatus, if_neg (by decide), hok] at hs
    cases hs
    rfl
  · rw [hstatus, if_neg (by decide), hok] at hs
    cases hs
    rfl

/-- What is reported has the lengths of the factors. -/
theorem size_of_ofIterate {n m : ℕ} {info : Info K} {s : Solution K}
    (hsol : info.status.hasSolution = true) (hs : ofIterate n m v eq info = .ok s) :
    v.x.size = eq.d.size ∧ v.y.size = eq.e.size := by
  rw [ofIterate, if_pos hsol] at hs
  obtain ⟨x, hx, hs⟩ := bind_eq_ok.mp hs
  obtain ⟨x', hx', hs⟩ := bind_eq_ok.mp hs
  obtain ⟨y, hy, hs⟩ := bind_eq_ok.mp hs
  obtain ⟨y', hy', -⟩ := bind_eq_ok.mp hs
  obtain ⟨_, -, hx⟩ := bind_eq_ok.mp hx
  obtain ⟨_, hd, -⟩ := bind_eq_ok.mp hx'
  obtain ⟨_, -, hy⟩ := bind_eq_ok.mp hy
  obtain ⟨_, hy', -⟩ := bind_eq_ok.mp hy'
  obtain ⟨_, he, -⟩ := bind_eq_ok.mp hy'
  cases hx
  cases hy
  exact ⟨require_eq_ok_iff.mp hd, require_eq_ok_iff.mp he⟩

end Solution

end SplitQP
