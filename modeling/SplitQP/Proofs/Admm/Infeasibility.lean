import SplitQP.Proofs.Admm.Report
/-!
# Infeasibility in the caller's units

Multipliers that separate what the constraints reach near the origin from
the bounds show that no point near the origin is feasible
(`Separates.not_within`), and a direction of descent shows that there are
no small multipliers for which a small point is stationary
(`Descends.lt_of_stationary`). Where a test of infeasibility passes, what
it tested is of this kind once the scaling is undone
(`separates_of_isPrimal`, `descends_of_isDual`). What the first one tests
is the step without what infinite bounds forbid (`restrict`).
-/

namespace SplitQP

open Checked SplitQP.Dense Finset

variable {K : Type} [ExactField K]

namespace Infeasibility

/-! ## What certificates show -/

section Certificates

variable {n m : ℕ} {S : Matrix (Fin n) (Fin n) K} {q : Fin n → K} {B : Matrix (Fin m) (Fin n) K}
  {lo hi : Fin m → K} {above below : Fin m → Prop} {eps : K}

/-- The largest value of `w` on the points between the bounds. -/
def reach (lo hi w : Fin m → K) : K := ∑ i, (hi i * max (w i) 0 + lo i * min (w i) 0)

/-- **`w` separates** what the constraints reach near the origin from the bounds. -/
structure Separates (B : Matrix (Fin m) (Fin n) K) (lo hi : Fin m → K) (eps : K)
    (w : Fin m → K) : Prop where
  image_lt : maxNorm (B.transpose.mulVec w) < eps * maxNorm w
  reach_lt : reach lo hi w < -eps * maxNorm w

/-- No point between the bounds is reached further out. -/
theorem dotProduct_le_reach {z : Fin m → K} (hz : ∀ i, lo i ≤ z i ∧ z i ≤ hi i)
    (w : Fin m → K) : dotProduct w z ≤ reach lo hi w := by
  refine sum_le_sum fun i _ => ?_
  obtain ⟨hlo, hhi⟩ := hz i
  rcases le_total (w i) 0 with hw | hw
  · rw [max_eq_right hw, min_eq_left hw, mul_zero, zero_add, mul_comm]
    exact mul_le_mul_of_nonpos_right hlo hw
  · rw [max_eq_left hw, min_eq_right hw, mul_zero, add_zero, mul_comm]
    exact mul_le_mul_of_nonneg_right hhi hw

/-- **No point near the origin is feasible.** -/
theorem Separates.not_within {w : Fin m → K} (h : Separates B lo hi eps w) {x : Fin n → K}
    (hx : ∑ j, |x j| ≤ 1) : ¬ ∀ i, lo i ≤ B.mulVec x i ∧ B.mulVec x i ≤ hi i := by
  intro hwithin
  have hreach := dotProduct_le_reach hwithin w
  have himage : -(maxNorm (B.transpose.mulVec w)) ≤ dotProduct w (B.mulVec x) := by
    have hle := dotProduct_le (B.transpose.mulVec w) (-x)
    rw [dotProduct_neg, dotProduct_comm, Matrix.dotProduct_transpose_mulVec] at hle
    simp only [Pi.neg_apply, abs_neg] at hle
    have := mul_le_of_le_one_right (maxNorm_nonneg (B.transpose.mulVec w)) hx
    linarith
  linarith [h.image_lt, h.reach_lt]

/-- **`v` descends:** the objective falls along `v` without bending, and the
constraints do not leave a bound that is not open. -/
structure Descends (S : Matrix (Fin n) (Fin n) K) (q : Fin n → K) (B : Matrix (Fin m) (Fin n) K)
    (above below : Fin m → Prop) (eps : K) (v : Fin n → K) : Prop where
  ne_zero : v ≠ 0
  slope_lt : dotProduct q v < -eps * maxNorm v
  bend_lt : maxNorm (S.mulVec v) < eps * maxNorm v
  le : ∀ i, ¬ above i → B.mulVec v i ≤ eps * maxNorm v
  ge : ∀ i, ¬ below i → -eps * maxNorm v ≤ B.mulVec v i

/-- Multipliers that respect the open bounds gain little along `v`. -/
theorem Descends.dotProduct_mulVec_le {v : Fin n → K} (h : Descends S q B above below eps v)
    {y : Fin m → K} (habove : ∀ i, above i → y i ≤ 0) (hbelow : ∀ i, below i → 0 ≤ y i) :
    dotProduct y (B.mulVec v) ≤ eps * maxNorm v * ∑ i, |y i| := by
  rw [mul_sum]
  refine sum_le_sum fun i _ => ?_
  rcases lt_trichotomy (y i) 0 with hy | hy | hy
  · have hge := h.ge i fun hopen => (hbelow i hopen).not_gt hy
    rw [abs_of_neg hy]
    nlinarith
  · rw [hy, abs_zero, zero_mul, mul_zero]
  · have hle := h.le i fun hopen => (habove i hopen).not_gt hy
    rw [abs_of_pos hy, mul_comm]
    exact mul_le_mul_of_nonneg_right hle hy.le

/-- **No small point is stationary** for small multipliers. -/
theorem Descends.lt_of_stationary {v : Fin n → K} (h : Descends S q B above below eps v)
    (hsym : S.transpose = S) {x : Fin n → K} {y : Fin m → K}
    (hstat : S.mulVec x + q + B.transpose.mulVec y = 0)
    (habove : ∀ i, above i → y i ≤ 0) (hbelow : ∀ i, below i → 0 ≤ y i) :
    1 < ∑ j, |x j| + ∑ i, |y i| := by
  have hzero : dotProduct (S.mulVec v) x + dotProduct q v + dotProduct y (B.mulVec v) = 0 := by
    have hsum := congrArg (dotProduct v) hstat
    rw [dotProduct_add, dotProduct_add, dotProduct_zero, Matrix.dotProduct_transpose_mulVec] at hsum
    rwa [dotProduct_comm (S.mulVec v), ← Matrix.dotProduct_transpose_mulVec, hsym,
      dotProduct_comm q]
  have hbend := dotProduct_le (S.mulVec v) x
  have hrows := h.dotProduct_mulVec_le habove hbelow
  have hsmall : maxNorm (S.mulVec v) * ∑ j, |x j| ≤ eps * maxNorm v * ∑ j, |x j| :=
    mul_le_mul_of_nonneg_right h.bend_lt.le (sum_nonneg fun j _ => abs_nonneg _)
  have hpos : 0 < eps * maxNorm v := (maxNorm_nonneg _).trans_lt h.bend_lt
  have hslope := h.slope_lt
  by_contra hle
  have := mul_le_of_le_one_right hpos.le (not_lt.mp hle)
  rw [mul_add] at this
  linarith

end Certificates

/-! ## Open bounds -/

/-- The upper bound of row `i` counts as infinite in the tests. -/
def OpenAbove (p : Problem K) (i : ℕ) : Prop := StepSizes.unbounded < p.u.getD i 0

/-- The lower bound of row `i` counts as infinite in the tests. -/
def OpenBelow (p : Problem K) (i : ℕ) : Prop := p.l.getD i 0 < -StepSizes.unbounded

instance (p : Problem K) (i : ℕ) : Decidable (OpenAbove p i) := inferInstanceAs (Decidable (_ < _))

instance (p : Problem K) (i : ℕ) : Decidable (OpenBelow p i) := inferInstanceAs (Decidable (_ < _))

/-- `v` without what open bounds forbid. -/
def restrict (p : Problem K) {m : ℕ} (v : Fin m → K) : Fin m → K :=
  fun i => project (p.l.getD i 0) (p.u.getD i 0) (v i)

/-- **`v` respects the open bounds:** no multiplier pulls at one. -/
structure Respects (p : Problem K) {m : ℕ} (v : Fin m → K) : Prop where
  nonpos : ∀ i : Fin m, OpenAbove p i → v i ≤ 0
  nonneg : ∀ i : Fin m, OpenBelow p i → 0 ≤ v i

/-- What `restrict` leaves of an entry, by cases. -/
theorem restrict_apply (p : Problem K) {m : ℕ} (v : Fin m → K) (i : Fin m) :
    restrict p v i = if OpenBelow p i then (if OpenAbove p i then 0 else max (v i) 0)
      else if OpenAbove p i then min (v i) 0 else v i := by
  have hbelow : Scalar.lt (p.l.getD i 0) (-StepSizes.unbounded) = decide (OpenBelow p i) := rfl
  have habove : Scalar.lt StepSizes.unbounded (p.u.getD i 0) = decide (OpenAbove p i) := rfl
  rw [restrict, project, hbelow, habove]
  by_cases hb : OpenBelow p i
  · by_cases ha : OpenAbove p i <;> simp [hb, ha]
  · by_cases ha : OpenAbove p i <;> simp [hb, ha]

theorem respects_restrict (p : Problem K) {m : ℕ} (v : Fin m → K) : Respects p (restrict p v) := by
  refine ⟨fun i ha => ?_, fun i hb => ?_⟩
  · rw [restrict_apply, if_pos ha, if_pos ha]
    split
    · exact le_rfl
    · exact min_le_right _ _
  · rw [restrict_apply, if_pos hb]
    split
    · exact le_rfl
    · exact le_max_right _ _

/-- Nothing is lost of multipliers that respect the open bounds, and only of others. -/
theorem restrict_eq_self_iff {p : Problem K} {m : ℕ} {v : Fin m → K} :
    restrict p v = v ↔ Respects p v := by
  constructor
  · intro h
    rw [← h]
    exact respects_restrict p v
  · intro h
    funext i
    rw [restrict_apply]
    split_ifs with hb ha ha
    · exact le_antisymm (h.nonneg i hb) (h.nonpos i ha)
    · exact max_eq_left (h.nonneg i hb)
    · exact min_eq_left (h.nonpos i ha)
    · rfl

/-- Projecting is for any unit of the multipliers. -/
theorem project_mul {k : K} (hk : 0 ≤ k) (l u v : K) : project l u (k * v) = k * project l u v := by
  have hmax : max (k * v) 0 = k * max v 0 := by rw [mul_max_of_nonneg _ _ hk, mul_zero]
  have hmin : min (k * v) 0 = k * min v 0 := by rw [mul_min_of_nonneg _ _ hk, mul_zero]
  unfold project
  split
  · rw [mul_zero]
  · exact hmin
  · exact hmax
  · rfl

/-! ## The tests -/

section Tests

variable {p₀ p : Problem K} {eq : Equilibration K} {n m : ℕ} {eps : K}

/-- What is computed row by row from the bounds and a vector, as a vector. -/
theorem vec_rows {l u dy : Array K} (hl : l.size = m) (hu : u.size = m) (hdy : dy.size = m)
    (f : K → K → K → K) :
    vec m (((l.zip u).zip dy).map fun ((l, u), dy) => f l u dy) =
      fun i : Fin m => f (l.getD i 0) (u.getD i 0) (dy.getD i 0) :=
  funext fun i => getD_rows hl hu hdy f i.isLt

/-- A movement that stays within the bounds does so in every row. -/
theorem staysWithin_rows {l u ax : Array K} {tolerance : K} (hl : l.size = m) (hu : u.size = m)
    (hax : ax.size = m)
    (hall : (((l.zip u).zip ax).all fun ((l, u), adx) => staysWithin tolerance l u adx) = true)
    (i : Fin m) :
    (StepSizes.unbounded < u.getD i 0 ∨ vec m ax i ≤ tolerance) ∧
      (l.getD i 0 < -StepSizes.unbounded ∨ -tolerance ≤ vec m ax i) := by
  have hi := Array.all_eq_true.mp hall i (by simp [hl, hu, hax])
  rw [vec, getD_of_lt 0 (by omega), getD_of_lt 0 (by omega), getD_of_lt 0 (by omega)]
  simpa [staysWithin] using hi

/-- The support is the reach of the bounds. -/
theorem support_eq (hp : p.Sound) {dy : Array K} (hm : p.m = m) (hdy : dy.size = m) :
    support p dy = reach (vec m p.l) (vec m p.u) (vec m dy) := by
  have hl := hp.size_l.trans hm
  have hu := hp.size_u.trans hm
  have hfold : support p dy = (((p.l.zip p.u).zip dy).map fun ((l, u), dy) =>
      u * max dy 0 + l * min dy 0).foldl (· + ·) 0 := by
    rw [Array.foldl_map]
    simp only [support, ExactField.max_eq, ExactField.min_eq, add_assoc]
  rw [hfold, foldl_add_eq_sum (n := m) (by simp [hl, hu, hdy]),
    vec_rows hl hu hdy fun l u dy => u * max dy 0 + l * min dy 0]
  rfl

variable (h : Equilibration.Equilibrated p₀ p eq) (hn : p₀.n = n) (hm : p₀.m = m)

include h

section Multipliers

include hm

/-- What is tested, in the caller's units. -/
theorem dual_projected {dy : Array K} (hdy : dy.size = m) :
    eq.dual m (projected p dy) = restrict p (eq.dual m dy) := by
  have hs := h.scales
  have hpm : p.m = m := hs.m_eq.trans hm
  funext i
  have hfactor : 0 ≤ eq.e.getD i 0 / eq.c :=
    div_nonneg (hs.e_pos i (by omega)).le hs.c_pos.le
  rw [Equilibration.dual, restrict, Equilibration.dual,
    getD_projected hs.sound (hdy.trans hpm.symm) (by omega), mul_div_right_comm,
    mul_div_right_comm, project_mul hfactor]

/-- The length of multipliers. -/
theorem normInfScaled_e {dy : Array K} (hdy : dy.size = m) :
    normInfScaled dy eq.e = .ok (eq.c * maxNorm (eq.dual m dy)) := by
  have he : eq.e.size = m := h.scales.size_e.trans hm
  have hc := h.scales.c_pos
  rw [normInfScaled_eq_ok (hdy.trans he.symm), largest_eq_maxNorm (size_zipWith hdy he),
    vec_zipWith hdy he, ← maxNorm_mul hc.le]
  congr 2
  funext i
  rw [Equilibration.dual, vec, vec]
  have hne := hc.ne'
  field_simp

/-- The reach of scaled multipliers. -/
theorem reach_scaled (dy : Array K) : reach (vec m p.l) (vec m p.u) (vec m dy) =
    eq.c * reach (vec m p₀.l) (vec m p₀.u) (eq.dual m dy) := by
  have hc := h.scales.c_pos
  rw [reach, reach, mul_sum]
  refine sum_congr rfl fun i _ => ?_
  have hi : (i : ℕ) < p₀.m := by omega
  have he := h.scales.e_pos i hi
  have hfactor : 0 ≤ eq.e.getD i 0 / eq.c := div_nonneg he.le hc.le
  have hdual : eq.dual m dy i = eq.e.getD i 0 / eq.c * vec m dy i := mul_div_right_comm _ _ _
  have hmax : max (eq.dual m dy i) 0 = eq.e.getD i 0 / eq.c * max (vec m dy i) 0 := by
    rw [hdual, mul_max_of_nonneg _ _ hfactor, mul_zero]
  have hmin : min (eq.dual m dy i) 0 = eq.e.getD i 0 / eq.c * min (vec m dy i) 0 := by
    rw [hdual, mul_min_of_nonneg _ _ hfactor, mul_zero]
  have hl : vec m p.l i = vec m p₀.l i * eq.e.getD i 0 := h.l_eq i hi
  have hu : vec m p.u i = vec m p₀.u i * eq.e.getD i 0 := h.u_eq i hi
  have hne := hc.ne'
  rw [hmax, hmin, hl, hu]
  field_simp

end Multipliers

/-- The length of what is in the units of the scaled variables. -/
theorem normInfScaled_dinv (hn : p₀.n = n) {r : Array K} {g : Fin n → K} (hr : r.size = n)
    (hg : ∀ j, vec n r j = eq.c * (eq.d.getD j 0 * g j)) :
    normInfScaled r eq.dinv = .ok (eq.c * maxNorm g) := by
  have hdinv : eq.dinv.size = n := by rw [h.dinv_eq, Array.size_map, h.scales.size_d, hn]
  rw [normInfScaled_eq_ok (hr.trans hdinv.symm), largest_eq_maxNorm (size_zipWith hr hdinv),
    vec_zipWith hr hdinv, ← maxNorm_mul h.scales.c_pos.le]
  congr 2
  funext j
  have hd := (h.scales.d_pos j (by omega)).ne'
  rw [hg, Residuals.getD_dinv h hn]
  field_simp

include hn hm

omit hn in
/-- The primal test is for steps with an entry for each row. -/
theorem size_of_isPrimal {dy : Array K} {passes : Bool} (htest : isPrimal p eq dy eps = .ok passes) :
    dy.size = m := by
  obtain ⟨_, hcopy, -⟩ := bind_eq_ok.mp htest
  obtain ⟨_, hlength, -⟩ := bind_eq_ok.mp hcopy
  rw [require_eq_ok_iff, size_constant] at hlength
  exact hlength.symm.trans (h.scales.m_eq.trans hm)

/-- **The primal test** compares the projected step, in the caller's units. -/
theorem isPrimal_eq (eps : K) {dy : Array K} (hsize : dy.size = m) :
    let w := eq.dual m (projected p dy)
    isPrimal p eq dy eps =
      if Scalar.le (eq.c * maxNorm w) Residuals.divisionTolerance then .ok false
      else if Scalar.le (-eps * (eq.c * maxNorm w))
        (eq.c * reach (vec m p₀.l) (vec m p₀.u) w) then .ok false
      else .ok (Scalar.lt (eq.c * maxNorm ((p₀.A.toMatrix m n).transpose.mulVec w))
        (eps * (eq.c * maxNorm w))) := by
  have hs := h.scales
  have hp := hs.sound
  have hpm : p.m = m := hs.m_eq.trans hm
  have hpn : p.n = n := hs.n_eq.trans hn
  have hproj : (projected p dy).size = m := by rw [size_projected hp (by omega), hpm]
  have hblank : (constant p.n (0 : K)).size = n := size_constant.trans hpn
  obtain ⟨aty, hmul, hsizeaty, haty⟩ := Csc.vec_mulTransposeVec hp.wellFormed_A
    (hp.nrows_A.trans hpm) (hp.ncols_A.trans hpn) 1 0 hproj hblank
  have himage : ∀ j, vec n aty j = eq.c * (eq.d.getD j 0 *
      (p₀.A.toMatrix m n).transpose.mulVec (eq.dual m (projected p dy)) j) := by
    intro j
    rw [haty, one_smul, zero_smul, add_zero, hs.mulVec_transpose_A hn]
    rfl
  rw [isPrimal, copyTo_eq_ok (size_constant.trans (by omega)), ok_bind]
  dsimp only
  rw [normInfScaled_e h hm hproj, ok_bind, support_eq hp hpm hproj, reach_scaled h hm, hmul]
  simp only [ok_bind, normInfScaled_dinv h hn hsizeaty himage]
  rfl

/-- **Where the primal test passes,** the step that it tests separates, without
what open bounds forbid. -/
theorem separates_of_isPrimal {dy : Array K} (htest : isPrimal p eq dy eps = .ok true) :
    dy.size = m ∧ Separates (p₀.A.toMatrix m n) (vec m p₀.l) (vec m p₀.u) eps
      (restrict p (eq.dual m dy)) := by
  have hc := h.scales.c_pos
  have hsize := size_of_isPrimal h hm htest
  rw [isPrimal_eq h hn hm eps hsize, dual_projected h hm hsize] at htest
  -- it passes past two exits: no step, and too much reach
  split at htest
  · cases htest
  split at htest
  · cases htest
  rename_i hreach
  rw [Except.ok.injEq, ExactField.lt_iff, mul_left_comm] at htest
  rw [ExactField.le_iff, not_le, mul_left_comm] at hreach
  exact ⟨hsize, lt_of_mul_lt_mul_left htest hc.le, lt_of_mul_lt_mul_left hreach hc.le⟩

omit hm in
/-- The length of a direction. -/
theorem normInfScaled_d {dx : Array K} (hdx : dx.size = n) :
    normInfScaled dx eq.d = .ok (maxNorm (eq.primal n dx)) := by
  have hd : eq.d.size = n := h.scales.size_d.trans hn
  rw [normInfScaled_eq_ok (hdx.trans hd.symm), largest_eq_maxNorm (size_zipWith hdx hd),
    vec_zipWith hdx hd]
  congr 2
  funext j
  exact mul_comm _ _

omit hm in
/-- The slope along a scaled direction. -/
theorem dot_scaled {dx : Array K} (hdx : dx.size = n) :
    dot p.q dx = .ok (eq.c * dotProduct (vec n p₀.q) (eq.primal n dx)) := by
  have hq : p.q.size = n := h.scales.sound.size_q.trans (h.scales.n_eq.trans hn)
  have hentry : ∀ j : Fin n, vec n p.q j * vec n dx j =
      eq.c * (vec n p₀.q j * eq.primal n dx j) := by
    intro j
    have hj : vec n p.q j = eq.c * (eq.d.getD j 0 * vec n p₀.q j) := h.scales.q_eq j (by omega)
    have hx : vec n dx j = dx.getD j 0 := rfl
    rw [hj, hx, Equilibration.primal]
    ring
  rw [dot_eq_ok (hq.trans hdx.symm), foldl_add_eq_sum (size_zipWith hq hdx), vec_zipWith hq hdx,
    dotProduct, mul_sum]
  simp only [hentry]

/-- The rows of the constraints along a scaled direction. -/
theorem rows_scaled {dx ax : Array K} (hax : ax.size = m)
    (hmul : vec m ax = (p.A.toMatrix m n).mulVec (vec n dx)) :
    ∃ r, hadamard ax eq.einv = .ok r ∧ r.size = m ∧
      vec m r = (p₀.A.toMatrix m n).mulVec (eq.primal n dx) := by
  have heinv : eq.einv.size = m := by rw [h.einv_eq, Array.size_map, h.scales.size_e, hm]
  refine ⟨_, hadamard_eq_ok (hax.trans heinv.symm), size_zipWith hax heinv, ?_⟩
  rw [vec_zipWith hax heinv, hmul]
  funext i
  have he := (h.scales.e_pos i (by omega)).ne'
  rw [h.scales.mulVec_A hn, Residuals.getD_einv h hm, mul_right_comm, mul_inv_cancel₀ he, one_mul]
  rfl

omit hm in
/-- The dual test is for steps with an entry for each variable. -/
theorem size_of_isDual {dx : Array K} {passes : Bool} (htest : isDual p eq dx eps = .ok passes) :
    dx.size = n := by
  obtain ⟨_, hnorm, -⟩ := bind_eq_ok.mp htest
  obtain ⟨_, hlength, -⟩ := bind_eq_ok.mp hnorm
  rw [require_eq_ok_iff, h.scales.size_d] at hlength
  exact hlength.trans hn

/-- **The dual test** compares the step and the rows along it, in the caller's units. -/
theorem isDual_eq (eps : K) {dx : Array K} (hsize : dx.size = n) :
    let v := eq.primal n dx
    ∃ r, r.size = m ∧ vec m r = (p₀.A.toMatrix m n).mulVec v ∧ isDual p eq dx eps =
      if Scalar.le (maxNorm v) Residuals.divisionTolerance then .ok false
      else if Scalar.le (-eq.c * eps * maxNorm v) (eq.c * dotProduct (vec n p₀.q) v) then
        .ok false
      else if Scalar.le (eq.c * eps * maxNorm v)
        (eq.c * maxNorm ((p₀.P.toSymMatrix n).mulVec v)) then .ok false
      else .ok (((p.l.zip p.u).zip r).all fun ((l, u), adx) =>
        staysWithin (eps * maxNorm v) l u adx) := by
  have hs := h.scales
  have hp := hs.sound
  have hpm : p.m = m := hs.m_eq.trans hm
  have hpn : p.n = n := hs.n_eq.trans hn
  obtain ⟨px, hmulP, hsizepx, hpx⟩ := Csc.vec_mulSymVec hp.wellFormed_P (hp.nrows_P.trans hpn)
    (hp.ncols_P.trans hpn) 1 0 hsize (size_constant.trans hpn : (constant p.n (0 : K)).size = n)
  obtain ⟨ax, hmulA, hsizeax, hax⟩ := Csc.vec_mulVec hp.wellFormed_A (hp.nrows_A.trans hpm)
    (hp.ncols_A.trans hpn) 1 0 hsize (size_constant.trans hpm : (constant p.m (0 : K)).size = m)
  rw [one_smul, zero_smul, add_zero] at hpx hax
  have hbend : ∀ j, vec n px j = eq.c * (eq.d.getD j 0 *
      (p₀.P.toSymMatrix n).mulVec (eq.primal n dx) j) := by
    intro j
    rw [hpx, hs.mulVec_P hn]
    rfl
  obtain ⟨r, hrows, hsizer, hr⟩ := rows_scaled h hn hm hsizeax hax
  refine ⟨r, hsizer, hr, ?_⟩
  rw [isDual, normInfScaled_d h hn hsize, ok_bind]
  dsimp only
  rw [dot_scaled h hn hsize, ok_bind, hmulP]
  simp only [ok_bind, normInfScaled_dinv h hn hsizepx hbend, hmulA, hrows]
  rfl

/-- **Where the dual test passes,** the step that it tests descends. -/
theorem descends_of_isDual {dx : Array K} (htest : isDual p eq dx eps = .ok true) :
    dx.size = n ∧ Descends (p₀.P.toSymMatrix n) (vec n p₀.q) (p₀.A.toMatrix m n)
      (fun i => OpenAbove p i) (fun i => OpenBelow p i) eps (eq.primal n dx) := by
  have hs := h.scales
  have hsize := size_of_isDual h hn htest
  obtain ⟨r, hsizer, hr, heq⟩ := isDual_eq h hn hm eps hsize
  rw [heq] at htest
  -- it passes past three exits: no step, no slope, and too much bend
  split at htest
  · cases htest
  split at htest
  · cases htest
  split at htest
  · cases htest
  rename_i hlong hslope hcurve
  rw [ExactField.le_iff, not_le] at hlong hslope hcurve
  rw [mul_assoc] at hcurve
  rw [neg_mul, neg_mul, mul_assoc, ← mul_neg, ← neg_mul] at hslope
  have hstays := staysWithin_rows (hs.sound.size_l.trans (hs.m_eq.trans hm))
    (hs.sound.size_u.trans (hs.m_eq.trans hm)) hsizer (Except.ok.inj htest)
  rw [hr] at hstays
  have htolerance : (0 : K) < Residuals.divisionTolerance := by
    rw [Residuals.divisionTolerance]
    norm_num
  exact ⟨hsize, {
    ne_zero := fun hzero => by
      rw [hzero, maxNorm_zero] at hlong
      exact htolerance.not_gt hlong
    slope_lt := lt_of_mul_lt_mul_left hslope hs.c_pos.le
    bend_lt := lt_of_mul_lt_mul_left hcurve hs.c_pos.le
    le := fun i ha => (hstays i).1.resolve_left ha
    ge := fun i hb => by
      rw [neg_mul]
      exact (hstays i).2.resolve_left hb }⟩

end Tests

end Infeasibility
end SplitQP
