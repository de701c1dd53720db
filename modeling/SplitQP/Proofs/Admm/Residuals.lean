import SplitQP.Proofs.Admm.Equilibration
import SplitQP.Admm.Residuals
/-!
# Residuals in the caller's units

What is computed from scaled data at a scaled point are the residuals and
the objective of the caller's program at the point it stands for
(`atPoint_ensures`): the scaling is undone exactly, however many rounds
it took. Whatever the arithmetic, they can be computed
(`atPoint_ensures_size`).
-/

namespace SplitQP

open Checked SplitQP.Dense Finset

namespace Residuals

section Products

variable {α : Type} [Scalar α] {p : Problem α} {eq : Equilibration α} {x z y : Array α}

/-- `Ax − z`, from `Ax`. -/
def primal (z ax : Array α) : Array α := ax.zipWith (fun u v => 1 * u + -1 * v) z

/-- `Px + q + Aᵀy`, from the two products. -/
def gradient (q px aty : Array α) : Array α := (px.zipWith (· + ·) q).zipWith (· + ·) aty

/-- The residuals at a point, from the products `Ax`, `Px` and `Aᵀy`. -/
def ofProducts (p : Problem α) (eq : Equilibration α) (x z ax px aty : Array α) : Residuals α where
  primRes := largest ((primal z ax).zipWith (· * ·) eq.einv).toList
  dualRes := eq.cinv * largest ((gradient p.q px aty).zipWith (· * ·) eq.dinv).toList
  objective := eq.cinv * (0.5 * (x.zipWith (· * ·) px).foldl (· + ·) 0 +
    (p.q.zipWith (· * ·) x).foldl (· + ·) 0)
  primNorm := Scalar.max (largest (ax.zipWith (· * ·) eq.einv).toList)
    (largest (z.zipWith (· * ·) eq.einv).toList)
  dualNorm := eq.cinv * Scalar.max
    (Scalar.max (largest (px.zipWith (· * ·) eq.dinv).toList)
      (largest (aty.zipWith (· * ·) eq.dinv).toList))
    (largest (p.q.zipWith (· * ·) eq.dinv).toList)
  primResScaled := normInf (primal z ax)
  dualResScaled := normInf (gradient p.q px aty)
  primNormScaled := Scalar.max (normInf ax) (normInf z)
  dualNormScaled := Scalar.max (Scalar.max (normInf px) (normInf aty)) (normInf p.q)

theorem size_primal {m : ℕ} {ax : Array α} (hax : ax.size = m) (hz : z.size = m) :
    (primal z ax).size = m := size_zipWith hax hz

theorem size_gradient {n : ℕ} {q px aty : Array α} (hq : q.size = n) (hpx : px.size = n)
    (haty : aty.size = n) : (gradient q px aty).size = n :=
  size_zipWith (size_zipWith hpx hq) haty

/-- **The residuals are those of the products,** whatever is known about these. -/
theorem atPoint_ensures_ofProducts {Q R T : Array α → Prop} (hp : p.Sound)
    (he : eq.Fits p.n p.m) (hx : x.size = p.n) (hz : z.size = p.m)
    (hA : Ensures (p.A.mulVec 1 x 0 (constant p.m 0)) fun ax => ax.size = p.m ∧ Q ax)
    (hP : Ensures (p.P.mulSymVec 1 x 0 (constant p.n 0)) fun px => px.size = p.n ∧ R px)
    (hT : Ensures (p.A.mulTransposeVec 1 y 0 (constant p.n 0)) fun aty =>
      aty.size = p.n ∧ T aty) :
    Ensures (atPoint p eq x z y) fun r => ∃ ax px aty, (ax.size = p.m ∧ Q ax) ∧
      (px.size = p.n ∧ R px) ∧ (aty.size = p.n ∧ T aty) ∧
      r = ofProducts p eq x z ax px aty := by
  rw [atPoint]
  dsimp only
  refine hA.bind fun ax hax => hP.bind fun px hpx => hT.bind fun aty haty => ?_
  have hprim := size_primal hax.1 hz
  have hgrad := size_gradient hp.size_q hpx.1 haty.1
  rw [primal] at hprim
  rw [gradient] at hgrad
  rw [combineTo_eq_ok _ _ (size_constant.trans hax.1.symm) (hax.1.trans hz.symm), ok_bind]
  simp only [normInfScaled_eq_ok, hax.1, hz, hpx.1, haty.1, hp.size_q, he.size_einv, he.size_dinv,
    hprim, hgrad, dot_eq_ok, hx, ok_bind]
  exact .ok ⟨ax, px, aty, hax, hpx, haty, rfl⟩

/-- **Residuals can be computed** at every point of the right lengths. -/
theorem atPoint_ensures_size (hp : p.Sound) (he : eq.Fits p.n p.m) (hx : x.size = p.n)
    (hz : z.size = p.m) (hy : y.size = p.m) : Ensures (atPoint p eq x z y) fun _ => True := by
  have hsq : p.P.nrows = p.P.ncols := hp.nrows_P.trans hp.ncols_P.symm
  refine (atPoint_ensures_ofProducts (Q := fun _ => True) (R := fun _ => True)
    (T := fun _ => True) hp he hx hz
    ((Csc.mulVec_ensures_size hp.wellFormed_A 1 0 (hx.trans hp.ncols_A.symm)
      (size_constant.trans hp.nrows_A.symm)).mono fun _ h => ⟨h.trans hp.nrows_A, trivial⟩)
    ((Csc.mulSymVec_ensures_size hp.wellFormed_P hsq 1 0 (hx.trans hp.ncols_P.symm)
      (size_constant.trans hp.ncols_P.symm)).mono fun _ h => ⟨h.trans hp.ncols_P, trivial⟩)
    ((Csc.mulTransposeVec_ensures_size hp.wellFormed_A 1 0 (hy.trans hp.nrows_A.symm)
      (size_constant.trans hp.ncols_A.symm)).mono fun _ h =>
        ⟨h.trans hp.ncols_A, trivial⟩)).mono fun _ _ => trivial

end Products

variable {K : Type} [ExactField K]

/-- `½·vᵀSv + qᵀv`. -/
def quadratic {n : ℕ} (S : Matrix (Fin n) (Fin n) K) (q v : Fin n → K) : K :=
  1 / 2 * dotProduct v (S.mulVec v) + dotProduct q v

/-- **`r` measures the point `(x, z, y)`** of the program with quadratic part
`S`, linear part `q` and constraints `B`. -/
structure Measures {n m : ℕ} (S : Matrix (Fin n) (Fin n) K) (q : Fin n → K)
    (B : Matrix (Fin m) (Fin n) K) (x : Fin n → K) (z y : Fin m → K) (r : Residuals K) : Prop where
  primRes_eq : r.primRes = maxNorm (B.mulVec x - z)
  dualRes_eq : r.dualRes = maxNorm (S.mulVec x + q + B.transpose.mulVec y)
  objective_eq : r.objective = quadratic S q x

/-- **The norms that `r` compares them with** are those of the terms they are
made of. -/
structure Compares {n m : ℕ} (S : Matrix (Fin n) (Fin n) K) (q : Fin n → K)
    (B : Matrix (Fin m) (Fin n) K) (x : Fin n → K) (z y : Fin m → K) (r : Residuals K) : Prop where
  primNorm_eq : r.primNorm = max (maxNorm (B.mulVec x)) (maxNorm z)
  dualNorm_eq : r.dualNorm =
    max (max (maxNorm (S.mulVec x)) (maxNorm (B.transpose.mulVec y))) (maxNorm q)

/-- **`r` weighs the point `(x, z, y)`:** rows by `e'`, columns by `d'` and what
belongs to the objective by `c'`. -/
structure Weighs {n m : ℕ} (S : Matrix (Fin n) (Fin n) K) (q : Fin n → K)
    (B : Matrix (Fin m) (Fin n) K) (d' : Fin n → K) (e' : Fin m → K) (c' : K) (x : Fin n → K)
    (z y : Fin m → K) (r : Residuals K) : Prop where
  primRes_eq : r.primRes = maxNorm fun i => (B.mulVec x i - z i) * e' i
  dualRes_eq : r.dualRes =
    c' * maxNorm fun j => (S.mulVec x j + q j + B.transpose.mulVec y j) * d' j
  objective_eq : r.objective = c' * quadratic S q x
  primNorm_eq : r.primNorm =
    max (maxNorm fun i => B.mulVec x i * e' i) (maxNorm fun i => z i * e' i)
  dualNorm_eq : r.dualNorm = c' * max (max (maxNorm fun j => S.mulVec x j * d' j)
    (maxNorm fun j => B.transpose.mulVec y j * d' j)) (maxNorm fun j => q j * d' j)

variable {p₀ p : Problem K} {eq : Equilibration K} {n m : ℕ} {x z y : Array K}

theorem vec_primal {ax : Array K} (hax : ax.size = m) (hz : z.size = m) :
    vec m (primal z ax) = vec m ax - vec m z := by
  rw [primal, vec_zipWith hax hz]
  funext i
  rw [Pi.sub_apply]
  ring

theorem vec_gradient {q px aty : Array K} (hq : q.size = n) (hpx : px.size = n)
    (haty : aty.size = n) : vec n (gradient q px aty) = vec n px + vec n q + vec n aty := by
  rw [gradient, vec_zipWith (size_zipWith hpx hq) haty, vec_zipWith hpx hq]
  rfl

/-- **Every point is weighed** by the inverse factors. -/
theorem atPoint_ensures_weighs (hp : p.Sound) (he : eq.Fits p.n p.m) (hn : p.n = n) (hm : p.m = m)
    (hx : x.size = n) (hz : z.size = m) (hy : y.size = m) :
    Ensures (atPoint p eq x z y) (Weighs (p.P.toSymMatrix n) (vec n p.q) (p.A.toMatrix m n)
      (vec n eq.dinv) (vec m eq.einv) eq.cinv (vec n x) (vec m z) (vec m y)) := by
  subst hn hm
  have hdinv := he.size_dinv
  have heinv := he.size_einv
  have hq := hp.size_q
  refine (atPoint_ensures_ofProducts hp he hx hz
    (Csc.vec_mulVec hp.wellFormed_A hp.nrows_A hp.ncols_A 1 0 hx size_constant)
    (Csc.vec_mulSymVec hp.wellFormed_P hp.nrows_P hp.ncols_P 1 0 hx size_constant)
    (Csc.vec_mulTransposeVec hp.wellFormed_A hp.nrows_A hp.ncols_A 1 0 hy
      size_constant)).mono ?_
  rintro _ ⟨ax, px, aty, ⟨hsizeax, hax⟩, ⟨hsizepx, hpx⟩, ⟨hsizeaty, haty⟩, rfl⟩
  rw [one_smul, zero_smul, add_zero] at hax hpx haty
  have hscaled : ∀ {k : ℕ} {v w : Array K}, v.size = k → w.size = k →
      largest (v.zipWith (· * ·) w).toList = maxNorm fun i => vec k v i * vec k w i :=
    fun hv hw => by rw [largest_eq_maxNorm (size_zipWith hv hw), vec_zipWith hv hw]
  refine ⟨?_, ?_, ?_, ?_, ?_⟩
  · dsimp only [ofProducts]
    rw [hscaled (size_primal hsizeax hz) heinv, vec_primal hsizeax hz, hax]
    rfl
  · dsimp only [ofProducts]
    rw [hscaled (size_gradient hq hsizepx hsizeaty) hdinv, vec_gradient hq hsizepx hsizeaty, hpx,
      haty]
    rfl
  · have hhalf : (0.5 : K) = 1 / 2 := by norm_num
    dsimp only [ofProducts]
    rw [foldl_add_eq_sum (size_zipWith hx hsizepx), foldl_add_eq_sum (size_zipWith hq hx),
      vec_zipWith hx hsizepx, vec_zipWith hq hx, hpx, hhalf]
    rfl
  · dsimp only [ofProducts]
    rw [hscaled hsizeax heinv, hscaled hz heinv, hax]
    rfl
  · dsimp only [ofProducts]
    rw [hscaled hsizepx hdinv, hscaled hsizeaty hdinv, hscaled hq hdinv, hpx, haty]
    rfl

section Units

variable (h : Equilibration.Equilibrated p₀ p eq) (hn : p₀.n = n) (hm : p₀.m = m)

include h

section Rows

include hm

theorem getD_einv (i : Fin m) : vec m eq.einv i = (eq.e.getD i 0)⁻¹ := by
  rw [vec, h.einv_eq, getD_map 0 0 (by rw [h.scales.size_e]; omega), ExactField.recip_eq]

/-- `z`, in the caller's units. -/
theorem unscale_z (i : Fin m) : vec m z i * vec m eq.einv i = eq.slack m z i := by
  rw [getD_einv h hm, mul_comm]
  rfl

include hn

/-- The constraints. -/
theorem unscale_ax (i : Fin m) : (p.A.toMatrix m n).mulVec (vec n x) i * vec m eq.einv i =
    (p₀.A.toMatrix m n).mulVec (eq.primal n x) i := by
  have he : eq.e.getD i 0 ≠ 0 := (h.scales.e_pos i (by omega)).ne'
  rw [getD_einv h hm, h.scales.mulVec_A hn (vec n x) i, mul_comm, inv_mul_cancel_left₀ he]
  rfl

end Rows

include hn

theorem getD_dinv (j : Fin n) : vec n eq.dinv j = (eq.d.getD j 0)⁻¹ := by
  rw [vec, h.dinv_eq, getD_map 0 0 (by rw [h.scales.size_d]; omega), ExactField.recip_eq]

/-- What was scaled by `c` and by its column. -/
theorem unscale_column (j : Fin n) (t : K) :
    (eq.c)⁻¹ * (eq.c * (eq.d.getD j 0 * t) * vec n eq.dinv j) = t := by
  have hc := h.scales.c_pos.ne'
  have hd : eq.d.getD j 0 ≠ 0 := (h.scales.d_pos j (by omega)).ne'
  rw [getD_dinv h hn]
  field_simp

/-- The quadratic part. -/
theorem unscale_px (j : Fin n) :
    (eq.c)⁻¹ * ((p.P.toSymMatrix n).mulVec (vec n x) j * vec n eq.dinv j) =
      (p₀.P.toSymMatrix n).mulVec (eq.primal n x) j := by
  rw [h.scales.mulVec_P hn (vec n x) j, unscale_column h hn]
  rfl

/-- The multipliers, through the constraints. -/
theorem unscale_aty (j : Fin n) :
    (eq.c)⁻¹ * ((p.A.toMatrix m n).transpose.mulVec (vec m y) j * vec n eq.dinv j) =
      (p₀.A.toMatrix m n).transpose.mulVec (eq.dual m y) j := by
  rw [h.scales.mulVec_transpose_A hn (vec m y) j, unscale_column h hn]
  rfl

/-- The linear part. -/
theorem unscale_q (j : Fin n) : (eq.c)⁻¹ * (vec n p.q j * vec n eq.dinv j) = vec n p₀.q j := by
  rw [vec, h.scales.q_eq j (by omega), unscale_column h hn]
  rfl

/-- The objective. -/
theorem unscale_objective : (eq.c)⁻¹ * quadratic (p.P.toSymMatrix n) (vec n p.q) (vec n x) =
    quadratic (p₀.P.toSymMatrix n) (vec n p₀.q) (eq.primal n x) := by
  have hc := h.scales.c_pos.ne'
  have hP : ∀ j : Fin n, vec n x j * (p.P.toSymMatrix n).mulVec (vec n x) j =
      eq.c * (eq.primal n x j * (p₀.P.toSymMatrix n).mulVec (eq.primal n x) j) := by
    intro j
    have hj : (p.P.toSymMatrix n).mulVec (vec n x) j =
        eq.c * (eq.d.getD j 0 * (p₀.P.toSymMatrix n).mulVec (eq.primal n x) j) :=
      h.scales.mulVec_P hn (vec n x) j
    rw [hj, Equilibration.primal, vec]
    ring
  have hq : ∀ j : Fin n, vec n p.q j * vec n x j =
      eq.c * (vec n p₀.q j * eq.primal n x j) := by
    intro j
    have hj : vec n p.q j = eq.c * (eq.d.getD j 0 * vec n p₀.q j) := h.scales.q_eq j (by omega)
    have hx : vec n x j = x.getD j 0 := rfl
    rw [hj, hx, Equilibration.primal]
    ring
  simp only [quadratic, dotProduct, hP, hq, ← mul_sum]
  rw [mul_left_comm, ← mul_add, inv_mul_cancel_left₀ hc]

variable {r : Residuals K}

/-- **What is weighed is measured in the caller's units,** and compared with norms in
the caller's units. -/
theorem Weighs.unscale (hm : p₀.m = m)
    (hr : Weighs (p.P.toSymMatrix n) (vec n p.q) (p.A.toMatrix m n) (vec n eq.dinv)
      (vec m eq.einv) eq.cinv (vec n x) (vec m z) (vec m y) r) :
    Measures (p₀.P.toSymMatrix n) (vec n p₀.q) (p₀.A.toMatrix m n) (eq.primal n x)
        (eq.slack m z) (eq.dual m y) r ∧
      Compares (p₀.P.toSymMatrix n) (vec n p₀.q) (p₀.A.toMatrix m n) (eq.primal n x)
        (eq.slack m z) (eq.dual m y) r := by
  have hcinv : eq.cinv = (eq.c)⁻¹ := by rw [h.cinv_eq, ExactField.recip_eq]
  have hc : 0 ≤ (eq.c)⁻¹ := inv_nonneg.mpr h.scales.c_pos.le
  have hax := unscale_ax (x := x) h hn hm
  have hz := unscale_z (z := z) h hm
  have hpx := unscale_px (x := x) h hn
  have haty := unscale_aty (m := m) (y := y) h hn
  have hq := unscale_q h hn
  refine ⟨⟨?_, ?_, ?_⟩, ?_, ?_⟩
  · rw [hr.primRes_eq]
    simp only [sub_mul, hax, hz]
    rfl
  · rw [hr.dualRes_eq, hcinv, ← maxNorm_mul hc]
    simp only [add_mul, mul_add, hpx, hq, haty]
    rfl
  · rw [hr.objective_eq, hcinv, unscale_objective h hn]
  · rw [hr.primNorm_eq]
    simp only [hax, hz]
  · rw [hr.dualNorm_eq, hcinv, mul_max_of_nonneg _ _ hc, mul_max_of_nonneg _ _ hc,
      ← maxNorm_mul hc, ← maxNorm_mul hc, ← maxNorm_mul hc]
    simp only [hpx, hq, haty]

end Units

/-- **Residuals are those of the caller's program,** whatever the scaling, and so are the
norms they are compared with. -/
theorem atPoint_ensures_unscaled (h : Equilibration.Equilibrated p₀ p eq) (hn : p₀.n = n)
    (hm : p₀.m = m) (hx : x.size = n) (hz : z.size = m) (hy : y.size = m) :
    Ensures (atPoint p eq x z y) fun r =>
      Measures (p₀.P.toSymMatrix n) (vec n p₀.q) (p₀.A.toMatrix m n) (eq.primal n x)
          (eq.slack m z) (eq.dual m y) r ∧
        Compares (p₀.P.toSymMatrix n) (vec n p₀.q) (p₀.A.toMatrix m n) (eq.primal n x)
          (eq.slack m z) (eq.dual m y) r :=
  (atPoint_ensures_weighs h.scales.sound h.fits (h.scales.n_eq.trans hn)
    (h.scales.m_eq.trans hm) hx hz hy).mono fun _ hr => hr.unscale h hn hm

theorem atPoint_ensures (h : Equilibration.Equilibrated p₀ p eq) (hn : p₀.n = n) (hm : p₀.m = m)
    (hx : x.size = n) (hz : z.size = m) (hy : y.size = m) :
    Ensures (atPoint p eq x z y) (Measures (p₀.P.toSymMatrix n) (vec n p₀.q) (p₀.A.toMatrix m n)
      (eq.primal n x) (eq.slack m z) (eq.dual m y)) :=
  (atPoint_ensures_unscaled h hn hm hx hz hy).mono fun _ hr => hr.1

/-- What can be measured has the lengths of the program. -/
theorem size_of_atPoint {r : Residuals K} (hp : p.Sound) (hr : atPoint p eq x z y = .ok r) :
    x.size = p.n ∧ z.size = p.m ∧ y.size = p.m := by
  obtain ⟨ax, hax, hr⟩ := bind_eq_ok.mp hr
  obtain ⟨px, -, hr⟩ := bind_eq_ok.mp hr
  obtain ⟨aty, haty, hr⟩ := bind_eq_ok.mp hr
  obtain ⟨prim, hprim, -⟩ := bind_eq_ok.mp hr
  obtain ⟨hx, hsizeax⟩ := Csc.size_of_mulVec hp.wellFormed_A hax
  have hy := (Csc.size_of_mulTransposeVec hp.wellFormed_A haty).1
  obtain ⟨_, -, hcombine⟩ := bind_eq_ok.mp hprim
  obtain ⟨_, hz, -⟩ := bind_eq_ok.mp hcombine
  rw [require_eq_ok_iff] at hz
  exact ⟨hx.trans hp.ncols_A, hz.symm.trans (hsizeax.trans hp.nrows_A), hy.trans hp.nrows_A⟩

end Residuals

end SplitQP
