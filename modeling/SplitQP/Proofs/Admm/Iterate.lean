import SplitQP.Proofs.Dense
import SplitQP.Proofs.Admm.Problem
import SplitQP.Proofs.Admm.KktSystem
import SplitQP.Admm.Iterate
/-!
# One iteration

Whatever the arithmetic, an iteration answers and keeps all lengths
(`Iterate.step_ensures_advance`). In exact arithmetic step sizes are
positive whatever their base (`StepSizes.sound_ofBase`), and an iteration
with such step sizes leaves a `z` within its bounds to which `y` is
complementary (`Iterate.step_ensures`): `y` is what moving `z` into the
bounds took away, so it points out of them. Where the iteration started
does not matter.
-/

namespace SplitQP

open Checked SplitQP.Dense Finset

/-! ## Lengths -/

section Lengths

variable {α : Type} [Scalar α]

omit [Scalar α] in
theorem Problem.Sound.shape {p : Problem α} (h : p.Sound) : Kkt.Shape p.P p.A where
  wellFormed_P := h.wellFormed_P
  wellFormed_A := h.wellFormed_A
  square := ⟨h.nrows_P.trans h.ncols_A.symm, h.ncols_P.trans h.ncols_A.symm⟩
  upper := h.upper

/-- A step size and its reciprocal for each of `m` rows. -/
structure StepSizes.Fits (m : ℕ) (s : StepSizes α) : Prop where
  size_rho : s.rho.size = m
  size_rhoInv : s.rhoInv.size = m

theorem StepSizes.fits_ofBase (rho : α) (rows : Array RowKind) :
    (ofBase rho rows).Fits rows.size := ⟨by simp [ofBase], by simp [ofBase]⟩

namespace Iterate

/-- All parts have their lengths. -/
structure Sized (n m : ℕ) (v : Iterate α) : Prop where
  size_x : v.x.size = n
  size_z : v.z.size = m
  size_y : v.y.size = m
  size_deltaX : v.deltaX.size = n
  size_deltaY : v.deltaY.size = m

theorem sized_zero (n m : ℕ) : Sized n m (zero n m : Iterate α) := by
  constructor <;> exact size_constant

variable {p : Problem α} {steps : StepSizes α} {kkt : KktSystem α} {v : Iterate α} {sigma : α}

theorem size_relax {alpha : α} {n : ℕ} {new old : Array α} (hnew : new.size = n)
    (hold : old.size = n) : (relax alpha new old).size = n := size_zipWith hnew hold

/-- **The point `(x̃, z̃)`** by the parts of the KKT solution. -/
theorem tilde_eq_ok (hv : v.x.size = p.n) {xt nu : Array α} (hxt : xt.size = p.n)
    (hsol : kkt.solve (rightHandSide p steps sigma v) = .ok (xt ++ nu)) :
    tilde p kkt steps sigma v = .ok (xt, zTilde steps v nu) := by
  rw [tilde, hsol, ok_bind, require_eq_ok (by simp [hxt]), ok_bind]
  dsimp only
  rw [extract_append_top hxt, extract_append_bottom hxt, require_eq_ok (hxt.trans hv.symm)]
  rfl

variable (hp : p.Sound) (hs : steps.Fits p.m) (hv : v.Sized p.n p.m)

include hp hs hv

section Advance

variable (alpha : α) (xt : Array α) {zt : Array α} (hz : zt.size = p.m)

include hz

omit hp in
/-- The `z` before it is clipped. -/
theorem size_free : ((relax alpha zt v.z).zipWith (fun w s => w + s)
    (steps.rhoInv.zipWith (fun rinv y => rinv * y) v.y)).size = p.m :=
  size_zipWith (size_relax hz hv.size_z) (size_zipWith hs.size_rhoInv hv.size_y)

theorem size_advance_z : (advance p steps alpha v xt zt).z.size = p.m :=
  size_zipWith (size_zipWith (size_free hs hv alpha hz) hp.size_l) hp.size_u

theorem size_advance_deltaY : (advance p steps alpha v xt zt).deltaY.size = p.m :=
  size_zipWith (size_zipWith (size_relax hz hv.size_z) (size_advance_z hp hs hv alpha xt hz))
    hs.size_rho

/-- Lengths stay. -/
theorem sized_advance (hx : xt.size = p.n) : (advance p steps alpha v xt zt).Sized p.n p.m where
  size_x := size_relax hx hv.size_x
  size_z := size_advance_z hp hs hv alpha xt hz
  size_y := size_zipWith hv.size_y (size_advance_deltaY hp hs hv alpha xt hz)
  size_deltaX := size_zipWith (size_relax hx hv.size_x) hv.size_x
  size_deltaY := size_advance_deltaY hp hs hv alpha xt hz

end Advance

/-- **An iteration answers,** with a step to some point of the right lengths. -/
theorem step_ensures_advance {shift : α}
    (hk : KktSystem.Tracks p.P p.A shift steps.rhoInv kkt) (sigma alpha : α) :
    Ensures (v.step p kkt steps sigma alpha) fun v' => ∃ xt zt, xt.size = p.n ∧ zt.size = p.m ∧
      v' = advance p steps alpha v xt zt := by
  have hrhs : (rightHandSide p steps sigma v).size = p.A.ncols + p.A.nrows := by
    simp [rightHandSide, hv.size_x, hv.size_y, hv.size_z, hp.size_q, hs.size_rhoInv, hp.nrows_A,
      hp.ncols_A]
  obtain ⟨sol, hsol, hsize⟩ :=
    hk.solve_ensures hp.shape (hs.size_rhoInv.trans hp.nrows_A.symm) hrhs
  rw [hp.nrows_A, hp.ncols_A] at hsize
  obtain ⟨xt, nu, hxt, hnu, rfl⟩ := exists_append_of_size hsize
  rw [step, tilde_eq_ok hv.size_x hxt hsol]
  refine .ok ⟨xt, zTilde steps v nu, hxt, ?_, rfl⟩
  exact size_zipWith hv.size_z (size_zipWith (size_zipWith hnu hv.size_y) hs.size_rhoInv)

end Iterate
end Lengths

/-! ## In exact arithmetic -/

variable {K : Type} [ExactField K]

namespace StepSizes

/-- **The base is in its range,** all step sizes are positive, and their
reciprocals are at hand. -/
structure Sound (m : ℕ) (s : StepSizes K) : Prop where
  base_ge : smallest ≤ s.base
  base_le : s.base ≤ largest
  size_rho : s.rho.size = m
  rho_pos : ∀ i < m, 0 < s.rho.getD i 0
  rhoInv_eq : s.rhoInv = s.rho.map Scalar.recip

theorem smallest_pos : 0 < (smallest : K) := by
  rw [smallest]
  norm_num

theorem ofKind_pos {base : K} (h : smallest ≤ base) (kind : RowKind) : 0 < ofKind base kind := by
  have hbase : 0 < base := smallest_pos.trans_le h
  cases kind with
  | loose => exact smallest_pos
  | inequality => exact hbase
  | equality =>
    rw [ofKind]
    exact mul_pos (by norm_num) hbase

/-- **Any base gives sound step sizes.** -/
theorem sound_ofBase (rho : K) (rows : Array RowKind) : Sound rows.size (ofBase rho rows) := by
  have hrange : (smallest : K) ≤ largest := by
    rw [smallest, largest]
    norm_num
  have hge : smallest ≤ Scalar.clamp rho smallest (largest : K) := by
    rw [ExactField.clamp_eq]
    exact le_min (le_max_right _ _) hrange
  refine ⟨hge, ?_, by simp [ofBase], fun i hi => ?_, rfl⟩
  · simp only [ofBase, ExactField.clamp_eq]
    exact min_le_right _ _
  · have hsize : i < (ofBase rho rows).rho.size := by simpa [ofBase] using hi
    rw [getD_of_lt 0 hsize]
    simp only [ofBase, Array.getElem_map]
    exact ofKind_pos hge _

theorem Sound.size_rhoInv {m : ℕ} {s : StepSizes K} (h : Sound m s) : s.rhoInv.size = m := by
  rw [h.rhoInv_eq, Array.size_map, h.size_rho]

theorem Sound.fits {m : ℕ} {s : StepSizes K} (h : Sound m s) : s.Fits m :=
  ⟨h.size_rho, h.size_rhoInv⟩

theorem Sound.getD_rhoInv {m : ℕ} {s : StepSizes K} (h : Sound m s) {i : ℕ} (hi : i < m) :
    s.rhoInv.getD i 0 = (s.rho.getD i 0)⁻¹ := by
  rw [h.rhoInv_eq, getD_map 0 0 (by rw [h.size_rho]; exact hi), ExactField.recip_eq]

theorem Sound.rhoInv_pos {m : ℕ} {s : StepSizes K} (h : Sound m s) : ∀ x ∈ s.rhoInv, 0 < x := by
  intro x hx
  obtain ⟨i, hi, rfl⟩ := Array.getElem_of_mem hx
  rw [h.size_rhoInv] at hi
  rw [← getD_of_lt 0, h.getD_rhoInv hi]
  exact inv_pos.mpr (h.rho_pos i hi)

end StepSizes

namespace Iterate

/-- **`z` is within its bounds,** and `y` points out of them: against any other
point within the bounds, `z` lies on the side `y` points to. -/
structure Complementary (p : Problem K) (v : Iterate K) : Prop where
  ge : ∀ i < p.m, p.l.getD i 0 ≤ v.z.getD i 0
  le : ∀ i < p.m, v.z.getD i 0 ≤ p.u.getD i 0
  side : ∀ i < p.m, ∀ t, p.l.getD i 0 ≤ t → t ≤ p.u.getD i 0 →
    0 ≤ (v.z.getD i 0 - t) * v.y.getD i 0

/-- The way into an interval points out of it. -/
theorem clip_side {l u w t : K} (hl : l ≤ t) (hu : t ≤ u) :
    0 ≤ (min (max w l) u - t) * (w - min (max w l) u) := by
  rcases le_total w l with hw | hw
  · rw [max_eq_right hw, min_eq_left (hl.trans hu)]
    exact mul_nonneg_of_nonpos_of_nonpos (sub_nonpos.mpr hl) (sub_nonpos.mpr hw)
  · rw [max_eq_left hw]
    rcases le_total w u with hw' | hw'
    · rw [min_eq_left hw', sub_self, mul_zero]
    · rw [min_eq_right hw']
      exact mul_nonneg (sub_nonneg.mpr hu) (sub_nonneg.mpr hw')

section Advance

variable {p : Problem K} {steps : StepSizes K} {v : Iterate K} {zt : Array K} {alpha : K}

theorem getD_relax {n i : ℕ} {new old : Array K} (hnew : new.size = n) (hold : old.size = n)
    (hi : i < n) : (relax alpha new old).getD i 0 =
      alpha * new.getD i 0 + (1 - alpha) * old.getD i 0 := getD_zipWith_of_lt hnew hold hi

variable (alpha) (xt : Array K) (hp : p.Sound) (hs : steps.Sound p.m) (hv : v.Sized p.n p.m)
variable (hz : zt.size = p.m)

include hp hs hv hz

/-- The new `z` is clipped, after a move by `y / ρ`. -/
theorem getD_advance_z {i : ℕ} (hi : i < p.m) : (advance p steps alpha v xt zt).z.getD i 0 =
    min (max ((relax alpha zt v.z).getD i 0 + (steps.rho.getD i 0)⁻¹ * v.y.getD i 0)
      (p.l.getD i 0)) (p.u.getD i 0) := by
  have hbetween : (relax alpha zt v.z).size = p.m := size_relax hz hv.size_z
  have hshift : (steps.rhoInv.zipWith (fun rinv y => rinv * y) v.y).size = p.m :=
    size_zipWith hs.size_rhoInv hv.size_y
  have hfree := size_free hs.fits hv alpha hz
  rw [advance]
  dsimp only
  rw [getD_zipWith_of_lt (size_zipWith hfree hp.size_l) hp.size_u hi,
    getD_zipWith_of_lt hfree hp.size_l hi, getD_zipWith_of_lt hbetween hshift hi,
    getD_zipWith_of_lt hs.size_rhoInv hv.size_y hi, hs.getD_rhoInv hi]
  rfl

/-- The new `y` takes up what clipping took away. -/
theorem getD_advance_y {i : ℕ} (hi : i < p.m) : (advance p steps alpha v xt zt).y.getD i 0 =
    v.y.getD i 0 + steps.rho.getD i 0 *
      ((relax alpha zt v.z).getD i 0 - (advance p steps alpha v xt zt).z.getD i 0) := by
  have hbetween : (relax alpha zt v.z).size = p.m := size_relax hz hv.size_z
  have hznew := size_advance_z hp hs.fits hv alpha xt hz
  have hmove : ((relax alpha zt v.z).zipWith (fun w z => w - z)
      (advance p steps alpha v xt zt).z).size = p.m := size_zipWith hbetween hznew
  have hy : (advance p steps alpha v xt zt).y =
      v.y.zipWith (fun y d => y + d) (advance p steps alpha v xt zt).deltaY := rfl
  have hdy : (advance p steps alpha v xt zt).deltaY =
      ((relax alpha zt v.z).zipWith (fun w z => w - z) (advance p steps alpha v xt zt).z).zipWith
        (fun w rho => rho * w) steps.rho := rfl
  rw [hy, getD_zipWith_of_lt hv.size_y (size_advance_deltaY hp hs.fits hv alpha xt hz) hi, hdy,
    getD_zipWith_of_lt hmove hs.size_rho hi, getD_zipWith_of_lt hbetween hznew hi]

/-- **A step ends complementary,** wherever it began and wherever it leads. -/
theorem complementary_advance (hlu : ∀ i < p.m, p.l.getD i 0 ≤ p.u.getD i 0) :
    Complementary p (advance p steps alpha v xt zt) := by
  have hzi := fun i (hi : i < p.m) => getD_advance_z alpha xt hp hs hv hz hi
  refine ⟨fun i hi => ?_, fun i hi => ?_, fun i hi t hlt htu => ?_⟩
  · rw [hzi i hi]
    exact le_min (le_max_right _ _) (hlu i hi)
  · rw [hzi i hi]
    exact min_le_right _ _
  · have hpos := hs.rho_pos i hi
    have hy : (advance p steps alpha v xt zt).y.getD i 0 = steps.rho.getD i 0 *
        ((relax alpha zt v.z).getD i 0 + (steps.rho.getD i 0)⁻¹ * v.y.getD i 0 -
          (advance p steps alpha v xt zt).z.getD i 0) := by
      rw [getD_advance_y alpha xt hp hs hv hz hi]
      field_simp
      ring
    rw [hy, hzi i hi, mul_left_comm]
    exact mul_nonneg hpos.le (clip_side hlt htu)

end Advance

/-- **An iteration answers,** and ends complementary unless bounds are crossed. -/
theorem step_ensures {p : Problem K} {steps : StepSizes K} {v : Iterate K} {kkt : KktSystem K}
    {shift : K} (sigma alpha : K) (hp : p.Sound) (hs : steps.Sound p.m) (hv : v.Sized p.n p.m)
    (hk : KktSystem.Tracks p.P p.A shift steps.rhoInv kkt) :
    Ensures (v.step p kkt steps sigma alpha) fun v' =>
      (∀ i < p.m, p.l.getD i 0 ≤ p.u.getD i 0) → Complementary p v' := by
  refine (step_ensures_advance hp hs.fits hv hk sigma alpha).mono ?_
  rintro v' ⟨xt, zt, hx, hz, rfl⟩
  exact complementary_advance alpha xt hp hs hv hz

end Iterate

end SplitQP
