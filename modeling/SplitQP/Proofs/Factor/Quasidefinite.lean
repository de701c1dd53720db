import SplitQP.Proofs.Factor.Correct
/-!
# Quasidefinite matrices

A matrix is quasidefinite for a choice of signs if the form that counts
every row with its sign is positive (`IsQuasidefinite`). Its principal
submatrices are so too, in any order (`IsQuasidefinite.submatrix`). In a
leading block there is a vector on which the form is the last pivot times
its sign. So no pivot is zero, and each has the sign of its index
(`pivot_sign`): every order factors the matrix, with as many positive
pivots as there are positive signs (`positive_of_quasidefinite`).
-/

namespace SplitQP

open Checked SplitQP.Dense TreeState Finset

variable {K : Type} [ExactField K]

/-- **Quasidefinite for the signs `sign`.** -/
def IsQuasidefinite {ι : Type} [Fintype ι] (sign : ι → K) (S : Matrix ι ι K) : Prop :=
  ∀ v : ι → K, v ≠ 0 → 0 < ∑ i, sign i * (v i * S.mulVec v i)

/-- **Positive semidefinite.** -/
def IsSemidefinite {ι : Type} [Fintype ι] (S : Matrix ι ι K) : Prop :=
  ∀ v : ι → K, 0 ≤ ∑ i, v i * S.mulVec v i

/-- One number that is not negative. -/
theorem isSemidefinite_fin_one {S : Matrix (Fin 1) (Fin 1) K} (h : 0 ≤ S 0 0) :
    IsSemidefinite S := by
  intro v
  have hsquare : v 0 * (S 0 0 * v 0) = S 0 0 * (v 0) ^ 2 := by ring
  rw [Fin.sum_univ_one, Matrix.mulVec, dotProduct, Fin.sum_univ_one, hsquare]
  positivity

/-- Principal submatrices of a quasidefinite matrix are quasidefinite. -/
theorem IsQuasidefinite.submatrix {ι κ : Type} [Fintype ι] [Fintype κ] {sign : ι → K}
    {S : Matrix ι ι K} (h : IsQuasidefinite sign S) {g : κ → ι} (hg : Function.Injective g) :
    IsQuasidefinite (sign ∘ g) (S.submatrix g g) := by
  intro v hv
  have hext : ∀ k, Function.extend g v (0 : ι → K) (g k) = v k := hg.extend_apply v 0
  have hout : ∀ i, i ∉ Set.range g → Function.extend g v (0 : ι → K) i = 0 := fun i hi =>
    Function.extend_apply' v (0 : ι → K) i hi
  have hmul : ∀ k, (S.submatrix g g).mulVec v k = S.mulVec (Function.extend g v 0) (g k) := by
    intro k
    refine Fintype.sum_of_injective g hg _ _ (fun i hi => ?_) fun l => ?_
    · rw [hout i hi, mul_zero]
    · rw [hext l]
      rfl
  have hne : Function.extend g v (0 : ι → K) ≠ 0 := by
    intro hzero
    refine hv (funext fun k => ?_)
    rw [← hext k, hzero]
    rfl
  have hpos := h _ hne
  rwa [← Fintype.sum_of_injective g hg
    (fun k => sign (g k) * (v k * (S.submatrix g g).mulVec v k)) _ (fun i hi => ?_) fun k => ?_]
    at hpos
  · rw [hout i hi, zero_mul, mul_zero]
  · rw [hext k, hmul k]

namespace Ldl

variable {A : Csc K} {inv : Array ℕ} {f : Ldl K} {sign : ℕ → K}

/-- The leading block in elimination order is quasidefinite. -/
theorem isQuasidefinite_upper (h : Analyses A inv f)
    (hq : IsQuasidefinite (fun i : Fin A.ncols => sign i) (A.toSymMatrix A.ncols)) {m : ℕ}
    (hm : m ≤ A.ncols) :
    IsQuasidefinite (fun k : Fin m => sign (f.perm.getD k 0)) (f.upper.toSymMatrix m) := by
  have hinj : Function.Injective (h.inverts.equiv ∘ Fin.castLE hm) :=
    h.inverts.equiv.injective.comp (Fin.castLE_injective hm)
  rw [toSymMatrix_upper h hm]
  exact hq.submatrix hinj

/-- A vector that the leading block takes to its last pivot: the one that
`(I + L)ᵀ` takes to the last unit vector. -/
theorem exists_mulVec_eq_pivot (h : Analyses A inv f) {k : ℕ} (hk : k < A.ncols)
    (hne : ∀ j < k, pivotAt f.upper f.parent j ≠ 0) :
    ∃ w : Fin (k + 1) → K, w (Fin.last k) = 1 ∧ (f.upper.toSymMatrix (k + 1)).mulVec w =
      Pi.single (Fin.last k) (pivotAt f.upper f.parent k) := by
  have hk' : k + 1 ≤ f.upper.ncols := by
    rw [h.ncols_upper]
    exact hk
  have hdet : IsUnit (unitLower f.upper f.parent (k + 1)).transpose := by
    rw [Matrix.isUnit_iff_isUnit_det, Matrix.det_transpose, det_unitLower h.analysed hk']
    exact isUnit_one
  obtain ⟨w, hw⟩ := (Matrix.mulVec_surjective_iff_isUnit.mpr hdet)
    (Pi.single (Fin.last k) (1 : K))
  have hcol : ∀ i : Fin (k + 1), unitLower f.upper f.parent (k + 1) i (Fin.last k) =
      if i = Fin.last k then 1 else 0 := by
    intro i
    split_ifs with hi
    · rw [hi, unitLower, Matrix.of_apply, unitEntry, if_pos rfl]
    · exact unitEntry_of_lt h.analysed (by omega) (Fin.val_lt_last hi)
  refine ⟨w, ?_, ?_⟩
  · have hlast := congrFun hw (Fin.last k)
    simp only [Matrix.mulVec, dotProduct, Matrix.transpose_apply, hcol, ite_mul, one_mul,
      zero_mul, Pi.single_eq_same] at hlast
    rwa [sum_ite_eq', if_pos (mem_univ _)] at hlast
  · rw [toSymMatrix_eq_mul h.analysed hk' fun j hj => hne j (by omega), ← Matrix.mulVec_mulVec,
      ← Matrix.mulVec_mulVec, hw, pivotMatrix]
    funext i
    rw [Matrix.mulVec, dotProduct, sum_eq_single (Fin.last k)]
    · rw [Matrix.mulVec_diagonal, Pi.single_eq_same, mul_one, hcol, ite_mul, one_mul, zero_mul,
        Pi.single_apply, Fin.val_last]
    · intro j _ hj
      rw [Matrix.mulVec_diagonal, Pi.single_eq_of_ne hj, mul_zero, mul_zero]
    · exact fun hnot => absurd (mem_univ _) hnot

/-- **Every pivot has the sign of its index.** -/
theorem pivot_sign (h : Analyses A inv f)
    (hq : IsQuasidefinite (fun i : Fin A.ncols => sign i) (A.toSymMatrix A.ncols)) {k : ℕ}
    (hk : k < A.ncols) : 0 < sign (f.perm.getD k 0) * pivotAt f.upper f.parent k := by
  -- the pivots before `k` have signs, so that none of them is zero
  induction k using Nat.strong_induction_on with
  | _ k ih =>
    have hne : ∀ j < k, pivotAt f.upper f.parent j ≠ 0 := by
      intro j hj hzero
      have hpos := ih j hj (by omega)
      rw [hzero, mul_zero] at hpos
      exact lt_irrefl 0 hpos
    obtain ⟨w, hlast, hmul⟩ := exists_mulVec_eq_pivot h hk hne
    have hwne : w ≠ 0 := by
      rintro rfl
      rw [Pi.zero_apply] at hlast
      exact zero_ne_one hlast
    have hpos := isQuasidefinite_upper h hq (show k + 1 ≤ A.ncols from hk) w hwne
    rw [hmul, sum_eq_single (Fin.last k)] at hpos
    · simpa [hlast] using hpos
    · intro i _ hi
      rw [Pi.single_eq_of_ne hi, mul_zero, mul_zero]
    · exact fun hnot => absurd (mem_univ _) hnot

/-- No pivot is zero. -/
theorem pivot_ne_of_quasidefinite (h : Analyses A inv f)
    (hq : IsQuasidefinite (fun i : Fin A.ncols => sign i) (A.toSymMatrix A.ncols)) {k : ℕ}
    (hk : k < A.ncols) : Scalar.eq (pivotAt f.upper f.parent k) 0 = false := by
  have hpos := pivot_sign h hq hk
  refine ExactField.eq_eq_false_iff.mpr fun hzero => ?_
  rw [hzero, mul_zero] at hpos
  exact lt_irrefl 0 hpos

/-- **As many positive pivots as positive signs.** -/
theorem positive_of_quasidefinite {n m : ℕ} (hn : A.ncols = n + m) (h : Analyses A inv f)
    (hs : Stored f)
    (hq : IsQuasidefinite (fun i : Fin A.ncols => if (i : ℕ) < n then (1 : K) else -1)
      (A.toSymMatrix A.ncols)) : f.positive = n := by
  have hsign : ∀ k < A.ncols, (Scalar.lt 0 (pivotAt f.upper f.parent k) = true ↔
      f.perm.getD k 0 < n) := by
    intro k hk
    have hpos := @pivot_sign K _ A inv f (fun i => if i < n then 1 else -1) h hq k hk
    rw [ExactField.lt_iff]
    constructor
    · intro hlt
      by_contra hge
      rw [if_neg hge] at hpos
      linarith
    · intro hlt
      rw [if_pos hlt] at hpos
      linarith
  have hcount : ∀ k ∈ range A.ncols, (if Scalar.lt 0 (pivotAt f.upper f.parent k) = true then 1
      else 0) = if f.perm.getD k 0 < n then 1 else 0 := by
    intro k hk
    simp only [hsign k (mem_range.mp hk)]
  have hreorder := h.inverts.equiv.sum_comp fun i : Fin A.ncols => if (i : ℕ) < n then 1 else 0
  have hfin := Fin.sum_univ_eq_sum_range (fun k => if f.perm.getD k 0 < n then 1 else 0) A.ncols
  have hfilter : (range A.ncols).filter (· < n) = range n := by
    ext i
    simp only [mem_filter, mem_range]
    omega
  rw [hs.positive_eq, h.ncols_upper, countP_range_eq_sum, sum_congr rfl hcount, ← hfin]
  refine hreorder.trans ?_
  rw [Fin.sum_univ_eq_sum_range (fun i => if i < n then 1 else 0), ← card_filter, hfilter,
    card_range]

end Ldl

end SplitQP
