import SplitQP.Proofs.Factor.Correct
/-!
# Inertia

In the coordinates that the factors define, the quadratic form of a
matrix is a sum of squares weighted by the pivots (`form_eq_sum`). By
Sylvester's law the number of positive pivots is then one of the matrix
alone, whatever the order of elimination (`Stored.positive_eq_sigPos`):
the largest dimension of a subspace on which the form is positive. Two
subspaces bound it, one from below on which the form is positive
(`Stored.finrank_le_positive`), and one from above on which it is not
(`Stored.positive_add_finrank_le`).
-/

namespace SplitQP

open Checked SplitQP.Dense Finset

variable {K : Type} [ExactField K]

/-- **The quadratic form** `v ↦ vᵀ·A·v` of the symmetric completion. -/
noncomputable def Csc.form (A : Csc K) (n : ℕ) : QuadraticForm K (Fin n → K) :=
  (A.toSymMatrix n).toQuadraticForm'

theorem Csc.form_apply (A : Csc K) (n : ℕ) (v : Fin n → K) :
    A.form n v = v ⬝ᵥ (A.toSymMatrix n).mulVec v := by
  rw [form, Matrix.toQuadraticForm', LinearMap.BilinMap.toQuadraticMap_apply,
    Matrix.toLinearMap₂'_apply']

namespace Ldl

variable {A : Csc K} {inv : Array ℕ} {f : Ldl K}

theorem isUnit_one_add_lowerPart (h : Analyses A inv f) (hs : Stored f) :
    IsUnit (1 + f.lowerPart A.ncols).transpose := by
  rw [Matrix.isUnit_iff_isUnit_det, Matrix.det_transpose, one_add_lowerPart h hs,
    det_unitLower h.analysed h.ncols_upper.ge]
  exact isUnit_one

/-- The coordinates in which the matrix is diagonal: those of `(I + L)ᵀ` in
elimination order. -/
noncomputable def coordinates (h : Analyses A inv f) (hs : Stored f) :
    (Fin A.ncols → K) ≃ₗ[K] (Fin A.ncols → K) :=
  (LinearEquiv.funCongrLeft K K h.inverts.equiv).trans
    (Matrix.toLinearEquiv' _ (isUnit_one_add_lowerPart h hs).invertible)

theorem coordinates_apply (h : Analyses A inv f) (hs : Stored f) (v : Fin A.ncols → K) :
    coordinates h hs v = (1 + f.lowerPart A.ncols).transpose.mulVec (v ∘ h.inverts.equiv) := rfl

/-- **The pivots are the weights of a sum of squares.** -/
theorem form_eq_sum (h : Analyses A inv f) (hs : Stored f) (v : Fin A.ncols → K) :
    QuadraticMap.weightedSumSquares K (vec A.ncols f.pivots.d) (coordinates h hs v) =
      A.form A.ncols v := by
  have hreorder : v ⬝ᵥ (A.toSymMatrix A.ncols).mulVec v = (v ∘ h.inverts.equiv) ⬝ᵥ
      (permutedMatrix A f.perm A.ncols).mulVec (v ∘ h.inverts.equiv) := by
    rw [permutedMatrix_mulVec h.inverts, dotProduct, dotProduct]
    exact (h.inverts.equiv.sum_comp fun i => v i * (A.toSymMatrix A.ncols).mulVec v i).symm
  have hproduct : permutedMatrix A f.perm A.ncols =
      (1 + f.lowerPart A.ncols) * .diagonal (vec A.ncols f.pivots.d) *
        (1 + f.lowerPart A.ncols).transpose := (hs.isFactorisation h).product.symm
  -- both sides are `xᵀ·(I + L)·D·(I + L)ᵀ·x`, with `x` the vector in elimination order
  rw [Csc.form_apply, hreorder, hproduct, coordinates_apply]
  generalize v ∘ h.inverts.equiv = x
  rw [← Matrix.mulVec_mulVec, ← Matrix.mulVec_mulVec, Matrix.dotProduct_mulVec,
    ← Matrix.mulVec_transpose, QuadraticMap.weightedSumSquares_apply, dotProduct]
  refine sum_congr rfl fun i _ => ?_
  rw [Matrix.mulVec_diagonal, smul_eq_mul]
  ring

/-- **The number of positive pivots is the positive inertia of the matrix.** -/
theorem Stored.positive_eq_sigPos (h : Analyses A inv f) (hs : Stored f) :
    f.positive = sigPos (A.form A.ncols) := by
  have hequiv : (A.form A.ncols).Equivalent
      (QuadraticMap.weightedSumSquares K (vec A.ncols f.pivots.d)) :=
    ⟨⟨coordinates h hs, form_eq_sum h hs⟩⟩
  rw [QuadraticForm.sigPos_of_equiv_weightedSumSquares hequiv, (hs.isFactorisation h).positive_eq,
    ← Set.ncard_coe_finset]
  simp

section Bounds

variable {n : ℕ} (hn : A.ncols = n) {V : Type} [AddCommGroup V] [Module K V]
  {g : V →ₗ[K] Fin n → K}

include hn

/-- **Positive on a subspace:** there are at least as many positive pivots as
it has dimensions. -/
theorem Stored.finrank_le_positive (h : Analyses A inv f) (hs : Stored f)
    (hpos : ∀ v, v ≠ 0 → 0 < A.form n (g v)) : Module.finrank K V ≤ f.positive := by
  subst hn
  have hinj : Function.Injective g := by
    refine (injective_iff_map_eq_zero g).mpr fun v hv => ?_
    by_contra hne
    have := hpos v hne
    rw [hv, QuadraticMap.map_zero] at this
    exact lt_irrefl 0 this
  rw [hs.positive_eq_sigPos h, ← LinearMap.finrank_range_of_inj hinj]
  refine le_sigPos_of_posDef _ ?_
  rintro ⟨_, v, rfl⟩ hv
  refine hpos v ?_
  rintro rfl
  exact hv (Subtype.ext (map_zero g))

/-- **Not positive on a subspace:** its dimensions count against the positive
pivots. -/
theorem Stored.positive_add_finrank_le (h : Analyses A inv f) (hs : Stored f)
    (hinj : Function.Injective g) (hneg : ∀ v, A.form n (g v) ≤ 0) :
    f.positive + Module.finrank K V ≤ n := by
  subst hn
  rw [hs.positive_eq_sigPos h, ← LinearMap.finrank_range_of_inj hinj]
  refine (QuadraticForm.sigPos_add_finrank_le_of_nonpos ?_).trans_eq (by simp)
  rintro _ ⟨v, rfl⟩
  exact hneg v

end Bounds
end Ldl

end SplitQP
