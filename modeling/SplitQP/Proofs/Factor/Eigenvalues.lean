import SplitQP.Proofs.Factor.Inertia
import SplitQP.Proofs.Factor.Trimmed
import SplitQP.Admm.Kkt
/-!
# Positive pivots and positive eigenvalues

A matrix that is congruent to a diagonal one has as many positive
directions as there are positive numbers on the diagonal
(`sigPos_of_congruent`). Factors are one way to such a diagonal, an
orthonormal basis of eigenvectors is another. So the positive pivots are
as many as the positive eigenvalues
(`Ldl.Stored.positive_eq_positiveEigenvalues`), whatever the order of
elimination, and whether a program is found to be convex is no matter of
the order (`Ldl.inertia_of_factor`).
-/

namespace SplitQP

open Checked SplitQP.Dense Finset

/-! ## Congruence -/

section Congruence

variable {F : Type} [Field F] [LinearOrder F] [IsStrictOrderedRing F] {n : ℕ}
  {S U : Matrix (Fin n) (Fin n) F} {w : Fin n → F}

/-- **A matrix congruent to a diagonal one** is positive in as many directions as the
diagonal has positive numbers. -/
theorem sigPos_of_congruent (hU : IsUnit U) (hS : S = U * .diagonal w * U.transpose) :
    sigPos S.toQuadraticForm' = {i | 0 < w i}.ncard := by
  have hunit : IsUnit U.transpose := by
    rwa [Matrix.isUnit_iff_isUnit_det, Matrix.det_transpose, ← Matrix.isUnit_iff_isUnit_det]
  refine QuadraticForm.sigPos_of_equiv_weightedSumSquares
    ⟨⟨Matrix.toLinearEquiv' U.transpose hunit.invertible, fun v => ?_⟩⟩
  -- both sides are `(Uᵀ·v)ᵀ·diag(w)·(Uᵀ·v)`
  have hcoordinates : Matrix.toLinearEquiv' U.transpose hunit.invertible v =
      U.transpose.mulVec v := rfl
  change QuadraticMap.weightedSumSquares F w
    (Matrix.toLinearEquiv' U.transpose hunit.invertible v) = S.toQuadraticForm' v
  rw [hcoordinates, Matrix.toQuadraticForm', LinearMap.BilinMap.toQuadraticMap_apply,
    Matrix.toLinearMap₂'_apply', hS, ← Matrix.mulVec_mulVec, ← Matrix.mulVec_mulVec,
    Matrix.dotProduct_mulVec, ← Matrix.mulVec_transpose, QuadraticMap.weightedSumSquares_apply,
    dotProduct]
  refine sum_congr rfl fun i _ => ?_
  rw [Matrix.mulVec_diagonal, smul_eq_mul]
  ring

end Congruence

/-- **The number of positive eigenvalues** of a real matrix, each as often as it is a root
of the characteristic polynomial. -/
noncomputable def positiveEigenvalues {n : ℕ} (S : Matrix (Fin n) (Fin n) ℝ) : ℕ :=
  (S.charpoly.roots.filter (0 < ·)).card

/-- The eigenvalues of a symmetric matrix are the weights of a sum of squares. -/
theorem sigPos_eq_positiveEigenvalues {n : ℕ} {S : Matrix (Fin n) (Fin n) ℝ}
    (hS : S.transpose = S) : sigPos S.toQuadraticForm' = positiveEigenvalues S := by
  have hhermitian : S.IsHermitian := by
    rw [Matrix.IsHermitian, Matrix.conjTranspose_eq_transpose_of_trivial, hS]
  have hspectral := hhermitian.spectral_theorem
  rw [Unitary.conjStarAlgAut_apply, Matrix.star_eq_conjTranspose,
    Matrix.conjTranspose_eq_transpose_of_trivial] at hspectral
  have hunit : IsUnit (hhermitian.eigenvectorUnitary : Matrix (Fin n) (Fin n) ℝ) :=
    (Unitary.toUnits hhermitian.eigenvectorUnitary).isUnit
  rw [sigPos_of_congruent hunit hspectral, positiveEigenvalues,
    hhermitian.roots_charpoly_eq_eigenvalues, Multiset.filter_map, Multiset.card_map,
    ← Finset.filter_val, Finset.card_val, ← Set.ncard_coe_finset, Finset.coe_filter_univ]
  rfl

/-! ## Pivots -/

variable {K : Type} [ExactField K] {A : Csc K}

/-- **The symmetric completion in real numbers,** for an ordered field of such. -/
def Csc.realMatrix (A : Csc K) (real : K →+*o ℝ) : Matrix (Fin A.ncols) (Fin A.ncols) ℝ :=
  (A.toSymMatrix A.ncols).map real

theorem Csc.realMatrix_transpose (A : Csc K) (real : K →+*o ℝ) :
    (A.realMatrix real).transpose = A.realMatrix real := by
  rw [realMatrix, ← Matrix.transpose_map, A.toSymMatrix_transpose]

namespace Ldl

variable {f : Ldl K} {order : EliminationOrder}

/-- Factors found by any rule are those of the order that it found. -/
theorem factor_given_of_factor (h : factor A order = .ok (.ok f)) :
    ∃ perm, factor A (.given perm) = .ok (.ok f) := by
  obtain ⟨g, hprepare, hrefactor⟩ := prepare_of_factor h
  obtain ⟨hpattern, perm, hanalyse⟩ := analyse_of_prepare hprepare
  refine ⟨perm, ?_⟩
  rw [factor, prepare, hpattern]
  simp only [ok_bind, choose_given (isOrder_of_analyse hanalyse), hanalyse, hrefactor, pure_eq_ok]

/-- **What is factored is a matrix,** cut off where its columns end. -/
theorem stored_of_factored (h : factor A order = .ok (.ok f)) :
    A.Readable ∧ ∃ inv, Analyses A.trimmed inv f ∧ Stored f := by
  obtain ⟨perm, hgiven⟩ := factor_given_of_factor h
  obtain ⟨g, hprepare, hrefactor⟩ := prepare_of_factor hgiven
  have hA := readable_of_prepare hprepare
  have htrimmed : factor A.trimmed (.given perm) = .ok (.ok f) := by
    rw [factor, prepare_trimmed hA]
    exact hgiven
  rw [← prepare_trimmed hA] at hprepare
  obtain ⟨hpattern, -⟩ := analyse_of_prepare hprepare
  have hsquare := (isTriangle_of_checkPattern hA.wellFormed_trimmed hpattern).1
  exact ⟨hA, stored_of_factor hA.wellFormed_trimmed hsquare htrimmed⟩

/-- **Factors make a matrix congruent** to the diagonal of their pivots. -/
theorem Stored.exists_congruent {inv : Array ℕ} (h : Analyses A inv f) (hs : Stored f) :
    ∃ U : Matrix (Fin A.ncols) (Fin A.ncols) K, IsUnit U ∧
      A.toSymMatrix A.ncols = U * .diagonal (vec A.ncols f.pivots.d) * U.transpose := by
  let e := h.inverts.equiv
  have hunit : IsUnit (1 + f.lowerPart A.ncols) := by
    rw [Matrix.isUnit_iff_isUnit_det, ← Matrix.det_transpose, ← Matrix.isUnit_iff_isUnit_det]
    exact isUnit_one_add_lowerPart h hs
  have hproduct := (hs.isFactorisation h).product
  -- the factors are those of the rearranged matrix, so their rows go back to their places
  rw [permutedMatrix_eq_submatrix h.inverts] at hproduct
  refine ⟨(1 + f.lowerPart A.ncols).submatrix e.symm (Equiv.refl _),
    (Matrix.isUnit_submatrix_equiv _ _).mpr hunit, ?_⟩
  calc A.toSymMatrix A.ncols
      = ((A.toSymMatrix A.ncols).submatrix e e).submatrix e.symm e.symm := by simp
    _ = ((1 + f.lowerPart A.ncols) * Matrix.diagonal (vec A.ncols f.pivots.d) *
          (1 + f.lowerPart A.ncols).transpose).submatrix e.symm e.symm := by rw [hproduct]
    _ = _ := by
      rw [← Matrix.submatrix_mul_equiv _ _ _ (Equiv.refl _),
        ← Matrix.submatrix_mul_equiv _ _ _ (Equiv.refl _), Matrix.transpose_submatrix]
      rfl

/-- **As many pivots are positive as eigenvalues.** -/
theorem Stored.positive_eq_positiveEigenvalues {inv : Array ℕ} (h : Analyses A inv f)
    (hs : Stored f) (real : K →+*o ℝ) : f.positive = positiveEigenvalues (A.realMatrix real) := by
  obtain ⟨U, hU, hS⟩ := hs.exists_congruent h
  have hreal : A.realMatrix real = U.map real *
      .diagonal (fun i => real (vec A.ncols f.pivots.d i)) * (U.map real).transpose := by
    rw [Csc.realMatrix, hS, Matrix.map_mul, Matrix.map_mul, Matrix.diagonal_map (map_zero real),
      Matrix.transpose_map]
  have hunit : IsUnit (U.map real) := hU.map (real : K →+* ℝ).mapMatrix
  have hmono : StrictMono real := real.monotone'.strictMono_of_injective real.injective
  rw [← sigPos_eq_positiveEigenvalues (A.realMatrix_transpose real),
    sigPos_of_congruent hunit hreal, (hs.isFactorisation h).positive_eq, ← Set.ncard_coe_finset,
    Finset.coe_filter_univ]
  simp only [← hmono.lt_iff_lt (a := 0), map_zero]

/-! ## Convexity -/

/-- Where the factors exist, they decide about convexity by counting. -/
theorem setup_eq_of_factor {P B : Csc K} {sigma : K} {rhoInv : Array K} {positions : Array ℕ}
    (hassemble : Kkt.assemble P B sigma rhoInv = .ok (A, positions))
    (h : factor A order = .ok (.ok f)) : KktSystem.setup P B sigma rhoInv order =
      .ok (if f.positive = P.ncols then .ok ⟨f, positions⟩ else .error .nonConvex) := by
  rw [KktSystem.setup, hassemble]
  simp only [ok_bind, h, pure_eq_ok]
  split_ifs <;> rfl

/-- **The number of positive pivots is one of the matrix:** that of its positive eigenvalues,
in every order in which it can be factored. So no order finds a program convex that
another one refuses. -/
theorem inertia_of_factor {order' : EliminationOrder} {g : Ldl K}
    (hf : factor A order = .ok (.ok f)) (hg : factor A order' = .ok (.ok g)) :
    f.positive = g.positive ∧
    (∀ real : K →+*o ℝ, f.positive = positiveEigenvalues (A.realMatrix real)) ∧
    ∀ (P B : Csc K) (sigma : K) (rhoInv : Array K) (positions : Array ℕ),
      Kkt.assemble P B sigma rhoInv = .ok (A, positions) →
      ((∃ k, KktSystem.setup P B sigma rhoInv order = .ok (.ok k)) ↔
        ∃ k, KktSystem.setup P B sigma rhoInv order' = .ok (.ok k)) := by
  obtain ⟨hA, inv, hfa, hfs⟩ := stored_of_factored hf
  obtain ⟨-, inv', hga, hgs⟩ := stored_of_factored hg
  have hsame : f.positive = g.positive :=
    (hfs.positive_eq_sigPos hfa).trans (hgs.positive_eq_sigPos hga).symm
  have hreal : ∀ real : K →+*o ℝ, A.trimmed.realMatrix real = A.realMatrix real := by
    intro real
    simp only [Csc.realMatrix, Csc.toSymMatrix, Csc.symCoeff, Csc.entryList, hA.cols_trimmed]
    rfl
  refine ⟨hsame, fun real => ?_, fun P B sigma rhoInv positions hassemble => ?_⟩
  · rw [← hreal]
    exact hfs.positive_eq_positiveEigenvalues hfa real
  · rw [setup_eq_of_factor hassemble hf, setup_eq_of_factor hassemble hg, hsame]
    split_ifs <;> simp

/-- The rationals among the reals. -/
noncomputable def rationals : ℚ →+*o ℝ := ⟨Rat.castHom ℝ, Rat.cast_mono⟩

/-- The curvature of one variable. -/
def ridgeCurvature : Csc ℚ := ⟨1, 1, #[0, 1], #[0], #[3]⟩

/-- One constraint on it. -/
def ridgeConstraint : Csc ℚ := ⟨1, 1, #[0, 1], #[0], #[-1]⟩

/-- Their KKT matrix with the shift 1. -/
def ridge : Csc ℚ := ⟨2, 2, #[0, 1, 3], #[0, 0, 1], #[4, -1, -2]⟩

theorem inertia_of_factor_ridge : ∃ f g,
    factor ridge .natural = .ok (.ok f) ∧ factor ridge (.given #[1, 0]) = .ok (.ok g) ∧
    f.positive = g.positive ∧ f.positive = positiveEigenvalues (ridge.realMatrix rationals) ∧
    Kkt.assemble ridgeCurvature ridgeConstraint 1 #[2] = .ok (ridge, #[2]) ∧
    ((∃ k, KktSystem.setup ridgeCurvature ridgeConstraint 1 #[2] .natural = .ok (.ok k)) ↔
      ∃ k, KktSystem.setup ridgeCurvature ridgeConstraint 1 #[2] (.given #[1, 0]) =
        .ok (.ok k)) := by
  have hassemble : Kkt.assemble ridgeCurvature ridgeConstraint 1 #[2] = .ok (ridge, #[2]) := by
    cbv
  have hformat : ridge.checkFormat = .ok () := by decide +kernel
  have hfactor : ∀ perm : Array ℕ, IsOrder ridge.ncols perm →
      (∀ m ≤ ridge.ncols, (permutedMatrix ridge perm m).det ≠ 0) →
      ∃ f, factor ridge (.given perm) = .ok (.ok f) := fun perm hperm hminors =>
    (factor_given_spec hformat rfl (by decide) (by decide) hperm).1.mpr hminors
  obtain ⟨f, hf⟩ := hfactor #[0, 1] (by decide) (by decide +kernel)
  obtain ⟨g, hg⟩ := hfactor #[1, 0] (by decide) (by decide +kernel)
  have hnatural : factor ridge .natural = .ok (.ok f) := hf
  obtain ⟨hsame, hreal, hdecision⟩ := inertia_of_factor hnatural hg
  exact ⟨f, g, hnatural, hg, hsame, hreal rationals, hassemble, hdecision _ _ _ _ _ hassemble⟩

end Ldl

end SplitQP
