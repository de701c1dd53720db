import SplitQP.Proofs.Dense
import SplitQP.Proofs.Factor.Ldl
import SplitQP.Proofs.Sparse.Canonical
import SplitQP.Proofs.Sparse.Products
/-!
# Sparse matrices — one matrix behind the products

`StandsFor` says which dense matrix a stored one is, by what looking up
an entry answers. The product scatters along the columns of that matrix,
the adjoint product gathers down them, and the symmetric product does
both at once. They are products of the one matrix all the same, so the
first two are adjoint for the computed inner product (`dot_mulVec`) and
the third is self-adjoint (`dot_mulSymVec`).
-/

namespace SplitQP

open Checked SplitQP.Dense

namespace Csc

variable {K : Type} [ExactField K] {A : Csc K} {m n : ℕ} {x y : Array K}

/-! ## The dense matrix -/

/-- **`M` is the dense form of `A`:** looking up an entry answers the number in
its place, and nothing only where that is zero. -/
structure StandsFor (A : Csc K) (M : Matrix (Fin m) (Fin n) K) : Prop where
  nrows_eq : A.nrows = m
  ncols_eq : A.ncols = n
  entry_eq : ∀ (i : Fin m) (j : Fin n), ∃ held, A.entry? i j = .ok held ∧ M i j = held.getD 0

/-- The symmetric matrix with the upper triangle of `M`. -/
def symmetrized (M : Matrix (Fin n) (Fin n) K) : Matrix (Fin n) (Fin n) K :=
  .of fun i j => if i ≤ j then M i j else M j i

theorem getD_total (vs : List K) : (total vs).getD 0 = vs.sum := by
  induction vs using List.reverseRecOn with
  | nil => rfl
  | append_singleton vs v ih =>
    rw [total_concat, List.sum_append, List.sum_singleton, ← ih]
    cases total vs with
    | none => exact (zero_add v).symm
    | some s => rfl

/-- What a column holds in a row is the number of that place. -/
theorem getD_valueAt (A : Csc K) (i : ℕ) {j : ℕ} (hj : j < A.ncols) :
    (valueAt i (A.cols.getD j [])).getD 0 = A.coeff i j := by
  rw [valueAt, getD_total, A.coeff_eq_sum_col hj]
  induction A.cols.getD j [] with
  | nil => rfl
  | cons p col ih =>
    rw [List.map_cons, List.sum_cons, ← ih]
    by_cases hp : p.1 = i
    · rw [List.filter_cons_of_pos (by simpa using hp), if_pos hp, List.map_cons, List.sum_cons]
    · rw [List.filter_cons_of_neg (by simpa using hp), if_neg hp, zero_add]

theorem standsFor_toMatrix (h : A.WellFormed) :
    A.StandsFor (A.toMatrix A.nrows A.ncols) where
  nrows_eq := rfl
  ncols_eq := rfl
  entry_eq i j := ⟨_, by rw [h.entry?_eq, if_pos ⟨i.isLt, j.isLt⟩], (A.getD_valueAt i j.isLt).symm⟩

/-- **There is one dense form.** -/
theorem StandsFor.eq_toMatrix {M : Matrix (Fin m) (Fin n) K} (hM : A.StandsFor M)
    (h : A.WellFormed) : M = A.toMatrix m n := by
  obtain ⟨rfl, rfl, hentry⟩ := hM
  ext i j
  obtain ⟨held, hheld, hvalue⟩ := hentry i j
  rw [h.entry?_eq, if_pos ⟨i.isLt, j.isLt⟩, Except.ok.injEq] at hheld
  rw [hvalue, ← hheld, A.getD_valueAt i j.isLt]
  rfl

/-- An upper triangle stands for the matrix it is completed to. -/
theorem toSymMatrix_eq_symmetrized (hup : A.IsUpperTriangular) :
    A.toSymMatrix n = symmetrized (A.toMatrix n n) := by
  ext i j
  simp only [toSymMatrix, toMatrix, symmetrized, Matrix.of_apply]
  split_ifs with hij
  · exact symCoeff_of_le hup hij
  · rw [symCoeff_comm]
    exact symCoeff_of_le hup (not_le.mp hij).le

/-! ## Adjoint products -/

theorem dot_eq_dotProduct (hx : x.size = n) (hy : y.size = n) :
    dot x y = .ok (dotProduct (vec n x) (vec n y)) := by
  rw [dot_eq_ok (hx.trans hy.symm), foldl_add_eq_sum (size_zipWith hx hy), vec_zipWith hx hy]
  rfl

/-- A product by itself, whatever stood in its place. -/
theorem vec_mulVec_over (h : A.WellFormed) (a : K) {w : Array K} (hx : x.size = A.ncols)
    (hw : w.size = A.nrows) : Ensures (A.mulVec a x 0 w) fun r => r.size = A.nrows ∧
      vec A.nrows r = a • (A.toMatrix A.nrows A.ncols).mulVec (vec A.ncols x) :=
  (vec_mulVec h rfl rfl a 0 hx hw).mono fun r ⟨hsize, hr⟩ =>
    ⟨hsize, by rw [hr, zero_smul, add_zero]⟩

theorem vec_mulTransposeVec_over (h : A.WellFormed) (a : K) {w : Array K}
    (hx : x.size = A.nrows) (hw : w.size = A.ncols) :
    Ensures (A.mulTransposeVec a x 0 w) fun r => r.size = A.ncols ∧
      vec A.ncols r = a • (A.toMatrix A.nrows A.ncols).transpose.mulVec (vec A.nrows x) :=
  (vec_mulTransposeVec h rfl rfl a 0 hx hw).mono fun r ⟨hsize, hr⟩ =>
    ⟨hsize, by rw [hr, zero_smul, add_zero]⟩

/-- **The two products are adjoint:** `⟨y, M·x⟩ = ⟨Mᵀ·y, x⟩` for what is computed. -/
theorem dot_mulVec (h : A.WellFormed) (a : K) {w w' : Array K} (hx : x.size = A.ncols)
    (hy : y.size = A.nrows) (hw : w.size = A.nrows) (hw' : w'.size = A.ncols) :
    Ensures (A.mulVec a x 0 w) fun r => Ensures (A.mulTransposeVec a y 0 w') fun r' =>
      ∃ c, dot y r = .ok c ∧ dot r' x = .ok c := by
  refine (vec_mulVec_over h a hx hw).mono fun r ⟨hsize, hr⟩ =>
    (vec_mulTransposeVec_over h a hy hw').mono fun r' ⟨hsize', hr'⟩ => ?_
  refine ⟨_, dot_eq_dotProduct hy hsize, ?_⟩
  rw [dot_eq_dotProduct hsize' hx, hr, hr', dotProduct_smul, smul_dotProduct,
    Matrix.dotProduct_mulVec, Matrix.mulVec_transpose]

/-- The symmetric product is its own adjoint. -/
theorem dot_mulSymVec (h : A.WellFormed) (hsq : A.nrows = A.ncols) (a : K) {w w' : Array K}
    (hx : x.size = A.ncols) (hy : y.size = A.ncols) (hw : w.size = A.ncols)
    (hw' : w'.size = A.ncols) :
    Ensures (A.mulSymVec a x 0 w) fun r => Ensures (A.mulSymVec a y 0 w') fun r' =>
      ∃ c, dot y r = .ok c ∧ dot r' x = .ok c := by
  refine (vec_mulSymVec h hsq rfl a 0 hx hw).mono fun r ⟨hsize, hr⟩ =>
    (vec_mulSymVec h hsq rfl a 0 hy hw').mono fun r' ⟨hsize', hr'⟩ => ?_
  refine ⟨_, dot_eq_dotProduct hy hsize, ?_⟩
  rw [dot_eq_dotProduct hsize' hx, hr, hr', zero_smul, zero_smul, add_zero, add_zero,
    dotProduct_smul, smul_dotProduct, Matrix.dotProduct_mulVec, ← Matrix.mulVec_transpose,
    toSymMatrix_transpose]

/-! ## The products -/

/-- **The products of a well-formed matrix are those of its dense form,** duplicates summed:
of the form itself, of its transpose, and of the symmetric matrix with its upper triangle
where nothing is stored below. They are adjoint to each other. Whatever the arithmetic,
what is counted zero times is not read. -/
theorem products_of_checkFormat {α : Type} [arith : Scalar α] {A : Csc α}
    (hA : A.checkFormat = .ok ()) :
    (∀ (a b : α) (x w w' : Array α), Scalar.eq b 0 = true →
      (x.size = A.ncols → w.size = A.nrows → w'.size = A.nrows →
        ∃ r, A.mulVec a x b w = .ok r ∧ A.mulVec a x b w' = .ok r) ∧
      (x.size = A.nrows → w.size = A.ncols → w'.size = A.ncols →
        ∃ r, A.mulTransposeVec a x b w = .ok r ∧ A.mulTransposeVec a x b w' = .ok r) ∧
      (A.nrows = A.ncols → x.size = A.ncols → w.size = A.ncols → w'.size = A.ncols →
        ∃ r, A.mulSymVec a x b w = .ok r ∧ A.mulSymVec a x b w' = .ok r)) ∧
    ∀ [ExactField α], arith = ExactField.scalar →
      A.StandsFor (A.toMatrix A.nrows A.ncols) ∧
      (∀ {m n : ℕ} {M : Matrix (Fin m) (Fin n) α}, A.StandsFor M →
        (∀ (a b : α) (x y : Array α), x.size = n → y.size = m →
          Ensures (A.mulVec a x b y) fun r =>
            r.size = m ∧ vec m r = a • M.mulVec (vec n x) + b • vec m y) ∧
        (∀ (a b : α) (x y : Array α), x.size = m → y.size = n →
          Ensures (A.mulTransposeVec a x b y) fun r =>
            r.size = n ∧ vec n r = a • M.transpose.mulVec (vec m x) + b • vec n y) ∧
        ∀ (a : α) (x y w w' : Array α), x.size = n → y.size = m → w.size = m → w'.size = n →
          Ensures (A.mulVec a x 0 w) fun r => Ensures (A.mulTransposeVec a y 0 w') fun r' =>
            ∃ c, dot y r = .ok c ∧ dot r' x = .ok c) ∧
      ∀ {n : ℕ} {M : Matrix (Fin n) (Fin n) α}, A.StandsFor M → A.isUpper = .ok true →
        (∀ (a b : α) (x y : Array α), x.size = n → y.size = n →
          Ensures (A.mulSymVec a x b y) fun r =>
            r.size = n ∧ vec n r = a • (symmetrized M).mulVec (vec n x) + b • vec n y) ∧
        ∀ (a : α) (x y w w' : Array α), x.size = n → y.size = n → w.size = n → w'.size = n →
          Ensures (A.mulSymVec a x 0 w) fun r => Ensures (A.mulSymVec a y 0 w') fun r' =>
            ∃ c, dot y r = .ok c ∧ dot r' x = .ok c := by
  have h := checkFormat_eq_ok_iff.mp hA
  refine ⟨fun a b x w w' hb => ⟨fun hx hw hw' => ?_, fun hx hw hw' => ?_,
    fun hsq hx hw hw' => ?_⟩, ?_⟩
  · exact ⟨_, mulVec_eq h a b hx hw, by
      rw [← mulVec_over hb (hw.trans hw'.symm), mulVec_eq h a b hx hw]⟩
  · exact ⟨_, mulTransposeVec_eq h a b hx hw, by
      rw [← mulTransposeVec_over hb (hw.trans hw'.symm), mulTransposeVec_eq h a b hx hw]⟩
  · exact ⟨_, mulSymVec_eq h hsq a b hx hw, by
      rw [← mulSymVec_over hb (hw.trans hw'.symm), mulSymVec_eq h hsq a b hx hw]⟩
  rintro field rfl
  refine ⟨standsFor_toMatrix h, fun {m n M} hM => ?_, fun {n M} hM hupper => ?_⟩
  · obtain rfl := hM.eq_toMatrix h
    obtain ⟨rfl, rfl, -⟩ := hM
    exact ⟨fun a b x y hx hy => vec_mulVec h rfl rfl a b hx hy,
      fun a b x y hx hy => vec_mulTransposeVec h rfl rfl a b hx hy,
      fun a x y w w' hx hy hw hw' => dot_mulVec h a hx hy hw hw'⟩
  · obtain rfl := hM.eq_toMatrix h
    obtain ⟨hsq, rfl, -⟩ := hM
    rw [← toSymMatrix_eq_symmetrized ((Ldl.isUpper_eq_true_iff h).mp hupper)]
    exact ⟨fun a b x y hx hy => vec_mulSymVec h hsq rfl a b hx hy,
      fun a x y w w' hx hy hw hw' => dot_mulSymVec h hsq a hx hy hw hw'⟩

/-- Seven in the corner, three and four on the diagonal: rows out of order, and two of the
three numbers in two parts. -/
def lapped : Csc ℚ := ⟨2, 2, #[0, 2, 5], #[0, 0, 1, 0, 1], #[1, 2, 5, 7, -1]⟩

theorem products_of_checkFormat_lapped : lapped.checkFormat = .ok () ∧
    lapped.isUpper = .ok true ∧ lapped.StandsFor !![3, 7; 0, 4] ∧
    (∃ r, lapped.mulVec 2 #[1, -1] (1 / 2) #[10, 20] = .ok r ∧ vec 2 r = ![-3, 2]) ∧
    (∃ r, lapped.mulTransposeVec 2 #[1, -1] (1 / 2) #[10, 20] = .ok r ∧ vec 2 r = ![11, 16]) ∧
    (∃ r, lapped.mulSymVec 2 #[1, -1] (1 / 2) #[10, 20] = .ok r ∧ vec 2 r = ![-3, 16]) ∧
    ∃ r, lapped.mulVec 1 #[1, -1] 0 #[ExactField.undefined, ExactField.huge] = .ok r ∧
      lapped.mulVec 1 #[1, -1] 0 #[0, 0] = .ok r := by
  have hformat : lapped.checkFormat = .ok () := by decide +kernel
  have hupper : lapped.isUpper = .ok true := by decide +kernel
  have hM : lapped.StandsFor !![3, 7; 0, 4] := by
    refine ⟨rfl, rfl, fun i j => ?_⟩
    have hcol (j : ℕ) (hj : j < 2) : lapped.entry? i j = .ok (valueAt i (lapped.cols.getD j [])) := by
      rw [(checkFormat_eq_ok_iff.mp hformat).entry?_eq, if_pos ⟨i.isLt, hj⟩]
    refine ⟨_, hcol j j.isLt, ?_⟩
    fin_cases i <;> fin_cases j <;> decide +kernel
  obtain ⟨hread, hexact⟩ := products_of_checkFormat hformat
  obtain ⟨-, hall, hsym⟩ := hexact rfl
  obtain ⟨hmul, hmulT, -⟩ := hall hM
  obtain ⟨hmulSym, -⟩ := hsym hM hupper
  refine ⟨hformat, hupper, hM, ?_, ?_, ?_,
    (hread 1 0 #[1, -1] _ _ (by decide)).1 rfl rfl rfl⟩
  · refine (hmul 2 (1 / 2) #[1, -1] #[10, 20] rfl rfl).mono fun r ⟨_, hr⟩ => hr.trans ?_
    decide +kernel
  · refine (hmulT 2 (1 / 2) #[1, -1] #[10, 20] rfl rfl).mono fun r ⟨_, hr⟩ => hr.trans ?_
    decide +kernel
  · refine (hmulSym 2 (1 / 2) #[1, -1] #[10, 20] rfl rfl).mono fun r ⟨_, hr⟩ => hr.trans ?_
    decide +kernel

end Csc

end SplitQP
