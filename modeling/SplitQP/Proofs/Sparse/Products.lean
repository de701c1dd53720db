import SplitQP.Proofs.Sparse.AsMatrix
import SplitQP.Sparse.Product
/-!
# Sparse matrices — products with vectors

On a well-formed matrix and vectors of fitting lengths the products do
not fault, whatever the arithmetic (`mulVec_eq` and its companions). In
exact arithmetic they are the products of the matrix, of its transpose
and of its symmetric completion (`vec_mulVec` and its companions).
-/

namespace SplitQP

open Checked SplitQP.Dense Finset

namespace Csc

/-! ## Products answer -/

section Generic

variable {α : Type}

theorem rowsBelow_cols {A : Csc α} (h : A.WellFormed) : rowsBelow A.nrows A.cols = true := by
  simp only [rowsBelow, List.all_eq_true, decide_eq_true_eq]
  exact fun col hcol e he => h.mem_cols_lt hcol he

theorem size_foldl {β : Type} {f : Array α → β → Array α} (hf : ∀ y e, (f y e).size = y.size)
    (es : List β) (y : Array α) : (es.foldl f y).size = y.size := by
  induction es generalizing y with
  | nil => rfl
  | cons e es ih => rw [List.foldl_cons, ih, hf]

variable [Scalar α] {A : Csc α} {x y : Array α}

theorem mulVec_eq (h : A.WellFormed) (a b : α) (hx : x.size = A.ncols) (hy : y.size = A.nrows) :
    A.mulVec a x b y = .ok (A.entryList.foldl (scatter a x) (prescale b y)) := by
  rw [mulVec, require_eq_ok hx, ok_bind, require_eq_ok hy, ok_bind, h.columns_eq, ok_bind,
    require_eq_ok (by rw [hy]; exact rowsBelow_cols h)]
  rfl

theorem mulTransposeVec_eq (h : A.WellFormed) (a b : α) (hx : x.size = A.nrows)
    (hy : y.size = A.ncols) : A.mulTransposeVec a x b y =
      .ok ((prescale b y).zipWith (fun yj col => yj + a * columnDot x col) A.cols.toArray) := by
  rw [mulTransposeVec, require_eq_ok hx, ok_bind, require_eq_ok hy, ok_bind, h.columns_eq,
    ok_bind, require_eq_ok (by rw [hx]; exact rowsBelow_cols h)]
  rfl

theorem mulSymVec_eq (h : A.WellFormed) (hsq : A.nrows = A.ncols) (a b : α)
    (hx : x.size = A.ncols) (hy : y.size = A.ncols) : A.mulSymVec a x b y =
      .ok (A.entryList.foldl (scatterSym a x) (prescale b y)) := by
  rw [mulSymVec, require_eq_ok hsq, ok_bind, require_eq_ok hx, ok_bind, require_eq_ok hy, ok_bind,
    h.columns_eq, ok_bind, require_eq_ok (by rw [hy, ← hsq]; exact rowsBelow_cols h)]
  rfl

@[simp] theorem size_prescale (b : α) (y : Array α) : (prescale b y).size = y.size := by
  unfold prescale
  split_ifs <;> simp

@[simp] theorem size_scatter (a : α) (x y : Array α) (e : Entry α) :
    (scatter a x y e).size = y.size := by simp [scatter]

@[simp] theorem size_scatterSym (a : α) (x y : Array α) (e : Entry α) :
    (scatterSym a x y e).size = y.size := by
  simp only [scatterSym]
  split_ifs <;> simp

/-- A product has as many entries as the vector it is added to. -/
theorem mulVec_ensures_size (h : A.WellFormed) (a b : α) (hx : x.size = A.ncols)
    (hy : y.size = A.nrows) : Ensures (A.mulVec a x b y) fun r => r.size = A.nrows :=
  .of_eq (mulVec_eq h a b hx hy) (by rw [size_foldl (size_scatter a x), size_prescale, hy])

theorem mulTransposeVec_ensures_size (h : A.WellFormed) (a b : α) (hx : x.size = A.nrows)
    (hy : y.size = A.ncols) : Ensures (A.mulTransposeVec a x b y) fun r => r.size = A.ncols :=
  .of_eq (mulTransposeVec_eq h a b hx hy) (by simp [hy])

theorem mulSymVec_ensures_size (h : A.WellFormed) (hsq : A.nrows = A.ncols) (a b : α)
    (hx : x.size = A.ncols) (hy : y.size = A.ncols) :
    Ensures (A.mulSymVec a x b y) fun r => r.size = A.ncols :=
  .of_eq (mulSymVec_eq h hsq a b hx hy)
    (by rw [size_foldl (size_scatterSym a x), size_prescale, hy])

/-- A product that answers was given vectors that fit. -/
theorem size_of_mulVec (h : A.WellFormed) {a b : α} {r : Array α}
    (hr : A.mulVec a x b y = .ok r) : x.size = A.ncols ∧ r.size = A.nrows := by
  obtain ⟨_, hx, h'⟩ := bind_eq_ok.mp hr
  obtain ⟨_, hy, -⟩ := bind_eq_ok.mp h'
  rw [require_eq_ok_iff] at hx hy
  exact ⟨hx, (mulVec_ensures_size h a b hx hy).of_eq_ok hr⟩

theorem size_of_mulTransposeVec (h : A.WellFormed) {a b : α} {r : Array α}
    (hr : A.mulTransposeVec a x b y = .ok r) : x.size = A.nrows ∧ r.size = A.ncols := by
  obtain ⟨_, hx, h'⟩ := bind_eq_ok.mp hr
  obtain ⟨_, hy, -⟩ := bind_eq_ok.mp h'
  rw [require_eq_ok_iff] at hx hy
  exact ⟨hx, (mulTransposeVec_ensures_size h a b hx hy).of_eq_ok hr⟩

theorem size_of_mulSymVec (h : A.WellFormed) {a b : α} {r : Array α}
    (hr : A.mulSymVec a x b y = .ok r) : x.size = A.ncols ∧ r.size = A.ncols := by
  obtain ⟨_, hsq, h'⟩ := bind_eq_ok.mp hr
  obtain ⟨_, hx, h'⟩ := bind_eq_ok.mp h'
  obtain ⟨_, hy, -⟩ := bind_eq_ok.mp h'
  rw [require_eq_ok_iff] at hsq hx hy
  exact ⟨hx, (mulSymVec_ensures_size h hsq a b hx hy).of_eq_ok hr⟩

/-! ## Written over what was there -/

/-- Nothing of a vector that counts zero times is read, but for its length. -/
theorem prescale_eq_of_size {b : α} {y y' : Array α} (hb : Scalar.eq b 0 = true)
    (hy : y.size = y'.size) : prescale b y = prescale b y' := by
  rw [prescale, prescale, if_pos hb, if_pos hb, Array.map_const', Array.map_const', hy]

variable {b : α} {y' : Array α}

theorem mulVec_over (hb : Scalar.eq b 0 = true) (hy : y.size = y'.size) (a : α) (x : Array α) :
    A.mulVec a x b y = A.mulVec a x b y' := by
  rw [mulVec, mulVec, prescale_eq_of_size hb hy, hy]

theorem mulSymVec_over (hb : Scalar.eq b 0 = true) (hy : y.size = y'.size) (a : α) (x : Array α) :
    A.mulSymVec a x b y = A.mulSymVec a x b y' := by
  rw [mulSymVec, mulSymVec, prescale_eq_of_size hb hy, hy]

theorem mulTransposeVec_over (hb : Scalar.eq b 0 = true) (hy : y.size = y'.size) (a : α)
    (x : Array α) : A.mulTransposeVec a x b y = A.mulTransposeVec a x b y' := by
  rw [mulTransposeVec, mulTransposeVec, prescale_eq_of_size hb hy, hy]

/-! ## Norms answer -/

theorem colNorms_ensures_size (h : A.WellFormed) (hx : x.size = A.ncols) :
    Ensures (A.colNorms x) fun r => r.size = A.ncols := by
  rw [colNorms, require_eq_ok hx, ok_bind, h.columns_eq]
  exact .ok (by simp)

theorem colNormsSym_ensures_size (h : A.WellFormed) (hsq : A.nrows = A.ncols)
    (hx : x.size = A.ncols) : Ensures (A.colNormsSym x) fun r => r.size = A.ncols := by
  have hbelow : rowsBelow x.size A.cols = true := by
    rw [hx, ← hsq]
    exact rowsBelow_cols h
  rw [colNormsSym, require_eq_ok hx, ok_bind, h.columns_eq, ok_bind, require_eq_ok hbelow]
  refine .ok ?_
  rw [size_foldl (fun _ _ => by simp [raiseBoth]), size_constant, hx]

theorem rowNorms_ensures_size (h : A.WellFormed) (hx : x.size = A.nrows) :
    Ensures (A.rowNorms x) fun r => r.size = A.nrows := by
  have hbelow : ((A.rowIndex.zip A.value).toList.all (·.1 < x.size)) = true := by
    simp only [List.all_eq_true, decide_eq_true_eq, Array.toList_zip]
    intro p hp
    rw [hx]
    exact h.row_lt p.1 (by simpa using (List.of_mem_zip hp).1)
  rw [rowNorms, require_eq_ok hx]
  simp only [ok_bind]
  rw [require_eq_ok hbelow]
  refine .ok ?_
  rw [size_foldl (fun _ _ => by simp), size_constant, hx]

end Generic

/-! ## What they compute -/

variable {K : Type} [ExactField K] {A : Csc K} {x y : Array K}

theorem getD_of_ge {y : Array K} {i : ℕ} (hi : y.size ≤ i) : y.getD i 0 = 0 := by
  rw [Array.getD, dif_neg (by omega)]

theorem getD_prescale (b : K) (y : Array K) (i : ℕ) :
    (prescale b y).getD i 0 = b * y.getD i 0 := by
  rcases Nat.lt_or_ge i y.size with hi | hi
  · unfold prescale
    by_cases h0 : b = 0
    · rw [if_pos (ExactField.eq_iff.mpr h0), getD_map 0 0 hi, h0, zero_mul]
    · rw [if_neg (mt ExactField.eq_iff.mp h0)]
      by_cases h1 : b = 1
      · rw [if_pos (ExactField.eq_iff.mpr h1), h1, one_mul]
      · rw [if_neg (mt ExactField.eq_iff.mp h1), scale, getD_map 0 0 hi, mul_comm]
  · rw [getD_of_ge hi, getD_of_ge (by rwa [size_prescale]), mul_zero]

theorem getD_foldl_scatter (a : K) (x : Array K) (es : List (Entry K)) {y : Array K} {i : ℕ}
    (hi : i < y.size) : (es.foldl (scatter a x) y).getD i 0 =
      y.getD i 0 +
        a * (es.map fun e => if e.row = (i : ℕ) then e.value * x.getD e.col 0 else 0).sum := by
  induction es generalizing y with
  | nil => simp
  | cons e es ih =>
    rw [List.foldl_cons, ih (by simpa using hi), scatter, getD_modify _ hi, List.map_cons,
      List.sum_cons]
    split_ifs <;> ring

theorem getD_foldl_scatterSym (a : K) (x : Array K) (es : List (Entry K)) {y : Array K} {i : ℕ}
    (hi : i < y.size) : (es.foldl (scatterSym a x) y).getD i 0 =
      y.getD i 0 + a * (es.map fun e => (if e.row = (i : ℕ) then e.value * x.getD e.col 0 else 0) +
        if e.row ≠ e.col ∧ e.col = (i : ℕ) then e.value * x.getD e.row 0 else 0).sum := by
  induction es generalizing y with
  | nil => simp
  | cons e es ih =>
    rw [List.foldl_cons, ih (by simpa using hi), List.map_cons, List.sum_cons, scatterSym]
    by_cases hd : e.row = e.col
    · rw [if_pos hd, scatter, getD_modify _ hi]
      simp only [hd, ne_eq, not_true, false_and, if_false]
      split_ifs <;> ring
    · rw [if_neg hd, getD_modify _ (by simpa using hi), scatter, getD_modify _ hi]
      simp only [hd, ne_eq, not_false_eq_true, true_and]
      split_ifs <;> ring

theorem columnDot_eq (x : Array K) (col : List (ℕ × K)) :
    columnDot x col = (col.map fun p => p.2 * x.getD p.1 0).sum := by
  suffices h : ∀ acc, col.foldl (fun acc p => acc + p.2 * x.getD p.1 0) acc =
      acc + (col.map fun p => p.2 * x.getD p.1 0).sum from (h 0).trans (zero_add _)
  induction col with
  | nil => simp
  | cons p col ih =>
    intro acc
    rw [List.foldl_cons, ih, List.map_cons, List.sum_cons, add_assoc]

/-- The matrix times a vector, entry by entry. -/
theorem mulVec_apply (A : Csc K) {m n : ℕ} (hn : A.ncols = n) (x : Array K) (i : Fin m) :
    (A.toMatrix m n).mulVec (vec n x) i =
      (A.entryList.map fun e => if e.row = (i : ℕ) then e.value * x.getD e.col 0 else 0).sum := by
  rw [← A.sum_coeff_mul hn i fun j => x.getD j 0, ← Fin.sum_univ_eq_sum_range
    (fun j => A.coeff i j * x.getD j 0)]
  rfl

theorem mulTransposeVec_apply (h : A.WellFormed) {m n : ℕ} (hm : A.nrows = m) (hn : A.ncols = n)
    (x : Array K) (j : Fin n) : (A.toMatrix m n).transpose.mulVec (vec m x) j =
      ((A.cols.getD j []).map fun p => p.2 * x.getD p.1 0).sum := by
  have hsum := A.sum_mul_coeff h hm j fun i => x.getD i 0
  rw [← Fin.sum_univ_eq_sum_range (fun i => A.coeff i j * x.getD i 0)] at hsum
  refine (Eq.trans ?_ hsum).trans ?_
  · rfl
  · rw [entryList, sum_entriesOf, length_cols,
      sum_eq_single_of_mem (j : ℕ) (by simp [hn]) fun k _ hk => ?_]
    · simp
    · simp [hk]

theorem mulSymVec_apply (h : A.WellFormed) {n : ℕ} (hm : A.nrows = n) (hn : A.ncols = n)
    (x : Array K) (i : Fin n) : (A.toSymMatrix n).mulVec (vec n x) i =
      (A.entryList.map fun e => (if e.row = (i : ℕ) then e.value * x.getD e.col 0 else 0) +
        if e.row ≠ e.col ∧ e.col = (i : ℕ) then e.value * x.getD e.row 0 else 0).sum := by
  rw [← A.sum_symCoeff_mul h hm hn i fun j => x.getD j 0, ← Fin.sum_univ_eq_sum_range
    (fun j => A.symCoeff i j * x.getD j 0)]
  rfl

/-- **`mulVec` is the product of the matrix.** -/
theorem vec_mulVec (h : A.WellFormed) {m n : ℕ} (hm : A.nrows = m) (hn : A.ncols = n) (a b : K)
    (hx : x.size = n) (hy : y.size = m) : Ensures (A.mulVec a x b y) fun r => r.size = m ∧
      vec m r = a • (A.toMatrix m n).mulVec (vec n x) + b • vec m y := by
  refine .of_eq (mulVec_eq h a b (by omega) (by omega)) ⟨?_, ?_⟩
  · rw [size_foldl (size_scatter a x), size_prescale, hy]
  · funext i
    rw [vec, getD_foldl_scatter a x _ (by simp [hy]), getD_prescale, Pi.add_apply, Pi.smul_apply,
      Pi.smul_apply, mulVec_apply A hn, vec]
    simp only [smul_eq_mul]
    ring

/-- **`mulTransposeVec` is the product of the transpose.** -/
theorem vec_mulTransposeVec (h : A.WellFormed) {m n : ℕ} (hm : A.nrows = m) (hn : A.ncols = n)
    (a b : K) (hx : x.size = m) (hy : y.size = n) :
    Ensures (A.mulTransposeVec a x b y) fun r => r.size = n ∧
      vec n r = a • (A.toMatrix m n).transpose.mulVec (vec m x) + b • vec n y := by
  refine .of_eq (mulTransposeVec_eq h a b (by omega) (by omega)) ⟨?_, ?_⟩
  · simp [hy, hn]
  · funext j
    have hcol : A.cols.toArray.getD j [] = A.cols.getD j [] := by simp
    rw [vec, getD_zipWith 0 [] 0 (by simp [hy]) (by simp [hn]), getD_prescale, hcol, columnDot_eq,
      Pi.add_apply, Pi.smul_apply, Pi.smul_apply, mulTransposeVec_apply h hm hn, vec]
    simp only [smul_eq_mul]
    ring

/-- **`mulSymVec` is the product of the symmetric completion.** -/
theorem vec_mulSymVec (h : A.WellFormed) {n : ℕ} (hm : A.nrows = n) (hn : A.ncols = n) (a b : K)
    (hx : x.size = n) (hy : y.size = n) : Ensures (A.mulSymVec a x b y) fun r => r.size = n ∧
      vec n r = a • (A.toSymMatrix n).mulVec (vec n x) + b • vec n y := by
  refine .of_eq (mulSymVec_eq h (by omega) a b (by omega) (by omega)) ⟨?_, ?_⟩
  · rw [size_foldl (size_scatterSym a x), size_prescale, hy]
  · funext i
    rw [vec, getD_foldl_scatterSym a x _ (by simp [hy]), getD_prescale, Pi.add_apply,
      Pi.smul_apply, Pi.smul_apply, mulSymVec_apply h hm hn, vec]
    simp only [smul_eq_mul]
    ring

end Csc

end SplitQP
