import SplitQP.Proofs.Sparse.AsMatrix
import SplitQP.Proofs.Factor.Factorise
/-!
# The rows multiply to the matrix

In exact arithmetic the rows of `denseRow` are factors: each leading
block of the matrix whose pivots but the last are nonzero is
`(I + L)·D·(I + L)ᵀ` there (`toSymMatrix_eq_mul`), so its determinant is
the product of its pivots (`det_toSymMatrix`). A row carries the
invariant `PartialRow` through its eliminations; that the columns left
out of a sum contribute nothing is what the filled pattern is for.
-/

namespace SplitQP

open Checked SplitQP.Dense TreeState Finset

variable {K : Type} [ExactField K] {upper : Csc K} {parent : Array (Option ℕ)}
  {colStart : Array ℕ} {k : ℕ}

theorem gathered_eq_sum (es : List (ℕ × K)) (i : ℕ) :
    gathered es i = (es.map fun e => if e.1 = i then e.2 else 0).sum := by
  induction es using List.reverseRecOn with
  | nil => rfl
  | append_singleton es e ih =>
    rw [gathered_append, ih, List.map_append, List.sum_append]
    split_ifs <;> simp [*]

/-- A column gathers the numbers of the matrix. -/
theorem gathered_storedEntries (hk : k < upper.ncols) (i : ℕ) :
    gathered (storedEntries upper k) i = upper.coeff i k := by
  rw [gathered_eq_sum, upper.coeff_eq_sum_col hk, storedEntries]

section Row

variable (ha : Analysed upper parent colStart) (hk : k < upper.ncols)

include ha hk

/-- Outside its pattern a row is zero. -/
theorem lowerEntry_of_not_fill {j : ℕ} (hj : ¬ Fill (storedRows upper) k j) :
    lowerEntry upper parent k j = 0 := by
  rw [lowerEntry, denseRow_eq, rowAfter,
    DenseRow.entry_foldl_eliminate (mt (ha.mem_patternOf_iff hk.le).mp hj)]
  rfl

theorem lowerEntry_of_le {j : ℕ} (hj : k ≤ j) : lowerEntry upper parent k j = 0 :=
  lowerEntry_of_not_fill ha hk fun hf => by
    have := hf.lt
    omega

/-- A column of the pattern feeds only those that come after it. -/
theorem sum_pre_eq {pre post : List ℕ} {j : ℕ}
    (hpat : patternOf upper parent k = pre ++ j :: post) :
    (pre.map fun c => lowerEntry upper parent j c *
      (pivotAt upper parent c * lowerEntry upper parent k c)).sum =
    ∑ c ∈ range j, lowerEntry upper parent j c *
      (pivotAt upper parent c * lowerEntry upper parent k c) := by
  have hP := ha.isPattern hk.le
  have hjk : j < k := hP.lt j (by rw [hpat]; simp)
  have hnd : pre.Nodup := by
    have := hP.nodup
    rw [hpat] at this
    exact (List.nodup_append.mp this).1
  -- a term that is not zero has its column in front of `j` and below it
  have hterm : ∀ c, lowerEntry upper parent j c *
      (pivotAt upper parent c * lowerEntry upper parent k c) ≠ 0 → c ∈ pre ∧ c < j := by
    intro c hc
    have hj : Fill (storedRows upper) j c := by
      by_contra hnot
      exact hc (by rw [lowerEntry_of_not_fill ha (by omega) hnot, zero_mul])
    have hkc : Fill (storedRows upper) k c := by
      by_contra hnot
      exact hc (by rw [lowerEntry_of_not_fill ha hk hnot, mul_zero, mul_zero])
    exact ⟨hP.mem_pre_of_fill hpat ((ha.mem_patternOf_iff hk.le).mpr hkc) hj, hj.lt⟩
  rw [← List.sum_toFinset _ hnd]
  refine sum_congr_of_eq_on_inter ?_ ?_ fun _ _ _ => rfl
  · intro c _ hc
    by_contra hne
    exact hc (by simpa using (hterm c hne).2)
  · intro c _ hc
    by_contra hne
    exact hc (by simpa using (hterm c hne).1)

/-- Row `k` under way: what is left of the entries still to come, and of the
pivot. -/
structure PartialRow (upper : Csc K) (parent : Array (Option ℕ)) (k : ℕ) (pre post : List ℕ) :
    Prop where
  rest : ∀ i ∈ post, (rowAfter upper parent k pre).rest i = upper.coeff i k -
    (pre.map fun c => lowerEntry upper parent i c *
      (pivotAt upper parent c * lowerEntry upper parent k c)).sum
  pivot : (rowAfter upper parent k pre).pivot = upper.coeff k k -
    (pre.map fun c => lowerEntry upper parent k c *
      (pivotAt upper parent c * lowerEntry upper parent k c)).sum

theorem entry_mul_pivotAt {pre post : List ℕ} {j : ℕ}
    (hpat : patternOf upper parent k = pre ++ j :: post) (hne : pivotAt upper parent j ≠ 0) :
    pivotAt upper parent j * lowerEntry upper parent k j =
      (rowAfter upper parent k pre).rest j := by
  have hP := ha.isPattern hk.le
  have hjk : j < k := hP.lt j (by rw [hpat]; simp)
  have hpat' : patternOf upper parent k = (pre ++ [j]) ++ post := by simpa using hpat
  rw [lowerEntry_eq_rowAfter hpat' hP.nodup (by simp), entry_rowAfter_append pre hjk,
    ExactField.recip_eq]
  field_simp

/-- Eliminating column `j` takes its term off every entry still to come, also where the fill
has none. -/
theorem rest_rowAfter_concat {pre post : List ℕ} {i j : ℕ}
    (hpat : patternOf upper parent k = pre ++ j :: post) (hne : pivotAt upper parent j ≠ 0)
    (hij : i ≠ j) (hik : i < k) : (rowAfter upper parent k (pre ++ [j])).rest i =
      (rowAfter upper parent k pre).rest i - lowerEntry upper parent i j *
        (pivotAt upper parent j * lowerEntry upper parent k j) := by
  rw [rest_rowAfter_append, if_neg hij, entry_mul_pivotAt ha hk hpat hne]
  split_ifs with hmem
  · rfl
  · rw [lowerEntry_of_not_fill ha (by omega) fun hf => hmem (mem_fillRows.mpr ⟨hik, hf⟩)]
    ring

/-- And off the pivot. -/
theorem pivot_rowAfter_concat {pre post : List ℕ} {j : ℕ}
    (hpat : patternOf upper parent k = pre ++ j :: post) (hne : pivotAt upper parent j ≠ 0) :
    (rowAfter upper parent k (pre ++ [j])).pivot =
      (rowAfter upper parent k pre).pivot - lowerEntry upper parent k j *
        (pivotAt upper parent j * lowerEntry upper parent k j) := by
  have hjk : j < k := (ha.isPattern hk.le).lt j (by rw [hpat]; simp)
  rw [pivot_rowAfter_append pre hjk, ← entry_mul_pivotAt ha hk hpat hne, ExactField.recip_eq]
  field_simp

/-- **What the eliminations of a row preserve.** -/
theorem partialRow (hne : ∀ j < k, pivotAt upper parent j ≠ 0) {pre post : List ℕ}
    (hpat : patternOf upper parent k = pre ++ post) : PartialRow upper parent k pre post := by
  have hP := ha.isPattern hk.le
  induction pre using List.reverseRecOn generalizing post with
  | nil =>
    constructor
    · intro i hi
      have hik : i < k := hP.lt i (by rw [hpat]; simpa using hi)
      simp [rowAfter, DenseRow.begin, hik, gathered_storedEntries hk]
    · simp [rowAfter, DenseRow.begin, gathered_storedEntries hk]
  | append_singleton pre j ih =>
    have hpat' : patternOf upper parent k = pre ++ j :: post := by simpa using hpat
    have hjk : j < k := hP.lt j (by rw [hpat']; simp)
    have hprev := ih hpat'
    constructor
    · intro i hi
      have hij : i ≠ j := by
        rintro rfl
        exact (fill_of_split ha hk hpat').2.2 hi
      have hik : i < k := hP.lt i (by rw [hpat]; simp [hi])
      rw [rest_rowAfter_concat ha hk hpat' (hne j hjk) hij hik, hprev.rest i (by simp [hi]),
        List.map_append, List.sum_append]
      simp
      ring
    · rw [pivot_rowAfter_concat ha hk hpat' (hne j hjk), hprev.pivot, List.map_append,
        List.sum_append]
      simp
      ring

/-- **The entries of a row** satisfy their equations. -/
theorem coeff_eq_of_lt (hne : ∀ j < k, pivotAt upper parent j ≠ 0) {j : ℕ} (hjk : j < k) :
    upper.coeff j k = ∑ c ∈ range j, lowerEntry upper parent j c *
      (pivotAt upper parent c * lowerEntry upper parent k c) +
        pivotAt upper parent j * lowerEntry upper parent k j := by
  by_cases hf : Fill (storedRows upper) k j
  · obtain ⟨pre, post, hpat⟩ := List.append_of_mem ((ha.mem_patternOf_iff hk.le).mpr hf)
    have hrest := (partialRow ha hk hne hpat).rest j (by simp)
    rw [entry_mul_pivotAt ha hk hpat (hne j hjk), hrest, sum_pre_eq ha hk hpat]
    ring
  · -- nothing is stored there, and no column meets both rows
    have hstored : upper.coeff j k = 0 := by
      rw [← gathered_storedEntries hk]
      exact gathered_of_not_mem fun hmem => hf (.stored hmem hjk)
    have hzero : ∀ c ∈ range j, lowerEntry upper parent j c *
        (pivotAt upper parent c * lowerEntry upper parent k c) = 0 := by
      intro c hc
      by_cases hjc : Fill (storedRows upper) j c
      · rw [lowerEntry_of_not_fill ha hk fun hkc => hf (.join hkc hjc hjk), mul_zero, mul_zero]
      · rw [lowerEntry_of_not_fill ha (by omega) hjc, zero_mul]
    rw [hstored, sum_eq_zero hzero, lowerEntry_of_not_fill ha hk hf, mul_zero, add_zero]

/-- **The pivot of a row** satisfies its equation. -/
theorem coeff_self_eq (hne : ∀ j < k, pivotAt upper parent j ≠ 0) :
    upper.coeff k k = ∑ c ∈ range k, lowerEntry upper parent k c *
      (pivotAt upper parent c * lowerEntry upper parent k c) + pivotAt upper parent k := by
  have hP := ha.isPattern hk.le
  have hpivot := (partialRow ha hk hne (List.append_nil _).symm).pivot
  rw [← denseRow_eq, ← List.sum_toFinset _ hP.nodup] at hpivot
  have hsub : (patternOf upper parent k).toFinset ⊆ range k := by
    intro c hc
    simpa using hP.lt c (by simpa using hc)
  rw [sum_subset hsub] at hpivot
  · rw [pivotAt, hpivot]
    ring
  · intro c _ hc
    rw [lowerEntry_of_not_fill ha hk fun hf =>
      hc (by simpa using (ha.mem_patternOf_iff hk.le).mpr hf), zero_mul]

end Row

/-! ## As matrices -/

/-- The unit lower triangular factor. -/
noncomputable def unitEntry (upper : Csc K) (parent : Array (Option ℕ)) (i j : ℕ) : K :=
  if i = j then 1 else lowerEntry upper parent i j

/-- The leading block of `I + L`. -/
noncomputable def unitLower (upper : Csc K) (parent : Array (Option ℕ)) (m : ℕ) :
    Matrix (Fin m) (Fin m) K := .of fun i j => unitEntry upper parent i j

/-- The leading block of `D`. -/
noncomputable def pivotMatrix (upper : Csc K) (parent : Array (Option ℕ)) (m : ℕ) :
    Matrix (Fin m) (Fin m) K := .diagonal fun i => pivotAt upper parent i

section Matrices

variable (ha : Analysed upper parent colStart) {m : ℕ} (hm : m ≤ upper.ncols)

include ha

theorem unitEntry_of_lt {i j : ℕ} (hi : i < upper.ncols) (hij : i < j) :
    unitEntry upper parent i j = 0 := by
  rw [unitEntry, if_neg (by omega), lowerEntry_of_le ha hi hij.le]

/-- The equations of a row, with the diagonal taken in. -/
theorem coeff_eq_sum_unitEntry (hk : k < m) (hm : m ≤ upper.ncols)
    (hne : ∀ j < k, pivotAt upper parent j ≠ 0) {j : ℕ} (hjk : j ≤ k) :
    upper.coeff j k = ∑ c ∈ range m, unitEntry upper parent j c *
      (pivotAt upper parent c * unitEntry upper parent k c) := by
  have hsub : range (j + 1) ⊆ range m := by
    rw [range_subset_range]
    omega
  rw [← sum_subset hsub]
  · rw [sum_range_succ, unitEntry, if_pos rfl, one_mul]
    have hlow : ∀ c ∈ range j, unitEntry upper parent j c *
        (pivotAt upper parent c * unitEntry upper parent k c) = lowerEntry upper parent j c *
          (pivotAt upper parent c * lowerEntry upper parent k c) := by
      intro c hc
      rw [mem_range] at hc
      rw [unitEntry, unitEntry, if_neg (by omega), if_neg (by omega)]
    rw [sum_congr rfl hlow]
    rcases Nat.eq_or_lt_of_le hjk with rfl | hlt
    · rw [coeff_self_eq ha (by omega) hne, unitEntry, if_pos rfl, mul_one]
    · rw [coeff_eq_of_lt ha (by omega) hne hlt, unitEntry, if_neg (by omega)]
  · intro c hc hnot
    rw [mem_range] at hc hnot
    rw [unitEntry_of_lt ha (by omega) (by omega), zero_mul]

omit [ExactField K] in
/-- No entry lies below the diagonal. -/
theorem Analysed.entry_le : ∀ e ∈ upper.entryList, e.row ≤ e.col := by
  intro e he
  obtain ⟨hlt, hmem⟩ := Csc.mem_entriesOf.mp he
  refine ha.row_le e.col e.row ?_
  rw [storedRows, List.getD_eq_getElem _ _ hlt]
  exact List.mem_map_of_mem hmem

include hm

/-- **The factors of a leading block.** Its last pivot may be zero. -/
theorem toSymMatrix_eq_mul (hne : ∀ j, j + 1 < m → pivotAt upper parent j ≠ 0) :
    upper.toSymMatrix m =
      unitLower upper parent m * pivotMatrix upper parent m *
        (unitLower upper parent m).transpose := by
  have hle : ∀ i j : Fin m, (i : ℕ) ≤ j → upper.toSymMatrix m i j =
      ∑ c ∈ range m, unitEntry upper parent i c *
        (pivotAt upper parent c * unitEntry upper parent j c) := by
    intro i j hij
    rw [Csc.toSymMatrix, Matrix.of_apply, Csc.symCoeff_of_le ha.entry_le hij]
    exact coeff_eq_sum_unitEntry ha j.isLt hm (fun c hc => hne c (by omega)) hij
  ext i j
  have hsum : (unitLower upper parent m * pivotMatrix upper parent m *
      (unitLower upper parent m).transpose) i j = ∑ c ∈ range m, unitEntry upper parent i c *
        (pivotAt upper parent c * unitEntry upper parent j c) := by
    rw [Matrix.mul_apply, ← Fin.sum_univ_eq_sum_range (fun c => unitEntry upper parent i c *
      (pivotAt upper parent c * unitEntry upper parent j c))]
    refine sum_congr rfl fun c _ => ?_
    rw [pivotMatrix, Matrix.mul_diagonal, Matrix.transpose_apply, unitLower, Matrix.of_apply,
      Matrix.of_apply, mul_assoc]
  rw [hsum]
  rcases le_total (i : ℕ) j with hij | hji
  · exact hle i j hij
  · rw [← upper.toSymMatrix_transpose m, Matrix.transpose_apply, hle j i hji]
    refine sum_congr rfl fun c _ => ?_
    ring

theorem det_unitLower : (unitLower upper parent m).det = 1 := by
  rw [Matrix.det_of_isLowerTriangular]
  · refine prod_eq_one fun i _ => ?_
    rw [unitLower, Matrix.of_apply, unitEntry, if_pos rfl]
  · intro i j hij
    rw [unitLower, Matrix.of_apply]
    exact unitEntry_of_lt ha (by omega) hij

/-- **The determinant of a leading block** is the product of its pivots. -/
theorem det_toSymMatrix (hne : ∀ j, j + 1 < m → pivotAt upper parent j ≠ 0) :
    (upper.toSymMatrix m).det = ∏ i : Fin m, pivotAt upper parent i := by
  rw [toSymMatrix_eq_mul ha hm hne, Matrix.det_mul, Matrix.det_mul, Matrix.det_transpose,
    det_unitLower ha hm, pivotMatrix, Matrix.det_diagonal, one_mul, mul_one]

/-- **Pivots and leading blocks.** A pivot after nonzero ones is zero exactly
when its leading block is singular. -/
theorem pivotAt_eq_zero_iff (hk : k + 1 = m) (hne : ∀ j < k, pivotAt upper parent j ≠ 0) :
    pivotAt upper parent k = 0 ↔ (upper.toSymMatrix m).det = 0 := by
  subst hk
  rw [det_toSymMatrix ha hm fun j hj => hne j (by omega), Fin.prod_univ_castSucc, mul_eq_zero,
    or_iff_right]
  · rfl
  · rw [prod_eq_zero_iff]
    rintro ⟨i, -, hi⟩
    exact hne i i.isLt hi

end Matrices

end SplitQP
