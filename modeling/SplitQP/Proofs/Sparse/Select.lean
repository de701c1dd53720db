import SplitQP.Proofs.Sparse.Reshape
import SplitQP.Proofs.Sparse.Products
/-!
# Sparse matrices — selecting rows

The selected rows of a well-formed matrix form one: ranks are below the
number of marks, and storage sized by the number of selected entries is
filled exactly (`selectRows_eq`). In exact arithmetic a marked row is found
at its rank (`mulVec_selected`), and the transpose multiplies as if all
other rows counted zero times (`mulTransposeVec_selected`).
-/

namespace SplitQP

open Checked SplitQP.Dense Finset

namespace Csc

variable {α : Type} [Scalar α] {A : Csc α} {mask : Array Bool}

/-- An entry of a selected row, at the rank of the row. -/
def selectEntry (mask : Array Bool) (p : ℕ × α) : Option (ℕ × α) :=
  if mask.getD p.1 false then some (rank mask p.1, p.2) else none

/-- A marked row has as many marks before it as its rank, and is one more. -/
theorem rank_lt {i : ℕ} (hi : i < mask.size) (hmark : mask.getD i false = true) :
    rank mask i < mask.count true := by
  have hlist : mask.toList = mask.toList.take i ++ true :: mask.toList.drop (i + 1) := by
    rw [getD_of_lt false hi] at hmark
    conv_lhs => rw [← List.take_append_drop i mask.toList]
    rw [List.drop_eq_getElem_cons (by simpa using hi), Array.getElem_toList, hmark]
  have hrank : rank mask i = (mask.toList.take i).count true := by
    rw [rank, ← Array.count_toList, Array.toList_extract, List.extract_eq_drop_take']
    simp
  have hcount := congrArg (List.count true) hlist
  rw [List.count_append, List.count_cons_self, Array.count_toList, ← hrank] at hcount
  omega

theorem selectColumn_eq (hA : A.WellFormed) (hsize : mask.size = A.nrows) {j : ℕ}
    (hj : j < A.ncols) :
    A.selectColumn mask j = .ok ((A.cols.getD j []).filterMap (selectEntry mask)) := by
  have hend := hA.start_le (j := j + 1) hj
  have hvalue := hA.size_value
  rw [selectColumn, hA.slots_eq hj, ok_bind, filterMapM_eq_ok (g := fun k =>
    selectEntry mask (A.rowIndex.getD k 0, A.value.getD k 0))]
  · rw [hA.col_eq_map hj 0, List.filterMap_map]
    rfl
  · intro k hk
    rw [List.mem_range'_1] at hk
    have hki : k < A.rowIndex.size := by omega
    have hrow : A.rowIndex.getD k 0 < mask.size := by
      rw [getD_of_lt 0 hki, hsize]
      exact hA.row_lt _ (Array.getElem_mem hki)
    rw [read_eq_ok_getD 0 hki, ok_bind, read_eq_ok_getD false hrow, ok_bind, selectEntry]
    by_cases hmark : mask.getD (A.rowIndex.getD k 0) false = true
    · rw [if_pos hmark, if_pos hmark, read_eq_ok_getD 0 (by omega)]
      rfl
    · rw [if_neg hmark, if_neg hmark]
      rfl

/-- The selected rows. -/
def selected (A : Csc α) (mask : Array Bool) : Csc α :=
  ofColumns (mask.count true) (A.cols.map (List.filterMap (selectEntry mask)))

theorem selectColumns_eq (hA : A.WellFormed) (hsize : mask.size = A.nrows) :
    A.columnIndices.mapM (A.selectColumn mask) =
      .ok (A.cols.map (List.filterMap (selectEntry mask))) := by
  rw [hA.columnIndices_eq, mapM_eq_ok (g := fun j =>
    (A.cols.getD j []).filterMap (selectEntry mask))
    fun j hj => selectColumn_eq hA hsize (List.mem_range.mp hj)]
  congr 1
  apply List.ext_getElem
  · simp
  · intro j h1 h2
    simp only [List.getElem_map, List.getElem_range]
    rw [List.getD_eq_getElem]

omit [Scalar α] in
theorem wellFormed_selected (hA : A.WellFormed) (hsize : mask.size = A.nrows) :
    (A.selected mask).WellFormed := by
  refine wellFormed_ofColumns fun col hcol e he => ?_
  obtain ⟨col', hcol', rfl⟩ := List.mem_map.mp hcol
  obtain ⟨p, hp, hsel⟩ := List.mem_filterMap.mp he
  rw [selectEntry] at hsel
  split_ifs at hsel with hmark
  obtain rfl := Option.some_inj.mp hsel
  exact rank_lt (by rw [hsize]; exact hA.mem_cols_lt hcol' hp) hmark

omit [Scalar α] in
/-- As many entries are selected as have a marked row. -/
theorem size_value_selected (hA : A.WellFormed) :
    (A.selected mask).value.size = A.rowIndex.countP fun i => mask[i]?.getD false := by
  have hmask : ∀ i, mask[i]?.getD false = mask.getD i false := fun i => by simp
  have hfst : A.pairs.map (·.1) = A.rowIndex.toList := by
    rw [pairs, List.map_fst_zip]
    simp [hA.size_value]
  rw [selected, ofColumns, List.size_toArray, List.length_map, ← List.filterMap_flatten,
    hA.flatten_cols, List.length_filterMap_eq_countP, ← Array.countP_toList, ← hfst,
    List.countP_map]
  congr 1
  funext p
  rw [Function.comp_apply, selectEntry, hmask]
  cases mask.getD p.1 false <;> rfl

/-- **Selecting rows answers the selected rows.** -/
theorem selectRows_eq (hA : A.WellFormed) (hsize : mask.size = A.nrows) :
    A.selectRows mask = .ok (A.selected mask) := by
  have hvalue : (A.selected mask).value.size = _ := size_value_selected hA
  have hrows : (A.selected mask).rowIndex.size =
      A.rowIndex.countP fun i => mask[i]?.getD false := by
    rw [← hvalue, selected, ofColumns, List.size_toArray, List.size_toArray, List.length_map,
      List.length_map]
  have hbelow : A.rowIndex.all (· < mask.size) = true := by
    simp only [Array.all_eq_true, decide_eq_true_eq, hsize]
    exact fun i hi => hA.row_lt _ (Array.getElem_mem hi)
  rw [selectRows, require_eq_ok hsize, ok_bind, require_eq_ok hbelow, ok_bind,
    selectColumns_eq hA hsize]
  simp only [ok_bind]
  rw [← selected, require_eq_ok hvalue.le, ok_bind]
  -- the room is used up, so nothing is appended
  rw [hrows, hvalue, Nat.sub_self, Array.replicate_zero, Array.append_empty, Array.replicate_zero,
    Array.append_empty]
  rfl

omit [Scalar α] in
@[simp] theorem nrows_selected : (A.selected mask).nrows = mask.count true := rfl

omit [Scalar α] in
@[simp] theorem ncols_selected : (A.selected mask).ncols = A.ncols := by simp [selected]

/-! ## In exact arithmetic -/

/-- Marked rows keep their order. -/
theorem rank_lt_rank {i k : ℕ} (hik : i < k) (hk : k ≤ mask.size)
    (hmark : mask.getD i false = true) : rank mask i < rank mask k := by
  have hi : i < mask.size := hik.trans_le hk
  have hmem : true ∈ mask.extract i k := by
    rw [getD_of_lt false hi] at hmark
    exact Array.mem_of_getElem (i := 0) (h := by simp; omega) (by simp [hmark])
  have hsplit : mask.extract 0 k = mask.extract 0 i ++ mask.extract i k := by
    rw [Array.extract_append_extract, Nat.zero_min, Nat.max_eq_right hik.le]
  rw [rank, rank, hsplit, Array.count_append]
  exact Nat.lt_add_of_pos_right (Array.count_pos_iff.mpr hmem)

/-- No two marked rows have one rank. -/
theorem rank_inj {i k : ℕ} (hi : mask.getD i false = true) (hk : mask.getD k false = true)
    (hin : i < mask.size) (hkn : k < mask.size) (h : rank mask i = rank mask k) : i = k := by
  rcases lt_trichotomy i k with hlt | heq | hlt
  · exact absurd h (rank_lt_rank hlt hkn.le hi).ne
  · exact heq
  · exact absurd h (rank_lt_rank hlt hin.le hk).ne'

omit [Scalar α] in
theorem getD_cols_selected {j : ℕ} (hj : j < A.ncols) : (A.selected mask).cols.getD j [] =
    (A.cols.getD j []).filterMap (selectEntry mask) := by
  rw [selected, cols_ofColumns, List.getD_eq_getElem _ _ (by simpa using hj),
    List.getD_eq_getElem _ _ (by simpa using hj), List.getElem_map]

omit [Scalar α] in
theorem WellFormed.row_lt_of_mem_col (hA : A.WellFormed) {j : ℕ} (hj : j < A.ncols) {e : ℕ × α}
    (he : e ∈ A.cols.getD j []) : e.1 < A.nrows := by
  rw [List.getD_eq_getElem _ _ (by simpa using hj)] at he
  exact hA.mem_cols_lt (List.getElem_mem _) he

section Exact

variable {K : Type} [ExactField K] {A : Csc K} {m n : ℕ} {y w : Array K}

/-- A sum over the selected entries of a column, where the others count zero. -/
theorem sum_filterMap_selectEntry {f g : ℕ × K → K} {col : List (ℕ × K)}
    (h : ∀ e ∈ col, g e = if mask.getD e.1 false = true then f (rank mask e.1, e.2) else 0) :
    ((col.filterMap (selectEntry mask)).map f).sum = (col.map g).sum := by
  induction col with
  | nil => rfl
  | cons e col ih =>
    have htail := ih fun e' he' => h e' (List.mem_cons_of_mem _ he')
    rw [List.map_cons, List.sum_cons, List.filterMap_cons, h e List.mem_cons_self, selectEntry]
    by_cases he : mask.getD e.1 false = true
    · rw [if_pos he, if_pos he, List.map_cons, List.sum_cons, htail]
    · rw [if_neg he, if_neg he, zero_add, htail]

/-- **A marked row has its numbers** at its rank. -/
theorem coeff_selected (hA : A.WellFormed) (hsize : mask.size = A.nrows) {i : ℕ}
    (hi : i < mask.size) (hmark : mask.getD i false = true) (j : ℕ) :
    (A.selected mask).coeff (rank mask i) j = A.coeff i j := by
  rcases Nat.lt_or_ge j A.ncols with hj | hj
  swap
  · rw [coeff_of_ge _ (by simpa using hj), coeff_of_ge _ hj]
  rw [coeff_eq_sum_col _ (by simpa using hj), coeff_eq_sum_col _ hj, getD_cols_selected hj]
  refine sum_filterMap_selectEntry fun e he => ?_
  have hrow : e.1 < mask.size := by
    rw [hsize]
    exact hA.row_lt_of_mem_col hj he
  dsimp only
  by_cases hmark' : mask.getD e.1 false = true
  · have hsame : rank mask e.1 = rank mask i ↔ e.1 = i :=
      ⟨rank_inj hmark' hmark hrow hi, fun h => by rw [h]⟩
    rw [if_pos hmark']
    simp only [hsame]
  · rw [if_neg hmark', if_neg]
    rintro rfl
    exact hmark' hmark

/-- **A marked row times a vector** is found at its rank. -/
theorem mulVec_selected (hA : A.WellFormed) (hsize : mask.size = A.nrows) {i : Fin m}
    (hi : (i : ℕ) < mask.size) (hmark : mask.getD i false = true) (v : Fin n → K) :
    ((A.selected mask).toMatrix (mask.count true) n).mulVec v ⟨rank mask i, rank_lt hi hmark⟩ =
      (A.toMatrix m n).mulVec v i := by
  simp only [Matrix.mulVec, dotProduct, toMatrix, Matrix.of_apply,
    coeff_selected hA hsize hi hmark]

/-- **The transpose of the selected rows** is that of all rows, where the others
count zero times. -/
theorem mulTransposeVec_selected (hA : A.WellFormed) (hm : A.nrows = m) (hn : A.ncols = n)
    (hsize : mask.size = A.nrows) (hw : ∀ i < mask.size, w.getD i 0 =
      if mask.getD i false = true then y.getD (rank mask i) 0 else 0) :
    ((A.selected mask).toMatrix (mask.count true) n).transpose.mulVec (vec (mask.count true) y) =
      (A.toMatrix m n).transpose.mulVec (vec m w) := by
  funext j
  have hj : (j : ℕ) < A.ncols := by omega
  rw [mulTransposeVec_apply (wellFormed_selected hA hsize) nrows_selected (by simpa using hn),
    mulTransposeVec_apply hA hm hn, getD_cols_selected hj]
  refine sum_filterMap_selectEntry fun e he => ?_
  rw [hw e.1 (by rw [hsize]; exact hA.row_lt_of_mem_col hj he), mul_ite, mul_zero]

end Exact

end Csc

end SplitQP
