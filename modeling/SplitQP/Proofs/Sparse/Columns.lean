import Mathlib.Algebra.BigOperators.Group.List.Lemmas
import Mathlib.Algebra.Order.BigOperators.Group.List
import Mathlib.Data.List.GetD
import Mathlib.Tactic.Linarith
import SplitQP.Proofs.Answers
import SplitQP.Sparse.Matrix
/-!
# Sparse matrices — well-formed ones and their columns

`WellFormed` is what `checkFormat` checks. A well-formed matrix is the
same as its list of columns: `columns` answers `cols`, and building a
matrix from `cols` gives the matrix back (`WellFormed.eq_ofColumns`). So
an operation is described by what it does to a list of columns.
-/

namespace SplitQP

open Checked

namespace Csc

variable {α : Type}

/-! ## Columns without faults -/

/-- Where column `j` starts in storage. -/
def start (A : Csc α) (j : ℕ) : ℕ := A.colStart.getD j 0

/-- The stored `(row, value)` pairs, in storage order. -/
def pairs (A : Csc α) : List (ℕ × α) := A.rowIndex.toList.zip A.value.toList

/-- The columns, each in storage order. -/
def cols (A : Csc α) : List (List (ℕ × α)) :=
  (List.range A.ncols).map fun j => (A.pairs.take (A.start (j + 1))).drop (A.start j)

/-- The stored entries, in storage order. -/
def entryList (A : Csc α) : List (Entry α) := entriesOf A.cols

@[simp] theorem length_cols (A : Csc α) : A.cols.length = A.ncols := by simp [cols]

theorem getD_cols {A : Csc α} {j : ℕ} (hj : j < A.ncols) :
    A.cols.getD j [] = (A.pairs.take (A.start (j + 1))).drop (A.start j) := by
  rw [List.getD_eq_getElem _ _ (by simpa using hj)]
  simp [cols]

/-- A column is a slice of the storage. -/
theorem toList_slice {A : Csc α} {j : ℕ} (hj : j < A.ncols) :
    ((A.rowIndex.extract (A.start j) (A.start (j + 1))).zip
      (A.value.extract (A.start j) (A.start (j + 1)))).toList = A.cols.getD j [] := by
  simp only [getD_cols hj, pairs, Array.toList_zip, Array.toList_extract,
    List.extract_eq_drop_take', List.zip_eq_zipWith, List.take_zipWith, List.drop_zipWith]

/-- **Well-formed matrices.** Lengths fit, column starts ascend from zero, rows
are in range. -/
structure WellFormed (A : Csc α) : Prop where
  size_value : A.value.size = A.rowIndex.size
  size_colStart : A.colStart.size = A.ncols + 1
  start_last : A.start A.ncols = A.rowIndex.size
  start_zero : A.start 0 = 0
  start_mono : ∀ {i j}, i ≤ j → j ≤ A.ncols → A.start i ≤ A.start j
  row_lt : ∀ i ∈ A.rowIndex, i < A.nrows

/-- `ascending` is the order of every pair, not only of neighbours. -/
theorem ascending_iff {xs : List ℕ} : ascending xs = true ↔ xs.Pairwise (· ≤ ·) := by
  fun_induction ascending xs with
  | case1 a b rest ih =>
    rw [Bool.and_eq_true, ih, decide_eq_true_iff, List.pairwise_cons (a := a)]
    constructor
    · rintro ⟨hab, h⟩
      refine ⟨fun c hc => ?_, h⟩
      rcases List.mem_cons.mp hc with rfl | hc
      · exact hab
      · exact hab.trans ((List.pairwise_cons.mp h).1 c hc)
    · rintro ⟨hab, h⟩
      exact ⟨hab b (by simp), h⟩
  | case2 xs h =>
    rcases xs with - | ⟨a, - | ⟨b, rest⟩⟩
    · simp
    · simp
    · exact absurd rfl (h a b rest)

theorem start_eq_iff {A : Csc α} {j k : ℕ} (h : j < A.colStart.size) :
    A.colStart[j]? = some k ↔ A.start j = k := by
  rw [start, Array.getD, dif_pos h, Array.getElem?_eq_getElem h]
  exact Option.some_inj

/-- **The check accepts exactly the well-formed matrices.** -/
theorem checkFormat_eq_ok_iff {A : Csc α} : A.checkFormat = .ok () ↔ A.WellFormed := by
  have hmono : A.colStart.size = A.ncols + 1 → (ascending A.colStart.toList = true ↔
      ∀ {i j}, i ≤ j → j ≤ A.ncols → A.start i ≤ A.start j) := by
    intro hsize
    rw [ascending_iff, List.pairwise_iff_getElem]
    constructor
    · intro h i j hij hj
      rcases Nat.eq_or_lt_of_le hij with rfl | hlt
      · exact le_rfl
      · have := h i j (by simp; omega) (by simp; omega) hlt
        rw [start, start, Array.getD, dif_pos (by omega), Array.getD, dif_pos (by omega)]
        exact this
    · intro h i j hi hj hij
      simp only [Array.length_toList] at hi hj
      have := h hij.le (by omega : j ≤ A.ncols)
      rw [start, start, Array.getD, dif_pos hi, Array.getD, dif_pos hj] at this
      exact this
  unfold checkFormat
  simp only [throw_eq_error, error_bind, pure_eq_ok]
  constructor
  · intro h
    split_ifs at h with h1 h2 h3 h4
    exact {
      size_value := h1.symm
      size_colStart := h2.1
      start_last := (start_eq_iff (by omega)).mp h2.2
      start_zero := (start_eq_iff (by omega)).mp h3.1
      start_mono := (hmono h2.1).mp h3.2
      row_lt := by simpa [Array.forall_mem_iff_forall_getElem] using h4 }
  · intro h
    have hsize := h.size_colStart
    rw [if_pos h.size_value.symm,
      if_pos ⟨hsize, (start_eq_iff (by omega)).mpr h.start_last⟩,
      if_pos ⟨(start_eq_iff (by omega)).mpr h.start_zero, (hmono hsize).mpr h.start_mono⟩,
      if_pos (by simpa [Array.forall_mem_iff_forall_getElem] using h.row_lt)]

/-! ## From columns to a matrix and back -/

theorem startsFrom_getElem? (cols : List (List (ℕ × α))) (total j : ℕ) (hj : j ≤ cols.length) :
    (startsFrom total cols)[j]? = some (total + ((cols.map List.length).take j).sum) := by
  induction cols generalizing total j with
  | nil =>
    obtain rfl : j = 0 := by simpa using hj
    simp [startsFrom]
  | cons col cols ih =>
    cases j with
    | zero => simp [startsFrom]
    | succ j =>
      rw [startsFrom, List.getElem?_cons_succ, ih _ j (by simpa using hj)]
      simp [Nat.add_assoc]

theorem length_startsFrom (cols : List (List (ℕ × α))) (total : ℕ) :
    (startsFrom total cols).length = cols.length + 1 := by
  induction cols generalizing total with
  | nil => rfl
  | cons col cols ih => simp [startsFrom, ih]

section OfColumns

variable {nrows : ℕ} {columns : List (List (ℕ × α))}

@[simp] theorem nrows_ofColumns : (ofColumns nrows columns).nrows = nrows := rfl

@[simp] theorem ncols_ofColumns : (ofColumns nrows columns).ncols = columns.length := rfl

/-- A column starts after all entries of the columns before it. -/
theorem start_ofColumns {j : ℕ} (hj : j ≤ columns.length) :
    (ofColumns nrows columns).start j = ((columns.map List.length).take j).sum := by
  have h := startsFrom_getElem? columns 0 j hj
  rw [Nat.zero_add] at h
  simp [start, ofColumns, Array.getD_eq_getD_getElem?, h]

@[simp] theorem pairs_ofColumns : (ofColumns nrows columns).pairs = columns.flatten := by
  simp only [pairs, ofColumns, List.zip_eq_zipWith, List.zipWith_map]
  simp

/-- **Reading back what was built.** -/
@[simp] theorem cols_ofColumns : (ofColumns nrows columns).cols = columns := by
  apply List.ext_getElem
  · simp
  · intro j h1 h2
    simp only [cols, List.getElem_map, List.getElem_range, pairs_ofColumns]
    rw [start_ofColumns (by omega), start_ofColumns (by omega)]
    exact List.drop_take_succ_flatten_eq_getElem columns j h2

theorem wellFormed_ofColumns (h : ∀ col ∈ columns, ∀ e ∈ col, e.1 < nrows) :
    (ofColumns nrows columns).WellFormed where
  size_value := by simp only [ofColumns, List.size_toArray, List.length_map]
  size_colStart := by simp [ofColumns, length_startsFrom]
  start_last := by
    rw [start_ofColumns (by simp), List.take_of_length_le (by simp)]
    simp only [ofColumns, List.size_toArray, List.length_map, List.length_flatten]
  start_zero := by rw [start_ofColumns (by simp)]; simp
  start_mono := by
    intro i j hij hj
    rw [start_ofColumns (by simp at hj; omega), start_ofColumns hj]
    exact List.monotone_sum_take _ hij
  row_lt := by
    intro i hi
    simp only [ofColumns, List.mem_toArray, List.mem_map, List.mem_flatten] at hi
    obtain ⟨e, ⟨col, hcol, he⟩, rfl⟩ := hi
    exact h col hcol e he

end OfColumns

namespace WellFormed

variable {A : Csc α}

theorem length_pairs (h : A.WellFormed) : A.pairs.length = A.rowIndex.size := by
  simp [pairs, h.size_value]

theorem start_le (h : A.WellFormed) {j : ℕ} (hj : j ≤ A.ncols) : A.start j ≤ A.rowIndex.size := by
  rw [← h.start_last]
  exact h.start_mono hj le_rfl

theorem length_col (h : A.WellFormed) {j : ℕ} (hj : j < A.ncols) :
    (A.cols.getD j []).length = A.start (j + 1) - A.start j := by
  have := h.start_le (j := j + 1) (by omega)
  rw [getD_cols hj, List.length_drop, List.length_take, h.length_pairs]
  omega

/-- The first columns hold the first entries. -/
theorem flatten_take_cols (h : A.WellFormed) {k : ℕ} (hk : k ≤ A.ncols) :
    (A.cols.take k).flatten = A.pairs.take (A.start k) := by
  induction k with
  | zero => simp [h.start_zero]
  | succ k ih =>
    have hlt : k < A.cols.length := by simp; omega
    have hmono := h.start_mono (Nat.le_succ k) hk
    rw [List.take_succ_eq_append_getElem hlt, List.flatten_append, ih (by omega)]
    simp only [cols, List.getElem_map, List.getElem_range, List.flatten_cons, List.flatten_nil,
      List.append_nil]
    conv_rhs =>
      rw [← List.take_append_drop (A.start k) (A.pairs.take (A.start (k + 1))), List.take_take,
        Nat.min_eq_left hmono]

theorem flatten_cols (h : A.WellFormed) : A.cols.flatten = A.pairs := by
  have := h.flatten_take_cols le_rfl
  rwa [← A.length_cols, List.take_length, A.length_cols, h.start_last, ← h.length_pairs,
    List.take_length] at this

/-- **A well-formed matrix is built from its columns.** -/
theorem eq_ofColumns (h : A.WellFormed) : A = ofColumns A.nrows A.cols := by
  have hstart : ∀ k ≤ A.ncols, ((A.cols.map List.length).take k).sum = A.start k := by
    intro k hk
    rw [← List.map_take, ← List.length_flatten, h.flatten_take_cols hk, List.length_take,
      h.length_pairs, Nat.min_eq_left (h.start_le hk)]
  have hcol : A.colStart = (startsFrom 0 A.cols).toArray := by
    apply Array.ext_getElem?
    intro j
    have hsize := h.size_colStart
    have hlen := length_startsFrom A.cols 0
    rw [length_cols] at hlen
    rw [show (startsFrom 0 A.cols).toArray[j]? = (startsFrom 0 A.cols)[j]? from
      List.getElem?_toArray]
    by_cases hj : j ≤ A.ncols
    · rw [startsFrom_getElem? A.cols 0 j (by rwa [length_cols]), hstart j hj, Nat.zero_add]
      exact (start_eq_iff (by omega)).mpr rfl
    · rw [Array.getElem?_eq_none (by omega), List.getElem?_eq_none (by omega)]
  have hrow : A.rowIndex = (A.cols.flatten.map (·.1)).toArray := by
    rw [h.flatten_cols, pairs, List.map_fst_zip (by simp [h.size_value])]
  have hval : A.value = (A.cols.flatten.map (·.2)).toArray := by
    rw [h.flatten_cols, pairs, List.map_snd_zip (by simp [h.size_value])]
  cases A
  simp only [ofColumns, Csc.mk.injEq, length_cols]
  exact ⟨trivial, trivial, hcol, hrow, hval⟩

theorem mem_cols_lt (h : A.WellFormed) {col : List (ℕ × α)} (hc : col ∈ A.cols) {e : ℕ × α}
    (he : e ∈ col) : e.1 < A.nrows := by
  have hmem : e ∈ A.pairs := by
    rw [← h.flatten_cols]
    exact List.mem_flatten.mpr ⟨col, hc, he⟩
  exact h.row_lt e.1 (by simpa using (List.of_mem_zip hmem).1)

/-- A column is what its slots hold. -/
theorem col_eq_map (h : A.WellFormed) {j : ℕ} (hj : j < A.ncols) (d : α) :
    A.cols.getD j [] = (List.range' (A.start j) (A.start (j + 1) - A.start j)).map fun k =>
      (A.rowIndex.getD k 0, A.value.getD k d) := by
  have hend := h.start_le (j := j + 1) hj
  have hsize := h.size_value
  rw [getD_cols hj]
  apply List.ext_getElem
  · rw [List.length_drop, List.length_take, h.length_pairs, List.length_map, List.length_range']
    omega
  · intro t h1 h2
    rw [List.length_map, List.length_range'] at h2
    rw [List.getElem_drop, List.getElem_take, List.getElem_map, List.getElem_range',
      Nat.one_mul, Array.getD, dif_pos (by omega), Array.getD, dif_pos (by omega)]
    simp [pairs]

/-! ## Readers answer -/

theorem columnIndices_eq (h : A.WellFormed) : A.columnIndices = List.range A.ncols := by
  rw [columnIndices, h.size_colStart, Nat.min_eq_left (by omega)]

theorem nnz_eq (h : A.WellFormed) : A.nnz = .ok A.rowIndex.size := by
  rw [nnz, read_eq_ok_getD 0 (by rw [h.size_colStart]; omega)]
  exact congrArg _ h.start_last

theorem span_eq (h : A.WellFormed) {j : ℕ} (hj : j < A.ncols) :
    A.span j = .ok (A.start j, A.start (j + 1)) := by
  rw [span, read_eq_ok_getD 0 (by rw [h.size_colStart]; omega), ok_bind,
    read_eq_ok_getD 0 (by rw [h.size_colStart]; omega)]
  rfl

theorem column_eq (h : A.WellFormed) {j : ℕ} (hj : j < A.ncols) :
    A.column j = .ok (A.cols.getD j []) := by
  have hle := h.start_mono (Nat.le_succ j) hj
  have hend := h.start_le (j := j + 1) hj
  rw [column, h.span_eq hj]
  simp only [ok_bind, pure_eq_ok]
  rw [require_eq_ok ⟨hle, hend, by rw [h.size_value]; exact hend⟩, ok_bind, toList_slice hj]

theorem columnRows_eq (h : A.WellFormed) {j : ℕ} (hj : j < A.ncols) :
    A.columnRows j = .ok ((A.cols.getD j []).map (·.1)) := by
  have hle := h.start_mono (Nat.le_succ j) hj
  have hend := h.start_le (j := j + 1) hj
  rw [columnRows, h.span_eq hj]
  simp only [ok_bind, pure_eq_ok]
  rw [require_eq_ok ⟨hle, hend⟩]
  have hzip : A.rowIndex.toList.length ≤ A.value.toList.length := by simp [h.size_value]
  simp only [ok_bind, getD_cols hj, List.map_drop, List.map_take, pairs, List.map_fst_zip hzip,
    Array.toList_extract, List.extract_eq_drop_take']

theorem columns_eq (h : A.WellFormed) : A.columns = .ok A.cols := by
  rw [columns, h.columnIndices_eq,
    mapM_eq_ok (g := fun j => (A.pairs.take (A.start (j + 1))).drop (A.start j))]
  · rfl
  · intro j hj
    rw [h.column_eq (List.mem_range.mp hj), getD_cols (List.mem_range.mp hj)]

theorem entries_eq (h : A.WellFormed) : A.entries = .ok A.entryList := by
  rw [entries, h.columns_eq]
  rfl

end WellFormed

end Csc

end SplitQP
