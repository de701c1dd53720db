import SplitQP.Proofs.Sparse.AsMatrix
/-!
# Sparse matrices — with room to spare

The arrays of a matrix may be longer than its columns need, and what
stands beyond is never read. A matrix is `Readable` when its columns are;
cut off where they end (`trimmed`) it is well-formed, and every reader
answers for it what it answers for the whole.
-/

namespace SplitQP

open Checked SplitQP.Dense

namespace Csc

variable {α : Type} {A : Csc α}

/-- The matrix without what its columns do not need. -/
def trimmed (A : Csc α) : Csc α where
  nrows := A.nrows
  ncols := A.ncols
  colStart := A.colStart.take (A.ncols + 1)
  rowIndex := A.rowIndex.take (A.start A.ncols)
  value := A.value.take (A.start A.ncols)

/-- **All columns can be read,** one after the other from the beginning, and their rows
are in range. -/
structure Readable (A : Csc α) : Prop where
  size_colStart : A.ncols < A.colStart.size
  start_zero : A.start 0 = 0
  start_le : ∀ j < A.ncols, A.start j ≤ A.start (j + 1)
  row_fits : A.start A.ncols ≤ A.rowIndex.size
  value_fits : A.start A.ncols ≤ A.value.size
  row_lt : ∀ p < A.start A.ncols, A.rowIndex.getD p 0 < A.nrows

/-- Every position before the end of a column belongs to some column. -/
theorem exists_column_of_lt {n p : ℕ} (hzero : A.start 0 = 0) (hp : p < A.start n) :
    ∃ j < n, A.start j ≤ p ∧ p < A.start (j + 1) := by
  induction n with
  | zero => omega
  | succ n ih =>
    by_cases hbefore : p < A.start n
    · obtain ⟨j, hj, hfound⟩ := ih hbefore
      exact ⟨j, by omega, hfound⟩
    · exact ⟨n, Nat.lt_succ_self n, by omega, hp⟩

namespace Readable

variable (h : A.Readable)

include h

theorem start_mono {i j : ℕ} (hij : i ≤ j) (hj : j ≤ A.ncols) : A.start i ≤ A.start j := by
  induction j, hij using Nat.le_induction with
  | base => exact le_rfl
  | succ j _ ih => exact (ih (by omega)).trans (h.start_le j hj)

omit h in
theorem start_trimmed {j : ℕ} (hj : j ≤ A.ncols) : A.trimmed.start j = A.start j := by
  rw [start, start, Array.getD_eq_getD_getElem?, Array.getD_eq_getD_getElem?]
  have hlt : j < A.ncols + 1 := Nat.lt_succ_of_le hj
  simp only [trimmed, Array.take_eq_extract, Array.getElem?_extract, Nat.zero_add]
  split_ifs <;> simp_all

theorem size_rowIndex_trimmed : A.trimmed.rowIndex.size = A.start A.ncols := by
  simp [trimmed, h.row_fits]

theorem size_value_trimmed : A.trimmed.value.size = A.start A.ncols := by
  simp [trimmed, h.value_fits]

/-- **What is cut off was the only thing wrong.** -/
theorem wellFormed_trimmed : A.trimmed.WellFormed where
  size_value := h.size_value_trimmed.trans h.size_rowIndex_trimmed.symm
  size_colStart := by
    have hsize := h.size_colStart
    simp [trimmed]
    omega
  start_last := (start_trimmed le_rfl).trans h.size_rowIndex_trimmed.symm
  start_zero := (start_trimmed (Nat.zero_le _)).trans h.start_zero
  start_mono := fun {i j} hij hj => by
    have hj' : j ≤ A.ncols := hj
    rw [start_trimmed (hij.trans hj'), start_trimmed hj']
    exact h.start_mono hij hj'
  row_lt := by
    intro i hi
    obtain ⟨p, hp, rfl⟩ := Array.getElem_of_mem hi
    have hp' : p < A.start A.ncols := by rwa [h.size_rowIndex_trimmed] at hp
    have hlt := h.row_lt p hp'
    rw [getD_of_lt 0 (hp'.trans_le h.row_fits)] at hlt
    simpa [trimmed] using hlt

/-- What storage holds beyond the columns is no part of the matrix. -/
theorem cols_trimmed : A.trimmed.cols = A.cols := by
  refine List.map_congr_left fun j hj => ?_
  have hlt : j < A.ncols := List.mem_range.mp hj
  have hend : A.start (j + 1) ≤ A.start A.ncols := h.start_mono hlt le_rfl
  have hpairs : A.trimmed.pairs = A.pairs.take (A.start A.ncols) := by
    simp only [pairs, trimmed, Array.take_eq_extract, Array.toList_extract,
      List.extract_eq_take_drop, List.drop_zero, Nat.sub_zero, List.zip_eq_zipWith,
      List.take_zipWith]
  rw [start_trimmed hlt, start_trimmed hlt.le, hpairs, List.take_take,
    Nat.min_eq_left hend]

/-! ## Readers do not see the difference -/

theorem columnIndices_eq : A.columnIndices = List.range A.ncols := by
  rw [columnIndices, Nat.min_eq_left]
  have hsize := h.size_colStart
  omega

theorem nnz_eq : A.nnz = .ok (A.start A.ncols) := by
  rw [nnz, read_eq_ok_getD 0 h.size_colStart]
  rfl

theorem span_eq {j : ℕ} (hj : j < A.ncols) : A.span j = .ok (A.start j, A.start (j + 1)) := by
  have hsize := h.size_colStart
  rw [span, read_eq_ok_getD 0 (by omega), ok_bind, read_eq_ok_getD 0 (by omega)]
  rfl

theorem span_trimmed {j : ℕ} (hj : j < A.ncols) :
    A.trimmed.span j = .ok (A.start j, A.start (j + 1)) := by
  have hspan := h.wellFormed_trimmed.span_eq hj
  rwa [start_trimmed hj.le, start_trimmed (j := j + 1) hj] at hspan

/-- Columns end where storage is cut off, at the latest. -/
theorem extract_take {β : Type} (xs : Array β) {j : ℕ} (hj : j < A.ncols) :
    (xs.take (A.start A.ncols)).extract (A.start j) (A.start (j + 1)) =
      xs.extract (A.start j) (A.start (j + 1)) := by
  have hend := h.start_mono (i := j + 1) hj le_rfl
  simp [Array.take_eq_extract, Array.extract_extract, hend]

theorem column_eq {j : ℕ} (hj : j < A.ncols) : A.column j = A.trimmed.column j := by
  have hle := h.start_le j hj
  have hend := h.start_mono (i := j + 1) hj le_rfl
  have hrow := h.row_fits
  have hvalue := h.value_fits
  rw [column, column, h.span_eq hj, h.span_trimmed hj]
  simp only [ok_bind]
  rw [require_eq_ok (by omega), require_eq_ok
    (by rw [h.size_rowIndex_trimmed, h.size_value_trimmed]; omega)]
  simp only [trimmed, h.extract_take _ hj]

theorem columnRows_eq {j : ℕ} (hj : j < A.ncols) : A.columnRows j = A.trimmed.columnRows j := by
  have hle := h.start_le j hj
  have hend := h.start_mono (i := j + 1) hj le_rfl
  have hrow := h.row_fits
  rw [columnRows, columnRows, h.span_eq hj, h.span_trimmed hj]
  simp only [ok_bind]
  rw [require_eq_ok (by omega), require_eq_ok (by rw [h.size_rowIndex_trimmed]; omega)]
  simp only [trimmed, h.extract_take _ hj]

theorem columns_eq : A.columns = A.trimmed.columns := by
  have hread : ∀ j ∈ List.range A.ncols, A.column j = .ok (A.trimmed.cols.getD j []) := by
    intro j hj
    rw [h.column_eq (List.mem_range.mp hj)]
    exact h.wellFormed_trimmed.column_eq (List.mem_range.mp hj)
  rw [columns, h.columnIndices_eq, mapM_eq_ok hread, h.wellFormed_trimmed.columns_eq]
  congr 1
  refine List.ext_getElem (by simp [trimmed]) fun j h1 h2 => ?_
  rw [List.getElem_map, List.getElem_range, List.getD_eq_getElem _ _ h2]

end Readable

/-! ## What can be read is readable -/

theorem span_eq_ok {j lo hi : ℕ} (h : A.span j = .ok (lo, hi)) :
    lo = A.start j ∧ hi = A.start (j + 1) := by
  obtain ⟨lo', hlo, h⟩ := bind_eq_ok.mp h
  obtain ⟨hi', hhi, h⟩ := bind_eq_ok.mp h
  cases h
  exact ⟨(lt_size_of_read 0 hlo).2.symm, (lt_size_of_read 0 hhi).2.symm⟩

/-- A column that was read ends after it starts, within storage. -/
theorem column_eq_ok {j : ℕ} {col : List (ℕ × α)} (h : A.column j = .ok col) :
    A.start (j + 1) ≤ A.rowIndex.size ∧ A.start (j + 1) ≤ A.value.size ∧
      A.start j + col.length = A.start (j + 1) := by
  obtain ⟨⟨lo, hi⟩, hspan, h⟩ := bind_eq_ok.mp h
  obtain ⟨rfl, rfl⟩ := span_eq_ok hspan
  obtain ⟨_, hrequire, h⟩ := bind_eq_ok.mp h
  obtain ⟨hle, hrow, hvalue⟩ := require_eq_ok_iff.mp hrequire
  cases h
  refine ⟨hrow, hvalue, ?_⟩
  simp only [Array.toList_zip, List.length_zip, Array.length_toList, Array.size_extract]
  omega

theorem columnRows_eq_ok {j : ℕ} {rows : List ℕ} (h : A.columnRows j = .ok rows) {p : ℕ}
    (hstart : A.start j ≤ p) (hend : p < A.start (j + 1)) : A.rowIndex.getD p 0 ∈ rows := by
  obtain ⟨⟨lo, hi⟩, hspan, h⟩ := bind_eq_ok.mp h
  obtain ⟨rfl, rfl⟩ := span_eq_ok hspan
  obtain ⟨_, hrequire, h⟩ := bind_eq_ok.mp h
  obtain ⟨hle, hrow⟩ := require_eq_ok_iff.mp hrequire
  cases h
  rw [getD_of_lt 0 (by omega), Array.mem_toList_iff, Array.mem_iff_getElem]
  refine ⟨p - A.start j, by simp; omega, ?_⟩
  simp only [Array.getElem_extract]
  congr 1
  omega

/-- Columns that follow one another end where all their entries do. -/
theorem add_length_flatten {cols : List (List (ℕ × α))} {k : ℕ}
    (h : ∀ j (hj : j < cols.length), A.start (k + j) + cols[j].length = A.start (k + j + 1)) :
    A.start k + cols.flatten.length = A.start (k + cols.length) := by
  induction cols generalizing k with
  | nil => rfl
  | cons col cols ih =>
    have hfirst := h 0 (by simp)
    have hrest := ih (k := k + 1) fun j hj => by
      have hnext := h (j + 1) (by simpa using hj)
      simpa [Nat.add_assoc, Nat.add_comm 1] using hnext
    simp only [List.getElem_cons_zero, Nat.add_zero] at hfirst
    rw [List.flatten_cons, List.length_append, List.length_cons, ← Nat.add_assoc, hfirst, hrest,
      Nat.add_right_comm]
    rfl

/-- **Columns that were read,** as many entries as are counted, make a readable matrix. -/
theorem readable_of_columns {cols : List (List (ℕ × α))} (hsize : A.ncols < A.colStart.size)
    (hcols : A.columns = .ok cols) (hcount : cols.flatten.length = A.start A.ncols)
    (hrows : ∀ j < A.ncols, ∃ rows, A.columnRows j = .ok rows ∧ ∀ i ∈ rows, i < A.nrows) :
    A.Readable := by
  have hindices : A.columnIndices = List.range A.ncols := by
    rw [columnIndices, Nat.min_eq_left (by omega)]
  rw [columns, hindices] at hcols
  have hread := forall₂_of_mapM_eq_ok hcols
  have hlength : cols.length = A.ncols := by simpa using hread.length_eq.symm
  have hcolumn : ∀ j (hj : j < cols.length), A.column j = .ok cols[j] := by
    intro j hj
    simpa using hread.get (i := j) (by simpa [hlength] using hj) hj
  have htotal := add_length_flatten (A := A) (k := 0) fun j hj => by
    simpa using (column_eq_ok (hcolumn j hj)).2.2
  rw [Nat.zero_add, hlength] at htotal
  have hzero : A.start 0 = 0 := by omega
  have hlast : ∀ n ≤ A.ncols, A.start n ≤ A.rowIndex.size ∧ A.start n ≤ A.value.size := by
    rintro (- | n) hn
    · omega
    · obtain ⟨hrow, hvalue, -⟩ := column_eq_ok (hcolumn n (by omega))
      exact ⟨hrow, hvalue⟩
  refine ⟨hsize, hzero, fun j hj => ?_, (hlast _ le_rfl).1, (hlast _ le_rfl).2, fun p hp => ?_⟩
  · have hadd := (column_eq_ok (hcolumn j (by omega))).2.2
    omega
  · obtain ⟨j, hj, hstart, hend⟩ := exists_column_of_lt hzero hp
    obtain ⟨rows, hfound, hlt⟩ := hrows j hj
    exact hlt _ (columnRows_eq_ok hfound hstart hend)

end Csc

end SplitQP
