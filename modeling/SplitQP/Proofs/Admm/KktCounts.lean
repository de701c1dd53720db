import SplitQP.Proofs.Admm.KktBlocks
import SplitQP.Proofs.Sparse.Filling
import SplitQP.Admm.KktFilling
/-!
# The KKT matrix, counted

All entries of the KKT matrix, in the order in which they are put
(`allEntries`): by columns they are a column of `P` with its diagonal
(`column_leading`), or a row of `A` and one more entry (`column_trailing`).
What is counted for a column is what is put there (`counts_ensures`).
-/

namespace SplitQP

open Checked SplitQP.Dense

namespace Csc

variable {α : Type} {P : Csc α}

/-- A column without a diagonal entry. -/
def LacksDiagonal (P : Csc α) (j : ℕ) : Prop := j ∉ (P.cols.getD j []).map (·.1)

instance (P : Csc α) (j : ℕ) : Decidable (P.LacksDiagonal j) :=
  inferInstanceAs (Decidable (_ ∉ _))

/-- The columns without a diagonal entry. -/
def missing (P : Csc α) : List ℕ := (List.range P.ncols).filter (P.LacksDiagonal ·)

theorem mem_missing {j : ℕ} : j ∈ P.missing ↔ j < P.ncols ∧ P.LacksDiagonal j := by
  rw [missing, List.mem_filter, List.mem_range, decide_eq_true_iff]

theorem nodup_missing (P : Csc α) : P.missing.Nodup := List.nodup_range.filter _

theorem missingDiagonal_eq (hP : P.WellFormed) : P.missingDiagonal = .ok P.missing := by
  have hcolumn : ∀ j ∈ List.range P.ncols, (do
      if (← P.columnRows j).contains j then return none else return some j : Checked (Option ℕ)) =
        .ok (Option.guard (P.LacksDiagonal ·) j) := by
    intro j hj
    rw [hP.columnRows_eq (List.mem_range.mp hj), ok_bind]
    by_cases hlacks : P.LacksDiagonal j
    · rw [if_neg (mt List.contains_iff_mem.mp hlacks)]
      simp [Option.guard, hlacks]
    · rw [if_pos (List.contains_iff_mem.mpr (not_not.mp hlacks))]
      simp [Option.guard, hlacks]
  rw [missingDiagonal, hP.columnIndices_eq, filterMapM_eq_ok hcolumn, missing]
  exact congrArg _ (congrFun List.filterMap_eq_filter _)

theorem columnCounts_eq (hP : P.WellFormed) : P.columnCounts =
    .ok ((List.range P.ncols).map fun j => (j, (P.cols.getD j []).length)) := by
  rw [columnCounts, hP.columnIndices_eq]
  refine mapM_eq_ok fun j hj => ?_
  have hj := List.mem_range.mp hj
  rw [hP.span_eq hj, ok_bind]
  dsimp only
  rw [require_eq_ok (hP.start_mono (Nat.le_succ j) hj), ok_bind, hP.length_col hj, pure_eq_ok]

end Csc

namespace Kkt

variable {α : Type} [Scalar α] {P A : Csc α} {shift : α}

/-! ## Counting -/

/-- The entries of all blocks but the lower diagonal. -/
def upper (P A : Csc α) : List (Entry α) :=
  P.entryList ++ P.missing.map (fun j => ⟨j, j, 0⟩) ++
    A.entryList.map fun e => ⟨e.col, A.ncols + e.row, e.value⟩

/-- **All entries,** in the order in which they are put. -/
def allEntries (P A : Csc α) : List (Entry α) := upper P A ++ lowerEntries A.ncols A.nrows

theorem upperEntries_eq (hP : P.WellFormed) (hA : A.WellFormed) :
    upperEntries P A P.missing = .ok (upper P A) := by
  rw [upperEntries, hP.entries_eq, ok_bind, hA.entries_eq]
  rfl

/-- A leading column before it is shifted. -/
def fullColumn (P : Csc α) (j : ℕ) : List (ℕ × α) :=
  P.cols.getD j [] ++ if P.LacksDiagonal j then [(j, 0)] else []

theorem column_lowerEntries (n m j : ℕ) : Filling.column (lowerEntries (α := α) n m) j =
    if n ≤ j ∧ j < n + m then [(j, 0)] else [] := by
  rw [lowerEntries]
  induction m with
  | zero =>
    rw [if_neg (by omega)]
    rfl
  | succ m ih =>
    rw [List.range_succ, List.map_append, List.map_singleton, Filling.column_concat, ih]
    by_cases hj : n + m = j
    · subst hj
      rw [if_pos rfl, if_neg (by omega), if_pos (by omega)]
      rfl
    · rw [if_neg hj]
      exact if_congr (by omega) rfl rfl

theorem column_missing (P : Csc α) (j : ℕ) :
    Filling.column (P.missing.map fun j => (⟨j, j, 0⟩ : Entry α)) j =
      if j < P.ncols ∧ P.LacksDiagonal j then [(j, 0)] else [] := by
  rw [Filling.column_eq_filter, List.filter_map, List.map_map]
  have hfilter : P.missing.filter ((fun e : Entry α => decide (e.col = j)) ∘ fun j => ⟨j, j, 0⟩) =
      if j ∈ P.missing then [j] else [] := by
    refine (List.filter_eq j).trans ?_
    rw [P.nodup_missing.count]
    split_ifs <;> rfl
  rw [hfilter]
  simp only [Csc.mem_missing]
  split_ifs <;> rfl

omit [Scalar α] in
/-- The rows of `A`, in the columns of the constraints. -/
theorem column_rows (A : Csc α) (j : ℕ) :
    Filling.column (A.entryList.map fun e => ⟨e.col, A.ncols + e.row, e.value⟩) j =
      if A.ncols ≤ j then rowOf A (j - A.ncols) else [] := by
  rw [Filling.column_eq_filter, List.filter_map, List.map_map, rowOf, Csc.bin, List.filter_map,
    List.map_map]
  split_ifs with hj
  · refine congrArg (List.map _) (List.filter_congr fun e _ => decide_eq_decide.mpr ?_)
    simp only
    omega
  · rw [List.map_eq_nil_iff, List.filter_eq_nil_iff]
    intro e _
    simp
    omega

section Columns

variable (hsq : P.nrows = A.ncols ∧ P.ncols = A.ncols)

include hsq

theorem column_upper_leading {j : ℕ} (hj : j < A.ncols) :
    Filling.column (upper P A) j = fullColumn P j := by
  rw [upper, Filling.column_append, Filling.column_append, Filling.column_entryList,
    column_missing, column_rows, if_neg (by omega : ¬ A.ncols ≤ j), List.append_nil, fullColumn]
  congr 1
  exact if_congr (and_iff_right (by omega)) rfl rfl

theorem column_upper_trailing (i : ℕ) :
    Filling.column (upper P A) (A.ncols + i) = rowOf A i := by
  rw [upper, Filling.column_append, Filling.column_append, Filling.column_entryList,
    column_missing, column_rows, if_neg (by omega), if_pos (by omega), Nat.add_sub_cancel_left,
    List.getD_eq_default _ _ (by rw [Csc.length_cols]; omega)]
  rfl

theorem column_leading {j : ℕ} (hj : j < A.ncols) :
    Filling.column (allEntries P A) j = fullColumn P j := by
  rw [allEntries, Filling.column_append, column_upper_leading hsq hj, column_lowerEntries,
    if_neg (by omega), List.append_nil]

theorem column_trailing {i : ℕ} (hi : i < A.nrows) :
    Filling.column (allEntries P A) (A.ncols + i) = rowOf A i ++ [(A.ncols + i, 0)] := by
  rw [allEntries, Filling.column_append, column_upper_trailing hsq, column_lowerEntries,
    if_pos (by omega)]

theorem inside_allEntries (hP : P.WellFormed) (hA : A.WellFormed) :
    ∀ e ∈ allEntries P A, e.row < A.ncols + A.nrows ∧ e.col < A.ncols + A.nrows := by
  intro e he
  simp only [allEntries, upper, lowerEntries, List.mem_append, List.mem_map, List.mem_range] at he
  rcases he with ((he | ⟨j, hj, rfl⟩) | ⟨e, he, rfl⟩) | ⟨i, hi, rfl⟩
  · have := hP.row_lt_of_mem he
    have := Csc.col_lt_of_mem he
    omega
  · have := (Csc.mem_missing.mp hj).1
    simp only
    omega
  · have := hA.row_lt_of_mem he
    have := Csc.col_lt_of_mem he
    simp only
    omega
  · simp only
    omega

omit [Scalar α] hsq in
/-- A column of `P` is counted with as many entries as it has. -/
theorem sum_bin_cols (P : Csc α) (j : ℕ) :
    (Csc.bin ((List.range P.ncols).map fun j => (j, (P.cols.getD j []).length)) j).sum =
      (P.cols.getD j []).length := by
  rw [Csc.sum_bin_range]
  split_ifs with hj
  · rfl
  · rw [List.getD_eq_default _ _ (by rw [Csc.length_cols]; omega)]
    rfl

omit [Scalar α] in
/-- What is counted, column by column, block after block. -/
def counted (P A : Csc α) : List (ℕ × ℕ) :=
  ((List.range P.ncols).map fun j => (j, (P.cols.getD j []).length)) ++ P.missing.map (·, 1) ++
    (A.entryList.map fun e => (A.ncols + e.row, 1)) ++ (List.range A.nrows).map (A.ncols + ·, 1)

omit hsq in
/-- Each block is counted as it is put. -/
theorem sum_bin_counted (P A : Csc α) (j : ℕ) :
    (Csc.bin (counted P A) j).sum = (Filling.column (allEntries P A) j).length := by
  rw [counted, Csc.bin_append_append, Csc.bin_append_append, Csc.bin_append_append,
    List.sum_append, List.sum_append, List.sum_append, sum_bin_cols, Csc.sum_bin_ones,
    Csc.sum_bin_ones, Csc.sum_bin_ones, allEntries, upper, Filling.column_append,
    Filling.column_append, Filling.column_append, List.length_append, List.length_append,
    List.length_append, Filling.column_entryList, Filling.length_column, Filling.length_column,
    Filling.length_column, lowerEntries, List.countP_map, List.countP_map, List.countP_map]
  rfl

omit [Scalar α] in
theorem inside_counted (hA : A.WellFormed) :
    ∀ x ∈ counted P A, x.1 < A.ncols + A.nrows + 1 := by
  intro x hx
  simp only [counted, List.mem_append, List.mem_map, List.mem_range] at hx
  rcases hx with ((⟨j, hj, rfl⟩ | ⟨j, hj, rfl⟩) | ⟨e, he, rfl⟩) | ⟨i, hi, rfl⟩
  · simp only
    omega
  · have := (Csc.mem_missing.mp hj).1
    simp only
    omega
  · have := hA.row_lt_of_mem he
    simp only
    omega
  · simp only
    omega

/-- **What is counted is what will be put.** -/
theorem counts_ensures (hP : P.WellFormed) (hA : A.WellFormed) :
    Ensures (counts P A P.missing) fun c => c.toList =
      (List.range (A.ncols + A.nrows + 1)).map fun j =>
        (Filling.column (allEntries P A) j).length := by
  have hrows : A.rowIndex.toList.map (fun i => (A.ncols + i, 1)) =
      A.entryList.map fun e => (A.ncols + e.row, 1) := by
    rw [← hA.map_row_entryList, List.map_map]
    rfl
  have htally := tally_zeros_ensures (inside_counted hsq hA)
  simp only [sum_bin_counted] at htally
  rw [counts, Csc.columnCounts_eq hP, ok_bind, hrows]
  exact htally

end Columns

end Kkt

end SplitQP
