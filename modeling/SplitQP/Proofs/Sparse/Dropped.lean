import SplitQP.Proofs.Sparse.Columns
import SplitQP.Sparse.Reshape
/-!
# Sparse matrices — without small entries

Dropping small entries works on storage positions. It comes to the same as
filtering every column (`dropSmall_eq`): what is left is the matrix built
from the filtered columns, and the count is what is missing.
-/

namespace SplitQP

open Checked

namespace Csc

variable {α : Type}

/-- One more column starts one more running total. -/
theorem startsFrom_concat (cols : List (List (ℕ × α))) (col : List (ℕ × α)) (total : ℕ) :
    startsFrom total (cols ++ [col]) =
      startsFrom total cols ++ [total + (cols.flatten.length + col.length)] := by
  induction cols generalizing total with
  | nil => simp [startsFrom]
  | cons c cols ih =>
    rw [List.cons_append, startsFrom, ih, startsFrom, List.flatten_cons, List.length_append,
      List.cons_append]
    simp only [Nat.add_assoc]

variable [Scalar α] {A : Csc α} {threshold : α}

/-- A column without its small entries. -/
def keptColumn (threshold : α) (col : List (ℕ × α)) : List (ℕ × α) :=
  col.filter fun p => isKept threshold p.2

/-- **The matrix without its small entries.** -/
def withoutSmall (A : Csc α) (threshold : α) : Csc α :=
  ofColumns A.nrows (A.cols.map (keptColumn threshold))

/-- **The columns before `j` are filtered** and the next to be read is `j`. -/
structure DroppedUpTo (A : Csc α) (threshold : α) (j : ℕ) (s : DropState α) : Prop where
  position_eq : s.position = A.start j
  kept_eq : s.kept.toList = ((A.cols.take j).map (keptColumn threshold)).flatten
  ends_eq : 0 :: s.ends.toList = startsFrom 0 ((A.cols.take j).map (keptColumn threshold))

/-- One more column. -/
theorem DroppedUpTo.step_ensures {j : ℕ} {s : DropState α} (h : DroppedUpTo A threshold j s)
    (hA : A.WellFormed) (hj : j < A.ncols) :
    Ensures (A.dropInColumn threshold s j) (DroppedUpTo A threshold (j + 1)) := by
  have hstop : A.start (j + 1) ≤ A.rowIndex.size := hA.start_le hj
  have hmono : A.start j ≤ A.start (j + 1) := hA.start_mono (Nat.le_succ j) hj
  have htake : (A.cols.take (j + 1)).map (keptColumn threshold) =
      (A.cols.take j).map (keptColumn threshold) ++ [keptColumn threshold (A.cols.getD j [])] := by
    rw [List.getD_eq_getElem _ _ (by rwa [length_cols]),
      List.take_succ_eq_append_getElem (by rwa [length_cols]), List.map_append, List.map_singleton]
  rw [dropInColumn, read_eq_ok_getD 0 (by rw [hA.size_colStart]; omega), ok_bind,
    require_eq_ok (.inr ⟨hstop, hA.size_value ▸ hstop⟩), ok_bind]
  have hkept : ((s.kept ++ ((A.rowIndex.extract s.position (A.start (j + 1))).zip
      (A.value.extract s.position (A.start (j + 1)))).filter (isKept threshold ·.2))).toList =
      ((A.cols.take j).map (keptColumn threshold)).flatten ++
        keptColumn threshold (A.cols.getD j []) := by
    rw [Array.toList_append, Array.toList_filter, h.kept_eq, h.position_eq, toList_slice hj]
    rfl
  refine .ok ⟨?_, ?_, ?_⟩
  · change max s.position (A.start (j + 1)) = A.start (j + 1)
    rw [h.position_eq, max_eq_right hmono]
  · rw [htake, List.flatten_append, List.flatten_singleton]
    exact hkept
  · rw [htake, startsFrom_concat, ← h.ends_eq, Array.toList_push, ← List.length_append,
      Nat.zero_add, List.cons_append]
    exact congrArg (fun kept => 0 :: (s.ends.toList ++ [kept])) (congrArg List.length hkept)

namespace DroppedUpTo

variable {s : DropState α} (h : DroppedUpTo A threshold A.ncols s)

include h

/-- In the end all columns are filtered. -/
theorem kept_eq_flatten : s.kept.toList = (A.cols.map (keptColumn threshold)).flatten := by
  rw [h.kept_eq, List.take_of_length_le (length_cols A).le]

/-- **The first column start is kept,** the others are the ends of the columns before. -/
theorem colStart_eq (hA : A.WellFormed) :
    A.colStart.take 1 ++ s.ends ++ A.colStart.drop (1 + s.ends.size) =
      (A.withoutSmall threshold).colStart := by
  have hends := h.ends_eq
  rw [List.take_of_length_le (length_cols A).le] at hends
  have hsize : s.ends.size = A.ncols := by
    have hlength := congrArg List.length hends
    rw [length_startsFrom, List.length_cons, List.length_map, length_cols] at hlength
    exact Nat.succ.inj hlength
  have hfirst : A.colStart.toList.take 1 = [0] := by
    have hzero := (start_eq_iff (A := A) (j := 0) (by rw [hA.size_colStart]; omega)).mpr
      hA.start_zero
    rw [List.take_one, List.head?_eq_getElem?, Array.getElem?_toList, hzero]
    rfl
  have hnone : A.colStart.drop (1 + s.ends.size) = #[] := by
    rw [Array.drop_eq_extract]
    exact Array.extract_empty_of_size_le_start (by rw [hA.size_colStart, hsize]; omega)
  apply Array.toList_inj.mp
  rw [hnone, Array.append_empty, Array.toList_append, Array.take_eq_extract,
    Array.toList_extract, List.extract_eq_take_drop, List.drop_zero, Nat.sub_zero, hfirst]
  exact hends

end DroppedUpTo

/-- **What dropping small entries answers.** -/
theorem dropSmall_eq (hA : A.WellFormed) (threshold : α) : A.dropSmall threshold =
    .ok (A.withoutSmall threshold,
      A.rowIndex.size - (A.withoutSmall threshold).rowIndex.size) := by
  obtain ⟨s, hloop, h⟩ := ensures_foldlM_range (n := A.ncols) (f := A.dropInColumn threshold)
    (s := ⟨0, #[], #[]⟩) (I := DroppedUpTo A threshold)
    ⟨hA.start_zero.symm, rfl, rfl⟩ fun j s hj hs => hs.step_ensures hA hj
  have hparts : ∀ {β : Type} (f : ℕ × α → β), s.kept.map f =
      ((A.cols.map (keptColumn threshold)).flatten.map f).toArray := by
    intro β f
    rw [← h.kept_eq_flatten, ← List.map_toArray]
  have hncols : (A.cols.map (keptColumn threshold)).length = A.ncols := by
    rw [List.length_map, length_cols]
  rw [dropSmall, hA.columnIndices_eq, hloop, ok_bind, h.colStart_eq hA, hparts, hparts]
  simp only [withoutSmall, ofColumns, hncols, List.size_toArray, List.length_map,
    ← h.kept_eq_flatten, Array.length_toList]
  rfl

@[simp] theorem ncols_withoutSmall : (A.withoutSmall threshold).ncols = A.ncols := by
  simp [withoutSmall]

@[simp] theorem cols_withoutSmall :
    (A.withoutSmall threshold).cols = A.cols.map (keptColumn threshold) := cols_ofColumns

theorem wellFormed_withoutSmall (hA : A.WellFormed) (threshold : α) :
    (A.withoutSmall threshold).WellFormed := by
  refine wellFormed_ofColumns fun col hcol e he => ?_
  obtain ⟨col', hcol', rfl⟩ := List.mem_map.mp hcol
  exact hA.mem_cols_lt hcol' (List.mem_filter.mp he).1

/-- Dropping entries leaves no more than there were. -/
theorem size_withoutSmall_le (hA : A.WellFormed) (threshold : α) :
    (A.withoutSmall threshold).rowIndex.size ≤ A.rowIndex.size := by
  have hwf := wellFormed_withoutSmall hA threshold
  rw [← hA.length_pairs, ← hA.flatten_cols, ← hwf.length_pairs, ← hwf.flatten_cols,
    cols_withoutSmall]
  exact le_of_eq_of_le (congrArg List.length List.filter_flatten.symm) (List.length_filter_le _ _)

end Csc

end SplitQP
