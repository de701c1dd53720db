import SplitQP.Proofs.Admm.Kkt
import SplitQP.Proofs.Sparse.Canonical
import SplitQP.Proofs.Sparse.Reordered
/-!
# The blocks of the KKT matrix, entry by entry

Looking up an entry of the KKT matrix is looking up an entry of `P` or of
`A`, with the same additions in the same order (`Blocks`). Only on the
diagonal of `P` are numbers changed: the shift is added to the first entry
there. So where one place is given twice the diagonal is that of
`P + shift·I` up to the order of additions.
-/

namespace SplitQP

open Checked

namespace Kkt

variable {α : Type} [Scalar α] {P A K : Csc α} {shift : α}

/-! ## Columns -/

/-- Elsewhere a leading column holds what the column of `P` holds. -/
theorem valueAt_leadingColumn_of_ne {i j : ℕ} (hij : i ≠ j) (col : List (ℕ × α)) :
    Csc.valueAt i (leadingColumn shift (col, j)) = Csc.valueAt i col := by
  have hshift : ∀ col : List (ℕ × α),
      (shiftDiagonal shift j col).filter (·.1 = i) = col.filter (·.1 = i) := by
    intro col
    induction col with
    | nil => rfl
    | cons p col ih =>
      rw [shiftDiagonal]
      split_ifs with hp
      · rw [List.filter_cons_of_neg (by simp; omega), List.filter_cons_of_neg (by simp; omega)]
      · rw [List.filter_cons, List.filter_cons, ih]
  rw [Csc.valueAt, leadingColumn, hshift, Csc.valueAt]
  split_ifs with hany
  · rfl
  · rw [List.filter_append, List.filter_cons_of_neg (by simpa using hij.symm), List.filter_nil,
      List.append_nil]

/-- The diagonal numbers of column `j`; one of them is zero where none is stored. -/
def diagonalValues (j : ℕ) (col : List (ℕ × α)) : List α :=
  match (col.filter (·.1 = j)).map (·.2) with
  | [] => [0]
  | v :: vs => v :: vs

/-- Adds `shift` to the first number. -/
def shiftFirst (shift : α) : List α → List α
  | [] => []
  | v :: vs => (v + shift) :: vs

theorem map_filter_shiftDiagonal (j : ℕ) (col : List (ℕ × α)) :
    ((shiftDiagonal shift j col).filter (·.1 = j)).map (·.2) =
      shiftFirst shift ((col.filter (·.1 = j)).map (·.2)) := by
  induction col with
  | nil => rfl
  | cons p col ih =>
    rw [shiftDiagonal]
    split_ifs with hp
    · rw [List.filter_cons_of_pos (by simpa using hp), List.filter_cons_of_pos (by simpa using hp)]
      rfl
    · rw [List.filter_cons_of_neg (by simpa using hp), List.filter_cons_of_neg (by simpa using hp),
        ih]

/-- **On the diagonal** a leading column holds the numbers of `P`, the first of them shifted. -/
theorem valueAt_leadingColumn_self (j : ℕ) (col : List (ℕ × α)) :
    Csc.valueAt j (leadingColumn shift (col, j)) =
      Csc.total (shiftFirst shift (diagonalValues j col)) := by
  rw [Csc.valueAt, leadingColumn, map_filter_shiftDiagonal, diagonalValues]
  split_ifs with hany
  · cases hvalues : (col.filter (·.1 = j)).map (·.2) with
    | cons v vs => rfl
    | nil =>
      obtain ⟨p, hp, hpj⟩ := List.any_eq_true.mp hany
      rw [List.map_eq_nil_iff, List.filter_eq_nil_iff] at hvalues
      exact absurd hpj (hvalues p hp)
  · have hnone : col.filter (·.1 = j) = [] := by
      rw [List.filter_eq_nil_iff]
      intro p hp hpj
      exact hany (List.any_eq_true.mpr ⟨p, hp, hpj⟩)
    rw [List.filter_append, hnone, List.nil_append,
      List.filter_cons_of_pos (by simp), List.filter_nil]
    rfl

/-- Where only one number is stored, or additions can be reordered, the shift is added to the
sum. -/
theorem total_shiftFirst {vs : List α} (h : vs.length ≤ 1 ∨ ExactAddition α) :
    Csc.total (shiftFirst shift vs) = (Csc.total vs).map (· + shift) := by
  rcases vs with - | ⟨v, vs⟩
  · rfl
  have hfold : ∀ w : α, vs.foldl (· + ·) (w + shift) = vs.foldl (· + ·) w + shift := by
    rcases h with hshort | hexact
    · obtain rfl : vs = [] := by simpa using hshort
      exact fun _ => rfl
    · induction vs with
      | nil => exact fun _ => rfl
      | cons x vs ih =>
        intro w
        rw [List.foldl_cons, List.foldl_cons, hexact.right_comm, ih]
  exact congrArg some (hfold v)

/-- The diagonal numbers add up to the diagonal entry, or to zero. -/
theorem total_diagonalValues (j : ℕ) (col : List (ℕ × α)) :
    Csc.total (diagonalValues j col) = some ((Csc.valueAt j col).getD 0) := by
  rw [diagonalValues, Csc.valueAt]
  cases (col.filter (·.1 = j)).map (·.2) with
  | nil => rfl
  | cons v vs => rfl

omit [Scalar α] in
/-- A row of `A` and a column of `A` meet in the same entries. -/
theorem map_filter_rowOf (A : Csc α) (i k : ℕ) :
    ((rowOf A k).filter (·.1 = i)).map (·.2) =
      ((A.cols.getD i []).filter (·.1 = k)).map (·.2) := by
  have hcol := congrArg (fun es : List (Entry α) => (es.filter (·.row = k)).map (·.value))
    (A.filter_col_entryList i)
  simp only [List.filter_filter, List.filter_map, List.map_map] at hcol
  simp only [rowOf, Csc.bin, List.filter_filter, List.filter_map, List.map_map]
  refine Eq.trans ?_ hcol
  exact congrArg (List.map _) (List.filter_congr fun e _ => Bool.and_comm _ _)

/-- Nothing but the lower diagonal is in the rows of the constraints. -/
theorem valueAt_rowOf_eq_none (A : Csc α) (k l : ℕ) :
    Csc.valueAt (A.ncols + k) (rowOf A l) = none := by
  rw [Csc.valueAt_eq_none_iff, List.mem_map]
  rintro ⟨p, hp, hrow⟩
  obtain ⟨e, he, heq⟩ := List.mem_map.mp (Csc.mem_bin.mp hp)
  have := Csc.col_lt_of_mem he
  simp only [Prod.mk.injEq] at heq
  rw [← heq.2] at hrow
  simp only at hrow
  omega

/-! ## Entries -/

/-- **`K` has the blocks `P + shift·I`, `Aᵀ` and `-diag(d)`,** and nothing below the diagonal. -/
structure Blocks (P A : Csc α) (shift : α) (d : Array α) (K : Csc α) : Prop where
  leading : ∀ i j, i < A.ncols → j < A.ncols → i ≠ j → K.entry? i j = P.entry? i j
  diagonal : ∀ j < A.ncols, K.entry? j j =
    .ok (Csc.total (shiftFirst shift (diagonalValues j (P.cols.getD j []))))
  diagonal_of_exact : ∀ j < A.ncols,
    (diagonalValues j (P.cols.getD j [])).length ≤ 1 ∨ ExactAddition α →
    ∃ p, P.entry? j j = .ok p ∧ K.entry? j j = .ok (some (p.getD 0 + shift))
  cross : ∀ i k, i < A.ncols → k < A.nrows → K.entry? i (A.ncols + k) = A.entry? k i
  below : ∀ i k, i < A.ncols → k < A.nrows → K.entry? (A.ncols + k) i = .ok none
  lower : ∀ k l, k < A.nrows → l < A.nrows → K.entry? (A.ncols + k) (A.ncols + l) =
    .ok (if k = l then some (-d.getD k 0) else none)

namespace Shape

variable (h : Shape P A) {d : Array α} (hd : d.size = A.nrows)

include h hd

theorem entry?_matrix {i j : ℕ} (hi : i < A.ncols + A.nrows) (hj : j < A.ncols + A.nrows) :
    Csc.entry? (matrix P A shift d.toList) i j =
      .ok (Csc.valueAt i ((matrix P A shift d.toList).cols.getD j [])) := by
  have hd' : d.toList.length = A.nrows := by simpa using hd
  rw [(wellFormed_matrix h.square hd' h.wellFormed_P).entry?_eq, if_pos]
  exact ⟨hi, by rwa [ncols_matrix h.square hd']⟩

/-- **The KKT matrix has its blocks.** -/
theorem blocks_matrix : Blocks P A shift d (matrix P A shift d.toList) := by
  have hd' : d.toList.length = A.nrows := by simpa using hd
  have hP := h.wellFormed_P
  have hA := h.wellFormed_A
  obtain ⟨hrows, hcols⟩ := h.square
  have hentry : ∀ {i j : ℕ}, i < A.ncols → j < A.ncols →
      P.entry? i j = .ok (Csc.valueAt i (P.cols.getD j [])) := fun hi hj => by
    rw [hP.entry?_eq, if_pos (by omega)]
  constructor
  · intro i j hi hj hij
    rw [h.entry?_matrix hd (by omega) (by omega), getD_cols_matrix_leading h.square hj,
      valueAt_leadingColumn_of_ne hij, hentry hi hj]
  · intro j hj
    rw [h.entry?_matrix hd (by omega) (by omega), getD_cols_matrix_leading h.square hj,
      valueAt_leadingColumn_self]
  · intro j hj hexact
    refine ⟨_, hentry hj hj, ?_⟩
    rw [h.entry?_matrix hd (by omega) (by omega), getD_cols_matrix_leading h.square hj,
      valueAt_leadingColumn_self, total_shiftFirst hexact, total_diagonalValues]
    rfl
  · intro i k hi hk
    rw [h.entry?_matrix hd (by omega) (by omega), getD_cols_matrix_trailing h.square hd' hk 0,
      Csc.valueAt_concat, if_neg (by omega), Csc.valueAt, map_filter_rowOf, hA.entry?_eq,
      if_pos ⟨hk, hi⟩, Csc.valueAt]
  · intro i k hi hk
    -- the rows of `P` end above the constraints
    have hnone : Csc.valueAt (A.ncols + k) (P.cols.getD i []) = none := by
      rw [Csc.valueAt_eq_none_iff, List.mem_map]
      rintro ⟨p, hp, hrow⟩
      have hi' : i < P.cols.length := by simpa using by omega
      rw [List.getD_eq_getElem _ _ hi'] at hp
      have := hP.mem_cols_lt (List.getElem_mem hi') hp
      omega
    rw [h.entry?_matrix hd (by omega) (by omega), getD_cols_matrix_leading h.square hi,
      valueAt_leadingColumn_of_ne (by omega), hnone]
  · intro k l hk hl
    rw [h.entry?_matrix hd (by omega) (by omega), getD_cols_matrix_trailing h.square hd' hl 0,
      Csc.valueAt_concat, valueAt_rowOf_eq_none]
    by_cases hkl : k = l
    · subst hkl
      rw [if_pos rfl, if_pos rfl]
      simp [Csc.addTo, Array.getD_eq_getD_getElem?]
    · rw [if_neg (by omega), if_neg hkl]

end Shape

end Kkt

end SplitQP
