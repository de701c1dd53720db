import SplitQP.Proofs.Sparse.Build
import SplitQP.Proofs.Factor.Quasidefinite
import SplitQP.Admm.Kkt
/-!
# The KKT matrix

`assemble` answers a well-formed upper triangle with a diagonal
(`assemble_eq_ok` and what follows it), and the recorded positions are
those of the lower diagonal: overwriting them is assembling with other
numbers (`overwrite_positions`). In exact arithmetic the symmetric
completion has the four blocks `P + shift·I`, `Aᵀ`, `A` and `-diag(d)`;
with `P` semidefinite and `shift` and `d` positive it is quasidefinite
(`isQuasidefinite_matrix`).
-/

namespace SplitQP

open Checked SplitQP.Dense Finset

/-- Every square pattern gets an order. -/
def EliminationOrder.Permutes (α : Type) (order : EliminationOrder) : Prop :=
  ∀ A : Csc α, A.WellFormed → A.nrows = A.ncols →
    ∃ perm, order.choose A = .ok perm ∧ IsOrder A.ncols perm

namespace Kkt

/-! ## Columns -/

section Generic

variable {α : Type} [Scalar α] {P A : Csc α} {shift : α}

/-- The columns of `P`, shifted. -/
def leading (P : Csc α) (shift : α) : List (List (ℕ × α)) :=
  P.cols.zipIdx.map (leadingColumn shift)

omit [Scalar α] in
/-- The rows of `A` as `(column, value)` pairs. -/
def rowItems (A : Csc α) : List (List (ℕ × α)) :=
  Csc.distribute A.nrows (A.entryList.map fun e => (e.row, (e.col, e.value)))

omit [Scalar α] in
/-- Row `i` of `A` as `(column, value)` pairs. -/
def rowOf (A : Csc α) (i : ℕ) : List (ℕ × α) :=
  Csc.bin (A.entryList.map fun e => (e.row, (e.col, e.value))) i

/-- The rows of `A` with the lower diagonal. -/
def trailing (A : Csc α) (d : List α) : List (List (ℕ × α)) :=
  ((rowItems A).zipIdx.zip d).map (trailingColumn A.ncols)

/-- **The KKT matrix.** -/
def matrix (P A : Csc α) (shift : α) (d : List α) : Csc α :=
  Csc.ofColumns (A.ncols + A.nrows) (leading P shift ++ trailing A d)

/-- The last positions of the trailing columns. -/
def lowerPositions (P A : Csc α) (shift : α) (d : List α) : Array ℕ :=
  ((List.range A.nrows).map fun i => (matrix P A shift d).start (A.ncols + i + 1) - 1).toArray

/-- **What assembling answers.** -/
theorem assemble_eq_ok (hP : P.WellFormed) (hA : A.WellFormed)
    (hsq : P.nrows = A.ncols ∧ P.ncols = A.ncols) {d : Array α} (hd : d.size = A.nrows) :
    assemble P A shift d =
      .ok (matrix P A shift d.toList, lowerPositions P A shift d.toList) := by
  have hrows : (A.entryList.all (·.row < A.nrows)) = true := by
    simp only [List.all_eq_true, decide_eq_true_eq]
    exact fun e he => hA.row_lt_of_mem he
  rw [assemble]
  dsimp only
  rw [require_eq_ok hsq, ok_bind, require_eq_ok hd, ok_bind, hP.columns_eq, ok_bind, hA.entries_eq,
    ok_bind, require_eq_ok hrows, ok_bind]
  rfl

@[simp] theorem length_leading : (leading P shift).length = P.ncols := by simp [leading]

theorem length_trailing {d : List α} (hd : d.length = A.nrows) :
    (trailing A d).length = A.nrows := by simp [trailing, rowItems, hd]

theorem getD_leading {j : ℕ} (hj : j < P.ncols) :
    (leading P shift).getD j [] = leadingColumn shift (P.cols.getD j [], j) := by
  rw [List.getD_eq_getElem _ _ (by simpa using hj), List.getD_eq_getElem _ _ (by simpa using hj)]
  simp [leading]

theorem getD_trailing {d : List α} (hd : d.length = A.nrows) {i : ℕ} (hi : i < A.nrows) (x : α) :
    (trailing A d).getD i [] =
      rowOf A i ++ [(A.ncols + i, -d.getD i x)] := by
  rw [List.getD_eq_getElem _ _ (by rw [length_trailing hd]; exact hi),
    List.getD_eq_getElem _ _ (by omega)]
  simp [trailing, rowItems, rowOf, trailingColumn, Csc.distribute_eq]

theorem map_fst_shiftDiagonal (j : ℕ) (col : List (ℕ × α)) :
    (shiftDiagonal shift j col).map (·.1) = col.map (·.1) := by
  induction col with
  | nil => rfl
  | cons p col ih =>
    rw [shiftDiagonal]
    split_ifs with h
    · rfl
    · rw [List.map_cons, ih, List.map_cons]

/-- The rows of a leading column are those of `P` and the diagonal. -/
theorem mem_rows_leadingColumn {col : List (ℕ × α)} {i j : ℕ} :
    i ∈ (leadingColumn shift (col, j)).map (·.1) ↔ i = j ∨ i ∈ col.map (·.1) := by
  rw [leadingColumn, map_fst_shiftDiagonal]
  split_ifs with h
  · constructor
    · exact .inr
    · rintro (rfl | hi)
      · obtain ⟨p, hp, hpi⟩ := List.any_eq_true.mp h
        exact List.mem_map.mpr ⟨p, hp, by simpa using hpi⟩
      · exact hi
  · rw [List.map_append, List.mem_append]
    simp [or_comm]

section Shape

variable (hsq : P.nrows = A.ncols ∧ P.ncols = A.ncols) {d : List α} (hd : d.length = A.nrows)

include hsq hd

theorem ncols_matrix : (matrix P A shift d).ncols = A.ncols + A.nrows := by
  rw [matrix, Csc.ncols_ofColumns, List.length_append, length_leading, length_trailing hd, hsq.2]

omit hd in
theorem getD_cols_matrix_leading {j : ℕ} (hj : j < A.ncols) :
    (matrix P A shift d).cols.getD j [] = leadingColumn shift (P.cols.getD j [], j) := by
  rw [matrix, Csc.cols_ofColumns,
    List.getD_append _ _ _ _ (by rw [length_leading, hsq.2]; exact hj),
    getD_leading (by rw [hsq.2]; exact hj)]

theorem getD_cols_matrix_trailing {i : ℕ} (hi : i < A.nrows) (x : α) :
    (matrix P A shift d).cols.getD (A.ncols + i) [] =
      rowOf A i ++ [(A.ncols + i, -d.getD i x)] := by
  rw [matrix, Csc.cols_ofColumns,
    List.getD_append_right _ _ _ _ (by rw [length_leading, hsq.2]; omega), length_leading, hsq.2,
    Nat.add_sub_cancel_left, getD_trailing hd hi]

theorem mem_cols_matrix {col : List (ℕ × α)} (hcol : col ∈ (matrix P A shift d).cols) :
    (∃ j < A.ncols, col = leadingColumn shift (P.cols.getD j [], j)) ∨
      ∃ i < A.nrows, col = rowOf A i ++ [(A.ncols + i, -d.getD i 0)] := by
  obtain ⟨j, hj, rfl⟩ := List.mem_iff_getElem.mp hcol
  rw [Csc.length_cols, ncols_matrix hsq hd] at hj
  rw [← List.getD_eq_getElem _ []]
  rcases Nat.lt_or_ge j A.ncols with hlt | hge
  · exact .inl ⟨j, hlt, getD_cols_matrix_leading hsq hlt⟩
  · obtain ⟨i, rfl⟩ := Nat.exists_eq_add_of_le hge
    exact .inr ⟨i, by omega, getD_cols_matrix_trailing hsq hd (by omega) 0⟩

theorem wellFormed_matrix (hP : P.WellFormed) : (matrix P A shift d).WellFormed := by
  refine Csc.wellFormed_ofColumns fun col hcol p hp => ?_
  have hcol' : col ∈ (matrix P A shift d).cols := by rwa [matrix, Csc.cols_ofColumns]
  rcases mem_cols_matrix hsq hd hcol' with ⟨j, hj, rfl⟩ | ⟨i, hi, rfl⟩
  · rcases mem_rows_leadingColumn.mp (List.mem_map_of_mem hp) with hrow | hrow
    · omega
    · obtain ⟨p', hp', hrow'⟩ := List.mem_map.mp hrow
      have := hP.mem_cols_lt (List.getElem_mem (l := P.cols) (n := j) (by simp; omega))
        (by rw [← List.getD_eq_getElem _ []]; exact hp')
      omega
  · rcases List.mem_append.mp hp with hp | hp
    · obtain ⟨e, he, heq⟩ := List.mem_map.mp (Csc.mem_bin.mp hp)
      have := Csc.col_lt_of_mem he
      simp only [Prod.mk.injEq] at heq
      rw [← heq.2]
      simp only
      omega
    · rw [List.mem_singleton] at hp
      rw [hp]
      simp only
      omega

theorem isUpperTriangular_matrix (hP : P.IsUpperTriangular) :
    (matrix P A shift d).IsUpperTriangular := by
  intro e he
  obtain ⟨hlt, hmem⟩ := Csc.mem_entriesOf.mp he
  rw [← List.getD_eq_getElem _ []] at hmem
  rw [Csc.length_cols, ncols_matrix hsq hd] at hlt
  rcases Nat.lt_or_ge e.col A.ncols with hcol | hcol
  · rw [getD_cols_matrix_leading hsq hcol] at hmem
    rcases mem_rows_leadingColumn.mp (List.mem_map_of_mem hmem) with hrow | hrow
    · exact hrow.le
    · obtain ⟨p', hp', hrow'⟩ := List.mem_map.mp hrow
      have hj : e.col < P.cols.length := by simp; omega
      rw [List.getD_eq_getElem _ _ hj] at hp'
      have := hP ⟨p'.1, e.col, p'.2⟩ (Csc.mem_entriesOf.mpr ⟨hj, hp'⟩)
      simp only at this hrow'
      omega
  · obtain ⟨i, hi⟩ := Nat.exists_eq_add_of_le hcol
    rw [hi, getD_cols_matrix_trailing hsq hd (by omega) 0] at hmem
    rcases List.mem_append.mp hmem with hp | hp
    · obtain ⟨e', he', heq⟩ := List.mem_map.mp (Csc.mem_bin.mp hp)
      have := Csc.col_lt_of_mem he'
      simp only [Prod.mk.injEq] at heq
      omega
    · simp only [List.mem_singleton, Prod.mk.injEq] at hp
      omega

theorem hasDiagonal_matrix : (matrix P A shift d).HasDiagonal := by
  intro j hj
  have hlt : j < (matrix P A shift d).cols.length := by simpa using hj
  suffices h : j ∈ ((matrix P A shift d).cols.getD j []).map (·.1) by
    obtain ⟨p, hp, hrow⟩ := List.mem_map.mp h
    rw [List.getD_eq_getElem _ _ hlt] at hp
    exact ⟨⟨p.1, j, p.2⟩, Csc.mem_entriesOf.mpr ⟨hlt, hp⟩, hrow, rfl⟩
  rw [ncols_matrix hsq hd] at hj
  rcases Nat.lt_or_ge j A.ncols with hcol | hcol
  · rw [getD_cols_matrix_leading hsq hcol]
    exact mem_rows_leadingColumn.mpr (.inl rfl)
  · obtain ⟨i, rfl⟩ := Nat.exists_eq_add_of_le hcol
    rw [getD_cols_matrix_trailing hsq hd (by omega) 0]
    simp

end Shape

/-! ## Other numbers below -/

theorem trailing_set {d : List α} {k : ℕ} (x : α) :
    trailing A (d.set k x) = (trailing A d).set k (rowOf A k ++ [(A.ncols + k, -x)]) := by
  apply List.ext_getElem
  · simp [trailing]
  · intro i h1 h2
    have hi : i < A.nrows := by
      simp [trailing, rowItems] at h1
      omega
    rw [List.getElem_set]
    by_cases hik : k = i
    · subst hik
      simp [trailing, rowItems, rowOf, trailingColumn, Csc.distribute_eq]
    · simp [trailing, hik]

/-- **Neither the shift nor the lower diagonal** matters to where entries are stored. -/
theorem samePattern_matrix {d d' : List α} (hd : d.length = A.nrows) (hd' : d'.length = A.nrows)
    (shift shift' : α) : Csc.SamePattern (matrix P A shift d) (matrix P A shift' d') := by
  have hleading : (leading P shift').map (List.map (·.1)) =
      (leading P shift).map (List.map (·.1)) := by
    rw [leading, leading, List.map_map, List.map_map]
    refine List.map_congr_left fun c _ => ?_
    rw [Function.comp_apply, Function.comp_apply, leadingColumn, leadingColumn,
      map_fst_shiftDiagonal, map_fst_shiftDiagonal]
  have hrows : ∀ e : List α, e.length = A.nrows → (trailing A e).map (List.map (·.1)) =
      (rowItems A).zipIdx.map fun c => c.1.map (·.1) ++ [A.ncols + c.2] := by
    intro e he
    apply List.ext_getElem
    · simp [trailing, rowItems, he]
    · intro i h1 h2
      simp [trailing, trailingColumn]
  refine Csc.samePattern_ofColumns ?_
  rw [List.map_append, List.map_append, hleading, hrows d hd, hrows d' hd']

theorem start_matrix {d d' : List α} (hd : d.length = A.nrows) (hd' : d'.length = A.nrows) (j : ℕ) :
    (matrix P A shift d').start j = (matrix P A shift d).start j := by
  rw [Csc.start, Csc.start, (samePattern_matrix hd hd' shift shift).colStart_eq]

section Positions

variable (hsq : P.nrows = A.ncols ∧ P.ncols = A.ncols)

include hsq

/-- One number of the lower diagonal, written where it is stored. -/
theorem setValue_matrix {d : List α} (hd : d.length = A.nrows) {k : ℕ} (hk : k < A.nrows) (x : α) :
    (matrix P A shift d).setValue ((matrix P A shift d).start (A.ncols + k + 1) - 1) (-x) =
      matrix P A shift (d.set k x) := by
  have hlen : k < (trailing A d).length := by rwa [length_trailing hd]
  have hcol : (trailing A d)[k] =
      rowOf A k ++ [(A.ncols + k, -d.getD k x)] := by
    rw [← getD_trailing hd hk x, List.getD_eq_getElem _ _ hlen]
  have hsplit : leading P shift ++ trailing A d = (leading P shift ++ (trailing A d).take k) ++
      (rowOf A k ++ [(A.ncols + k, -d.getD k x)]) :: (trailing A d).drop (k + 1) := by
    rw [← hcol, List.append_assoc, List.getElem_cons_drop, List.take_append_drop]
  have hbefore : (leading P shift ++ (trailing A d).take k).length = A.ncols + k := by
    rw [List.length_append, length_leading, hsq.2, List.length_take_of_le hlen.le]
  have hset := Csc.setValue_last (A.ncols + A.nrows) (A.ncols + k)
    (leading P shift ++ (trailing A d).take k) ((trailing A d).drop (k + 1))
    (rowOf A k) (-d.getD k x) (-x)
  rw [← hsplit, hbefore] at hset
  rw [matrix, hset, matrix, trailing_set x, List.set_eq_take_append_cons_drop, if_pos hlen,
    List.append_assoc]

/-- **Overwriting the lower diagonal** is assembling with other numbers. -/
theorem overwrite_positions {d d' : List α} (hd : d.length = A.nrows) (hd' : d'.length = A.nrows) :
    Ldl.overwrite (matrix P A shift d)
        ((lowerPositions P A shift d).toList.zip (d'.map (- ·))) = matrix P A shift d' := by
  have hzip : (lowerPositions P A shift d).toList.zip (d'.map (- ·)) =
      (List.range A.nrows).map fun i =>
        ((matrix P A shift d).start (A.ncols + i + 1) - 1, -d'.getD i (0 : α)) := by
    apply List.ext_getElem
    · simp [lowerPositions, hd']
    · intro i h1 h2
      have hi : i < d'.length := by simp at h2; omega
      simp [lowerPositions, hi]
  suffices h : ∀ k ≤ A.nrows, Ldl.overwrite (matrix P A shift d) ((List.range k).map fun i =>
      ((matrix P A shift d).start (A.ncols + i + 1) - 1, -d'.getD i (0 : α))) =
        matrix P A shift (d'.take k ++ d.drop k) by
    rw [hzip, h A.nrows le_rfl, List.take_of_length_le hd'.le, List.drop_of_length_le hd.le,
      List.append_nil]
  intro k hk
  induction k with
  | zero => simp [Ldl.overwrite]
  | succ k ih =>
    have hlen : (d'.take k ++ d.drop k).length = A.nrows := by simp; omega
    have hmixed : (d'.take k ++ d.drop k).set k (d'.getD k 0) =
        d'.take (k + 1) ++ d.drop (k + 1) := by
      have hk' : k < d'.length := by omega
      rw [List.set_append_right _ _ (by simp), List.length_take_of_le hk'.le, Nat.sub_self,
        List.take_succ_eq_append_getElem hk', List.drop_eq_getElem_cons (by omega : k < d.length),
        List.set_cons_zero, List.getD_eq_getElem _ _ hk', List.append_assoc]
      rfl
    rw [List.range_succ, List.map_append, List.map_singleton, Ldl.overwrite_append,
      ih (by omega), ← start_matrix hd hlen, setValue_matrix hsq hlen (by omega), hmixed]

/-- Every row of the lower part has its entry. -/
theorem lowerPositions_lt {d : List α} (hd : d.length = A.nrows) (hP : P.WellFormed) :
    ∀ p ∈ lowerPositions P A shift d, p < (matrix P A shift d).rowIndex.size := by
  intro p hp
  simp only [lowerPositions, List.mem_toArray, List.mem_map, List.mem_range] at hp
  obtain ⟨i, hi, rfl⟩ := hp
  have hwf : (matrix P A shift d).WellFormed := wellFormed_matrix hsq hd hP
  have hlt : A.ncols + i < (matrix P A shift d).ncols := by
    rw [ncols_matrix hsq hd]
    omega
  have hlen := hwf.length_col hlt
  rw [getD_cols_matrix_trailing hsq hd hi 0, List.length_append, List.length_singleton] at hlen
  have := hwf.start_le (j := A.ncols + i + 1) hlt
  omega

end Positions

/-- **The blocks of a KKT matrix:** a square upper triangle and as many columns of
constraints. -/
structure Shape (P A : Csc α) : Prop where
  wellFormed_P : P.WellFormed
  wellFormed_A : A.WellFormed
  square : P.nrows = A.ncols ∧ P.ncols = A.ncols
  upper : P.IsUpperTriangular

end Generic

/-! ## The blocks -/

section Exact

variable {K : Type} [ExactField K] {P A : Csc K} {shift : K}

/-- A column of numbers, at one row. -/
theorem sum_shiftDiagonal {j : ℕ} {col : List (ℕ × K)} (h : col.any (·.1 = j)) (i : ℕ) :
    ((shiftDiagonal shift j col).map fun p => if p.1 = i then p.2 else 0).sum =
      (col.map fun p => if p.1 = i then p.2 else 0).sum + if j = i then shift else 0 := by
  induction col with
  | nil => simp at h
  | cons p col ih =>
    rw [shiftDiagonal]
    by_cases hp : p.1 = j
    · rw [if_pos hp, List.map_cons, List.sum_cons, List.map_cons, List.sum_cons]
      rw [← hp]
      simp only
      split_ifs <;> ring
    · rw [if_neg hp, List.map_cons, List.sum_cons, ih (by simpa [hp] using h), List.map_cons,
        List.sum_cons, add_assoc]

theorem sum_leadingColumn (col : List (ℕ × K)) (i j : ℕ) :
    ((leadingColumn shift (col, j)).map fun p => if p.1 = i then p.2 else 0).sum =
      (col.map fun p => if p.1 = i then p.2 else 0).sum + if j = i then shift else 0 := by
  rw [leadingColumn]
  by_cases h : col.any (·.1 = j) = true
  · rw [if_pos h, sum_shiftDiagonal h]
  · rw [if_neg h, sum_shiftDiagonal (by simp), List.map_append, List.sum_append]
    simp

section Blocks

variable (hsq : P.nrows = A.ncols ∧ P.ncols = A.ncols) {d : List K} (hd : d.length = A.nrows)

include hsq hd

theorem coeff_leading {i j : ℕ} (hj : j < A.ncols) :
    (matrix P A shift d).coeff i j = P.coeff i j + if j = i then shift else 0 := by
  rw [Csc.coeff_eq_sum_col _ (by rw [ncols_matrix hsq hd]; omega), getD_cols_matrix_leading hsq hj,
    sum_leadingColumn, ← Csc.coeff_eq_sum_col _ (by omega)]

theorem coeff_trailing {i k : ℕ} (hk : k < A.nrows) :
    (matrix P A shift d).coeff i (A.ncols + k) =
      A.coeff k i + if A.ncols + k = i then -d.getD k 0 else 0 := by
  rw [Csc.coeff_eq_sum_col _ (by rw [ncols_matrix hsq hd]; omega),
    getD_cols_matrix_trailing hsq hd hk 0, List.map_append, List.sum_append, rowOf,
    Csc.sum_map_bin, List.map_map, Csc.coeff, List.map_singleton, List.sum_singleton]
  congr 2
  refine List.map_congr_left fun e _ => ?_
  simp only [Function.comp_apply]
  by_cases hrow : e.row = k
  · simp [hrow]
  · simp [hrow]

/-- The block of `P`. -/
theorem symCoeff_leading {i j : ℕ} (hi : i < A.ncols) (hj : j < A.ncols) :
    (matrix P A shift d).symCoeff i j = P.symCoeff i j + if i = j then shift else 0 := by
  rw [Csc.symCoeff_eq, Csc.symCoeff_eq, coeff_leading hsq hd hi, coeff_leading hsq hd hi,
    coeff_leading hsq hd hj]
  by_cases hij : i = j
  · simp [hij]
  · simp [hij, Ne.symm hij]

/-- The block of `A`. -/
theorem symCoeff_cross (hP : P.WellFormed) {i k : ℕ} (hi : i < A.ncols) (hk : k < A.nrows) :
    (matrix P A shift d).symCoeff i (A.ncols + k) = A.coeff k i := by
  rw [Csc.symCoeff_eq, if_neg (by omega), coeff_trailing hsq hd hk, coeff_leading hsq hd hi,
    if_neg (by omega), if_neg (by omega), hP.coeff_of_ge (by omega)]
  ring

/-- The lower diagonal. -/
theorem symCoeff_trailing {k l : ℕ} (hk : k < A.nrows) (hl : l < A.nrows) :
    (matrix P A shift d).symCoeff (A.ncols + k) (A.ncols + l) =
      if k = l then -d.getD k 0 else 0 := by
  rw [Csc.symCoeff_eq, coeff_trailing hsq hd hk, coeff_trailing hsq hd hk,
    coeff_trailing hsq hd hl, Csc.coeff_of_ge A (by omega), Csc.coeff_of_ge A (by omega),
    Csc.coeff_of_ge A (by omega)]
  by_cases hkl : k = l
  · simp [hkl]
  · have : ¬ l = k := Ne.symm hkl
    simp [hkl, this]

/-- **The four blocks** of the symmetric completion. -/
theorem submatrix_toSymMatrix_matrix (hP : P.WellFormed) :
    ((matrix P A shift d).toSymMatrix (A.ncols + A.nrows)).submatrix finSumFinEquiv
      finSumFinEquiv = Matrix.fromBlocks (P.toSymMatrix A.ncols + shift • 1)
        (A.toMatrix A.nrows A.ncols).transpose (A.toMatrix A.nrows A.ncols)
        (-Matrix.diagonal fun k : Fin A.nrows => d.getD k 0) := by
  ext (i | k) (j | l)
  · rw [Matrix.submatrix_apply, Matrix.fromBlocks_apply₁₁, Matrix.add_apply, Matrix.smul_apply,
      Matrix.one_apply, finSumFinEquiv_apply_left, finSumFinEquiv_apply_left, Csc.toSymMatrix,
      Csc.toSymMatrix, Matrix.of_apply, Matrix.of_apply, Fin.val_castAdd, Fin.val_castAdd,
      symCoeff_leading hsq hd i.isLt j.isLt]
    simp [Fin.ext_iff]
  · rw [Matrix.submatrix_apply, Matrix.fromBlocks_apply₁₂, finSumFinEquiv_apply_left,
      finSumFinEquiv_apply_right, Csc.toSymMatrix, Matrix.of_apply, Fin.val_castAdd,
      Fin.val_natAdd, symCoeff_cross hsq hd hP i.isLt l.isLt]
    rfl
  · rw [Matrix.submatrix_apply, Matrix.fromBlocks_apply₂₁, finSumFinEquiv_apply_right,
      finSumFinEquiv_apply_left, Csc.toSymMatrix, Matrix.of_apply, Fin.val_castAdd,
      Fin.val_natAdd, Csc.symCoeff_comm, symCoeff_cross hsq hd hP j.isLt k.isLt]
    rfl
  · rw [Matrix.submatrix_apply, Matrix.fromBlocks_apply₂₂, finSumFinEquiv_apply_right,
      finSumFinEquiv_apply_right, Csc.toSymMatrix, Matrix.of_apply, Fin.val_natAdd,
      Fin.val_natAdd, symCoeff_trailing hsq hd k.isLt l.isLt, Matrix.neg_apply,
      Matrix.diagonal_apply]
    by_cases hkl : k = l
    · simp [hkl]
    · simp [hkl, Fin.val_ne_of_ne hkl]

theorem mulVec_toSymMatrix_matrix (hP : P.WellFormed) (v : Fin (A.ncols + A.nrows) → K) :
    ((matrix P A shift d).toSymMatrix (A.ncols + A.nrows)).mulVec v ∘ finSumFinEquiv =
      Sum.elim ((P.toSymMatrix A.ncols + shift • 1).mulVec (fun j => v (Fin.castAdd A.nrows j)) +
          (A.toMatrix A.nrows A.ncols).transpose.mulVec fun k => v (Fin.natAdd A.ncols k))
        ((A.toMatrix A.nrows A.ncols).mulVec (fun j => v (Fin.castAdd A.nrows j)) +
          (-Matrix.diagonal fun k : Fin A.nrows => d.getD k 0).mulVec
            fun k => v (Fin.natAdd A.ncols k)) := by
  have hback : (v ∘ finSumFinEquiv) ∘ finSumFinEquiv.symm = v := by
    rw [Function.comp_assoc, Equiv.self_comp_symm, Function.comp_id]
  have hmul := Matrix.submatrix_mulVec_equiv
    ((matrix P A shift d).toSymMatrix (A.ncols + A.nrows)) (v ∘ finSumFinEquiv) finSumFinEquiv
    finSumFinEquiv
  rw [submatrix_toSymMatrix_matrix hsq hd hP, Matrix.fromBlocks_mulVec, hback] at hmul
  exact hmul.symm

/-- The rows of the variables. -/
theorem mulVec_leading (hP : P.WellFormed) (v : Fin (A.ncols + A.nrows) → K) (i : Fin A.ncols) :
    ((matrix P A shift d).toSymMatrix (A.ncols + A.nrows)).mulVec v (Fin.castAdd A.nrows i) =
      (P.toSymMatrix A.ncols).mulVec (fun j => v (Fin.castAdd A.nrows j)) i +
        shift * v (Fin.castAdd A.nrows i) +
        (A.toMatrix A.nrows A.ncols).transpose.mulVec (fun k => v (Fin.natAdd A.ncols k)) i := by
  refine (congrFun (mulVec_toSymMatrix_matrix hsq hd hP v) (.inl i)).trans ?_
  rw [Sum.elim_inl, Pi.add_apply, Matrix.add_mulVec, Pi.add_apply, Matrix.smul_mulVec,
    Matrix.one_mulVec, Pi.smul_apply, smul_eq_mul]

/-- The rows of the constraints. -/
theorem mulVec_trailing (hP : P.WellFormed) (v : Fin (A.ncols + A.nrows) → K) (k : Fin A.nrows) :
    ((matrix P A shift d).toSymMatrix (A.ncols + A.nrows)).mulVec v (Fin.natAdd A.ncols k) =
      (A.toMatrix A.nrows A.ncols).mulVec (fun j => v (Fin.castAdd A.nrows j)) k -
        d.getD k 0 * v (Fin.natAdd A.ncols k) := by
  refine (congrFun (mulVec_toSymMatrix_matrix hsq hd hP v) (.inr k)).trans ?_
  rw [Sum.elim_inr, Pi.add_apply, Matrix.neg_mulVec, Pi.neg_apply, Matrix.mulVec_diagonal,
    ← sub_eq_add_neg]

omit hsq hd in
/-- In the form of the blocks those of `B` cancel. -/
theorem sum_blocks {n m : ℕ} (S : Matrix (Fin n) (Fin n) K) (B : Matrix (Fin m) (Fin n) K)
    (delta : Fin m → K) (x : Fin n → K) (w : Fin m → K) :
    ∑ i, 1 * (x i * (S.mulVec x i + shift * x i + B.transpose.mulVec w i)) +
        ∑ k, -1 * (w k * (B.mulVec x k - delta k * w k)) =
      ∑ i, x i * S.mulVec x i + (∑ i, shift * (x i) ^ 2 + ∑ k, delta k * (w k) ^ 2) := by
  have hcross : ∑ i, x i * B.transpose.mulVec w i = ∑ k, w k * B.mulVec x k := by
    rw [← dotProduct, ← dotProduct, Matrix.dotProduct_mulVec, Matrix.vecMul_transpose,
      dotProduct_comm]
  have htop : ∀ i, 1 * (x i * (S.mulVec x i + shift * x i + B.transpose.mulVec w i)) =
      x i * S.mulVec x i + shift * (x i) ^ 2 + x i * B.transpose.mulVec w i := fun i => by ring
  have hbot : ∀ k, -1 * (w k * (B.mulVec x k - delta k * w k)) =
      delta k * (w k) ^ 2 - w k * B.mulVec x k := fun k => by ring
  simp only [htop, hbot, sum_add_distrib, sum_sub_distrib]
  rw [hcross]
  ring

/-- **The KKT matrix of a convex program is quasidefinite,** positive on the
variables and negative on the constraints: the blocks of `A` cancel. -/
theorem isQuasidefinite_matrix (hP : P.WellFormed) (hpsd : IsSemidefinite (P.toSymMatrix A.ncols))
    (hshift : 0 < shift) (hpos : ∀ x ∈ d, 0 < x) :
    IsQuasidefinite (fun i : Fin (A.ncols + A.nrows) => if (i : ℕ) < A.ncols then (1 : K) else -1)
      ((matrix P A shift d).toSymMatrix (A.ncols + A.nrows)) := by
  intro v hv
  have hdpos : ∀ k : Fin A.nrows, 0 < d.getD k 0 := by
    intro k
    rw [List.getD_eq_getElem _ _ (by omega)]
    exact hpos _ (List.getElem_mem _)
  have hneg : ∀ k : Fin A.nrows, ¬ A.ncols + (k : ℕ) < A.ncols := fun k => by omega
  rw [Fin.sum_univ_add]
  simp only [mulVec_leading hsq hd hP, mulVec_trailing hsq hd hP, Fin.val_castAdd, Fin.val_natAdd,
    Fin.is_lt, hneg, if_true, if_false]
  generalize hx : (fun i => v (Fin.castAdd A.nrows i)) = x
  generalize hw : (fun k => v (Fin.natAdd A.ncols k)) = w
  have hx' : ∀ i, v (Fin.castAdd A.nrows i) = x i := fun i => congrFun hx i
  have hw' : ∀ k, v (Fin.natAdd A.ncols k) = w k := fun k => congrFun hw k
  simp only [hx', hw']
  rw [sum_blocks _ _ fun k => d.getD k 0]
  have htop : ∀ i, 0 ≤ shift * (x i) ^ 2 := fun i => by positivity
  have hbot : ∀ k : Fin A.nrows, 0 ≤ d.getD k 0 * (w k) ^ 2 := fun k =>
    mul_nonneg (hdpos k).le (sq_nonneg _)
  refine add_pos_of_nonneg_of_pos (hpsd x) ?_
  -- some entry of `v` is not zero
  obtain ⟨p, hp⟩ := Function.ne_iff.mp hv
  refine Fin.addCases (motive := fun p => v p ≠ 0 → _) (fun i hi => ?_) (fun k hk => ?_) p hp
  · rw [hx'] at hi
    refine add_pos_of_pos_of_nonneg (sum_pos' (fun i _ => htop i) ⟨i, mem_univ _, ?_⟩)
      (sum_nonneg fun k _ => hbot k)
    positivity
  · rw [hw'] at hk
    refine add_pos_of_nonneg_of_pos (sum_nonneg fun i _ => htop i)
      (sum_pos' (fun k _ => hbot k) ⟨k, mem_univ _, ?_⟩)
    exact mul_pos (hdpos k) (by positivity)

end Blocks
end Exact

/-! ## Convex programs -/

variable {K : Type} [ExactField K]

/-- **A convex program,** with a positive shift. -/
structure IsConvex (P A : Csc K) (shift : K) : Prop where
  wellFormed_P : P.WellFormed
  wellFormed_A : A.WellFormed
  square : P.nrows = A.ncols ∧ P.ncols = A.ncols
  upper : P.IsUpperTriangular
  semidefinite : IsSemidefinite (P.toSymMatrix A.ncols)
  shift_pos : 0 < shift

variable {P A : Csc K} {shift : K}

theorem IsConvex.shape (h : IsConvex P A shift) : Shape P A :=
  ⟨h.wellFormed_P, h.wellFormed_A, h.square, h.upper⟩

/-- Any positive numbers below make the matrix quasidefinite. -/
theorem IsConvex.quasidefinite (h : IsConvex P A shift) {d : Array K} (hd : d.size = A.nrows)
    (hpos : ∀ x ∈ d, 0 < x) :
    IsQuasidefinite (fun i : Fin (matrix P A shift d.toList).ncols =>
      if (i : ℕ) < A.ncols then (1 : K) else -1)
      ((matrix P A shift d.toList).toSymMatrix (matrix P A shift d.toList).ncols) := by
  rw [ncols_matrix h.square (by simpa using hd)]
  exact isQuasidefinite_matrix h.square (by simpa using hd) h.wellFormed_P h.semidefinite
    h.shift_pos (by simpa using hpos)

end Kkt

end SplitQP
