import SplitQP.Proofs.Sparse.Products
import SplitQP.Proofs.Factor.Product
import SplitQP.Factor.Ldl
/-!
# Solving with the factors

The slots, once full, are the columns of `L` (`cols_lowerMatrix`). In
exact arithmetic the forward sweep solves `(I + L)·y = b` and the backward
sweep `(I + L)ᵀ·x = z`: before column `m` the equations hold with the
sums cut off at `m` (`forward_spec`), or hold from `m` on
(`backward_spec`). So `solvePermuted` solves with the permuted matrix (`solvePermuted_spec`).
-/

namespace SplitQP

open Checked SplitQP.Dense TreeState Finset

variable {α : Type}

/-! ## Lengths -/

section Lengths

variable [Scalar α]

theorem size_forwardColumn (x : Array α) (c : List (ℕ × α) × ℕ) :
    (Ldl.forwardColumn x c).size = x.size :=
  Csc.size_foldl (fun _ _ => Array.size_modify) _ _

theorem size_backwardColumn (x : Array α) (c : List (ℕ × α) × ℕ) :
    (Ldl.backwardColumn x c).size = x.size := by
  simp [Ldl.backwardColumn]

theorem size_solvePermuted (cols : List (List (ℕ × α))) {n : ℕ} {dinv b : Array α}
    (hdinv : dinv.size = n) (hb : b.size = n) : (Ldl.solvePermuted cols dinv b).size = n := by
  have hforward := (Csc.size_foldl size_forwardColumn cols.zipIdx b).trans hb
  rw [Ldl.solvePermuted, Csc.size_foldl size_backwardColumn, Array.size_zipWith, hforward, hdinv,
    min_self]

end Lengths

/-! ## The columns of the factor -/

section Columns

variable [Scalar α] {upper : Csc α} {parent : Array (Option ℕ)} {colStart : Array ℕ}
  {w : Pivots α}

/-- Column `j` of the factor. -/
noncomputable def lowerColumn (upper : Csc α) (parent : Array (Option ℕ)) (j : ℕ) :
    List (ℕ × α) :=
  (fillRows (storedRows upper) upper.ncols j).map fun r => (r, lowerEntry upper parent r j)

/-- The factor as a matrix. -/
def lowerMatrix (colStart : Array ℕ) (w : Pivots α) : Csc α :=
  ⟨w.d.size, w.d.size, colStart, w.rowIndex, w.value⟩

variable (ha : Analysed upper parent colStart)

include ha

omit [Scalar α] in
/-- Whatever the slots hold, the factor is well formed as long as they hold rows. -/
theorem wellFormed_lowerMatrix (hfits : w.Fits upper.ncols (colStart.getD upper.ncols 0))
    (hrow : w.InRange upper.ncols) : (lowerMatrix colStart w).WellFormed where
  size_value := by rw [lowerMatrix, hfits.size_rowIndex, hfits.size_value]
  size_colStart := by rw [lowerMatrix, hfits.size_d, ha.layout.size_eq]
  start_last := by
    rw [lowerMatrix, hfits.size_rowIndex, hfits.size_d]
    rfl
  start_zero := ha.layout.zero
  start_mono := by
    intro i j hij hj
    exact ha.layout.mono hij (by rw [← hfits.size_d]; exact hj)
  row_lt := fun i hi => (hrow i hi).trans_eq hfits.size_d.symm

variable (hw : w.Hold upper parent colStart)

include hw

/-- **The slots of a column** hold its rows and entries. -/
theorem cols_lowerMatrix :
    (lowerMatrix colStart w).cols = (List.range upper.ncols).map (lowerColumn upper parent) := by
  apply List.ext_getElem
  · rw [Csc.length_cols, List.length_map, List.length_range]
    exact hw.size_d
  intro j h1 h2
  have hj : j < upper.ncols := by simpa using h2
  have hsucc := ha.layout.succ j hj
  have hend := ha.layout.mono (show j + 1 ≤ upper.ncols from hj) le_rfl
  have hrow := hw.written.size_rowIndex
  have hval := hw.written.size_value
  simp only [Csc.cols, List.getElem_map, List.getElem_range, lowerColumn]
  apply List.ext_getElem?
  intro t
  have hstart : ∀ i, (lowerMatrix colStart w).start i = colStart.getD i 0 := fun _ => rfl
  rw [List.getElem?_drop, List.getElem?_take, hstart, hstart, List.getElem?_map]
  rcases Nat.lt_or_ge t (fillRows (storedRows upper) upper.ncols j).length with hlt | hge
  · obtain ⟨hi, hv⟩ := hw.written.slot j hj t _ (List.getElem?_eq_getElem hlt)
    rw [if_pos (by omega), List.getElem?_eq_getElem hlt, Csc.pairs, lowerMatrix,
      List.getElem?_zip_eq_some (z := (_, _)) |>.mpr ⟨by simpa using hi, by simpa using hv⟩]
    rfl
  · rw [if_neg (by omega), List.getElem?_eq_none hge]
    rfl

end Columns

/-! ## The sweeps -/

section Sweeps

variable {K : Type} [ExactField K] {upper : Csc K} {parent : Array (Option ℕ)}
  {colStart : Array ℕ} (ha : Analysed upper parent colStart)

include ha

/-- **A sum down a column** of the factor. -/
theorem sum_lowerColumn {j : ℕ} (f : ℕ → K → K) (hf : ∀ r, f r 0 = 0) :
    ((lowerColumn upper parent j).map fun p => f p.1 p.2).sum =
      ∑ r ∈ range upper.ncols, f r (lowerEntry upper parent r j) := by
  rw [lowerColumn, List.map_map, ← List.sum_toFinset _ nodup_fillRows]
  refine sum_subset ?_ ?_
  · intro r hr
    simpa using (mem_fillRows.mp (by simpa using hr)).1
  · intro r hr hnot
    rw [mem_range] at hr
    have hfill : ¬ Fill (storedRows upper) r j := fun hf =>
      hnot (by simpa using mem_fillRows.mpr ⟨hr, hf⟩)
    simp only [Function.comp_apply, lowerEntry_of_not_fill ha hr hfill, hf]

omit ha in
theorem getD_foldl_subtract (col : List (ℕ × K)) (c : K) {x : Array K} {i : ℕ} (hi : i < x.size) :
    (col.foldl (fun x (i, v) => x.modify i (· - v * c)) x).getD i 0 =
      x.getD i 0 - (col.map fun p => if p.1 = i then p.2 else 0).sum * c := by
  induction col generalizing x with
  | nil => simp
  | cons p col ih =>
    rw [List.foldl_cons, ih (by simpa using hi), getD_modify _ hi, List.map_cons, List.sum_cons]
    split_ifs <;> ring

/-- One column of the forward sweep. -/
theorem getD_forwardColumn {x : Array K} (hx : x.size = upper.ncols) {i j : ℕ}
    (hi : i < upper.ncols) :
    (Ldl.forwardColumn x (lowerColumn upper parent j, j)).getD i 0 =
      x.getD i 0 - lowerEntry upper parent i j * x.getD j 0 := by
  have hsum := sum_lowerColumn ha (j := j) (fun r v => if r = i then v else 0) (by simp)
  rw [sum_ite_eq' (range upper.ncols) i fun r => lowerEntry upper parent r j,
    if_pos (mem_range.mpr hi)] at hsum
  rw [Ldl.forwardColumn, getD_foldl_subtract _ _ (by rw [hx]; exact hi), hsum]

/-- **The forward sweep** before column `m`: the equations of `(I + L)·x = b`,
cut off there. -/
theorem forward_spec {b : Array K} (hb : b.size = upper.ncols) {m : ℕ} (hm : m ≤ upper.ncols) :
    let x := ((List.range m).map fun j => (lowerColumn upper parent j, j)).foldl
      Ldl.forwardColumn b
    x.size = upper.ncols ∧ ∀ i < upper.ncols, x.getD i 0 +
      ∑ c ∈ range m, lowerEntry upper parent i c * x.getD c 0 = b.getD i 0 := by
  induction m with
  | zero => exact ⟨hb, by simp⟩
  | succ m ih =>
    obtain ⟨hsize, heq⟩ := ih (by omega)
    rw [List.range_succ, List.map_append, List.foldl_append]
    generalize ((List.range m).map fun j => (lowerColumn upper parent j, j)).foldl
      Ldl.forwardColumn b = x at hsize heq
    refine ⟨(size_forwardColumn _ _).trans hsize, fun i hi => ?_⟩
    have hstep : ∀ c < upper.ncols,
        (Ldl.forwardColumn x (lowerColumn upper parent m, m)).getD c 0 =
          x.getD c 0 - lowerEntry upper parent c m * x.getD m 0 :=
      fun c hc => getD_forwardColumn ha hsize hc
    -- entries up to `m` do not change any more
    have hkeep : ∀ c ≤ m, (Ldl.forwardColumn x (lowerColumn upper parent m, m)).getD c 0 =
        x.getD c 0 := by
      intro c hc
      rw [hstep c (by omega), lowerEntry_of_le ha (by omega) hc, zero_mul, sub_zero]
    have hsum : ∑ c ∈ range m, lowerEntry upper parent i c *
        (Ldl.forwardColumn x (lowerColumn upper parent m, m)).getD c 0 =
          ∑ c ∈ range m, lowerEntry upper parent i c * x.getD c 0 := by
      refine sum_congr rfl fun c hc => ?_
      rw [hkeep c (mem_range.mp hc).le]
    rw [List.map_singleton, List.foldl_cons, List.foldl_nil, sum_range_succ, hsum, hkeep m le_rfl,
      hstep i hi, ← heq i hi]
    ring

omit ha in
theorem foldl_subtract_eq (x : Array K) (col : List (ℕ × K)) (acc : K) :
    col.foldl (fun acc (i, v) => acc - v * x.getD i 0) acc =
      acc - (col.map fun p => p.2 * x.getD p.1 0).sum := by
  induction col generalizing acc with
  | nil => simp
  | cons p col ih =>
    rw [List.foldl_cons, ih, List.map_cons, List.sum_cons]
    ring

/-- One column of the backward sweep. -/
theorem getD_backwardColumn {x : Array K} (hx : x.size = upper.ncols) {i j : ℕ}
    (hi : i < upper.ncols) :
    (Ldl.backwardColumn x (lowerColumn upper parent j, j)).getD i 0 =
      if j = i then x.getD i 0 - ∑ r ∈ range upper.ncols, lowerEntry upper parent r i * x.getD r 0
      else x.getD i 0 := by
  rw [Ldl.backwardColumn, foldl_subtract_eq,
    sum_lowerColumn ha (fun r v => v * x.getD r 0) (by simp), getD_of_lt 0 (by simpa [hx] using hi),
    Array.getElem_setIfInBounds (by rw [hx]; exact hi), ← getD_of_lt 0 (by rw [hx]; exact hi)]
  split_ifs with hij
  · rw [show j = i from hij]
  · rfl

/-- **The backward sweep** from column `m` on: the equations of `(I + L)ᵀ·x = z`
hold there, and hold everywhere in the end. -/
theorem backward_spec {z : ℕ → K} {m : ℕ} (hm : m ≤ upper.ncols) {x : Array K}
    (hx : x.size = upper.ncols)
    (hdone : ∀ i < upper.ncols, m ≤ i →
      x.getD i 0 + ∑ r ∈ range upper.ncols, lowerEntry upper parent r i * x.getD r 0 = z i)
    (htodo : ∀ i < m, x.getD i 0 = z i) :
    let x' := ((List.range m).map fun j => (lowerColumn upper parent j, j)).reverse.foldl
      Ldl.backwardColumn x
    x'.size = upper.ncols ∧ ∀ i < upper.ncols, x'.getD i 0 +
      ∑ r ∈ range upper.ncols, lowerEntry upper parent r i * x'.getD r 0 = z i := by
  induction m generalizing x with
  | zero => exact ⟨hx, fun i hi => hdone i hi (Nat.zero_le i)⟩
  | succ m ih =>
    rw [List.range_succ, List.map_append, List.reverse_append]
    have hstep : ∀ i < upper.ncols,
        (Ldl.backwardColumn x (lowerColumn upper parent m, m)).getD i 0 = if m = i then
          x.getD i 0 - ∑ r ∈ range upper.ncols, lowerEntry upper parent r i * x.getD r 0
        else x.getD i 0 := fun i hi => getD_backwardColumn ha hx hi
    -- the columns from `m` on do not read the entry that changes
    have hsum : ∀ i, m ≤ i → ∑ r ∈ range upper.ncols, lowerEntry upper parent r i *
        (Ldl.backwardColumn x (lowerColumn upper parent m, m)).getD r 0 =
          ∑ r ∈ range upper.ncols, lowerEntry upper parent r i * x.getD r 0 := by
      intro i hi
      refine sum_congr rfl fun r hr => ?_
      rw [hstep r (mem_range.mp hr)]
      split_ifs with hrm
      · rw [← hrm, lowerEntry_of_le ha (by omega) hi, zero_mul, zero_mul]
      · rfl
    refine ih (by omega) ((size_backwardColumn _ _).trans hx) (fun i hi hmi => ?_) (fun i hi => ?_)
    · rw [hsum i hmi, hstep i hi]
      split_ifs with him
      · rw [← him, htodo m (Nat.lt_succ_self m)]
        ring
      · exact hdone i hi (by omega)
    · rw [hstep i (by omega), if_neg (by omega)]
      exact htodo i (by omega)

omit ha in
theorem zipIdx_columns : ((List.range upper.ncols).map (lowerColumn upper parent)).zipIdx =
    (List.range upper.ncols).map fun j => (lowerColumn upper parent j, j) := by
  rw [List.zipIdx_map]
  apply List.ext_getElem
  · simp
  · intro j h1 h2
    simp

/-- The unit lower triangular factor is the identity and the factor below. -/
theorem unitEntry_eq {i j : ℕ} (hi : i < upper.ncols) :
    unitEntry upper parent i j = (if i = j then 1 else 0) + lowerEntry upper parent i j := by
  rw [unitEntry]
  split_ifs with hij
  · rw [lowerEntry_of_le ha hi hij.le, add_zero]
  · rw [zero_add]

theorem unitLower_mulVec (x : Array K) (i : Fin upper.ncols) :
    (unitLower upper parent upper.ncols).mulVec (vec upper.ncols x) i =
      x.getD i 0 + ∑ c ∈ range upper.ncols, lowerEntry upper parent i c * x.getD c 0 := by
  rw [← Fin.sum_univ_eq_sum_range (fun c => lowerEntry upper parent i c * x.getD c 0)]
  simp only [Matrix.mulVec, dotProduct, unitLower, Matrix.of_apply, unitEntry_eq ha i.isLt,
    add_mul, sum_add_distrib, ite_mul, one_mul, zero_mul, Fin.val_inj]
  rw [sum_ite_eq, if_pos (mem_univ i)]
  rfl

theorem unitLower_transpose_mulVec (x : Array K) (i : Fin upper.ncols) :
    (unitLower upper parent upper.ncols).transpose.mulVec (vec upper.ncols x) i =
      x.getD i 0 + ∑ r ∈ range upper.ncols, lowerEntry upper parent r i * x.getD r 0 := by
  rw [← Fin.sum_univ_eq_sum_range (fun r => lowerEntry upper parent r i * x.getD r 0)]
  have hentry : ∀ r : Fin upper.ncols, unitEntry upper parent r i =
      (if r = i then 1 else 0) + lowerEntry upper parent r i := fun r => by
    rw [unitEntry_eq ha r.isLt]
    simp only [Fin.val_inj]
  simp only [Matrix.mulVec, dotProduct, Matrix.transpose_apply, unitLower, Matrix.of_apply,
    hentry, add_mul, sum_add_distrib, ite_mul, one_mul, zero_mul]
  rw [sum_ite_eq', if_pos (mem_univ i)]
  rfl

/-- **Both sweeps and the division between them** solve with the permuted
matrix. -/
theorem solvePermuted_spec (hne : ∀ j < upper.ncols, pivotAt upper parent j ≠ 0)
    {dinv b : Array K} (hb : b.size = upper.ncols) (hd : dinv.size = upper.ncols)
    (hdinv : ∀ j < upper.ncols, dinv.getD j 0 = (pivotAt upper parent j)⁻¹) :
    let x := Ldl.solvePermuted ((List.range upper.ncols).map (lowerColumn upper parent)) dinv b
    x.size = upper.ncols ∧ (upper.toSymMatrix upper.ncols).mulVec (vec upper.ncols x) =
      vec upper.ncols b := by
  intro x
  obtain ⟨hysize, hy⟩ := forward_spec ha hb le_rfl
  rw [← zipIdx_columns] at hysize hy
  generalize hydef : ((List.range upper.ncols).map (lowerColumn upper parent)).zipIdx.foldl
    Ldl.forwardColumn b = y at hysize hy
  have hz : ∀ i < upper.ncols, (y.zipWith (· * ·) dinv).getD i 0 =
      y.getD i 0 * (pivotAt upper parent i)⁻¹ := by
    intro i hi
    rw [getD_zipWith 0 0 0 (by omega) (by omega), hdinv i hi]
  obtain ⟨hxsize, hx⟩ := backward_spec ha (z := fun i => (y.zipWith (· * ·) dinv).getD i 0) le_rfl
    (x := y.zipWith (· * ·) dinv) (by simp [hysize, hd]) (fun i hi hle => absurd hi (by omega))
    (fun i _ => rfl)
  have hxdef : x = ((List.range upper.ncols).map fun j =>
      (lowerColumn upper parent j, j)).reverse.foldl Ldl.backwardColumn
        (y.zipWith (· * ·) dinv) := by
    simp only [x, Ldl.solvePermuted, hydef]
    rw [zipIdx_columns]
  rw [← hxdef] at hxsize hx
  refine ⟨hxsize, ?_⟩
  have hback : (unitLower upper parent upper.ncols).transpose.mulVec (vec upper.ncols x) =
      vec upper.ncols (y.zipWith (· * ·) dinv) := by
    funext i
    rw [unitLower_transpose_mulVec ha, hx i i.isLt]
    rfl
  have hdiag : (pivotMatrix upper parent upper.ncols).mulVec
      (vec upper.ncols (y.zipWith (· * ·) dinv)) = vec upper.ncols y := by
    funext i
    rw [pivotMatrix, Matrix.mulVec_diagonal, vec, hz i i.isLt, vec]
    have := hne i i.isLt
    field_simp
  have hforward : (unitLower upper parent upper.ncols).mulVec (vec upper.ncols y) =
      vec upper.ncols b := by
    funext i
    rw [unitLower_mulVec ha, hy i i.isLt]
    rfl
  rw [toSymMatrix_eq_mul ha le_rfl fun j hj => hne j (by omega), ← Matrix.mulVec_mulVec,
    ← Matrix.mulVec_mulVec, hback, hdiag, hforward]

end Sweeps

end SplitQP
