import SplitQP.Proofs.Sparse.SamePattern
import SplitQP.Sparse.Reshape
/-!
# Sparse matrices — canonical form and scaling

Canonical columns have the rows they had and stand for the same numbers
(`coeff_canonical`). Scaling rows and columns changes values only: each
entry is multiplied by the factors of its row and its column
(`isScaled_ensures`), and so is each number (`IsScaled.coeff_eq`).
-/

namespace SplitQP

open Checked SplitQP.Dense Finset

namespace Csc

/-! ## Canonical form -/

section Canonical

variable {α : Type} [Add α]

theorem map_fst_addEntry_subset (i : ℕ) (v : α) (col : List (ℕ × α)) {r : ℕ} :
    r ∈ (addEntry i v col).map (·.1) ↔ r = i ∨ r ∈ col.map (·.1) := by
  induction col with
  | nil => simp [addEntry]
  | cons p col ih =>
    rw [addEntry]
    split_ifs with h1 h2
    · simp
    · simp [h2]
    · rw [List.map_cons, List.mem_cons, ih]
      simp only [List.map_cons, List.mem_cons]
      tauto

/-- The rows of a column stay. -/
theorem mem_rows_canonicalColumn (col : List (ℕ × α)) {r : ℕ} :
    r ∈ (canonicalColumn col).map (·.1) ↔ r ∈ col.map (·.1) := by
  suffices h : ∀ acc : List (ℕ × α), r ∈ (col.foldl (fun acc p => addEntry p.1 p.2 acc) acc).map
      (·.1) ↔ r ∈ acc.map (·.1) ∨ r ∈ col.map (·.1) from (h []).trans (by simp)
  induction col with
  | nil => simp
  | cons p col ih =>
    intro acc
    rw [List.foldl_cons, ih, map_fst_addEntry_subset, List.map_cons, List.mem_cons]
    tauto

/-- The canonical form of a matrix. -/
def canonical (A : Csc α) : Csc α := ofColumns A.nrows (A.cols.map canonicalColumn)

/-- **What canonicalising answers,** as far as there is room. -/
theorem canonicalize_eq_ok_iff {A B : Csc α} (hA : A.WellFormed) :
    A.canonicalize = .ok B ↔ A.rowIndex.size ≤ maxEntries ∧ A.canonical = B := by
  rw [canonicalize, hA.nnz_eq, ok_bind]
  by_cases hroom : A.rowIndex.size ≤ maxEntries
  · rw [require_eq_ok hroom, ok_bind, hA.columns_eq]
    simp [canonical, hroom]
  · simp [require, hroom]

theorem canonicalize_eq_error {A : Csc α} (hA : A.WellFormed)
    (hroom : maxEntries < A.rowIndex.size) : A.canonicalize = .error .capacity := by
  rw [canonicalize, hA.nnz_eq, ok_bind, require, if_neg (not_le.mpr hroom)]
  rfl

theorem wellFormed_canonical {A : Csc α} (hA : A.WellFormed) : A.canonical.WellFormed := by
  refine wellFormed_ofColumns fun col hcol e he => ?_
  obtain ⟨col', hcol', rfl⟩ := List.mem_map.mp hcol
  have hrow := (mem_rows_canonicalColumn col').mp (List.mem_map_of_mem he)
  obtain ⟨e', he', hrow'⟩ := List.mem_map.mp hrow
  rw [← hrow']
  exact hA.mem_cols_lt hcol' he'

@[simp] theorem nrows_canonical (A : Csc α) : A.canonical.nrows = A.nrows := rfl

@[simp] theorem ncols_canonical (A : Csc α) : A.canonical.ncols = A.ncols := by simp [canonical]

end Canonical

/-! ## The numbers -/

variable {K : Type} [ExactField K]

theorem sum_addEntry (i : ℕ) (v : K) (col : List (ℕ × K)) (r : ℕ) :
    ((addEntry i v col).map fun p => if p.1 = r then p.2 else 0).sum =
      (if i = r then v else 0) + (col.map fun p => if p.1 = r then p.2 else 0).sum := by
  induction col with
  | nil => simp [addEntry]
  | cons p col ih =>
    rw [addEntry]
    by_cases h1 : i < p.1
    · rw [if_pos h1, List.map_cons, List.sum_cons]
    · rw [if_neg h1]
      by_cases h2 : i = p.1
      · rw [if_pos h2, h2]
        simp only [List.map_cons, List.sum_cons]
        split_ifs <;> ring
      · rw [if_neg h2, List.map_cons, List.sum_cons, ih, List.map_cons, List.sum_cons]
        ring

theorem sum_canonicalColumn (col : List (ℕ × K)) (r : ℕ) :
    ((canonicalColumn col).map fun p => if p.1 = r then p.2 else 0).sum =
      (col.map fun p => if p.1 = r then p.2 else 0).sum := by
  suffices h : ∀ acc : List (ℕ × K), ((col.foldl (fun acc p => addEntry p.1 p.2 acc) acc).map
      fun p => if p.1 = r then p.2 else 0).sum =
        (acc.map fun p => if p.1 = r then p.2 else 0).sum +
          (col.map fun p => if p.1 = r then p.2 else 0).sum from (h []).trans (by simp)
  induction col with
  | nil => simp
  | cons p col ih =>
    intro acc
    rw [List.foldl_cons, ih, sum_addEntry, List.map_cons, List.sum_cons]
    ring

/-- **Canonical form stands for the same matrix.** -/
theorem coeff_canonical (A : Csc K) (i j : ℕ) : A.canonical.coeff i j = A.coeff i j := by
  rcases Nat.lt_or_ge j A.ncols with hj | hj
  · rw [coeff_eq_sum_col _ (by rwa [ncols_canonical]), coeff_eq_sum_col _ hj, canonical,
      cols_ofColumns]
    have hcol : (A.cols.map canonicalColumn).getD j [] = canonicalColumn (A.cols.getD j []) :=
      List.getD_map A.cols [] canonicalColumn
    rw [hcol, sum_canonicalColumn]
  · rw [coeff_of_ge _ (by rwa [ncols_canonical]), coeff_of_ge _ hj]

/-! ## Scaling -/

section Scaling

variable {α : Type} [Scalar α] {A B : Csc α} {l r : Array α}

omit [Scalar α] in
theorem WellFormed.slots_eq (h : A.WellFormed) {j : ℕ} (hj : j < A.ncols) :
    A.slots j = .ok (List.range' (A.start j) (A.start (j + 1) - A.start j)) := by
  rw [slots, h.span_eq hj]
  simp only [ok_bind]
  rw [require_eq_ok (.inr (h.start_le hj))]
  rfl

/-- The slots of one column. -/
theorem scaleColumn_ensures {rowIndex : Array ℕ} {c : α} {value : Array α} {slots : List ℕ}
    (hnd : slots.Nodup) (hslot : ∀ t ∈ slots, t < rowIndex.size ∧ t < value.size)
    (hrow : ∀ i ∈ rowIndex, i < l.size) :
    Ensures (slots.foldlM (scaleColumn rowIndex l c) value) fun value' =>
      value'.size = value.size ∧ ∀ t < value.size, value'.getD t 0 =
        if t ∈ slots then value.getD t 0 * (l.getD (rowIndex.getD t 0) 0 * c)
        else value.getD t 0 := by
  refine ensures_foldlM (I := fun before (value' : Array α) => value'.size = value.size ∧
    ∀ t < value.size, value'.getD t 0 =
      if t ∈ before then value.getD t 0 * (l.getD (rowIndex.getD t 0) 0 * c)
      else value.getD t 0) ⟨rfl, fun t _ => by simp⟩ ?_
  rintro before k after value' hsplit ⟨hsize, hval⟩
  obtain ⟨hki, hkv⟩ := hslot k (by rw [hsplit]; simp)
  have hl : rowIndex.getD k 0 < l.size := by
    rw [getD_of_lt 0 hki]
    exact hrow _ (Array.getElem_mem hki)
  have hnot : k ∉ before := by
    rw [hsplit, List.nodup_append] at hnd
    exact fun hc => hnd.2.2 k hc k (by simp) rfl
  rw [scaleColumn, read_eq_ok_getD 0 hki, ok_bind, read_eq_ok_getD 0 hl, ok_bind,
    update_eq_ok (by omega)]
  refine .ok ⟨by simpa using hsize, fun t ht => ?_⟩
  rw [getD_of_lt 0 (by simp; omega), Array.getElem_modify, ← getD_of_lt 0 (by omega), hval t ht]
  by_cases hkt : k = t
  · subst hkt
    simp [hnot]
  · simp [hkt, Ne.symm hkt]

/-- **The columns before `m` are scaled,** the others are as they were. -/
structure ScaledUpTo (A : Csc α) (l r : Array α) (m : ℕ) (value : Array α) : Prop where
  size_eq : value.size = A.value.size
  done : ∀ j < m, ∀ t, A.start j ≤ t → t < A.start (j + 1) → value.getD t 0 =
    A.value.getD t 0 * (l.getD (A.rowIndex.getD t 0) 0 * r.getD j 0)
  todo : ∀ t, A.start m ≤ t → value.getD t 0 = A.value.getD t 0

/-- One more column. -/
theorem ScaledUpTo.step_ensures {m : ℕ} {value : Array α} (h : ScaledUpTo A l r m value)
    (hA : A.WellFormed) (hl : l.size = A.nrows) (hm : m < A.ncols) :
    Ensures ((List.range' (A.start m) (A.start (m + 1) - A.start m)).foldlM
      (scaleColumn A.rowIndex l (r.getD m 0)) value) (ScaledUpTo A l r (m + 1)) := by
  have hmono : A.start m ≤ A.start (m + 1) := hA.start_mono (Nat.le_succ m) hm
  have hend : A.start (m + 1) ≤ A.rowIndex.size := hA.start_le hm
  have hvsize := hA.size_value
  have hsize := h.size_eq
  refine (scaleColumn_ensures (c := r.getD m 0) List.nodup_range' (fun t ht => ?_)
    fun i hi => ?_).mono ?_
  · rw [List.mem_range'_1] at ht
    omega
  · rw [hl]
    exact hA.row_lt i hi
  · rintro value' ⟨hsize', hval⟩
    refine ⟨hsize'.trans hsize, fun j hj t hlo hhi => ?_, fun t ht => ?_⟩
    · have hle := hA.start_mono (show j + 1 ≤ m + 1 by omega) hm
      rw [hval t (by omega)]
      rcases Nat.lt_succ_iff_lt_or_eq.mp hj with hlt | rfl
      · have hle' := hA.start_mono (show j + 1 ≤ m by omega) hm.le
        rw [if_neg (by rw [List.mem_range'_1]; omega)]
        exact h.done j hlt t hlo hhi
      · rw [if_pos (by rw [List.mem_range'_1]; omega), h.todo t hlo]
    · rcases Nat.lt_or_ge t value.size with hlt | hge
      · rw [hval t hlt, if_neg (by rw [List.mem_range'_1]; omega)]
        exact h.todo t (by omega)
      · rw [Array.getD, dif_neg (by omega), Array.getD, dif_neg (by omega)]

/-- **Scaling multiplies each entry** by the factors of its row and its column. -/
theorem scaleRowsCols_ensures (hA : A.WellFormed) (hl : l.size = A.nrows) (hr : r.size = A.ncols) :
    Ensures (A.scaleRowsCols l r) fun B => SamePattern A B ∧
      ScaledUpTo A l r A.ncols B.value := by
  have hloop := ensures_foldlM_range (n := A.ncols) (s := A.value)
    (f := fun value j => do
      let rj ← read r j
      (← A.slots j).foldlM (scaleColumn A.rowIndex l rj) value)
    (I := ScaledUpTo A l r) ⟨rfl, by simp, fun _ _ => rfl⟩
    (by
      intro m value hm h
      rw [read_eq_ok_getD 0 (by omega), ok_bind, hA.slots_eq hm, ok_bind]
      exact h.step_ensures hA hl hm)
  rw [scaleRowsCols, require_eq_ok hl, ok_bind, require_eq_ok hr, ok_bind, hA.columnIndices_eq]
  refine hloop.bind fun value h => ?_
  exact .ok ⟨⟨rfl, rfl, rfl, rfl, h.size_eq⟩, h⟩

/-- `B` is `A` with entries scaled by row and column. -/
structure IsScaled (A : Csc α) (l r : Array α) (B : Csc α) : Prop where
  samePattern : SamePattern A B
  cols_eq : ∀ j < A.ncols, B.cols.getD j [] =
    (A.cols.getD j []).map fun p => (p.1, p.2 * (l.getD p.1 0 * r.getD j 0))

/-- **Scaling, column by column.** -/
theorem isScaled_ensures (hA : A.WellFormed) (hl : l.size = A.nrows) (hr : r.size = A.ncols) :
    Ensures (A.scaleRowsCols l r) (IsScaled A l r) := by
  refine (scaleRowsCols_ensures hA hl hr).mono ?_
  rintro B ⟨hsame, hval⟩
  refine ⟨hsame, fun j hj => ?_⟩
  have hB := hsame.wellFormed hA
  have hstart : ∀ i, B.start i = A.start i := fun i => by rw [start, start, hsame.colStart_eq]
  rw [getD_cols (by rw [hsame.ncols_eq]; exact hj), getD_cols hj]
  have hend := hA.start_le (j := j + 1) hj
  have hsizeA := hA.size_value
  have hsizeB := hsame.size_value
  apply List.ext_getElem?
  intro t
  rw [List.getElem?_map, List.getElem?_drop, List.getElem?_drop, List.getElem?_take,
    List.getElem?_take, hstart, hstart]
  split_ifs with ht
  · have hA' : A.pairs[A.start j + t]? = some (A.rowIndex.getD (A.start j + t) 0,
        A.value.getD (A.start j + t) 0) := by
      rw [pairs, List.getElem?_zip_eq_some, getD_of_lt 0 (by omega), getD_of_lt 0 (by omega)]
      simp
    have hB' : B.pairs[A.start j + t]? = some (A.rowIndex.getD (A.start j + t) 0,
        B.value.getD (A.start j + t) 0) := by
      rw [pairs, List.getElem?_zip_eq_some, hsame.rowIndex_eq, getD_of_lt 0 (by omega),
        getD_of_lt 0 (by omega)]
      simp
    rw [hA', hB', hval.done j hj _ (by omega) ht]
    rfl
  · rfl

theorem cols_scale (A : Csc α) (c : α) :
    (A.scale c).cols = A.cols.map (List.map fun p => (p.1, p.2 * c)) := by
  have hpairs : (A.scale c).pairs = A.pairs.map fun p => (p.1, p.2 * c) := by
    rw [pairs, pairs, scale, Dense.scale, Array.toList_map, List.zip_map_right]
    rfl
  rw [cols, cols, List.map_map, hpairs]
  refine List.map_congr_left fun j _ => ?_
  simp only [Function.comp_apply, List.map_drop, List.map_take]
  rfl

theorem samePattern_scale (A : Csc α) (c : α) : SamePattern A (A.scale c) :=
  ⟨rfl, rfl, rfl, rfl, by simp [scale]⟩

end Scaling

/-- **Every number is scaled** by row and column. -/
theorem IsScaled.coeff_eq {A B : Csc K} {l r : Array K} (h : IsScaled A l r B) {i j : ℕ}
    (hj : j < A.ncols) : B.coeff i j = A.coeff i j * (l.getD i 0 * r.getD j 0) := by
  rw [coeff_eq_sum_col _ (by rw [h.samePattern.ncols_eq]; exact hj), coeff_eq_sum_col _ hj,
    h.cols_eq j hj, List.map_map, ← List.sum_map_mul_right]
  congr 1
  refine List.map_congr_left fun p _ => ?_
  by_cases hp : p.1 = i
  · simp [hp]
  · simp [hp]

theorem coeff_scale (A : Csc K) (c : K) (i j : ℕ) : (A.scale c).coeff i j = A.coeff i j * c := by
  rcases Nat.lt_or_ge j A.ncols with hj | hj
  · have hcol : (A.scale c).cols.getD j [] = (A.cols.getD j []).map fun p => (p.1, p.2 * c) := by
      rw [cols_scale]
      exact List.getD_map A.cols [] (List.map fun p => (p.1, p.2 * c))
    rw [coeff_eq_sum_col (A.scale c) hj, coeff_eq_sum_col _ hj, hcol, List.map_map,
      ← List.sum_map_mul_right]
    congr 1
    refine List.map_congr_left fun p _ => ?_
    by_cases hp : p.1 = i
    · simp [hp]
    · simp [hp]
  · rw [coeff_of_ge (A.scale c) hj, coeff_of_ge _ hj, zero_mul]

end Csc

end SplitQP
