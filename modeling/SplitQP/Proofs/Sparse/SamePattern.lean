import SplitQP.Proofs.Sparse.AsMatrix
/-!
# Sparse matrices — one pattern, other values

Where the entries stand is one thing, their values another: the values of
the entries are the stored values in order (`map_value_entryList`), and
matrices of one pattern have their entries at the same places
(`SamePattern.map_place`).
-/

namespace SplitQP

namespace Csc

variable {α : Type}

/-- Without their columns, entries are the pairs in storage. -/
theorem map_pair_entriesOf {β : Type} (cols : List (List (ℕ × α))) (f : ℕ × α → β) :
    (entriesOf cols).map (fun e => f (e.row, e.value)) = cols.flatten.map f := by
  rw [entriesOf, List.map_flatten, List.map_flatten, List.map_map]
  congr 1
  apply List.ext_getElem
  · simp
  · intro j h1 h2
    simp [Function.comp_def]

theorem map_value_entriesOf (cols : List (List (ℕ × α))) :
    (entriesOf cols).map (·.value) = cols.flatten.map (·.2) := map_pair_entriesOf cols (·.2)

theorem WellFormed.map_value_entryList {A : Csc α} (h : A.WellFormed) :
    A.entryList.map (·.value) = A.value.toList := by
  rw [entryList, map_value_entriesOf, h.flatten_cols, pairs, List.map_snd_zip]
  simp [h.size_value]

theorem WellFormed.map_row_entryList {A : Csc α} (h : A.WellFormed) :
    A.entryList.map (·.row) = A.rowIndex.toList := by
  rw [entryList, map_pair_entriesOf A.cols (·.1), h.flatten_cols, pairs, List.map_fst_zip]
  simp [h.size_value]

theorem WellFormed.length_entryList {A : Csc α} (h : A.WellFormed) :
    A.entryList.length = A.rowIndex.size := by
  rw [← List.length_map (f := fun e : Entry α => e.value), h.map_value_entryList,
    Array.length_toList, h.size_value]

/-- The value of an entry is stored at its position. -/
theorem WellFormed.getD_value {A : Csc α} (h : A.WellFormed) (d : α) {k : ℕ}
    (hk : k < A.entryList.length) : A.value.getD k d = A.entryList[k].value := by
  have hlt : k < A.value.size := by rwa [h.size_value, ← h.length_entryList]
  have hget : A.value.toList[k]? = (A.entryList.map (·.value))[k]? := by
    rw [h.map_value_entryList]
  rw [List.getElem?_map, List.getElem?_eq_getElem hk, Array.getElem?_toList,
    Array.getElem?_eq_getElem hlt, Option.map_some, Option.some_inj] at hget
  rw [Array.getD, dif_pos hlt]
  exact hget

/-- **`B` differs from `A` in its values only.** -/
structure SamePattern (A B : Csc α) : Prop where
  nrows_eq : B.nrows = A.nrows
  ncols_eq : B.ncols = A.ncols
  colStart_eq : B.colStart = A.colStart
  rowIndex_eq : B.rowIndex = A.rowIndex
  size_value : B.value.size = A.value.size

theorem SamePattern.refl (A : Csc α) : SamePattern A A := ⟨rfl, rfl, rfl, rfl, rfl⟩

theorem SamePattern.trans {A B C : Csc α} (h : SamePattern A B) (h' : SamePattern B C) :
    SamePattern A C where
  nrows_eq := h'.nrows_eq.trans h.nrows_eq
  ncols_eq := h'.ncols_eq.trans h.ncols_eq
  colStart_eq := h'.colStart_eq.trans h.colStart_eq
  rowIndex_eq := h'.rowIndex_eq.trans h.rowIndex_eq
  size_value := h'.size_value.trans h.size_value

/-- With the values of `B`, `A` is `B`. -/
theorem SamePattern.with_value {A B : Csc α} (h : SamePattern A B) :
    ({ A with value := B.value } : Csc α) = B := by
  cases B
  obtain ⟨rfl, rfl, rfl, rfl, -⟩ := h
  rfl

theorem SamePattern.wellFormed {A B : Csc α} (h : SamePattern A B) (hA : A.WellFormed) :
    B.WellFormed where
  size_value := by rw [h.size_value, h.rowIndex_eq, hA.size_value]
  size_colStart := by rw [h.colStart_eq, h.ncols_eq, hA.size_colStart]
  start_last := by
    rw [start, h.colStart_eq, h.ncols_eq, h.rowIndex_eq]
    exact hA.start_last
  start_zero := by
    rw [start, h.colStart_eq]
    exact hA.start_zero
  start_mono := by
    intro i j hij hj
    rw [start, start, h.colStart_eq]
    exact hA.start_mono hij (h.ncols_eq ▸ hj)
  row_lt := by
    rw [h.rowIndex_eq, h.nrows_eq]
    exact hA.row_lt

/-- Where the entries stand, column after column. -/
theorem SamePattern.map_cols {A B : Csc α} (h : SamePattern A B) (hA : A.WellFormed) :
    B.cols.map (List.map (·.1)) = A.cols.map (List.map (·.1)) := by
  have hfst : ∀ C : Csc α, C.WellFormed → C.pairs.map (·.1) = C.rowIndex.toList := fun C hC => by
    rw [pairs, List.map_fst_zip]
    simp [hC.size_value]
  simp only [cols, start, List.map_map, h.ncols_eq, h.colStart_eq]
  refine List.map_congr_left fun j _ => ?_
  simp only [Function.comp_apply, List.map_drop, List.map_take, hfst A hA,
    hfst B (h.wellFormed hA), h.rowIndex_eq]

theorem map_place_entriesOf (cols : List (List (ℕ × α))) :
    (entriesOf cols).map (fun e => (e.row, e.col)) =
      ((cols.map (List.map (·.1))).zipIdx.map
        fun (rows, j) => rows.map fun i => (i, j)).flatten := by
  rw [entriesOf, List.map_flatten, List.map_map, List.zipIdx_map, List.map_map]
  congr 1
  refine List.map_congr_left fun c _ => ?_
  simp [Function.comp_def]

theorem SamePattern.map_place {A B : Csc α} (h : SamePattern A B) (hA : A.WellFormed) :
    B.entryList.map (fun e => (e.row, e.col)) = A.entryList.map fun e => (e.row, e.col) := by
  rw [entryList, map_place_entriesOf, h.map_cols hA, ← map_place_entriesOf, entryList]

/-- With its values, a pattern is a matrix. -/
theorem SamePattern.eq_of_value {A B : Csc α} (h : SamePattern A B) :
    { A with value := B.value } = B := by
  obtain ⟨h1, h2, h3, h4, -⟩ := h
  cases B
  simp only at h1 h2 h3 h4
  rw [h1, h2, h3, h4]

theorem startsFrom_map {β γ : Type} (f : β → γ) (total : ℕ) (cols : List (List β)) :
    startsFrom total (cols.map (List.map f)) = startsFrom total cols := by
  induction cols generalizing total with
  | nil => rfl
  | cons col cols ih => rw [List.map_cons, startsFrom, startsFrom, List.length_map, ih]

/-- Columns with the same rows make matrices of one pattern. -/
theorem samePattern_ofColumns {n : ℕ} {cols cols' : List (List (ℕ × α))}
    (h : cols'.map (List.map (·.1)) = cols.map (List.map (·.1))) :
    SamePattern (ofColumns n cols) (ofColumns n cols') := by
  have hrows : cols'.flatten.map (·.1) = cols.flatten.map (·.1) := by
    rw [List.map_flatten, List.map_flatten, h]
  refine ⟨rfl, by simpa using congrArg List.length h, ?_, ?_, ?_⟩
  · rw [ofColumns, ofColumns, ← startsFrom_map (·.1) 0 cols, ← h, startsFrom_map]
  · rw [ofColumns, ofColumns, hrows]
  · simpa only [ofColumns, List.size_toArray, List.length_map] using congrArg List.length hrows

end Csc

end SplitQP
