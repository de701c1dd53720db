import SplitQP.Proofs.Sparse.Reshape
import SplitQP.Proofs.Sparse.Revalued
import SplitQP.Proofs.Sparse.Sorted
import SplitQP.Sparse.Filling
/-!
# Sparse matrices — the canonical form

What a column holds in row `i` is the sum of its entries there, in the
order in which they are stored (`valueAt`). A sorted column is determined
by what it holds (`IsSorted.eq_of_valueAt`), and the canonical column holds
what the column held (`valueAt_canonicalColumn`). So canonical form is
reached by sorting and merging neighbours as well (`merge_eq_canonicalize`),
it changes nothing in a sorted matrix, and it changes no entry, whatever
the addition is.
-/

namespace SplitQP

open Checked

namespace Csc

variable {α : Type} [Add α]

/-! ## What a column holds -/

/-- What numbers add up to from left to right, where there are any. -/
def total : List α → Option α
  | [] => none
  | v :: vs => some (vs.foldl (· + ·) v)

/-- Adds to what there is, if there is anything. -/
def addTo (held : Option α) (v : α) : Option α := some (held.elim v (· + v))

theorem total_concat (vs : List α) (v : α) : total (vs ++ [v]) = addTo (total vs) v := by
  cases vs with
  | nil => rfl
  | cons w vs => simp [total, addTo, List.foldl_append]

/-- **The entries of a column in row `i`, added up** in storage order. -/
def valueAt (i : ℕ) (col : List (ℕ × α)) : Option α := total ((col.filter (·.1 = i)).map (·.2))

theorem valueAt_concat (i j : ℕ) (v : α) (col : List (ℕ × α)) :
    valueAt i (col ++ [(j, v)]) = if j = i then addTo (valueAt i col) v else valueAt i col := by
  rw [valueAt, valueAt, List.filter_append, List.map_append]
  split_ifs with hij
  · rw [List.filter_cons_of_pos (by simpa using hij), List.filter_nil, List.map_singleton,
      total_concat]
  · rw [List.filter_cons_of_neg (by simpa using hij), List.filter_nil, List.map_nil,
      List.append_nil]

theorem valueAt_cons_of_ne {i j : ℕ} (hij : j ≠ i) (v : α) (col : List (ℕ × α)) :
    valueAt i ((j, v) :: col) = valueAt i col := by
  rw [valueAt, List.filter_cons_of_neg (by simpa using hij), valueAt]

/-- A row is stored where the column holds something. -/
theorem valueAt_isSome_iff {i : ℕ} {col : List (ℕ × α)} :
    (valueAt i col).isSome ↔ i ∈ col.map (·.1) := by
  induction col using List.reverseRecOn with
  | nil => simp [valueAt, total]
  | append_singleton col p ih =>
    obtain ⟨j, v⟩ := p
    rw [valueAt_concat, List.map_append, List.mem_append, ← ih]
    split_ifs with hij
    · simp [addTo, hij]
    · simp [Ne.symm hij]

theorem valueAt_eq_none_iff {i : ℕ} {col : List (ℕ × α)} :
    valueAt i col = none ↔ i ∉ col.map (·.1) := by
  rw [← valueAt_isSome_iff, Option.not_isSome_iff_eq_none]

/-- Nothing is held above the rows of a sorted column. -/
theorem IsSorted.valueAt_of_lt {i j : ℕ} {v : α} {col : List (ℕ × α)}
    (h : IsSorted ((j, v) :: col)) (hij : i ≤ j) : valueAt i col = none := by
  rw [valueAt_eq_none_iff, List.mem_map]
  rintro ⟨p, hp, rfl⟩
  exact absurd ((List.pairwise_cons.mp h).1 p hp) (by simpa using hij)

theorem IsSorted.valueAt_head {j : ℕ} {v : α} {col : List (ℕ × α)}
    (h : IsSorted ((j, v) :: col)) : valueAt j ((j, v) :: col) = some v := by
  have hnone := h.valueAt_of_lt le_rfl
  rw [valueAt] at hnone ⊢
  rw [List.filter_cons_of_pos (by simp)]
  cases hfilter : col.filter (·.1 = j) with
  | nil => rfl
  | cons p ps => simp [hfilter, total] at hnone

/-- **A sorted column is determined** by what it holds. -/
theorem IsSorted.eq_of_valueAt {col col' : List (ℕ × α)} (h : IsSorted col) (h' : IsSorted col')
    (heq : ∀ i, valueAt i col = valueAt i col') : col = col' := by
  induction col generalizing col' with
  | nil =>
    cases col' with
    | nil => rfl
    | cons q col' =>
      have := heq q.1
      rw [h'.valueAt_head] at this
      cases this
  | cons p col ih =>
    cases col' with
    | nil =>
      have := heq p.1
      rw [h.valueAt_head] at this
      cases this
    | cons q col' =>
      -- the first row of either column is the first that it holds
      have hrow : p.1 = q.1 := by
        rcases lt_trichotomy p.1 q.1 with hlt | hrow | hgt
        · have := heq p.1
          rw [h.valueAt_head, valueAt_cons_of_ne hlt.ne', h'.valueAt_of_lt hlt.le] at this
          cases this
        · exact hrow
        · have := heq q.1
          rw [h'.valueAt_head, valueAt_cons_of_ne hgt.ne', h.valueAt_of_lt hgt.le] at this
          cases this
      have hvalue : p.2 = q.2 := by
        have := heq p.1
        rw [h.valueAt_head, hrow, h'.valueAt_head] at this
        exact Option.some.inj this
      obtain rfl : p = q := Prod.ext hrow hvalue
      refine congrArg _ (ih (List.pairwise_cons.mp h).2 (List.pairwise_cons.mp h').2 fun i => ?_)
      by_cases hi : i ≤ p.1
      · rw [h.valueAt_of_lt hi, h'.valueAt_of_lt hi]
      · have := heq i
        rwa [valueAt_cons_of_ne (by omega), valueAt_cons_of_ne (by omega)] at this

/-! ## Canonical columns -/

/-- Adding an entry keeps a column sorted. -/
theorem IsSorted.addEntry {col : List (ℕ × α)} (h : IsSorted col) (i : ℕ) (v : α) :
    IsSorted (Csc.addEntry i v col) := by
  induction col with
  | nil => exact List.pairwise_singleton _ _
  | cons p col ih =>
    obtain ⟨hp, hcol⟩ := List.pairwise_cons.mp h
    rw [Csc.addEntry]
    split_ifs with hlt heq
    · refine List.pairwise_cons.mpr ⟨fun q hq => ?_, h⟩
      rcases List.mem_cons.mp hq with rfl | hq
      · exact hlt
      · exact hlt.trans (hp q hq)
    · exact List.pairwise_cons.mpr ⟨hp, hcol⟩
    · refine List.pairwise_cons.mpr ⟨fun q hq => ?_, ih hcol⟩
      rcases (map_fst_addEntry_subset i v col).mp (List.mem_map_of_mem hq) with hrow | hrow
      · simp only at hrow ⊢
        omega
      · obtain ⟨q', hq', hrow⟩ := List.mem_map.mp hrow
        rw [← hrow]
        exact hp q' hq'

/-- **An entry is added to what the column holds** in its row. -/
theorem IsSorted.valueAt_addEntry {col : List (ℕ × α)} (h : IsSorted col) (i j : ℕ) (v : α) :
    valueAt i (Csc.addEntry j v col) =
      if j = i then addTo (valueAt i col) v else valueAt i col := by
  induction col with
  | nil => exact valueAt_concat i j v []
  | cons p col ih =>
    obtain ⟨r, w⟩ := p
    have hcol : IsSorted col := (List.pairwise_cons.mp h).2
    have hsorted := h.addEntry j v
    rw [Csc.addEntry] at hsorted ⊢
    split_ifs at hsorted ⊢ with hlt hij heq hij hij
    · subst hij
      rw [hsorted.valueAt_head, hsorted.valueAt_of_lt le_rfl]
      rfl
    · exact valueAt_cons_of_ne hij _ _
    · subst hij heq
      rw [hsorted.valueAt_head, h.valueAt_head]
      rfl
    · rw [valueAt_cons_of_ne (by omega), valueAt_cons_of_ne (by omega)]
    · rw [valueAt_cons_of_ne (by omega), valueAt_cons_of_ne (by omega), ih hcol, if_pos hij]
    · by_cases hr : r = i
      · subst hr
        rw [hsorted.valueAt_head, h.valueAt_head]
      · rw [valueAt_cons_of_ne hr, valueAt_cons_of_ne hr, ih hcol, if_neg hij]

theorem canonicalColumn_concat (col : List (ℕ × α)) (p : ℕ × α) :
    canonicalColumn (col ++ [p]) = addEntry p.1 p.2 (canonicalColumn col) := by
  rw [canonicalColumn, List.foldl_append]
  rfl

theorem isSorted_canonicalColumn (col : List (ℕ × α)) : IsSorted (canonicalColumn col) := by
  induction col using List.reverseRecOn with
  | nil => exact .nil
  | append_singleton col p ih =>
    rw [canonicalColumn_concat]
    exact ih.addEntry _ _

/-- **The canonical column holds what the column held.** -/
theorem valueAt_canonicalColumn (i : ℕ) (col : List (ℕ × α)) :
    valueAt i (canonicalColumn col) = valueAt i col := by
  induction col using List.reverseRecOn with
  | nil => rfl
  | append_singleton col p ih =>
    rw [canonicalColumn_concat, (isSorted_canonicalColumn col).valueAt_addEntry, ih,
      valueAt_concat]

/-- **Sorted columns are canonical,** and no others. -/
theorem canonicalColumn_eq_self_iff {col : List (ℕ × α)} :
    canonicalColumn col = col ↔ IsSorted col := by
  constructor
  · intro h
    rw [← h]
    exact isSorted_canonicalColumn col
  · exact fun h => (isSorted_canonicalColumn col).eq_of_valueAt h
      fun i => valueAt_canonicalColumn i col

/-- Sorting first makes no difference. -/
theorem canonicalColumn_mergeSort (col : List (ℕ × α)) :
    canonicalColumn (col.mergeSort (·.1 ≤ ·.1)) = canonicalColumn col := by
  refine (isSorted_canonicalColumn _).eq_of_valueAt (isSorted_canonicalColumn _) fun i => ?_
  rw [valueAt_canonicalColumn, valueAt_canonicalColumn, valueAt, valueAt,
    filter_mergeSort (fun p : ℕ × α => p.1)]

/-! ## Merging neighbours -/

theorem addEntry_of_forall_lt {i : ℕ} {col : List (ℕ × α)} (h : ∀ p ∈ col, p.1 < i) (v : α) :
    addEntry i v col = col ++ [(i, v)] := by
  induction col with
  | nil => rfl
  | cons p col ih =>
    obtain ⟨hp, hcol⟩ := List.forall_mem_cons.mp h
    rw [addEntry, if_neg (by omega), if_neg (by omega), ih hcol, List.cons_append]

theorem addEntry_last {i : ℕ} {col : List (ℕ × α)} (h : ∀ p ∈ col, p.1 < i) (v w : α) :
    addEntry i v (col ++ [(i, w)]) = col ++ [(i, w + v)] := by
  induction col with
  | nil => simp [addEntry]
  | cons p col ih =>
    obtain ⟨hp, hcol⟩ := List.forall_mem_cons.mp h
    rw [List.cons_append, addEntry, if_neg (by omega), if_neg (by omega), ih hcol,
      List.cons_append]

namespace Merging

/-- The entries merged so far. -/
structure Holds (s : Merging α) (merged : List (ℕ × α)) : Prop where
  rowIndex_eq : s.rowIndex = (merged.map (·.1)).toArray
  value_eq : s.value = (merged.map (·.2)).toArray

/-- **One entry is added to its column,** whose rows do not come after it. What is merged
before the column starts is left alone. -/
theorem Holds.push {s : Merging α} {before col : List (ℕ × α)} (h : s.Holds (before ++ col))
    (hcol : IsSorted col) {p : ℕ × α} (hle : ∀ q ∈ col, q.1 ≤ p.1) :
    (Merging.push before.length s p).Holds (before ++ addEntry p.1 p.2 col) := by
  obtain ⟨colStart, rowIndex, value⟩ := s
  obtain ⟨rfl, rfl⟩ := h
  obtain ⟨i, v⟩ := p
  rcases List.eq_nil_or_concat' col with rfl | ⟨col, ⟨r, w⟩, rfl⟩
  · rw [Merging.push, if_neg (by simp)]
    exact ⟨by simp [addEntry], by simp [addEntry]⟩
  · have hr : r ≤ i := hle (r, w) (by simp)
    have hlast : ∀ q ∈ col, q.1 < r := fun q hq =>
      (List.pairwise_append.mp hcol).2.2 q hq (r, w) (by simp)
    rcases Nat.eq_or_lt_of_le hr with rfl | hlt
    · rw [Merging.push, if_pos (by simp), addEntry_last hlast]
      refine ⟨by simp, ?_⟩
      have hadd := modify_concat (before.map (·.2) ++ col.map (·.2)) w (· + v)
      simpa [← Array.toList_inj] using hadd
    · have hall : ∀ q ∈ col ++ [(r, w)], q.1 < i := by
        simp only [List.mem_append, List.mem_singleton]
        rintro q (hq | rfl)
        · exact (hlast q hq).trans hlt
        · exact hlt
      rw [Merging.push, if_neg (by simp; omega), addEntry_of_forall_lt hall]
      exact ⟨by simp, by simp⟩

/-- **A column in the order of its rows** is merged into its canonical form. -/
theorem Holds.foldl_push {before rest col : List (ℕ × α)} {s : Merging α}
    (h : s.Holds (before ++ col)) (hcol : IsSorted col)
    (hrest : rest.Pairwise fun p q => p.1 ≤ q.1) (hle : ∀ p ∈ rest, ∀ q ∈ col, q.1 ≤ p.1) :
    (rest.foldl (Merging.push before.length) s).Holds
      (before ++ rest.foldl (fun acc p => addEntry p.1 p.2 acc) col) := by
  induction rest generalizing s col with
  | nil => exact h
  | cons p rest ih =>
    obtain ⟨hp, hrest⟩ := List.pairwise_cons.mp hrest
    rw [List.foldl_cons, List.foldl_cons]
    refine ih (h.push hcol (hle p (by simp))) (hcol.addEntry _ _) hrest fun q hq r hr => ?_
    rcases (map_fst_addEntry_subset p.1 p.2 col).mp (List.mem_map_of_mem hr) with hrow | hrow
    · exact hrow.trans_le (hp q hq)
    · obtain ⟨r', hr', hrow⟩ := List.mem_map.mp hrow
      rw [← hrow]
      exact hle q (by simp [hq]) r' hr'

theorem colStart_foldl_push (start : ℕ) (rest : List (ℕ × α)) (s : Merging α) :
    (rest.foldl (Merging.push start) s).colStart = s.colStart := by
  induction rest generalizing s with
  | nil => rfl
  | cons p rest ih =>
    rw [List.foldl_cons, ih, Merging.push]
    split_ifs <;> rfl

/-- **The columns before `j` are merged,** and it is known where they start. -/
structure UpTo (A : Csc α) (j : ℕ) (s : Merging α) : Prop where
  size_colStart : s.colStart.size = A.ncols + 1
  start_eq : ∀ i ≤ j, s.colStart.getD i 0 = A.canonical.start i
  holds : s.Holds (A.canonical.cols.take j).flatten

/-- One more column. -/
theorem UpTo.step_ensures {A : Csc α} (hA : A.WellFormed) {j : ℕ} {s : Merging α}
    (h : UpTo A j s) (hj : j < A.ncols) :
    Ensures (Merging.column A s j) (UpTo A (j + 1)) := by
  have hsize := h.size_colStart
  have hcanonical := wellFormed_canonical hA
  have hlength : ∀ i ≤ A.ncols, (A.canonical.cols.take i).flatten.length = A.canonical.start i := by
    intro i hi
    have hi' : i ≤ A.canonical.ncols := by rwa [ncols_canonical]
    rw [hcanonical.flatten_take_cols hi', List.length_take, hcanonical.length_pairs,
      Nat.min_eq_left (hcanonical.start_le hi')]
  have htake : (A.canonical.cols.take (j + 1)).flatten =
      (A.canonical.cols.take j).flatten ++
        canonicalColumn ((A.cols.getD j []).mergeSort (·.1 ≤ ·.1)) := by
    have hlt : j < A.canonical.cols.length := by rwa [length_cols, ncols_canonical]
    rw [List.take_succ_eq_append_getElem hlt, List.flatten_append, List.flatten_singleton,
      canonicalColumn_mergeSort, List.getD_eq_getElem _ _ (by rwa [length_cols])]
    simp only [canonical, cols_ofColumns, List.getElem_map]
  -- the column starts where the merged entries end
  have hmerged : (((A.cols.getD j []).mergeSort (·.1 ≤ ·.1)).foldl
      (Merging.push (A.canonical.start j)) s).Holds (A.canonical.cols.take (j + 1)).flatten := by
    rw [htake, ← hlength j hj.le]
    exact Holds.foldl_push (by rw [List.append_nil]; exact h.holds) .nil (pairwise_mergeSort _ _)
      (by simp)
  rw [Merging.column, hA.column_eq hj, ok_bind, read_eq_ok_getD 0 (by omega), h.start_eq j le_rfl]
  simp only [ok_bind]
  rw [colStart_foldl_push, write_eq_ok_setIfInBounds (by omega)]
  refine .ok ⟨by simpa using hsize, fun i hi => ?_, ⟨hmerged.rowIndex_eq, hmerged.value_eq⟩⟩
  rcases Nat.eq_or_lt_of_le hi with rfl | hlt
  · rw [hmerged.rowIndex_eq, List.size_toArray, List.length_map, hlength (j + 1) hj]
    simp [hsize, hj]
  · rw [← h.start_eq i (by omega)]
    simp [Array.getD_eq_getD_getElem?, hlt.ne']

end Merging

omit [Add α] in
/-- The fields of a well-formed matrix have lengths that fit. -/
theorem WellFormed.ofFields_eq {A : Csc α} (h : A.WellFormed) :
    ofFields A.nrows A.ncols A.colStart A.rowIndex A.value = .ok A := by
  have hsize := h.size_colStart
  rw [ofFields, require_eq_ok h.size_value.symm, ok_bind, require_eq_ok hsize, ok_bind,
    require_eq_ok ((start_eq_iff (by omega)).mpr h.start_last), ok_bind]
  rfl

/-- **Sorting and merging neighbours** is adding up one by one. -/
theorem merge_eq_canonicalize {A : Csc α} (hA : A.WellFormed) : A.merge = A.canonicalize := by
  have hcanonical := wellFormed_canonical hA
  obtain ⟨s, hloop, h⟩ := ensures_foldlM_range (n := A.ncols) (f := Merging.column A)
    (s := ⟨Array.replicate (A.ncols + 1) 0, #[], #[]⟩) (I := Merging.UpTo A)
    ⟨by simp, by simp [hcanonical.start_zero], ⟨by simp, by simp⟩⟩
    fun j s hj hs => hs.step_ensures hA hj
  have hcols : (A.canonical.cols.take A.ncols).flatten = A.canonical.pairs := by
    rw [← hcanonical.flatten_cols, List.take_of_length_le (by simp)]
  have hrow : s.rowIndex = A.canonical.rowIndex := by
    rw [h.holds.rowIndex_eq, hcols, canonical, pairs_ofColumns]
    rfl
  have hvalue : s.value = A.canonical.value := by
    rw [h.holds.value_eq, hcols, canonical, pairs_ofColumns]
    rfl
  have hsize := h.size_colStart
  have hsizes := hcanonical.size_colStart
  rw [ncols_canonical] at hsizes
  have hstart : s.colStart = A.canonical.colStart := by
    apply Array.ext
    · omega
    · intro i h1 h2
      have := h.start_eq i (by omega)
      rwa [start, Array.getD, dif_pos h1, Array.getD, dif_pos h2] at this
  have hfields := hcanonical.ofFields_eq
  rw [nrows_canonical, ncols_canonical] at hfields
  rw [merge, canonicalize, hA.nnz_eq, ok_bind, ok_bind]
  congr 1
  funext _
  rw [hA.columnIndices_eq, hloop, hA.columns_eq, ok_bind, ok_bind, hrow, hvalue, hstart]
  exact hfields

/-! ## The matrix that is kept -/

variable {A : Csc α}

/-- **Looking up an entry** is looking at a column. -/
theorem WellFormed.entry?_eq (hA : A.WellFormed) (i j : ℕ) : A.entry? i j =
    if i < A.nrows ∧ j < A.ncols then .ok (valueAt i (A.cols.getD j []))
    else .error .outOfRange := by
  rw [ entry?, require]
  split_ifs with hin
  · rw [ok_bind, hA.column_eq hin.2, ok_bind, valueAt]
    cases (A.cols.getD j []).filter (·.1 = i) with
    | nil => rfl
    | cons p ps => simp only [List.map_cons, total, List.foldl_map, pure_eq_ok]
  · rfl

@[simp] theorem cols_canonical : A.canonical.cols = A.cols.map canonicalColumn := cols_ofColumns

theorem entry?_canonical (hA : A.WellFormed) (i j : ℕ) :
    A.canonical.entry? i j = A.entry? i j := by
  have hcol : A.canonical.cols.getD j [] = canonicalColumn (A.cols.getD j []) := by
    rw [cols_canonical]
    exact List.getD_map A.cols [] canonicalColumn
  rw [(wellFormed_canonical hA).entry?_eq, hA.entry?_eq, hcol, valueAt_canonicalColumn,
    nrows_canonical, ncols_canonical]

theorem checkFormatSorted_canonical (hA : A.WellFormed) :
    A.canonical.checkFormatSorted = .ok (.ok ()) := by
  refine checkFormatSorted_eq_ok_iff.mpr ⟨wellFormed_canonical hA, fun col hcol => ?_⟩
  rw [cols_canonical] at hcol
  obtain ⟨col, -, rfl⟩ := List.mem_map.mp hcol
  exact isSorted_canonicalColumn col

/-- **Sorted matrices are canonical,** and no others. -/
theorem canonical_eq_self_iff (hA : A.WellFormed) :
    A.canonical = A ↔ A.checkFormatSorted = .ok (.ok ()) := by
  rw [checkFormatSorted_eq_ok_iff, and_iff_right hA]
  constructor
  · intro h col hcol
    rw [← h, cols_canonical] at hcol
    obtain ⟨col, -, rfl⟩ := List.mem_map.mp hcol
    exact isSorted_canonicalColumn col
  · intro h
    have hcols : A.cols.map canonicalColumn = A.cols :=
      (List.map_congr_left fun col hcol => canonicalColumn_eq_self_iff.mpr (h col hcol)).trans
        (List.map_id _)
    rw [canonical, hcols, ← hA.eq_ofColumns]

theorem canonical_canonical (hA : A.WellFormed) : A.canonical.canonical = A.canonical :=
  (canonical_eq_self_iff (wellFormed_canonical hA)).mpr (checkFormatSorted_canonical hA)

theorem length_canonicalColumn_le (col : List (ℕ × α)) :
    (canonicalColumn col).length ≤ col.length := by
  have hadd : ∀ (i : ℕ) (v : α) (col : List (ℕ × α)),
      (addEntry i v col).length ≤ col.length + 1 := by
    intro i v col
    induction col with
    | nil => exact le_rfl
    | cons p col ih =>
      rw [addEntry]
      split_ifs <;> simp [ih]
  induction col using List.reverseRecOn with
  | nil => exact le_rfl
  | append_singleton col p ih =>
    have := hadd p.1 p.2 (canonicalColumn col)
    rw [canonicalColumn_concat, List.length_append, List.length_singleton]
    omega

theorem size_canonical_le (hA : A.WellFormed) : A.canonical.rowIndex.size ≤ A.rowIndex.size := by
  have hwf := wellFormed_canonical hA
  rw [← hwf.length_pairs, ← hwf.flatten_cols, ← hA.length_pairs, ← hA.flatten_cols,
    cols_canonical, List.length_flatten, List.length_flatten, List.map_map]
  exact List.sum_le_sum fun col _ => length_canonicalColumn_le col

omit [Add α] in
/-- Entries are in the rows of their columns. -/
theorem exists_mem_entryList_iff {i j : ℕ} :
    (∃ e ∈ A.entryList, e.row = i ∧ e.col = j) ↔ i ∈ (A.cols.getD j []).map (·.1) := by
  rw [List.mem_map]
  constructor
  · rintro ⟨e, he, rfl, rfl⟩
    obtain ⟨hlt, hmem⟩ := mem_entriesOf.mp he
    exact ⟨(e.row, e.value), by rwa [List.getD_eq_getElem _ _ hlt], rfl⟩
  · rintro ⟨p, hp, rfl⟩
    rcases Nat.lt_or_ge j A.cols.length with hlt | hge
    · rw [List.getD_eq_getElem _ _ hlt] at hp
      exact ⟨⟨p.1, j, p.2⟩, mem_entriesOf.mpr ⟨hlt, hp⟩, rfl, rfl⟩
    · rw [List.getD_eq_default _ _ hge] at hp
      cases hp

/-- Doubles in three places, one of them at the end of a column and one in the same row at
the start of the next that is not empty. In another order the first three add up to 1. -/
def crowded : Csc Float :=
  ⟨3, 3, #[0, 5, 5, 7], #[2, 0, 2, 2, 0, 2, 2], #[1, 2, 1e16, -1e16, 3, 5, -4]⟩

end Csc

end SplitQP
