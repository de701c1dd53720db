import SplitQP.Proofs.Sparse.Dropped
import SplitQP.Proofs.Sparse.SamePattern
import SplitQP.Sparse.Filling
/-!
# Sparse matrices — dropping small entries in place

Dropping small entries filters the list of entries
(`entryList_withoutSmall`). In place one position is read and one is
written, and the latter never comes before the former: what is kept so far
stands at the front, what is not yet read is as it was
(`Compaction.Passed`). Column starts are overwritten one behind the one
that is read (`Compaction.UpTo`).
-/

namespace SplitQP

open Checked SplitQP.Dense

namespace Csc

variable {α : Type} [Scalar α] {A : Csc α} {threshold : α}

/-! ## The entries that are kept -/

omit [Scalar α] in
/-- The front of storage, where it is known entry by entry. -/
theorem take_eq_toArray {β : Type} {xs : Array β} {ps : List (ℕ × α)} (f : ℕ × α → β)
    (h : ∀ (t : ℕ) (p : ℕ × α), ps[t]? = some p → xs[t]? = some (f p)) :
    xs.take ps.length = (ps.map f).toArray := by
  apply Array.toList_inj.mp
  apply List.ext_getElem?
  intro t
  rw [Array.take_eq_extract, Array.toList_extract, List.extract_eq_take_drop, List.drop_zero,
    Nat.sub_zero, List.getElem?_take, Array.getElem?_toList, List.getElem?_map]
  split_ifs with ht
  · rw [h t _ (List.getElem?_eq_getElem ht), List.getElem?_eq_getElem ht]
    rfl
  · rw [List.getElem?_eq_none (by omega)]
    rfl

omit [Scalar α] in
/-- One more entry, written behind the front. -/
theorem getElem?_front_concat {β : Type} {xs : Array β} {ps : List (ℕ × α)} (f : ℕ × α → β)
    (h : ∀ (t : ℕ) (p : ℕ × α), ps[t]? = some p → xs[t]? = some (f p)) (q : ℕ × α)
    (hroom : ps.length < xs.size) {t : ℕ} {p : ℕ × α} (hp : (ps ++ [q])[t]? = some p) :
    (xs.setIfInBounds ps.length (f q))[t]? = some (f p) := by
  rcases Nat.lt_or_ge t ps.length with hlt | hge
  · rw [List.getElem?_append_left hlt] at hp
    rw [Array.getElem?_setIfInBounds_ne (by omega), h t p hp]
  · rw [List.getElem?_append_right hge, List.getElem?_singleton] at hp
    split_ifs at hp with hlast
    obtain rfl : t = ps.length := by omega
    obtain rfl := Option.some.inj hp
    rw [Array.getElem?_setIfInBounds_self_of_lt hroom]

theorem keptColumn_concat (threshold : α) (col : List (ℕ × α)) (p : ℕ × α) :
    keptColumn threshold (col ++ [p]) =
      if isKept threshold p.2 then keptColumn threshold col ++ [p]
      else keptColumn threshold col := by
  split_ifs with hp <;> simp [keptColumn, hp]

/-- The entries of filtered columns are the filtered entries. -/
theorem entriesOf_map_keptColumn (cols : List (List (ℕ × α))) :
    entriesOf (cols.map (keptColumn threshold)) =
      (entriesOf cols).filter fun e => isKept threshold e.value := by
  simp only [entriesOf, List.filter_flatten, List.zipIdx_map, List.map_map]
  congr 1
  refine List.map_congr_left fun c _ => ?_
  simp only [Function.comp_apply, Prod.map_fst, Prod.map_snd, id_eq, List.filter_map]
  rfl

/-- **Dropping small entries filters the entries,** in their order. -/
theorem entryList_withoutSmall (A : Csc α) (threshold : α) : (A.withoutSmall threshold).entryList =
    A.entryList.filter fun e => isKept threshold e.value := by
  rw [entryList, cols_withoutSmall, entriesOf_map_keptColumn, entryList]

/-- What is counted are the entries that are left out. -/
theorem size_sub_size_withoutSmall (hA : A.WellFormed) (threshold : α) :
    A.rowIndex.size - (A.withoutSmall threshold).rowIndex.size =
      A.entryList.countP fun e => !isKept threshold e.value := by
  rw [← hA.length_entryList, ← (wellFormed_withoutSmall hA threshold).length_entryList,
    entryList_withoutSmall, ← List.countP_eq_length_filter,
    List.length_eq_countP_add_countP fun e => isKept threshold e.value, Nat.add_sub_cancel_left]
  simp

/-- The first columns without their small entries. -/
theorem flatten_take_withoutSmall (hA : A.WellFormed) {j : ℕ} (hj : j ≤ A.ncols) :
    ((A.withoutSmall threshold).cols.take j).flatten =
      keptColumn threshold (A.pairs.take (A.start j)) := by
  rw [cols_withoutSmall, ← List.map_take, ← hA.flatten_take_cols hj, keptColumn,
    List.filter_flatten]
  rfl

theorem start_withoutSmall (hA : A.WellFormed) {j : ℕ} (hj : j ≤ A.ncols) :
    (A.withoutSmall threshold).start j =
      (keptColumn threshold (A.pairs.take (A.start j))).length := by
  have hwf := wellFormed_withoutSmall hA threshold
  have hj' : j ≤ (A.withoutSmall threshold).ncols := by rwa [ncols_withoutSmall]
  rw [← flatten_take_withoutSmall hA hj, hwf.flatten_take_cols hj', List.length_take,
    hwf.length_pairs, Nat.min_eq_left (hwf.start_le hj')]

/-! ## In place -/

namespace Compaction

/-- **The first `k` entries are passed.** Those that are kept stand at the front, and the
rest has not been touched. -/
structure Passed (A : Csc α) (threshold : α) (k : ℕ) (s : Compaction α) : Prop where
  reading_eq : s.reading = k
  writing_eq : s.writing = (keptColumn threshold (A.pairs.take k)).length
  size_rowIndex : s.rowIndex.size = A.rowIndex.size
  size_value : s.value.size = A.rowIndex.size
  kept : ∀ (t : ℕ) (p : ℕ × α), (keptColumn threshold (A.pairs.take k))[t]? = some p →
    s.rowIndex[t]? = some p.1 ∧ s.value[t]? = some p.2
  rest : ∀ t, k ≤ t → s.rowIndex[t]? = A.rowIndex[t]? ∧ s.value[t]? = A.value[t]?

namespace Passed

variable {k : ℕ} {s : Compaction α}

theorem writing_le (h : Passed A threshold k s) : s.writing ≤ k := by
  rw [h.writing_eq]
  exact (List.length_filter_le _ _).trans (List.length_take_le _ _)

/-- One more entry. -/
theorem step_ensures (h : Passed A threshold k s) (hA : A.WellFormed) (hk : k < A.rowIndex.size) :
    Ensures (s.step threshold) fun s' => Passed A threshold (k + 1) s' ∧
      s'.colStart = s.colStart := by
  have hvalue := hA.size_value
  have hlength := hA.length_pairs
  have hwriting := h.writing_le
  have hrow' := h.size_rowIndex
  have hvalue' := h.size_value
  have hk' : k < A.pairs.length := by omega
  have hpair : A.pairs[k] = (A.rowIndex[k], A.value[k]) := by simp [pairs]
  have hcolumn := keptColumn_concat threshold (A.pairs.take k) (A.rowIndex[k], A.value[k])
  rw [← hpair, ← List.take_succ_eq_append_getElem (by omega), hpair] at hcolumn
  have hrow : s.rowIndex[k]? = some A.rowIndex[k] :=
    (h.rest k le_rfl).1.trans (Array.getElem?_eq_getElem hk)
  have hv : s.value[k]? = some A.value[k] :=
    (h.rest k le_rfl).2.trans (Array.getElem?_eq_getElem (by omega))
  rw [step, h.reading_eq, read_of_getElem? hrow, ok_bind, read_of_getElem? hv, ok_bind]
  by_cases hkept : isKept threshold A.value[k] = true
  · rw [if_pos hkept] at hcolumn
    rw [if_pos hkept, write_eq_ok_setIfInBounds (by omega), ok_bind,
      write_eq_ok_setIfInBounds (by omega), ok_bind]
    refine .ok ⟨⟨rfl, ?_, by simpa using hrow', by simpa using hvalue', ?_, ?_⟩, rfl⟩
    · rw [hcolumn, List.length_append, ← h.writing_eq]
      rfl
    · -- the entry stands behind those that were kept before
      intro t p hp
      rw [hcolumn] at hp
      rw [h.writing_eq] at hwriting ⊢
      exact ⟨getElem?_front_concat (·.1) (fun t p hp => (h.kept t p hp).1) _ (by omega) hp,
        getElem?_front_concat (·.2) (fun t p hp => (h.kept t p hp).2) _ (by omega) hp⟩
    · -- writing has not come further than reading
      intro t ht
      rw [Array.getElem?_setIfInBounds_ne (by omega), Array.getElem?_setIfInBounds_ne (by omega)]
      exact h.rest t (by omega)
  · rw [if_neg hkept] at hcolumn
    rw [if_neg hkept]
    refine .ok ⟨⟨rfl, ?_, hrow', hvalue', ?_, fun t ht => h.rest t (by omega)⟩, rfl⟩
    · rw [hcolumn, h.writing_eq]
    · rw [hcolumn]
      exact h.kept

/-- **Reading on** for `count` entries. -/
theorem run_ensures (h : Passed A threshold k s) (hA : A.WellFormed) {count : ℕ}
    (hcount : k + count ≤ A.rowIndex.size) :
    Ensures ((List.range count).foldlM (fun s _ => s.step threshold) s) fun s' =>
      Passed A threshold (k + count) s' ∧ s'.colStart = s.colStart := by
  refine ensures_foldlM_range (I := fun i s' => Passed A threshold (k + i) s' ∧
    s'.colStart = s.colStart) ⟨h, rfl⟩ ?_
  rintro i s' hi ⟨hs, hcol⟩
  refine (hs.step_ensures hA (by omega)).mono ?_
  rintro s'' ⟨hs', hcol'⟩
  exact ⟨hs', hcol'.trans hcol⟩

end Passed

/-- **The columns before `j` are passed.** Their starts are those without small entries. -/
structure UpTo (A : Csc α) (threshold : α) (j : ℕ) (s : Compaction α) : Prop where
  passed : Passed A threshold (A.start j) s
  size_colStart : s.colStart.size = A.ncols + 1
  done : ∀ i ≤ j, s.colStart.getD i 0 = (A.withoutSmall threshold).start i
  todo : ∀ i, j < i → s.colStart.getD i 0 = A.start i

/-- One more column. -/
theorem UpTo.step_ensures {j : ℕ} {s : Compaction α} (h : UpTo A threshold j s)
    (hA : A.WellFormed) (hj : j < A.ncols) :
    Ensures (s.column threshold j) (UpTo A threshold (j + 1)) := by
  have hsize := h.size_colStart
  have hmono := hA.start_mono (show j ≤ j + 1 by omega) hj
  have hend := hA.start_le (j := j + 1) hj
  rw [column, read_eq_ok_getD 0 (by omega), ok_bind, h.todo (j + 1) (Nat.lt_succ_self j),
    h.passed.reading_eq]
  refine (h.passed.run_ensures hA (by omega)).bind ?_
  rintro s' ⟨hs, hcol⟩
  rw [Nat.add_sub_cancel' hmono] at hs
  rw [write_eq_ok_setIfInBounds (by rw [hcol]; omega)]
  refine .ok ⟨⟨hs.reading_eq, hs.writing_eq, hs.size_rowIndex, hs.size_value, hs.kept, hs.rest⟩,
    by simpa [hcol] using hsize, fun i hi => ?_, fun i hi => ?_⟩
  · rw [hcol, getD_setIfInBounds (by omega)]
    split_ifs with hlast
    · subst hlast
      rw [hs.writing_eq, start_withoutSmall hA hj]
    · exact h.done i (by omega)
  · rw [hcol, Array.getD_eq_getD_getElem?, Array.getElem?_setIfInBounds_ne (by omega),
      ← Array.getD_eq_getD_getElem?]
    exact h.todo i (by omega)

end Compaction

/-- **Dropping small entries in place** is filtering the columns. -/
theorem compact_eq (hA : A.WellFormed) (threshold : α) :
    A.compact threshold = A.dropSmall threshold := by
  have hwf := wellFormed_withoutSmall hA threshold
  have hzero : ∀ i ≤ 0, A.colStart.getD i 0 = (A.withoutSmall threshold).start i := by
    intro i hi
    obtain rfl := Nat.le_zero.mp hi
    exact hA.start_zero.trans hwf.start_zero.symm
  have hnone : Compaction.Passed A threshold (A.start 0)
      ⟨A.colStart, A.rowIndex, A.value, 0, 0⟩ := by
    rw [hA.start_zero]
    exact ⟨rfl, rfl, rfl, hA.size_value, by simp [keptColumn], fun _ _ => ⟨rfl, rfl⟩⟩
  obtain ⟨s, hloop, h⟩ := ensures_foldlM_range (n := A.ncols) (f := Compaction.column threshold)
    (I := Compaction.UpTo A threshold) ⟨hnone, hA.size_colStart, hzero, fun _ _ => rfl⟩
    fun j s hj hs => hs.step_ensures hA hj
  have hcolStart : s.colStart = (A.withoutSmall threshold).colStart := by
    have hsize := hwf.size_colStart
    rw [ncols_withoutSmall] at hsize
    exact ext_getD 0 h.size_colStart hsize fun i hi => h.done i (by omega)
  have hall : A.pairs.take (A.start A.ncols) = A.pairs :=
    List.take_of_length_le (by rw [hA.length_pairs, hA.start_last])
  have hwriting := h.passed.writing_eq
  have hkept := h.passed.kept
  rw [hall] at hwriting hkept
  have hflatten : (A.cols.map (keptColumn threshold)).flatten = keptColumn threshold A.pairs := by
    rw [← hA.flatten_cols, keptColumn, List.filter_flatten]
    rfl
  rw [dropSmall_eq hA, compact, hA.columnIndices_eq, hloop, ok_bind, hcolStart, hwriting,
    take_eq_toArray (·.1) fun t p hp => (hkept t p hp).1,
    take_eq_toArray (·.2) fun t p hp => (hkept t p hp).2, ← hflatten]
  simp only [pure_eq_ok, withoutSmall, ofColumns, List.length_map, length_cols, List.size_toArray]

end Csc

end SplitQP
