import SplitQP.Proofs.Admm.KktCounts
import SplitQP.Proofs.Sparse.Revalued
/-!
# The KKT matrix, filled in place

Cursors fill the storage of a matrix whose diagonals are still zeros
(`scatter_ensures`). Shifting the first diagonal entry of every leading
column and writing the lower diagonal turns it into the KKT matrix
(`fill_eq`). Writing another lower diagonal at the recorded positions is
assembling with it (`assemble_eq_writeLower`).
-/

namespace SplitQP

open Checked SplitQP.Dense

namespace Csc

variable {α : Type} {P : Csc α}

/-! ## Starts and searches -/

/-- **Ends, one place further on, are starts.** -/
theorem WellFormed.shifted_eq (h : P.WellFormed) {next : Array ℕ} (hsize : next.size = P.ncols + 1)
    (hnext : ∀ j < P.ncols, next[j]? = some (P.start (j + 1))) : #[0] ++ next.pop = P.colStart := by
  refine ext_getD 0 (n := P.ncols + 1) ?_ h.size_colStart fun j hj => ?_
  · rw [Array.size_append, Array.size_pop, hsize, List.size_toArray, List.length_singleton]
    omega
  · rw [Array.getD_eq_getD_getElem?]
    cases j with
    | zero =>
      rw [Array.getElem?_append_left (by simp)]
      exact h.start_zero.symm
    | succ j =>
      rw [Array.getElem?_append_right (by simp), List.size_toArray, List.length_singleton,
        Nat.add_sub_cancel, Array.getElem?_pop, if_pos (by omega), hnext j (by omega)]
      rfl

theorem find?_range' (g : ℕ → ℕ) {lo len j : ℕ} (h : j ∈ (List.range' lo len).map g) :
    (List.range' lo len).find? (fun p => g p = j) =
      some (lo + ((List.range' lo len).map g).idxOf j) := by
  induction len generalizing lo with
  | zero => cases h
  | succ len ih =>
    rw [List.range'_succ, List.map_cons] at h ⊢
    by_cases hg : g lo = j
    · rw [List.find?_cons_of_pos (by simpa using hg), hg, List.idxOf_cons_self, Nat.add_zero]
    · have hrest := (List.mem_cons.mp h).resolve_left (Ne.symm hg)
      rw [List.find?_cons_of_neg (by simpa using hg), ih hrest, List.idxOf_cons_ne _ hg]
      congr 1
      omega

/-- **The first diagonal entry is found.** -/
theorem WellFormed.diagonalPosition_eq [Zero α] {K : Csc α} (h : K.WellFormed) {j : ℕ}
    (hj : j < K.ncols) (hmem : j ∈ (K.cols.getD j []).map (·.1)) :
    K.diagonalPosition j = .ok (some (K.start j + ((K.cols.getD j []).map (·.1)).idxOf j)) := by
  have hrows : (K.cols.getD j []).map (·.1) =
      (List.range' (K.start j) (K.start (j + 1) - K.start j)).map (K.rowIndex.getD · 0) := by
    rw [h.col_eq_map hj 0, List.map_map]
    rfl
  have hread : ∀ p ∈ List.range' (K.start j) (K.start (j + 1) - K.start j),
      (do return (← read K.rowIndex p) = j : Checked Bool) =
        .ok (decide (K.rowIndex.getD p 0 = j)) := by
    intro p hp
    have hend := h.start_le (j := j + 1) hj
    rw [List.mem_range'_1] at hp
    rw [read_eq_ok_getD 0 (by omega)]
    simp
  rw [hrows] at hmem ⊢
  rw [diagonalPosition, h.slots_eq hj, ok_bind, findM?_eq_ok hread, find?_range' _ hmem]

end Csc

namespace Kkt

variable {α : Type} [Scalar α] {P A : Csc α} {shift : α}

/-! ## Shifting -/

/-- The first entry in row `j` is where `j` is found first. -/
theorem shiftDiagonal_eq_revalue (j : ℕ) (col : List (ℕ × α)) :
    shiftDiagonal shift j col = Csc.revalue ((col.map (·.1)).idxOf j) (· + shift) col := by
  induction col with
  | nil => rfl
  | cons p col ih =>
    rw [shiftDiagonal, List.map_cons]
    split_ifs with hp
    · rw [hp, List.idxOf_cons_self, ← hp]
      rfl
    · rw [List.idxOf_cons_ne _ hp, ih]
      rfl

theorem leadingColumn_eq_revalue (P : Csc α) (j : ℕ) :
    leadingColumn shift (P.cols.getD j [], j) =
      Csc.revalue (((fullColumn P j).map (·.1)).idxOf j) (· + shift) (fullColumn P j) := by
  have hfull : (if (P.cols.getD j []).any (·.1 = j) then P.cols.getD j []
      else P.cols.getD j [] ++ [(j, 0)]) = fullColumn P j := by
    have hany : ((P.cols.getD j []).any (·.1 = j)) = true ↔ ¬ P.LacksDiagonal j := by
      rw [Csc.LacksDiagonal, not_not, List.mem_map, List.any_eq_true]
      simp only [decide_eq_true_eq]
    rw [fullColumn]
    by_cases hlacks : P.LacksDiagonal j
    · rw [if_neg (mt hany.mp (not_not.mpr hlacks)), if_pos hlacks]
    · rw [if_pos (hany.mpr hlacks), if_neg hlacks, List.append_nil]
  rw [leadingColumn, ← shiftDiagonal_eq_revalue, ← hfull]

theorem mem_rows_fullColumn (P : Csc α) (j : ℕ) : j ∈ (fullColumn P j).map (·.1) := by
  rw [fullColumn, List.map_append, List.mem_append]
  by_cases hlacks : P.LacksDiagonal j
  · rw [if_pos hlacks]
    exact .inr (by simp)
  · exact .inl (not_not.mp hlacks)

/-! ## The lower diagonal -/

variable (A) in
/-- The rows of `A` with the lower diagonal `x`. -/
def bordered (x : ℕ → α) : List (List (ℕ × α)) :=
  (List.range A.nrows).map fun i => rowOf A i ++ [(A.ncols + i, x i)]

theorem trailing_eq_bordered {d : List α} (hd : d.length = A.nrows) :
    trailing A d = bordered A fun i => -d.getD i 0 := by
  apply List.ext_getElem
  · rw [length_trailing hd, bordered, List.length_map, List.length_range]
  · intro i h1 h2
    have hi : i < A.nrows := by rwa [length_trailing hd] at h1
    rw [← List.getD_eq_getElem _ [], getD_trailing hd hi 0]
    simp only [bordered, List.getElem_map, List.getElem_range]

theorem leading_eq_map (P : Csc α) (shift : α) : leading P shift =
    (List.range P.ncols).map fun j => leadingColumn shift (P.cols.getD j [], j) := by
  apply List.ext_getElem
  · simp
  · intro j h1 h2
    have hj : j < P.ncols := by simpa using h1
    rw [← List.getD_eq_getElem _ [], getD_leading hj, List.getElem_map, List.getElem_range]

omit [Scalar α] in
/-- Other numbers below. -/
theorem revalued_bordered {cols : List (List (ℕ × α))} (hcols : cols.length = A.ncols)
    (x y : ℕ → α) :
    Csc.revalued A.ncols A.nrows (fun i => (rowOf A i).length) (fun i _ => y i)
      (cols ++ bordered A x) = cols ++ bordered A y := by
  apply List.ext_getElem
  · simp [Csc.revalued, bordered]
  · intro j h1 h2
    simp only [Csc.revalued, List.getElem_mapIdx]
    rcases Nat.lt_or_ge j A.ncols with hlt | hge
    · rw [if_neg (by omega), List.getElem_append_left (by omega),
        List.getElem_append_left (by omega)]
    · obtain ⟨i, rfl⟩ := Nat.exists_eq_add_of_le hge
      have hi : i < A.nrows := by
        simp [bordered, hcols] at h2
        omega
      rw [if_pos (by omega), List.getElem_append_right (by omega),
        List.getElem_append_right (by omega)]
      simp only [hcols, Nat.add_sub_cancel_left, bordered, List.getElem_map, List.getElem_range]
      exact modify_concat _ _ _

/-- **Writing a lower diagonal** where there is another one. -/
theorem writeLower_bordered {cols : List (List (ℕ × α))} (hcols : cols.length = A.ncols)
    (x : ℕ → α) {positions : Array ℕ} {d : Array α} (hd : d.size = A.nrows)
    (hpositions : positions.toList = (List.range A.nrows).map fun i =>
      (Csc.ofColumns (A.ncols + A.nrows) (cols ++ bordered A x)).start (A.ncols + i) +
        (rowOf A i).length) :
    writeLower (Csc.ofColumns (A.ncols + A.nrows) (cols ++ bordered A x)).value positions d =
      .ok (Csc.ofColumns (A.ncols + A.nrows)
        (cols ++ bordered A fun i => -d.getD i 0)).value := by
  have hzip : (positions.zip d).toList = (List.range A.nrows).map fun i =>
      ((Csc.ofColumns (A.ncols + A.nrows) (cols ++ bordered A x)).start (A.ncols + i) +
        (rowOf A i).length, d.getD i 0) := by
    rw [Array.toList_zip, hpositions]
    apply List.ext_getElem
    · simp [hd]
    · intro i h1 h2
      have hi : i < d.size := by simpa [hd] using h2
      rw [List.getElem_zip, List.getElem_map, List.getElem_map, List.getElem_range,
        getD_of_lt 0 hi, Array.getElem_toList]
  have hlength : (cols ++ bordered A x).length = A.ncols + A.nrows := by
    simp [bordered, hcols]
  have hcolumn : ∀ i < A.nrows, (cols ++ bordered A x).getD (A.ncols + i) [] =
      rowOf A i ++ [(A.ncols + i, x i)] := by
    intro i hi
    rw [List.getD_append_right _ _ _ _ (by omega), hcols, Nat.add_sub_cancel_left,
      List.getD_eq_getElem _ _ (by simpa [bordered] using hi)]
    simp only [bordered, List.getElem_map, List.getElem_range]
  rw [writeLower, hzip, List.foldlM_map, ← revalued_bordered hcols x fun i => -d.getD i 0]
  refine Csc.foldlM_revalue hlength.ge (fun i hi => ?_) fun i hi value hlt => ?_
  · rw [hcolumn i hi, List.length_append]
    exact Nat.lt_succ_self _
  · exact write_eq_ok_modify hlt (-d.getD i 0)

/-! ## Putting -/

variable (P A) in
/-- The matrix that is filled. -/
def unshifted : Csc α := Filling.filled (A.ncols + A.nrows) (A.ncols + A.nrows) (allEntries P A)

section Square

variable (hsq : P.nrows = A.ncols ∧ P.ncols = A.ncols)

include hsq

/-- **Cursors begin at the starts** and end at the next ones. -/
theorem scatter_ensures (hP : P.WellFormed) (hA : A.WellFormed) {next : Array ℕ}
    (hsize : next.size = A.ncols + A.nrows + 1)
    (hnext : ∀ j ≤ A.ncols + A.nrows, next.getD j 0 = (unshifted P A).start j) :
    Ensures (do
      let s ← (upper P A).foldlM Filling.put (.blank next (allEntries P A).length)
      return (s, ← (lowerEntries A.ncols A.nrows).foldlM Filling.put s)) fun r =>
        r.1.written.size = (upper P A).length ∧
        Filling.Done (A.ncols + A.nrows) (A.ncols + A.nrows) (allEntries P A) r.2 ∧
        (⟨A.ncols + A.nrows, A.ncols + A.nrows, #[0] ++ r.2.next.pop, r.2.rowIndex,
          r.2.value⟩ : Csc α) = unshifted P A := by
  have hinside := inside_allEntries hsq hP hA
  have hcol : ∀ e ∈ allEntries P A, e.col < A.ncols + A.nrows := fun e he => (hinside e he).2
  have hrow : ∀ e ∈ allEntries P A, e.row < A.ncols + A.nrows := fun e he => (hinside e he).1
  have hcursors : ∀ j < A.ncols + A.nrows, next[j]? = some ((unshifted P A).start j) := by
    intro j hj
    rw [Array.getElem?_eq_getElem (by omega), ← hnext j hj.le, getD_of_lt 0 (by omega)]
  obtain ⟨r, hrun, hr, hlength⟩ := Filling.run_done hcol hrow hcursors
  -- a cursor that has passed its column is where the next one starts
  have hcolStart : #[0] ++ r.next.pop = (unshifted P A).colStart := by
    refine (Filling.wellFormed_filled _ hrow).shifted_eq ?_ fun j hj => ?_
    · rw [Filling.ncols_filled]
      exact hlength.trans hsize
    · rw [Filling.ncols_filled] at hj
      exact hr.next_eq j hj
  rw [allEntries, List.foldlM_append] at hrun
  obtain ⟨s, hupper, hlower⟩ := bind_eq_ok.mp hrun
  refine ⟨(s, r), ?_, ?_, hr, ?_⟩
  · rw [allEntries, hupper, ok_bind, hlower]
    rfl
  · rw [Filling.size_written hupper]
    exact Nat.zero_add _
  · rw [hcolStart]
    exact hr.eq_filled

/-! ## From the filled matrix to the KKT matrix -/

/-- The columns of the filled matrix. -/
theorem unshifted_eq : unshifted P A = Csc.ofColumns (A.ncols + A.nrows)
    ((List.range A.ncols).map (fullColumn P) ++ bordered A fun _ => 0) := by
  rw [unshifted, Filling.filled, Csc.distribute_eq, List.range_add, List.map_append, List.map_map]
  congr 2
  · exact List.map_congr_left fun j hj => column_leading hsq (List.mem_range.mp hj)
  · exact List.map_congr_left fun i hi => column_trailing hsq (List.mem_range.mp hi)

omit hsq in
theorem matrix_eq_bordered {d : Array α} (hd : d.size = A.nrows) :
    matrix P A shift d.toList = Csc.ofColumns (A.ncols + A.nrows)
      (leading P shift ++ bordered A fun i => -d.getD i 0) := by
  rw [matrix, trailing_eq_bordered (by simpa using hd)]
  simp only [List.getD_eq_getElem?_getD, Array.getElem?_toList, Array.getD_eq_getD_getElem?]

/-- **The first diagonal entries are found.** -/
theorem diagonalPositions_eq (hP : P.WellFormed) (hA : A.WellFormed) :
    (unshifted P A).diagonalPositions A.ncols = .ok (some ((List.range A.ncols).map fun j =>
      (unshifted P A).start j + ((fullColumn P j).map (·.1)).idxOf j)) := by
  have hwf : (unshifted P A).WellFormed :=
    Filling.wellFormed_filled _ fun e he => (inside_allEntries hsq hP hA e he).1
  have hncols : (unshifted P A).ncols = A.ncols + A.nrows := Filling.ncols_filled
  have hposition : ∀ j ∈ List.range A.ncols, (unshifted P A).diagonalPosition j =
      .ok (some ((unshifted P A).start j + ((fullColumn P j).map (·.1)).idxOf j)) := by
    intro j hj
    have hj := List.mem_range.mp hj
    have hcolumn : (unshifted P A).cols.getD j [] = fullColumn P j := by
      rw [unshifted, Filling.getD_cols_filled _ (by omega), column_leading hsq hj]
    have hfound := hwf.diagonalPosition_eq (j := j) (by omega)
      (hcolumn ▸ mem_rows_fullColumn P j)
    rw [hfound, hcolumn]
  -- every leading column has a diagonal entry by now, so none is missed
  have hall : ∀ xs : List ℕ, (xs.map some).mapM id = some xs := by
    intro xs
    induction xs with
    | nil => rfl
    | cons x xs ih => simp [List.mapM_cons, ih]
  rw [Csc.diagonalPositions, mapM_eq_ok hposition, ok_bind, ← hall, List.map_map]
  rfl

/-- Shifted diagonals above. -/
theorem revalued_fullColumn (cols : List (List (ℕ × α))) :
    Csc.revalued 0 A.ncols (fun j => ((fullColumn P j).map (·.1)).idxOf j) (fun _ => (· + shift))
      ((List.range A.ncols).map (fullColumn P) ++ cols) = leading P shift ++ cols := by
  rw [leading_eq_map, hsq.2]
  apply List.ext_getElem
  · simp [Csc.revalued]
  · intro j h1 h2
    simp only [Csc.revalued, List.getElem_mapIdx, Nat.sub_zero]
    rcases Nat.lt_or_ge j A.ncols with hlt | hge
    · rw [if_pos (by omega), List.getElem_append_left (by simpa using hlt),
        List.getElem_append_left (by simpa using hlt), List.getElem_map, List.getElem_map,
        List.getElem_range, leadingColumn_eq_revalue]
    · rw [if_neg (by omega), List.getElem_append_right (by simpa using hge),
        List.getElem_append_right (by simpa using hge)]
      simp

/-- **Shifting in place.** -/
theorem shiftLeading_eq (hP : P.WellFormed) (hA : A.WellFormed) :
    shiftLeading (unshifted P A) shift A.ncols = .ok (Csc.ofColumns (A.ncols + A.nrows)
      (leading P shift ++ bordered A fun _ => 0)).value := by
  have hlength : ((List.range A.ncols).map (fullColumn P) ++ bordered A fun _ => 0).length =
      A.ncols + A.nrows := by
    simp [bordered]
  rw [shiftLeading, diagonalPositions_eq hsq hP hA, ok_bind, unshifted_eq hsq]
  dsimp only
  rw [List.foldlM_map, ← revalued_fullColumn hsq]
  refine Csc.foldlM_revalue (by omega) (fun j hj => ?_) fun j hj value hlt => ?_
  · rw [Nat.zero_add, List.getD_append _ _ _ _ (by simpa using hj),
      List.getD_eq_getElem _ _ (by simpa using hj), List.getElem_map, List.getElem_range,
      ← List.length_map (f := (·.1))]
    exact List.idxOf_lt_length_of_mem (mem_rows_fullColumn P j)
  · rw [Nat.zero_add] at hlt ⊢
    exact update_eq_ok hlt

/-! ## All of it -/

omit [Scalar α] hsq in
theorem map_fst_bordered (x y : ℕ → α) :
    (bordered A x).map (List.map (·.1)) = (bordered A y).map (List.map (·.1)) := by
  rw [bordered, bordered, List.map_map, List.map_map]
  refine List.map_congr_left fun i _ => ?_
  simp only [Function.comp_apply, List.map_append, List.map_singleton]

/-- **Neither shifting nor the lower diagonal** moves an entry. -/
theorem samePattern_unshifted (x : ℕ → α) : Csc.SamePattern (unshifted P A)
    (Csc.ofColumns (A.ncols + A.nrows) (leading P shift ++ bordered A x)) := by
  rw [unshifted_eq hsq]
  refine Csc.samePattern_ofColumns ?_
  rw [List.map_append, List.map_append, map_fst_bordered x fun _ => 0, leading_eq_map, hsq.2,
    List.map_map, List.map_map]
  congr 1
  refine List.map_congr_left fun j _ => ?_
  rw [Function.comp_apply, Function.comp_apply, leadingColumn_eq_revalue, Csc.map_fst_revalue]

theorem samePattern_unshifted_matrix {d : Array α} (hd : d.size = A.nrows) :
    Csc.SamePattern (unshifted P A) (matrix P A shift d.toList) := by
  rw [matrix_eq_bordered hd]
  exact samePattern_unshifted hsq _

omit hsq in
/-- The lower diagonal goes behind the rows of `A`. -/
theorem destinations_lowerEntries (start : ℕ → ℕ) (before : List (Entry α)) (n m : ℕ) :
    Filling.destinations start before (lowerEntries n m) =
      (List.range m).map fun i => start (n + i) + (Filling.column before (n + i)).length := by
  induction m with
  | zero => rfl
  | succ m ih =>
    have hsucc : lowerEntries (α := α) n (m + 1) = lowerEntries n m ++ [⟨n + m, n + m, 0⟩] := by
      rw [lowerEntries, List.range_succ, List.map_append]
      rfl
    rw [hsucc, Filling.destinations_append, ih, List.range_succ, List.map_append,
      List.map_singleton, Filling.destinations, Filling.column_append, column_lowerEntries,
      if_neg (by simp), List.append_nil]
    rfl

variable (shift) in
/-- **The recorded positions** are where the lower diagonal was put. -/
theorem toList_lowerPositions {d : Array α} (hd : d.size = A.nrows) :
    (lowerPositions P A shift d.toList).toList =
      Filling.destinations (unshifted P A).start (upper P A) (lowerEntries A.ncols A.nrows) := by
  rw [destinations_lowerEntries, lowerPositions]
  refine List.map_congr_left fun i hi => ?_
  have hi := List.mem_range.mp hi
  have hstart : (matrix P A shift d.toList).start (A.ncols + i + 1) =
      (unshifted P A).start (A.ncols + i + 1) := by
    rw [Csc.start, Csc.start, (samePattern_unshifted_matrix hsq hd).colStart_eq]
  rw [hstart, unshifted, Filling.start_filled_succ (by omega), column_trailing hsq hi,
    column_upper_trailing hsq, List.length_append, List.length_singleton]
  rfl

/-- **Writing a lower diagonal** where another one was put. -/
theorem writeLower_eq (x : ℕ → α) {d d' : Array α} (hd : d.size = A.nrows)
    (hd' : d'.size = A.nrows) :
    writeLower (Csc.ofColumns (A.ncols + A.nrows) (leading P shift ++ bordered A x)).value
      (lowerPositions P A shift d.toList) d' = .ok (matrix P A shift d'.toList).value := by
  rw [matrix_eq_bordered hd']
  refine writeLower_bordered (by rw [length_leading, hsq.2]) x hd' ?_
  rw [toList_lowerPositions shift hsq hd, destinations_lowerEntries]
  refine List.map_congr_left fun i _ => ?_
  rw [column_upper_trailing hsq, Csc.start, Csc.start, (samePattern_unshifted hsq x).colStart_eq]

omit hsq in
/-- Running totals are the starts. -/
theorem cursors_eq {counts : List ℕ}
    (hcounts : counts = (List.range (A.ncols + A.nrows + 1)).map fun j =>
      (Filling.column (allEntries P A) j).length) :
    (totalsBefore 0 counts).toArray.size = A.ncols + A.nrows + 1 ∧
      ∀ j ≤ A.ncols + A.nrows,
        (totalsBefore 0 counts).toArray.getD j 0 = (unshifted P A).start j := by
  have hlength : counts.length = A.ncols + A.nrows + 1 := by simp [hcounts]
  rw [totalsBefore_eq, hlength]
  refine ⟨by simp, fun j hj => ?_⟩
  rw [getD_of_lt 0 (by simp; omega), unshifted, Filling.start_filled hj, List.getElem_toArray,
    List.getElem_map, List.getElem_range, Nat.zero_add, hcounts, ← List.map_take, List.take_range,
    Nat.min_eq_left (by omega)]

variable (shift) in
/-- **Filling in place is assembling,** and every position is written once. -/
theorem fill_eq (hP : P.WellFormed) (hA : A.WellFormed) {d : Array α} (hd : d.size = A.nrows) :
    ∃ written : Array ℕ, fill P A shift d =
        .ok (matrix P A shift d.toList, lowerPositions P A shift d.toList, written) ∧
      written.toList.Perm (List.range (allEntries P A).length) ∧
      (lowerPositions P A shift d.toList).toList.Sublist written.toList := by
  have hcol : ∀ e ∈ allEntries P A, e.col < A.ncols + A.nrows :=
    fun e he => (inside_allEntries hsq hP hA e he).2
  obtain ⟨c, hcounts, hc⟩ := counts_ensures hsq hP hA
  obtain ⟨hsize, hnext⟩ := cursors_eq hc
  obtain ⟨⟨_, _⟩, hscatter, hbefore, hdone, hK⟩ := scatter_ensures hsq hP hA hsize hnext
  obtain ⟨before, hupper, hrest⟩ := bind_eq_ok.mp hscatter
  obtain ⟨s, hlower, hpair⟩ := bind_eq_ok.mp hrest
  obtain ⟨rfl, rfl⟩ := Prod.mk.inj (Except.ok.inj hpair)
  have hlast : read (totalsBefore 0 c.toList).toArray (A.ncols + A.nrows) =
      .ok (allEntries P A).length := by
    rw [read_eq_ok_getD 0 (by omega), hnext _ le_rfl, unshifted,
      Filling.start_filled_last _ hcol]
  -- the lower diagonal is put last, so its positions are the last ones written
  have hsplit : s.written.toList = Filling.destinations (unshifted P A).start [] (upper P A) ++
      (lowerPositions P A shift d.toList).toList := by
    rw [toList_lowerPositions shift hsq hd]
    exact hdone.written_eq.trans (Filling.destinations_append _ _ _ _)
  have hpositions : s.written.drop before.written.size = lowerPositions P A shift d.toList := by
    apply Array.toList_inj.mp
    rw [Array.toList_drop, hsplit, hbefore]
    exact List.drop_left' (Filling.length_destinations _ _ _)
  -- from here on only values change
  have hmatrix : (⟨A.ncols + A.nrows, A.ncols + A.nrows, #[0] ++ s.next.pop, s.rowIndex,
      (matrix P A shift d.toList).value⟩ : Csc α) = matrix P A shift d.toList :=
    (hK ▸ samePattern_unshifted_matrix hsq hd).with_value
  refine ⟨s.written, ?_, hdone.written_perm, ?_⟩
  · rw [fill]
    dsimp only at hK ⊢
    rw [require_eq_ok hsq, ok_bind, require_eq_ok hd, ok_bind, Csc.missingDiagonal_eq hP, ok_bind,
      hcounts, ok_bind, upperEntries_eq hP hA, ok_bind, hlast, ok_bind, hupper, ok_bind, hlower,
      ok_bind, hK, hpositions, shiftLeading_eq hsq hP hA, ok_bind, writeLower_eq hsq _ hd hd,
      ok_bind, hmatrix]
    rfl
  · rw [hsplit]
    exact List.sublist_append_right _ _

/-! ## What assembling promises -/

omit [Scalar α] hsq in
theorem lacksDiagonal_iff [Add α] (hP : P.WellFormed) {j : ℕ} (hj : j < P.nrows ∧ j < P.ncols) :
    P.LacksDiagonal j ↔ P.entry? j j = .ok none := by
  rw [hP.entry?_eq, if_pos hj, Except.ok.injEq, Csc.valueAt_eq_none_iff]
  rfl

omit hsq in
/-- Counting by blocks. -/
theorem length_allEntries (hP : P.WellFormed) (hA : A.WellFormed) : (allEntries P A).length =
    P.rowIndex.size + P.missing.length + A.rowIndex.size + A.nrows := by
  rw [allEntries, upper, lowerEntries, List.length_append, List.length_append, List.length_append,
    List.length_map, List.length_map, List.length_map, List.length_range, hP.length_entryList,
    hA.length_entryList]

variable (shift) in
/-- The KKT matrix has room for the entries that are put, and no more. -/
theorem size_rowIndex_matrix (hP : P.WellFormed) (hA : A.WellFormed) {d : Array α}
    (hd : d.size = A.nrows) :
    (matrix P A shift d.toList).rowIndex.size = (allEntries P A).length := by
  rw [(samePattern_unshifted_matrix hsq hd).rowIndex_eq, unshifted,
    Filling.size_rowIndex_filled _ fun e he => (inside_allEntries hsq hP hA e he).2]

theorem entry?_matrix_self (hP : P.WellFormed) {d : List α} (hd : d.length = A.nrows) {j : ℕ}
    (hj : j < A.ncols + A.nrows) : ∃ v, Csc.entry? (matrix P A shift d) j j = .ok (some v) := by
  have hncols : (matrix P A shift d).ncols = A.ncols + A.nrows := ncols_matrix hsq hd
  have hmem := Csc.exists_mem_entryList_iff.mp (hasDiagonal_matrix hsq hd j (by rwa [hncols]))
  obtain ⟨v, hv⟩ := Option.isSome_iff_exists.mp (Csc.valueAt_isSome_iff.mpr hmem)
  refine ⟨v, ?_⟩
  rw [(wellFormed_matrix hsq hd hP).entry?_eq, if_pos, hv]
  exact ⟨hj, by rwa [hncols]⟩

end Square

/-- **Another lower diagonal** in place. -/
theorem assemble_eq_writeLower (hP : P.WellFormed) (hA : A.WellFormed)
    (hsq : P.nrows = A.ncols ∧ P.ncols = A.ncols) {d d' : Array α} (hd : d.size = A.nrows)
    (hd' : d'.size = A.nrows) :
    writeLower (matrix P A shift d.toList).value (lowerPositions P A shift d.toList) d' =
        .ok (matrix P A shift d'.toList).value ∧
      assemble P A shift d' =
        .ok ({ matrix P A shift d.toList with value := (matrix P A shift d'.toList).value },
          lowerPositions P A shift d.toList) := by
  have hpositions : lowerPositions P A shift d'.toList = lowerPositions P A shift d.toList := by
    apply Array.toList_inj.mp
    rw [toList_lowerPositions shift hsq hd, toList_lowerPositions shift hsq hd']
  have hpattern : Csc.SamePattern (matrix P A shift d.toList) (matrix P A shift d'.toList) :=
    samePattern_matrix (by simpa using hd) (by simpa using hd') shift shift
  constructor
  · rw [matrix_eq_bordered hd]
    exact writeLower_eq hsq _ hd hd'
  · rw [assemble_eq_ok hP hA hsq hd', hpattern.with_value, hpositions]

variable (shift) in
/-- **Assembling is exact and can be updated in place.** The matrix is the one that is
filled by counting and cursors, has its blocks, and takes another lower diagonal where the
first one is. -/
theorem assemble_of_checkFormat {d : Array α} (hPformat : P.checkFormat = .ok ())
    (hAformat : A.checkFormat = .ok ()) (hsquare : P.nrows = A.ncols ∧ P.ncols = A.ncols)
    (hupper : P.isUpper = .ok true) (hd : d.size = A.nrows) :
    ∃ (K : Csc α) (positions written : Array ℕ) (p a : ℕ) (missing : List ℕ),
      assemble P A shift d = .ok (K, positions) ∧
      fill P A shift d = .ok (K, positions, written) ∧
      K.nrows = A.ncols + A.nrows ∧ K.ncols = A.ncols + A.nrows ∧
      K.checkFormat = .ok () ∧ K.isUpper = .ok true ∧
      (P.nnz = .ok p ∧ A.nnz = .ok a ∧ P.missingDiagonal = .ok missing ∧ missing.Nodup ∧
        ∀ j, j ∈ missing ↔ j < P.ncols ∧ P.entry? j j = .ok none) ∧
      K.nnz = .ok (p + missing.length + a + A.nrows) ∧
      K.rowIndex.size = p + missing.length + a + A.nrows ∧
      written.toList.Perm (List.range (p + missing.length + a + A.nrows)) ∧
      (∀ j < A.ncols + A.nrows, ∃ v, K.entry? j j = .ok (some v)) ∧
      Blocks P A shift d K ∧
      positions.size = A.nrows ∧ positions.toList.Nodup ∧
      ∀ d' : Array α, d'.size = A.nrows → ∃ value,
        writeLower K.value positions d' = .ok value ∧
        assemble P A shift d' = .ok ({ K with value := value }, positions) := by
  have hP := Csc.checkFormat_eq_ok_iff.mp hPformat
  have hA := Csc.checkFormat_eq_ok_iff.mp hAformat
  have hshape : Shape P A := ⟨hP, hA, hsquare, (Ldl.isUpper_eq_true_iff hP).mp hupper⟩
  have hlist : ∀ {d : Array α}, d.size = A.nrows → d.toList.length = A.nrows := by simp
  have hwf : (matrix P A shift d.toList).WellFormed := wellFormed_matrix hsquare (hlist hd) hP
  have hsize := size_rowIndex_matrix shift hsquare hP hA hd
  have hlength := length_allEntries hP hA
  obtain ⟨written, hfill, hperm, hsub⟩ := fill_eq shift hsquare hP hA hd
  refine ⟨_, _, written, _, _, P.missing, assemble_eq_ok hP hA hsquare hd, hfill, rfl,
    ncols_matrix hsquare (hlist hd), Csc.checkFormat_eq_ok_iff.mpr hwf,
    (Ldl.isUpper_eq_true_iff hwf).mpr (isUpperTriangular_matrix hsquare (hlist hd) hshape.upper),
    ⟨hP.nnz_eq, hA.nnz_eq, Csc.missingDiagonal_eq hP, P.nodup_missing, fun j => ?_⟩,
    by rw [hwf.nnz_eq, hsize, hlength], by rw [hsize, hlength], hlength ▸ hperm,
    fun j hj => entry?_matrix_self hsquare hP (hlist hd) hj, hshape.blocks_matrix hd,
    by simp [lowerPositions], hsub.nodup (hperm.nodup_iff.mpr List.nodup_range),
    fun d' hd' => ?_⟩
  · rw [Csc.mem_missing]
    exact and_congr_right fun hj => lacksDiagonal_iff hP ⟨by omega, hj⟩
  · exact ⟨_, assemble_eq_writeLower hP hA hsquare hd hd'⟩

/-- An upper triangle with an empty column, two diagonal entries in one place, none in two
columns, and rows in any order. -/
def lopsided : Csc Float := ⟨3, 3, #[0, 0, 3, 5], #[1, 0, 1, 1, 0], #[1, 7, 2, 4, 5]⟩

/-- Two constraints, one number of them given in two parts. -/
def constraints : Csc Float := ⟨2, 3, #[0, 2, 2, 4], #[1, 0, 0, 0], #[3, 2, 6, 8]⟩

theorem assemble_of_checkFormat_lopsided : ∃ (K : Csc Float) (positions value : Array _),
    assemble lopsided constraints 0.5 #[10, 20] = .ok (K, positions) ∧
    K.nnz = .ok 13 ∧ positions.toList.Nodup ∧
    K.entry? 0 0 = .ok (some 0.5) ∧ K.entry? 1 1 = .ok (some 3.5) ∧
    K.entry? 0 1 = .ok (some 7) ∧ K.entry? 2 3 = .ok (some 14) ∧ K.entry? 1 3 = .ok none ∧
    K.entry? 4 4 = .ok (some (-20)) ∧
    writeLower K.value positions #[1, 2] = .ok value ∧
    assemble lopsided constraints 0.5 #[1, 2] = .ok ({ K with value := value }, positions) := by
  obtain ⟨K, positions, written, p, a, missing, hanswer, -, -, -, -, -,
      ⟨hp, ha, hmissing, -⟩, hnnz, -, -, -, hblocks, -, hnodup, hagain⟩ :=
    assemble_of_checkFormat (P := lopsided) (A := constraints) 0.5 (d := #[10, 20])
      (by decide +kernel) (by decide +kernel) ⟨rfl, rfl⟩ (by decide +kernel) rfl
  obtain rfl : 5 = p := Except.ok.inj ((by decide +kernel : lopsided.nnz = .ok 5).symm.trans hp)
  obtain rfl : 4 = a := Except.ok.inj ((by decide +kernel : constraints.nnz = .ok 4).symm.trans ha)
  obtain rfl : [0, 2] = missing :=
    Except.ok.inj ((by decide +kernel : lopsided.missingDiagonal = .ok [0, 2]).symm.trans hmissing)
  obtain ⟨value, hvalue, hreplaced⟩ := hagain #[1, 2] rfl
  refine ⟨K, positions, value, hanswer, hnnz, hnodup, ?_, ?_, ?_, ?_, ?_, ?_, hvalue, hreplaced⟩
  · refine (hblocks.diagonal 0 (by decide)).trans ?_
    decide +kernel
  · refine (hblocks.diagonal 1 (by decide)).trans ?_
    decide +kernel
  · refine (hblocks.leading 0 1 (by decide) (by decide) (by decide)).trans ?_
    decide +kernel
  · refine (hblocks.cross 2 0 (by decide) (by decide)).trans ?_
    decide +kernel
  · refine (hblocks.cross 1 0 (by decide) (by decide)).trans ?_
    decide +kernel
  · refine (hblocks.lower 1 1 (by decide) (by decide)).trans ?_
    decide +kernel

end Kkt

end SplitQP
