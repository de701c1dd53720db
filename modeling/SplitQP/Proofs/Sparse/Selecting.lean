import SplitQP.Proofs.Sparse.Compaction
import SplitQP.Proofs.Sparse.Marked
/-!
# Sparse matrices — selecting rows by copying

The first pass numbers the marked rows by rank (`numbers_renumber`), the
second counts the entries to be copied, and the third copies them. What is
copied so far stands at the front (`Selection.Copied`), and a column starts
where writing stands when it begins (`Selection.UpTo`). The three passes
agree on every mask, so storage is filled exactly and holds the selected
rows (`select_eq`).
-/

namespace SplitQP

open Checked SplitQP.Dense

namespace Csc

variable {mask : Array Bool}

/-! ## New numbers -/

/-- The rows before `k` are numbered. -/
structure Numbered (mask : Array Bool) (k : ℕ) (s : Array ℕ × ℕ) : Prop where
  next_eq : s.2 = rank mask k
  size_eq : s.1.size = k
  rank_eq : ∀ i < k, mask.getD i false = true → s.1.getD i 0 = rank mask i

theorem Numbered.push {k n : ℕ} {s : Array ℕ × ℕ} (h : Numbered mask k s)
    (hnext : mask.getD k false = true → n = rank mask k) :
    Numbered mask (k + 1) (s.1.push n, rank mask (k + 1)) where
  next_eq := rfl
  size_eq := by simp [h.size_eq]
  rank_eq i hi hmark := by
    have hsize := h.size_eq
    rw [Array.getD_eq_getD_getElem?, Array.getElem?_push]
    split_ifs with hlast
    · obtain rfl : i = k := by omega
      exact hnext hmark
    · rw [← Array.getD_eq_getD_getElem?]
      exact h.rank_eq i (by omega) hmark

/-- **The marked rows are numbered by rank,** and counted. -/
theorem numbered_renumber (mask : Array Bool) : Numbered mask mask.size (renumber mask) := by
  suffices h : ∀ k ≤ mask.size, Numbered mask k ((mask.toList.take k).foldl (fun s isSelected =>
      if isSelected then (s.1.push s.2, s.2 + 1) else (s.1.push 0, s.2)) (#[], 0)) by
    have hall := h mask.size le_rfl
    rwa [List.take_of_length_le (by simp), Array.foldl_toList] at hall
  intro k hk
  induction k with
  | zero => exact ⟨(rank_zero mask).symm, rfl, fun i hi => absurd hi (Nat.not_lt_zero i)⟩
  | succ k ih =>
    have hlt : k < mask.toList.length := by simpa using hk
    have hk' := ih (by omega)
    rw [List.take_succ_eq_append_getElem hlt, List.foldl_append, List.foldl_cons, List.foldl_nil]
    have hmark : mask.getD k false = mask.toList[k] := getD_of_lt false (by simpa using hlt)
    have hrank := rank_succ mask k
    rw [hmark] at hrank
    have hpush := fun n => hk'.push (n := n)
    rw [hrank, hmark] at hpush
    split_ifs at hrank hpush ⊢ with hselected
    · rw [hk'.next_eq]
      exact hpush _ fun _ => rfl
    · rw [hk'.next_eq]
      exact hpush 0 fun h => absurd h hselected

variable {α : Type} {A : Csc α}

/-! ## The entries to be copied -/

theorem pairs_selected (hA : A.WellFormed) (mask : Array Bool) :
    (A.selected mask).pairs = A.pairs.filterMap (selectEntry mask) := by
  rw [selected, pairs_ofColumns, ← List.filterMap_flatten, hA.flatten_cols]

theorem start_selected (hA : A.WellFormed) (hsize : mask.size = A.nrows) {j : ℕ}
    (hj : j ≤ A.ncols) : (A.selected mask).start j =
      ((A.pairs.take (A.start j)).filterMap (selectEntry mask)).length := by
  have hwf := wellFormed_selected hA hsize
  have hj' : j ≤ (A.selected mask).ncols := by rwa [ncols_selected]
  have htake : ((A.selected mask).cols.take j).flatten =
      (A.pairs.take (A.start j)).filterMap (selectEntry mask) := by
    rw [selected, cols_ofColumns, ← List.map_take, ← List.filterMap_flatten,
      hA.flatten_take_cols hj]
  rw [← htake, hwf.flatten_take_cols hj', List.length_take, hwf.length_pairs,
    Nat.min_eq_left (hwf.start_le hj')]

/-- There is room for what is copied and one more selected entry. -/
theorem length_filterMap_lt (hA : A.WellFormed) (hsize : mask.size = A.nrows) {k : ℕ}
    (hk : k < A.rowIndex.size) (hmark : mask.getD A.rowIndex[k] false = true) :
    ((A.pairs.take k).filterMap (selectEntry mask)).length < (A.selected mask).rowIndex.size := by
  have hvalue := hA.size_value
  have hk' : k < A.pairs.length := by rwa [hA.length_pairs]
  have hpair : A.pairs[k] = (A.rowIndex[k], A.value[k]) := by simp [pairs]
  have hnext := ((List.take_sublist (k + 1) A.pairs).filterMap (selectEntry mask)).length_le
  rw [List.take_succ_eq_append_getElem hk', List.filterMap_append, List.length_append, hpair,
    List.filterMap_cons_some (by rw [selectEntry, if_pos hmark]), ← pairs_selected hA,
    (wellFormed_selected hA hsize).length_pairs, List.length_cons] at hnext
  omega

/-! ## Copying -/

namespace Selection

/-- **The first `k` entries are read.** Those in marked rows stand at the front, their
rows renumbered. -/
structure Copied (A : Csc α) (mask : Array Bool) (k : ℕ) (s : Selection α) : Prop where
  writing_eq : s.writing = ((A.pairs.take k).filterMap (selectEntry mask)).length
  size_rowIndex : s.rowIndex.size = (A.selected mask).rowIndex.size
  size_value : s.value.size = (A.selected mask).rowIndex.size
  copied : ∀ (t : ℕ) (p : ℕ × α), ((A.pairs.take k).filterMap (selectEntry mask))[t]? = some p →
    s.rowIndex[t]? = some p.1 ∧ s.value[t]? = some p.2

variable {numbers : Array ℕ}

namespace Copied

variable {k : ℕ} {s : Selection α}

/-- One more entry. -/
theorem step_ensures [Scalar α] (h : Copied A mask k s) (hA : A.WellFormed)
    (hsize : mask.size = A.nrows) {next : ℕ} (hnumbers : Numbered mask mask.size (numbers, next))
    (hk : k < A.rowIndex.size) :
    Ensures (s.step A mask numbers k) fun s' => Copied A mask (k + 1) s' ∧
      s'.colStart = s.colStart := by
  have hvalue := hA.size_value
  have hk' : k < A.pairs.length := by rwa [hA.length_pairs]
  have hpair : A.pairs[k] = (A.rowIndex[k], A.value[k]) := by simp [pairs]
  have hrow : A.rowIndex[k] < mask.size := by
    rw [hsize]
    exact hA.row_lt _ (Array.getElem_mem hk)
  have hnumber : numbers.size = mask.size := hnumbers.size_eq
  have htake : (A.pairs.take (k + 1)).filterMap (selectEntry mask) =
      (A.pairs.take k).filterMap (selectEntry mask) ++
        [(A.rowIndex[k], A.value[k])].filterMap (selectEntry mask) := by
    rw [List.take_succ_eq_append_getElem hk', List.filterMap_append, hpair]
  rw [step, read_eq_ok hk, ok_bind, read_eq_ok_getD false hrow, ok_bind]
  by_cases hmark : mask.getD A.rowIndex[k] false = true
  · have hroom := length_filterMap_lt hA hsize hk hmark
    have hrank : numbers.getD A.rowIndex[k] 0 = rank mask A.rowIndex[k] :=
      hnumbers.rank_eq _ hrow hmark
    rw [List.filterMap_cons_some (by rw [selectEntry, if_pos hmark]), List.filterMap_nil] at htake
    rw [if_pos hmark, read_eq_ok_getD 0 (by omega), ok_bind, hrank,
      write_eq_ok_setIfInBounds (by rw [h.writing_eq, h.size_rowIndex]; exact hroom), ok_bind,
      read_eq_ok (by omega), ok_bind,
      write_eq_ok_setIfInBounds (by rw [h.writing_eq, h.size_value]; exact hroom), ok_bind]
    refine .ok ⟨⟨?_, by simpa using h.size_rowIndex, by simpa using h.size_value, ?_⟩, rfl⟩
    · rw [htake, List.length_append, ← h.writing_eq]
      rfl
    · -- the entry stands behind those that were copied before
      intro t p hp
      rw [htake] at hp
      rw [h.writing_eq]
      exact ⟨getElem?_front_concat (·.1) (fun t p hp => (h.copied t p hp).1) _
          (by rwa [h.size_rowIndex]) hp,
        getElem?_front_concat (·.2) (fun t p hp => (h.copied t p hp).2) _
          (by rwa [h.size_value]) hp⟩
  · rw [List.filterMap_cons_none (by rw [selectEntry, if_neg hmark]), List.filterMap_nil,
      List.append_nil] at htake
    rw [if_neg hmark]
    refine .ok ⟨⟨?_, h.size_rowIndex, h.size_value, ?_⟩, rfl⟩
    · rw [htake, h.writing_eq]
    · rw [htake]
      exact h.copied

/-- **Reading on** for `count` entries. -/
theorem run_ensures [Scalar α] (h : Copied A mask k s) (hA : A.WellFormed)
    (hsize : mask.size = A.nrows) {next : ℕ} (hnumbers : Numbered mask mask.size (numbers, next))
    {count : ℕ} (hcount : k + count ≤ A.rowIndex.size) :
    Ensures ((List.range' k count).foldlM (step A mask numbers) s) fun s' =>
      Copied A mask (k + count) s' ∧ s'.colStart = s.colStart := by
  rw [List.range'_eq_map_range, List.foldlM_map]
  refine ensures_foldlM_range (I := fun i s' => Copied A mask (k + i) s' ∧
    s'.colStart = s.colStart) ⟨h, rfl⟩ ?_
  rintro i s' hi ⟨hs, hcol⟩
  refine (hs.step_ensures hA hsize hnumbers (by omega)).mono ?_
  rintro s'' ⟨hs', hcol'⟩
  exact ⟨hs', hcol'.trans hcol⟩

end Copied

/-- **The columns before `j` are copied,** and it is known where they start. -/
structure UpTo (A : Csc α) (mask : Array Bool) (j : ℕ) (s : Selection α) : Prop where
  copied : Copied A mask (A.start j) s
  size_colStart : s.colStart.size = A.ncols + 1
  start_eq : ∀ i < j, s.colStart.getD i 0 = (A.selected mask).start i

/-- The next column starts where writing stands. -/
theorem UpTo.write_start {j : ℕ} {s : Selection α} (h : UpTo A mask j s) (hA : A.WellFormed)
    (hsize : mask.size = A.nrows) (hj : j ≤ A.ncols) :
    Ensures (write s.colStart j s.writing) fun colStart => colStart.size = A.ncols + 1 ∧
      ∀ i < j + 1, colStart.getD i 0 = (A.selected mask).start i := by
  have hcol := h.size_colStart
  rw [write_eq_ok_setIfInBounds (by omega)]
  refine .ok ⟨by simpa using hcol, fun i hi => ?_⟩
  rw [getD_setIfInBounds (by omega)]
  split_ifs with hlast
  · subst hlast
    rw [h.copied.writing_eq, start_selected hA hsize hj]
  · exact h.start_eq i (by omega)

/-- One more column. -/
theorem UpTo.step_ensures [Scalar α] {j : ℕ} {s : Selection α} (h : UpTo A mask j s)
    (hA : A.WellFormed) (hsize : mask.size = A.nrows) {next : ℕ}
    (hnumbers : Numbered mask mask.size (numbers, next)) (hj : j < A.ncols) :
    Ensures (s.column A mask numbers j) (UpTo A mask (j + 1)) := by
  have hmono := hA.start_mono (show j ≤ j + 1 by omega) hj
  have hend := hA.start_le (j := j + 1) hj
  rw [column]
  refine (h.write_start hA hsize hj.le).bind ?_
  rintro colStart ⟨hcol, hstart⟩
  rw [hA.slots_eq hj, ok_bind]
  have hs : Copied A mask (A.start j) { s with colStart } :=
    ⟨h.copied.writing_eq, h.copied.size_rowIndex, h.copied.size_value, h.copied.copied⟩
  refine (hs.run_ensures hA hsize hnumbers (by omega)).mono ?_
  rintro s' ⟨hs', hkept⟩
  rw [Nat.add_sub_cancel' hmono] at hs'
  exact ⟨hs', by rw [hkept]; exact hcol, by rw [hkept]; exact hstart⟩

/-- Before the first column nothing is copied. -/
theorem upTo_zero [Scalar α] (hA : A.WellFormed) (nrows : ℕ) :
    let B : Csc α := Csc.blank nrows A.ncols (A.selected mask).rowIndex.size
    UpTo A mask 0 ⟨B.colStart, B.rowIndex, B.value, 0⟩ :=
  ⟨⟨by simp [hA.start_zero], by simp [Csc.blank], by simp [Csc.blank], by simp [hA.start_zero]⟩,
    by simp [Csc.blank], fun i hi => absurd hi (Nat.not_lt_zero i)⟩

/-- **After the last column** everything is in its place. -/
theorem UpTo.finish {s : Selection α} (h : UpTo A mask A.ncols s) (hA : A.WellFormed)
    (hsize : mask.size = A.nrows) :
    write s.colStart A.ncols s.writing = .ok (A.selected mask).colStart ∧
      s.rowIndex = (A.selected mask).rowIndex ∧ s.value = (A.selected mask).value := by
  have hwf := wellFormed_selected hA hsize
  obtain ⟨colStart, hwrite, hcol, hstart⟩ := h.write_start hA hsize le_rfl
  have hsize' := hwf.size_colStart
  rw [ncols_selected] at hsize'
  have hcolStart : colStart = (A.selected mask).colStart := ext_getD 0 hcol hsize' hstart
  -- as many entries are copied as there is room for
  have hcopied := h.copied.copied
  rw [List.take_of_length_le (by rw [hA.length_pairs, hA.start_last]), ← pairs_selected hA]
    at hcopied
  have hrows := take_eq_toArray (·.1) fun t p hp => (hcopied t p hp).1
  have hvalues := take_eq_toArray (·.2) fun t p hp => (hcopied t p hp).2
  rw [hwf.length_pairs, ← h.copied.size_rowIndex, Array.take_eq_extract,
    Array.extract_size] at hrows
  rw [hwf.length_pairs, ← h.copied.size_value, Array.take_eq_extract, Array.extract_size] at hvalues
  refine ⟨hcolStart ▸ hwrite, ?_, ?_⟩
  · rw [hrows, selected, pairs_ofColumns]
    rfl
  · rw [hvalues, selected, pairs_ofColumns]
    rfl

end Selection

/-- As many stored entries are marked as are selected. -/
theorem count_marks (hA : A.WellFormed) (hsize : mask.size = A.nrows) :
    (A.rowIndex.map fun i => mask.getD i false).count true = (A.selected mask).rowIndex.size := by
  rw [← (wellFormed_selected hA hsize).size_value, size_value_selected hA, Array.count,
    Array.countP_map]
  congr 1
  funext i
  rw [Function.comp_apply, Array.getD_eq_getD_getElem?]
  cases mask[i]?.getD false <;> rfl

/-- **Selecting rows by copying** answers the selected rows. -/
theorem select_eq [Scalar α] (hA : A.WellFormed) (hsize : mask.size = A.nrows) :
    A.select mask = .ok (A.selected mask) := by
  have hnumbers := numbered_renumber mask
  rcases hren : renumber mask with ⟨numbers, next⟩
  rw [hren] at hnumbers
  obtain rfl : next = mask.count true := hnumbers.next_eq.trans (rank_size mask)
  have hmarks : A.rowIndex.mapM (read mask) = .ok (A.rowIndex.map fun i => mask.getD i false) :=
    array_mapM_eq_ok fun i hi => read_eq_ok_getD false (by rw [hsize]; exact hA.row_lt i hi)
  obtain ⟨s, hloop, h⟩ := ensures_foldlM_range (n := A.ncols)
    (f := Selection.column A mask numbers) (I := Selection.UpTo A mask)
    (Selection.upTo_zero hA (mask.count true)) fun j s hj hs => hs.step_ensures hA hsize hnumbers hj
  obtain ⟨hwrite, hrows, hvalues⟩ := h.finish hA hsize
  rw [select, require_eq_ok hsize, ok_bind, hren]
  simp only [hmarks, ok_bind, count_marks hA hsize, hA.columnIndices_eq, hloop, hwrite, pure_eq_ok,
    hrows, hvalues]
  simp [Csc.blank, selected, ofColumns]

/-! ## What is selected -/

/-- **What selecting rows answers:** the entries of the marked rows and nothing else, in
their order and renumbered by rank. Multiplying by them is multiplying by all rows and
picking the marked ones; multiplying by their transpose is multiplying by that of all rows,
with the vector dealt out as after polishing. Selecting among them selects from all rows. -/
theorem select_of_checkFormat {α : Type} [arith : Scalar α] {A : Csc α} {mask : Array Bool}
    (hA : A.checkFormat = .ok ()) (hsize : mask.size = A.nrows) : ∃ B : Csc α,
    A.select mask = .ok B ∧ A.selectRows mask = .ok B ∧
    B.checkFormat = .ok () ∧ B.nrows = mask.count true ∧ B.ncols = A.ncols ∧
    (∃ before, A.entries = .ok before ∧ B.entries =
      .ok ((before.filter fun e => mask.getD e.row false).map (atRank mask))) ∧
    (∀ (a b : α) (x y : Array α), x.size = A.ncols → y.size = A.nrows →
      Ensures (A.mulVec a x b y) fun r => B.mulVec a x b (pick mask y) = .ok (pick mask r)) ∧
    (∀ w : Array α, w.size = mask.count true → deal mask w = Polish.spread mask w ∧
      pick mask (deal mask w) = w ∧
      ∀ i < A.nrows, mask.getD i false = false → (deal mask w).getD i 0 = 0) ∧
    (∀ [ExactField α], arith = ExactField.scalar → ∀ (a b : α) (w y : Array α),
      w.size = mask.count true → y.size = A.ncols →
      Ensures (A.mulTransposeVec a (deal mask w) b y) fun r =>
        B.mulTransposeVec a w b y = .ok r) ∧
    ∀ mask' : Array Bool, mask'.size = mask.count true →
      Ensures (B.select mask') fun C => A.select (both mask mask') = .ok C := by
  have h := checkFormat_eq_ok_iff.mp hA
  have hB := wellFormed_selected h hsize
  refine ⟨A.selected mask, select_eq h hsize, selectRows_eq h hsize, checkFormat_eq_ok_iff.mpr hB,
    rfl, ncols_selected, ⟨_, h.entries_eq, ?_⟩, fun a b x y hx hy => ?_, fun w hw => ?_, ?_,
    fun mask' hmask' => ?_⟩
  · rw [hB.entries_eq, entryList_selected]
  · exact (mulVec_pick h hsize a b hx hy).mono fun r hr => hr.2
  · refine ⟨deal_eq_spread hw, pick_deal hw, fun i hi hmark => ?_⟩
    rw [deal_eq_spread hw, Polish.getD_spread (by rwa [hsize]), hmark]
    rfl
  · rintro field rfl a b w y hw hy
    exact (mulTransposeVec_deal h hsize a b hw hy).mono fun r hr => hr.2
  · refine .of_eq (select_eq hB hmask') ?_
    rw [selected_selected A hmask', select_eq h (by rw [size_both, hsize])]

/-- Four rows and three columns, the second of them empty, with two entries in one place. -/
def quartet : Csc ℚ := ⟨4, 3, #[0, 3, 3, 6], #[3, 1, 3, 0, 2, 1], #[5, 7, -2, 4, 6, 8]⟩

theorem select_of_checkFormat_quartet : quartet.checkFormat = .ok () ∧ ∃ B C : Csc ℚ,
    quartet.select #[false, true, false, true] = .ok B ∧ B.nrows = 2 ∧
    B.entries = .ok [⟨1, 0, 5⟩, ⟨0, 0, 7⟩, ⟨1, 0, -2⟩, ⟨0, 2, 8⟩] ∧
    B.mulVec 1 #[1, 1, 1] 0 #[0, 0] = .ok #[15, 3] ∧
    B.mulTransposeVec 1 #[1, 10] 0 #[0, 0, 0] = .ok #[37, 0, 8] ∧
    B.select #[false, true] = .ok C ∧
    quartet.select #[false, false, false, true] = .ok C := by
  have hformat : quartet.checkFormat = .ok () := by decide +kernel
  have hentries : quartet.entries =
      .ok [⟨3, 0, 5⟩, ⟨1, 0, 7⟩, ⟨3, 0, -2⟩, ⟨0, 2, 4⟩, ⟨2, 2, 6⟩, ⟨1, 2, 8⟩] := by cbv
  obtain ⟨B, hB, -, -, hrows, -, ⟨before, hbefore, hafter⟩, hmul, -, hmulT, htwice⟩ :=
    @select_of_checkFormat ℚ _ quartet #[false, true, false, true] hformat rfl
  obtain ⟨C, hC, hC'⟩ := htwice #[false, true] rfl
  refine ⟨hformat, B, C, hB, hrows, ?_, ?_, ?_, hC, hC'⟩
  · rw [hentries] at hbefore
    obtain rfl := Except.ok.inj hbefore
    exact hafter.trans (by cbv)
  · have hall : quartet.mulVec 1 #[1, 1, 1] 0 #[0, 0, 0, 0] = .ok #[4, 15, 6, 3] := by
      decide +kernel
    exact (hmul 1 0 #[1, 1, 1] #[0, 0, 0, 0] rfl rfl).of_eq_ok hall
  · have hall : quartet.mulTransposeVec 1 (deal #[false, true, false, true] #[1, 10]) 0
        #[0, 0, 0] = .ok #[37, 0, 8] := by decide +kernel
    exact (hmulT rfl 1 0 #[1, 10] #[0, 0, 0] rfl rfl).of_eq_ok hall

end Csc

end SplitQP
