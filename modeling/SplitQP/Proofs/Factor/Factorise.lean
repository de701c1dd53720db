import SplitQP.Proofs.Sparse.SamePattern
import SplitQP.Proofs.Factor.Slots
/-!
# The numeric factorisation computes the rows

On an analysed pattern `factorise` does not fault, whatever the
arithmetic. It computes the rows of `denseRow` up to the first zero
pivot; without one it stores all of them (`factorise_ensures`). Between
two rows the scratch is clean, and the slots hold the rows computed so
far (`Between`). In a row under way the columns eliminated have one slot
more, and those still to come are marked (`InRow`).
-/

namespace SplitQP

open Checked SplitQP.Dense TreeState

variable {α : Type}

/-- **An analysed pattern:** an upper triangle, its elimination tree, and room
for its fill. -/
structure Analysed (upper : Csc α) (parent : Array (Option ℕ)) (colStart : Array ℕ) : Prop where
  wellFormed : upper.WellFormed
  row_le : ∀ k, ∀ i ∈ storedRows upper k, i ≤ k
  tree : IsTree (storedRows upper) upper.ncols parent
  layout : Layout (storedRows upper) upper.ncols colStart

/-- An analysis is one of the pattern. -/
theorem Analysed.congr {upper upper' : Csc α} {parent : Array (Option ℕ)} {colStart : Array ℕ}
    (ha : Analysed upper parent colStart) (h : Csc.SamePattern upper upper') :
    Analysed upper' parent colStart := by
  have hrows : storedRows upper' = storedRows upper := by
    funext k
    have hget : ∀ C : Csc α, storedRows C k = (C.cols.map (List.map (·.1))).getD k [] :=
      fun C => (List.getD_map C.cols [] (List.map (·.1))).symm
    rw [hget, hget, h.map_cols ha.wellFormed]
  refine ⟨h.wellFormed ha.wellFormed, ?_, ?_, ?_⟩
  · rw [hrows]
    exact ha.row_le
  · rw [hrows, h.ncols_eq]
    exact ha.tree
  · rw [hrows, h.ncols_eq]
    exact ha.layout

/-- Storage of the right lengths, whatever it holds. -/
structure Pivots.Fits (n room : ℕ) (w : Pivots α) : Prop where
  size_rowIndex : w.rowIndex.size = room
  size_value : w.value.size = room
  size_d : w.d.size = n
  size_dinv : w.dinv.size = n

/-- Scratch of the right lengths, whatever it was used for. -/
structure Scratch.Fits (n : ℕ) (t : Scratch α) : Prop where
  size_marked : t.marked.size = n
  size_stack : t.stack.size = n
  size_next : t.next.size = n
  size_row : t.row.size = n

/-- **All row indices are rows** of a matrix of dimension `n`. -/
def Pivots.InRange (n : ℕ) (w : Pivots α) : Prop := ∀ i ∈ w.rowIndex, i < n

variable {upper : Csc α} {parent : Array (Option ℕ)} {colStart : Array ℕ} {k : ℕ}

theorem Analysed.isPattern (ha : Analysed upper parent colStart) (hk : k ≤ upper.ncols) :
    IsPattern (storedRows upper) k (patternOf upper parent k) :=
  isPattern_rowPattern ha.tree hk (ha.row_le k)

theorem Analysed.mem_patternOf_iff (ha : Analysed upper parent colStart) (hk : k ≤ upper.ncols)
    {j : ℕ} : j ∈ patternOf upper parent k ↔ Fill (storedRows upper) k j :=
  mem_rowPattern_iff ha.tree hk (ha.row_le k)

/-- The rows of column `j` written when row `k` has eliminated the columns
`pre`. -/
noncomputable def filledDuring (upper : Csc α) (k : ℕ) (pre : List ℕ) (j : ℕ) : List ℕ :=
  fillRows (storedRows upper) (if j ∈ pre then k + 1 else k) j

theorem length_filledDuring_le (hk : k < upper.ncols) (pre : List ℕ) (j : ℕ) :
    (filledDuring upper k pre j).length ≤ (fillRows (storedRows upper) upper.ncols j).length := by
  rw [filledDuring]
  apply length_fillRows_mono
  split_ifs <;> omega

theorem filledDuring_append {pre : List ℕ} {j : ℕ} (hf : Fill (storedRows upper) k j)
    (hj : j ∉ pre) : filledDuring upper k (pre ++ [j]) =
      Function.update (filledDuring upper k pre) j (filledDuring upper k pre j ++ [k]) := by
  funext i
  by_cases hij : i = j
  · subst hij
    rw [Function.update_self, filledDuring, filledDuring, if_pos (by simp), if_neg hj,
      fillRows_succ_of_fill hf]
  · rw [Function.update_of_ne hij, filledDuring, filledDuring]
    simp [hij]

/-- Once all columns are eliminated, the row is written. -/
theorem filledDuring_patternOf (ha : Analysed upper parent colStart) (hk : k < upper.ncols)
    (j : ℕ) : fillRows (storedRows upper) (k + 1) j =
      filledDuring upper k (patternOf upper parent k) j := by
  rw [filledDuring]
  split_ifs with hmem
  · rfl
  · exact fillRows_succ_of_not_fill (mt (ha.mem_patternOf_iff hk.le).mpr hmem)

variable [Scalar α]

/-- **A row under way:** the columns `pre` are eliminated, those of `post` are
still marked. -/
structure InRow (upper : Csc α) (parent : Array (Option ℕ)) (colStart : Array ℕ) (k : ℕ)
    (pre post : List ℕ) (s : α × Scratch α × Pivots α) : Prop where
  pivot_eq : s.1 = (rowAfter upper parent k pre).pivot
  size_marked : s.2.1.marked.size = upper.ncols
  size_stack : s.2.1.stack.size = upper.ncols
  size_next : s.2.1.next.size = upper.ncols
  size_row : s.2.1.row.size = upper.ncols
  size_d : s.2.2.d.size = upper.ncols
  size_dinv : s.2.2.dinv.size = upper.ncols
  marked_iff : ∀ j < upper.ncols, s.2.1.marked.getD j false = true ↔ j ∈ post
  row_eq : ∀ i < upper.ncols, s.2.1.row.getD i 0 = (rowAfter upper parent k pre).rest i
  next_eq : ∀ j < upper.ncols,
    s.2.1.next.getD j 0 = colStart.getD j 0 + (filledDuring upper k pre j).length
  written : Written upper.ncols colStart (filledDuring upper k pre) (lowerEntry upper parent) s.2.2
  d_eq : ∀ j < k, s.2.2.d.getD j 0 = pivotAt upper parent j
  dinv_eq : ∀ j < k, s.2.2.dinv.getD j 0 = Scalar.recip (pivotAt upper parent j)

section Column

variable (ha : Analysed upper parent colStart) (hk : k < upper.ncols) {pre post : List ℕ} {j : ℕ}
  (hpat : patternOf upper parent k = pre ++ j :: post)

include ha hk hpat

omit [Scalar α] in
/-- A column of the pattern fills in, and stands in the pattern once. -/
theorem fill_of_split : Fill (storedRows upper) k j ∧ j ∉ pre ∧ j ∉ post := by
  have hnd := (ha.isPattern hk.le).nodup
  rw [hpat, List.nodup_append] at hnd
  refine ⟨(ha.isPattern hk.le).fill j (by rw [hpat]; simp), fun hc => ?_, ?_⟩
  · exact hnd.2.2 j hc j (by simp) rfl
  · exact (List.nodup_cons.mp hnd.2.1).1

omit [Scalar α] in
theorem filledDuring_of_split :
    filledDuring upper k pre j = fillRows (storedRows upper) k j := by
  rw [filledDuring, if_neg (fill_of_split ha hk hpat).2.1]

variable {pivot : α} {t : Scratch α} {w : Pivots α}
  (h : InRow upper parent colStart k pre (j :: post) (pivot, t, w))

include h

/-- The entry of the row in column `j`, from the scratch. -/
theorem InRow.lowerEntry_eq :
    lowerEntry upper parent k j = t.row.getD j 0 * w.dinv.getD j 0 := by
  have hjk := (fill_of_split ha hk hpat).1.lt
  have hdinv := h.dinv_eq j hjk
  have hy := h.row_eq j (hjk.trans hk)
  have hpat' : patternOf upper parent k = (pre ++ [j]) ++ post := by simpa using hpat
  simp only at hdinv hy
  rw [lowerEntry_eq_rowAfter hpat' (ha.isPattern hk.le).nodup (by simp),
    entry_rowAfter_append pre hjk, hy, hdinv]

/-- One more slot of column `j` is taken. -/
theorem InRow.getD_next {i : ℕ} (hi : i < upper.ncols) (hj : j < t.next.size) :
    (t.next.set j (colStart.getD j 0 + (fillRows (storedRows upper) k j).length + 1) hj).getD i 0 =
      colStart.getD i 0 + (filledDuring upper k (pre ++ [j]) i).length := by
  obtain ⟨hfill, hpre, -⟩ := fill_of_split ha hk hpat
  have hsize := h.size_next
  simp only at hsize
  rw [getD_set (by omega) (by omega), filledDuring_append hfill hpre]
  by_cases hij : j = i
  · subst hij
    rw [if_pos rfl, Function.update_self, filledDuring_of_split ha hk hpat, List.length_append,
      List.length_singleton]
    omega
  · rw [if_neg hij, Function.update_of_ne (Ne.symm hij)]
    exact h.next_eq i hi

/-- The mark of column `j` is taken away. -/
theorem InRow.getD_marked {i : ℕ} (hi : i < upper.ncols) (hj : j < t.marked.size) :
    (t.marked.set j false hj).getD i false = true ↔ i ∈ post := by
  obtain ⟨-, -, hpost⟩ := fill_of_split ha hk hpat
  have hsize := h.size_marked
  have hmark : t.marked.getD i false = true ↔ i ∈ j :: post := h.marked_iff i hi
  simp only at hsize
  rw [getD_set (by omega) (by omega)]
  by_cases hji : j = i
  · subst hji
    simpa using hpost
  · rw [if_neg hji, hmark, List.mem_cons, or_iff_right (Ne.symm hji)]

omit ha hk hpat in
/-- The row is as far as `rowAfter` is with column `j`. -/
theorem InRow.getD_row {row : Array α} (hj : j < row.size) (hsize : row.size = t.row.size)
    (hrow : ∀ i < t.row.size, row.getD i 0 = if i ∈ fillRows (storedRows upper) k j then
      t.row.getD i 0 - lowerEntry upper parent i j * t.row.getD j 0 else t.row.getD i 0)
    {i : ℕ} (hi : i < upper.ncols) :
    (row.set j 0 hj).getD i 0 = (rowAfter upper parent k (pre ++ [j])).rest i := by
  have hr := h.size_row
  simp only at hr
  have hyj : t.row.getD j 0 = (rowAfter upper parent k pre).rest j := h.row_eq j (by omega)
  have hyi : t.row.getD i 0 = (rowAfter upper parent k pre).rest i := h.row_eq i hi
  rw [getD_set (by omega) (by omega), rest_rowAfter_append]
  by_cases hji : j = i
  · rw [if_pos hji, if_pos hji.symm]
  · rw [if_neg hji, if_neg (Ne.symm hji), hrow i (by omega), ← hyj, ← hyi]

/-- The entry goes to the next free slot of its column. -/
theorem InRow.written_push {free : ℕ}
    (hfree : free = colStart.getD j 0 + (fillRows (storedRows upper) k j).length)
    (hr : free < w.rowIndex.size) (hv : free < w.value.size) :
    Written upper.ncols colStart (filledDuring upper k (pre ++ [j])) (lowerEntry upper parent)
      { w with
        rowIndex := w.rowIndex.set free k
        value := w.value.set free (t.row.getD j 0 * w.dinv.getD j 0) } := by
  obtain ⟨hfill, hpre, -⟩ := fill_of_split ha hk hpat
  have hlen := filledDuring_of_split ha hk hpat
  have hw : Written upper.ncols colStart (filledDuring upper k pre)
    (lowerEntry upper parent) w := h.written
  have hpush := hw.push ha.layout (k := k) (v := t.row.getD j 0 * w.dinv.getD j 0)
    (fun i _ => length_filledDuring_le hk pre i) (hfill.lt.trans hk)
    (by rw [hlen]; exact length_fillRows_lt hfill hk) (by rw [hlen, mem_fillRows]; simp)
    (by rw [hlen]; exact hfree) hr hv
  rw [filledDuring_append hfill hpre]
  refine hpush.congr (fun _ _ => rfl) fun i _ r _ => ?_
  split_ifs with hri
  · rw [hri.1, hri.2, h.lowerEntry_eq ha hk hpat]
  · rfl

end Column

/-- **Eliminating one column.** -/
theorem eliminateColumn_ensures (ha : Analysed upper parent colStart) (hk : k < upper.ncols)
    {pre post : List ℕ} {j : ℕ} (hpat : patternOf upper parent k = pre ++ j :: post)
    {s : α × Scratch α × Pivots α} (h : InRow upper parent colStart k pre (j :: post) s) :
    Ensures (eliminateColumn colStart k s j) (InRow upper parent colStart k (pre ++ [j]) post) := by
  obtain ⟨pivot, t, w⟩ := s
  obtain ⟨hfill, -, hpost⟩ := fill_of_split ha hk hpat
  have hlen := filledDuring_of_split ha hk hpat
  have hjk := hfill.lt
  have hjn : j < upper.ncols := hjk.trans hk
  have hnext := h.next_eq j hjn
  rw [hlen] at hnext
  have hsizes := h.written.size_rowIndex
  have hsizesv := h.written.size_value
  have hslotlt := ha.layout.slot_lt hjn (length_fillRows_lt hfill hk)
  have hm := h.size_marked
  have hst := h.size_stack
  have hn := h.size_next
  have hr := h.size_row
  have hdi := h.size_dinv
  simp only at hm hst hn hr hdi hnext hsizes hsizesv
  -- the walk over the slots of column `j`
  have hwalk := subtractSlots_ensures (w := w) (y := t.row.getD j 0)
    (fillRows (storedRows upper) k j) (fun r => lowerEntry upper parent r j)
    (colStart.getD j 0) t.row
    (fun i r hir => h.written.slot j hjn i r (by rw [hlen]; exact hir)) nodup_fillRows
    (fun r hrmem => by have := (mem_fillRows.mp hrmem).1; omega)
  rw [eliminateColumn]
  dsimp only
  rw [read_eq_ok_getD 0 (by omega), ok_bind, read_eq_ok_getD 0 (by omega), ok_bind,
    read_eq_ok_getD 0 (by have := ha.layout.size_eq; omega), ok_bind, hnext,
    Nat.add_sub_cancel_left]
  refine hwalk.bind ?_
  rintro row ⟨hrowsize, hrow⟩
  rw [read_eq_ok_getD 0 (by omega), ok_bind, write_eq_ok (by omega), ok_bind,
    write_eq_ok (by omega), ok_bind, write_eq_ok (by omega), ok_bind, write_eq_ok (by omega),
    ok_bind, write_eq_ok (by omega), ok_bind]
  have hdinv := h.dinv_eq j hjk
  have hy := h.row_eq j hjn
  simp only at hdinv hy
  have hw := h.written_push ha hk hpat rfl (by omega) (by omega)
  refine .ok ?_
  exact {
    pivot_eq := by rw [pivot_rowAfter_append pre hjk, ← hy, ← hdinv, ← h.pivot_eq]
    size_marked := by simpa using hm
    size_stack := hst
    size_next := by simpa using hn
    size_row := by simpa using hrowsize.trans hr
    size_d := h.size_d
    size_dinv := hdi
    marked_iff := fun i hi => h.getD_marked ha hk hpat hi (by omega)
    row_eq := fun i hi => h.getD_row (by omega) hrowsize hrow hi
    next_eq := fun i hi => h.getD_next ha hk hpat hi (by omega)
    written := ⟨hw.size_rowIndex, hw.size_value, hw.slot⟩
    d_eq := h.d_eq
    dinv_eq := h.dinv_eq }

/-- **Between two rows.** The scratch is clean and the rows below `k` are
stored. -/
structure Between (upper : Csc α) (parent : Array (Option ℕ)) (colStart : Array ℕ) (k : ℕ)
    (s : RowState α) : Prop where
  size_marked : s.scratch.marked.size = upper.ncols
  size_stack : s.scratch.stack.size = upper.ncols
  size_next : s.scratch.next.size = upper.ncols
  size_row : s.scratch.row.size = upper.ncols
  size_d : s.pivots.d.size = upper.ncols
  size_dinv : s.pivots.dinv.size = upper.ncols
  unmarked : ∀ j < upper.ncols, s.scratch.marked.getD j false = false
  clear : ∀ i < upper.ncols, s.scratch.row.getD i 0 = 0
  next_eq : ∀ j < upper.ncols,
    s.scratch.next.getD j 0 = colStart.getD j 0 + (fillRows (storedRows upper) k j).length
  written : Written upper.ncols colStart (fillRows (storedRows upper) k)
    (lowerEntry upper parent) s.pivots
  d_eq : ∀ j < k, s.pivots.d.getD j 0 = pivotAt upper parent j
  dinv_eq : ∀ j < k, s.pivots.dinv.getD j 0 = Scalar.recip (pivotAt upper parent j)
  positive_eq : s.positive = (List.range k).countP fun j => Scalar.lt 0 (pivotAt upper parent j)

/-- Storage keeps its lengths. -/
theorem Between.fits {s : RowState α} (h : Between upper parent colStart k s) :
    s.pivots.Fits upper.ncols (colStart.getD upper.ncols 0) :=
  ⟨h.written.size_rowIndex, h.written.size_value, h.size_d, h.size_dinv⟩

/-- So does scratch. -/
theorem Between.fits_scratch {s : RowState α} (h : Between upper parent colStart k s) :
    s.scratch.Fits upper.ncols := ⟨h.size_marked, h.size_stack, h.size_next, h.size_row⟩

/-- **A finished row is clear:** what is not eliminated was never reached. -/
theorem rest_denseRow (ha : Analysed upper parent colStart) (hk : k ≤ upper.ncols) (i : ℕ) :
    (denseRow upper parent k).rest i = 0 := by
  have hpat := ha.isPattern hk
  rw [denseRow_eq, rowAfter]
  by_cases hmem : i ∈ patternOf upper parent k
  · refine DenseRow.rest_foldl_eliminate_of_mem hmem ?_ _
    intro pre post hsplit j hj hbelow
    have hpre := hpat.mem_pre_of_fill hsplit (by rw [hsplit]; simp [hj]) (mem_fillRows.mp hbelow).2
    have hnd := hpat.nodup
    rw [hsplit, List.nodup_append] at hnd
    exact hnd.2.2 j hpre j (by simp [hj]) rfl
  · rw [DenseRow.rest_foldl_eliminate]
    · rw [DenseRow.begin]
      dsimp only
      split_ifs with hik
      · refine gathered_of_not_mem fun hstored => hmem ?_
        exact (ha.mem_patternOf_iff hk).mpr (.stored hstored hik)
      · rfl
    · intro j hj
      refine ⟨fun hij => hmem (hij ▸ hj), fun hbelow => hmem ?_⟩
      obtain ⟨hik, hfill⟩ := mem_fillRows.mp hbelow
      exact hpat.mem_of_fill hj hfill hik

/-- What a row leaves behind if its pivot is `pivot`. -/
structure Pivots.Ends (upper : Csc α) (parent : Array (Option ℕ)) (colStart : Array ℕ) (k : ℕ)
    (r : RowState α × Bool) : Prop where
  fits : r.1.pivots.Fits upper.ncols (colStart.getD upper.ncols 0)
  fits_scratch : r.1.scratch.Fits upper.ncols
  answer : r.2 = !Scalar.eq (pivotAt upper parent k) 0
  between : r.2 = true → Between upper parent colStart (k + 1) r.1

/-- Gathering begins with clean scratch. -/
theorem Between.beginGather {s : RowState α} (h : Between upper parent colStart k s) :
    Gathered.Holds upper.ncols k parent []
      (⟨0, s.scratch.row, ⟨s.scratch.marked, s.scratch.stack, 0, s.scratch.stack.size⟩⟩ :
        Gathered α) where
  pivot_eq := rfl
  size_row := h.size_row
  row_eq := fun i hi => by
    rw [h.clear i hi]
    split_ifs <;> rfl
  pattern := {
    size_marked := h.size_marked
    size_stack := h.size_stack
    len_eq := rfl
    top_eq := h.size_stack
    bottom := by simp
    upper := by simp
    marked := fun j hj => by simp [h.unmarked j hj]
    nodup := by simp
    lt := by simp }

/-- A row begins with what was gathered. -/
theorem Between.beginRow {s : RowState α} (h : Between upper parent colStart k s) {g : Gathered α}
    (hg : Gathered.Holds upper.ncols k parent (storedEntries upper k) g) :
    InRow upper parent colStart k [] (patternOf upper parent k)
      (g.pivot, { s.scratch with
        marked := g.pattern.marked, stack := g.pattern.stack, row := g.row }, s.pivots) where
  pivot_eq := hg.pivot_eq
  size_marked := hg.pattern.size_marked
  size_stack := hg.pattern.size_stack
  size_next := h.size_next
  size_row := hg.size_row
  size_d := h.size_d
  size_dinv := h.size_dinv
  marked_iff := hg.pattern.marked
  row_eq := hg.row_eq
  next_eq := h.next_eq
  written := h.written.congr (fun _ _ => rfl) fun _ _ _ _ => rfl
  d_eq := h.d_eq
  dinv_eq := h.dinv_eq

/-- A row with a pivot that is not zero is stored with it. -/
theorem InRow.between (ha : Analysed upper parent colStart) (hk : k < upper.ncols)
    {t : Scratch α} {w : Pivots α} {positive : ℕ}
    (h : InRow upper parent colStart k (patternOf upper parent k) [] (pivotAt upper parent k, t, w))
    (hpos : positive = (List.range k).countP fun j => Scalar.lt 0 (pivotAt upper parent j))
    (hkd : k < w.d.size) (hkdi : k < w.dinv.size) :
    Between upper parent colStart (k + 1)
      ⟨t, { w with
        d := w.d.set k (pivotAt upper parent k)
        dinv := w.dinv.set k (Scalar.recip (pivotAt upper parent k)) },
        if Scalar.lt 0 (pivotAt upper parent k) then positive + 1 else positive⟩ := by
  have hd := h.size_d
  have hdi := h.size_dinv
  simp only at hd hdi
  have hfilled := filledDuring_patternOf ha hk
  have hwr : Written upper.ncols colStart (fillRows (storedRows upper) (k + 1))
      (lowerEntry upper parent) w := h.written.congr (fun j _ => hfilled j) fun _ _ _ _ => rfl
  exact {
    size_marked := h.size_marked
    size_stack := h.size_stack
    size_next := h.size_next
    size_row := h.size_row
    size_d := by simpa using hd
    size_dinv := by simpa using hdi
    unmarked := fun j hj => by simpa using h.marked_iff j hj
    clear := fun i hi => by
      rw [h.row_eq i hi, ← denseRow_eq]
      exact rest_denseRow ha hk.le i
    next_eq := fun j hj => by
      rw [hfilled]
      exact h.next_eq j hj
    written := ⟨hwr.size_rowIndex, hwr.size_value, hwr.slot⟩
    d_eq := fun j hj => by
      rw [getD_set (by omega) (by omega)]
      split_ifs with hjk
      · rw [hjk]
      · exact h.d_eq j (by omega)
    dinv_eq := fun j hj => by
      rw [getD_set (by omega) (by omega)]
      split_ifs with hjk
      · rw [hjk]
      · exact h.dinv_eq j (by omega)
    positive_eq := by
      rw [List.range_succ, List.countP_append, ← hpos, List.countP_singleton]
      dsimp only
      split_ifs <;> rfl }

/-- A row ends by storing its pivot. -/
theorem InRow.finish (ha : Analysed upper parent colStart) (hk : k < upper.ncols)
    {pivot : α} {t : Scratch α} {w : Pivots α}
    (h : InRow upper parent colStart k (patternOf upper parent k) [] (pivot, t, w)) {positive : ℕ}
    (hpos : positive = (List.range k).countP fun j => Scalar.lt 0 (pivotAt upper parent j)) :
    Ensures (do
      let w := { w with d := ← write w.d k pivot }
      if Scalar.eq pivot 0 then
        return (⟨t, w, positive⟩, false)
      else
        let w := { w with dinv := ← write w.dinv k (Scalar.recip pivot) }
        return (⟨t, w, if Scalar.lt 0 pivot then positive + 1 else positive⟩, true))
      (Pivots.Ends upper parent colStart k) := by
  have hd := h.size_d
  have hdi := h.size_dinv
  simp only at hd hdi
  have hpivot : pivot = pivotAt upper parent k := by
    have := h.pivot_eq
    rwa [← denseRow_eq] at this
  have ht : t.Fits upper.ncols := ⟨h.size_marked, h.size_stack, h.size_next, h.size_row⟩
  rw [write_eq_ok (by omega), ok_bind]
  subst hpivot
  by_cases hzero : Scalar.eq (pivotAt upper parent k) 0 = true
  · rw [if_pos hzero]
    exact .ok ⟨⟨h.written.size_rowIndex, h.written.size_value, by simpa using hd, hdi⟩, ht,
      by simp [hzero], by simp⟩
  rw [if_neg hzero]
  dsimp only
  rw [write_eq_ok (by omega), ok_bind]
  exact .ok ⟨⟨h.written.size_rowIndex, h.written.size_value, by simpa using hd,
    by simpa using hdi⟩, ht, by simp [hzero], fun _ => h.between ha hk hpos (by omega) (by omega)⟩

/-- **One row.** -/
theorem factorRow_ensures (ha : Analysed upper parent colStart) (hk : k < upper.ncols)
    {s : RowState α} (h : Between upper parent colStart k s) :
    Ensures (factorRow upper parent colStart s k) (Pivots.Ends upper parent colStart k) := by
  have hpat := ha.isPattern hk.le
  have hcol : upper.column k = .ok (storedEntries upper k) := by
    rw [ha.wellFormed.column_eq hk, storedEntries]
  have hes : ∀ e ∈ storedEntries upper k, e.1 ≤ k ∧ e.1 ∈ storedRows upper k := by
    intro e he
    have hmem : e.1 ∈ storedRows upper k := List.mem_map_of_mem he
    exact ⟨ha.row_le k e.1 hmem, hmem⟩
  rw [factorRow]
  simp only [hcol, ok_bind]
  refine (gather_ensures ha.tree hk hes h.beginGather).bind fun g hg => ?_
  obtain ⟨pivot₀, row₀, p₀⟩ := g
  have hstack : (p₀.stack.extract p₀.top p₀.stack.size).toList = patternOf upper parent k :=
    hg.pattern.extract_eq
  rw [hstack]
  -- the columns still to come are what the pattern has left, so `post` is not free
  have hloop := ensures_foldlM (l := patternOf upper parent k)
    (s := (pivot₀, { s.scratch with marked := p₀.marked, stack := p₀.stack, row := row₀ },
      s.pivots))
    (f := eliminateColumn colStart k)
    (I := fun pre s' => ∀ post, patternOf upper parent k = pre ++ post →
      InRow upper parent colStart k pre post s')
    (by
      rintro post rfl
      exact h.beginRow hg)
    (by
      intro pre j post s' hsplit hs'
      refine (eliminateColumn_ensures ha hk hsplit (hs' _ hsplit)).mono ?_
      intro s'' hs'' post' hpost'
      have : post' = post := by
        rw [hsplit] at hpost'
        simpa using hpost'.symm
      rwa [this])
  refine hloop.bind ?_
  rintro ⟨pivot, t, w⟩ hend
  have hrow : InRow upper parent colStart k (patternOf upper parent k) [] (pivot, t, w) :=
    hend [] (by simp)
  exact hrow.finish ha hk h.positive_eq

/-- **All rows are stored.** -/
structure Pivots.Hold (upper : Csc α) (parent : Array (Option ℕ)) (colStart : Array ℕ)
    (w : Pivots α) : Prop where
  size_d : w.d.size = upper.ncols
  size_dinv : w.dinv.size = upper.ncols
  written : Written upper.ncols colStart (fillRows (storedRows upper) upper.ncols)
    (lowerEntry upper parent) w
  d_eq : ∀ j < upper.ncols, w.d.getD j 0 = pivotAt upper parent j
  dinv_eq : ∀ j < upper.ncols, w.dinv.getD j 0 = Scalar.recip (pivotAt upper parent j)

/-- Every slot holds a row of the fill. -/
theorem Pivots.Hold.inRange (ha : Analysed upper parent colStart) {w : Pivots α}
    (h : w.Hold upper parent colStart) : w.InRange upper.ncols := by
  intro i hi
  obtain ⟨s, hs, rfl⟩ := Array.getElem_of_mem hi
  have hs' : s < colStart.getD upper.ncols 0 := by
    rw [← h.written.size_rowIndex]
    exact hs
  obtain ⟨j, hj, t, ht, rfl⟩ := ha.layout.exists_slot le_rfl hs'
  have hslot := (h.written.slot j hj t _ (List.getElem?_eq_getElem ht)).1
  obtain ⟨_, hval⟩ := Array.getElem?_eq_some_iff.mp hslot
  have hlt := (mem_fillRows.mp (List.getElem_mem ht)).1
  rwa [← hval] at hlt

/-- **The outcome of a numeric factorisation:** every row, or the first zero
pivot. -/
structure FactorOutcome (upper : Csc α) (parent : Array (Option ℕ)) (colStart : Array ℕ)
    (r : Pivots α × Except LdlError ℕ) : Prop where
  fits : r.1.Fits upper.ncols (colStart.getD upper.ncols 0)
  outcome :
    (r.2 = .ok ((List.range upper.ncols).countP fun j => Scalar.lt 0 (pivotAt upper parent j)) ∧
      (∀ j < upper.ncols, Scalar.eq (pivotAt upper parent j) 0 = false) ∧
      r.1.Hold upper parent colStart) ∨
    ∃ k < upper.ncols, r.2 = .error (.zeroPivot k) ∧ Scalar.eq (pivotAt upper parent k) 0 = true ∧
      ∀ j < k, Scalar.eq (pivotAt upper parent j) 0 = false

/-- **The rows from `k` on.** -/
theorem factorRows_ensures (ha : Analysed upper parent colStart) {count : ℕ} {s : RowState α}
    (hcount : k + count = upper.ncols) (h : Between upper parent colStart k s)
    (hprev : ∀ j < k, Scalar.eq (pivotAt upper parent j) 0 = false) :
    Ensures (factorRows upper parent colStart count k s) fun r =>
      FactorOutcome upper parent colStart (r.1.pivots, r.2) ∧ r.1.scratch.Fits upper.ncols := by
  induction count generalizing k s with
  | zero =>
    obtain rfl : k = upper.ncols := by omega
    refine .ok ⟨⟨h.fits, .inl ⟨congrArg _ h.positive_eq, hprev, ?_⟩⟩, h.fits_scratch⟩
    exact ⟨h.size_d, h.size_dinv, h.written, h.d_eq, h.dinv_eq⟩
  | succ count ih =>
    rw [factorRows]
    refine (factorRow_ensures ha (by omega) h).bind ?_
    rintro ⟨s', go⟩ hs'
    have hgo := hs'.answer
    cases go with
    | true =>
      refine ih (by omega) (hs'.between rfl) fun j hj => ?_
      rcases Nat.lt_succ_iff_lt_or_eq.mp hj with hlt | rfl
      · exact hprev j hlt
      · simpa using hgo.symm
    | false =>
      exact .ok ⟨⟨hs'.fits, .inr ⟨k, by omega, rfl, by simpa using hgo.symm, hprev⟩⟩,
        hs'.fits_scratch⟩

theorem Scratch.fits_initial (n : ℕ) : (Scratch.initial n : Scratch α).Fits n := by
  constructor <;> simp [initial]

/-- Before the first row nothing is stored, and scratch is clean. -/
theorem between_zero (ha : Analysed upper parent colStart) {w : Pivots α}
    (hw : w.Fits upper.ncols (colStart.getD upper.ncols 0)) {t : Scratch α}
    (ht : t.Fits upper.ncols) :
    Ensures (t.restart colStart w.d.size) fun t' =>
      Between upper parent colStart 0 ⟨t', w, 0⟩ := by
  have hsize := ha.layout.size_eq
  rw [Scratch.restart, hw.size_d, require_eq_ok (by omega), ok_bind, require_eq_ok ht.size_next]
  refine .ok ?_
  exact {
    size_marked := by simp [ht.size_marked]
    size_stack := ht.size_stack
    size_next := by simp [hsize]
    size_row := by simp [ht.size_row]
    size_d := hw.size_d
    size_dinv := hw.size_dinv
    unmarked := fun j hj => by
      rw [getD_of_lt _ (by simpa [ht.size_marked] using hj)]
      simp
    clear := fun i hi => getD_map (0 : α) 0 (by rw [ht.size_row]; exact hi)
    next_eq := fun j hj => by
      have hcol : colStart.getD j 0 = colStart[j] := getD_of_lt 0 (by omega)
      rw [getD_of_lt _ (by simp [hsize]; omega), hcol]
      simp [fillRows_zero]
    written := ⟨hw.size_rowIndex, hw.size_value, by simp [fillRows_zero]⟩
    d_eq := by simp
    dinv_eq := by simp
    positive_eq := by simp }

/-- **The numeric factorisation does not fault.** It needs storage and scratch of the
right lengths, and nothing of what they hold. -/
theorem factoriseIn_ensures (ha : Analysed upper parent colStart) {w : Pivots α}
    (hw : w.Fits upper.ncols (colStart.getD upper.ncols 0)) {t : Scratch α}
    (ht : t.Fits upper.ncols) :
    Ensures (factoriseIn upper parent colStart w t) fun r =>
      FactorOutcome upper parent colStart (r.1, r.2.2) ∧ r.2.1.Fits upper.ncols := by
  rw [factoriseIn]
  refine (between_zero ha hw ht).bind fun t' hbetween => ?_
  refine (factorRows_ensures ha (by rw [hw.size_d]; omega) hbetween (by simp)).bind ?_
  rintro ⟨s, outcome⟩ hs
  exact .ok hs

theorem factorise_ensures (ha : Analysed upper parent colStart) {w : Pivots α}
    (hw : w.Fits upper.ncols (colStart.getD upper.ncols 0)) :
    Ensures (factorise upper parent colStart w) (FactorOutcome upper parent colStart) := by
  have ht : (Scratch.initial w.d.size : Scratch α).Fits upper.ncols := by
    rw [hw.size_d]
    exact Scratch.fits_initial _
  rw [factorise]
  refine (factoriseIn_ensures ha hw ht).bind ?_
  rintro ⟨w', t', outcome⟩ ⟨hout, -⟩
  exact .ok hout

end SplitQP
