import SplitQP.Proofs.Number.NotANumber
import SplitQP.Proofs.Sparse.Compaction
import SplitQP.Proofs.Sparse.Sorted
import SplitQP.Proofs.Sparse.Triplets
/-!
# Matrices of a call are sorted by column

Coordinates with indices in range become a matrix that lists them by
column, each column in the order given, without the small ones
(`Coordinates.toCsc_sorts_by_column`). What is out of range is reported
where it is first found (`Triplets.firstOutside_eq_some_iff`).
-/

namespace SplitQP

open Checked

variable {α : Type}

/-! ## Entries in the order of their columns -/

/-- The entries of a matrix made of bins are sorted by column. -/
theorem Filling.entryList_filled {nrows n : ℕ} {entries : List (Entry α)}
    (hcol : ∀ e ∈ entries, e.col < n) :
    (filled nrows n entries).entryList = entries.mergeSort (·.col ≤ ·.col) := by
  rw [← flatten_filter_range_eq_mergeSort hcol, Csc.entryList, filled, Csc.cols_ofColumns,
    Csc.distribute_eq, Csc.entriesOf]
  congr 1
  apply List.ext_getElem
  · simp
  · intro j h1 h2
    simp only [List.getElem_map, List.getElem_zipIdx, List.getElem_range, Nat.zero_add]
    rw [Csc.bin, items, List.filter_map, List.map_map, List.map_map]
    refine (List.map_congr_left fun e he => ?_).trans (List.map_id _)
    have hej : e.col = j := by simpa using (List.mem_filter.mp he).2
    simp [← hej]

/-- Leaving entries out and sorting by column can be done in either order. -/
theorem filter_mergeSort_col {entries : List (Entry α)} (p : Entry α → Bool) :
    (entries.mergeSort (·.col ≤ ·.col)).filter p =
      (entries.filter p).mergeSort (·.col ≤ ·.col) := by
  obtain ⟨n, hn⟩ : ∃ n, ∀ e ∈ entries, e.col < n := by
    refine ⟨(entries.map (·.col)).sum + 1, fun e he => Nat.lt_succ_of_le ?_⟩
    exact List.le_sum_of_mem (List.mem_map_of_mem he)
  rw [← flatten_filter_range_eq_mergeSort hn,
    ← flatten_filter_range_eq_mergeSort fun e he => hn e (List.mem_filter.mp he).1,
    List.filter_flatten, List.map_map]
  simp only [Function.comp_def, List.filter_filter, Bool.and_comm]

/-! ## What is out of range -/

namespace Triplets

variable {nrows ncols : ℕ}

/-- The indices of an entry lie in the matrix. -/
def Inside (nrows ncols : ℕ) (row col : ℤ) : Prop :=
  (0 ≤ row ∧ row < nrows) ∧ 0 ≤ col ∧ col < ncols

instance (nrows ncols : ℕ) (row col : ℤ) : Decidable (Inside nrows ncols row col) :=
  inferInstanceAs (Decidable (_ ∧ _))

theorem inRange_and_eq_true_iff {row col : ℤ} :
    (inRange row nrows && inRange col ncols) = true ↔ Inside nrows ncols row col := by
  rw [Bool.and_eq_true, inRange_eq_true_iff, inRange_eq_true_iff, Inside]

/-- **The first entry outside is reported,** with the position and the indices it was
given. -/
theorem firstOutside_eq_some_iff {k : ℕ} {l : List (ℤ × ℤ × α)} {e : SparseError} :
    firstOutside nrows ncols k l = some e ↔ ∃ i row col v, l[i]? = some (row, col, v) ∧
      e = .entryOutside (k + i) row col nrows ncols ∧ ¬ Inside nrows ncols row col ∧
      ∀ x ∈ l.take i, Inside nrows ncols x.1 x.2.1 := by
  induction l generalizing k with
  | nil => simp [firstOutside]
  | cons x l ih =>
    obtain ⟨row, col, v⟩ := x
    rw [firstOutside]
    split_ifs with hin
    all_goals rw [inRange_and_eq_true_iff] at hin
    · rw [ih]
      constructor
      · rintro ⟨i, row', col', v', hget, rfl, hout, hbefore⟩
        refine ⟨i + 1, row', col', v', hget, by rw [Nat.add_assoc, Nat.add_comm 1], hout, ?_⟩
        rw [List.take_succ_cons]
        exact List.forall_mem_cons.mpr ⟨hin, hbefore⟩
      · rintro ⟨i, row', col', v', hget, rfl, hout, hbefore⟩
        cases i with
        | zero =>
          cases hget
          exact absurd hin hout
        | succ i =>
          rw [List.take_succ_cons] at hbefore
          exact ⟨i, row', col', v', hget, by rw [Nat.add_assoc, Nat.add_comm 1], hout,
            (List.forall_mem_cons.mp hbefore).2⟩
    · constructor
      · rintro h
        exact ⟨0, row, col, v, rfl, (Option.some.inj h).symm, hin, by simp⟩
      · rintro ⟨i, row', col', v', hget, rfl, hout, hbefore⟩
        cases i with
        | zero =>
          cases hget
          rfl
        | succ i =>
          rw [List.take_succ_cons] at hbefore
          exact absurd (List.forall_mem_cons.mp hbefore).1 hin

/-- The positions of a list of triplets are those of its arrays. -/
theorem exists_getElem?_toList_iff {t : Triplets α} (hrows : t.rows.size = t.vals.size) {i : ℕ}
    {r c : ℤ} :
    (∃ v, t.toList[i]? = some (r, c, v)) ↔ t.rows[i]? = some r ∧ t.cols[i]? = some c := by
  simp only [toList, List.getElem?_zip_eq_some, Array.getElem?_toList]
  constructor
  · rintro ⟨v, hr, hc, -⟩
    exact ⟨hr, hc⟩
  · rintro ⟨hr, hc⟩
    have hi : i < t.vals.size := hrows ▸ (Array.getElem?_eq_some_iff.mp hr).1
    exact ⟨t.vals[i], hr, hc, Array.getElem?_eq_getElem hi⟩

theorem forall_mem_toList_iff {t : Triplets α} (hrows : t.rows.size = t.vals.size)
    (p : ℤ → ℤ → Prop) : (∀ e ∈ t.toList, p e.1 e.2.1) ↔
      ∀ (k : ℕ) (r c : ℤ), t.rows[k]? = some r → t.cols[k]? = some c → p r c := by
  constructor
  · intro h k r c hr hc
    obtain ⟨v, hmem⟩ := (exists_getElem?_toList_iff hrows).mpr ⟨hr, hc⟩
    exact h _ (List.mem_of_getElem? hmem)
  · intro h e he
    obtain ⟨k, hk⟩ := List.mem_iff_getElem?.mp he
    obtain ⟨hr, hc⟩ := (exists_getElem?_toList_iff hrows).mp ⟨_, hk⟩
    exact h k _ _ hr hc

/-- **Where indices are out of range,** the first such entry is reported and nothing else. -/
theorem toCsc_eq_entryOutside_iff {t : Triplets α} (hrows : t.rows.size = t.vals.size)
    {k nrows ncols : ℕ} {row col : ℤ} :
    t.toCsc = .error (.entryOutside k row col nrows ncols) ↔
      nrows = t.nrows ∧ ncols = t.ncols ∧ t.rows[k]? = some row ∧ t.cols[k]? = some col ∧
      ¬ Inside t.nrows t.ncols row col ∧
      ∀ i < k, ∀ r c, t.rows[i]? = some r → t.cols[i]? = some c →
        Inside t.nrows t.ncols r c := by
  have hreport : t.toCsc = .error (.entryOutside k row col nrows ncols) ↔
      firstOutside t.nrows t.ncols 0 t.toList = some (.entryOutside k row col nrows ncols) := by
    rw [toCsc, checkBounds]
    cases firstOutside t.nrows t.ncols 0 t.toList with
    | some e =>
      rw [error_bind]
      exact ⟨fun h => congrArg some (Except.error.inj h), fun h => congrArg _ (Option.some.inj h)⟩
    | none =>
      refine iff_of_false (fun h => ?_) (fun h => by cases h)
      unfold Csc.checkRoom at h
      simp only [ok_bind, throw_eq_error, error_bind, pure_eq_ok] at h
      split_ifs at h <;> cases h
  rw [hreport, firstOutside_eq_some_iff]
  constructor
  · rintro ⟨i, r, c, v, hi, heq, hout, hbefore⟩
    rw [Nat.zero_add] at heq
    obtain ⟨rfl, rfl, rfl, rfl, rfl⟩ := SparseError.entryOutside.inj heq
    obtain ⟨hr, hc⟩ := (exists_getElem?_toList_iff hrows).mp ⟨v, hi⟩
    refine ⟨rfl, rfl, hr, hc, hout, fun i hi r' c' hr' hc' => ?_⟩
    obtain ⟨v', hmem⟩ := (exists_getElem?_toList_iff hrows).mpr ⟨hr', hc'⟩
    exact hbefore _ (List.mem_of_getElem? ((List.getElem?_take_of_lt hi).trans hmem))
  · rintro ⟨rfl, rfl, hr, hc, hout, hbefore⟩
    obtain ⟨v, hi⟩ := (exists_getElem?_toList_iff hrows).mpr ⟨hr, hc⟩
    refine ⟨k, row, col, v, hi, by rw [Nat.zero_add], hout, fun x hx => ?_⟩
    obtain ⟨i, hi, rfl⟩ := List.mem_iff_getElem.mp hx
    rw [List.length_take] at hi
    have hlt : i < t.toList.length := by omega
    have hx' := (exists_getElem?_toList_iff hrows).mp ⟨_, List.getElem?_eq_getElem hlt⟩
    rw [List.getElem_take]
    exact hbefore i (by omega) _ _ hx'.1 hx'.2

end Triplets

/-! ## Without small entries -/

/-- **A well-formed matrix of the given size** with the given entries in storage. -/
structure Csc.Lists (nrows ncols : ℕ) (entries : List (Entry α)) (A : Csc α) : Prop where
  nrows_eq : A.nrows = nrows
  ncols_eq : A.ncols = ncols
  format : A.checkFormat = .ok ()
  entries_eq : A.entries = .ok entries

theorem Csc.WellFormed.lists {A : Csc α} (hA : A.WellFormed) :
    A.Lists A.nrows A.ncols A.entryList :=
  ⟨rfl, rfl, checkFormat_eq_ok_iff.mpr hA, hA.entries_eq⟩

theorem Csc.Lists.wellFormed {A : Csc α} {nrows ncols : ℕ} {entries : List (Entry α)}
    (h : A.Lists nrows ncols entries) : A.WellFormed := checkFormat_eq_ok_iff.mp h.format

/-- What is not a number is kept. -/
theorem Csc.isKept_of_isNaN (threshold v : Float) (h : v.isNaN = true) :
    isKept threshold v = true := by
  rw [isKept, Scalar.SpreadsNaN.le_of_isNaN (.inl (Scalar.SpreadsNaN.isNaN_abs h))]
  rfl

variable [Scalar α]

/-- **Dropping small entries,** in place or column by column, filters the entries. -/
theorem Csc.Lists.dropSmall_ensures {A : Csc α} {nrows ncols : ℕ} {entries : List (Entry α)}
    (h : A.Lists nrows ncols entries) (threshold : α) : ∃ B : Csc α,
    A.compact threshold = .ok (B, entries.countP fun e => !isKept threshold e.value) ∧
    A.dropSmall threshold = A.compact threshold ∧
    B.Lists nrows ncols (entries.filter fun e => isKept threshold e.value) := by
  have hA := h.wellFormed
  have hlists := (wellFormed_withoutSmall hA threshold).lists
  have hentries : A.entryList = entries := Except.ok.inj (hA.entries_eq.symm.trans h.entries_eq)
  rw [ncols_withoutSmall, entryList_withoutSmall, hentries, h.ncols_eq] at hlists
  refine ⟨A.withoutSmall threshold, ?_, (compact_eq hA threshold).symm, ?_⟩
  · rw [compact_eq hA, dropSmall_eq hA, size_sub_size_withoutSmall hA, hentries]
  · rw [← h.nrows_eq]
    exact hlists

namespace Coordinates

/-- Coordinates with a size. -/
def triplets (c : Coordinates α) (nrows ncols : ℕ) : Triplets α :=
  ⟨nrows, ncols, c.rows, c.cols, c.vals⟩

variable {c : Coordinates α} {matrix : String} {nrows ncols : ℕ}

/-- **Which coordinates are turned into a matrix,** and into which one. -/
theorem toCsc_eq_ok_iff {A : Csc α} {dropped : ℕ} :
    c.toCsc matrix nrows ncols = .ok (.ok (A, dropped)) ↔
      c.rows.size = c.vals.size ∧ c.cols.size = c.vals.size ∧ ∃ B,
        (c.triplets nrows ncols).toCsc = .ok B ∧ B.dropSmall threshold = .ok (A, dropped) := by
  rw [toCsc_eq]
  constructor
  · intro h
    cases hfull : c.toFullCsc matrix nrows ncols with
    | error e =>
      rw [hfull] at h
      cases h
    | ok B =>
      obtain ⟨hrows, hcols, hB⟩ := toFullCsc_eq_ok_iff.mp hfull
      rw [hfull] at h
      refine ⟨hrows, hcols, B, hB, ?_⟩
      rw [Csc.dropSmall_eq (Triplets.built_of_toCsc hB).1]
      exact congrArg _ (Except.ok.inj (Except.ok.inj h))
  · rintro ⟨hrows, hcols, B, hB, hdrop⟩
    rw [Csc.dropSmall_eq (Triplets.built_of_toCsc hB).1] at hdrop
    rw [toFullCsc_eq_ok_iff.mpr ⟨hrows, hcols, hB⟩]
    exact congrArg _ (congrArg _ (Except.ok.inj hdrop))

omit [Scalar α] in
theorem errorOf_eq_entryOutside_iff {count k nr nc : ℕ} {row col : ℤ} {e : SparseError} :
    errorOf matrix count e = .entryOutside matrix k row col nr nc ↔
      e = .entryOutside k row col nr nc := by
  cases e <;> simp [errorOf]

/-- **Which entry is reported.** -/
theorem toCsc_eq_entryOutside_iff {k nr nc : ℕ} {row col : ℤ} :
    c.toCsc matrix nrows ncols = .ok (.error (.entryOutside matrix k row col nr nc)) ↔
      c.rows.size = c.vals.size ∧ c.cols.size = c.vals.size ∧
        (c.triplets nrows ncols).toCsc = .error (.entryOutside k row col nr nc) := by
  have hfull : c.toCsc matrix nrows ncols = .ok (.error (.entryOutside matrix k row col nr nc)) ↔
      c.toFullCsc matrix nrows ncols = .error (.entryOutside matrix k row col nr nc) := by
    rw [toCsc_eq]
    cases c.toFullCsc matrix nrows ncols with
    | error e =>
      exact ⟨fun h => congrArg _ (Except.error.inj (Except.ok.inj h)),
        fun h => congrArg _ (congrArg _ (Except.error.inj h))⟩
    | ok A => exact iff_of_false (fun h => by cases h) (fun h => by cases h)
  have hlength : ∀ (what : String) (found : ℕ), CallError.checkLength what c.vals.size found =
      if found = c.vals.size then .ok ()
      else .error (.lengthMismatch what c.vals.size found) := fun _ _ => rfl
  rw [hfull, toFullCsc, checkLengths, hlength, hlength]
  by_cases hrows : c.rows.size = c.vals.size
  · by_cases hcols : c.cols.size = c.vals.size
    · rw [if_pos hrows, if_pos hcols, ok_bind, ok_bind, and_iff_right hrows, and_iff_right hcols,
        triplets]
      cases Triplets.toCsc _ with
      | ok A => exact iff_of_false (fun h => by cases h) (fun h => by cases h)
      | error e =>
        exact ⟨fun h => congrArg _ (errorOf_eq_entryOutside_iff.mp (Except.error.inj h)),
          fun h => congrArg _ (errorOf_eq_entryOutside_iff.mpr (Except.error.inj h))⟩
    · rw [if_pos hrows, if_neg hcols]
      exact iff_of_false (fun h => by cases h) fun h => hcols h.2.1
  · rw [if_neg hrows]
    exact iff_of_false (fun h => by cases h) fun h => hrows h.1

/-- **Which coordinates are turned into a matrix.** -/
theorem exists_toCsc_eq_ok_iff : (∃ A, c.toCsc matrix nrows ncols = .ok (.ok A)) ↔
    c.rows.size = c.vals.size ∧ c.cols.size = c.vals.size ∧
    (∀ (k : ℕ) (row col : ℤ), c.rows[k]? = some row → c.cols[k]? = some col →
      Triplets.Inside nrows ncols row col) ∧
    ncols < maxEntries ∧ c.vals.size ≤ maxEntries := by
  have hbounds : c.rows.size = c.vals.size → ((∀ e ∈ (c.triplets nrows ncols).toList,
      Triplets.inRange e.1 nrows = true ∧ Triplets.inRange e.2.1 ncols = true) ↔
      ∀ (k : ℕ) (row col : ℤ), c.rows[k]? = some row → c.cols[k]? = some col →
        Triplets.Inside nrows ncols row col) := by
    intro hrows
    simp only [Triplets.inRange_eq_true_iff]
    exact Triplets.forall_mem_toList_iff (t := c.triplets nrows ncols) hrows
      (Triplets.Inside nrows ncols)
  constructor
  · rintro ⟨⟨A, dropped⟩, h⟩
    obtain ⟨hrows, hcols, B, hB, -⟩ := toCsc_eq_ok_iff.mp h
    obtain ⟨hin, hncols, hnnz, -⟩ := Triplets.toCsc_eq_ok_iff.mp hB
    exact ⟨hrows, hcols, (hbounds hrows).mp hin, hncols, hnnz⟩
  · rintro ⟨hrows, hcols, hin, hncols, hnnz⟩
    have hB := Triplets.toCsc_eq_ok_iff (t := c.triplets nrows ncols).mpr
      ⟨(hbounds hrows).mpr hin, hncols, hnnz, rfl⟩
    exact ⟨_, toCsc_eq_ok_iff.mpr
      ⟨hrows, hcols, _, hB, Csc.dropSmall_eq (Triplets.built_of_toCsc hB).1 threshold⟩⟩

/-- What coordinates are turned into. -/
theorem lists_of_toCsc {A : Csc α} {dropped : ℕ}
    (h : c.toCsc matrix nrows ncols = .ok (.ok (A, dropped))) :
    A.Lists nrows ncols (((c.triplets nrows ncols).entries.filter fun e =>
      Csc.isKept threshold e.value).mergeSort (·.col ≤ ·.col)) ∧
    dropped = (c.triplets nrows ncols).entries.countP (fun e => !Csc.isKept threshold e.value) ∧
    ∃ B written, (c.triplets nrows ncols).fill = .ok (.ok (B, written)) ∧
      written.toList.Perm (List.range c.vals.size) ∧ B.compact threshold = .ok (A, dropped) := by
  obtain ⟨hrows, hcols, B, hB, hdrop⟩ := toCsc_eq_ok_iff.mp h
  obtain ⟨rfl, hin⟩ := Triplets.toCsc_eq_ok_filled hB
  have hcol : ∀ e ∈ (c.triplets nrows ncols).entries, e.col < ncols := fun e he => (hin e he).2
  have hrow : ∀ e ∈ (c.triplets nrows ncols).entries, e.row < nrows := fun e he => (hin e he).1
  have hlists := (Filling.wellFormed_filled ncols hrow).lists
  rw [Filling.entryList_filled hcol, Filling.ncols_filled] at hlists
  obtain ⟨C, hcompact, hsame, hC⟩ := hlists.dropSmall_ensures (threshold : α)
  obtain ⟨rfl, rfl⟩ : C = A ∧ _ = dropped :=
    Prod.mk.inj (Except.ok.inj ((hsame.trans hcompact).symm.trans hdrop))
  obtain ⟨written, hfill, hperm⟩ := Triplets.fill_eq (t := c.triplets nrows ncols) hrows hcols
  have hsize := Triplets.length_entries (t := c.triplets nrows ncols) hrows hcols
  refine ⟨?_, (List.mergeSort_perm _ _).countP_eq _, _, written, ?_, ?_, hcompact⟩
  · rw [← filter_mergeSort_col]
    exact hC
  · rw [hfill, hB]
    rfl
  · change written.toList.Perm (List.range (c.triplets nrows ncols).vals.size)
    rw [← hsize, ← Filling.size_rowIndex_filled nrows hcol]
    exact hperm _ hB

/-- Six entries of a matrix of three rows and four columns: two in one place, one too small
to store, and one that is not a number. -/
def jumbled : Coordinates Float :=
  ⟨#[2, 0, 2, 1, 2, 0], #[3, 0, 3, 0, 1, 3], #[1, 2, 5, 0.0 / 0.0, 1e-15, -4]⟩

/-- Two of three entries lie outside any matrix. -/
def misplaced : Coordinates Float :=
  ⟨#[0, 9223372036854775807, 1], #[0, 0, -9223372036854775808], #[1, 1, 1]⟩

end Coordinates

end SplitQP
