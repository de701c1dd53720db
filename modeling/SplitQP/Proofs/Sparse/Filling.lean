import SplitQP.Proofs.Sparse.Trimmed
import SplitQP.Proofs.Sparse.Build
import SplitQP.Sparse.Filling
/-!
# Sparse matrices — filling storage in place

Counting gives each column the length of what is distributed to it
(`tally_ensures`), and running totals give the starts (`accumulate_ensures`,
`Filling.start_filled`). Cursors that begin at the starts of the matrix to
come run through its columns (`Filling.UpTo.run_ensures`), and after all
entries are put storage is that matrix (`Filling.run_done`). Where an entry
goes is known beforehand (`Filling.destinations`), and no position is
written twice or left out (`Filling.Fits.destinations_perm`).
-/

namespace SplitQP

open Checked SplitQP.Dense

/-! ## Counting -/

/-- **Every counter is raised** by what is counted for it. -/
theorem tally_ensures {items : List (ℕ × ℕ)} {counts : Array ℕ}
    (h : ∀ x ∈ items, x.1 < counts.size) :
    Ensures (items.foldlM tally counts) fun counts' => counts'.size = counts.size ∧
      ∀ j < counts.size, counts'.getD j 0 = counts.getD j 0 + (Csc.bin items j).sum := by
  refine ensures_foldlM (I := fun before (counts' : Array ℕ) => counts'.size = counts.size ∧
    ∀ j < counts.size, counts'.getD j 0 = counts.getD j 0 + (Csc.bin before j).sum)
    ⟨rfl, by simp [Csc.bin]⟩ ?_
  rintro before x after counts' rfl ⟨hsize, hcount⟩
  have hx := h x (by simp)
  rw [tally, update_eq_ok (by omega)]
  refine .ok ⟨by simpa using hsize, fun j hj => ?_⟩
  rw [getD_modify _ (by omega), hcount j hj, Csc.bin_append]
  split_ifs with hxj
  · rw [List.sum_append, List.sum_singleton, Nat.add_assoc]
  · rfl

/-- **From zeros on,** counting gives the counts. -/
theorem tally_zeros_ensures {items : List (ℕ × ℕ)} {n : ℕ} (h : ∀ x ∈ items, x.1 < n) :
    Ensures (items.foldlM tally (Array.replicate n 0)) fun counts =>
      counts.toList = (List.range n).map fun j => (Csc.bin items j).sum := by
  refine (tally_ensures (by rwa [Array.size_replicate])).mono fun counts => ?_
  rw [Array.size_replicate]
  rintro ⟨hsize, hcount⟩
  apply List.ext_getElem
  · simp [hsize]
  · intro j h1 h2
    rw [Array.length_toList] at h1
    have := hcount j (by omega)
    rw [getD_of_lt _ h1, getD_of_lt _ (by simp; omega), Array.getElem_replicate,
      Nat.zero_add] at this
    rw [Array.getElem_toList, this, List.getElem_map, List.getElem_range]

/-- What is counted one by one. -/
theorem Csc.sum_bin_ones {β : Type} (xs : List β) (f : β → ℕ) (j : ℕ) :
    (Csc.bin (xs.map fun x => (f x, 1)) j).sum = xs.countP (f · = j) := by
  rw [Csc.bin, List.filter_map, List.map_map, List.countP_eq_length_filter]
  simp [Function.comp_def]

/-- What is counted for each of the first `n` columns. -/
theorem Csc.sum_bin_range (n : ℕ) (count : ℕ → ℕ) (j : ℕ) :
    (Csc.bin ((List.range n).map fun i => (i, count i)) j).sum = if j < n then count j else 0 := by
  induction n with
  | zero => rfl
  | succ n ih =>
    rw [List.range_succ, List.map_append, List.map_singleton, Csc.bin_append]
    rcases lt_trichotomy j n with hlt | rfl | hgt
    · rw [if_neg (by omega), ih, if_pos hlt, if_pos (by omega)]
    · rw [if_pos rfl, List.sum_append, ih, if_neg (by omega), if_pos (by omega)]
      simp
    · rw [if_neg (by omega), ih, if_neg (by omega), if_neg (by omega)]

/-- A running total is a sum. -/
theorem totalsBefore_eq (total : ℕ) (counts : List ℕ) : totalsBefore total counts =
    (List.range counts.length).map fun j => total + (counts.take j).sum := by
  induction counts generalizing total with
  | nil => rfl
  | cons count counts ih =>
    rw [totalsBefore, ih, List.length_cons, List.range_succ_eq_map, List.map_cons, List.map_map]
    simp [Function.comp_def, Nat.add_assoc]

/-- **Counts that are kept one place on** become starts. -/
theorem accumulate_ensures {n : ℕ} {counts : Array ℕ} (hsize : counts.size = n + 1) :
    Ensures ((List.range n).foldlM accumulate counts) fun starts => starts.size = n + 1 ∧
      ∀ j ≤ n, starts.getD j 0 = (counts.toList.take (j + 1)).sum := by
  have htake : ∀ j ≤ n, (counts.toList.take (j + 1)).sum =
      (counts.toList.take j).sum + counts.getD j 0 := by
    intro j hj
    rw [List.take_succ_eq_append_getElem (by simp; omega), List.sum_append, List.sum_singleton,
      Array.getD, dif_pos (by omega)]
    rfl
  refine (ensures_foldlM_range (I := fun k (starts : Array ℕ) => starts.size = n + 1 ∧
    (∀ j ≤ k, starts.getD j 0 = (counts.toList.take (j + 1)).sum) ∧
    ∀ j, k < j → starts.getD j 0 = counts.getD j 0) ⟨hsize, ?_, fun _ _ => rfl⟩ ?_).mono
    fun starts h => ⟨h.1, h.2.1⟩
  · rintro j hj
    obtain rfl := Nat.le_zero.mp hj
    rw [htake 0 (Nat.zero_le n)]
    simp
  · rintro k starts hk ⟨hstarts, hdone, htodo⟩
    rw [accumulate, read_eq_ok_getD 0 (by omega), ok_bind, update_eq_ok (by omega)]
    refine .ok ⟨by simpa using hstarts, fun j hj => ?_, fun j hj => ?_⟩
    · rcases Nat.eq_or_lt_of_le hj with rfl | hlt
      · rw [htake (k + 1) hk, ← hdone k le_rfl, ← htodo (k + 1) (Nat.lt_succ_self k)]
        rw [getD_modify _ (by omega), if_pos rfl, Nat.add_comm]
      · rw [getD_modify _ (by omega), if_neg (by omega), hdone j (by omega)]
    · rw [Array.getD_eq_getD_getElem?, Array.getElem?_modify, if_neg (by omega),
        ← Array.getD_eq_getD_getElem?, htodo j (by omega)]

/-! ## Filling -/

namespace Filling

variable {α : Type}

/-- Entries as items to distribute. -/
def items (entries : List (Entry α)) : List (ℕ × ℕ × α) :=
  entries.map fun e => (e.col, e.row, e.value)

/-- What entries hold for column `j`. -/
def column (entries : List (Entry α)) (j : ℕ) : List (ℕ × α) := Csc.bin (items entries) j

theorem column_concat (entries : List (Entry α)) (e : Entry α) (j : ℕ) :
    column (entries ++ [e]) j =
      if e.col = j then column entries j ++ [(e.row, e.value)] else column entries j := by
  rw [column, items, List.map_append, List.map_singleton, Csc.bin_append]
  rfl

theorem column_append (entries entries' : List (Entry α)) (j : ℕ) :
    column (entries ++ entries') j = column entries j ++ column entries' j := by
  rw [column, items, List.map_append, Csc.bin_append_append]
  rfl

/-- One more entry of a column makes it longer, whatever comes after. -/
theorem length_column_lt (before rest : List (Entry α)) (e : Entry α) :
    (column before e.col).length < (column (before ++ e :: rest) e.col).length := by
  rw [List.append_cons, column_append, column_concat, if_pos rfl]
  simp

/-- **What stands in a column** is the last entry, behind the others, or was there before. -/
theorem of_getElem?_column_concat {entries : List (Entry α)} {e : Entry α} {j t : ℕ}
    {p : ℕ × α} (h : (column (entries ++ [e]) j)[t]? = some p) :
    (j = e.col ∧ t = (column entries e.col).length ∧ p = (e.row, e.value)) ∨
      (column entries j)[t]? = some p := by
  rw [column_concat] at h
  split_ifs at h with hj
  · subst hj
    rcases Nat.lt_trichotomy t (column entries e.col).length with hlt | rfl | hgt
    · rw [List.getElem?_append_left hlt] at h
      exact .inr h
    · rw [List.getElem?_append_right le_rfl, Nat.sub_self] at h
      exact .inl ⟨rfl, rfl, (Option.some.inj h).symm⟩
    · have hbound := (List.getElem?_eq_some_iff.mp h).1
      rw [List.length_append, List.length_singleton] at hbound
      omega
  · exact .inr h

theorem column_eq_filter (entries : List (Entry α)) (j : ℕ) :
    column entries j = (entries.filter (·.col = j)).map fun e => (e.row, e.value) := by
  rw [column, Csc.bin, items, List.filter_map, List.map_map]
  rfl

theorem column_entryList (A : Csc α) (j : ℕ) : column A.entryList j = A.cols.getD j [] := by
  rw [column_eq_filter, A.filter_col_entryList, List.map_map]
  exact List.map_id _

/-- A column has as many entries as are counted for it. -/
theorem length_column (entries : List (Entry α)) (j : ℕ) :
    (column entries j).length = entries.countP (·.col = j) := by
  rw [column_eq_filter, List.length_map, List.countP_eq_length_filter]

/-- **The matrix that entries make.** -/
def filled (nrows n : ℕ) (entries : List (Entry α)) : Csc α :=
  Csc.ofColumns nrows (Csc.distribute n (items entries))

/-- **Where entries go** that come after others: behind what is in their column. -/
def destinations (start : ℕ → ℕ) (before : List (Entry α)) : List (Entry α) → List ℕ
  | [] => []
  | e :: rest =>
    (start e.col + (column before e.col).length) :: destinations start (before ++ [e]) rest

theorem destinations_append (start : ℕ → ℕ) (before entries rest : List (Entry α)) :
    destinations start before (entries ++ rest) =
      destinations start before entries ++ destinations start (before ++ entries) rest := by
  induction entries generalizing before with
  | nil => simp [destinations]
  | cons e entries ih => simp [destinations, ih]

theorem length_destinations (start : ℕ → ℕ) (before entries : List (Entry α)) :
    (destinations start before entries).length = entries.length := by
  induction entries generalizing before with
  | nil => rfl
  | cons e entries ih => simp [destinations, ih]

/-- Each of `n` columns has room for its entries before the next one starts. -/
structure Fits (start : ℕ → ℕ) (n : ℕ) (entries : List (Entry α)) : Prop where
  col_lt : ∀ e ∈ entries, e.col < n
  le_start : ∀ j < n, start j + (column entries j).length ≤ start (j + 1)

namespace Fits

variable {start : ℕ → ℕ} {n : ℕ} {before entries : List (Entry α)}

theorem start_le (h : Fits start n entries) {i j : ℕ} (hij : i ≤ j) (hj : j ≤ n) :
    start i ≤ start j := by
  induction j, hij using Nat.le_induction with
  | base => exact le_rfl
  | succ j _ ih =>
    have := h.le_start j hj
    have := ih (by omega)
    omega

/-- Positions of different columns are different. -/
theorem ne_of_ne (h : Fits start n entries) {i j s t : ℕ} (hi : i < n) (hj : j < n) (hij : i ≠ j)
    (hs : s < (column entries i).length) (ht : t < (column entries j).length) :
    start i + s ≠ start j + t := by
  have hi' := h.le_start i hi
  have hj' := h.le_start j hj
  rcases Nat.lt_or_gt_of_ne hij with hlt | hgt
  · have := h.start_le (show i + 1 ≤ j from hlt) hj.le
    omega
  · have := h.start_le (show j + 1 ≤ i from hgt) hi.le
    omega

/-- Where the next entry goes, no entry is stored. -/
theorem ne_stored {e : Entry α} (h : Fits start n (before ++ e :: entries)) {j t : ℕ} (hj : j < n)
    (ht : t < (column before j).length) :
    start e.col + (column before e.col).length ≠ start j + t := by
  by_cases hj' : e.col = j
  · subst hj'
    omega
  · refine h.ne_of_ne (h.col_lt e (by simp)) hj hj' (length_column_lt before entries e) ?_
    rw [column_append, List.length_append]
    omega

/-- Entries go into their columns, behind what is there. -/
theorem mem_destinations (h : Fits start n (before ++ entries)) {p : ℕ}
    (hp : p ∈ destinations start before entries) :
    ∃ j < n, ∃ t, (column before j).length ≤ t ∧ t < (column (before ++ entries) j).length ∧
      p = start j + t := by
  induction entries generalizing before with
  | nil => cases hp
  | cons e entries ih =>
    rcases List.mem_cons.mp hp with rfl | hp
    · exact ⟨e.col, h.col_lt e (by simp), _, le_rfl, length_column_lt before entries e, rfl⟩
    · rw [List.append_cons] at h ⊢
      obtain ⟨j, hj, t, hlo, hhi, rfl⟩ := ih h hp
      refine ⟨j, hj, t, ?_, hhi, rfl⟩
      rw [column_append, List.length_append] at hlo
      omega

/-- **No position is written twice.** -/
theorem nodup_destinations (h : Fits start n (before ++ entries)) :
    (destinations start before entries).Nodup := by
  induction entries generalizing before with
  | nil => exact List.nodup_nil
  | cons e entries ih =>
    have hcol := h.col_lt e (by simp)
    have hlength := length_column_lt before entries e
    rw [List.append_cons] at h hlength
    refine List.nodup_cons.mpr ⟨fun hmem => ?_, ih h⟩
    obtain ⟨j, hj, t, hlo, hhi, heq⟩ := h.mem_destinations hmem
    -- later entries of this column go behind it, and other columns are elsewhere
    by_cases hje : e.col = j
    · subst hje
      rw [column_concat, if_pos rfl, List.length_append, List.length_singleton] at hlo
      omega
    · exact h.ne_of_ne hcol hj hje hlength hhi heq

/-- **Every position of storage is written once,** where the columns fill it. -/
theorem destinations_perm (h : Fits start n entries) (hroom : start n ≤ entries.length) :
    (destinations start [] entries).Perm (List.range entries.length) := by
  have hsubset : destinations start [] entries ⊆ List.range entries.length := by
    intro p hp
    have hall : Fits start n ([] ++ entries) := h
    obtain ⟨j, hj, t, -, ht, rfl⟩ := hall.mem_destinations hp
    have := h.le_start j hj
    have := h.start_le (show j + 1 ≤ n from hj) le_rfl
    rw [List.nil_append] at ht
    exact List.mem_range.mpr (by omega)
  have hnodup : (destinations start [] entries).Nodup := nodup_destinations h
  refine (List.subperm_of_subset hnodup hsubset).perm_of_length_le ?_
  rw [List.length_range, length_destinations]

end Fits

/-- **Storage after some entries.** Each column has its entries from its start on, and its
cursor behind them. -/
structure UpTo (start : ℕ → ℕ) (n room : ℕ) (entries : List (Entry α)) (s : Filling α) : Prop where
  next_eq : ∀ j < n, s.next[j]? = some (start j + (column entries j).length)
  size_rowIndex : s.rowIndex.size = room
  size_value : s.value.size = room
  stored : ∀ j < n, ∀ t p, (column entries j)[t]? = some p →
    s.rowIndex[start j + t]? = some p.1 ∧ s.value[start j + t]? = some p.2
  written_eq : s.written.toList = destinations start [] entries

namespace UpTo

variable {start : ℕ → ℕ} {n room : ℕ} {next : Array ℕ} {before rest : List (Entry α)}
  {s : Filling α}

/-- **Starting at the starts,** nothing is stored. -/
theorem blank [Zero α] (h : ∀ j < n, next[j]? = some (start j)) :
    UpTo start n room ([] : List (Entry α)) (.blank next room) where
  next_eq j hj := h j hj
  size_rowIndex := by simp [Filling.blank]
  size_value := by simp [Filling.blank]
  stored _ _ _ _ hp := by simp [column, items, Csc.bin] at hp
  written_eq := rfl

/-- One more entry. -/
theorem put_ensures {e : Entry α} (h : UpTo start n room before s)
    (hfits : Fits start n (before ++ e :: rest)) (hroom : start n ≤ room) :
    Ensures (s.put e) fun s' => UpTo start n room (before ++ [e]) s' ∧
      s'.next.size = s.next.size := by
  have hcol : e.col < n := hfits.col_lt e (by simp)
  have hlength := length_column_lt before rest e
  have hend := hfits.le_start e.col hcol
  have hlast := hfits.start_le (show e.col + 1 ≤ n from hcol) le_rfl
  have hrow := h.size_rowIndex
  have hvalue := h.size_value
  have hnext := h.next_eq e.col hcol
  have hlt : e.col < s.next.size := (Array.getElem?_eq_some_iff.mp hnext).1
  rw [put, read_of_getElem? hnext, ok_bind, write_eq_ok_setIfInBounds (by omega), ok_bind,
    write_eq_ok_setIfInBounds (by omega), ok_bind, update_eq_ok hlt]
  refine .ok ⟨⟨fun j hj => ?_, by simpa using hrow, by simpa using hvalue, ?_, ?_⟩, by simp⟩
  · rw [Array.getElem?_modify, column_concat]
    split_ifs with hj'
    · subst hj'
      rw [hnext, List.length_append]
      rfl
    · exact h.next_eq j hj
  · intro j hj t p hp
    rcases of_getElem?_column_concat hp with ⟨rfl, rfl, rfl⟩ | hp
    · rw [Array.getElem?_setIfInBounds_self_of_lt (by omega),
        Array.getElem?_setIfInBounds_self_of_lt (by omega)]
      exact ⟨rfl, rfl⟩
    · -- what is stored already is elsewhere
      have hne := hfits.ne_stored hj (List.getElem?_eq_some_iff.mp hp).1
      rw [Array.getElem?_setIfInBounds_ne hne, Array.getElem?_setIfInBounds_ne hne]
      exact h.stored j hj t p hp
  · rw [Array.toList_push, h.written_eq, destinations_append]
    rfl

/-- **All of the rest.** -/
theorem run_ensures (h : UpTo start n room before s) (hfits : Fits start n (before ++ rest))
    (hroom : start n ≤ room) : Ensures (rest.foldlM put s) fun s' =>
      UpTo start n room (before ++ rest) s' ∧ s'.next.size = s.next.size := by
  refine ensures_foldlM (I := fun done s' => UpTo start n room (before ++ done) s' ∧
    s'.next.size = s.next.size) ⟨by rwa [List.append_nil], rfl⟩ ?_
  rintro done e after s' rfl ⟨hs, hsize⟩
  rw [← List.append_assoc] at hfits
  refine (hs.put_ensures hfits hroom).mono ?_
  rintro s'' ⟨hs', hsize'⟩
  exact ⟨by rwa [← List.append_assoc], hsize'.trans hsize⟩

end UpTo

/-! ## What was filled -/

section Filled

variable {nrows n : ℕ} {entries : List (Entry α)}

variable (nrows) in
theorem getD_cols_filled {j : ℕ} (hj : j < n) :
    (filled nrows n entries).cols.getD j [] = column entries j := by
  rw [filled, Csc.cols_ofColumns, Csc.getD_distribute hj]
  rfl

@[simp] theorem ncols_filled : (filled nrows n entries).ncols = n := by simp [filled]

variable (n) in
theorem wellFormed_filled (hrow : ∀ e ∈ entries, e.row < nrows) :
    (filled nrows n entries).WellFormed := by
  refine Csc.wellFormed_ofColumns fun col hcol p hp => ?_
  rw [Csc.distribute_eq] at hcol
  obtain ⟨j, -, rfl⟩ := List.mem_map.mp hcol
  obtain ⟨e, he, heq⟩ := List.mem_map.mp (Csc.mem_bin.mp hp)
  obtain ⟨-, rfl⟩ := Prod.mk.inj heq
  exact hrow e he

variable (nrows) in
theorem size_rowIndex_filled (hcol : ∀ e ∈ entries, e.col < n) :
    (filled nrows n entries).rowIndex.size = entries.length := by
  have hitems : ∀ x ∈ items entries, x.1 < n := by
    intro x hx
    obtain ⟨e, he, rfl⟩ := List.mem_map.mp hx
    exact hcol e he
  have hperm := Csc.flatten_distribute_perm hitems
  rw [filled, Csc.ofColumns, List.size_toArray, List.length_map, hperm.length_eq, List.length_map,
    items, List.length_map]

theorem start_filled {j : ℕ} (hj : j ≤ n) : (filled nrows n entries).start j =
    ((List.range j).map fun i => (column entries i).length).sum := by
  rw [filled, Csc.start_ofColumns (by simpa using hj), Csc.distribute_eq, List.map_map,
    ← List.map_take, List.take_range, Nat.min_eq_left hj]
  rfl

theorem start_filled_succ {j : ℕ} (hj : j < n) : (filled nrows n entries).start (j + 1) =
    (filled nrows n entries).start j + (column entries j).length := by
  rw [start_filled hj, start_filled hj.le, List.range_succ, List.map_append, List.sum_append,
    List.map_singleton, List.sum_singleton]

variable (nrows) in
/-- The matrix to come has room for its entries. -/
theorem fits_filled (hcol : ∀ e ∈ entries, e.col < n) :
    Fits (filled nrows n entries).start n entries :=
  ⟨hcol, fun _ hj => (start_filled_succ hj).ge⟩

variable (nrows) in
theorem start_filled_last (hcol : ∀ e ∈ entries, e.col < n) :
    (filled nrows n entries).start n = entries.length := by
  rw [← size_rowIndex_filled nrows hcol, filled, Csc.start_ofColumns (by simp),
    List.take_of_length_le (by simp)]
  simp only [Csc.ofColumns, List.size_toArray, List.length_map, List.length_flatten]

/-- **Storage is filled.** -/
theorem UpTo.eq_filled {s : Filling α} (hcol : ∀ e ∈ entries, e.col < n)
    (hrow : ∀ e ∈ entries, e.row < nrows)
    (h : UpTo (filled nrows n entries).start n entries.length entries s) :
    s.rowIndex = (filled nrows n entries).rowIndex ∧ s.value = (filled nrows n entries).value := by
  have hwf := wellFormed_filled n hrow
  have hlast := start_filled_last nrows hcol
  have hsize := size_rowIndex_filled nrows hcol
  have hvalue := hwf.size_value
  have hpairs : ∀ p < entries.length, ∃ x, s.rowIndex[p]? = some x.1 ∧ s.value[p]? = some x.2 ∧
      (filled nrows n entries).pairs[p]? = some x := by
    intro p hp
    obtain ⟨j, hj, hlo, hhi⟩ := Csc.exists_column_of_lt (p := p) hwf.start_zero (hlast.symm ▸ hp)
    obtain ⟨t, rfl⟩ := Nat.exists_eq_add_of_le hlo
    have ht : t < (column entries j).length := by
      rw [start_filled_succ hj] at hhi
      omega
    have hstored := h.stored j hj t _ (List.getElem?_eq_getElem ht)
    refine ⟨_, hstored.1, hstored.2, ?_⟩
    rw [← List.getElem?_eq_getElem ht, ← getD_cols_filled nrows hj,
      Csc.getD_cols (by rwa [ncols_filled]), List.getElem?_drop, List.getElem?_take_of_lt hhi]
  constructor
  · apply Array.ext_getElem?
    intro p
    rcases Nat.lt_or_ge p entries.length with hp | hp
    · obtain ⟨x, hx, -, hpair⟩ := hpairs p hp
      rw [hx, ← Array.getElem?_toList, (List.getElem?_zip_eq_some.mp hpair).1]
    · rw [Array.getElem?_eq_none (by rw [h.size_rowIndex]; exact hp),
        Array.getElem?_eq_none (by omega)]
  · apply Array.ext_getElem?
    intro p
    rcases Nat.lt_or_ge p entries.length with hp | hp
    · obtain ⟨x, -, hx, hpair⟩ := hpairs p hp
      rw [hx, ← Array.getElem?_toList, (List.getElem?_zip_eq_some.mp hpair).2]
    · rw [Array.getElem?_eq_none (by rw [h.size_value]; exact hp),
        Array.getElem?_eq_none (i := p) (by omega)]

variable (nrows n entries) in
/-- **All entries are put.** Each cursor is where the next column starts, and every position
was written once. -/
structure Done (s : Filling α) : Prop where
  rowIndex_eq : s.rowIndex = (filled nrows n entries).rowIndex
  value_eq : s.value = (filled nrows n entries).value
  next_eq : ∀ j < n, s.next[j]? = some ((filled nrows n entries).start (j + 1))
  written_eq : s.written.toList = destinations (filled nrows n entries).start [] entries
  written_perm : s.written.toList.Perm (List.range entries.length)

/-- With its starts, storage is the matrix. -/
theorem Done.eq_filled {s : Filling α} (h : Done nrows n entries s) :
    (⟨nrows, n, (filled nrows n entries).colStart, s.rowIndex, s.value⟩ : Csc α) =
      filled nrows n entries := by
  rw [h.rowIndex_eq, h.value_eq]
  simp only [filled, Csc.ofColumns, Csc.length_distribute]

variable (n) in
/-- The starts without the last are where cursors begin. -/
theorem getElem?_starts_filled (hrow : ∀ e ∈ entries, e.row < nrows) {j : ℕ} (hj : j < n) :
    ((filled nrows n entries).colStart.take n)[j]? = some ((filled nrows n entries).start j) := by
  have hsize := (wellFormed_filled n hrow).size_colStart
  rw [ncols_filled] at hsize
  rw [Array.take_eq_extract, Array.getElem?_extract, if_pos (by omega), Nat.zero_add]
  exact (Csc.start_eq_iff (by omega)).mpr rfl

/-- **Cursors that begin at the starts** put all entries. -/
theorem run_done [Zero α] (hcol : ∀ e ∈ entries, e.col < n) (hrow : ∀ e ∈ entries, e.row < nrows)
    {next : Array ℕ} (hnext : ∀ j < n, next[j]? = some ((filled nrows n entries).start j)) :
    Ensures (entries.foldlM put (.blank next entries.length)) fun s =>
      Done nrows n entries s ∧ s.next.size = next.size := by
  have hfits := fits_filled nrows hcol
  have hlast := start_filled_last nrows hcol
  refine ((UpTo.blank hnext).run_ensures hfits hlast.le).mono ?_
  rintro s ⟨hs, hsize⟩
  change UpTo _ _ _ entries s at hs
  obtain ⟨hrowIndex, hvalue⟩ := hs.eq_filled hcol hrow
  refine ⟨⟨hrowIndex, hvalue, fun j hj => ?_, hs.written_eq, ?_⟩, hsize⟩
  · rw [hs.next_eq j hj, start_filled_succ hj]
  · rw [hs.written_eq]
    exact hfits.destinations_perm hlast.le

end Filled

/-- Putting an entry notes its position. -/
theorem put_written {s s' : Filling α} {e : Entry α} (h : s.put e = .ok s') :
    ∃ position, read s.next e.col = .ok position ∧ s'.written = s.written.push position := by
  obtain ⟨position, hread, hput⟩ := bind_eq_ok.mp h
  obtain ⟨rowIndex, -, hput⟩ := bind_eq_ok.mp hput
  obtain ⟨value, -, hput⟩ := bind_eq_ok.mp hput
  obtain ⟨next, -, hput⟩ := bind_eq_ok.mp hput
  obtain rfl := Except.ok.inj hput
  exact ⟨position, hread, rfl⟩

/-- One position is noted for each entry. -/
theorem size_written {entries : List (Entry α)} {s s' : Filling α}
    (h : entries.foldlM put s = .ok s') : s'.written.size = s.written.size + entries.length := by
  induction entries generalizing s with
  | nil =>
    obtain rfl := Except.ok.inj h
    rfl
  | cons e entries ih =>
    obtain ⟨t, hput, hrest⟩ := bind_eq_ok.mp h
    obtain ⟨position, -, hwritten⟩ := put_written hput
    rw [ih hrest, hwritten, Array.size_push, List.length_cons]
    omega

end Filling

end SplitQP
