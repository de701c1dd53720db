import SplitQP.Proofs.Call.SortedByColumn
/-!
# Where each entry is put

Filling storage sorts entries by column and keeps their order in each
column. So the place of an entry can be said outright (`Filling.placeOf`):
behind the entries of earlier columns, and behind those of its own column
that are put before it. It depends on the columns of the entries alone.
The cursors visit these places (`Filling.destinations_filled`), and there
the entries stand (`Filling.getElem?_entryList_filled`).
-/

namespace SplitQP

namespace Filling

variable {α : Type} {nrows n : ℕ} {entries : List (Entry α)}

/-- **The place of item `p`** when items in columns `cols` are sorted by column. -/
def placeOf (cols : List ℕ) (p : ℕ) : ℕ :=
  cols.countP (· < cols.getD p 0) + (cols.take p).count (cols.getD p 0)

/-- Of two items in one column the first stays first. -/
theorem placeOf_lt_placeOf {cols : List ℕ} {p q : ℕ} (hpq : p < q) (hq : q < cols.length)
    (hcol : cols.getD p 0 = cols.getD q 0) : placeOf cols p < placeOf cols q := by
  have htake : (cols.take (p + 1)).Sublist (cols.take q) :=
    List.take_sublist_take_left hpq
  have hp : cols[p] = cols.getD p 0 := (List.getD_eq_getElem _ _ (by omega)).symm
  have hcount := htake.count_le (cols.getD p 0)
  rw [List.take_succ_eq_append_getElem (by omega), List.count_append, hp,
    List.count_singleton_self] at hcount
  rw [placeOf, placeOf, ← hcol]
  omega

theorem countP_lt_succ (cols : List ℕ) (j : ℕ) :
    cols.countP (· < j + 1) = cols.countP (· < j) + cols.count j := by
  induction cols with
  | nil => rfl
  | cons c cols ih =>
    simp only [List.countP_cons, List.count_cons, ih, decide_eq_true_eq, beq_iff_eq]
    split_ifs <;> omega

theorem length_column_eq_count (entries : List (Entry α)) (j : ℕ) :
    (column entries j).length = (entries.map (·.col)).count j := by
  rw [length_column, List.count, List.countP_map]
  rfl

/-- A column starts behind the entries of the columns before it. -/
theorem start_filled_eq_countP {j : ℕ} (hj : j ≤ n) :
    (filled nrows n entries).start j = (entries.map (·.col)).countP (· < j) := by
  induction j with
  | zero => simp [start_filled hj]
  | succ j ih => rw [start_filled_succ hj, ih (by omega), length_column_eq_count, countP_lt_succ]

theorem getElem?_destinations (start : ℕ → ℕ) (before : List (Entry α)) {p : ℕ} {e : Entry α}
    (h : entries[p]? = some e) : (destinations start before entries)[p]? =
      some (start e.col + (column (before ++ entries.take p) e.col).length) := by
  induction entries generalizing before p with
  | nil => cases h
  | cons e' entries ih =>
    cases p with
    | zero =>
      obtain rfl := Option.some.inj h
      simp [destinations]
    | succ p =>
      rw [destinations, List.getElem?_cons_succ, ih _ h, List.take_succ_cons, List.append_assoc]
      rfl

variable (nrows) in
/-- What the cursor of its column shows is the place of an entry. -/
theorem place_eq {p : ℕ} {e : Entry α} (hcol : ∀ e ∈ entries, e.col < n)
    (h : entries[p]? = some e) : (filled nrows n entries).start e.col +
      (column (entries.take p) e.col).length = placeOf (entries.map (·.col)) p := by
  have hget : (entries.map (·.col)).getD p 0 = e.col := by
    rw [List.getD_eq_getElem?_getD, List.getElem?_map, h]
    rfl
  rw [start_filled_eq_countP (hcol e (List.mem_of_getElem? h)).le, length_column_eq_count,
    placeOf, hget, List.map_take]

variable (nrows) in
/-- **The cursors visit the places** in the order of the entries. -/
theorem destinations_filled (hcol : ∀ e ∈ entries, e.col < n) :
    destinations (filled nrows n entries).start [] entries =
      (List.range entries.length).map (placeOf (entries.map (·.col))) := by
  apply List.ext_getElem
  · simp [length_destinations]
  · intro p h1 h2
    have hp : p < entries.length := by simpa using h2
    have hget := List.getElem?_eq_getElem hp
    have hdest := getElem?_destinations (filled nrows n entries).start [] hget
    rw [List.getElem?_eq_getElem h1, Option.some_inj, List.nil_append, place_eq nrows hcol hget] at hdest
    rw [hdest, List.getElem_map, List.getElem_range]

variable (nrows) in
/-- **Each entry stands at its place.** -/
theorem getElem?_entryList_filled {p : ℕ} {e : Entry α} (hcol : ∀ e ∈ entries, e.col < n)
    (h : entries[p]? = some e) :
    (filled nrows n entries).entryList[placeOf (entries.map (·.col)) p]? = some e := by
  have hj := hcol e (List.mem_of_getElem? h)
  obtain ⟨hp, rfl⟩ := List.getElem?_eq_some_iff.mp h
  generalize hc : entries[p].col = j at hj
  -- the columns before its own, its own, and those after it
  have hrange : List.range n = List.range j ++ j :: (List.range n).drop (j + 1) := by
    have hdrop := List.drop_eq_getElem_cons (l := List.range n) (i := j) (by simpa using hj)
    rw [List.getElem_range] at hdrop
    rw [← hdrop, ← Nat.min_eq_left hj.le, ← List.take_range, Nat.min_eq_left hj.le,
      List.take_append_drop]
  have hbefore : (((List.range j).map fun i => entries.filter (·.col = i)).flatten).length =
      ((List.range j).map fun i => (column entries i).length).sum := by
    simp only [List.length_flatten, List.map_map, Function.comp_def, length_column,
      List.countP_eq_length_filter]
  have hown : entries.filter (·.col = j) = (entries.take p).filter (·.col = j) ++
      entries[p] :: (entries.drop (p + 1)).filter (·.col = j) := by
    conv_lhs => rw [← List.take_append_drop p entries, List.drop_eq_getElem_cons hp]
    rw [List.filter_append, List.filter_cons_of_pos (by simpa using hc)]
  rw [entryList_filled hcol, ← flatten_filter_range_eq_mergeSort hcol, ← place_eq nrows hcol h, hc,
    start_filled hj.le, hrange, List.map_append, List.flatten_append, ← hbefore,
    List.getElem?_append_right (Nat.le_add_right _ _), Nat.add_sub_cancel_left, List.map_cons,
    List.flatten_cons, hown, List.append_assoc, length_column, List.countP_eq_length_filter,
    List.getElem?_append_right le_rfl, Nat.sub_self]
  rfl

end Filling

end SplitQP
