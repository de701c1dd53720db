import SplitQP.Proofs.Sparse.Filling
import SplitQP.Proofs.Call.Coordinates
/-!
# Coordinate data — filling storage

Counts of the columns that are kept one place on become the starts of the
matrix (`starts_ensures`), and the entries are put in the order in which
they are given. So filling answers what distributing the entries answers
(`fill_eq`), where the checks fail as well.
-/

namespace SplitQP

open Checked SplitQP.Dense

namespace Triplets

variable {α : Type} {t : Triplets α}

/-- What is stored of coordinates that are in range. -/
def entries (t : Triplets α) : List (Entry α) := t.toList.map stored

theorem items_entries : Filling.items t.entries = t.toList.map numbered := by
  rw [Filling.items, entries, List.map_map]
  rfl

theorem length_entries (hrows : t.rows.size = t.vals.size) (hcols : t.cols.size = t.vals.size) :
    t.entries.length = t.vals.size := by
  rw [entries, List.length_map, toList, List.length_zip, List.length_zip]
  simp [hrows, hcols]

/-- The checks come first. -/
theorem toCsc_eq_map (t : Triplets α) :
    t.toCsc = (do t.checkBounds; Csc.checkRoom t.ncols t.nnz).map fun _ =>
      Csc.ofColumns t.nrows (Csc.distribute t.ncols (t.toList.map numbered)) := by
  rw [toCsc]
  cases t.checkBounds with
  | error e => rfl
  | ok u =>
    cases Csc.checkRoom t.ncols t.nnz with
    | error e => rfl
    | ok u => rfl

/-- Coordinates that pass the checks make the matrix of their entries. -/
theorem toCsc_eq_ok_filled {A : Csc α} (h : t.toCsc = .ok A) :
    A = Filling.filled t.nrows t.ncols t.entries ∧
      ∀ e ∈ t.entries, e.row < t.nrows ∧ e.col < t.ncols := by
  obtain ⟨hin, -, -, rfl⟩ := toCsc_eq_ok_iff.mp h
  refine ⟨?_, fun e he => ?_⟩
  · rw [Filling.filled, items_entries]
  · obtain ⟨x, hx, rfl⟩ := List.mem_map.mp he
    obtain ⟨hrow, hcol⟩ := hin x hx
    rw [inRange_eq_true_iff] at hrow hcol
    simp only [stored]
    omega

/-- **Counts and running totals** give the starts. -/
theorem starts_ensures (nrows : ℕ) {n : ℕ} {entries : List (Entry α)}
    (hcol : ∀ e ∈ entries, e.col < n) :
    Ensures (do
      let counts ← (entries.map fun e => (e.col + 1, 1)).foldlM tally (Array.replicate (n + 1) 0)
      (List.range n).foldlM accumulate counts)
      (· = (Filling.filled nrows n entries).colStart) := by
  have hitems : ∀ x ∈ entries.map fun e => (e.col + 1, 1), x.1 < n + 1 := by
    intro x hx
    obtain ⟨e, he, rfl⟩ := List.mem_map.mp hx
    exact Nat.succ_lt_succ (hcol e he)
  refine (tally_zeros_ensures hitems).bind fun counts hcounts => ?_
  have hlist : counts.toList =
      0 :: (List.range n).map fun j => (Filling.column entries j).length := by
    rw [hcounts, List.range_succ_eq_map, List.map_cons, List.map_map, Csc.sum_bin_ones]
    simp only [Function.comp_def, Csc.sum_bin_ones, Filling.length_column, Nat.succ_eq_add_one,
      Nat.add_right_cancel_iff]
    simp
  have hsize : counts.size = n + 1 := by
    rw [← Array.length_toList, hcounts, List.length_map, List.length_range]
  refine (accumulate_ensures hsize).mono fun starts hstarts => ?_
  have hfilled := Csc.length_startsFrom (Csc.distribute n (Filling.items entries)) 0
  rw [Csc.length_distribute] at hfilled
  refine ext_getD 0 hstarts.1 (by rw [Filling.filled, Csc.ofColumns, List.size_toArray, hfilled]) ?_
  intro j hj
  rw [hstarts.2 j (by omega), hlist, List.take_succ_cons, List.sum_cons, Nat.zero_add,
    ← List.map_take, List.take_range, Nat.min_eq_left (by omega)]
  exact (Filling.start_filled (by omega)).symm

/-- **Filling in place** is distributing, and each position is written once. -/
theorem fill_eq [Zero α] (hrows : t.rows.size = t.vals.size) (hcols : t.cols.size = t.vals.size) :
    ∃ written : Array ℕ, t.fill = .ok (t.toCsc.map fun A => (A, written)) ∧
      ∀ A, t.toCsc = .ok A → written.toList.Perm (List.range A.rowIndex.size) := by
  have hchecks := t.toCsc_eq_map
  rw [fill]
  cases hchecked : (do t.checkBounds; Csc.checkRoom t.ncols t.nnz : Except SparseError Unit) with
  | error e =>
    rw [hchecked] at hchecks
    exact ⟨#[], by rw [hchecks]; rfl, fun A hA => by rw [hchecks] at hA; cases hA⟩
  | ok u =>
    rw [hchecked] at hchecks
    obtain ⟨hA, hin⟩ := toCsc_eq_ok_filled hchecks
    have hcol : ∀ e ∈ t.entries, e.col < t.ncols := fun e he => (hin e he).2
    have hrow : ∀ e ∈ t.entries, e.row < t.nrows := fun e he => (hin e he).1
    obtain ⟨starts, hloops, rfl⟩ := starts_ensures t.nrows hcol
    obtain ⟨counts, hcounts, hstarts⟩ := bind_eq_ok.mp hloops
    obtain ⟨s, hput, hs, -⟩ := Filling.run_done hcol hrow
      fun j hj => Filling.getElem?_starts_filled t.ncols hrow hj
    refine ⟨s.written, ?_, fun A hA => ?_⟩
    · dsimp only
      rw [← entries, hcounts, ok_bind, hstarts, ok_bind, nnz, ← length_entries hrows hcols, hput,
        hchecks, ok_bind, hs.eq_filled]
      simp only [Except.map, pure_eq_ok, Filling.filled, items_entries]
    · obtain rfl := (toCsc_eq_ok_filled hA).1
      rw [Filling.size_rowIndex_filled t.nrows hcol]
      exact hs.written_perm

end Triplets

end SplitQP
