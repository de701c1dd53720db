import SplitQP.Proofs.Sparse.Columns
/-!
# Sorting by a number

Sorting by a number keeps the order of what has the same number
(`filter_mergeSort`), so the sorted list is what has number 0, then what has
number 1, and so on (`flatten_filter_range`). A matrix is sorted
where the rows of every column increase (`checkFormatSorted_eq_ok_iff`).
-/

namespace SplitQP

open Checked

/-! ## Lists -/

section Lists

variable {β : Type} (key : β → ℕ)

theorem decide_key_trans (x y z : β) (hxy : decide (key x ≤ key y) = true)
    (hyz : decide (key y ≤ key z) = true) : decide (key x ≤ key z) = true :=
  decide_eq_true ((of_decide_eq_true hxy).trans (of_decide_eq_true hyz))

theorem decide_key_total (x y : β) :
    (decide (key x ≤ key y) || decide (key y ≤ key x)) = true := by
  simpa using le_total (key x) (key y)

theorem pairwise_mergeSort (l : List β) :
    (l.mergeSort fun x y => key x ≤ key y).Pairwise fun x y => key x ≤ key y :=
  (List.pairwise_mergeSort (decide_key_trans key) (decide_key_total key) l).imp of_decide_eq_true

/-- **Sorting is stable:** what has the same number keeps its order. -/
theorem filter_mergeSort (l : List β) (k : ℕ) :
    (l.mergeSort fun x y => key x ≤ key y).filter (key · = k) = l.filter (key · = k) := by
  have hperm := List.mergeSort_perm l fun x y => decide (key x ≤ key y)
  -- what has one number is sorted already, so sorting finds it in this order
  have hsorted : (l.filter (key · = k)).Pairwise fun x y => decide (key x ≤ key y) = true := by
    rw [List.pairwise_filter]
    refine List.pairwise_of_forall fun x y hx hy => decide_eq_true ?_
    rw [of_decide_eq_true hx, of_decide_eq_true hy]
  have hsublist := (List.sublist_mergeSort (decide_key_trans key) (decide_key_total key) hsorted
    List.filter_sublist).filter (key · = k)
  rw [List.filter_filter] at hsublist
  simp only [Bool.and_self] at hsublist
  exact (hsublist.eq_of_length (hperm.filter _).length_eq.symm).symm

variable {key}

/-- A sorted list is what has a small number, and then the rest. -/
theorem filter_lt_append_filter {l : List β} (hl : l.Pairwise fun x y => key x ≤ key y) (n : ℕ) :
    l.filter (key · < n) ++ l.filter (n ≤ key ·) = l := by
  induction l with
  | nil => rfl
  | cons x l ih =>
    obtain ⟨hx, hl⟩ := List.pairwise_cons.mp hl
    rcases Nat.lt_or_ge (key x) n with hlt | hge
    · rw [List.filter_cons_of_pos (by simpa using hlt),
        List.filter_cons_of_neg (by simpa using hlt), List.cons_append, ih hl]
    · have hnone : l.filter (key · < n) = [] := by
        rw [List.filter_eq_nil_iff]
        intro y hy
        simpa using hge.trans (hx y hy)
      have hall : l.filter (n ≤ key ·) = l := by
        rw [List.filter_eq_self]
        intro y hy
        simpa using hge.trans (hx y hy)
      rw [List.filter_cons_of_neg (by simpa using hge),
        List.filter_cons_of_pos (by simpa using hge), hnone, hall, List.nil_append]

/-- **A sorted list** is what has number 0, then what has number 1, and so on. -/
theorem flatten_filter_range {l : List β} {n : ℕ} (hl : l.Pairwise fun x y => key x ≤ key y)
    (hlt : ∀ x ∈ l, key x < n) :
    ((List.range n).map fun k => l.filter (key · = k)).flatten = l := by
  induction n generalizing l with
  | zero =>
    rw [List.eq_nil_iff_forall_not_mem.mpr fun x hx => Nat.not_lt_zero _ (hlt x hx)]
    rfl
  | succ n ih =>
    have hbefore : ∀ k < n, (l.filter (key · < n)).filter (key · = k) = l.filter (key · = k) := by
      intro k hk
      rw [List.filter_filter]
      refine List.filter_congr fun x _ => ?_
      by_cases hx : key x = k
      · simp [hx, hk]
      · simp [hx]
    have hlast : l.filter (key · = n) = l.filter (n ≤ key ·) := by
      refine List.filter_congr fun x hx => decide_eq_decide.mpr ?_
      have := hlt x hx
      omega
    have hmap : ((List.range n).map fun k => l.filter (key · = k)) =
        (List.range n).map fun k => (l.filter (key · < n)).filter (key · = k) :=
      List.map_congr_left fun k hk => (hbefore k (List.mem_range.mp hk)).symm
    rw [List.range_succ, List.map_append, List.flatten_append, hmap, ih (hl.filter _)
      (fun x hx => of_decide_eq_true (List.mem_filter.mp hx).2), List.map_singleton,
      List.flatten_singleton, hlast, filter_lt_append_filter hl]

/-- What has number 0, then what has number 1, and so on, is the sorted list. -/
theorem flatten_filter_range_eq_mergeSort {l : List β} {n : ℕ} (hlt : ∀ x ∈ l, key x < n) :
    ((List.range n).map fun k => l.filter (key · = k)).flatten =
      l.mergeSort fun x y => key x ≤ key y := by
  have hperm := List.mergeSort_perm l fun x y => decide (key x ≤ key y)
  rw [← flatten_filter_range (pairwise_mergeSort key l) fun x hx => hlt x (hperm.mem_iff.mp hx)]
  simp only [filter_mergeSort]

end Lists

/-! ## Sorted matrices -/

namespace Csc

variable {α : Type} {A : Csc α}

/-- The columns one by one. -/
theorem map_getD_cols (A : Csc α) :
    ((List.range A.ncols).map fun j => A.cols.getD j []) = A.cols := by
  apply List.ext_getElem
  · simp
  · intro j h1 h2
    rw [List.getElem_map, List.getElem_range, List.getD_eq_getElem _ _ h2]

/-- `increasing` is the order of every pair, not only of neighbours. -/
theorem increasing_iff {xs : List ℕ} : increasing xs = true ↔ xs.Pairwise (· < ·) := by
  fun_induction increasing xs with
  | case1 a b rest ih =>
    rw [Bool.and_eq_true, ih, decide_eq_true_iff, List.pairwise_cons (a := a)]
    constructor
    · rintro ⟨hab, h⟩
      refine ⟨fun c hc => ?_, h⟩
      rcases List.mem_cons.mp hc with rfl | hc
      · exact hab
      · exact hab.trans ((List.pairwise_cons.mp h).1 c hc)
    · rintro ⟨hab, h⟩
      exact ⟨hab b (by simp), h⟩
  | case2 xs h =>
    rcases xs with - | ⟨a, - | ⟨b, rest⟩⟩
    · simp
    · simp
    · exact absurd rfl (h a b rest)

/-- The rows of a column increase. -/
def IsSorted (col : List (ℕ × α)) : Prop := col.Pairwise fun p q => p.1 < q.1

/-- **The sorted check accepts exactly the well-formed matrices with sorted columns.** -/
theorem checkFormatSorted_eq_ok_iff :
    A.checkFormatSorted = .ok (.ok ()) ↔ A.WellFormed ∧ ∀ col ∈ A.cols, IsSorted col := by
  have hrows : A.WellFormed → (A.columnIndices.allM fun j => do
      return increasing (← A.columnRows j)) =
        .ok (A.cols.all fun col => increasing (col.map (·.1))) := by
    intro hA
    have hwalk : ∀ j ∈ List.range A.ncols, (do return increasing (← A.columnRows j) : Checked Bool)
        = .ok (increasing ((A.cols.getD j []).map (·.1))) := by
      intro j hj
      rw [hA.columnRows_eq (List.mem_range.mp hj)]
      rfl
    have hcols := congrArg (List.all · fun col => increasing (col.map (·.1))) A.map_getD_cols
    simp only [List.all_map] at hcols
    rw [hA.columnIndices_eq, allM_eq_ok hwalk, ← hcols]
    rfl
  have hsorted : (A.cols.all fun col => increasing (col.map (·.1))) = true ↔
      ∀ col ∈ A.cols, IsSorted col := by
    simp only [List.all_eq_true, increasing_iff, List.pairwise_map]
    rfl
  rw [checkFormatSorted, ← hsorted, ← checkFormat_eq_ok_iff]
  cases hformat : A.checkFormat with
  | error e => exact iff_of_false nofun fun h => nomatch h.1
  | ok u =>
    rw [hrows (checkFormat_eq_ok_iff.mp hformat)]
    simp only [ok_bind, pure_eq_ok]
    split_ifs with hall
    · simp [hall]
    · simp [hall]

end Csc

end SplitQP
