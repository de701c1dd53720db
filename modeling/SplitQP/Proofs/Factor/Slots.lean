import SplitQP.Proofs.Factor.Row
/-!
# Where the factor is stored

Column `j` of the factor has the slots from `colStart[j]` on, as many as
its filled pattern has rows (`Layout`). `Written` says which of them hold
what: the rows in `filled j`, one slot each, in order. Writing the next
free slot of a column touches no other (`Written.push`), and a walk over
the slots of a column eliminates it from a dense row
(`subtractSlots_ensures`).
-/

namespace SplitQP

open Checked SplitQP.Dense

variable {α : Type}

/-- **Room for the filled pattern,** column after column. -/
structure Layout (rows : ℕ → List ℕ) (n : ℕ) (colStart : Array ℕ) : Prop where
  size_eq : colStart.size = n + 1
  zero : colStart.getD 0 0 = 0
  succ : ∀ j < n, colStart.getD (j + 1) 0 = colStart.getD j 0 + (fillRows rows n j).length

variable {rows : ℕ → List ℕ} {n : ℕ} {colStart : Array ℕ}

/-- A column ends before any later one starts. -/
theorem Layout.end_le (h : Layout rows n colStart) {i j : ℕ} (hij : i < j) (hj : j ≤ n) :
    colStart.getD i 0 + (fillRows rows n i).length ≤ colStart.getD j 0 := by
  induction j, hij using Nat.le_induction with
  | base => rw [h.succ i (by omega)]
  | succ j hij ih =>
    rw [h.succ j (by omega)]
    have := ih (by omega)
    omega

/-- Slots of different columns differ. -/
theorem Layout.slot_ne (h : Layout rows n colStart) {i j s t : ℕ} (hi : i < n) (hj : j < n)
    (hs : s < (fillRows rows n i).length) (ht : t < (fillRows rows n j).length) (hne : i ≠ j) :
    colStart.getD i 0 + s ≠ colStart.getD j 0 + t := by
  rcases Nat.lt_or_gt_of_ne hne with hlt | hgt
  · have := h.end_le hlt hj.le
    omega
  · have := h.end_le hgt hi.le
    omega

/-- A slot of a column lies in storage. -/
theorem Layout.slot_lt (h : Layout rows n colStart) {j t : ℕ} (hj : j < n)
    (ht : t < (fillRows rows n j).length) : colStart.getD j 0 + t < colStart.getD n 0 := by
  have := h.end_le hj le_rfl
  omega

/-- Every slot belongs to a column. -/
theorem Layout.exists_slot (h : Layout rows n colStart) {m s : ℕ} (hm : m ≤ n)
    (hs : s < colStart.getD m 0) :
    ∃ j < m, ∃ t < (fillRows rows n j).length, s = colStart.getD j 0 + t := by
  induction m with
  | zero =>
    rw [h.zero] at hs
    exact absurd hs (Nat.not_lt_zero s)
  | succ m ih =>
    rcases Nat.lt_or_ge s (colStart.getD m 0) with hlt | hge
    · obtain ⟨j, hj, hrest⟩ := ih (by omega) hlt
      exact ⟨j, by omega, hrest⟩
    · rw [h.succ m (by omega)] at hs
      exact ⟨m, by omega, s - colStart.getD m 0, by omega, by omega⟩

theorem Layout.mono (h : Layout rows n colStart) {i j : ℕ} (hij : i ≤ j) (hj : j ≤ n) :
    colStart.getD i 0 ≤ colStart.getD j 0 := by
  rcases Nat.eq_or_lt_of_le hij with rfl | hlt
  · exact le_rfl
  · have := h.end_le hlt hj
    omega

/-- **What the slots hold:** those of column `j` the rows `filled j` and the
entries of `lower` there. -/
structure Written (n : ℕ) (colStart : Array ℕ) (filled : ℕ → List ℕ) (lower : ℕ → ℕ → α)
    (w : Pivots α) : Prop where
  size_rowIndex : w.rowIndex.size = colStart.getD n 0
  size_value : w.value.size = colStart.getD n 0
  slot : ∀ j < n, ∀ t r, (filled j)[t]? = some r →
    w.rowIndex[colStart.getD j 0 + t]? = some r ∧
      w.value[colStart.getD j 0 + t]? = some (lower r j)

/-- Only the entries held matter. -/
theorem Written.congr {filled filled' : ℕ → List ℕ} {lower lower' : ℕ → ℕ → α} {w : Pivots α}
    (h : Written n colStart filled lower w) (hf : ∀ j < n, filled' j = filled j)
    (hl : ∀ j < n, ∀ r ∈ filled j, lower' r j = lower r j) :
    Written n colStart filled' lower' w where
  size_rowIndex := h.size_rowIndex
  size_value := h.size_value
  slot j hj t r ht := by
    rw [hf j hj] at ht
    rw [hl j hj r (List.mem_of_getElem? ht)]
    exact h.slot j hj t r ht

/-- **Writing the next free slot** of column `j`. -/
theorem Written.push (hlay : Layout rows n colStart) {filled : ℕ → List ℕ} {lower : ℕ → ℕ → α}
    {w : Pivots α} (h : Written n colStart filled lower w)
    (hroom : ∀ i < n, (filled i).length ≤ (fillRows rows n i).length) {j k : ℕ} {v : α}
    (hj : j < n) (hfree : (filled j).length < (fillRows rows n j).length)
    (hk : k ∉ filled j) {free : ℕ} (hfreeEq : free = colStart.getD j 0 + (filled j).length)
    (hr : free < w.rowIndex.size) (hv : free < w.value.size) :
    Written n colStart (Function.update filled j (filled j ++ [k]))
      (fun r i => if r = k ∧ i = j then v else lower r i)
      { w with rowIndex := w.rowIndex.set free k, value := w.value.set free v } where
  size_rowIndex := by simpa using h.size_rowIndex
  size_value := by simpa using h.size_value
  slot i hi t r ht := by
    simp only [Array.getElem?_set]
    by_cases hij : i = j
    · subst hij
      rw [Function.update_self] at ht
      rcases Nat.lt_or_ge t (filled i).length with hlt | hge
      · rw [List.getElem?_append_left hlt] at ht
        have hrk : r ≠ k := by
          rintro rfl
          exact hk (List.mem_of_getElem? ht)
        rw [if_neg (by omega), if_neg (by omega), if_neg (by simp [hrk])]
        exact h.slot i hi t r ht
      · rw [List.getElem?_append_right hge, List.getElem?_singleton] at ht
        split_ifs at ht with hzero
        obtain rfl := Option.some_inj.mp ht
        rw [if_pos (by omega), if_pos (by omega), if_pos ⟨rfl, rfl⟩]
        exact ⟨rfl, rfl⟩
    · rw [Function.update_of_ne hij] at ht
      obtain ⟨htlt, -⟩ := List.getElem?_eq_some_iff.mp ht
      have hne := hlay.slot_ne hj hi hfree (htlt.trans_le (hroom i hi)) (Ne.symm hij)
      rw [if_neg (by omega), if_neg (by omega), if_neg (by simp [hij])]
      exact h.slot i hi t r ht

variable [Scalar α]

/-- **A walk over slots** subtracts their entries, each times `y`, from the rows
they stand in. -/
theorem subtractSlots_ensures {w : Pivots α} {y : α} (filled : List ℕ) (lower : ℕ → α) (first : ℕ)
    (row : Array α) (hslot : ∀ t r, filled[t]? = some r → w.rowIndex[first + t]? = some r ∧
      w.value[first + t]? = some (lower r))
    (hnd : filled.Nodup) (hlt : ∀ r ∈ filled, r < row.size) :
    Ensures ((List.range' first filled.length).foldlM (subtractSlot w y) row) fun row' =>
      row'.size = row.size ∧ ∀ i < row.size, row'.getD i 0 =
        if i ∈ filled then row.getD i 0 - lower i * y else row.getD i 0 := by
  induction filled generalizing first row with
  | nil => exact .ok ⟨rfl, by simp⟩
  | cons r filled ih =>
    obtain ⟨hnot, hnd⟩ := List.nodup_cons.mp hnd
    have hr : r < row.size := hlt r (by simp)
    obtain ⟨hrow, hval⟩ := hslot 0 r rfl
    rw [Nat.add_zero] at hrow hval
    rw [List.length_cons, List.range'_succ, List.foldlM_cons, subtractSlot, read_of_getElem? hrow,
      ok_bind, read_of_getElem? hval, ok_bind, update_eq_ok hr, ok_bind]
    have hrest := ih (first + 1) (row.modify r (· - lower r * y))
      (fun t r' ht => by
        have := hslot (t + 1) r' ht
        rwa [show first + (t + 1) = first + 1 + t by omega] at this)
      hnd (fun r' hr' => by simpa using hlt r' (by simp [hr']))
    refine hrest.mono ?_
    rintro row' ⟨hsize, hent⟩
    rw [Array.size_modify] at hsize hent
    refine ⟨hsize, fun i hi => ?_⟩
    rw [hent i hi, getD_of_lt (x := row.modify r _) _ (by simpa using hi), Array.getElem_modify,
      ← getD_of_lt 0 hi]
    by_cases hir : r = i
    · subst hir
      simp [hnot]
    · simp [hir, Ne.symm hir]

end SplitQP
