import SplitQP.Proofs.Sparse.SamePattern
/-!
# Sparse matrices — new values within columns

Changing one value in each of some successive columns, at the storage
positions counted from where these columns start, gives the matrix with the
changed columns (`foldlM_revalue`).
-/

namespace SplitQP

open Checked

/-- Writing is changing to what is written. -/
theorem write_eq_ok_modify {β : Type} {xs : Array β} {i : ℕ} (hi : i < xs.size) (x : β) :
    write xs i x = .ok (xs.modify i fun _ => x) := by
  rw [write_eq_ok_setIfInBounds hi]
  refine congrArg Except.ok (Array.ext_getElem? fun k => ?_)
  rw [Array.getElem?_setIfInBounds, Array.getElem?_modify, if_pos hi]
  by_cases hk : i = k
  · rw [if_pos hk, if_pos hk, Array.getElem?_eq_getElem (hk ▸ hi)]
    rfl
  · rw [if_neg hk, if_neg hk]

/-! ## Lists of lists -/

theorem modify_append_of_lt {β : Type} {xs : List β} {i : ℕ} (f : β → β) (hi : i < xs.length)
    (ys : List β) : (xs ++ ys).modify i f = xs.modify i f ++ ys := by
  induction xs generalizing i with
  | nil => cases hi
  | cons x xs ih =>
    cases i with
    | zero => rfl
    | succ i =>
      rw [List.cons_append, List.modify_succ_cons, ih (by simpa using hi), List.modify_succ_cons,
        List.cons_append]

theorem modify_append_add {β : Type} (xs ys : List β) (i : ℕ) (f : β → β) :
    (xs ++ ys).modify (xs.length + i) f = xs ++ ys.modify i f := by
  induction xs with
  | nil => rw [List.length_nil, Nat.zero_add, List.nil_append, List.nil_append]
  | cons x xs ih =>
    rw [List.length_cons, Nat.add_right_comm, List.cons_append, List.modify_succ_cons, ih,
      List.cons_append]

theorem modify_concat {β : Type} (xs : List β) (x : β) (f : β → β) :
    (xs ++ [x]).modify xs.length f = xs ++ [f x] := modify_append_add xs [x] 0 f

/-- An entry of a list among lists stands behind the lists before. -/
theorem flatten_modify {β : Type} {cols : List (List β)} {j t : ℕ} (f : β → β)
    (ht : t < (cols.getD j []).length) : (cols.modify j (·.modify t f)).flatten =
      cols.flatten.modify (((cols.map List.length).take j).sum + t) f := by
  induction cols generalizing j with
  | nil => simp at ht
  | cons col cols ih =>
    cases j with
    | zero =>
      rw [List.modify_zero_cons, List.flatten_cons, List.flatten_cons, List.take_zero,
        List.sum_nil, Nat.zero_add]
      exact (modify_append_of_lt f ht _).symm
    | succ j =>
      rw [List.modify_succ_cons, List.flatten_cons, List.flatten_cons, ih ht, List.map_cons,
        List.take_succ_cons, List.sum_cons, Nat.add_assoc, modify_append_add]

namespace Csc

variable {α : Type}

/-! ## Columns -/

/-- Changes the value of entry `t` of a column. -/
def revalue (t : ℕ) (f : α → α) (col : List (ℕ × α)) : List (ℕ × α) :=
  col.modify t fun p => (p.1, f p.2)

theorem map_fst_revalue (t : ℕ) (f : α → α) (col : List (ℕ × α)) :
    (revalue t f col).map (·.1) = col.map (·.1) := by
  apply List.ext_getElem?
  intro i
  rw [revalue, List.getElem?_map, List.getElem?_modify, List.getElem?_map]
  cases col[i]? with
  | none => rfl
  | some p => split_ifs <;> rfl

/-- **One value** of one column. -/
theorem value_revalue (nrows : ℕ) (cols : List (List (ℕ × α))) {j t : ℕ} (f : α → α)
    (hj : j < cols.length) (ht : t < (cols.getD j []).length) :
    (ofColumns nrows cols).value.modify ((ofColumns nrows cols).start j + t) f =
      (ofColumns nrows (cols.modify j (revalue t f))).value := by
  have hmap : ∀ (xs : List (ℕ × α)) (i : ℕ), (xs.map (·.2)).modify i f =
      (xs.modify i fun p => (p.1, f p.2)).map (·.2) := by
    intro xs i
    apply List.ext_getElem?
    intro k
    rw [List.getElem?_modify, List.getElem?_map, List.getElem?_map, List.getElem?_modify]
    cases xs[k]? with
    | none => rfl
    | some p => split_ifs <;> rfl
  rw [start_ofColumns hj.le, ofColumns, ofColumns, List.modify_toArray, hmap]
  exact congrArg (fun xs => (List.map (·.2) xs).toArray) (flatten_modify _ ht).symm

/-- Entries of columns are in storage. -/
theorem start_add_lt_size (nrows : ℕ) {cols : List (List (ℕ × α))} {j t : ℕ}
    (hj : j < cols.length) (ht : t < (cols.getD j []).length) :
    (ofColumns nrows cols).start j + t < (ofColumns nrows cols).value.size := by
  have hsum : ((cols.map List.length).take (j + 1)).sum ≤ (cols.map List.length).sum := by
    conv_rhs => rw [← List.take_of_length_le (l := cols.map List.length)
      (i := cols.length) (by simp)]
    exact List.monotone_sum_take _ hj
  rw [List.take_succ_eq_append_getElem (by simpa using hj), List.sum_append, List.sum_singleton,
    List.getElem_map, ← List.getD_eq_getElem _ []] at hsum
  rw [start_ofColumns hj.le]
  simp only [ofColumns, List.size_toArray, List.length_map, List.length_flatten]
  omega

/-- **Columns `a` to `a + k`** with one value of each changed. -/
def revalued (a k : ℕ) (t : ℕ → ℕ) (f : ℕ → α → α) (cols : List (List (ℕ × α))) :
    List (List (ℕ × α)) :=
  cols.mapIdx fun j col => if a ≤ j ∧ j < a + k then revalue (t (j - a)) (f (j - a)) col else col

variable {a k : ℕ} {t : ℕ → ℕ} {f : ℕ → α → α} {cols : List (List (ℕ × α))}

theorem revalued_zero : revalued a 0 t f cols = cols := by
  apply List.ext_getElem
  · simp [revalued]
  · intro j h1 h2
    simp only [revalued, List.getElem_mapIdx]
    rw [if_neg (by omega)]

theorem revalued_succ : revalued a (k + 1) t f cols =
    (revalued a k t f cols).modify (a + k) (revalue (t k) (f k)) := by
  apply List.ext_getElem
  · simp [revalued]
  · intro j h1 h2
    simp only [revalued, List.getElem_mapIdx, List.getElem_modify]
    by_cases hj : a + k = j
    · subst hj
      rw [if_pos ⟨by omega, by omega⟩, if_pos rfl, if_neg (by omega), Nat.add_sub_cancel_left]
    · rw [if_neg hj]
      exact if_congr (by omega) rfl rfl

/-- The next column is as it was. -/
theorem getD_revalued (hk : a + k < cols.length) :
    (revalued a k t f cols).getD (a + k) [] = cols.getD (a + k) [] := by
  rw [List.getD_eq_getElem _ _ (by simpa [revalued] using hk), List.getD_eq_getElem _ _ hk]
  simp only [revalued, List.getElem_mapIdx]
  rw [if_neg (by omega)]

variable (a k t f cols) in
theorem samePattern_revalued (nrows : ℕ) :
    SamePattern (ofColumns nrows cols) (ofColumns nrows (revalued a k t f cols)) := by
  refine samePattern_ofColumns (List.ext_getElem (by simp [revalued]) fun j h1 h2 => ?_)
  simp only [revalued, List.getElem_map, List.getElem_mapIdx]
  split_ifs with hj
  · exact map_fst_revalue _ _ _
  · rfl

/-- **A loop over successive columns** that changes one value in each. -/
theorem foldlM_revalue {nrows : ℕ} {step : Array α → ℕ → Checked (Array α)}
    (hcols : a + k ≤ cols.length) (ht : ∀ i < k, t i < (cols.getD (a + i) []).length)
    (hstep : ∀ i < k, ∀ value, (ofColumns nrows cols).start (a + i) + t i < value.size →
      step value i =
        .ok (value.modify ((ofColumns nrows cols).start (a + i) + t i) (f i))) :
    (List.range k).foldlM step (ofColumns nrows cols).value =
      .ok (ofColumns nrows (revalued a k t f cols)).value := by
  suffices h : Ensures ((List.range k).foldlM step (ofColumns nrows cols).value)
      (· = (ofColumns nrows (revalued a k t f cols)).value) by
    obtain ⟨value, hloop, rfl⟩ := h
    exact hloop
  refine ensures_foldlM_range
    (I := fun i value => value = (ofColumns nrows (revalued a i t f cols)).value) ?_ ?_
  · rw [revalued_zero]
  · rintro i value hi rfl
    have hnext : a + i < cols.length := by omega
    have hpattern := samePattern_revalued a i t f cols nrows
    have hlt := start_add_lt_size nrows hnext (ht i hi)
    rw [← hpattern.size_value] at hlt
    have hstart : (ofColumns nrows (revalued a i t f cols)).start (a + i) =
        (ofColumns nrows cols).start (a + i) := by
      rw [start, start, hpattern.colStart_eq]
    have hvalue := value_revalue nrows (revalued a i t f cols) (f i)
      (by simpa [revalued] using hnext) (by rw [getD_revalued hnext]; exact ht i hi)
    rw [hstep i hi _ hlt, ← hstart, hvalue, ← revalued_succ]
    exact .ok rfl

end Csc

end SplitQP
