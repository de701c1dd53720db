import SplitQP.Proofs.Exact
import SplitQP.Proofs.Sparse.Columns
/-!
# Sparse matrices — the matrix they stand for

`coeff` is the number at a place, duplicates summed, and `symCoeff` the
number at a place of the symmetric matrix whose upper triangle is stored:
an entry off the diagonal counts at its own place and at the mirrored
one. `toMatrix` and `toSymMatrix` are these numbers as a matrix. Every
sum over entries is a sum over columns (`sum_entriesOf`).
-/

namespace SplitQP

open SplitQP.Dense Finset

namespace Csc

/-! ## Entries of numbered columns -/

section Entries

variable {α : Type}

theorem mem_entriesOf {cols : List (List (ℕ × α))} {e : Entry α} :
    e ∈ entriesOf cols ↔ ∃ h : e.col < cols.length, (e.row, e.value) ∈ cols[e.col] := by
  simp only [entriesOf, List.mem_flatten, List.mem_map, Prod.exists,
    List.mk_mem_zipIdx_iff_getElem?]
  constructor
  · rintro ⟨_, ⟨col, j, hj, rfl⟩, he⟩
    obtain ⟨i, v, hmem, rfl⟩ := by simpa using he
    obtain ⟨hlt, rfl⟩ := List.getElem?_eq_some_iff.mp hj
    exact ⟨hlt, hmem⟩
  · rintro ⟨h, hmem⟩
    exact ⟨_, ⟨_, e.col, List.getElem?_eq_getElem h, rfl⟩, List.mem_map.mpr ⟨_, hmem, rfl⟩⟩

theorem WellFormed.row_lt_of_mem {A : Csc α} (h : A.WellFormed) {e : Entry α}
    (he : e ∈ A.entryList) : e.row < A.nrows := by
  obtain ⟨hlt, hmem⟩ := mem_entriesOf.mp he
  exact h.mem_cols_lt (List.getElem_mem hlt) hmem

theorem col_lt_of_mem {A : Csc α} {e : Entry α} (he : e ∈ A.entryList) : e.col < A.ncols := by
  obtain ⟨hlt, -⟩ := mem_entriesOf.mp he
  simpa using hlt

/-- The pairs of one column are entries of that column alone. -/
theorem filter_col_map (col : List (ℕ × α)) (s j : ℕ) :
    (col.map fun p => (⟨p.1, s, p.2⟩ : Entry α)).filter (·.col = j) =
      if s = j then col.map fun p => ⟨p.1, j, p.2⟩ else [] := by
  split_ifs with hsj
  · subst hsj
    rw [List.filter_eq_self]
    intro e he
    obtain ⟨p, -, rfl⟩ := List.mem_map.mp he
    exact decide_eq_true rfl
  · rw [List.filter_eq_nil_iff]
    intro e he
    obtain ⟨p, -, rfl⟩ := List.mem_map.mp he
    simpa using hsj

/-- The entries of one column, where columns are numbered from `s` on. -/
theorem filter_col_zipIdx (cols : List (List (ℕ × α))) (s j : ℕ) :
    ((cols.zipIdx s).map fun c =>
      c.1.map fun p => (⟨p.1, c.2, p.2⟩ : Entry α)).flatten.filter (·.col = j) =
        if s ≤ j then (cols.getD (j - s) []).map fun p => ⟨p.1, j, p.2⟩ else [] := by
  induction cols generalizing s with
  | nil => simp
  | cons col cols ih =>
    rw [List.zipIdx_cons, List.map_cons, List.flatten_cons, List.filter_append, ih, filter_col_map]
    rcases lt_trichotomy s j with hlt | rfl | hgt
    · obtain ⟨t, rfl⟩ := Nat.exists_eq_add_of_lt hlt
      rw [if_neg hlt.ne, if_pos (by omega), if_pos (by omega), List.nil_append,
        show s + t + 1 - (s + 1) = t by omega, show s + t + 1 - s = t + 1 by omega,
        List.getD_cons_succ]
    · rw [if_pos rfl, if_neg (by omega), if_pos le_rfl, List.append_nil, Nat.sub_self,
        List.getD_cons_zero]
    · rw [if_neg hgt.ne', if_neg (by omega), if_neg (by omega)]
      rfl

/-- The entries of one column. -/
theorem filter_col_entryList (A : Csc α) (j : ℕ) :
    A.entryList.filter (·.col = j) = (A.cols.getD j []).map fun p => ⟨p.1, j, p.2⟩ :=
  (filter_col_zipIdx A.cols 0 j).trans (if_pos (Nat.zero_le j))

/-- **A sum over entries is a sum over columns.** -/
theorem sum_entriesOf {K : Type} [AddCommMonoid K] (cols : List (List (ℕ × α)))
    (f : Entry α → K) :
    ((entriesOf cols).map f).sum =
      ∑ j ∈ range cols.length, ((cols.getD j []).map fun p => f ⟨p.1, j, p.2⟩).sum := by
  suffices h : ∀ k, (((cols.zipIdx k).map fun c =>
      c.1.map fun p => (⟨p.1, c.2, p.2⟩ : Entry α)).flatten.map f).sum =
      ∑ j ∈ range cols.length, ((cols.getD j []).map fun p => f ⟨p.1, k + j, p.2⟩).sum by
    exact (h 0).trans (by simp only [Nat.zero_add])
  induction cols with
  | nil => simp
  | cons col cols ih =>
    intro k
    rw [List.zipIdx_cons, List.map_cons, List.flatten_cons, List.map_append, List.sum_append,
      ih (k + 1), List.length_cons, sum_range_succ', add_comm]
    simp [Function.comp_def, Nat.add_assoc, Nat.add_comm 1]

end Entries

/-! ## The matrix -/

variable {K : Type} [ExactField K]

/-- The number at `(i, j)`, duplicates summed. -/
def coeff (A : Csc K) (i j : ℕ) : K :=
  (A.entryList.map fun e => if e.row = i ∧ e.col = j then e.value else 0).sum

/-- The number at `(i, j)` of the symmetric matrix whose upper triangle is
stored, duplicates summed. -/
def symCoeff (A : Csc K) (i j : ℕ) : K :=
  (A.entryList.map fun e =>
    if (e.row = i ∧ e.col = j) ∨ (e.row = j ∧ e.col = i) then e.value else 0).sum

/-- The matrix `A` stands for. -/
def toMatrix (A : Csc K) (m n : ℕ) : Matrix (Fin m) (Fin n) K := .of fun i j => A.coeff i j

/-- The symmetric matrix whose upper triangle `A` stores. -/
def toSymMatrix (A : Csc K) (n : ℕ) : Matrix (Fin n) (Fin n) K := .of fun i j => A.symCoeff i j

/-- The symmetric completion is symmetric. -/
theorem symCoeff_comm (A : Csc K) (i j : ℕ) : A.symCoeff i j = A.symCoeff j i := by
  simp only [symCoeff, or_comm]

theorem toSymMatrix_transpose (A : Csc K) (n : ℕ) :
    (A.toSymMatrix n).transpose = A.toSymMatrix n := by
  ext i j
  exact A.symCoeff_comm j i

/-- The numbers of one column come from its own entries. -/
theorem coeff_eq_sum_col (A : Csc K) {i j : ℕ} (hj : j < A.ncols) :
    A.coeff i j = ((A.cols.getD j []).map fun p => if p.1 = i then p.2 else 0).sum := by
  rw [coeff, entryList, sum_entriesOf, length_cols,
    sum_eq_single_of_mem j (by simpa using hj) fun k _ hk => ?_]
  · simp
  · simp [hk]

theorem coeff_of_ge (A : Csc K) {i j : ℕ} (hj : A.ncols ≤ j) : A.coeff i j = 0 := by
  rw [coeff]
  refine List.sum_eq_zero fun x hx => ?_
  obtain ⟨e, he, rfl⟩ := List.mem_map.mp hx
  have := col_lt_of_mem he
  rw [if_neg (by omega)]

theorem WellFormed.coeff_of_ge {A : Csc K} (h : A.WellFormed) {i j : ℕ} (hi : A.nrows ≤ i) :
    A.coeff i j = 0 := by
  rw [coeff]
  refine List.sum_eq_zero fun x hx => ?_
  obtain ⟨e, he, rfl⟩ := List.mem_map.mp hx
  have := h.row_lt_of_mem he
  rw [if_neg (by omega)]

/-- The symmetric completion counts the two mirrored places. -/
theorem symCoeff_eq (A : Csc K) (i j : ℕ) :
    A.symCoeff i j = if i = j then A.coeff i i else A.coeff i j + A.coeff j i := by
  rw [symCoeff]
  split_ifs with hij
  · rw [coeff, hij]
    simp only [or_self]
  · rw [coeff, coeff, ← List.sum_map_add]
    congr 1
    refine List.map_congr_left fun e _ => ?_
    by_cases h1 : e.row = i ∧ e.col = j
    · rw [if_pos (.inl h1), if_pos h1, if_neg (by omega), add_zero]
    · by_cases h2 : e.row = j ∧ e.col = i
      · rw [if_pos (.inr h2), if_neg h1, if_pos h2, zero_add]
      · rw [if_neg (by tauto), if_neg h1, if_neg h2, add_zero]

/-- Matrices with the same numbers have the same symmetric completion. -/
theorem symCoeff_congr {A B : Csc K} (h : ∀ i j, B.coeff i j = A.coeff i j) (i j : ℕ) :
    B.symCoeff i j = A.symCoeff i j := by
  rw [symCoeff_eq, symCoeff_eq, h, h, h]

/-- Above the diagonal of an upper triangular matrix the symmetric completion
is the matrix itself. -/
theorem symCoeff_of_le {A : Csc K} (hup : ∀ e ∈ A.entryList, e.row ≤ e.col) {i j : ℕ}
    (hij : i ≤ j) : A.symCoeff i j = A.coeff i j := by
  rw [symCoeff, coeff]
  congr 1
  refine List.map_congr_left fun e he => ?_
  have := hup e he
  congr 1
  rw [eq_iff_iff]
  constructor
  · rintro (h | ⟨h1, h2⟩)
    · exact h
    · exact ⟨by omega, by omega⟩
  · exact Or.inl

/-- A sum over places of a weighted indicator picks the weight of the place. -/
theorem sum_range_indicator {n k : ℕ} (hk : k < n) (c : K) (x : ℕ → K) :
    ∑ j ∈ range n, (if k = j then c else 0) * x j = c * x k := by
  simp only [ite_mul, zero_mul]
  rw [sum_ite_eq, if_pos (by simpa using hk)]

/-- **A row of the matrix times a vector** is a sum over the entries of the
row. -/
theorem sum_coeff_mul (A : Csc K) {n : ℕ} (hn : A.ncols = n) (i : ℕ) (x : ℕ → K) :
    ∑ j ∈ range n, A.coeff i j * x j =
      (A.entryList.map fun e => if e.row = i then e.value * x e.col else 0).sum := by
  subst hn
  have h : ∀ es : List (Entry K), (∀ e ∈ es, e.col < A.ncols) →
      ∑ j ∈ range A.ncols, (es.map fun e =>
        if e.row = i ∧ e.col = j then e.value else 0).sum * x j =
      (es.map fun e => if e.row = i then e.value * x e.col else 0).sum := by
    intro es hes
    induction es with
    | nil => simp
    | cons e es ih =>
      simp only [List.map_cons, List.sum_cons, add_mul, sum_add_distrib]
      rw [ih fun e' he' => hes e' (by simp [he'])]
      by_cases hi : e.row = i
      · simp only [hi, true_and, if_true]
        rw [sum_range_indicator (hes e (by simp))]
      · simp [hi]
  exact h _ fun e he => col_lt_of_mem he

/-- A column of the matrix times a vector is a sum over the entries of the
column. -/
theorem sum_mul_coeff (A : Csc K) (hA : A.WellFormed) {m : ℕ} (hm : A.nrows = m) (j : ℕ)
    (x : ℕ → K) :
    ∑ i ∈ range m, A.coeff i j * x i =
      (A.entryList.map fun e => if e.col = j then e.value * x e.row else 0).sum := by
  subst hm
  have h : ∀ es : List (Entry K), (∀ e ∈ es, e.row < A.nrows) →
      ∑ i ∈ range A.nrows, (es.map fun e =>
        if e.row = i ∧ e.col = j then e.value else 0).sum * x i =
      (es.map fun e => if e.col = j then e.value * x e.row else 0).sum := by
    intro es hes
    induction es with
    | nil => simp
    | cons e es ih =>
      simp only [List.map_cons, List.sum_cons, add_mul, sum_add_distrib]
      rw [ih fun e' he' => hes e' (by simp [he'])]
      by_cases hj : e.col = j
      · simp only [hj, and_true, if_true]
        rw [sum_range_indicator (hes e (by simp))]
      · simp [hj]
  exact h _ fun e he => hA.row_lt_of_mem he

/-- A row of the symmetric completion times a vector: an entry off the
diagonal counts in its row and in its column. -/
theorem sum_symCoeff_mul (A : Csc K) (hA : A.WellFormed) {n : ℕ} (hm : A.nrows = n)
    (hn : A.ncols = n) (i : ℕ) (x : ℕ → K) :
    ∑ j ∈ range n, A.symCoeff i j * x j =
      (A.entryList.map fun e => (if e.row = i then e.value * x e.col else 0) +
        if e.row ≠ e.col ∧ e.col = i then e.value * x e.row else 0).sum := by
  have h : ∀ es : List (Entry K), (∀ e ∈ es, e.row < n ∧ e.col < n) →
      ∑ j ∈ range n, (es.map fun e => if (e.row = i ∧ e.col = j) ∨ (e.row = j ∧ e.col = i)
        then e.value else 0).sum * x j =
      (es.map fun e => (if e.row = i then e.value * x e.col else 0) +
        if e.row ≠ e.col ∧ e.col = i then e.value * x e.row else 0).sum := by
    intro es hes
    induction es with
    | nil => simp
    | cons e es ih =>
      obtain ⟨hr, hc⟩ := hes e (by simp)
      simp only [List.map_cons, List.sum_cons, add_mul, sum_add_distrib]
      rw [ih fun e' he' => hes e' (by simp [he'])]
      congr 1
      by_cases hri : e.row = i
      · by_cases hci : e.col = i
        · -- on the diagonal both alternatives name the same place
          have h := sum_range_indicator (hci ▸ hc) e.value x
          simp only [hri, hci, true_and, and_true, ne_eq, not_true, if_true, if_false, add_zero]
          simpa only [eq_comm, or_self_iff] using h
        · simp only [hri, hci, true_and, and_false, or_false, if_true, if_false, add_zero]
          exact sum_range_indicator hc e.value x
      · by_cases hci : e.col = i
        · have hne : e.row ≠ e.col := by omega
          simp only [hri, hci, false_and, false_or, and_true, if_false, zero_add]
          rw [if_pos (by omega)]
          exact sum_range_indicator hr e.value x
        · simp [hri, hci]
  exact h _ fun e he => ⟨hm ▸ hA.row_lt_of_mem he, hn ▸ col_lt_of_mem he⟩

end Csc

end SplitQP
