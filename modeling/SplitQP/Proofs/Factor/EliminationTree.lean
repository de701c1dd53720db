import SplitQP.Proofs.Exact
import SplitQP.Proofs.Sparse.Columns
import SplitQP.Proofs.Factor.Fill
import SplitQP.Factor.EliminationTree
/-!
# The elimination tree is the tree of the fill

`eliminationTree` answers on every well-formed upper triangular pattern;
its parents are those of `IsParent`, and it counts exactly the entries of
the filled pattern (`eliminationTree_ensures`). Between two rows the
state is as `TreeState.Passed` says. In a row under way it is as
`TreeState.Stands` says: the columns passed so far have their parent,
are marked, and are counted once.
-/

namespace SplitQP

open Checked SplitQP.Dense

namespace TreeState

variable {rows : ℕ → List ℕ} {n k : ℕ} {V : Finset ℕ} {s : TreeState}

/-- **Where row `k` stands** once it has passed the columns `V`. -/
structure Stands (rows : ℕ → List ℕ) (n k : ℕ) (V : Finset ℕ) (s : TreeState) : Prop where
  size_parent : s.parent.size = n
  size_counts : s.counts.size = n
  size_seen : s.seen.size = n
  parent_iff : ∀ i < n, ∀ p, s.parent.getD i none = some p ↔
    IsParent rows i p ∧ (p < k ∨ p = k ∧ i ∈ V)
  count_eq : ∀ i < n, s.counts.getD i 0 = (fillRows rows k i).length + if i ∈ V then 1 else 0
  seen_iff : ∀ i < n, s.seen.getD i none = some k ↔ i = k ∨ i ∈ V
  seen_le : ∀ i < n, ∀ r, s.seen.getD i none = some r → r ≤ k
  fill : ∀ i ∈ V, Fill rows k i

namespace Stands

/-- The parent of a column that row `k` meets for the first time: an earlier
row, or `k` itself. -/
theorem isParent_getD (h : Stands rows n k V s) {i : ℕ} (hin : i < n) (hi : Fill rows k i)
    (hV : i ∉ V) : IsParent rows i ((s.parent.getD i none).getD k) ∧
      (s.parent.getD i none).getD k ≤ k := by
  cases hp : s.parent.getD i none with
  | some p =>
    obtain ⟨hpar, hlt | ⟨-, hmem⟩⟩ := (h.parent_iff i hin p).mp hp
    · exact ⟨hpar, hlt.le⟩
    · exact absurd hmem hV
  | none =>
    refine ⟨⟨hi, fun r hr => ?_⟩, le_rfl⟩
    obtain ⟨p, hpar, hpr⟩ := hr.exists_parent
    by_contra hrk
    simp only [Option.getD_none, not_le] at hrk
    have := (h.parent_iff i hin p).mpr ⟨hpar, .inl (by omega)⟩
    rw [hp] at this
    cases this

/-- Passing one more column. -/
theorem insert (h : Stands rows n k V s) {i : ℕ} (hin : i < n) (hi : Fill rows k i)
    (hV : i ∉ V) :
    Stands rows n k (insert i V)
      { parent := s.parent.set i (some ((s.parent.getD i none).getD k))
          (by rw [h.size_parent]; exact hin)
        counts := s.counts.modify i (· + 1)
        seen := s.seen.set i (some k) (by rw [h.size_seen]; exact hin) } := by
  obtain ⟨hpar, hle⟩ := h.isParent_getD hin hi hV
  have hp := h.size_parent
  have hc := h.size_counts
  have hs := h.size_seen
  refine ⟨by simpa using hp, by simpa using hc, by simpa using hs, ?_, ?_, ?_, ?_, ?_⟩
  · intro j hj p
    rw [getD_set (by omega) (by omega)]
    by_cases hij : i = j
    · subst hij
      rw [if_pos rfl, Option.some_inj]
      constructor
      · rintro rfl
        refine ⟨hpar, ?_⟩
        rcases Nat.lt_or_eq_of_le hle with hlt | heq
        · exact .inl hlt
        · exact .inr ⟨heq, by simp⟩
      · rintro ⟨hp', -⟩
        exact hpar.unique hp'
    · rw [if_neg hij, h.parent_iff j hj, Finset.mem_insert, or_iff_right (Ne.symm hij)]
  · intro j hj
    rw [getD_modify _ (by omega), h.count_eq j hj]
    by_cases hij : i = j
    · subst hij
      simp [hV]
    · simp [hij, Ne.symm hij]
  · intro j hj
    rw [getD_set (by omega) (by omega), Finset.mem_insert]
    by_cases hij : i = j
    · subst hij
      simp
    · rw [if_neg hij, h.seen_iff j hj, or_iff_right (Ne.symm hij)]
  · intro j hj r
    rw [getD_set (by omega) (by omega)]
    split
    · rintro ⟨⟩
      exact le_rfl
    · exact h.seen_le j hj r
  · intro j hj
    rcases Finset.mem_insert.mp hj with rfl | hj
    · exact hi
    · exact h.fill j hj

end Stands

/-! ## A path -/

/-- A climb ends at a column that the row has met. -/
theorem climb_of_seen {room i : ℕ} (hi : i < s.seen.size) (hseen : s.seen.getD i none = some k) :
    climb k room i s = .ok s := by
  cases room with
  | zero => rw [climb, read_eq_ok_getD none hi, ok_bind, if_pos hseen, pure_eq_ok]
  | succ room => rw [climb, read_eq_ok_getD none hi, ok_bind, if_pos hseen, pure_eq_ok]

/-- At any other it goes on to the parent. -/
theorem climb_of_not_seen {room i : ℕ} (hp : i < s.parent.size) (hc : i < s.counts.size)
    (hs : i < s.seen.size) (hseen : s.seen.getD i none ≠ some k) :
    climb k (room + 1) i s = climb k room ((s.parent.getD i none).getD k)
      { parent := s.parent.set i (some ((s.parent.getD i none).getD k))
        counts := s.counts.modify i (· + 1)
        seen := s.seen.set i (some k) } := by
  rw [climb, read_eq_ok_getD none hs, ok_bind, if_neg hseen]
  simp only [read_eq_ok_getD none hp, write_eq_ok hp, write_eq_ok hs, update_eq_ok hc, ok_bind]

/-- **A path from column `i`** takes the columns passed from `V` to `V'`: it passes `i`, and
with every new column its parent. -/
structure Path (rows : ℕ → List ℕ) (k i : ℕ) (V V' : Finset ℕ) : Prop where
  subset : V ⊆ V'
  start : i = k ∨ i ∈ V'
  closed : ∀ a ∈ V', a ∈ V ∨ ∀ p, IsParent rows a p → p < k → p ∈ V'

/-- A path ends where the row has been. -/
theorem Path.done {i : ℕ} (h : i = k ∨ i ∈ V) : Path rows k i V V :=
  ⟨subset_rfl, h, fun _ ha => .inl ha⟩

/-- A path goes on with the path from the parent. -/
theorem Path.cons {i up : ℕ} {V' : Finset ℕ} (hpar : IsParent rows i up)
    (h : Path rows k up (Insert.insert i V) V') : Path rows k i V V' where
  subset := (Finset.subset_insert i V).trans h.subset
  start := .inr (h.subset (Finset.mem_insert_self i V))
  closed a ha := by
    rcases h.closed a ha with hins | hclosed
    · rcases Finset.mem_insert.mp hins with rfl | hV
      · refine .inr fun p hp hpk => ?_
        obtain rfl := hp.unique hpar
        exact h.start.resolve_left hpk.ne
      · exact .inl hV
    · exact .inr hclosed

/-- **Climbing** from a column of the pattern passes a path from there. -/
theorem Stands.climb_ensures (hkn : k < n) {room i : ℕ} (h : Stands rows n k V s)
    (hi : i = k ∨ Fill rows k i) (hroom : k - i ≤ room) :
    Ensures (climb k room i s) fun s' => ∃ V', Stands rows n k V' s' ∧ Path rows k i V V' := by
  -- by induction on the rows above that the climb may still visit
  induction room generalizing i s V with
  | zero =>
    have hik : i = k := hi.resolve_right fun hfill => absurd hfill.lt (by omega)
    have hs := h.size_seen
    rw [climb_of_seen (by omega) ((h.seen_iff i (by omega)).mpr (.inl hik))]
    exact .ok ⟨V, h, .done (.inl hik)⟩
  | succ room ih =>
    have hp := h.size_parent
    have hc := h.size_counts
    have hs := h.size_seen
    have hin : i < n := hi.elim (fun heq => heq ▸ hkn) fun hfill => hfill.lt.trans hkn
    by_cases hseen : s.seen.getD i none = some k
    · rw [climb_of_seen (by omega) hseen]
      exact .ok ⟨V, h, .done ((h.seen_iff i hin).mp hseen)⟩
    · have hnot : ¬ (i = k ∨ i ∈ V) := mt (h.seen_iff i hin).mpr hseen
      rw [not_or] at hnot
      have hfill : Fill rows k i := hi.resolve_left hnot.1
      obtain ⟨hpar, hle⟩ := h.isParent_getD hin hfill hnot.2
      have hlt := hpar.lt
      have hup : (s.parent.getD i none).getD k = k ∨ Fill rows k ((s.parent.getD i none).getD k) :=
        hle.lt_or_eq.symm.imp_right (hfill.up hpar)
      rw [climb_of_not_seen (by omega) (by omega) (by omega) hseen]
      refine (ih (h.insert hin hfill hnot.2) hup (by omega)).mono ?_
      rintro s' ⟨V', hV', hpath⟩
      exact ⟨V', hV', hpath.cons hpar⟩

/-! ## A row -/

/-- **Between two rows.** All rows below `k` are passed. -/
structure Passed (rows : ℕ → List ℕ) (n k : ℕ) (s : TreeState) : Prop where
  size_parent : s.parent.size = n
  size_counts : s.counts.size = n
  size_seen : s.seen.size = n
  parent_iff : ∀ i < n, ∀ p, s.parent.getD i none = some p ↔ IsParent rows i p ∧ p < k
  count_eq : ∀ i < n, s.counts.getD i 0 = (fillRows rows k i).length
  seen_lt : ∀ i < n, ∀ r, s.seen.getD i none = some r → r < k

theorem passed_initial (rows : ℕ → List ℕ) (n : ℕ) : Passed rows n 0 (initial n) where
  size_parent := by simp [initial]
  size_counts := by simp [initial]
  size_seen := by simp [initial]
  parent_iff i hi p := by
    rw [initial, getD_of_lt _ (by simpa using hi)]
    simp
  count_eq i hi := by
    rw [initial, getD_of_lt _ (by simpa using hi)]
    simp [fillRows_zero]
  seen_lt i hi r := by
    rw [initial, getD_of_lt _ (by simpa using hi)]
    simp

/-- A row begins by marking its own column. -/
theorem Passed.begin (h : Passed rows n k s) (hkn : k < n) :
    Stands rows n k ∅
      { s with seen := s.seen.set k (some k) (by rw [h.size_seen]; exact hkn) } where
  size_parent := h.size_parent
  size_counts := h.size_counts
  size_seen := by simpa using h.size_seen
  parent_iff i hi p := by
    rw [h.parent_iff i hi p]
    simp
  count_eq i hi := by
    rw [h.count_eq i hi]
    simp
  seen_iff i hi := by
    have := h.size_seen
    rw [getD_set (by omega) (by omega)]
    split
    · simp [*]
    · have hne : ¬ k = i := ‹_›
      constructor
      · intro hs
        exact absurd (h.seen_lt i hi k hs) (lt_irrefl k)
      · rintro (rfl | hmem)
        · exact absurd rfl hne
        · cases hmem
  seen_le i hi r := by
    have := h.size_seen
    rw [getD_set (by omega) (by omega)]
    split
    · rintro ⟨⟩
      exact le_rfl
    · exact fun hs => (h.seen_lt i hi r hs).le
  fill i hi := by cases hi

/-- A row ends when it has passed its whole pattern. -/
theorem Stands.finish (h : Stands rows n k V s) (hV : ∀ i, Fill rows k i → i ∈ V) :
    Passed rows n (k + 1) s where
  size_parent := h.size_parent
  size_counts := h.size_counts
  size_seen := h.size_seen
  parent_iff i hi p := by
    rw [h.parent_iff i hi p, Nat.lt_succ_iff_lt_or_eq]
    refine and_congr_right fun hpar => or_congr_right ?_
    refine and_iff_left_of_imp ?_
    rintro rfl
    exact hV i hpar.1
  count_eq i hi := by
    rw [h.count_eq i hi]
    by_cases hf : Fill rows k i
    · rw [fillRows_succ_of_fill hf, if_pos (hV i hf), List.length_append, List.length_singleton]
    · rw [fillRows_succ_of_not_fill hf, if_neg (mt (h.fill i) hf), Nat.add_zero]
  seen_lt i hi r hr := Nat.lt_succ_of_le (h.seen_le i hi r hr)

variable {α : Type} {upper : Csc α}

/-- The stored rows of column `k`, as a pattern. -/
def storedRows (upper : Csc α) (k : ℕ) : List ℕ := (upper.cols.getD k []).map (·.1)

/-- **The paths from the rows `before`** are passed, each up to `k`. -/
structure Climbed (upper : Csc α) (k : ℕ) (before : List ℕ) (V : Finset ℕ) (s : TreeState) :
    Prop where
  stands : Stands (storedRows upper) upper.ncols k V s
  closed : ∀ a ∈ V, ∀ p, IsParent (storedRows upper) a p → p < k → p ∈ V
  mem : ∀ i ∈ before, i < k → i ∈ V

/-- One more path. -/
theorem Climbed.climb_ensures {before : List ℕ} (h : Climbed upper k before V s)
    (hk : k < upper.ncols) {i : ℕ} (hi : i = k ∨ Fill (storedRows upper) k i) :
    Ensures (climb k upper.ncols i s) fun s' => ∃ V', Climbed upper k (before ++ [i]) V' s' := by
  refine (h.stands.climb_ensures hk hi (by omega)).mono ?_
  rintro s' ⟨V', hV', hpath⟩
  refine ⟨V', hV', fun a ha p hp hpk => ?_, fun j hj hjk => ?_⟩
  · rcases hpath.closed a ha with haV | hpa
    · exact hpath.subset (h.closed a haV p hp hpk)
    · exact hpa p hp hpk
  · rcases List.mem_append.mp hj with hj | hj
    · exact hpath.subset (h.mem j hj hjk)
    · obtain rfl : j = i := by simpa using hj
      exact hpath.start.resolve_left (by omega)

/-- **All paths of a row** pass its whole pattern. -/
theorem passRow_ensures (hw : upper.WellFormed) (hup : ∀ k, ∀ i ∈ storedRows upper k, i ≤ k)
    (hk : k < upper.ncols) (h : Passed (storedRows upper) upper.ncols k s) :
    Ensures (passRow upper s k) (Passed (storedRows upper) upper.ncols (k + 1)) := by
  have hcol : upper.columnRows k = .ok (storedRows upper k) := by
    rw [hw.columnRows_eq hk, storedRows]
  rw [passRow, write_eq_ok (by rw [h.size_seen]; exact hk)]
  simp only [ok_bind, hcol]
  refine (ensures_foldlM (I := fun before s => ∃ V, Climbed upper k before V s)
    ⟨∅, h.begin hk, by simp, by simp⟩ ?_).mono ?_
  · rintro before i after s hrows ⟨V, hV⟩
    have hmem : i ∈ storedRows upper k := by rw [hrows]; simp
    refine hV.climb_ensures hk ?_
    rcases Nat.lt_or_eq_of_le (hup k i hmem) with hlt | heq
    · exact .inr (.stored hmem hlt)
    · exact .inl heq
  · rintro s' ⟨V, hV⟩
    exact hV.stands.finish fun i hi => hi.mem_of_closed (V := (· ∈ V)) hV.closed hV.mem

end TreeState

/-! ## The tree -/

/-- Only the columns of a matrix store rows. -/
theorem TreeState.lt_ncols_of_mem_storedRows {α : Type} {A : Csc α} {k i : ℕ}
    (h : i ∈ storedRows A k) : k < A.ncols := by
  by_contra hge
  rw [storedRows, List.getD_eq_default _ _ (by simpa using hge)] at h
  cases h

/-- The filled pattern has no row beyond the matrix. -/
theorem Fill.lt_ncols {α : Type} {A : Csc α} {k j : ℕ} (h : Fill (TreeState.storedRows A) k j) :
    k < A.ncols := by
  obtain ⟨i, hi⟩ := List.exists_mem_of_ne_nil _ h.stored_ne_nil
  exact TreeState.lt_ncols_of_mem_storedRows hi

open TreeState in
/-- **The elimination tree is the tree of the filled pattern,** and the counts
are those of its columns. -/
theorem eliminationTree_ensures {α : Type} {upper : Csc α} (hw : upper.WellFormed)
    (hup : ∀ k, ∀ i ∈ storedRows upper k, i ≤ k) :
    Ensures (eliminationTree upper) fun r =>
      IsTree (storedRows upper) upper.ncols r.1 ∧ r.2.size = upper.ncols ∧
      ∀ j < upper.ncols, r.2.getD j 0 = (fillRows (storedRows upper) upper.ncols j).length := by
  have hloop : Ensures (upper.columnIndices.foldlM (passRow upper) (.initial upper.ncols))
      (Passed (storedRows upper) upper.ncols upper.ncols) := by
    rw [hw.columnIndices_eq]
    exact ensures_foldlM_range (passed_initial _ _) fun k s hk hs => passRow_ensures hw hup hk hs
  rw [eliminationTree]
  refine hloop.bind fun s hs =>
    .ok ⟨⟨hs.size_parent, fun i hi p => ?_⟩, hs.size_counts, hs.count_eq⟩
  rw [hs.parent_iff i hi p]
  exact and_iff_left_of_imp fun hpar => hpar.1.lt_ncols

end SplitQP
