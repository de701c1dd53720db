import SplitQP.Proofs.Factor.Pattern
import SplitQP.Proofs.Factor.EliminationTree
/-!
# The rows of the factor

`denseRow` is row `k` of the factor as functions of the column, computed
by recursion on the rows above it: no slots, no marks, no scratch. A
column `j` of the pattern is eliminated by `DenseRow.eliminate`, which
takes it out of every row with an entry in `j`. `Gathered.Holds` and
`gather_ensures` say that the library gathers the row `denseRow` starts
from.
-/

namespace SplitQP

open Checked SplitQP.Dense TreeState

variable {α : Type} [Scalar α]

/-! ## Rows as functions -/

/-- What entries put at row `i`, from the first one on. -/
def gathered (es : List (ℕ × α)) (i : ℕ) : α :=
  es.foldl (fun acc e => if e.1 = i then acc + e.2 else acc) 0

theorem gathered_append (es : List (ℕ × α)) (e : ℕ × α) (i : ℕ) :
    gathered (es ++ [e]) i = if e.1 = i then gathered es i + e.2 else gathered es i := by
  rw [gathered, List.foldl_append]
  rfl

theorem gathered_of_not_mem {es : List (ℕ × α)} {i : ℕ} (h : i ∉ es.map (·.1)) :
    gathered es i = 0 := by
  induction es using List.reverseRecOn with
  | nil => rfl
  | append_singleton es e ih =>
    rw [List.map_append, List.mem_append, not_or] at h
    rw [gathered_append, if_neg fun he => h.2 (by simp [he]), ih h.1]

/-- A row of the factor under way: its pivot, what is left to eliminate, and
the entries found. -/
structure DenseRow (α : Type) where
  pivot : α
  rest : ℕ → α
  entry : ℕ → α

namespace DenseRow

/-- Row `k` before its first elimination. -/
def begin (es : List (ℕ × α)) (k : ℕ) : DenseRow α where
  pivot := gathered es k
  rest i := if i < k then gathered es i else 0
  entry _ := 0

/-- Eliminates column `j`, whose entries stand in the rows `below j`. -/
def eliminate (below : ℕ → List ℕ) (lower : ℕ → ℕ → α) (dinv : ℕ → α) (s : DenseRow α) (j : ℕ) :
    DenseRow α where
  pivot := s.pivot - s.rest j * (s.rest j * dinv j)
  rest i :=
    if i = j then 0
    else if i ∈ below j then s.rest i - lower i j * s.rest j
    else s.rest i
  entry := Function.update s.entry j (s.rest j * dinv j)

variable {below : ℕ → List ℕ} {lower : ℕ → ℕ → α} {dinv : ℕ → α}

/-- Later eliminations leave an entry as it is. -/
theorem entry_foldl_eliminate {js : List ℕ} {j : ℕ} (hj : j ∉ js) (s : DenseRow α) :
    (js.foldl (eliminate below lower dinv) s).entry j = s.entry j := by
  induction js generalizing s with
  | nil => rfl
  | cons i js ih =>
    rw [List.mem_cons, not_or] at hj
    rw [List.foldl_cons, ih hj.2]
    exact Function.update_of_ne hj.1 _ _

/-- What is not reached by any of the columns stays. -/
theorem rest_foldl_eliminate {js : List ℕ} {i : ℕ} (hi : ∀ j ∈ js, i ≠ j ∧ i ∉ below j)
    (s : DenseRow α) : (js.foldl (eliminate below lower dinv) s).rest i = s.rest i := by
  induction js generalizing s with
  | nil => rfl
  | cons j js ih =>
    rw [List.foldl_cons, ih fun j' hj' => hi j' (by simp [hj'])]
    obtain ⟨hne, hnot⟩ := hi j (by simp)
    simp [eliminate, hne, hnot]

/-- Columns already eliminated stay eliminated, if no later one reaches them. -/
theorem rest_foldl_eliminate_of_mem {js : List ℕ} {i : ℕ} (hi : i ∈ js)
    (h : ∀ pre post, js = pre ++ i :: post → ∀ j ∈ post, i ∉ below j) (s : DenseRow α) :
    (js.foldl (eliminate below lower dinv) s).rest i = 0 := by
  induction js generalizing s with
  | nil => cases hi
  | cons j js ih =>
    rw [List.foldl_cons]
    by_cases hmem : i ∈ js
    · exact ih hmem (fun pre post hjs => h (j :: pre) post (by rw [hjs]; rfl)) _
    · obtain rfl : i = j := (List.mem_cons.mp hi).resolve_right hmem
      have hstay : ∀ j' ∈ js, i ≠ j' ∧ i ∉ below j' := by
        intro j' hj'
        refine ⟨?_, h [] js rfl j' hj'⟩
        rintro rfl
        exact hmem hj'
      rw [rest_foldl_eliminate hstay]
      simp [eliminate]

end DenseRow

variable (upper : Csc α) (parent : Array (Option ℕ))

/-- The entries stored in column `k`. -/
def storedEntries (k : ℕ) : List (ℕ × α) := upper.cols.getD k []

/-- The columns of row `k`, each before its parent. -/
def patternOf (k : ℕ) : List ℕ := rowPattern parent k (storedRows upper k)

/-- **Row `k` of the factor.** -/
noncomputable def denseRow (k : ℕ) : DenseRow α :=
  (patternOf upper parent k).foldl
    (DenseRow.eliminate (fillRows (storedRows upper) k)
      (fun i j => if _h : i < k then (denseRow i).entry j else 0)
      (fun j => if _h : j < k then Scalar.recip (denseRow j).pivot else 0))
    (.begin (storedEntries upper k) k)

/-- The entry of the factor at `(i, j)`. -/
noncomputable def lowerEntry (i j : ℕ) : α := (denseRow upper parent i).entry j

/-- The pivot of row `k`. -/
noncomputable def pivotAt (k : ℕ) : α := (denseRow upper parent k).pivot

/-- Row `k` after the eliminations of `js`. -/
noncomputable def rowAfter (k : ℕ) (js : List ℕ) : DenseRow α :=
  js.foldl
    (DenseRow.eliminate (fillRows (storedRows upper) k)
      (fun i j => if i < k then lowerEntry upper parent i j else 0)
      (fun j => if j < k then Scalar.recip (pivotAt upper parent j) else 0))
    (.begin (storedEntries upper k) k)

/-- **A row is computed from the rows above it.** -/
theorem denseRow_eq (k : ℕ) :
    denseRow upper parent k = rowAfter upper parent k (patternOf upper parent k) := by
  rw [denseRow]
  rfl

variable {upper parent} {n k : ℕ}

section Append

variable (js : List ℕ) {j : ℕ}

theorem rowAfter_append :
    rowAfter upper parent k (js ++ [j]) =
      DenseRow.eliminate (fillRows (storedRows upper) k)
        (fun i j => if i < k then lowerEntry upper parent i j else 0)
        (fun j => if j < k then Scalar.recip (pivotAt upper parent j) else 0)
        (rowAfter upper parent k js) j := by
  rw [rowAfter, List.foldl_append]
  rfl

theorem pivot_rowAfter_append (hj : j < k) :
    (rowAfter upper parent k (js ++ [j])).pivot =
      (rowAfter upper parent k js).pivot - (rowAfter upper parent k js).rest j *
        ((rowAfter upper parent k js).rest j * Scalar.recip (pivotAt upper parent j)) := by
  simp only [rowAfter_append, DenseRow.eliminate, if_pos hj]

theorem entry_rowAfter_append (hj : j < k) :
    (rowAfter upper parent k (js ++ [j])).entry j =
      (rowAfter upper parent k js).rest j * Scalar.recip (pivotAt upper parent j) := by
  simp only [rowAfter_append, DenseRow.eliminate, Function.update_self, if_pos hj]

theorem rest_rowAfter_append (i : ℕ) :
    (rowAfter upper parent k (js ++ [j])).rest i =
      if i = j then 0
      else if i ∈ fillRows (storedRows upper) k j then (rowAfter upper parent k js).rest i -
        lowerEntry upper parent i j * (rowAfter upper parent k js).rest j
      else (rowAfter upper parent k js).rest i := by
  simp only [rowAfter_append, DenseRow.eliminate]
  split_ifs with hij hmem hik
  · rfl
  · rfl
  · exact absurd (mem_fillRows.mp hmem).1 hik
  · rfl

end Append


/-- An entry of row `k` is found when its column is eliminated, and stays. -/
theorem lowerEntry_eq_rowAfter {pre post : List ℕ} (hpat : patternOf upper parent k = pre ++ post)
    (hnd : (patternOf upper parent k).Nodup) {j : ℕ} (hj : j ∈ pre) :
    lowerEntry upper parent k j = (rowAfter upper parent k pre).entry j := by
  rw [hpat] at hnd
  have hpost : j ∉ post := fun hc => (List.disjoint_of_nodup_append hnd) hj hc
  rw [lowerEntry, denseRow_eq, hpat, rowAfter, List.foldl_append,
    DenseRow.entry_foldl_eliminate hpost, rowAfter]

/-! ## Gathering -/

/-- **What is gathered** from the entries `es` of column `k`. -/
structure Gathered.Holds (n k : ℕ) (parent : Array (Option ℕ)) (es : List (ℕ × α))
    (g : Gathered α) : Prop where
  pivot_eq : g.pivot = gathered es k
  size_row : g.row.size = n
  row_eq : ∀ i < n, g.row.getD i 0 = if i < k then gathered es i else 0
  pattern : g.pattern.Holds n k [] ((es.map (·.1)).foldl (extendPattern parent k) [])

/-- **Gathering a column** takes in its entries and finds its pattern. -/
theorem gather_ensures {rows : ℕ → List ℕ} (ht : IsTree rows n parent) (hkn : k < n)
    {es : List (ℕ × α)} (hes : ∀ e ∈ es, e.1 ≤ k ∧ e.1 ∈ rows k) {g : Gathered α}
    (h0 : Gathered.Holds n k parent [] g) :
    Ensures (es.foldlM (gatherEntry parent k) g) (Gathered.Holds n k parent es) := by
  refine ensures_foldlM (I := Gathered.Holds n k parent) h0 ?_
  intro before e after g hsplit hg
  obtain ⟨hek, hemem⟩ := hes e (by rw [hsplit]; simp)
  rw [gatherEntry]
  by_cases he : e.1 = k
  · rw [if_pos he]
    refine .ok ⟨?_, hg.size_row, fun i hi => ?_, ?_⟩
    · rw [gathered_append, if_pos he, hg.pivot_eq]
    · rw [hg.row_eq i hi, gathered_append]
      split_ifs with hik hei
      · omega
      · rfl
      · rfl
    · simpa [List.map_append, List.foldl_append, extendPattern, he] using hg.pattern
  · have hlt : e.1 < k := by omega
    have hpath := Pattern.addPath_ensures ht hkn hg.pattern hlt
    rw [if_neg he, update_eq_ok (by rw [hg.size_row]; omega), ok_bind]
    refine hpath.bind fun p hp => .ok ⟨?_, ?_, fun i hi => ?_, ?_⟩
    · rw [gathered_append, if_neg he, hg.pivot_eq]
    · simpa using hg.size_row
    · have hsize := hg.size_row
      rw [getD_of_lt _ (by simpa using by omega), Array.getElem_modify,
        ← getD_of_lt 0 (by omega), hg.row_eq i hi, gathered_append]
      split_ifs with h1 h2
      · rfl
      · omega
      · rfl
      · rfl
    · simpa [List.map_append, List.foldl_append, extendPattern, he] using hp

end SplitQP
