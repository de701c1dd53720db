import Mathlib.Order.Interval.Finset.Nat
import Mathlib.Tactic.Common
/-!
# The filled pattern and its tree

Eliminating a column joins the rows that have an entry in it. `Fill k j`
says that row `k` of the factor gets an entry in column `j` that way, and
`IsParent j p` that `p` is the first row with an entry in column `j`. Two
facts carry both traversals of the tree: the parent of a column filled in
row `k` is filled in row `k` (`Fill.up`), and a set with the stored rows
that contains the parents of its members contains the whole pattern
(`Fill.mem_of_closed`). Neither mentions an array.
-/

namespace SplitQP

/-- **The filled pattern** of a matrix that stores `rows k` in column `k` of its
upper triangle: what is stored, and what eliminating an earlier column
joins. -/
inductive Fill (rows : ℕ → List ℕ) : ℕ → ℕ → Prop
  /-- Row `k` has a stored entry in column `j`. -/
  | stored {k j : ℕ} : j ∈ rows k → j < k → Fill rows k j
  /-- Rows `k` and `j` both have an entry in column `i`. -/
  | join {k i j : ℕ} : Fill rows k i → Fill rows j i → j < k → Fill rows k j

/-- `p` is the first row with an entry in column `j`. -/
def IsParent (rows : ℕ → List ℕ) (j p : ℕ) : Prop :=
  Fill rows p j ∧ ∀ r, Fill rows r j → p ≤ r

variable {rows : ℕ → List ℕ} {i j k n p : ℕ}

namespace Fill

/-- The factor is lower triangular. -/
theorem lt (h : Fill rows k j) : j < k := by
  cases h with
  | stored _ hlt => exact hlt
  | join _ _ hlt => exact hlt

/-- A row without stored entries has none at all. -/
theorem stored_ne_nil (h : Fill rows k j) : rows k ≠ [] := by
  induction h with
  | stored hmem _ => exact List.ne_nil_of_mem hmem
  | join _ _ _ ih _ => exact ih

/-- **The parent of a filled column is filled.** -/
theorem up (h : Fill rows k j) (hp : IsParent rows j p) (hlt : p < k) : Fill rows k p :=
  h.join hp.1 hlt

/-- A column with an entry has a parent. -/
theorem exists_parent (h : Fill rows k j) : ∃ p, IsParent rows j p ∧ p ≤ k := by
  classical
  have hex : ∃ p, Fill rows p j := ⟨k, h⟩
  exact ⟨Nat.find hex, ⟨Nat.find_spec hex, fun r hr => Nat.find_min' hex hr⟩, Nat.find_min' hex h⟩

/-- A row with an entry in column `i` is met on the way up from `i`. -/
theorem mem_of_climb {V : ℕ → Prop} (hV : ∀ a, V a → ∀ p, IsParent rows a p → p < k → V p)
    (h : Fill rows j i) (hi : V i) (hjk : j < k) : V j := by
  -- climbing shortens the distance to `j`
  induction hd : j - i using Nat.strongRecOn generalizing i with
  | _ d ih =>
    obtain ⟨p, hp, hpj⟩ := h.exists_parent
    have hip := hp.1.lt
    have hVp : V p := hV i hi p hp (by omega)
    rcases Nat.eq_or_lt_of_le hpj with rfl | hlt
    · exact hVp
    · exact ih (j - p) (by have := h.lt; omega) (h.up hp hlt) hVp rfl

/-- **A closed set with the stored entries of a row contains its pattern.** -/
theorem mem_of_closed {V : ℕ → Prop} (hV : ∀ a, V a → ∀ p, IsParent rows a p → p < k → V p)
    (hs : ∀ i ∈ rows k, i < k → V i) (h : Fill rows k j) : V j := by
  suffices hgen : ∀ r, Fill rows r j → r = k → V j from hgen k h rfl
  clear h
  intro r hr
  induction hr with
  | stored hmem hlt =>
    rintro rfl
    exact hs _ hmem hlt
  | join hki hji hlt ihk _ =>
    rintro rfl
    exact mem_of_climb hV hji (ihk rfl) hlt

end Fill

theorem IsParent.lt (h : IsParent rows j p) : j < p := h.1.lt

theorem IsParent.unique {p' : ℕ} (h : IsParent rows j p) (h' : IsParent rows j p') : p = p' :=
  le_antisymm (h.2 _ h'.1) (h'.2 _ h.1)

/-! ## Counting the entries of a column -/

open Classical in
/-- The rows below `k` with an entry in column `j`, in increasing order. -/
noncomputable def fillRows (rows : ℕ → List ℕ) (k j : ℕ) : List ℕ :=
  (List.range k).filter fun r => Fill rows r j

theorem mem_fillRows : i ∈ fillRows rows k j ↔ i < k ∧ Fill rows i j := by
  simp [fillRows]

theorem nodup_fillRows : (fillRows rows k j).Nodup := List.nodup_range.filter _

theorem fillRows_zero : fillRows rows 0 j = [] := rfl

theorem fillRows_succ_of_fill (h : Fill rows k j) :
    fillRows rows (k + 1) j = fillRows rows k j ++ [k] := by
  simp [fillRows, List.range_succ, List.filter_append, h]

theorem fillRows_succ_of_not_fill (h : ¬ Fill rows k j) :
    fillRows rows (k + 1) j = fillRows rows k j := by
  simp [fillRows, List.range_succ, List.filter_append, h]

theorem length_fillRows_mono {k' : ℕ} (h : k ≤ k') :
    (fillRows rows k j).length ≤ (fillRows rows k' j).length := by
  induction k', h using Nat.le_induction with
  | base => exact le_rfl
  | succ m _ ih =>
    by_cases hf : Fill rows m j
    · rw [fillRows_succ_of_fill hf, List.length_append]
      omega
    · rwa [fillRows_succ_of_not_fill hf]

/-- A row still to come leaves room in the column it fills. -/
theorem length_fillRows_lt (h : Fill rows k j) (hkn : k < n) :
    (fillRows rows k j).length < (fillRows rows n j).length := by
  have : (fillRows rows k.succ j).length ≤ (fillRows rows n j).length :=
    length_fillRows_mono (Nat.succ_le_of_lt hkn)
  rw [Nat.succ_eq_add_one, fillRows_succ_of_fill h, List.length_append,
    List.length_singleton] at this
  omega

/-! ## The tree as an array -/

/-- **`parent` is the elimination tree** of the columns below `n`. -/
structure IsTree (rows : ℕ → List ℕ) (n : ℕ) (parent : Array (Option ℕ)) : Prop where
  size_eq : parent.size = n
  parent_iff : ∀ i < n, ∀ p, parent.getD i none = some p ↔ IsParent rows i p

end SplitQP
