import SplitQP.Proofs.Sparse.Dropped
import SplitQP.Proofs.Sparse.Reshape
/-!
# Sparse matrices — the order of entries

Two matrices may have the same columns but for the order of the entries
(`Reordered`). Dropping small entries leaves them so. Canonical form
removes the difference (`Reordered.canonicalize_eq`), whatever the
arithmetic where no row occurs twice in a column; where rows repeat, the
order of their entries is the order of the additions, and the arithmetic
must be exact.
-/

namespace SplitQP

open Checked

/-- **Addition in any order gives the same.** -/
structure ExactAddition (α : Type) [Add α] : Prop where
  comm : ∀ a b : α, a + b = b + a
  assoc : ∀ a b c : α, a + b + c = a + (b + c)

namespace ExactAddition

variable {α : Type} [Add α]

/-- The order in which two numbers are added to a third. -/
theorem right_comm (h : ExactAddition α) (a b c : α) : a + b + c = a + c + b := by
  rw [h.assoc, h.comm b c, ← h.assoc]

/-- Ordered fields add exactly. -/
theorem of_exactField {K : Type} [ExactField K] : ExactAddition K := ⟨add_comm, add_assoc⟩

end ExactAddition

namespace Csc

variable {α : Type}

/-! ## One column -/

section Column

variable [Add α]

/-- Entries of two rows can be added in either order. -/
theorem addEntry_comm_of_ne {i j : ℕ} (hij : i ≠ j) (v w : α) (col : List (ℕ × α)) :
    addEntry i v (addEntry j w col) = addEntry j w (addEntry i v col) := by
  induction col with
  | nil => grind [addEntry]
  | cons p col ih => grind [addEntry]

/-- Two entries of one row can be added in either order where addition is exact. -/
theorem addEntry_comm_of_exact (h : ExactAddition α) (i : ℕ) (v w : α) (col : List (ℕ × α)) :
    addEntry i v (addEntry i w col) = addEntry i w (addEntry i v col) := by
  induction col with
  | nil => simp [addEntry, h.comm]
  | cons p col ih =>
    rcases lt_trichotomy i p.1 with hlt | heq | hgt
    · simp [addEntry, hlt, h.comm]
    · simp [addEntry, heq, h.right_comm]
    · simp [addEntry, hgt.not_gt, hgt.ne', ih]

/-- **A canonical column does not depend on the order of the entries,** unless a row
occurs twice and addition is not exact. -/
theorem canonicalColumn_eq_of_perm {col col' : List (ℕ × α)} (hperm : col.Perm col')
    (h : (col.map (·.1)).Nodup ∨ ExactAddition α) :
    canonicalColumn col' = canonicalColumn col := by
  refine (hperm.foldl_eq' ?_ []).symm
  rintro ⟨i, v⟩ hv ⟨j, w⟩ hw acc
  rcases eq_or_ne j i with rfl | hrows
  -- with no row twice, two entries of one row are one entry
  · rcases h with hnodup | hexact
    · rw [List.inj_on_of_nodup_map hnodup hv hw rfl]
    · exact addEntry_comm_of_exact hexact j w v acc
  · exact addEntry_comm_of_ne hrows w v acc

end Column

/-! ## A matrix -/

/-- **The same columns,** with the entries of each in another order. -/
structure Reordered (A B : Csc α) : Prop where
  wellFormed_left : A.WellFormed
  wellFormed_right : B.WellFormed
  nrows_eq : B.nrows = A.nrows
  cols_perm : List.Forall₂ List.Perm A.cols B.cols

/-- **The order of additions does not matter:** every number is one entry, or entries can be
added in any order. -/
def OrderFree [Add α] (A : Csc α) : Prop :=
  (∀ col ∈ A.cols, (col.map (·.1)).Nodup) ∨ ExactAddition α

namespace Reordered

variable {A B : Csc α}

theorem ncols_eq (h : A.Reordered B) : B.ncols = A.ncols := by
  rw [← length_cols, ← length_cols, h.cols_perm.length_eq]

theorem pairs_perm (h : A.Reordered B) : A.pairs.Perm B.pairs := by
  rw [← h.wellFormed_left.flatten_cols, ← h.wellFormed_right.flatten_cols]
  exact List.Perm.flatten_congr h.cols_perm

theorem size_rowIndex_eq (h : A.Reordered B) : B.rowIndex.size = A.rowIndex.size := by
  rw [← h.wellFormed_left.length_pairs, ← h.wellFormed_right.length_pairs, h.pairs_perm.length_eq]

/-- The same values are stored. -/
theorem value_perm (h : A.Reordered B) : A.value.toList.Perm B.value.toList := by
  have hvalue : ∀ {M : Csc α}, M.WellFormed → M.value.toList = M.pairs.map (·.2) := by
    intro M hM
    rw [pairs, List.map_snd_zip (by simp [hM.size_value])]
  rw [hvalue h.wellFormed_left, hvalue h.wellFormed_right]
  exact h.pairs_perm.map _

theorem checkFormat_eq (h : A.Reordered B) : B.checkFormat = A.checkFormat := by
  rw [checkFormat_eq_ok_iff.mpr h.wellFormed_left, checkFormat_eq_ok_iff.mpr h.wellFormed_right]

section Canonical

variable [Add α]

theorem canonical_eq (h : A.Reordered B) (hfree : A.OrderFree) : B.canonical = A.canonical := by
  have hcol : ∀ col ∈ A.cols, (col.map (·.1)).Nodup ∨ ExactAddition α := fun col hcol =>
    hfree.imp_left fun hnodup => hnodup col hcol
  have hcols : A.cols.map canonicalColumn = B.cols.map canonicalColumn := by
    rw [← List.forall₂_eq_eq_eq, List.forall₂_map_left_iff, List.forall₂_map_right_iff]
    exact ((List.forall₂_and_left _ _).mpr ⟨hcol, h.cols_perm⟩).imp fun _ _ hboth =>
      (canonicalColumn_eq_of_perm hboth.2 hboth.1).symm
  rw [canonical, canonical, hcols, h.nrows_eq]

/-- **Canonical form removes the difference.** -/
theorem canonicalize_eq (h : A.Reordered B) (hfree : A.OrderFree) :
    B.canonicalize = A.canonicalize := by
  rcases Nat.lt_or_ge maxEntries A.rowIndex.size with hfull | hroom
  · rw [canonicalize_eq_error h.wellFormed_left hfull,
      canonicalize_eq_error h.wellFormed_right (h.size_rowIndex_eq ▸ hfull)]
  · rw [(canonicalize_eq_ok_iff h.wellFormed_left).mpr ⟨hroom, rfl⟩,
      (canonicalize_eq_ok_iff h.wellFormed_right).mpr
        ⟨h.size_rowIndex_eq ▸ hroom, h.canonical_eq hfree⟩]

end Canonical

variable [Scalar α] {threshold : α}

/-- Small entries are left out of both. -/
theorem withoutSmall (h : A.Reordered B) (threshold : α) :
    (A.withoutSmall threshold).Reordered (B.withoutSmall threshold) where
  wellFormed_left := wellFormed_withoutSmall h.wellFormed_left threshold
  wellFormed_right := wellFormed_withoutSmall h.wellFormed_right threshold
  nrows_eq := h.nrows_eq
  cols_perm := by
    rw [cols_withoutSmall, cols_withoutSmall, List.forall₂_map_left_iff, List.forall₂_map_right_iff]
    exact h.cols_perm.imp fun _ _ hperm => hperm.filter _

/-- Both are finite or neither is. -/
theorem isFinite_eq (h : A.Reordered B) : Dense.isFinite B.value = Dense.isFinite A.value := by
  rw [Dense.isFinite, Dense.isFinite, ← Array.all_toList, ← Array.all_toList, h.value_perm.all_eq]

end Reordered

/-- It does not matter once small entries are left out. -/
theorem OrderFree.withoutSmall [Scalar α] {A : Csc α} (h : A.OrderFree) (threshold : α) :
    (A.withoutSmall threshold).OrderFree := by
  refine h.imp_left fun hnodup => ?_
  rw [cols_withoutSmall]
  refine List.forall_mem_map.mpr fun col hcol => ?_
  exact (hnodup col hcol).sublist (List.filter_sublist.map _)

end Csc

end SplitQP
