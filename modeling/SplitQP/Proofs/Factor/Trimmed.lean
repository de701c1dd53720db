import SplitQP.Proofs.Sparse.Trimmed
import SplitQP.Proofs.Factor.Afresh
/-!
# Factoring matrices with room to spare

Whatever is analysed can be read (`readable_of_prepare`), and what its
columns do not need plays no part: cut off, the matrix is analysed in the
same way (`prepare_trimmed`), also after entries have been overwritten
(`trimmed_overwrite`). So what is known about well-formed matrices holds
of all that are accepted.
-/

namespace SplitQP

open Checked SplitQP.Dense

variable {α : Type} {A : Csc α}

namespace Csc

theorem trimmed_setValue (p : ℕ) (v : α) : (A.setValue p v).trimmed = A.trimmed.setValue p v := by
  have hvalue : (A.value.setIfInBounds p v).take (A.start A.ncols) =
      (A.value.take (A.start A.ncols)).setIfInBounds p v := by
    refine Array.ext (by simp) fun i h1 h2 => ?_
    simp only [Array.size_setIfInBounds, Array.take_eq_extract, Array.size_extract] at h1 h2
    simp only [Array.take_eq_extract, Array.getElem_extract, Nat.zero_add]
    rw [Array.getElem_setIfInBounds (by omega), Array.getElem_setIfInBounds (by simp; omega)]
    simp
  simp only [trimmed, setValue]
  rw [← hvalue]
  rfl

theorem Readable.setValue (h : A.Readable) (p : ℕ) (v : α) : (A.setValue p v).Readable where
  size_colStart := h.size_colStart
  start_zero := h.start_zero
  start_le := h.start_le
  row_fits := h.row_fits
  value_fits := by
    rw [Csc.setValue, Array.size_setIfInBounds]
    exact h.value_fits
  row_lt := h.row_lt

end Csc

namespace Ldl

/-- **Overwriting does not reach what is cut off,** or it does not matter. -/
theorem trimmed_overwrite (A : Csc α) (changes : List (ℕ × α)) :
    (overwrite A changes).trimmed = overwrite A.trimmed changes := by
  induction changes generalizing A with
  | nil => rfl
  | cons c changes ih =>
    have hfirst := ih (A.setValue c.1 c.2)
    rwa [Csc.trimmed_setValue] at hfirst

theorem readable_overwrite (h : A.Readable) (changes : List (ℕ × α)) :
    (overwrite A changes).Readable := by
  induction changes generalizing A with
  | nil => exact h
  | cons c changes ih => exact ih (h.setValue c.1 c.2)

/-! ## The analysis -/

theorem checkPattern_eq_ok_iff : checkPattern A = .ok (.ok ()) ↔ A.nrows = A.ncols ∧
    A.isUpper = .ok true ∧
    A.columnIndices.allM (fun j => do return (← A.columnRows j).contains j) = .ok true := by
  constructor
  · intro h
    rw [checkPattern] at h
    split_ifs at h with hsq
    · cases h
    obtain ⟨upper, hupper, h⟩ := bind_eq_ok.mp h
    cases upper with
    | false => cases h
    | true =>
      obtain ⟨diagonal, hdiagonal, h⟩ := bind_eq_ok.mp h
      cases diagonal with
      | false => cases h
      | true => exact ⟨not_not.mp hsq, hupper, hdiagonal⟩
  · rintro ⟨hsq, hupper, hdiagonal⟩
    rw [checkPattern, if_neg (not_not.mpr hsq), hupper, ok_bind, hdiagonal]
    rfl

/-- What the checks establish of a well-formed matrix. -/
theorem isTriangle_of_checkPattern (hA : A.WellFormed)
    (h : checkPattern A = .ok (.ok ())) :
    A.nrows = A.ncols ∧ A.IsUpperTriangular ∧ A.HasDiagonal := by
  obtain ⟨hsq, hupper, hdiagonal⟩ := checkPattern_eq_ok_iff.mp h
  refine ⟨hsq, (isUpper_eq_true_iff hA).mp hupper, fun j hj => ?_⟩
  have hat := of_allM_eq_true hdiagonal j
    (by rw [hA.columnIndices_eq]; exact List.mem_range.mpr hj)
  rw [hA.columnRows_eq hj] at hat
  exact (mem_storedRows_iff hj).mp (List.contains_iff_mem.mp (Except.ok.inj hat))

variable [Scalar α]

/-- **What is analysed can be read.** -/
theorem readable_of_prepare {order : EliminationOrder} {f : Ldl α}
    (h : prepare A order = .ok (.ok f)) : A.Readable := by
  obtain ⟨hpattern, perm, hanalyse⟩ := analyse_of_prepare h
  obtain ⟨hsq, hupper, -⟩ := checkPattern_eq_ok_iff.mp hpattern
  rw [analyse] at hanalyse
  cases hinv : Permutation.inverse perm A.ncols with
  | error e =>
    rw [hinv] at hanalyse
    cases hanalyse
  | ok inv =>
    rw [hinv] at hanalyse
    obtain ⟨⟨upper, landing⟩, hpermute, -⟩ := bind_eq_ok.mp hanalyse
    obtain ⟨count, hnnz, hpermute⟩ := bind_eq_ok.mp hpermute
    obtain ⟨entries, hentries, hpermute⟩ := bind_eq_ok.mp hpermute
    obtain ⟨moved, hmoved, hpermute⟩ := bind_eq_ok.mp hpermute
    obtain ⟨_, hrequire, -⟩ := bind_eq_ok.mp hpermute
    obtain ⟨cols, hcols, hentries⟩ := bind_eq_ok.mp hentries
    cases hentries
    obtain ⟨hsize, hcount⟩ := lt_size_of_read 0 hnnz
    have hlength := congrArg List.length (Csc.map_value_entriesOf cols)
    have hsame := (forall₂_of_mapM_eq_ok hmoved).length_eq
    rw [List.length_zipIdx, require_eq_ok_iff.mp hrequire, ← hcount] at hsame
    simp only [List.length_map] at hlength
    refine Csc.readable_of_columns hsize hcols (hlength.symm.trans hsame) fun j hj => ?_
    have hindex : j ∈ A.columnIndices := by
      rw [Csc.columnIndices, Nat.min_eq_left (by omega)]
      exact List.mem_range.mpr hj
    obtain ⟨rows, hrows, hall⟩ := bind_eq_ok.mp (of_allM_eq_true hupper j hindex)
    refine ⟨rows, hrows, fun i hi => ?_⟩
    have hle := of_decide_eq_true (List.all_eq_true.mp (Except.ok.inj hall) i hi)
    omega

omit [Scalar α] in
theorem checkPattern_trimmed (h : A.Readable) : checkPattern A.trimmed = checkPattern A := by
  have hread : ∀ (g : ℕ → List ℕ → Bool), A.trimmed.columnIndices.allM
      (fun j => do return g j (← A.trimmed.columnRows j)) =
        A.columnIndices.allM fun j => do return g j (← A.columnRows j) := by
    intro g
    rw [h.wellFormed_trimmed.columnIndices_eq, h.columnIndices_eq]
    refine allM_congr fun j hj => ?_
    rw [h.columnRows_eq (List.mem_range.mp hj)]
  rw [checkPattern, checkPattern, Csc.isUpper, Csc.isUpper, hread fun j rows => rows.all (· ≤ j),
    hread fun j rows => rows.contains j]
  rfl

theorem analyse_trimmed (h : A.Readable) (perm : Array ℕ) :
    analyse A.trimmed perm = analyse A perm := by
  have hpermute : ∀ inv, A.trimmed.permuteUpper inv = A.permuteUpper inv := by
    intro inv
    rw [Csc.permuteUpper, Csc.permuteUpper, h.wellFormed_trimmed.nnz_eq, h.nnz_eq,
      h.size_rowIndex_trimmed, Csc.entries, Csc.entries, h.columns_eq]
    rfl
  rw [analyse, analyse]
  simp only [hpermute]
  rfl

/-- **What is cut off plays no part** in a given order. -/
theorem prepare_trimmed (h : A.Readable) (perm : Array ℕ) :
    prepare A.trimmed (.given perm) = prepare A (.given perm) := by
  rw [prepare, prepare, checkPattern_trimmed h]
  simp only [analyse_trimmed h]
  rfl

end Ldl

end SplitQP
