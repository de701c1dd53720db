import SplitQP.Proofs.Number.NotANumber
import SplitQP.Proofs.Dense
import SplitQP.Proofs.Sparse.Products
/-!
# What is not a number spreads through products

Norms do not pass over a value that is not a number
(`Dense.isNaN_largest`). A product with a sparse matrix passes it on along
the stored entries that meet it, whatever their values are
(`Csc.mulVec_ensures_isNaN` and its companions).
-/

namespace SplitQP

open Checked SplitQP.Dense Scalar.SpreadsNaN

variable {α : Type} [Scalar α] [Scalar.SpreadsNaN α]

namespace Dense

variable {x y : Array α} {i n : ℕ}

/-- Beyond its end an array answers a number. -/
theorem lt_size_of_isNaN (h : Scalar.isNaN (x.getD i 0)) : i < x.size := by
  by_contra hi
  rw [Array.getD, dif_neg hi, isNaN_zero] at h
  cases h

theorem isNaN_largestFrom {vs : List α} (h : ∃ v ∈ vs, Scalar.isNaN v) (out : α) :
    Scalar.isNaN (largestFrom out vs) := by
  induction vs generalizing out with
  | nil => simp at h
  | cons v vs ih =>
    rw [largestFrom]
    split
    · assumption
    · rename_i hv
      obtain ⟨w, hw, hnan⟩ := h
      obtain rfl | hw := List.mem_cons.mp hw
      · exact absurd (isNaN_abs hnan) hv
      · exact ih ⟨w, hw, hnan⟩ _

/-- **A largest magnitude** is not a number as soon as one entry is not. -/
theorem isNaN_largest (h : Scalar.isNaN (x.getD i 0)) : Scalar.isNaN (largest x.toList) := by
  have hi := lt_size_of_isNaN h
  rw [getD_of_lt 0 hi] at h
  exact isNaN_largestFrom ⟨x[i], Array.getElem_mem_toList hi, h⟩ 0

/-- **Entrywise operations** spread what is not a number where they do. -/
theorem isNaN_zipWith {f : α → α → α}
    (hf : ∀ a b, Scalar.isNaN a ∨ Scalar.isNaN b → Scalar.isNaN (f a b)) (hx : x.size = n)
    (hy : y.size = n) (h : Scalar.isNaN (x.getD i 0) ∨ Scalar.isNaN (y.getD i 0)) :
    Scalar.isNaN ((x.zipWith f y).getD i 0) := by
  have hi : i < n := h.elim (hx ▸ lt_size_of_isNaN ·) (hy ▸ lt_size_of_isNaN ·)
  rw [getD_zipWith_of_lt hx hy hi]
  exact hf _ _ h

theorem isNaN_largest_mul (hx : x.size = n) (hy : y.size = n) (h : Scalar.isNaN (x.getD i 0)) :
    Scalar.isNaN (largest (x.zipWith (· * ·) y).toList) :=
  isNaN_largest (isNaN_zipWith (fun _ _ => isNaN_mul) hx hy (.inl h))

end Dense

namespace Csc

variable {A : Csc α} {x y : Array α} {e : Entry α} {i : ℕ}

omit [Scalar α] [Scalar.SpreadsNaN α] in
/-- **What one step brings about and no step undoes** holds after a run with that step. -/
theorem foldl_of_mem {β γ : Type} {f : β → γ → β} {P Q : β → Prop} {es : List γ} {e : γ}
    (he : e ∈ es) (hQ : ∀ b c, Q b → Q (f b c)) (hstep : ∀ b, Q b → P (f b e))
    (hP : ∀ b c, P b → P (f b c)) {b : β} (hb : Q b) : P (es.foldl f b) := by
  obtain ⟨before, after, rfl⟩ := List.append_of_mem he
  rw [List.foldl_append, List.foldl_cons]
  have hbefore : Q (before.foldl f b) := List.foldlRecOn before f hb fun b hb c _ => hQ b c hb
  exact List.foldlRecOn after f (hstep _ hbefore) fun b hb c _ => hP b c hb

/-! ## One entry -/

theorem isNaN_modify (h : Scalar.isNaN (y.getD i 0)) (j : ℕ) (t : α) :
    Scalar.isNaN ((y.modify j (· + t)).getD i 0) := by
  rw [getD_modify _ (lt_size_of_isNaN h)]
  split
  · exact isNaN_add (.inl h)
  · exact h

theorem isNaN_modify_self (hi : i < y.size) {t : α} (h : Scalar.isNaN t) :
    Scalar.isNaN ((y.modify i (· + t)).getD i 0) := by
  rw [getD_modify _ hi, if_pos rfl]
  exact isNaN_add (.inr h)

theorem isNaN_scatter (a : α) (x : Array α) (e : Entry α) (h : Scalar.isNaN (y.getD i 0)) :
    Scalar.isNaN ((scatter a x y e).getD i 0) := isNaN_modify h _ _

theorem isNaN_scatter_row (a : α) (hrow : e.row < y.size) (h : Scalar.isNaN (x.getD e.col 0)) :
    Scalar.isNaN ((scatter a x y e).getD e.row 0) := isNaN_modify_self hrow (isNaN_mul (.inr h))

theorem isNaN_scatterSym (a : α) (x : Array α) (e : Entry α) (h : Scalar.isNaN (y.getD i 0)) :
    Scalar.isNaN ((scatterSym a x y e).getD i 0) := by
  rw [scatterSym]
  split
  · exact isNaN_scatter a x e h
  · exact isNaN_modify (isNaN_scatter a x e h) _ _

theorem isNaN_scatterSym_row (a : α) (hrow : e.row < y.size) (h : Scalar.isNaN (x.getD e.col 0)) :
    Scalar.isNaN ((scatterSym a x y e).getD e.row 0) := by
  rw [scatterSym]
  split
  · exact isNaN_scatter_row a hrow h
  · exact isNaN_modify (isNaN_scatter_row a hrow h) _ _

/-- An entry counts at its mirrored place too. -/
theorem isNaN_scatterSym_col (a : α) (hcol : e.col < y.size) (h : Scalar.isNaN (x.getD e.row 0)) :
    Scalar.isNaN ((scatterSym a x y e).getD e.col 0) := by
  rw [scatterSym]
  split
  · rename_i hdiag
    rw [hdiag] at h
    exact hdiag ▸ isNaN_scatter_row a (hdiag ▸ hcol) h
  · exact isNaN_modify_self (by rwa [size_scatter]) (isNaN_mul (.inr h))

theorem isNaN_columnDot {col : List (ℕ × α)} {p : ℕ × α} (hp : p ∈ col)
    (h : Scalar.isNaN (x.getD p.1 0)) : Scalar.isNaN (columnDot x col) :=
  foldl_of_mem (P := fun acc => Scalar.isNaN acc) (Q := fun _ => True) hp (fun _ _ => id)
    (fun _ _ => isNaN_add (.inr (isNaN_mul (.inr h)))) (fun _ _ h => isNaN_add (.inl h)) trivial

/-! ## Products -/

/-- **Through the matrix:** an entry of a column passes on what is not a number. -/
theorem mulVec_ensures_isNaN (h : A.WellFormed) (a b : α) (hx : x.size = A.ncols)
    (hy : y.size = A.nrows) : Ensures (A.mulVec a x b y) fun r => r.size = A.nrows ∧
      ∀ e ∈ A.entryList, Scalar.isNaN (x.getD e.col 0) → Scalar.isNaN (r.getD e.row 0) := by
  refine ⟨_, mulVec_eq h a b hx hy, ?_, fun e he hnan => ?_⟩
  · rw [size_foldl (size_scatter a x), size_prescale, hy]
  · refine foldl_of_mem (P := fun y => Scalar.isNaN (y.getD e.row 0))
      (Q := fun y => y.size = A.nrows) (f := scatter a x) he (fun y e' hy => ?_) (fun y hy => ?_)
      (fun y e' => isNaN_scatter a x e') (by rw [size_prescale, hy])
    · rw [size_scatter, hy]
    · exact isNaN_scatter_row a (hy ▸ h.row_lt_of_mem he) hnan

/-- **Through the symmetric matrix:** from the column and from the row of an entry. -/
theorem mulSymVec_ensures_isNaN (h : A.WellFormed) (hsq : A.nrows = A.ncols) (a b : α)
    (hx : x.size = A.ncols) (hy : y.size = A.ncols) :
    Ensures (A.mulSymVec a x b y) fun r => r.size = A.ncols ∧ ∀ e ∈ A.entryList,
      (Scalar.isNaN (x.getD e.col 0) → Scalar.isNaN (r.getD e.row 0)) ∧
      (Scalar.isNaN (x.getD e.row 0) → Scalar.isNaN (r.getD e.col 0)) := by
  refine ⟨_, mulSymVec_eq h hsq a b hx hy, ?_, fun e he => ?_⟩
  · rw [size_foldl (size_scatterSym a x), size_prescale, hy]
  have hspread : ∀ i, (∀ y : Array α, y.size = A.ncols →
      Scalar.isNaN ((scatterSym a x y e).getD i 0)) →
      Scalar.isNaN ((A.entryList.foldl (scatterSym a x) (prescale b y)).getD i 0) := by
    intro i hstep
    refine foldl_of_mem (P := fun y => Scalar.isNaN (y.getD i 0))
      (Q := fun y => y.size = A.ncols) (f := scatterSym a x) he (fun y e' hy => ?_) hstep
      (fun y e' => isNaN_scatterSym a x e') (by rw [size_prescale, hy])
    rw [size_scatterSym, hy]
  constructor
  · intro hnan
    refine hspread _ fun y hy => isNaN_scatterSym_row a ?_ hnan
    rw [hy, ← hsq]
    exact h.row_lt_of_mem he
  · intro hnan
    exact hspread _ fun y hy => isNaN_scatterSym_col a (hy ▸ col_lt_of_mem he) hnan

/-- **Through the transpose:** an entry of a row passes on what is not a number. -/
theorem mulTransposeVec_ensures_isNaN (h : A.WellFormed) (a b : α) (hx : x.size = A.nrows)
    (hy : y.size = A.ncols) : Ensures (A.mulTransposeVec a x b y) fun r => r.size = A.ncols ∧
      ∀ e ∈ A.entryList, Scalar.isNaN (x.getD e.row 0) → Scalar.isNaN (r.getD e.col 0) := by
  refine ⟨_, mulTransposeVec_eq h a b hx hy, by simp [hy], fun e he hnan => ?_⟩
  obtain ⟨hcol, hmem⟩ := mem_entriesOf.mp he
  have hlt : e.col < A.ncols := col_lt_of_mem he
  rw [getD_zipWith 0 [] 0 (by simpa [hy] using hlt) (by simpa using hlt),
    getD_of_lt [] (by simpa using hlt)]
  refine isNaN_add (.inr (isNaN_mul (.inr (isNaN_columnDot (p := (e.row, e.value)) ?_ hnan))))
  simpa using hmem

end Csc

end SplitQP
