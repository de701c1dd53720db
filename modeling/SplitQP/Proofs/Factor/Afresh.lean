import SplitQP.Proofs.Factor.Ldl
/-!
# Factors are determined by matrix and order

Everything held with a factorisation is a function of the matrix and the
elimination order: the permuted triangle, its tree, the slots and, once
every row is stored, what they hold (`Stored.unique`). So factors that
were written over earlier ones are those that factoring the same matrix
afresh gives, and where it stopped at a zero pivot, factoring afresh stops
there too (`factor_given_eq`). The matrix, in turn, is determined by what
is held for it, up to where its entries stand
(`Analyses.eq_of_samePattern`).
-/

namespace SplitQP

open Checked SplitQP.Dense

variable {α : Type} {n : ℕ}

theorem Inverts.unique {perm inv inv' : Array ℕ} (h : Inverts n perm inv)
    (h' : Inverts n perm inv') : inv = inv' := by
  refine ext_getD 0 h.size_inv h'.size_inv fun i hi => ?_
  rw [← h'.perm_inv i hi, h.inv_perm _ (h'.inv_lt i hi), h'.perm_inv i hi]

theorem IsTree.unique {rows : ℕ → List ℕ} {parent parent' : Array (Option ℕ)}
    (h : IsTree rows n parent) (h' : IsTree rows n parent') : parent = parent' :=
  ext_getD none h.size_eq h'.size_eq fun i hi =>
    Option.ext fun p => (h.parent_iff i hi p).trans (h'.parent_iff i hi p).symm

theorem Layout.unique {rows : ℕ → List ℕ} {colStart colStart' : Array ℕ}
    (h : Layout rows n colStart) (h' : Layout rows n colStart') : colStart = colStart' := by
  refine ext_getD 0 h.size_eq h'.size_eq fun j hj => ?_
  induction j with
  | zero => rw [h.zero, h'.zero]
  | succ j ih => rw [h.succ j (by omega), h'.succ j (by omega), ih (by omega)]

variable [Scalar α] {upper : Csc α} {parent : Array (Option ℕ)} {colStart : Array ℕ}

/-- **Every slot is written,** so that nothing is left over from before. -/
theorem Pivots.Hold.unique (ha : Analysed upper parent colStart) {w w' : Pivots α}
    (h : w.Hold upper parent colStart) (h' : w'.Hold upper parent colStart) : w = w' := by
  -- every slot belongs to an entry of some column, and holds what the entry is
  have hslot : ∀ s < colStart.getD upper.ncols 0,
      w.rowIndex[s]? = w'.rowIndex[s]? ∧ w.value[s]? = w'.value[s]? := by
    intro s hs
    obtain ⟨j, hj, t, ht, rfl⟩ := ha.layout.exists_slot le_rfl hs
    have hrow := List.getElem?_eq_getElem ht
    obtain ⟨hr, hv⟩ := h.written.slot j hj t _ hrow
    obtain ⟨hr', hv'⟩ := h'.written.slot j hj t _ hrow
    exact ⟨hr.trans hr'.symm, hv.trans hv'.symm⟩
  have hrows : w.rowIndex = w'.rowIndex := by
    refine ext_getD 0 h.written.size_rowIndex h'.written.size_rowIndex fun s hs => ?_
    rw [Array.getD_eq_getD_getElem?, Array.getD_eq_getD_getElem?, (hslot s hs).1]
  have hvalues : w.value = w'.value := by
    refine ext_getD 0 h.written.size_value h'.written.size_value fun s hs => ?_
    rw [Array.getD_eq_getD_getElem?, Array.getD_eq_getD_getElem?, (hslot s hs).2]
  have hd : w.d = w'.d := ext_getD 0 h.size_d h'.size_d fun j hj =>
    (h.d_eq j hj).trans (h'.d_eq j hj).symm
  have hdinv : w.dinv = w'.dinv := ext_getD 0 h.size_dinv h'.size_dinv fun j hj =>
    (h.dinv_eq j hj).trans (h'.dinv_eq j hj).symm
  obtain ⟨rowIndex, value, d, dinv⟩ := w
  obtain rfl : rowIndex = w'.rowIndex := hrows
  obtain rfl : value = w'.value := hvalues
  obtain rfl : d = w'.d := hd
  obtain rfl : dinv = w'.dinv := hdinv
  rfl

namespace Ldl

variable {A : Csc α} {inv inv' : Array ℕ} {f f' : Ldl α}

omit [Scalar α] in
/-- What analyses of a matrix in one order share. -/
theorem Analyses.unique (h : Analyses A inv f) (h' : Analyses A inv' f')
    (hperm : f.perm = f'.perm) :
    f' = { f with pivots := f'.pivots, positive := f'.positive } := by
  have hinv : inv = inv' := h.inverts.unique (hperm ▸ h'.inverts)
  have hupper : f.upper = f'.upper := by rw [h.upper_eq, h'.upper_eq, hinv]
  have hlanding : f.landing = f'.landing := by rw [h.landing_eq, h'.landing_eq, hinv]
  -- tree and layout follow from the triangle, which is the same by now
  have hana := h.analysed
  rw [hupper] at hana
  have hparent := hana.tree.unique h'.analysed.tree
  have hstart := hana.layout.unique h'.analysed.layout
  rw [hperm, hupper, hlanding, hparent, hstart]

omit [Scalar α] in
/-- **And the matrix is theirs:** its entries are found in the permuted triangle. -/
theorem Analyses.eq_of_samePattern {B : Csc α} (h : Analyses A inv f) (h' : Analyses B inv' f)
    (hsame : Csc.SamePattern A B) : B = A := by
  have hinverts := h'.inverts
  rw [hsame.ncols_eq] at hinverts
  obtain rfl := h.inverts.unique hinverts
  refine Csc.eq_of_permuted h.wellFormed h.square rfl h.inverts hsame ?_
  rw [← h'.upper_eq, h.upper_eq]

/-- **The factors of a matrix in a given order are unique.** -/
theorem Stored.unique (h : Analyses A inv f) (h' : Analyses A inv' f') (hperm : f.perm = f'.perm)
    (hs : Stored f) (hs' : Stored f') : f = f' := by
  have hf' := h.unique h' hperm
  have hhold := hs'.hold
  have hpositive := hs'.positive_eq
  rw [hf'] at hhold hpositive
  have hpivots : f.pivots = f'.pivots := hs.hold.unique h.analysed hhold
  have hcount : f.positive = f'.positive := hs.positive_eq.trans hpositive.symm
  rw [hf', ← hpivots, ← hcount]

theorem Stored.not_firstZero (hs : Stored f) {k : ℕ} : ¬ FirstZero f k := by
  intro hk
  have hne := hs.pivot_ne k hk.lt
  rw [hk.pivot_eq] at hne
  cases hne

theorem FirstZero.unique {j k : ℕ} (hj : FirstZero f j) (hk : FirstZero f k) : j = k := by
  by_contra hne
  rcases Nat.lt_or_gt_of_ne hne with hlt | hgt
  · have := hk.pivot_ne j hlt
    rw [hj.pivot_eq] at this
    cases this
  · have := hj.pivot_ne k hgt
    rw [hk.pivot_eq] at this
    cases this

/-- Where factoring ends depends on the matrix and the order alone. -/
theorem FirstZero.congr (h : Analyses A inv f) (h' : Analyses A inv' f')
    (hperm : f.perm = f'.perm) {k : ℕ} (hk : FirstZero f' k) : FirstZero f k := by
  rw [h.unique h' hperm] at hk
  exact ⟨hk.lt, hk.pivot_eq, hk.pivot_ne⟩

/-- **Factoring afresh,** in the order of an analysis of the same matrix, gives the
factors stored there, and stops at the zero pivot met there. -/
theorem factor_given_eq (hup : A.IsUpperTriangular) (hdiag : A.HasDiagonal)
    (h : Analyses A inv f) :
    (Stored f → factor A (.given f.perm) = .ok (.ok f)) ∧
      ∀ k, FirstZero f k → factor A (.given f.perm) = .ok (.error (.zeroPivot k)) := by
  have horder : IsOrder A.ncols f.perm := h.inverts.isOrder
  obtain ⟨r, hr, f', inv', hperm, hf', hcase⟩ :=
    factor_ensures h.wellFormed h.square hup hdiag (choose_given horder) horder
  rw [hr]
  rcases hcase with ⟨rfl, hs'⟩ | ⟨j, rfl, hj⟩
  · refine ⟨fun hs => by rw [hs.unique h hf' hperm.symm hs'], fun k hk => ?_⟩
    exact absurd (FirstZero.congr hf' h hperm hk) hs'.not_firstZero
  · have hj' := FirstZero.congr h hf' hperm.symm hj
    refine ⟨fun hs => absurd hj' hs.not_firstZero, fun k hk => ?_⟩
    rw [hj'.unique hk]

end Ldl

end SplitQP
