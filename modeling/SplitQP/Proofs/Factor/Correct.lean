import SplitQP.Proofs.Factor.Ldl
import SplitQP.Proofs.Factor.Solve
/-!
# What a factorisation is good for

In exact arithmetic the outcome of factoring is decided by the leading
blocks of the permuted matrix: the first singular one is where it stops
(`minors_of_firstZero`), and without one the factors multiply to the
permuted matrix and solve with the given one (`Stored.isFactorisation`).
-/

namespace SplitQP

open Checked SplitQP.Dense TreeState Finset

namespace Ldl

/-! ## Solving does not fault -/

section Solve

variable {α : Type} [Scalar α] {A : Csc α} {inv : Array ℕ} {f : Ldl α}

omit [Scalar α] in
/-- Row indices in range make the factor well formed. -/
theorem Analyses.wellFormed_lower (h : Analyses A inv f) (hrow : f.pivots.InRange A.ncols) :
    f.lower.WellFormed := by
  have hfits := h.fits
  rw [← h.ncols_upper] at hfits hrow
  exact wellFormed_lowerMatrix h.analysed hfits hrow

theorem Stored.inRange (h : Analyses A inv f) (hs : Stored f) : f.pivots.InRange A.ncols := by
  rw [← h.ncols_upper]
  exact hs.hold.inRange h.analysed

omit [Scalar α] in
/-- Every step of the order has an entry. -/
theorem Analyses.perm_lt (h : Analyses A inv f) {p : ℕ} (hp : p ∈ f.perm) : p < A.ncols := by
  obtain ⟨k, hk, rfl⟩ := Array.getElem_of_mem hp
  have hlt := h.inverts.perm_lt k (by rw [← h.inverts.size_perm]; exact hk)
  rwa [getD_of_lt 0 hk] at hlt

theorem Analyses.mapM_read (h : Analyses A inv f) {b : Array α} (hb : b.size = A.ncols) :
    f.perm.mapM (read b) = .ok (f.perm.map (b.getD · 0)) :=
  array_mapM_eq_ok fun p hp => read_eq_ok_getD 0 (by rw [hb]; exact h.perm_lt hp)

/-- What solving answers, as a permutation, two sweeps and a permutation back. -/
theorem solve_eq_ok (h : Analyses A inv f) (hrow : f.pivots.InRange A.ncols) {b : Array α}
    (hb : b.size = A.ncols) :
    f.solve b = .ok (((solvePermuted f.lower.cols f.pivots.dinv
      (f.perm.map (b.getD · 0))).zip f.perm).toList.foldl
        (fun b xp => b.setIfInBounds xp.2 xp.1) b) := by
  have hdim : f.dim = A.ncols := h.fits.size_d
  have hlower : f.lower.WellFormed := h.wellFormed_lower hrow
  have hbelow : Csc.rowsBelow f.dim f.lower.cols = true := Csc.rowsBelow_cols hlower
  rw [solve, require_eq_ok (by rw [hdim, hb]), ok_bind, h.mapM_read hb, ok_bind,
    hlower.columns_eq, ok_bind, require_eq_ok hbelow, ok_bind]
  generalize solvePermuted f.lower.cols f.pivots.dinv (f.perm.map (b.getD · 0)) = x
  have hback := ensures_foldlM (l := (x.zip f.perm).toList) (f := putBack) (s := b)
    (I := fun before b' => b'.size = A.ncols ∧
      b' = before.foldl (fun b xp => b.setIfInBounds xp.2 xp.1) b) ⟨hb, rfl⟩
    (by
      rintro before ⟨v, p⟩ after b' hsplit ⟨hsize, hb'⟩
      have hmem : (v, p) ∈ (x.zip f.perm).toList := by
        rw [hsplit]
        simp
      rw [Array.toList_zip] at hmem
      have hlt : p < A.ncols := h.perm_lt (by simpa using (List.of_mem_zip hmem).2)
      rw [putBack, write_eq_ok_setIfInBounds (by rw [hsize]; exact hlt)]
      exact .ok ⟨by simpa using hsize, by rw [List.foldl_append, ← hb']; rfl⟩)
  obtain ⟨b', hok, -, hb'⟩ := hback
  rw [hok, hb']

/-- **Solving answers,** whatever the factors hold. -/
theorem solve_ensures_size (h : Analyses A inv f) (hrow : f.pivots.InRange A.ncols) {b : Array α}
    (hb : b.size = A.ncols) : Ensures (f.solve b) fun x => x.size = A.ncols :=
  .of_eq (solve_eq_ok h hrow hb)
    ((Csc.size_foldl (fun _ _ => Array.size_setIfInBounds) _ _).trans hb)

/-- What was put back is found. -/
theorem getD_putBack {l : List (α × ℕ)} {b : Array α} (hnd : (l.map (·.2)).Nodup) {v : α} {p : ℕ}
    (hmem : (v, p) ∈ l) (hp : p < b.size) :
    (l.foldl (fun b xp => b.setIfInBounds xp.2 xp.1) b).getD p 0 = v := by
  induction l using List.reverseRecOn with
  | nil => cases hmem
  | append_singleton l q ih =>
    have hsize : (l.foldl (fun b xp => b.setIfInBounds xp.2 xp.1) b).size = b.size :=
      Csc.size_foldl (fun _ _ => Array.size_setIfInBounds) _ _
    rw [List.map_append, List.nodup_append] at hnd
    rw [List.foldl_append, List.foldl_cons, List.foldl_nil,
      getD_of_lt 0 (by simpa [hsize] using hp), Array.getElem_setIfInBounds (by omega)]
    rcases List.mem_append.mp hmem with hl | hq
    · have hne : q.2 ≠ p := by
        rintro rfl
        exact hnd.2.2 q.2 (List.mem_map.mpr ⟨_, hl, rfl⟩) q.2 (by simp) rfl
      rw [if_neg hne, ← getD_of_lt 0 (by omega), ih hnd.1 hl]
    · obtain rfl : (v, p) = q := by simpa using hq
      rw [if_pos rfl]

end Solve

/-! ## What the factors are -/

theorem countP_range_eq_sum (p : ℕ → Bool) (n : ℕ) :
    (List.range n).countP p = ∑ i ∈ range n, if p i = true then 1 else 0 := by
  induction n with
  | zero => rfl
  | succ n ih =>
    rw [List.range_succ, List.countP_append, ih, sum_range_succ, List.countP_singleton]

section Exact

variable {K : Type} [ExactField K] {A : Csc K} {inv : Array ℕ} {f : Ldl K}

/-- A leading block of the matrix with rows and columns rearranged. -/
def permutedMatrix (A : Csc K) (perm : Array ℕ) (m : ℕ) : Matrix (Fin m) (Fin m) K :=
  .of fun a b => A.symCoeff (perm.getD a 0) (perm.getD b 0)

/-- The strictly lower triangular factor as a matrix. -/
def lowerPart (f : Ldl K) (n : ℕ) : Matrix (Fin n) (Fin n) K := f.lower.toMatrix n n

/-- **`f` factors `A` in the order `perm`.** -/
structure IsFactorisation (A : Csc K) (perm : Array ℕ) (f : Ldl K) : Prop where
  strict : ∀ i j : Fin A.ncols, i ≤ j → f.lowerPart A.ncols i j = 0
  product : (1 + f.lowerPart A.ncols) * .diagonal (vec A.ncols f.pivots.d) *
    (1 + f.lowerPart A.ncols).transpose = permutedMatrix A perm A.ncols
  dinv_eq : ∀ i, vec A.ncols f.pivots.dinv i = (vec A.ncols f.pivots.d i)⁻¹
  d_ne : ∀ i, vec A.ncols f.pivots.d i ≠ 0
  positive_eq : f.positive = (univ.filter fun i => 0 < vec A.ncols f.pivots.d i).card
  /-- `solve` gives the one solution, for every right hand side. -/
  solves : ∀ b : Array K, b.size = A.ncols → Ensures (f.solve b) fun x => x.size = A.ncols ∧
    ∀ v, (A.toSymMatrix A.ncols).mulVec v = vec A.ncols b ↔ v = vec A.ncols x

theorem toSymMatrix_upper (h : Analyses A inv f) {m : ℕ} (hm : m ≤ A.ncols) :
    f.upper.toSymMatrix m = permutedMatrix A f.perm m := by
  ext a b
  rw [Csc.toSymMatrix, permutedMatrix, Matrix.of_apply, Matrix.of_apply, h.upper_eq,
    Csc.symCoeff_permuted h.wellFormed h.square rfl h.inverts (by omega) (by omega)]

/-- Nonzero pivots make their leading blocks regular. -/
theorem det_ne_zero (h : Analyses A inv f) {m : ℕ} (hm : m ≤ A.ncols)
    (hne : ∀ j < m, Scalar.eq (pivotAt f.upper f.parent j) 0 = false) :
    (permutedMatrix A f.perm m).det ≠ 0 := by
  have hpivot : ∀ j < m, pivotAt f.upper f.parent j ≠ 0 := fun j hj =>
    ExactField.eq_eq_false_iff.mp (hne j hj)
  rw [← toSymMatrix_upper h hm, det_toSymMatrix h.analysed (by rw [h.ncols_upper]; exact hm)
    fun j hj => hpivot j (by omega), prod_ne_zero_iff]
  exact fun i _ => hpivot i i.isLt

/-- **Where factoring succeeds,** all leading blocks are regular. -/
theorem minors_of_stored (h : Analyses A inv f) (hs : Stored f) :
    ∀ m ≤ A.ncols, (permutedMatrix A f.perm m).det ≠ 0 := fun m hm =>
  det_ne_zero h hm fun j hj => hs.pivot_ne j (by rw [h.ncols_upper]; omega)

/-- **Where factoring stops,** the leading block is the first singular one. -/
theorem minors_of_firstZero (h : Analyses A inv f) {k : ℕ} (hk : FirstZero f k) :
    k < A.ncols ∧ (permutedMatrix A f.perm (k + 1)).det = 0 ∧
      ∀ m ≤ k, (permutedMatrix A f.perm m).det ≠ 0 := by
  have hlt : k < A.ncols := by
    rw [← h.ncols_upper]
    exact hk.lt
  refine ⟨hlt, ?_, fun m hm => det_ne_zero h (by omega) fun j hj => hk.pivot_ne j (by omega)⟩
  rw [← toSymMatrix_upper h hlt]
  exact (pivotAt_eq_zero_iff h.analysed (by rw [h.ncols_upper]; exact hlt) rfl fun j hj =>
    ExactField.eq_eq_false_iff.mp (hk.pivot_ne j hj)).mp (ExactField.eq_iff.mp hk.pivot_eq)

theorem permutedMatrix_eq_submatrix {perm : Array ℕ} (hi : Inverts A.ncols perm inv) :
    permutedMatrix A perm A.ncols = (A.toSymMatrix A.ncols).submatrix hi.equiv hi.equiv := rfl

/-- The factor's entries are those of the rows. -/
theorem lowerPart_apply (h : Analyses A inv f) (hs : Stored f) {i j : Fin A.ncols} :
    f.lowerPart A.ncols i j = lowerEntry f.upper f.parent i j := by
  have hi : (i : ℕ) < f.upper.ncols := by
    rw [h.ncols_upper]
    exact i.isLt
  have hj : (j : ℕ) < f.upper.ncols := by
    rw [h.ncols_upper]
    exact j.isLt
  have hcols : f.lower.cols = (List.range f.upper.ncols).map (lowerColumn f.upper f.parent) :=
    cols_lowerMatrix h.analysed hs.hold
  have hlower : (j : ℕ) < f.lower.ncols := by
    rw [← f.lower.length_cols, hcols]
    simpa using hj
  have hsum := sum_lowerColumn h.analysed (j := j) (fun r v => if r = (i : ℕ) then v else 0)
    (by simp)
  rw [sum_ite_eq' (range f.upper.ncols) (i : ℕ) fun r => lowerEntry f.upper f.parent r j,
    if_pos (mem_range.mpr hi)] at hsum
  rw [lowerPart, Csc.toMatrix, Matrix.of_apply, Csc.coeff_eq_sum_col _ hlower, hcols,
    List.getD_eq_getElem _ _ (by simpa using hj), List.getElem_map, List.getElem_range, hsum]

theorem one_add_lowerPart (h : Analyses A inv f) (hs : Stored f) :
    1 + f.lowerPart A.ncols = unitLower f.upper f.parent A.ncols := by
  ext i j
  have hi : (i : ℕ) < f.upper.ncols := by
    rw [h.ncols_upper]
    exact i.isLt
  rw [Matrix.add_apply, lowerPart_apply h hs, unitLower, Matrix.of_apply,
    unitEntry_eq h.analysed hi, Matrix.one_apply]
  simp only [Fin.ext_iff]

/-! ## Solving -/

theorem Stored.pivotAt_ne (hs : Stored f) {j : ℕ} (hj : j < f.upper.ncols) :
    pivotAt f.upper f.parent j ≠ 0 := ExactField.eq_eq_false_iff.mp (hs.pivot_ne j hj)

theorem Stored.getD_dinv (hs : Stored f) {i : ℕ} (hi : i < f.upper.ncols) :
    f.pivots.dinv.getD i 0 = (pivotAt f.upper f.parent i)⁻¹ := by
  rw [hs.hold.dinv_eq i hi, ExactField.recip_eq]

/-- What is put back stands where it was taken from. -/
theorem vec_putBack {n : ℕ} {perm : Array ℕ} (hi : Inverts n perm inv) {xp b : Array K}
    (hxp : xp.size = n) (hb : b.size = n) :
    vec n ((xp.zip perm).toList.foldl (fun b xp => b.setIfInBounds xp.2 xp.1) b) ∘ hi.equiv =
      vec n xp := by
  have hpsize := hi.size_perm
  have hnd : ((xp.zip perm).toList.map (·.2)).Nodup := by
    rw [Array.toList_zip, List.map_snd_zip (by simp [hxp, hpsize])]
    exact hi.nodup
  funext k
  refine getD_putBack hnd ?_ (by rw [hb]; exact (hi.equiv k).isLt)
  rw [Array.toList_zip, List.mem_iff_getElem]
  refine ⟨k, by simp [hxp, hpsize], ?_⟩
  rw [List.getElem_zip, vec, getD_of_lt 0 (by omega)]
  simp [Inverts.equiv, hpsize]

/-- The given matrix at a vector is the permuted one at its rearrangement. -/
theorem permutedMatrix_mulVec {perm : Array ℕ} (hi : Inverts A.ncols perm inv)
    (v : Fin A.ncols → K) : (permutedMatrix A perm A.ncols).mulVec (v ∘ hi.equiv) =
      (A.toSymMatrix A.ncols).mulVec v ∘ hi.equiv := by
  rw [permutedMatrix_eq_submatrix hi, Matrix.submatrix_mulVec_equiv, Function.comp_assoc,
    Equiv.self_comp_symm, Function.comp_id]

/-- **Solving gives the one solution,** for every right hand side. -/
theorem Stored.solve_ensures (h : Analyses A inv f) (hs : Stored f) {b : Array K}
    (hb : b.size = A.ncols) : Ensures (f.solve b) fun x => x.size = A.ncols ∧
      ∀ v, (A.toSymMatrix A.ncols).mulVec v = vec A.ncols b ↔ v = vec A.ncols x := by
  have hn := h.ncols_upper
  have hi := h.inverts
  have hpsize := hi.size_perm
  obtain ⟨hxsize, hx⟩ := solvePermuted_spec h.analysed (fun j hj => hs.pivotAt_ne hj)
    (b := f.perm.map (b.getD · 0)) (by simp [hpsize, hn]) hs.hold.size_dinv
    fun i hi => hs.getD_dinv hi
  have hcols : f.lower.cols = (List.range f.upper.ncols).map (lowerColumn f.upper f.parent) :=
    cols_lowerMatrix h.analysed hs.hold
  refine .of_eq (solve_eq_ok h (hs.inRange h) hb) ?_
  rw [← hcols] at hxsize hx
  generalize solvePermuted f.lower.cols f.pivots.dinv (f.perm.map (b.getD · 0)) = xp at hxsize hx
  rw [hn] at hxsize hx
  rw [toSymMatrix_upper h le_rfl] at hx
  have hback := vec_putBack hi hxsize hb
  have hright : vec A.ncols (f.perm.map (b.getD · 0)) = vec A.ncols b ∘ hi.equiv := by
    funext k
    exact getD_map 0 0 (by rw [hpsize]; exact k.isLt)
  have hinj : Function.Injective (permutedMatrix A f.perm A.ncols).mulVec := by
    rw [Matrix.mulVec_injective_iff_isUnit, Matrix.isUnit_iff_isUnit_det]
    exact (minors_of_stored h hs A.ncols le_rfl).isUnit
  refine ⟨(Csc.size_foldl (fun _ _ => Array.size_setIfInBounds) _ _).trans hb, fun v => ?_⟩
  rw [← hi.equiv.surjective.injective_comp_right.eq_iff, ← permutedMatrix_mulVec hi, ← hright,
    ← hx, hinj.eq_iff, ← hback, hi.equiv.surjective.injective_comp_right.eq_iff]

/-- **Stored factors factor,** and solve. -/
theorem Stored.isFactorisation (h : Analyses A inv f) (hs : Stored f) :
    IsFactorisation A f.perm f := by
  have hn := h.ncols_upper
  have hlt : ∀ i : Fin A.ncols, (i : ℕ) < f.upper.ncols := fun i => by
    rw [hn]
    exact i.isLt
  have hd : ∀ i : Fin A.ncols, vec A.ncols f.pivots.d i = pivotAt f.upper f.parent i := fun i =>
    hs.hold.d_eq i (hlt i)
  refine ⟨fun i j hij => ?_, ?_, fun i => ?_, fun i => ?_, ?_, fun b hb => hs.solve_ensures h hb⟩
  · rw [lowerPart_apply h hs]
    exact lowerEntry_of_le h.analysed (hlt i) hij
  · have hdiag : Matrix.diagonal (vec A.ncols f.pivots.d) =
        pivotMatrix f.upper f.parent A.ncols := by
      rw [pivotMatrix]
      congr 1
      funext i
      exact hd i
    rw [one_add_lowerPart h hs, hdiag, ← toSymMatrix_upper h le_rfl,
      toSymMatrix_eq_mul h.analysed (by rw [hn]) fun j hj => hs.pivotAt_ne (by omega)]
  · rw [hd]
    exact hs.getD_dinv (hlt i)
  · rw [hd]
    exact hs.pivotAt_ne (hlt i)
  · rw [hs.positive_eq, hn, countP_range_eq_sum, card_filter,
      ← Fin.sum_univ_eq_sum_range (fun i =>
        if Scalar.lt 0 (pivotAt f.upper f.parent i) = true then 1 else 0)]
    simp only [hd, ExactField.lt_iff]

/-- **Factoring in a given order** succeeds exactly where all leading blocks of
the permuted matrix are regular, and stops at the first singular one. The
factors multiply to the permuted matrix, and solve with the given one. -/
theorem factor_given_spec (hA : A.checkFormat = .ok ()) (hsq : A.nrows = A.ncols)
    (hup : A.IsUpperTriangular) (hdiag : A.HasDiagonal) {perm : Array ℕ}
    (hperm : IsOrder A.ncols perm) :
    ((∃ f, factor A (.given perm) = .ok (.ok f)) ↔
      ∀ m ≤ A.ncols, (permutedMatrix A perm m).det ≠ 0) ∧
    ((¬ ∀ m ≤ A.ncols, (permutedMatrix A perm m).det ≠ 0) → ∃ k < A.ncols,
      factor A (.given perm) = .ok (.error (.zeroPivot k)) ∧
      (permutedMatrix A perm (k + 1)).det = 0 ∧ ∀ m ≤ k, (permutedMatrix A perm m).det ≠ 0) ∧
    ∀ f, factor A (.given perm) = .ok (.ok f) → IsFactorisation A perm f := by
  have hwf := Csc.checkFormat_eq_ok_iff.mp hA
  obtain ⟨r, hr, f, inv, rfl, hf, ⟨rfl, hs⟩ | ⟨k, rfl, hk⟩⟩ :=
    factor_ensures hwf hsq hup hdiag (choose_given hperm) hperm
  · have hminors := minors_of_stored hf hs
    refine ⟨⟨fun _ => hminors, fun _ => ⟨f, hr⟩⟩, fun hnot => absurd hminors hnot, fun f' hf' => ?_⟩
    obtain rfl : f = f' := by
      rw [hr] at hf'
      simpa using hf'
    exact hs.isFactorisation hf
  · obtain ⟨hlt, hzero, hbefore⟩ := minors_of_firstZero hf hk
    have hnone : ∀ f', factor A (.given f.perm) ≠ .ok (.ok f') := by
      intro f' hf'
      rw [hr] at hf'
      cases hf'
    refine ⟨⟨fun ⟨f', hf'⟩ => absurd hf' (hnone f'), fun hall => ?_⟩,
      fun _ => ⟨k, hlt, hr, hzero, hbefore⟩, fun f' hf' => absurd hf' (hnone f')⟩
    exact absurd hzero (hall (k + 1) hlt)

end Exact

/-- `[4, -1; -1, -2]`, with its last diagonal entry stored in two parts. -/
def saddle : Csc ℚ := ⟨2, 2, #[0, 1, 4], #[0, 1, 0, 1], #[4, -3, -1, 1]⟩

theorem factor_given_saddle : ∃ f, factor saddle (.given #[1, 0]) = .ok (.ok f) ∧
    IsFactorisation saddle #[1, 0] f := by
  have hformat : saddle.checkFormat = .ok () := by decide +kernel
  have hminors : ∀ m ≤ saddle.ncols, (permutedMatrix saddle #[1, 0] m).det ≠ 0 := by
    decide +kernel
  have horder : IsOrder saddle.ncols #[1, 0] := by decide
  have hspec := factor_given_spec hformat rfl (by decide) (by decide) horder
  obtain ⟨f, hf⟩ := hspec.1.mpr hminors
  exact ⟨f, hf, hspec.2.2 f hf⟩

end Ldl

end SplitQP
