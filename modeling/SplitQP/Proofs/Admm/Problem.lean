import SplitQP.Proofs.Sparse.Reshape
import SplitQP.Proofs.Factor.Ldl
import SplitQP.Admm.Problem
/-!
# Accepted programs

A program that is accepted has the data it was given (`Accepted`): both
matrices were well formed and of fitting dimensions, and differ from what
the program holds only in their canonical form; the bounds held are the
given ones, clipped. `Sound` is what the solver relies on, and scaling
keeps.
-/

namespace SplitQP

open Checked SplitQP.Dense

namespace Problem

variable {α : Type} [Scalar α]

/-- A lower bound as it is held. -/
def clipLower (l : α) : α := Scalar.max l (-boundInfinity)

/-- An upper bound as it is held. -/
def clipUpper (u : α) : α := Scalar.min u boundInfinity

/-- **Dimensions fit** and the quadratic part is an upper triangle. -/
structure Sound (p : Problem α) : Prop where
  wellFormed_P : p.P.WellFormed
  wellFormed_A : p.A.WellFormed
  nrows_P : p.P.nrows = p.n
  ncols_P : p.P.ncols = p.n
  nrows_A : p.A.nrows = p.m
  ncols_A : p.A.ncols = p.n
  size_q : p.q.size = p.n
  size_l : p.l.size = p.m
  size_u : p.u.size = p.m
  upper : p.P.IsUpperTriangular

/-- **`p` is the program of the given data.** -/
structure Accepted (P : Csc α) (q : Array α) (A : Csc α) (l u : Array α) (p : Problem α) :
    Prop where
  wellFormed_P : P.WellFormed
  wellFormed_A : A.WellFormed
  square : P.nrows = q.size ∧ P.ncols = q.size
  shape : A.nrows = l.size ∧ A.ncols = q.size
  size_u : u.size = l.size
  upper : P.canonical.IsUpperTriangular
  eq : p = {
    n := A.ncols
    m := A.nrows
    P := P.canonical
    q := q
    A := A.canonical
    l := l.map clipLower
    u := u.map clipUpper
    crossedBounds := crossed l u }

variable {P A : Csc α} {q l u : Array α} {p : Problem α}

omit [Scalar α] in
theorem checkDimensions_eq_ok (h : checkDimensions P q A l u = .ok ()) :
    (P.nrows = q.size ∧ P.ncols = q.size) ∧ (A.nrows = l.size ∧ A.ncols = q.size) ∧
      u.size = l.size ∧ P.WellFormed ∧ A.WellFormed := by
  have hisOk : ∀ B : Csc α, B.checkFormat.isOk = true ↔ B.WellFormed := by
    intro B
    rw [← Csc.checkFormat_eq_ok_iff]
    cases B.checkFormat <;> simp [Except.isOk, Except.toBool]
  unfold checkDimensions at h
  simp only [throw_eq_error, error_bind, pure_eq_ok] at h
  split_ifs at h with h1 h2 h3 h4
  exact ⟨h1, h2, h3, (hisOk P).mp h4.1, (hisOk A).mp h4.2⟩

/-- **Accepting data** does not change what they say. -/
theorem accepted_of_ofData (h : ofData P q A l u = .ok (.ok p)) : Accepted P q A l u p := by
  unfold ofData at h
  split at h
  · cases h
  · rename_i hcheck
    obtain ⟨⟨⟩, hdim, -⟩ := bind_eq_ok.mp hcheck
    obtain ⟨hP, hA, hu, hwfP, hwfA⟩ := checkDimensions_eq_ok hdim
    obtain ⟨P', hP', h⟩ := bind_eq_ok.mp h
    obtain ⟨A', hA', h⟩ := bind_eq_ok.mp h
    obtain ⟨-, rfl⟩ := (Csc.canonicalize_eq_ok_iff hwfP).mp hP'
    obtain ⟨-, rfl⟩ := (Csc.canonicalize_eq_ok_iff hwfA).mp hA'
    obtain ⟨isUpper, hupper, h⟩ := bind_eq_ok.mp h
    cases isUpper with
    | false => cases h
    | true =>
      refine ⟨hwfP, hwfA, hP, hA, hu, ?_, ?_⟩
      · exact (Ldl.isUpper_eq_true_iff (Csc.wellFormed_canonical hwfP)).mp hupper
      · rw [if_pos rfl] at h
        cases h
        rw [Csc.ncols_canonical, Csc.nrows_canonical]
        rfl

/-- **Data are accepted or refused** as far as there is room for them. -/
theorem ofData_ensures (hP : P.rowIndex.size ≤ maxEntries) (hA : A.rowIndex.size ≤ maxEntries) :
    Ensures (ofData P q A l u) fun r => ∀ p, r = .ok p → Accepted P q A l u p := by
  suffices h : ∃ r, ofData P q A l u = .ok r by
    obtain ⟨r, hr⟩ := h
    refine .of_eq hr fun p hp => accepted_of_ofData ?_
    rw [hr, hp]
  rw [ofData]
  split
  · exact ⟨_, rfl⟩
  · rename_i hcheck
    obtain ⟨⟨⟩, hdim, -⟩ := bind_eq_ok.mp hcheck
    obtain ⟨-, -, -, hwfP, hwfA⟩ := checkDimensions_eq_ok hdim
    rw [(Csc.canonicalize_eq_ok_iff hwfP).mpr ⟨hP, rfl⟩, ok_bind,
      (Csc.canonicalize_eq_ok_iff hwfA).mpr ⟨hA, rfl⟩, ok_bind,
      Ldl.isUpper_eq (Csc.wellFormed_canonical hwfP), ok_bind]
    split <;> exact ⟨_, rfl⟩

/-- There was room for accepted data. -/
theorem room_of_ofData (h : ofData P q A l u = .ok (.ok p)) :
    P.rowIndex.size ≤ maxEntries ∧ A.rowIndex.size ≤ maxEntries := by
  have hacc := accepted_of_ofData h
  rw [ofData] at h
  split at h
  · cases h
  · obtain ⟨P', hP', h⟩ := bind_eq_ok.mp h
    obtain ⟨A', hA', -⟩ := bind_eq_ok.mp h
    exact ⟨((Csc.canonicalize_eq_ok_iff hacc.wellFormed_P).mp hP').1,
      ((Csc.canonicalize_eq_ok_iff hacc.wellFormed_A).mp hA').1⟩

/-- **Nothing but a lack of room** keeps data from being accepted or refused. -/
theorem ofData_eq_error {f : Fault} (h : ofData P q A l u = .error f) : f = .capacity ∧
    (maxEntries < P.rowIndex.size ∨ maxEntries < A.rowIndex.size) := by
  have hrefused : ¬ (P.rowIndex.size ≤ maxEntries ∧ A.rowIndex.size ≤ maxEntries) := by
    rintro ⟨hP, hA⟩
    obtain ⟨r, hr, -⟩ := ofData_ensures (q := q) (l := l) (u := u) hP hA
    rw [h] at hr
    cases hr
  refine ⟨?_, by omega⟩
  rw [ofData] at h
  split at h
  · cases h
  · rename_i hcheck
    obtain ⟨⟨⟩, hdim, -⟩ := bind_eq_ok.mp hcheck
    obtain ⟨-, -, -, hwfP, hwfA⟩ := checkDimensions_eq_ok hdim
    rcases Nat.lt_or_ge maxEntries P.rowIndex.size with hP | hP
    · rw [Csc.canonicalize_eq_error hwfP hP] at h
      exact (Except.error.inj h).symm
    · rw [(Csc.canonicalize_eq_ok_iff hwfP).mpr ⟨hP, rfl⟩, ok_bind,
        Csc.canonicalize_eq_error hwfA (by omega)] at h
      exact (Except.error.inj h).symm

/-- Data are refused for what is wrong with them, never as nonconvex. -/
theorem ofData_ne_nonConvex : ofData P q A l u ≠ .ok (.error .nonConvex) := by
  intro h
  unfold ofData at h
  split at h
  · rename_i e hcheck
    cases h
    unfold checkDimensions checkValues at hcheck
    simp only [throw_eq_error, error_bind, pure_eq_ok] at hcheck
    split_ifs at hcheck <;> cases hcheck
  · obtain ⟨P', -, h⟩ := bind_eq_ok.mp h
    obtain ⟨A', -, h⟩ := bind_eq_ok.mp h
    obtain ⟨isUpper, -, h⟩ := bind_eq_ok.mp h
    split_ifs at h <;> cases h

namespace Accepted

theorem sound (h : Accepted P q A l u p) : p.Sound := by
  rw [h.eq]
  exact {
    wellFormed_P := Csc.wellFormed_canonical h.wellFormed_P
    wellFormed_A := Csc.wellFormed_canonical h.wellFormed_A
    nrows_P := h.square.1.trans h.shape.2.symm
    ncols_P := (Csc.ncols_canonical P).trans (h.square.2.trans h.shape.2.symm)
    nrows_A := rfl
    ncols_A := Csc.ncols_canonical A
    size_q := h.shape.2.symm
    size_l := Array.size_map.trans h.shape.1.symm
    size_u := Array.size_map.trans (h.size_u.trans h.shape.1.symm)
    upper := h.upper }

theorem n_eq (h : Accepted P q A l u p) : p.n = q.size := by
  rw [h.eq]
  exact h.shape.2

theorem m_eq (h : Accepted P q A l u p) : p.m = l.size := by
  rw [h.eq]
  exact h.shape.1

theorem q_eq (h : Accepted P q A l u p) : p.q = q := by rw [h.eq]

/-- Lower bounds are clipped. -/
theorem getD_l (h : Accepted P q A l u p) {i : ℕ} (hi : i < l.size) :
    p.l.getD i 0 = clipLower (l.getD i 0) := by
  rw [h.eq, getD_map 0 0 hi]

/-- Upper bounds are clipped. -/
theorem getD_u (h : Accepted P q A l u p) {i : ℕ} (hi : i < l.size) :
    p.u.getD i 0 = clipUpper (u.getD i 0) := by
  rw [h.eq, getD_map 0 0 (by rw [h.size_u]; exact hi)]

end Accepted

/-! ## Accepted matrices -/

namespace Accepted

variable {K : Type} [ExactField K] {P A : Csc K} {q l u : Array K} {p : Problem K}

/-- The quadratic part held is the one given. -/
theorem toSymMatrix_P (h : Accepted P q A l u p) (n : ℕ) :
    p.P.toSymMatrix n = P.toSymMatrix n := by
  ext i j
  rw [h.eq]
  exact Csc.symCoeff_congr (Csc.coeff_canonical P) i j

/-- The constraints held are the ones given. -/
theorem toMatrix_A (h : Accepted P q A l u p) (m n : ℕ) :
    p.A.toMatrix m n = A.toMatrix m n := by
  ext i j
  rw [h.eq]
  exact Csc.coeff_canonical A i j

end Accepted

end Problem

end SplitQP
