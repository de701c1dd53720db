import SplitQP.Proofs.Factor.Correct
/-!
# Factors that can be used again

A factorisation that meets a zero pivot leaves the rows finished so far
and, for the rest, what was stored before. Such factors can still be
solved with: whatever is computed, and however far, the row indices stay
below the dimension (`refactor_inRange`), and `solve_ensures_size` asks for
no more. Factoring itself answers for every order (`factor_ensures_stored`).
-/

namespace SplitQP

open Checked SplitQP.Dense

variable {α : Type}

variable [Scalar α] {n k : ℕ} {upper : Csc α} {parent : Array (Option ℕ)} {colStart : Array ℕ}

/-! ## Rows write their own index -/

theorem eliminateColumn_inRange {s s' : α × Scratch α × Pivots α} {j : ℕ} (hk : k < n)
    (hw : s.2.2.InRange n) (h : eliminateColumn colStart k s j = .ok s') :
    s'.2.2.InRange n := by
  obtain ⟨pivot, t, w⟩ := s
  obtain ⟨y, -, h⟩ := bind_eq_ok.mp h
  obtain ⟨free, -, h⟩ := bind_eq_ok.mp h
  obtain ⟨first, -, h⟩ := bind_eq_ok.mp h
  obtain ⟨row, -, h⟩ := bind_eq_ok.mp h
  obtain ⟨dinv, -, h⟩ := bind_eq_ok.mp h
  obtain ⟨rowIndex, hwrite, h⟩ := bind_eq_ok.mp h
  obtain ⟨value, -, h⟩ := bind_eq_ok.mp h
  obtain ⟨marked, -, h⟩ := bind_eq_ok.mp h
  obtain ⟨next, -, h⟩ := bind_eq_ok.mp h
  obtain ⟨row', -, h⟩ := bind_eq_ok.mp h
  cases h
  -- of all that is written, only the row index matters here, and it is `k`
  intro i hi
  rcases mem_of_write_eq_ok hwrite hi with hold | rfl
  · exact hw i hold
  · exact hk

theorem factorRow_inRange {s : RowState α} {r : RowState α × Bool} (hk : k < n)
    (hw : s.pivots.InRange n) (h : factorRow upper parent colStart s k = .ok r) :
    r.1.pivots.InRange n := by
  obtain ⟨column, -, h⟩ := bind_eq_ok.mp h
  obtain ⟨g, -, h⟩ := bind_eq_ok.mp h
  obtain ⟨⟨pivot, t, w⟩, hloop, h⟩ := bind_eq_ok.mp h
  have hall : w.InRange n := of_foldlM_eq_ok (I := fun s => s.2.2.InRange n)
    (fun _ _ _ hs hstep => eliminateColumn_inRange hk hs hstep) hw hloop
  obtain ⟨d, -, h⟩ := bind_eq_ok.mp h
  dsimp only at h
  split at h
  · cases h
    exact hall
  · obtain ⟨dinv, -, h⟩ := bind_eq_ok.mp h
    cases h
    exact hall

theorem factorRows_inRange {count : ℕ} {s : RowState α} {r : RowState α × Except LdlError ℕ}
    (hcount : k + count ≤ n) (hw : s.pivots.InRange n)
    (h : factorRows upper parent colStart count k s = .ok r) : r.1.pivots.InRange n := by
  induction count generalizing k s with
  | zero =>
    cases h
    exact hw
  | succ count ih =>
    obtain ⟨⟨s', go⟩, hrow, h⟩ := bind_eq_ok.mp h
    have hw' : s'.pivots.InRange n := factorRow_inRange (by omega) hw hrow
    cases go with
    | true => exact ih (by omega) hw' h
    | false =>
      cases h
      exact hw'

theorem factoriseIn_inRange {w : Pivots α} {t : Scratch α}
    {r : Pivots α × Scratch α × Except LdlError ℕ} (hw : w.InRange w.d.size)
    (h : factoriseIn upper parent colStart w t = .ok r) : r.1.InRange w.d.size := by
  obtain ⟨t', -, h⟩ := bind_eq_ok.mp h
  obtain ⟨⟨s, outcome⟩, hrows, h⟩ := bind_eq_ok.mp h
  cases h
  exact factorRows_inRange (s := ⟨t', w, 0⟩) (by omega) hw hrows

namespace Ldl

variable {A : Csc α} {inv : Array ℕ} {f : Ldl α}

/-- **Factoring again** keeps row indices in range, also where it stops early. -/
theorem refactorIn_inRange {t : Scratch α} {r : Ldl α × Scratch α × Except LdlError Unit}
    (hw : f.pivots.InRange f.dim) (h : f.refactorIn t = .ok r) : r.1.pivots.InRange f.dim := by
  obtain ⟨⟨w, t', outcome⟩, hw', h⟩ := bind_eq_ok.mp h
  have hrange := factoriseIn_inRange hw hw'
  cases outcome with
  | ok positive =>
    cases h
    exact hrange
  | error e =>
    cases h
    exact hrange

theorem refactor_inRange {r : Ldl α × Except LdlError Unit} (hw : f.pivots.InRange f.dim)
    (h : f.refactor = .ok r) : r.1.pivots.InRange f.dim := by
  obtain ⟨⟨f', t', outcome⟩, hf', h⟩ := bind_eq_ok.mp h
  cases h
  exact refactorIn_inRange hw hf'

omit [Scalar α] in
/-- Writing entries touches no factor. -/
theorem pivots_of_setEntries {f' : Ldl α} {positions : Array ℕ} {values : Array α}
    (h : f.setEntries positions values = .ok f') : f'.pivots = f.pivots := by
  obtain ⟨_, -, h⟩ := bind_eq_ok.mp h
  obtain ⟨value, -, h⟩ := bind_eq_ok.mp h
  cases h
  rfl

/-- **What is factored is stored,** and an order that is none is refused. -/
theorem factor_ensures_stored (hA : A.WellFormed) (hsq : A.nrows = A.ncols)
    (hup : A.IsUpperTriangular) (hdiag : A.HasDiagonal) (order : EliminationOrder) :
    Ensures (factor A order) fun r => ∀ f, r = .ok f → ∃ inv, Analyses A inv f ∧ Stored f := by
  have hrefused : ∀ e : LdlError, factor A order = .ok (.error e) →
      Ensures (factor A order) fun r => ∀ f, r = .ok f → ∃ inv, Analyses A inv f ∧ Stored f :=
    fun e he => .of_eq he fun f hf => by cases hf
  cases hchoose : order.choose A with
  | error e =>
    refine hrefused e ?_
    rw [factor, prepare, checkPattern_eq_ok hA hsq hup hdiag]
    simp only [ok_bind, hchoose]
    rfl
  | ok perm =>
    cases hinv : Permutation.inverse perm A.ncols with
    | error e =>
      refine hrefused e ?_
      rw [factor, prepare_eq hA hsq hup hdiag hchoose, analyse, hinv]
      rfl
    | ok inv =>
      have hperm := Permutation.isOrder_of_inverse hinv
      refine (factor_ensures hA hsq hup hdiag hchoose hperm).mono ?_
      rintro r ⟨f, inv, -, hf, ⟨rfl, hstored⟩ | ⟨j, rfl, -⟩⟩
      · rintro f' hf'
        cases hf'
        exact ⟨inv, hf, hstored⟩
      · rintro f' hf'
        cases hf'

end Ldl

end SplitQP
